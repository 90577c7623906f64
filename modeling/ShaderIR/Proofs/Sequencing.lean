import Mathlib.Data.List.Basic

/-!
# Steps in sequence

A computation that takes one step after another may carry a state along, may end with a fault, or
both. Run in a state, a sequence succeeds exactly when its steps do. The facts about lists and
arrays at the end are those that loops over them go by.
-/

set_option autoImplicit false

namespace ShaderIR

section

variable {σ ε ε' α β : Type}

theorem except_ok {x : Except ε α} {f : α → Except ε β} {r : β} (h : (x >>= f) = .ok r) :
    ∃ a, x = .ok a ∧ f a = .ok r := by
  cases x with
  | error e => cases h
  | ok a => exact ⟨a, rfl, h⟩

theorem ok_of_toOption {x : Except ε α} {a : α} (h : x.toOption = some a) : x = .ok a := by
  cases x with
  | error e => cases h
  | ok b => exact congrArg Except.ok (Option.some.inj h)

theorem mapError_eq_ok_iff {f : ε → ε'} {x : Except ε α} {a : α} :
    x.mapError f = .ok a ↔ x = .ok a := by
  cases x <;> simp [Except.mapError]

theorem mapError_eq_error {f : ε → ε'} {x : Except ε α} {e' : ε'} (h : x.mapError f = .error e') :
    ∃ e, x = .error e ∧ f e = e' := by
  cases x with
  | error e => exact ⟨e, rfl, Except.error.inj h⟩
  | ok a => cases h

/-- A loop that may fail, with an invariant about what is left. -/
theorem foldlM_ok {f : β → α → Except ε β} (I : List α → β → Prop)
    (step : ∀ x xs b b', I (x :: xs) b → f b x = .ok b' → I xs b') {xs : List α} {b b' : β}
    (hI : I xs b) (h : xs.foldlM f b = .ok b') : I [] b' := by
  induction xs generalizing b with
  | nil =>
    cases h
    exact hI
  | cons x xs ih =>
    rw [List.foldlM_cons] at h
    obtain ⟨c, hc, h⟩ := except_ok h
    exact ih (step x xs b c hI hc) h

theorem state_bind (x : StateM σ α) (f : α → StateM σ β) (s : σ) :
    (x >>= f) s = f (x s).1 (x s).2 := rfl

theorem state_get (s : σ) : (get : StateM σ σ) s = (s, s) := rfl

theorem stateT_ok {x : StateT σ (Except ε) α} {f : α → StateT σ (Except ε) β} {s s' : σ} {r : β}
    (h : (x >>= f) s = .ok (r, s')) : ∃ a t, x s = .ok (a, t) ∧ f a t = .ok (r, s') := by
  obtain ⟨⟨a, t⟩, hx, hf⟩ := except_ok h
  exact ⟨a, t, hx, hf⟩

theorem stateT_bind {x : StateT σ (Except ε) α} {f : α → StateT σ (Except ε) β} {s t : σ} {a : α}
    (h : x s = .ok (a, t)) : (x >>= f) s = f a t := by
  have hrun : (x >>= f) s = (x s >>= fun p => f p.1 p.2) := rfl
  rw [hrun, h]
  rfl

/-- The state that a sequence has reached stays when it ends with a fault. -/
theorem exceptT_bind (x : ExceptT ε (StateM σ) α) (f : α → ExceptT ε (StateM σ) β) (s : σ) :
    (x >>= f) s = match x s with
      | (.ok a, t) => f a t
      | (.error e, t) => (.error e, t) := by
  change ExceptT.bindCont f (x s).1 (x s).2 = _
  rcases x s with ⟨a | a, t⟩ <;> rfl

theorem exceptT_ok {x : ExceptT ε (StateM σ) α} {f : α → ExceptT ε (StateM σ) β} {s s' : σ} {r : β}
    (h : (x >>= f) s = (.ok r, s')) : ∃ a t, x s = (.ok a, t) ∧ f a t = (.ok r, s') := by
  rw [exceptT_bind] at h
  rcases hx : x s with ⟨e | a, t⟩
  · rw [hx] at h
    cases h
  · rw [hx] at h
    exact ⟨a, t, rfl, h⟩

theorem lift_ok {x : StateM σ α} {s s' : σ} {r : α}
    (h : (liftM x : ExceptT ε (StateM σ) α) s = (.ok r, s')) : x s = (r, s') := by
  have hrun : (liftM x : ExceptT ε (StateM σ) α) s = (.ok (x s).1, (x s).2) := rfl
  rw [hrun] at h
  injection h with hr hs
  injection hr with hr
  exact Prod.ext hr hs

theorem pure_ok {a r : α} {s s' : σ} (h : (pure a : ExceptT ε (StateM σ) α) s = (.ok r, s')) :
    a = r ∧ s = s' := by
  have hrun : (pure a : ExceptT ε (StateM σ) α) s = (.ok a, s) := rfl
  rw [hrun] at h
  injection h with hr hs
  injection hr with hr
  exact ⟨hr, hs⟩

theorem foldl_fixed {f : α → β → α} {a : α} (xs : List β) (h : ∀ x ∈ xs, f a x = a) :
    xs.foldl f a = a := by
  induction xs with
  | nil => rfl
  | cons x xs ih =>
    rw [List.foldl_cons, h x (.head _)]
    exact ih fun y hy => h y (.tail _ hy)

theorem findSome?_congr {f g : α → Option β} {xs : List α} (h : ∀ x ∈ xs, f x = g x) :
    xs.findSome? f = xs.findSome? g := by
  rw [← List.head?_filterMap, ← List.head?_filterMap, List.filterMap_congr h]

theorem mem_of_lookup {name : String} {a : α} {xs : List (String × α)}
    (h : xs.lookup name = some a) : (name, a) ∈ xs := by
  obtain ⟨pre, post, rfl, -⟩ := List.lookup_eq_some_iff.mp h
  exact List.mem_append_right _ (.head _)

theorem push_old (xs : Array α) (x : α) {n : Nat} (h : n < xs.size) :
    (xs.push x)[n]? = xs[n]? := by
  simp [Array.getElem?_push, show n ≠ xs.size by omega]

theorem exists_of_mem_range' {xs : List α} {n x : Nat} (h : x ∈ List.range' n xs.length) :
    ∃ i y, xs[i]? = some y ∧ x = n + i := by
  obtain ⟨i, hi, rfl⟩ := List.mem_range'.mp h
  exact ⟨i, xs[i], List.getElem?_eq_getElem hi, by simp⟩

theorem filterMap_range' {xs : List α} {n : Nat} {g : Nat → Option β} {F : α → β}
    (h : ∀ i x, xs[i]? = some x → g (n + i) = some (F x)) :
    (List.range' n xs.length).filterMap g = xs.map F := by
  induction xs generalizing n with
  | nil => rfl
  | cons x xs ih =>
    have hrest := ih (n := n + 1) fun i y hy => by
      rw [Nat.add_assoc, Nat.add_comm 1 i]
      exact h (i + 1) y hy
    have hhead : g n = some (F x) := h 0 x rfl
    rw [List.length_cons, List.range'_succ, List.filterMap_cons_some hhead, hrest]
    rfl

end

end ShaderIR
