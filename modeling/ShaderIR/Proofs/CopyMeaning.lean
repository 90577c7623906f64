import ShaderIR.Proofs.Places
import ShaderIR.Proofs.SplittingStep

/-!
# Splitting keeps the meaning

A copy moves all vectors and scalars of a type at once; its code moves them one after the other.
While the code runs, memory holds at each place what the copy leaves there, or it still holds what
was there before and a transfer of the queue is to write it. A load may come after a store to the
same place only if the copy goes from a place to itself, and then it finds what was there before.
-/

set_option autoImplicit false

namespace ShaderIR

mutual

def Ty.sized : Ty → Bool
  | .vector _ n => 1 ≤ n && n ≤ 8
  | .array t _ => t.sized
  | .struct _ fs => Ty.fieldsSized fs
  | .absent | .scalar _ => true

def Ty.fieldsSized : List (String × Ty) → Bool
  | [] => true
  | (_, t) :: fs => t.sized && Ty.fieldsSized fs

end

theorem Ty.sized_of_mem {fs : List (String × Ty)} (h : Ty.fieldsSized fs = true)
    {f : String × Ty} (hf : f ∈ fs) : f.2.sized = true := by
  induction fs with
  | nil => simp at hf
  | cons g fs ih =>
    simp only [Ty.fieldsSized, Bool.and_eq_true] at h
    rcases List.mem_cons.mp hf with rfl | hf
    · exact h.1
    · exact ih h.2 hf

theorem Ty.sized_inside {t u : Ty} {x : Sel} (h : t.sized = true) (hx : t.inside x = some u) :
    u.sized = true := by
  cases t with
  | array t n =>
    cases x with
    | index i =>
      simp only [Ty.inside, Option.ite_none_right_eq_some, Option.some.injEq] at hx
      exact hx.2 ▸ h
    | field f => simp [Ty.inside] at hx
  | struct name fs =>
    cases x with
    | index i => simp [Ty.inside] at hx
    | field f =>
      obtain ⟨g, hg, rfl⟩ := Option.map_eq_some_iff.mp hx
      exact Ty.sized_of_mem h (List.mem_of_getElem? hg)
  | _ => cases x <;> simp [Ty.inside] at hx

theorem Ty.sized_reach {t u : Ty} {path : List Sel} (h : t.sized = true)
    (hp : t.reach path = some u) : u.sized = true := by
  induction path generalizing u with
  | nil =>
    obtain rfl : t = u := by simpa [Ty.reach] using hp
    exact h
  | cons x path ih =>
    obtain ⟨w, hw, hu⟩ := Option.bind_eq_some_iff.mp hp
    exact Ty.sized_inside (ih hw) hu

namespace Ty

theorem eq_nil_of_leaf? {t : Ty} (h : t.isVectorOrScalar = true) {y : List Sel}
    (hy : (t.leaf? y).isSome) : y = [] := by
  rcases List.eq_nil_or_concat y with rfl | ⟨y, x, rfl⟩
  · rfl
  · have hx : t.reach [x] = none := by
      cases t <;> cases x <;> simp_all [reach, inside, isVectorOrScalar]
    simp [leaf?, reach_append, hx] at hy

/-- What lies inside of an array or struct lies inside of one of its parts. -/
theorem leaf?_split {t : Ty} (h : t.isVectorOrScalar = false) {y : List Sel}
    (hy : (t.leaf? y).isSome) :
    ∃ x u z, t.inside x = some u ∧ y = z ++ [x] ∧ (u.leaf? z).isSome := by
  rcases List.eq_nil_or_concat y with rfl | ⟨z, x, rfl⟩
  · simp [leaf?, reach, h] at hy
  · rw [List.concat_eq_append, leaf?, reach_append] at hy
    cases hx : t.inside x with
    | none => simp [reach, hx] at hy
    | some u => exact ⟨x, u, z, hx, List.concat_eq_append, by simpa [leaf?, reach, hx] using hy⟩

end Ty

section

variable {ε : Type} (m : Machine ε)

theorem execAll_constants (xs : List (Value × Nat)) (hn : (xs.map Prod.fst).Nodup)
    (hb : ∀ x ∈ xs, x.1.bits = 32) (s : State ε) :
    let t := execAll m s (xs.map fun (v, i) => .const v [Cursor.word i])
    Agree (· ∉ xs.map Prod.fst) (fun _ => True) (fun _ => True) s t ∧
      ∀ x ∈ xs, indexOf (t.values x.1) = UInt32.ofNat x.2 := by
  induction xs generalizing s with
  | nil => exact ⟨.refl s, by simp⟩
  | cons x xs ih =>
    obtain ⟨v, i⟩ := x
    simp only [List.map_cons, List.nodup_cons] at hn
    obtain ⟨hagree, hindex⟩ := ih hn.2 (fun x hx => hb x (.tail _ hx))
      (s.define v fun j => (([Cursor.word i].getD j 0)).toNat)
    refine ⟨?_, ?_⟩
    · refine Agree.trans ((agree_define s v _).mono ?_ (fun _ h => h) fun _ h => h)
        (hagree.mono ?_ (fun _ h => h) fun _ h => h)
      · rintro u hu rfl
        exact hu (by simp)
      · intro u hu hmem
        exact hu (by simp only [List.map_cons]; exact .tail _ hmem)
    · intro x hx
      rcases List.mem_cons.mp hx with rfl | hx
      · have hbits : v.bits = 32 := hb (v, i) (.head _)
        rw [List.map_cons, execAll_cons]
        exact (congrArg indexOf (hagree.values v hn.1)).trans
          (by simpa [State.define, hbits] using indexOf_word i)
      · exact hindex x hx

end

structure Transfer.At {ε : Type} (s : State ε) (type : Ty) (d c : Place) (t : Transfer)
    (x : List Sel) : Prop where
  dst : s.place? t.dst = some ⟨d.var, x ++ d.path⟩
  src : s.place? t.src = some ⟨c.var, x ++ c.path⟩
  reach : type.reach x = some t.type
  same : hopsType t.src = t.type

def Transfer.Awaits {ε : Type} (s : State ε) (t : Transfer) (p : Place) : Prop :=
  ∃ q y, s.place? t.dst = some q ∧ p = ⟨q.var, y ++ q.path⟩ ∧ (t.type.leaf? y).isSome

/-- The state on the way from the memory `old` to what a copy from `c` to `d` makes of it. -/
structure Copying {ε : Type} (old : Place → Lanes) (type : Ty) (d c : Place) (ts : List Transfer)
    (s : State ε) : Prop where
  stands : ∀ t ∈ ts, ∃ x, t.At s type d c x
  memory : ∀ p, s.memory p = State.copied old type d c p ∨
    s.memory p = old p ∧ ∃ t ∈ ts, t.Awaits s p

structure Transfer.Part {ε : Type} (s : State ε) (t u : Transfer) (x : Sel) : Prop where
  dst : s.place? u.dst = (s.place? t.dst).map fun p => ⟨p.var, x :: p.path⟩
  src : s.place? u.src = (s.place? t.src).map fun p => ⟨p.var, x :: p.path⟩
  inside : t.type.inside x = some u.type
  same : hopsType t.src = t.type → hopsType u.src = u.type

section

variable {ε : Type} {old : Place → Lanes} {type : Ty} {d c : Place} {t : Transfer}
  {queue ts : List Transfer} {s s' : State ε}

theorem Transfer.place?_agree {K : Value → Prop} {M : Variable → Prop}
    (ha : Agree K (fun _ => True) M s s') (hu : ∀ hop ∈ t.hops, ∀ v ∈ hop.uses, K v) :
    s'.place? t.dst = s.place? t.dst ∧ s'.place? t.src = s.place? t.src := by
  refine ⟨ha.place? (fun v hv => ?_) fun _ _ => trivial,
    ha.place? (fun v hv => ?_) fun _ _ => trivial⟩
  · obtain ⟨hop, hh, hv⟩ := List.mem_flatMap.mp hv
    exact hu hop (List.mem_append_left _ hh) v hv
  · obtain ⟨hop, hh, hv⟩ := List.mem_flatMap.mp hv
    exact hu hop (List.mem_append_right _ hh) v hv

theorem Copying.agree {K : Value → Prop} (h : Copying old type d c ts s)
    (ha : Agree K (fun _ => True) (fun _ => True) s s')
    (hu : ∀ t ∈ ts, ∀ hop ∈ t.hops, ∀ v ∈ hop.uses, K v) : Copying old type d c ts s' := by
  constructor
  · intro t ht
    obtain ⟨x, hx⟩ := h.stands t ht
    obtain ⟨hd, hs⟩ := Transfer.place?_agree ha (hu t ht)
    exact ⟨x, hd.trans hx.dst, hs.trans hx.src, hx.reach, hx.same⟩
  · intro p
    rw [ha.memory p trivial]
    refine (h.memory p).imp_right fun ⟨hm, t, ht, q, y, hq, hy⟩ => ⟨hm, t, ht, q, y, ?_, hy⟩
    rw [(Transfer.place?_agree ha (hu t ht)).1, hq]

/-- An array or struct may give way to all its parts. -/
theorem Copying.parts {us : List Transfer} (h : Copying old type d c (t :: queue) s)
    (ht : t.type.isVectorOrScalar = false) (hus : ∀ u ∈ us, ∃ x, t.Part s u x)
    (hall : ∀ x w, t.type.inside x = some w → ∃ u ∈ us, t.Part s u x) :
    Copying old type d c (queue ++ us) s := by
  constructor
  · intro u hu
    rcases List.mem_append.mp hu with hu | hu
    · exact h.stands u (.tail _ hu)
    · obtain ⟨x, hx⟩ := h.stands t (.head _)
      obtain ⟨y, hy⟩ := hus u hu
      exact ⟨y :: x, by rw [hy.dst, hx.dst]; rfl, by rw [hy.src, hx.src]; rfl,
        by simp [Ty.reach, hx.reach, hy.inside], hy.same hx.same⟩
  · intro p
    rcases h.memory p with hm | ⟨hm, u, hu, q, y, hq, hp, hy⟩
    · exact .inl hm
    refine .inr ⟨hm, ?_⟩
    rcases List.mem_cons.mp hu with rfl | hu
    · obtain ⟨x, w, z, hin, rfl, hz⟩ := Ty.leaf?_split ht hy
      obtain ⟨v, hv, hpart⟩ := hall x w hin
      obtain rfl : v.type = w := by simpa [hin] using hpart.inside.symm
      exact ⟨v, List.mem_append_right _ hv, _, z, by rw [hpart.dst, hq]; rfl, by simp [hp], hz⟩
    · exact ⟨u, List.mem_append_left _ hu, q, y, hq, hp, hy⟩

theorem Copying.array {elem : Ty} {n : Int} {vs : List Value}
    (h : Copying old type d c (t :: queue) s) (ht : t.type = .array elem n)
    (hv : vs.length = n.toNat)
    (hindex : ∀ x ∈ vs.zipIdx, indexOf (s.values x.1) = UInt32.ofNat x.2) :
    Copying old type d c (queue ++ vs.map t.element) s := by
  have hpart : ∀ v i, (v, i) ∈ vs.zipIdx → t.Part s (t.element v) (.index (UInt32.ofNat i)) := by
    intro v i hvi
    have hlt : i < n.toNat := hv ▸ List.snd_lt_of_mem_zipIdx hvi
    have hidx := hindex (v, i) hvi
    refine ⟨?_, ?_, ?_, fun hs => ?_⟩
    · simp [Transfer.element, elementHops, State.place?, State.read, ← hidx]
    · simp [Transfer.element, elementHops, State.place?, State.read, ← hidx]
    · have hi : ((UInt32.ofNat i).toNat : Int) < n := by
        rw [UInt32.toNat_ofNat']
        have := Nat.mod_le i (2 ^ 32)
        omega
      simp only [ht, Ty.inside, if_pos hi]
      show some elem = some t.type.elementType
      rw [ht]
      rfl
    · show (hopsType t.src).elementType = t.type.elementType
      rw [hs]
  refine h.parts (by simp [ht, Ty.isVectorOrScalar]) ?_ ?_
  · intro u hu
    obtain ⟨v, hv', rfl⟩ := List.mem_map.mp hu
    obtain ⟨i, hi⟩ := List.mem_iff_getElem?.mp hv'
    exact ⟨_, hpart v i (List.mem_zipIdx_iff_getElem?.mpr hi)⟩
  · intro x w hx
    rw [ht] at hx
    cases x with
    | field f => simp [Ty.inside] at hx
    | index i =>
      simp only [Ty.inside, Option.ite_none_right_eq_some] at hx
      have hlt : i.toNat < vs.length := by omega
      have hmem := List.getElem?_eq_getElem hlt
      have hin := hpart _ i.toNat (List.mem_zipIdx_iff_getElem?.mpr hmem)
      rw [UInt32.ofNat_toNat] at hin
      exact ⟨_, List.mem_map_of_mem (List.mem_of_getElem? hmem), hin⟩

theorem Copying.struct {name : String} {fields : List (String × Ty)}
    (h : Copying old type d c (t :: queue) s) (ht : t.type = .struct name fields) :
    Copying old type d c (queue ++ (List.range fields.length).map t.field) s := by
  have hpart : ∀ f < fields.length, t.Part s (t.field f) (.field f) := by
    intro f hf
    refine ⟨rfl, rfl, ?_, fun hs => ?_⟩
    · show t.type.inside (.field f) = some (t.type.fieldType f)
      simp [ht, Ty.inside, Ty.fieldType, List.getElem?_eq_getElem hf]
    · show (hopsType t.src).fieldType f = t.type.fieldType f
      rw [hs]
  refine h.parts (by simp [ht, Ty.isVectorOrScalar]) ?_ ?_
  · intro u hu
    obtain ⟨f, hf, rfl⟩ := List.mem_map.mp hu
    exact ⟨_, hpart f (List.mem_range.mp hf)⟩
  · intro x w hx
    rw [ht] at hx
    cases x with
    | index i => simp [Ty.inside] at hx
    | field f =>
      obtain ⟨g, hg, -⟩ := Option.map_eq_some_iff.mp hx
      have hlt := (List.getElem?_eq_some_iff.mp hg).1
      exact ⟨_, List.mem_map_of_mem (List.mem_range.mpr hlt), hpart f hlt⟩

theorem copied_of_leaf {x : List Sel} {u : Ty} (hx : type.leaf? x = some u) :
    State.copied old type d c ⟨d.var, x ++ d.path⟩ =
      blend (fun i => (i : Int) < u.components) (fit u.bits (old ⟨c.var, x ++ c.path⟩))
        (old ⟨d.var, x ++ d.path⟩) := by
  have hsteps : stepsFrom d.path (x ++ d.path) = some x := stepsFrom_eq_some.mpr rfl
  simp [State.copied, hsteps, hx]

/-- A copy changes the vectors and scalars inside of its destination only. -/
theorem copied_cases (old : Place → Lanes) (type : Ty) (d c p : Place) :
    State.copied old type d c p = old p ∨
    ∃ x u, type.leaf? x = some u ∧ p = ⟨d.var, x ++ d.path⟩ := by
  unfold State.copied
  split
  · rename_i hvar
    cases hsteps : stepsFrom d.path p.path with
    | none => exact .inl rfl
    | some x =>
      cases hx : type.leaf? x with
      | none => exact .inl (by simp [hx])
      | some u =>
        refine .inr ⟨x, u, hx, ?_⟩
        rw [← hvar, ← stepsFrom_eq_some.mp hsteps]
  · exact .inl rfl

/-- Reading a vector or scalar of the source on the way gives what it held at the start. -/
theorem Copying.fit_source (h : Copying old type d c ts s)
    (hd : d.var.type.parts d.path = some type) (hc : c.var.type.parts c.path = some type)
    {x : List Sel} {u : Ty} (hx : type.leaf? x = some u) {i : Nat} (hi : (i : Int) < u.components) :
    s.memory ⟨c.var, x ++ c.path⟩ i % 2 ^ u.bits.toNat =
      old ⟨c.var, x ++ c.path⟩ i % 2 ^ u.bits.toNat := by
  rcases h.memory ⟨c.var, x ++ c.path⟩ with hm | ⟨hm, -⟩
  · rw [hm]
    rcases copied_cases old type d c ⟨c.var, x ++ c.path⟩ with hsame | ⟨y, w, hy, heq⟩
    · rw [hsame]
    · -- The place is written as well, so the copy goes from a place to itself.
      obtain ⟨hvar, hpath⟩ := Place.mk.inj heq
      rw [hvar] at hc
      have hdc := Ty.eq_of_overlap hc hd hpath
      rw [hdc] at hpath heq
      obtain rfl : x = y := List.append_cancel_right hpath
      obtain rfl : u = w := by simpa [hx] using hy
      rw [hdc, hvar, copied_of_leaf hx]
      simp only [blend, hi, decide_true, if_true, fit, Nat.mod_mod]
      rw [hdc, hvar]
  · rw [hm]

theorem components_of_sized {u : Ty} (h : u.sized = true) (hu : u.isVectorOrScalar = true) :
    0 ≤ u.components ∧ u.components ≤ 8 := by
  cases u with
  | scalar b => simp [Ty.components]
  | vector b n =>
    simp only [Ty.sized, Bool.and_eq_true, decide_eq_true_eq] at h
    simp only [Ty.components]
    omega
  | _ => simp [Ty.isVectorOrScalar] at hu

/-- Storing what was loaded makes of the destination what the copy makes of it. -/
theorem Copying.blend_source (h : Copying old type d c ts s)
    (hd : d.var.type.parts d.path = some type) (hc : c.var.type.parts c.path = some type)
    {x : List Sel} {u : Ty} (hx : type.leaf? x = some u) (h0 : 0 ≤ u.components)
    (h8 : u.components ≤ 8) :
    blend (covers (fullMask u.components)) (fit u.bits (s.memory ⟨c.var, x ++ c.path⟩))
      (s.memory ⟨d.var, x ++ d.path⟩) = State.copied old type d c ⟨d.var, x ++ d.path⟩ := by
  have hcopied := @copied_of_leaf old type d c x u hx
  funext i
  simp only [blend, covers_fullMask h0 h8]
  by_cases hi : (i : Int) < u.components
  · rw [hcopied]
    simp [blend, hi, fit, h.fit_source hd hc hx hi]
  · rcases h.memory ⟨d.var, x ++ d.path⟩ with hm | ⟨hm, -⟩
    · simp [hi, hm]
    · rw [hcopied]
      simp [blend, hi, hm]

/-- A vector or scalar is moved by a load and a store. -/
theorem Copying.leaf (m : Machine ε) (h : Copying old type d c (t :: queue) s)
    (hd : d.var.type.parts d.path = some type) (hc : c.var.type.parts c.path = some type)
    (hsized : type.sized = true) (ht : t.type.isVectorOrScalar = true) {v : Value}
    (hv : v.bits = t.type.bits) (hu : ∀ u ∈ t :: queue, ∀ hop ∈ u.hops, v ∉ hop.uses) :
    let s' := execAll m s [.load t.src (.value v) t.type.components,
      .store t.dst (.value v) (fullMask t.type.components)]
    Agree (· ≠ v) (fun _ => True) (fun _ => False) s s' ∧ Copying old type d c queue s' := by
  have huse : ∀ u ∈ t :: queue, ∀ hop ∈ u.hops, ∀ w ∈ hop.uses, w ≠ v := by
    rintro u hmem hop hh w hw rfl
    exact hu u hmem hop hh hw
  have hload := agree_define s v (s.fetch t.src)
  generalize hs₁ : s.define v (s.fetch t.src) = s₁ at hload
  have h₁ := h.agree hload huse
  have hstore := agree_put s₁ t.dst (covers (fullMask t.type.components)) (s₁.values v)
  have hrun : execAll m s [.load t.src (.value v) t.type.components,
      .store t.dst (.value v) (fullMask t.type.components)] =
      s₁.put t.dst (covers (fullMask t.type.components)) (s₁.values v) := by
    simp [Action.exec, State.write, State.read, hs₁]
  simp only [hrun]
  refine ⟨(hload.mono (fun _ h => h) (fun _ h => h) fun _ h => h.elim).trans
    (hstore.mono (fun _ _ => trivial) (fun _ h => h) fun _ h => h), ?_⟩
  obtain ⟨x, hx⟩ := h.stands t (.head _)
  have hdst : s₁.place? t.dst = some ⟨d.var, x ++ d.path⟩ :=
    (Transfer.place?_agree hload (huse t (.head _))).1.trans hx.dst
  have hleaf : type.leaf? x = some t.type := by simp [Ty.leaf?, hx.reach, ht]
  obtain ⟨h0, h8⟩ := components_of_sized (Ty.sized_reach hsized hx.reach) ht
  have hplace : ∀ u ∈ queue, (s₁.put t.dst (covers (fullMask t.type.components))
      (s₁.values v)).place? u.dst = s₁.place? u.dst ∧ (s₁.put t.dst
      (covers (fullMask t.type.components)) (s₁.values v)).place? u.src = s₁.place? u.src :=
    fun u _ => Transfer.place?_agree hstore fun _ _ _ _ => trivial
  constructor
  · intro u hmem
    obtain ⟨y, hy⟩ := h₁.stands u (.tail _ hmem)
    exact ⟨y, (hplace u hmem).1.trans hy.dst, (hplace u hmem).2.trans hy.src, hy.reach, hy.same⟩
  · intro p
    have hmem : ∀ p, s₁.memory p = s.memory p := fun p => hload.memory p trivial
    by_cases hp : p = ⟨d.var, x ++ d.path⟩
    · left
      have hvalue : s₁.values v = fit t.type.bits (s.memory ⟨c.var, x ++ c.path⟩) := by
        simp [← hs₁, State.define, State.fetch, hx.src, hx.same, hv]
      rw [hp, ← h.blend_source hd hc hleaf h0 h8, ← hmem ⟨d.var, x ++ d.path⟩]
      simp [State.put, hdst, hvalue, show hopsType t.dst = t.type from rfl]
    · have hkeep : (s₁.put t.dst (covers (fullMask t.type.components)) (s₁.values v)).memory p =
          s₁.memory p := by
        simp [State.put, hdst, hp]
      rw [hkeep]
      rcases h₁.memory p with hm | ⟨hm, u, hmem, q, y, hq, hpq, hy⟩
      · exact .inl hm
      refine .inr ⟨hm, ?_⟩
      rcases List.mem_cons.mp hmem with rfl | hmem
      · obtain rfl := Ty.eq_nil_of_leaf? ht hy
        obtain rfl := Option.some.inj (hq.symm.trans hdst)
        exact absurd hpq hp
      · exact ⟨u, hmem, q, y, (hplace u hmem).1.trans hq, hpq, hy⟩

theorem results_indexCode (vs : List Value) :
    (indexCode vs).filterMap Action.result? = vs := by
  have hfst : vs.zipIdx.map Prod.fst = vs := List.zipIdx_map_fst 0 vs
  conv_rhs => rw [← hfst]
  rw [indexCode, List.filterMap_map, ← List.filterMap_eq_map]
  exact List.filterMap_congr fun x _ => rfl

/-- The code of a queue copies what is left to copy, and defines new values besides. -/
theorem Unrolls.copies (m : Machine ε) {acts : List Action} (h : Unrolls ts acts)
    (hd : d.var.type.parts d.path = some type) (hc : c.var.type.parts c.path = some type)
    (hsized : type.sized = true) (hn : (acts.filterMap Action.result?).Nodup)
    (hu : ∀ t ∈ ts, ∀ hop ∈ t.hops, ∀ v ∈ hop.uses, v ∉ acts.filterMap Action.result?)
    (hs : Copying old type d c ts s) :
    Agree (· ∉ acts.filterMap Action.result?) (fun _ => True) (fun _ => False) s
      (execAll m s acts) ∧ (execAll m s acts).memory = State.copied old type d c := by
  induction h generalizing s with
  | done =>
    refine ⟨.refl s, funext fun p => ?_⟩
    rcases hs.memory p with hm | ⟨-, t, ht, -⟩
    · exact hm
    · simp at ht
  | @array t queue elem n vs code ht hv hb h ih =>
    simp only [List.filterMap_append, results_indexCode, List.nodup_append,
      List.mem_append, not_or] at hn hu ⊢
    obtain ⟨hnvs, hncode, hdisj⟩ := hn
    have hfst : vs.zipIdx.map Prod.fst = vs := List.zipIdx_map_fst 0 vs
    obtain ⟨hagree, hindex⟩ := execAll_constants m vs.zipIdx (hfst.symm ▸ hnvs)
      (fun x hx => hb x.1 (List.fst_mem_of_mem_zipIdx hx)) s
    rw [hfst] at hagree
    have hqueue := (hs.agree hagree fun t ht hop hh v hv => (hu t ht hop hh v hv).1).array ht hv
      hindex
    obtain ⟨hrest, hmem⟩ := ih hncode (fun u hmem hop hh v hv' => by
      rcases List.mem_append.mp hmem with hmem | hmem
      · exact (hu u (.tail _ hmem) hop hh v hv').2
      · obtain ⟨w, hw, rfl⟩ := List.mem_map.mp hmem
        rcases mem_hops_element hh with hh | ⟨hw', -⟩
        · exact (hu t (.head _) hop hh v hv').2
        · obtain rfl : v = w := by simpa [hw'] using hv'
          exact fun hcode => hdisj v hw v hcode rfl) hqueue
    rw [execAll_append]
    exact ⟨(hagree.mono (fun _ h => h.1) (fun _ h => h) fun _ h => h.elim).trans
      (hrest.mono (fun _ h => h.2) (fun _ h => h) fun _ h => h), hmem⟩
  | @struct t queue name fields code ht h ih =>
    refine ih hn (fun u hmem hop hh v hv => ?_) (hs.struct ht)
    rcases List.mem_append.mp hmem with hmem | hmem
    · exact hu u (.tail _ hmem) hop hh v hv
    · obtain ⟨f, -, rfl⟩ := List.mem_map.mp hmem
      rcases mem_hops_field hh with hh | ⟨hf, -⟩
      · exact hu t (.head _) hop hh v hv
      · simp [hf] at hv
  | @leaf t queue v code ht hv hn h ih =>
    have hresults : (Action.load t.src (.value v) t.type.components ::
        .store t.dst (.value v) (fullMask t.type.components) :: code).filterMap Action.result? =
        v :: code.filterMap Action.result? := rfl
    simp only [hresults, List.nodup_cons, List.mem_cons, not_or] at hn hu ⊢
    obtain ⟨hagree, hqueue⟩ := hs.leaf m hd hc hsized ht hv fun u hmem hop hh hv' =>
      (hu u (List.mem_cons.mp hmem) hop hh v hv').1 rfl
    obtain ⟨hrest, hmem⟩ := ih hn.2
      (fun u hmem hop hh w hw => (hu u (.inr hmem) hop hh w hw).2) hqueue
    refine ⟨?_, hmem⟩
    exact (hagree.mono (fun _ h => h.1) (fun _ h => h) fun _ h => h).trans
      (hrest.mono (fun _ h => h.2) (fun _ h => h) fun _ h => h)

end

/-- The code of a copy does what the copy does, and defines new values besides. -/
theorem Unrolls.exec {ε : Type} (m : Machine ε) {dst src : List Hop} {acts : List Action}
    (h : Unrolls [⟨dst, src⟩] acts) (hdst : Straight dst) (hsrc : Straight src)
    (hsame : hopsType dst = hopsType src) (hsized : (hopsType dst).sized = true)
    (hn : (acts.filterMap Action.result?).Nodup)
    (hu : ∀ v ∈ (Action.copy dst src).uses, v ∉ acts.filterMap Action.result?) (s : State ε) :
    Agree (· ∉ acts.filterMap Action.result?) (fun _ => True) (fun _ => True) (s.copy dst src)
      (execAll m s acts) := by
  obtain ⟨d, hd, hdt⟩ := hdst.place (s := s)
  obtain ⟨c, hc, hct⟩ := hsrc.place (s := s)
  have hstart : Copying s.memory (hopsType dst) d c [⟨dst, src⟩] s := by
    constructor
    · intro t ht
      rw [List.mem_singleton.mp ht]
      exact ⟨[], hd, hc, rfl, hsame.symm⟩
    · intro p
      rcases copied_cases s.memory (hopsType dst) d c p with heq | ⟨x, u, hx, rfl⟩
      · exact .inl heq.symm
      · exact .inr ⟨rfl, _, List.mem_singleton.mpr rfl, d, x, hd, rfl, by
          simp [Transfer.type, hx]⟩
  obtain ⟨hagree, hmem⟩ := h.copies m hdt (hsame ▸ hct) hsized hn (fun t ht hop hh v hv =>
    hu v (mem_uses_copy (List.mem_singleton.mp ht ▸ hh) hv)) hstart
  have hcopy : s.copy dst src = { s with memory := State.copied s.memory (hopsType dst) d c } := by
    simp [State.copy, hd, hc]
  rw [hcopy]
  exact ⟨hagree.values, hagree.registers, fun p _ => congrFun hmem p, hagree.calls, hagree.outside⟩

theorem Unrolls.type_ne_absent {t : Transfer} {queue : List Transfer} {acts : List Action}
    (h : Unrolls (t :: queue) acts) : t.type ≠ .absent := by
  intro ht
  cases h with
  | array h' => simp [ht] at h'
  | struct h' => simp [ht] at h'
  | leaf h' => simp [ht, Ty.isVectorOrScalar] at h'

theorem Unrolls.ne_copy {ts : List Transfer} {acts : List Action} (h : Unrolls ts acts)
    {a : Action} (ha : a ∈ acts) (dst src : List Hop) : a ≠ .copy dst src := by
  induction h with
  | done => simp at ha
  | array ht hv hb h ih =>
    rcases List.mem_append.mp ha with ha | ha
    · obtain ⟨v, -, i, rfl⟩ := mem_indexCode ha
      simp
    · exact ih ha
  | struct ht h ih => exact ih ha
  | leaf ht hv hn h ih =>
    simp only [List.mem_cons] at ha
    rcases ha with rfl | rfl | ha
    · simp
    · simp
    · exact ih ha

def Body.Copyable (b : Body) : Prop :=
  ∀ id ∈ b.placedInstrs, ∀ dst src, b.action? id = some (.copy dst src) →
    (dst ≠ [] → Straight dst) ∧ (src ≠ [] → Straight src) ∧ (hopsType dst).sized = true

theorem Body.along_eq (b : Body) (path : List BlockId) :
    b.along path = (path.flatMap b.held).flatMap fun x => (b.action? x).toList := by
  rw [Body.along, List.flatMap_assoc]
  exact List.flatMap_congr fun k _ => List.filterMap_eq_flatMap_toList b.action? (b.held k)

namespace Splits

variable {b b' : Body} {k : BlockId} {mark : InstrId} {dst src : List Hop} {acts : List Action}

theorem copyable (h : Splits b b' k mark dst src acts) (hc : b.Copyable) : b'.Copyable := by
  have hid : Action.mapUses id = id := funext Action.rename_id
  intro x hx d c ha
  rcases h.replaced.cases_placed hx with ⟨i, y, hy, rfl⟩ | ⟨hx, hne⟩
  · rw [h.replaced.added i y hy, hid, Option.some.injEq] at ha
    exact absurd ha (h.unrolls.ne_copy (List.mem_of_getElem? hy) d c)
  · rw [h.replaced.kept x hx hne, hid, Option.map_id] at ha
    exact hc x hx d c ha

theorem nodup_results (h : Splits b b' k mark dst src acts) :
    (acts.filterMap Action.result?).Nodup := by
  have hs : ((acts.filterMap Action.result?).map (·.serial)).Nodup := by
    rw [h.replaced.serials]
    exact List.nodup_range'
  exact hs.of_map

variable {ε : Type} (m : Machine ε)

theorem exec (h : Splits b b' k mark dst src acts) (hl : b.Laid) (hc : b.Copyable) (s : State ε) :
    Agree (·.serial < b.definers.size) (fun _ => True) (fun _ => True) (s.copy dst src)
      (execAll m s acts) := by
  have hplaced : mark ∈ b.placedInstrs :=
    Body.mem_placedInstrs.mpr ⟨k, h.replaced.block, h.replaced.holds⟩
  obtain ⟨hd, hs, hsized⟩ := hc mark hplaced dst src h.replaced.target
  have htype : hopsType dst ≠ .absent := h.unrolls.type_ne_absent
  have hnew : ∀ v : Value, v.serial < b.definers.size → v ∉ acts.filterMap Action.result? := by
    intro v hv hmem
    obtain ⟨a, ha, hr⟩ := List.mem_filterMap.mp hmem
    exact absurd (h.replaced.fresh ha hr).1 (Nat.not_le.mpr hv)
  have hcopy := h.unrolls.exec m (hd (by rintro rfl; exact htype rfl))
    (hs (by rintro rfl; exact htype h.same)) h.same hsized h.nodup_results
    (fun v hv => hnew v ((hl.made mark hplaced _ h.replaced.target).values v
      (List.mem_append_left _ hv))) s
  exact hcopy.mono hnew (fun _ h => h) fun _ h => h

/-- The body before the step and the body after it run in step with each other. -/
theorem run (h : Splits b b' k mark dst src acts) (hl : b.Laid) (hc : b.Copyable)
    {path : List BlockId} (hp : ∀ j ∈ path, j ∈ b.layout) (s : State ε) :
    Agree (·.serial < b.definers.size) (fun _ => True) (fun _ => True) (b.run m path s)
      (b'.run m path s) := by
  have hid : Action.mapUses id = id := funext Action.rename_id
  have hplaced : ∀ x ∈ path.flatMap b.held, x ∈ b.placedInstrs := by
    intro x hx
    obtain ⟨j, hj, hx⟩ := List.mem_flatMap.mp hx
    exact Body.mem_placedInstrs.mpr ⟨j, hp j hj, hx⟩
  rw [Body.run, Body.run, h.replaced.along path hp, b.along_eq]
  simp only [hid, List.map_id]
  -- Instruction by instruction: the copy against its code, and every other one against itself.
  suffices hall : ∀ (xs : List InstrId) (s t : State ε), (∀ x ∈ xs, x ∈ b.placedInstrs) →
      Agree (·.serial < b.definers.size) (fun _ => True) (fun _ => True) s t →
      Agree (·.serial < b.definers.size) (fun _ => True) (fun _ => True)
        (execAll m s (xs.flatMap fun x => (b.action? x).toList))
        (execAll m t (xs.flatMap fun x => if x = mark then acts else (b.action? x).toList)) from
    hall _ s s hplaced (.refl s)
  intro xs
  induction xs with
  | nil => exact fun s t _ hst => hst
  | cons x xs ih =>
    intro s t hxs hst
    rw [List.flatMap_cons, List.flatMap_cons, execAll_append, execAll_append]
    refine ih _ _ (fun y hy => hxs y (.tail _ hy)) ?_
    obtain ⟨a, ha⟩ := hl.exists_action (hxs x (.head _))
    have hmade := hl.made x (hxs x (.head _)) a ha
    have hexec := (hst.exec m (a := a)
      (fun v hv => hmade.values v (List.mem_append_left _ hv)) (fun _ _ => trivial)
      fun _ _ _ _ => trivial).mono (fun _ hv => .inl hv) (fun _ h => h) fun _ h => h
    by_cases hx : x = mark
    · obtain rfl : a = .copy dst src := by
        rw [hx, h.replaced.target] at ha
        exact (Option.some.inj ha).symm
      rw [if_pos hx, ha]
      exact hexec.trans (h.exec m hl hc t)
    · rw [if_neg hx, ha]
      exact hexec

end Splits

theorem sized_derefType {links : Array Link} (h : ∀ l ∈ links, l.type.sized = true) (n : Handle) :
    (derefType links n).sized = true := by
  unfold derefType
  split
  · rename_i link hlink
    obtain ⟨p, -, hp⟩ := Option.bind_eq_some_iff.mp hlink
    exact h link (Array.mem_of_getElem? hp)
  · rfl

structure SplitSoFar (b c : Body) : Prop where
  copyable : c.Copyable
  layout : c.layout = b.layout
  definers_le : b.definers.size ≤ c.definers.size
  paths : ∀ path, c.IsPath path ↔ b.IsPath path
  runs : ∀ {ε : Type} (m : Machine ε) (path : List BlockId) (s : State ε),
    (∀ j ∈ path, j ∈ b.layout) → Agree (·.serial < b.definers.size) (fun _ => True)
      (fun _ => True) (b.run m path s) (c.run m path s)

theorem SplitSoFar.step {b c c' : Body} {k : BlockId} {mark : InstrId} {dst src : List Hop}
    {acts : List Action} (h : SplitSoFar b c) (hl : c.Laid)
    (hs : Splits c c' k mark dst src acts) : SplitSoFar b c' where
  copyable := hs.copyable h.copyable
  layout := hs.replaced.layout.trans h.layout
  definers_le := Nat.le_trans h.definers_le hs.replaced.definers_le
  paths path := (hs.replaced.isPath_iff path).trans (h.paths path)
  runs m path s hp := (h.runs m path s hp).trans
    ((hs.run m hl h.copyable (h.layout ▸ hp) s).mono
      (fun _ hv => Nat.lt_of_lt_of_le hv h.definers_le) (fun _ h => h) fun _ h => h)

/-- Splitting the copies of a function keeps its meaning: along every path memory, registers, the
calls of intrinsics and the values that were there before come out the same. -/
theorem splitCopies_preserves_runs (b : Body) (hl : b.Laid) (hb : Built b.links)
    (hc : ∀ l ∈ b.links, l.kind ≠ .cast) (hs : ∀ l ∈ b.links, l.type.sized = true)
    (hok : b.splitCopies.error = none) (path : List BlockId) (hp : b.IsPath path) {ε : Type}
    (m : Machine ε) (s : State ε) :
    b.splitCopies.body.IsPath path ∧
      (b.splitCopies.body.run m path s).memory = (b.run m path s).memory ∧
      (b.splitCopies.body.run m path s).registers = (b.run m path s).registers ∧
      (b.splitCopies.body.run m path s).calls = (b.run m path s).calls ∧
      (b.splitCopies.body.run m path s).outside = (b.run m path s).outside ∧
      ∀ v : Value, v.serial < b.definers.size →
        (b.splitCopies.body.run m path s).values v = (b.run m path s).values v := by
  have hcopyable : b.Copyable := by
    intro id hid dst src ha
    obtain ⟨op, hop, hact⟩ := Option.map_eq_some_iff.mp ha
    cases op with
    | copy h h' =>
      cases hact
      exact ⟨hb.straight hc, hb.straight hc, hopsType_hops b h ▸ sized_derefType hs h⟩
    | _ => cases hact
  obtain ⟨c, hcl, hsofar, hcode⟩ := splitCopies_rule (SplitSoFar b) hl
    ⟨hcopyable, rfl, Nat.le_refl _, fun _ => Iff.rfl, fun _ _ _ _ => .refl _⟩
    (fun _ _ _ _ _ _ _ hl h hs => h.step hl hs) hok
  have hagree := hsofar.runs m path s hp.1
  have hrun : b.splitCopies.body.run m path s = c.run m path s := by
    rw [Body.run, hcode.along, Body.run]
  rw [hrun]
  exact ⟨(hcode.isPath_iff path).mpr ((hsofar.paths path).mpr hp),
    funext fun p => hagree.memory p trivial, funext fun r => hagree.registers r trivial,
    hagree.calls, hagree.outside, hagree.values⟩

def shuffled : Body :=
  let entry : Ty :=
    .struct "S" [("x", .scalar .float), ("e", .struct "E" []), ("y", .array .vec4 2)]
  let a : Variable := ⟨0, 0, "a", .array entry 3, .global, none⟩
  let r : Register := ⟨0, 0, 1, 32, 0⟩
  let one : Value := ⟨0, 0, 1, 32⟩
  let two : Value := ⟨1, 1, 1, 32⟩
  { links := #[varLink a, ⟨.array (.slot 0), some 0, entry, .global⟩,
      ⟨.array (.value two), some 0, entry, .global⟩]
    slots := #[⟨some r, 0, none⟩]
    instrs := #[⟨.const one [1], some 0⟩, ⟨.const two [2], some 0⟩,
      ⟨.alu .mov [.value one] (.slot 0) 1, some 0⟩, ⟨.copy (some 1) (some 2), some 0⟩,
      ⟨.intrinsic "emit" [.value two] none, some 0⟩]
    definers := #[some 0, some 1]
    blocks := #[⟨0, "loop", [0, 1, 2, 3, 4], [0], none, [], [], []⟩]
    layout := #[0]
    registers := #[r]
    registerCount := 1
    valueCount := 2 }

theorem shuffled_built : Built shuffled.links := by
  have h0 := Built.empty.var ⟨0, 0, "a", .array (.struct "S" [("x", .scalar .float),
    ("e", .struct "E" []), ("y", .array .vec4 2)]) 3, .global, none⟩
  have h1 := @Built.array _ (some 0) (.slot 0) _ h0 rfl
  exact @Built.array _ (some 0) (.value ⟨1, 1, 1, 32⟩) _ h1 rfl

/-- Two rounds of the loop. What lay in `a[2].y[1]` is in `a[1].y[1]` afterwards. -/
theorem shuffled_runs :
    let m : Machine Unit := ⟨fun _ _ o => (fun _ => 0, o), fun _ _ o => (fun _ => 0, o)⟩
    let s : State Unit := ⟨fun _ _ => 0, fun _ _ _ => 0,
      fun p i => if p.path = [.index 1, .field 2, .index 2] then i + 5 else 0, [], ()⟩
    let t := shuffled.splitCopies.body.run m [0, 0] s
    (∀ i < 4, (shuffled.run m [0, 0] s).memory ⟨⟨0, 0, "a", .array (.struct "S"
      [("x", .scalar .float), ("e", .struct "E" []), ("y", .array .vec4 2)]) 3, .global, none⟩,
      [.index 1, .field 2, .index 1]⟩ i = i + 5) ∧
    t.memory = (shuffled.run m [0, 0] s).memory ∧ t.calls.length = 2 := by
  intro m s t
  obtain ⟨-, hmem, -, hcalls, -⟩ := splitCopies_preserves_runs shuffled (by decide +kernel)
    shuffled_built (by decide +kernel) (by decide +kernel) (by decide +kernel) [0, 0]
    ⟨by decide +kernel, by decide +kernel⟩ m s
  refine ⟨by decide +kernel, hmem, ?_⟩
  rw [hcalls]
  rfl

end ShaderIR
