import ShaderIR.Proofs.Emission

/-!
# Equal types

Two types are the same when they are built alike: the same constructors, numbers and names, and the
same parts in the same order, missing parts included. Copies are split by extending two chains in
step, and the types are compared only where the chains start. That is enough: whatever links follow,
either neither chain can be extended or both end at the same type again.
-/

set_option autoImplicit false

namespace ShaderIR

inductive Extension where
  | element (index : Operand)
  | field (f : Int)

namespace Extension

def perform (h : Handle) : Extension → ExceptT LinkError Edit Handle
  | element index => Body.arrayDeref h index
  | field f => Body.structDeref h f

def performAll (h : Handle) (steps : List Extension) : ExceptT LinkError Edit Handle :=
  steps.foldlM perform h

inductive InStep : Except LinkError Handle × Body → Except LinkError Handle × Body → Prop
  | failed (e : LinkError) (c d : Body) : InStep (.error e, c) (.error e, d)
  | extended {h k : Nat} {l m : Link} {c d : Body} (hl : c.links[h]? = some l)
      (hm : d.links[k]? = some m) (ht : l.type.same m.type = true) :
      InStep (.ok (some h), c) (.ok (some k), d)

def part (t : Ty) : Extension → Ty
  | element _ => t.elementType
  | field f => t.fieldType f

def refusal (t : Ty) : Extension → LinkError
  | element _ => .notArray t
  | field f => .noField t f

variable {h k : Nat} {l m : Link} {c d : Body}

/-- What a link does to a chain is decided by the type that the chain leads to. -/
theorem perform_cases (hl : c.links[h]? = some l) (step : Extension) :
    (step.part l.type = .absent ∧ step.perform (some h) c = (.error (step.refusal l.type), c)) ∨
    (step.part l.type ≠ .absent ∧ ∃ l', l'.type = step.part l.type ∧
      step.perform (some h) c = (.ok (some c.links.size), c.addLink l')) := by
  cases step with
  | element index =>
    simp only [perform, part, refusal, arrayDeref_run, arrayLink, Option.bind_some, hl]
    by_cases habsent : l.type.elementType = .absent
    · exact .inl ⟨habsent, by simp only [habsent, if_true]⟩
    · exact .inr ⟨habsent, ⟨.array index, some h, l.type.elementType, l.mode⟩, rfl,
        by simp only [habsent, if_false]⟩
  | field f =>
    simp only [perform, part, refusal, structDeref_run, structLink, Option.bind_some, hl]
    by_cases habsent : l.type.fieldType f = .absent
    · exact .inl ⟨habsent, by simp only [habsent, if_true]⟩
    · exact .inr ⟨habsent, ⟨.struct f.toNat, some h, l.type.fieldType f, l.mode⟩, rfl,
        by simp only [habsent, if_false]⟩

theorem inStep_perform (hl : c.links[h]? = some l) (hm : d.links[k]? = some m)
    (ht : l.type.same m.type = true) (step : Extension) :
    InStep (step.perform (some h) c) (step.perform (some k) d) := by
  have htype : l.type = m.type := Ty.eq_of_same _ _ ht
  rcases perform_cases hl step with ⟨habsent, hc⟩ | ⟨hpart, l', hl', hc⟩
  · rcases perform_cases hm step with ⟨-, hd⟩ | ⟨hpart, -⟩
    · rw [hc, hd, htype]
      exact .failed _ c d
    · exact absurd (htype ▸ habsent) hpart
  · rcases perform_cases hm step with ⟨habsent, -⟩ | ⟨-, m', hm', hd⟩
    · exact absurd (htype ▸ habsent) hpart
    · rw [hc, hd]
      refine .extended (l := l') (m := m') (by simp [Body.addLink]) (by simp [Body.addLink]) ?_
      rw [hl', hm', htype]
      exact Ty.same_refl _

theorem inStep_performAll (hl : c.links[h]? = some l) (hm : d.links[k]? = some m)
    (ht : l.type.same m.type = true) (steps : List Extension) :
    InStep (performAll (some h) steps c) (performAll (some k) steps d) := by
  induction steps generalizing h k l m c d with
  | nil => exact .extended hl hm ht
  | cons step steps ih =>
    have hstep := inStep_perform hl hm ht step
    simp only [performAll, List.foldlM_cons, exceptT_bind]
    generalize step.perform (some h) c = x at hstep ⊢
    generalize step.perform (some k) d = y at hstep ⊢
    cases hstep with
    | failed e c d => exact .failed e c d
    | extended hl hm ht => exact ih hl hm ht

end Extension

/-- Comparing types decides whether they are equal. Chains that lead to such types stay in step,
whatever links they are extended by. -/
theorem Ty.same_decides_equality (a b : Ty) :
    (a.same b = true ↔ a = b) ∧
    (a.same b = true → ∀ (c d : Body) (h k : Nat) (l m : Link), c.links[h]? = some l →
      d.links[k]? = some m → l.type = a → m.type = b → ∀ steps : List Extension,
        Extension.InStep ((Extension.performAll (some h) steps).run c)
          ((Extension.performAll (some k) steps).run d)) := by
  refine ⟨same_iff a b, ?_⟩
  rintro hsame c d h k l m hl hm rfl rfl steps
  exact Extension.inStep_performAll hl hm hsame steps

/-- Two variables of a struct that lacks the type of a field, at the top and further in. -/
theorem Ty.patchy_in_step :
    let cell : Ty := .struct "Cell" [("lost", .absent), ("weights", .array (.vector .float 4) 3)]
    let t : Ty := .struct "Grid" [("cells", .array cell 2), ("lost", .absent)]
    let c : Body := { links := #[varLink ⟨0, 0, "a", t, .local, none⟩,
      varLink ⟨1, 1, "b", t, .uniform, none⟩] }
    let inner : List Extension := [.field 0, .element .missing, .field 1, .element .missing]
    let outer : List Extension := [.field 1]
    t.same t = true ∧
    Extension.InStep ((Extension.performAll (some 0) inner).run c)
      ((Extension.performAll (some 1) inner).run c) ∧
    ((Extension.performAll (some 0) inner).run c).1 = .ok (some 5) ∧
    Extension.InStep ((Extension.performAll (some 0) outer).run c)
      ((Extension.performAll (some 1) outer).run c) ∧
    ((Extension.performAll (some 0) outer).run c).1 = .error (.noField t 1) := by
  intro cell t c inner outer
  have hsame : t.same t = true := by decide +kernel
  have hstep := (Ty.same_decides_equality t t).2 hsame c c 0 1 _ _ rfl rfl rfl rfl
  exact ⟨hsame, hstep inner, by rfl, hstep outer, by rfl⟩

end ShaderIR
