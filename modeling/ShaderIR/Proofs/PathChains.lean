import ShaderIR.Proofs.LoadedShader
import ShaderIR.Proofs.PassFaults
import ShaderIR.Proofs.PathText

/-!
# The chains of paths

The loader reads a path in a scope, from the variable down, one link for each step. It succeeds
exactly when every step fits the type that it meets, and then the chain has the links that the steps
name: an index stands for a named value or for a constant that is emitted for it, and a field for
the first field of its name. Integers that are written as they are printed are printed as they were
written, so such a path is read back from its chain.
-/

set_option autoImplicit false

namespace ShaderIR

inductive Climbs (links : Array Link) : Nat → List Link → Prop
  | root {h : Nat} {l : Link} (hl : links[h]? = some l) (hp : l.parent = none) :
      Climbs links h [l]
  | step {h p : Nat} {l : Link} {ls : List Link} (hl : links[h]? = some l)
      (hp : l.parent = some p) (hlt : p < h) (hrest : Climbs links p ls) :
      Climbs links h (l :: ls)

namespace Climbs

variable {links more : Array Link} {h : Nat} {ls : List Link}

theorem chainFrom (hc : Climbs links h ls) :
    ∀ bound, h < bound → chainFrom links bound (some h) = ls := by
  induction hc with
  | root hl hp =>
    intro bound hbound
    obtain ⟨bound, rfl⟩ := Nat.exists_eq_succ_of_ne_zero (by omega : bound ≠ 0)
    simp [ShaderIR.chainFrom, hl, hp]
  | step hl hp hlt _ ih =>
    intro bound hbound
    obtain ⟨bound, rfl⟩ := Nat.exists_eq_succ_of_ne_zero (by omega : bound ≠ 0)
    simp only [ShaderIR.chainFrom, hl, hp]
    rw [ih bound (by omega)]

theorem head {l : Link} (hc : Climbs links h (l :: ls)) : links[h]? = some l := by
  cases hc with
  | root hl _ => exact hl
  | step hl _ _ _ => exact hl

theorem derefType {l : Link} (hc : Climbs links h (l :: ls)) :
    derefType links (some h) = l.type := by
  simp [ShaderIR.derefType, hc.head]

theorem lt_size (hc : Climbs links h ls) : h < links.size := by
  cases hc with
  | root hl _ => exact (Array.getElem?_eq_some_iff.mp hl).1
  | step hl _ _ _ => exact (Array.getElem?_eq_some_iff.mp hl).1

theorem chain_eq (hc : Climbs links h ls) : chain links (some h) = ls :=
  hc.chainFrom links.size hc.lt_size

theorem mono (hc : Climbs links h ls) (hm : ∀ p < links.size, more[p]? = links[p]?) :
    Climbs more h ls := by
  induction hc with
  | root hl hp =>
    have hlt := (Array.getElem?_eq_some_iff.mp hl).1
    exact .root (by rw [hm _ hlt, hl]) hp
  | step hl hp hlt _ ih =>
    have hsize := (Array.getElem?_eq_some_iff.mp hl).1
    exact .step (by rw [hm _ hsize, hl]) hp hlt ih

theorem push (hc : Climbs links h ls) {l : Link} (hp : l.parent = some h) :
    Climbs (links.push l) links.size (l :: ls) :=
  .step (by simp) hp hc.lt_size (hc.mono fun _ hlt => push_old links l hlt)

end Climbs

theorem Grows.constant_kept {b b' : Body} (hg : Grows b b') {o : Operand} {w : UInt64}
    (h : b.constant? o = some w) : b'.constant? o = some w := by
  cases o with
  | missing => cases h
  | slot s => cases h
  | value v =>
    rw [Body.constant?] at h ⊢
    cases hid : b.definer? v with
    | none => simp [hid] at h
    | some id =>
      have hv : v.serial < b.definers.size :=
        (Array.getElem?_eq_some_iff.mp (Option.join_eq_some_iff.mp hid)).1
      cases hop : b.op? id with
      | none => simp [hid, hop] at h
      | some op =>
        obtain ⟨instr, hinstr, -⟩ := Option.map_eq_some_iff.mp hop
        have hlt : id < b.instrs.size := (Array.getElem?_eq_some_iff.mp hinstr).1
        simpa [hg.definer? hv, hid, hg.op? hlt, hop] using h

namespace Loading

open ShaderIR.Path Text

def Scope.Made (scope : Scope) : Prop :=
  ∃ structs globals locals next first last,
    declareStructs [] structs = .ok scope.structs ∧
    declareGlobals scope.structs 1 [] globals = .ok (next, scope.globals) ∧
    declareLocals scope.structs first [] locals = .ok (last, scope.locals)

def Scope.Sees (scope : Scope) (name : String) (v : Variable) : Prop :=
  scope.locals.lookup name = some v ∨
    scope.locals.lookup name = none ∧ scope.globals.lookup name = some v

theorem Scope.variable?_eq_some_iff {scope : Scope} {name : String} {v : Variable} :
    scope.variable? name = some v ↔ scope.Sees name v :=
  Option.or_eq_some_iff

theorem declareLocals_named {structs : Ty.Structs} {next last : Nat}
    {seen vars : List (String × Variable)} {ds : List VariableDecl}
    (hseen : ∀ x ∈ seen, x.2.name = x.1)
    (h : declareLocals structs next seen ds = .ok (last, vars)) :
    ∀ x ∈ vars, x.2.name = x.1 := by
  induction ds generalizing next seen with
  | nil =>
    cases h
    exact hseen
  | cons d ds ih =>
    obtain ⟨v, hv, h⟩ := except_ok h
    split at h
    · cases h
    · exact ih (List.forall_mem_cons.mpr ⟨rfl, hseen⟩) h

theorem declareGlobals_named {structs : Ty.Structs} {next last : Nat}
    {seen vars : List (String × Variable)} {ds : List VariableDecl}
    (hseen : ∀ x ∈ seen, x.2.name = x.1)
    (h : declareGlobals structs next seen ds = .ok (last, vars)) :
    ∀ x ∈ vars, x.2.name = x.1 := by
  induction ds generalizing next seen with
  | nil =>
    cases h
    exact hseen
  | cons d ds ih =>
    obtain ⟨mode, -, h⟩ := except_ok h
    obtain ⟨v, hv, h⟩ := except_ok h
    split at h
    · cases h
    · exact ih (List.forall_mem_cons.mpr ⟨rfl, hseen⟩) h

/-- A variable is seen under its own name, and its type is complete. -/
theorem Scope.Made.sees {scope : Scope} (hs : scope.Made) {name : String} {v : Variable}
    (hv : scope.Sees name v) : v.name = name ∧ v.type.complete = true := by
  obtain ⟨structs, globals, locals, next, first, last, hstructs, hglobals, hlocals⟩ := hs
  have hcomplete := declareStructs_complete (by simp) hstructs
  rcases hv with hv | ⟨-, hv⟩
  · have hmem := mem_of_lookup hv
    refine ⟨declareLocals_named (by simp) hlocals _ hmem, ?_⟩
    exact (declareLocals_ok hcomplete (.nil _ first) hlocals).types v
      (List.mem_map_of_mem (List.mem_reverse.mpr hmem))
  · have hmem := mem_of_lookup hv
    refine ⟨declareGlobals_named (by simp) hglobals _ hmem, ?_⟩
    exact (declareGlobals_ok hcomplete (.nil _ 1) hglobals).types v
      (List.mem_map_of_mem (List.mem_reverse.mpr hmem))

def Indexes (values : List (String × Value)) (inside : List Char) : Prop :=
  (∃ v, values.lookup (String.ofList (trim inside)) = some v) ∨
    ∃ n, literal? (trim inside) = some n

structure FirstField (fields : List (String × Ty)) (word : List Char) (i : Nat) (t : Ty) :
    Prop where
  found : fields[i]? = some (String.ofList word, t)
  first : ∀ j < i, ∀ f, fields[j]? = some f → f.1 ≠ String.ofList word

inductive Turns (values : List (String × Value)) : Ty → Step → Ty → Prop
  | index {t : Ty} {n : Int} {inside : List Char} (h : Indexes values inside) :
      Turns values (.array t n) (.index inside) t
  | field {name : String} {fields : List (String × Ty)} {word : List Char} {i : Nat} {t : Ty}
      (h : FirstField fields word i t) : Turns values (.struct name fields) (.field word) t

inductive Descends (values : List (String × Value)) : Ty → List Step → Ty → Prop
  | done (t : Ty) : Descends values t [] t
  | step {t u w : Ty} {step : Step} {steps : List Step} (h : Turns values t step u)
      (hrest : Descends values u steps w) : Descends values t (step :: steps) w

theorem fieldIndex_eq_some_iff {t : Ty} {word : List Char} {i : Nat} :
    t.fieldIndex (String.ofList word) = some i ↔
      ∃ name fields u, t = .struct name fields ∧ FirstField fields word i u := by
  constructor
  · intro h
    cases t with
    | struct name fields =>
      rw [Ty.fieldIndex, List.findIdx?_eq_some_iff_getElem] at h
      obtain ⟨hlt, hfound, hfirst⟩ := h
      refine ⟨name, fields, fields[i].2, rfl, ?_, ?_⟩
      · rw [List.getElem?_eq_getElem hlt]
        exact congrArg some (Prod.ext (beq_iff_eq.mp hfound) rfl)
      · intro j hj f hf
        obtain ⟨hlt', rfl⟩ := List.getElem?_eq_some_iff.mp hf
        simpa using hfirst j hj
    | _ => cases h
  · rintro ⟨name, fields, u, rfl, hfield⟩
    obtain ⟨hlt, heq⟩ := List.getElem?_eq_some_iff.mp hfield.found
    rw [Ty.fieldIndex, List.findIdx?_eq_some_iff_getElem]
    refine ⟨hlt, by simp [heq], fun j hj => ?_⟩
    have hne := hfield.first j hj fields[j] (List.getElem?_eq_getElem (by omega))
    simpa using hne

theorem FirstField.unique {fields : List (String × Ty)} {word : List Char} {i j : Nat} {t u : Ty}
    (h : FirstField fields word i t) (h' : FirstField fields word j u) : i = j ∧ t = u := by
  have hle : ¬i < j := fun hlt => h'.first i hlt _ h.found rfl
  have hge : ¬j < i := fun hlt => h.first j hlt _ h'.found rfl
  obtain rfl : i = j := by omega
  have heq := h.found.symm.trans h'.found
  exact ⟨rfl, congrArg Prod.snd (Option.some.inj heq)⟩

theorem FirstField.fieldType {fields : List (String × Ty)} {word : List Char} {i : Nat} {t : Ty}
    (h : FirstField fields word i t) (name : String) :
    (Ty.struct name fields).fieldType i = t := by
  simp [Ty.fieldType, h.found]

theorem Turns.unique {values : List (String × Value)} {t u w : Ty} {step : Step}
    (h : Turns values t step u) (h' : Turns values t step w) : u = w := by
  cases h with
  | index _ =>
    cases h'
    rfl
  | field hfield =>
    cases h' with
    | field hfield' => exact (hfield.unique hfield').2

theorem Turns.complete {values : List (String × Value)} {t u : Ty} {step : Step}
    (h : Turns values t step u) (ht : t.complete = true) : u.complete = true := by
  cases h with
  | index _ => exact ht
  | field hfield => exact Ty.complete_of_mem ht (List.mem_of_getElem? hfield.found)

/-- The value that an index stands for: the one of its name, or else a new one with the constant
that the integer is. -/
inductive IndexedBy (s s' : Building) (inside : List Char) (v : Value) : Prop
  | named (h : s.values.lookup (String.ofList (trim inside)) = some v)
  | constant {n : Int} (hname : s.values.lookup (String.ofList (trim inside)) = none)
      (hn : literal? (trim inside) = some n) (hv : s.body.definers.size ≤ v.serial)
      (hconst : s'.body.constant? (.value v) = some (Cursor.word n))

inductive Links (s s' : Building) (up : Link) : Step → Link → Prop
  | index {inside : List Char} {l : Link} {v : Value} {n : Int}
      (hkind : l.kind = .array (.value v)) (hv : IndexedBy s s' inside v)
      (htype : up.type = .array l.type n) (hmode : l.mode = up.mode) :
      Links s s' up (.index inside) l
  | field {word : List Char} {l : Link} {i : Nat} {name : String} {fields : List (String × Ty)}
      (hkind : l.kind = .struct i) (htype : up.type = .struct name fields)
      (hfield : FirstField fields word i l.type) (hmode : l.mode = up.mode) :
      Links s s' up (.field word) l

inductive Chains (s s' : Building) : Link → List Step → List Link → Prop
  | done (up : Link) : Chains s s' up [] []
  | step {up l : Link} {step : Step} {steps : List Step} {ls : List Link}
      (h : Links s s' up step l) (hrest : Chains s s' l steps ls) :
      Chains s s' up (step :: steps) (l :: ls)

section

variable {s s₁ s' : Building} {up l : Link} {step : Step} {steps : List Step} {ls : List Link}

theorem Links.turns (h : Links s s' up step l) : Turns s.values up.type step l.type := by
  cases h with
  | index _ hv htype _ =>
    rw [htype]
    cases hv with
    | named h => exact .index (.inl ⟨_, h⟩)
    | constant _ hn _ _ => exact .index (.inr ⟨_, hn⟩)
  | field _ htype hfield _ =>
    rw [htype]
    exact .field hfield

theorem Chains.descends (h : Chains s s' up steps ls) :
    ∃ t, Descends s.values up.type steps t := by
  induction h with
  | done up => exact ⟨up.type, .done _⟩
  | step h _ ih =>
    obtain ⟨t, ht⟩ := ih
    exact ⟨t, .step h.turns ht⟩

theorem Links.later (h : Links s s₁ up step l) (hg : Grows s₁.body s'.body) :
    Links s s' up step l := by
  cases h with
  | index hkind hv htype hmode =>
    refine .index hkind ?_ htype hmode
    cases hv with
    | named h => exact .named h
    | constant hname hn hv hconst => exact .constant hname hn hv (hg.constant_kept hconst)
  | field hkind htype hfield hmode => exact .field hkind htype hfield hmode

theorem Links.earlier (h : Links s₁ s' up step l) (hvalues : s₁.values = s.values)
    (hg : Grows s.body s₁.body) : Links s s' up step l := by
  cases h with
  | index hkind hv htype hmode =>
    refine .index hkind ?_ htype hmode
    cases hv with
    | named h => exact .named (hvalues ▸ h)
    | constant hname hn hv hconst =>
      exact .constant (hvalues ▸ hname) hn (Nat.le_trans hg.definers_le hv) hconst
  | field hkind htype hfield hmode => exact .field hkind htype hfield hmode

theorem Chains.earlier (h : Chains s₁ s' up steps ls) (hvalues : s₁.values = s.values)
    (hg : Grows s.body s₁.body) : Chains s s' up steps ls := by
  induction h with
  | done up => exact .done up
  | step h _ ih => exact .step (h.earlier hvalues hg) ih

end

structure Continues (s s' : Building) : Prop where
  grows : Grows s.body s'.body
  values : s'.values = s.values

theorem Continues.refl (s : Building) : Continues s s := ⟨.refl s.body, rfl⟩

theorem Continues.trans {s s' s'' : Building} (h : Continues s s') (h' : Continues s' s'') :
    Continues s s'' :=
  ⟨h.grows.trans h'.grows, h'.values.trans h.values⟩

section

variable {k : BlockId} {s s' : Building}

theorem constant?_putAt (b : Body) (k : BlockId) (n : Int) :
    (b.addValue.putAt k none (.const (b.fresh 1 32) [Cursor.word n])).constant?
      (.value (b.fresh 1 32)) = some (Cursor.word n) := by
  have hdefiner : (b.addValue.putAt k none (.const (b.fresh 1 32) [Cursor.word n])).definer?
      (b.fresh 1 32) = some b.instrs.size := by
    simp [putAt_eq, Body.definer?, Op.result?, Body.addValue, Body.fresh, Array.getElem_modify]
  have hop : (b.addValue.putAt k none (.const (b.fresh 1 32) [Cursor.word n])).op? b.instrs.size =
      some (.const (b.fresh 1 32) [Cursor.word n]) := by
    simp [putAt_eq, Body.op?, Body.addValue]
  simp only [Body.constant?, hdefiner, Option.bind_some, hop, List.head?_cons]

theorem operand_indexes {inside : List Char} {v : Value}
    (h : operand (.atEnd k) (String.ofList (trim inside)) s = .ok (v, s')) :
    IndexedBy s s' inside v ∧ Continues s s' ∧ s'.body.links = s.body.links := by
  unfold operand at h
  split at h
  · rename_i w hw
    cases h
    exact ⟨.named hw, .refl s, rfl⟩
  · rename_i hnone
    split at h
    · rename_i n hn
      rw [String.toList_ofList] at hn
      cases h
      refine ⟨.constant hnone hn (Nat.le_refl _) (constant?_putAt s.body k n), ⟨?_, rfl⟩, ?_⟩
      · refine (Grows.addValue s.body).putAt k none fun v hv => ?_
        cases hv
        exact Nat.le_refl _
      · have hlinks := putAt_eq s.body.addValue k none (.const (s.body.fresh 1 32) [Cursor.word n])
        exact (congrArg (·.links) hlinks).trans rfl
    · cases h

theorem operand_succeeds {inside : List Char} (h : Indexes s.values inside) (c : Cursor) :
    ∃ v s', operand c (String.ofList (trim inside)) s = .ok (v, s') := by
  unfold operand
  rw [String.toList_ofList]
  cases hv : s.values.lookup (String.ofList (trim inside)) with
  | some v => exact ⟨v, s, rfl⟩
  | none =>
    rcases h with ⟨v, hsome⟩ | ⟨n, hn⟩
    · exact absurd (hv.symm.trans hsome) (Option.some_ne_none v).symm
    · simp only [hn]
      exact ⟨_, _, rfl⟩

theorem elementType_ne_absent {t : Ty} (h : t.elementType ≠ .absent) :
    ∃ n, t = .array t.elementType n := by
  cases t with
  | array u n => exact ⟨n, rfl⟩
  | _ => exact absurd rfl h

theorem Links.added {s₁ : Building} {h : Nat} {up l : Link} {ls : List Link} {step : Step}
    (hs' : s' = { s₁ with body := s₁.body.addLink l }) (hcont : Continues s s₁)
    (hc : Climbs s₁.body.links h (up :: ls)) (hp : l.parent = some h) (hl : Links s s₁ up step l) :
    Links s s' up step l ∧ Climbs s'.body.links s₁.body.links.size (l :: up :: ls) ∧
      Continues s s' := by
  subst hs'
  have hgrow := Grows.addLink s₁.body l
  exact ⟨hl.later hgrow, hc.push hp, hcont.trans ⟨hgrow, rfl⟩⟩

theorem pathLink_links {h : Nat} {up : Link} {ls : List Link} {step : Step} {y : Handle}
    (hc : Climbs s.body.links h (up :: ls))
    (hrun : pathLink (.atEnd k) (some h) step.link s = .ok (y, s')) :
    ∃ n l, y = some n ∧ Links s s' up step l ∧ Climbs s'.body.links n (l :: up :: ls) ∧
      Continues s s' := by
  cases step with
  | index inside =>
    obtain ⟨v, s₁, hv, hrun⟩ := stateT_ok hrun
    obtain ⟨hindex, hcont, hlinks⟩ := operand_indexes (mapError_eq_ok_iff.mp hv)
    rw [← hlinks] at hc
    obtain ⟨b, hb, hs'⟩ := extend_ok hrun
    obtain ⟨l, hl, rfl, rfl⟩ := arrayDeref_ok hb
    obtain ⟨n, up', hn, hup, hne, rfl⟩ := arrayLink_ok hl
    cases hn
    rw [hc.head] at hup
    cases hup
    obtain ⟨len, htype⟩ := elementType_ne_absent hne
    exact ⟨_, _, rfl, Links.added hs' hcont hc rfl (.index rfl hindex htype rfl)⟩
  | field word =>
    obtain ⟨s₁, s₂, hget, hrun⟩ := stateT_ok hrun
    cases hget
    rw [hc.derefType] at hrun
    cases hfield : up.type.fieldIndex (String.ofList word) with
    | none =>
      simp only [hfield] at hrun
      cases hrun
    | some i =>
      simp only [hfield] at hrun
      obtain ⟨name, fields, t, htype, hfirst⟩ := fieldIndex_eq_some_iff.mp hfield
      obtain ⟨b, hb, hs'⟩ := extend_ok hrun
      obtain ⟨l, hl, rfl, rfl⟩ := structDeref_ok hb
      obtain ⟨n, up', hn, hup, hne, rfl⟩ := structLink_ok hl
      cases hn
      rw [hc.head] at hup
      cases hup
      have ht : up.type.fieldType i = t := by rw [htype, hfirst.fieldType]
      exact ⟨_, _, rfl, Links.added hs' (.refl s) hc rfl (.field rfl htype (ht ▸ hfirst) rfl)⟩

theorem extend_succeeds {e : ExceptT LinkError Edit Handle} (h : Succeeds e s.body) :
    ∃ y s', extend e s = .ok (y, s') := by
  obtain ⟨y, b, hrun⟩ := h
  refine ⟨y, { s with body := b }, ?_⟩
  rw [extend, hrun]

theorem pathLink_succeeds {h : Nat} {up : Link} {ls : List Link} {step : Step} {t : Ty}
    (hc : Climbs s.body.links h (up :: ls)) (hstep : Turns s.values up.type step t)
    (ht : t.complete = true) :
    ∃ y s', pathLink (.atEnd k) (some h) step.link s = .ok (y, s') := by
  have hne := Ty.ne_absent_of_complete ht
  generalize hup : up.type = u at hstep
  cases hstep with
  | index hindex =>
    obtain ⟨v, s₁, hv⟩ := operand_succeeds hindex (.atEnd k)
    obtain ⟨-, -, hlinks⟩ := operand_indexes hv
    rw [← hlinks] at hc
    have hlift : liftOperand PathError.operand (operand (.atEnd k) _) s = .ok (v, s₁) :=
      congrArg (Except.mapError PathError.operand) hv
    have hderef := extend_succeeds (succeeds_arrayDeref v (by rwa [hc.derefType, hup]))
    obtain ⟨y, s', hy⟩ := hderef
    exact ⟨y, s', (stateT_bind hlift).trans hy⟩
  | field hfield =>
    rename_i name fields word i
    have hindex : up.type.fieldIndex (String.ofList word) = some i :=
      fieldIndex_eq_some_iff.mpr ⟨name, fields, t, hup, hfield⟩
    have htype : (derefType s.body.links (some h)).fieldType i ≠ .absent := by
      rwa [hc.derefType, hup, hfield.fieldType]
    obtain ⟨y, s', hy⟩ := extend_succeeds (succeeds_structDeref i htype)
    refine ⟨y, s', ?_⟩
    have hget : (get : PathBuild Building) s = .ok (s, s) := rfl
    refine (stateT_bind hget).trans ?_
    simp only [hc.derefType, hindex]
    exact hy

theorem pathLinks_chains {h : Nat} {up : Link} {ls : List Link} {steps : List Step} {y : Handle}
    (hc : Climbs s.body.links h (up :: ls))
    (hrun : pathLinks (.atEnd k) (some h) (steps.map Step.link) s = .ok (y, s')) :
    ∃ n ls', y = some n ∧ Chains s s' up steps ls' ∧
      Climbs s'.body.links n (ls'.reverse ++ up :: ls) ∧ Continues s s' := by
  induction steps generalizing s h up ls with
  | nil =>
    cases hrun
    exact ⟨h, [], rfl, .done up, hc, .refl _⟩
  | cons step steps ih =>
    obtain ⟨z, s₁, hz, hrun⟩ := stateT_ok hrun
    obtain ⟨n, l, rfl, hlink, hc₁, hcont⟩ := pathLink_links hc hz
    obtain ⟨m, ls', rfl, hchain, hc', hcont'⟩ := ih hc₁ hrun
    refine ⟨m, l :: ls', rfl, ?_, by simpa using hc', hcont.trans hcont'⟩
    -- the state in between is left out: constants stay known, and no name is added
    exact .step (hlink.later hcont'.grows) (hchain.earlier hcont.values hcont.grows)

theorem pathLinks_succeeds {h : Nat} {up : Link} {ls : List Link} {steps : List Step} {t : Ty}
    (hc : Climbs s.body.links h (up :: ls)) (hsteps : Descends s.values up.type steps t)
    (hup : up.type.complete = true) :
    ∃ y s', pathLinks (.atEnd k) (some h) (steps.map Step.link) s = .ok (y, s') := by
  induction steps generalizing s h up ls with
  | nil => exact ⟨some h, s, rfl⟩
  | cons step steps ih =>
    cases hsteps with
    | step hturn hrest =>
      obtain ⟨z, s₁, hz⟩ := pathLink_succeeds hc hturn (hturn.complete hup)
      obtain ⟨n, l, rfl, hlink, hc₁, hcont⟩ := pathLink_links hc hz
      -- the new link has the type that the step turns to, so the other steps fit below it
      have htype := hturn.unique hlink.turns
      subst htype
      obtain ⟨y, s', hrun⟩ := ih hc₁ (hcont.values ▸ hrest) (hturn.complete hup)
      exact ⟨y, s', (stateT_bind hz).trans hrun⟩

structure Scope.Reads (scope : Scope) (text : String) (root : List Char) (steps : List Step)
    (v : Variable) : Prop where
  written : Written text root steps
  identifier : Identifier root
  seen : scope.Sees (String.ofList root) v

theorem Scope.Reads.parse {scope : Scope} {text : String} {root : List Char} {steps : List Step}
    {v : Variable} (h : scope.Reads text root steps v) :
    Path.parse text = ⟨String.ofList root, steps.map Step.link, none⟩ :=
  h.written.parse (.inr h.identifier)

def rooted (s : Building) (v : Variable) : Building :=
  { s with body := s.body.addLink (varLink v) }

theorem climbs_rooted (s : Building) (v : Variable) :
    Climbs (rooted s v).body.links s.body.links.size [varLink v] :=
  .root (by simp [rooted, Body.addLink]) rfl

theorem continues_rooted (s : Building) (v : Variable) : Continues s (rooted s v) :=
  ⟨.addLink s.body _, rfl⟩

theorem ofList_ne_empty {root : List Char} (h : Identifier root) : String.ofList root ≠ "" := by
  intro hempty
  have hnil : root = [] := by
    rw [← String.toList_ofList (l := root), hempty]
    rfl
  subst hnil
  exact h

/-- A path is read from its variable down. -/
theorem deref_eq_ok_iff {scope : Scope} {text : String} {root : List Char} {steps : List Step}
    {v : Variable} {y : Handle} (h : scope.Reads text root steps v) :
    deref scope (.atEnd k) text s = .ok (y, s') ↔
      pathLinks (.atEnd k) (some s.body.links.size) (steps.map Step.link) (rooted s v) =
        .ok (y, s') := by
  have hrun : derefPath scope (.atEnd k) (Path.parse text) s =
      pathLinks (.atEnd k) (some s.body.links.size) (steps.map Step.link) (rooted s v) := by
    rw [h.parse]
    unfold derefPath
    simp only [if_neg (ofList_ne_empty h.identifier), Scope.variable?_eq_some_iff.mpr h.seen]
    exact congrFun (bind_pure (pathLinks (.atEnd k) _ (steps.map Step.link))) (rooted s v)
  rw [deref, mapError_eq_ok_iff, hrun]

theorem exists_reads {scope : Scope} {text : String} {y : Handle}
    (h : deref scope (.atEnd k) text s = .ok (y, s')) :
    ∃ root steps v, scope.Reads text root steps v := by
  replace h := mapError_eq_ok_iff.mp h
  unfold derefPath at h
  split at h
  · cases h
  · rename_i hroot
    split at h
    · cases h
    · rename_i v hv
      obtain ⟨x, s₁, hx, h⟩ := stateT_ok h
      obtain ⟨z, s₂, hz, h⟩ := stateT_ok h
      cases hfault : (Path.parse text).fault with
      | some e =>
        simp only [hfault] at h
        cases h
      | none =>
        obtain ⟨root, steps, hname, hwritten⟩ := exists_written hfault
        rw [hwritten.parse hname] at hroot hv
        rcases hname with rfl | hname
        · exact absurd rfl hroot
        · exact ⟨root, steps, v, hwritten, hname, Scope.variable?_eq_some_iff.mp hv⟩

def Canonical (values : List (String × Value)) : Step → Prop
  | .index inside =>
    ∃ n : Nat, n < 0x8000000000000000 ∧ inside = (toString n).toList ∧
      values.lookup (toString n) = none
  | .field _ => True

theorem toNat_word {n : Nat} (hn : n < 0x8000000000000000) : (Cursor.word n).toNat = n := by
  have hmod : ((n : Int) % 2 ^ 64).toNat = n := by omega
  simp only [Cursor.word, UInt64.ofInt, hmod, UInt64.toNat_ofNat']
  omega

theorem Links.render {up l : Link} {step : Step} (h : Links s s' up step l)
    (hcanonical : Canonical s.values step) :
    s'.body.renderLink l up.type = String.ofList step.text := by
  cases h with
  | index hkind hv htype hmode =>
    obtain ⟨n, hn, rfl, hname⟩ := hcanonical
    cases hv with
    | named h =>
      rw [trim_toString, String.ofList_toList, hname] at h
      cases h
    | constant _ hm hserial hconst =>
      rw [trim_toString, literal?_toString hn] at hm
      cases hm
      simp only [Body.renderLink, hkind, hconst, toNat_word hn]
      apply String.toList_inj.mp
      simp [Step.text]
  | field hkind htype hfield hmode =>
    simp only [Body.renderLink, hkind, htype, fieldLabel, hfield.found]
    apply String.toList_inj.mp
    simp [Step.text]

theorem Chains.render {up : Link} {steps : List Step} {ls : List Link} (h : Chains s s' up steps ls)
    (hcanonical : ∀ step ∈ steps, Canonical s.values step) (above : List Link) :
    s'.body.renderLinks (ls.reverse ++ up :: above) =
      s'.body.renderLinks (up :: above) ++ String.ofList (steps.flatMap Step.text) := by
  -- the chain is held from its end, and the text grows from its root
  induction h generalizing above with
  | done up => simp
  | @step up l step steps ls hlink _ ih =>
    obtain ⟨hstep, hsteps⟩ := List.forall_mem_cons.mp hcanonical
    have hnext : s'.body.renderLinks (l :: up :: above) =
        s'.body.renderLinks (up :: above) ++ String.ofList step.text := by
      rw [← hlink.render hstep]
      rfl
    rw [List.reverse_cons, List.append_assoc, List.singleton_append, ih hsteps, hnext]
    simp [String.append_assoc]

theorem deref_chains {scope : Scope} {text : String} {root : List Char} {steps : List Step}
    {v : Variable} {y : Handle} (hreads : scope.Reads text root steps v)
    (hrun : deref scope (.atEnd k) text s = .ok (y, s')) :
    ∃ ls, chain s'.body.links y = ls.reverse ++ [varLink v] ∧
      Chains s s' (varLink v) steps ls := by
  obtain ⟨n, ls, rfl, hchains, hclimbs, -⟩ :=
    pathLinks_chains (climbs_rooted s v) ((deref_eq_ok_iff hreads).mp hrun)
  have hroot := continues_rooted s v
  exact ⟨ls, hclimbs.chain_eq, hchains.earlier hroot.values hroot.grows⟩

theorem renderLinks_root (b : Body) (v : Variable) : b.renderLinks [varLink v] = v.name := by
  simp [Body.renderLinks, Body.renderLink, varLink]

/-- A path is read exactly when it is the name of a variable that is seen and steps that fit the
types below it. The chain has a link for each step, in order, and a path whose indices are written
as they are printed is printed as it was written. -/
theorem paths_resolve {scope : Scope} (hscope : scope.Made) (k : BlockId) (s : Building)
    (text : String) :
    ((∃ h s', deref scope (.atEnd k) text s = .ok (h, s')) ↔
      ∃ root steps v t, scope.Reads text root steps v ∧ Descends s.values v.type steps t) ∧
    ∀ root steps v, scope.Reads text root steps v →
      ∀ h s', deref scope (.atEnd k) text s = .ok (h, s') →
        (∃ ls, chain s'.body.links h = ls.reverse ++ [varLink v] ∧
          Chains s s' (varLink v) steps ls) ∧
        ((∀ step ∈ steps, Canonical s.values step) → s'.body.renderDeref h = "&" ++ text) := by
  refine ⟨⟨?_, ?_⟩, ?_⟩
  · rintro ⟨h, s', hrun⟩
    obtain ⟨root, steps, v, hreads⟩ := exists_reads hrun
    obtain ⟨ls, -, hchains⟩ := deref_chains hreads hrun
    obtain ⟨t, ht⟩ := hchains.descends
    exact ⟨root, steps, v, t, hreads, ht⟩
  · rintro ⟨root, steps, v, t, hreads, hsteps⟩
    have hcomplete := (hscope.sees hreads.seen).2
    obtain ⟨h, s', hrun⟩ := pathLinks_succeeds (climbs_rooted s v) hsteps hcomplete
    exact ⟨h, s', (deref_eq_ok_iff hreads).mpr hrun⟩
  · intro root steps v hreads h s' hrun
    obtain ⟨ls, hlinks, hchains⟩ := deref_chains hreads hrun
    refine ⟨⟨ls, hlinks, hchains⟩, fun hcanonical => ?_⟩
    rw [Body.renderDeref, hlinks, hchains.render hcanonical, renderLinks_root,
      (hscope.sees hreads.seen).1]
    apply String.toList_inj.mp
    simp [hreads.written.spelled]

end

def pairType : Ty := .struct "P" [("w", .array (.vector .float 4) 3), ("w", .scalar .float)]

def layered : Scope where
  structs := [("P", pairType)]
  globals := [("m", ⟨1, 1, "m", .scalar .int, .global, none⟩)]
  -- hides the global
  locals := [("m", ⟨2, 2, "m", .array pairType 4, .local, none⟩)]

theorem layered_made : layered.Made :=
  ⟨[⟨"P", [⟨"w", "vec4[3]", "", none⟩, ⟨"w", "float", "", none⟩]⟩],
    [⟨"m", "int", "", none⟩], [⟨"m", "P[4]", "", none⟩], 2, 2, 3, by decide +kernel,
    by decide +kernel, by decide +kernel⟩

theorem layered_path : layered.Made ∧
    ∃ h s', deref layered (.atEnd 0) "m[2].w[0]" ⟨{}, []⟩ = .ok (h, s') ∧
      s'.body.renderDeref h = "&m[2].w[0]" := by
  refine ⟨layered_made, ?_⟩
  obtain ⟨hiff, hread⟩ := paths_resolve layered_made 0 ⟨{}, []⟩ "m[2].w[0]"
  have hreads : layered.Reads "m[2].w[0]" ['m'] [.index ['2'], .field ['w'], .index ['0']]
      ⟨2, 2, "m", .array pairType 4, .local, none⟩ :=
    ⟨⟨by simp [Step.Legible, Identifier, isNameStart], rfl⟩, by simp [Identifier, isNameStart],
      .inl rfl⟩
  have hfield : FirstField [("w", .array (.vector .float 4) 3), ("w", .scalar .float)] ['w'] 0
      (.array (.vector .float 4) 3) := ⟨rfl, by simp⟩
  have htypes : Descends [] (.array pairType 4) [.index ['2'], .field ['w'], .index ['0']]
      (.vector .float 4) :=
    .step (.index (.inr ⟨2, by decide +kernel⟩)) (.step (.field hfield)
      (.step (.index (.inr ⟨0, by decide +kernel⟩)) (.done _)))
  obtain ⟨h, s', hrun⟩ := hiff.mpr ⟨_, _, _, _, hreads, htypes⟩
  have hindex : ∀ n : Nat, n < 10 → Canonical [] (.index (toString n).toList) :=
    fun n hn => ⟨n, by omega, rfl, rfl⟩
  refine ⟨h, s', hrun, (hread _ _ _ hreads h s' hrun).2 ?_⟩
  simp only [List.forall_mem_cons]
  exact ⟨hindex 2 (by decide), trivial, hindex 0 (by decide), by simp⟩

def unspeakable : Scope where
  structs := [("S", .struct "S" [("2d", .scalar .float), ("", .scalar .float)])]
  globals := []
  locals := [("s", ⟨1, 1, "s", .struct "S" [("2d", .scalar .float), ("", .scalar .float)], .local,
    none⟩)]

theorem unspeakable_field : unspeakable.Made ∧
    FirstField [("2d", .scalar .float), ("", .scalar .float)] "2d".toList 0 (.scalar .float) ∧
    (deref unspeakable (.atEnd 0) "s.2d" ⟨{}, []⟩).toOption.isNone = true ∧
    (deref unspeakable (.atEnd 0) "s." ⟨{}, []⟩).toOption.isSome = true := by
  refine ⟨⟨[⟨"S", [⟨"2d", "float", "", none⟩, ⟨"", "float", "", none⟩]⟩], [],
    [⟨"s", "S", "", none⟩], 1, 1, 2, by decide +kernel, by decide +kernel, by decide +kernel⟩,
    ⟨rfl, by simp⟩, by decide +kernel, by decide +kernel⟩

end Loading

end ShaderIR
