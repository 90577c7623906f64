import ShaderIR.Proofs.LoadedShader
import ShaderIR.Proofs.PassFaults

/-!
# Where the pipeline fails

The functions of a shader share their tables, and a pass takes them one after the other. As they
stand apart, what a pass does to one of them leaves the others as they were. So a pass over a shader
fails at the first function where it fails, and for a loaded shader the causes are those that can be
read off its instructions.
-/

set_option autoImplicit false

namespace ShaderIR

namespace Shader

def fault? {ε : Type} (s : Shader) (cause? : Body → InstrId → Option ε) (i : Nat) :
    Option (Fault ε) :=
  (s.body? i).bind fun b =>
    (b.firstFault (cause? b)).map fun f => { f with function := s.functionName? i }

def firstFault {ε : Type} (s : Shader) (cause? : Body → InstrId → Option ε) : Option (Fault ε) :=
  (List.range s.functions.size).findSome? (s.fault? cause?)

end Shader

section

variable {ε : Type} {s : Shader} {cause? : Body → InstrId → Option ε}

theorem lt_of_body? {i : Nat} {b : Body} (h : s.body? i = some b) : i < s.functions.size := by
  obtain ⟨frame, hframe, -⟩ := Option.map_eq_some_iff.mp h
  obtain ⟨f, hf, -⟩ := Option.bind_eq_some_iff.mp hframe
  exact (Array.getElem?_eq_some_iff.mp hf).1

theorem shader_firstFault_eq_none_iff : s.firstFault cause? = none ↔
    ∀ i b, s.body? i = some b → ∀ id ∈ b.placedInstrs, cause? b id = none := by
  rw [Shader.firstFault, List.findSome?_eq_none_iff]
  constructor
  · intro h i b hb
    have hi := h i (List.mem_range.mpr (lt_of_body? hb))
    rw [Shader.fault?, hb, Option.bind_some, Option.map_eq_none_iff] at hi
    exact firstFault_eq_none_iff.mp hi
  · intro h i _
    rw [Shader.fault?]
    cases hb : s.body? i with
    | none => rfl
    | some b =>
      rw [Option.bind_some, Option.map_eq_none_iff]
      exact firstFault_eq_none_iff.mpr (h i b hb)

theorem shader_firstFault_ne_none_iff {R : Body → InstrId → Prop}
    (hR : ∀ i b, s.body? i = some b → ∀ id, cause? b id ≠ none ↔ R b id) :
    s.firstFault cause? ≠ none ↔ ∃ i b, s.body? i = some b ∧ ∃ id ∈ b.placedInstrs, R b id := by
  rw [Ne, shader_firstFault_eq_none_iff]
  constructor
  · intro h
    by_contra hnone
    apply h
    intro i b hb id hid
    by_contra hcause
    exact hnone ⟨i, b, hb, id, hid, (hR i b hb id).mp hcause⟩
  · rintro ⟨i, b, hb, id, hid, hr⟩ h
    exact (hR i b hb id).mpr hr (h i b hb id hid)

theorem exists_of_shader_firstFault {f : Fault ε} (h : s.firstFault cause? = some f) :
    ∃ i b, s.body? i = some b ∧ ∃ id ∈ b.placedInstrs, cause? b id = some f.cause := by
  obtain ⟨-, i, -, -, hi, -⟩ := List.findSome?_eq_some_iff.mp h
  obtain ⟨b, hb, hfault⟩ := Option.bind_eq_some_iff.mp hi
  obtain ⟨g, hg, rfl⟩ := Option.map_eq_some_iff.mp hfault
  obtain ⟨id, hid, hcause⟩ := exists_of_firstFault hg
  exact ⟨i, b, hb, id, hid, hcause⟩

end

section

variable {s : Shader} {i j : Nat} {b b' c : Body}

theorem body?_setBody_self (h : s.body? i = some b) : (s.setBody i b').body? i = some b' := by
  obtain ⟨frame, hframe, -⟩ := Option.map_eq_some_iff.mp h
  obtain ⟨f, hf, -⟩ := Option.bind_eq_some_iff.mp hframe
  simp [Shader.body?, Shader.setBody, Array.getElem?_modify, hf]

theorem body?_setBody_other (h : j ≠ i) :
    (s.setBody i b').body? j = (s.body? j).map fun c => { c with toStore := b'.toStore } := by
  have hne : i ≠ j := fun heq => h heq.symm
  simp [Shader.body?, Shader.setBody, Array.getElem?_modify, hne, Function.comp_def]

theorem functionName?_setBody (j : Nat) : (s.setBody i b').functionName? j = s.functionName? j := by
  rw [Shader.functionName?, Shader.functionName?, Shader.setBody, Array.getElem?_modify]
  split
  · cases s.functions[j]? <;> rfl
  · rfl

/-- A change that is confined to one function does not disturb another. -/
theorem Confined.undisturbed (h : Confined b b') (hstore : c.toStore = b.toStore)
    (hapart : Apart b c) (hplaced : ∀ id ∈ c.placedInstrs, id < c.instrs.size) :
    Undisturbed c { c with toStore := b'.toStore } where
  frame := rfl
  blocks k hk := by
    rw [hstore]
    exact h.blocks k fun hk' => hapart.layout k hk' hk
  instrs id hid := by
    rw [hstore]
    refine h.instrs id ?_ fun hid' => hapart.placed id hid' hid
    rw [← hstore]
    exact hplaced id hid
  instrs_le := hstore ▸ h.instrs_le
  definers n hn := by
    rw [hstore] at hn ⊢
    exact h.definers n hn
  definers_le := hstore ▸ h.definers_le
  registerCount_le := hstore ▸ h.registerCount_le

theorem Confined.apart (h : Confined b b') (hstore : c.toStore = b.toStore) (hapart : Apart b c)
    (hplaced : ∀ id ∈ c.placedInstrs, id < c.instrs.size) :
    Apart b' { c with toStore := b'.toStore } := by
  have hu := h.undisturbed hstore hapart hplaced
  constructor
  · rw [h.layout, hu.layout]
    exact hapart.layout
  · intro id hid hid'
    rw [hu.placedInstrs] at hid'
    have hlt := hplaced id hid'
    rw [hstore] at hlt
    rcases h.placed id hid with hid | hge
    · exact hapart.placed id hid hid'
    · exact Nat.not_lt.mpr hge hlt

theorem Apart.undisturbed {c' : Body} (h : Apart b c) (hb : Undisturbed b b')
    (hc : Undisturbed c c') : Apart b' c' := by
  constructor
  · rw [hb.layout, hc.layout]
    exact h.layout
  · rw [hb.placedInstrs, hc.placedInstrs]
    exact h.placed

theorem store_of_body? (h : s.body? i = some b) : b.toStore = s.store := by
  obtain ⟨frame, -, rfl⟩ := Option.map_eq_some_iff.mp h
  rfl

structure Shader.Parted (s : Shader) : Prop where
  apart : ∀ i j b c, i ≠ j → s.body? i = some b → s.body? j = some c → Apart b c
  placed : ∀ i b, s.body? i = some b → ∀ id ∈ b.placedInstrs, id < b.instrs.size

namespace Shader.Parted

theorem other (hs : s.Parted) (hb : s.body? i = some b) (hc : Confined b b') (hj : j ≠ i)
    (hcj : (s.setBody i b').body? j = some c) : ∃ d, s.body? j = some d ∧
      c = { d with toStore := b'.toStore } ∧ Undisturbed d c := by
  rw [body?_setBody_other hj] at hcj
  obtain ⟨d, hd, rfl⟩ := Option.map_eq_some_iff.mp hcj
  refine ⟨d, hd, rfl, hc.undisturbed ?_ (hs.apart i j b d hj.symm hb hd) (hs.placed j d hd)⟩
  rw [store_of_body? hb, store_of_body? hd]

theorem setBody (hs : s.Parted) (hb : s.body? i = some b) (hc : Confined b b')
    (hplaced : ∀ id ∈ b'.placedInstrs, id < b'.instrs.size) : (s.setBody i b').Parted := by
  have hbeside : ∀ j c, j ≠ i → (s.setBody i b').body? j = some c → Apart b' c := by
    intro j c hj hcj
    obtain ⟨d, hd, rfl, -⟩ := hs.other hb hc hj hcj
    apply hc.apart _ (hs.apart i j b d hj.symm hb hd) (hs.placed j d hd)
    rw [store_of_body? hb, store_of_body? hd]
  constructor
  · intro j k c d hjk hcj hdk
    by_cases hj : j = i
    · subst hj
      rw [body?_setBody_self hb] at hcj
      cases hcj
      exact hbeside k d hjk.symm hdk
    · by_cases hk : k = i
      · subst hk
        rw [body?_setBody_self hb] at hdk
        cases hdk
        exact (hbeside j c hj hcj).symm
      · obtain ⟨c₀, hc₀, -, hcu⟩ := hs.other hb hc hj hcj
        obtain ⟨d₀, hd₀, -, hdu⟩ := hs.other hb hc hk hdk
        exact (hs.apart j k c₀ d₀ hjk hc₀ hd₀).undisturbed hcu hdu
  · intro j c hcj
    by_cases hj : j = i
    · subst hj
      rw [body?_setBody_self hb] at hcj
      cases hcj
      exact hplaced
    · obtain ⟨d, hd, -, hu⟩ := hs.other hb hc hj hcj
      rw [hu.placedInstrs]
      exact fun id hid => Nat.lt_of_lt_of_le (hs.placed j d hd id hid) hu.instrs_le

theorem fault?_other {ε : Type} {cause? : Body → InstrId → Option ε} (hs : s.Parted)
    (hb : s.body? i = some b) (hc : Confined b b') (hj : j ≠ i)
    (hcause : ∀ b c, Undisturbed b c → ∀ id ∈ b.placedInstrs, cause? c id = cause? b id) :
    (s.setBody i b').fault? cause? j = s.fault? cause? j := by
  rw [Shader.fault?, Shader.fault?, functionName?_setBody]
  cases hcj : (s.setBody i b').body? j with
  | none =>
    rw [body?_setBody_other hj, Option.map_eq_none_iff] at hcj
    rw [hcj]
  | some c =>
    obtain ⟨d, hd, -, hu⟩ := hs.other hb hc hj hcj
    have hsame : c.firstFault (cause? c) = d.firstFault (cause? d) :=
      firstFault_congr hu.layout (fun k hk => hu.held hk) (fun k hk => hu.blockIndex hk)
        (hcause d c hu)
    rw [hd, Option.bind_some, Option.bind_some, hsame]

end Shader.Parted

end

def Lasting (P : Body → Prop) : Prop :=
  ∀ b c, P b → Undisturbed b c → c.toStore.Recorded → P c

/-- The other functions keep their form, as the tables of the new body are in order. -/
theorem Lasting.other {P : Body → Prop} (hP : Lasting P) {s : Shader} {b b' c : Body} {i j : Nat}
    (hs : s.Parted) (hb : s.body? i = some b) (hc : Confined b b') (hl : b'.Laid) (hj : j ≠ i)
    (hcj : (s.setBody i b').body? j = some c) (h : ∀ d, s.body? j = some d → P d) : P c := by
  obtain ⟨d, hd, rfl, hu⟩ := hs.other hb hc hj hcj
  exact hP d _ (h d hd) hu hl.recorded

section

/- A pass takes functions of the form `P` and leaves them, when it succeeds, in the form `Q`. -/
variable {σ ε : Type} (shader : σ → Shader) (error : σ → Option (Fault ε)) (step : σ → Nat → σ)
  {cause? : Body → InstrId → Option ε} {P Q : Body → Prop} (hP : Lasting P) (hQ : Lasting Q)
  (hcause : ∀ b c, Undisturbed b c → ∀ id ∈ b.placedInstrs, cause? c id = cause? b id)
  (hstuck : ∀ s i, error s ≠ none → step s i = s)
  (hskip : ∀ s i, (shader s).body? i = none → step s i = s)
  (hfault : ∀ s i b, error s = none → (shader s).body? i = some b → P b →
    error (step s i) = (shader s).fault? cause? i)
  (hstep : ∀ s i b, error s = none → (shader s).body? i = some b → P b →
    error (step s i) = none → ∃ b', shader (step s i) = (shader s).setBody i b' ∧
      Confined b b' ∧ b'.Laid ∧ Q b')

include hP hQ hcause hstuck hskip hfault hstep

/-- A pass over functions that stand apart fails at the first function where it fails. -/
theorem foldl_functions (xs : List Nat) {s : σ} (hxs : xs.Nodup) (herror : error s = none)
    (hs : (shader s).Parted) (hin : ∀ i ∈ xs, ∀ b, (shader s).body? i = some b → P b)
    (hout : ∀ i ∉ xs, ∀ b, (shader s).body? i = some b → Q b) :
    error (xs.foldl step s) = xs.findSome? ((shader s).fault? cause?) ∧
      (error (xs.foldl step s) = none → (shader (xs.foldl step s)).Parted ∧
        ∀ i b, (shader (xs.foldl step s)).body? i = some b → Q b) := by
  induction xs generalizing s with
  | nil => exact ⟨herror, fun _ => ⟨hs, fun i => hout i (by simp)⟩⟩
  | cons x xs ih =>
    obtain ⟨hx, hxs⟩ := List.nodup_cons.mp hxs
    rw [List.foldl_cons, List.findSome?_cons]
    cases hb : (shader s).body? x with
    | none =>
      have hnone : (shader s).fault? cause? x = none := by rw [Shader.fault?, hb, Option.bind_none]
      rw [hskip s x hb, hnone]
      apply ih hxs herror hs fun i hi => hin i (.tail _ hi)
      intro i hi b hbi
      have hne : i ≠ x := by
        rintro rfl
        rw [hb] at hbi
        cases hbi
      exact hout i (by simp [hne, hi]) b hbi
    | some b =>
      have hPb := hin x (.head _) b hb
      have herr := hfault s x b herror hb hPb
      cases hcase : (shader s).fault? cause? x with
      | some f =>
        rw [hcase] at herr
        have hfold : xs.foldl step (step s x) = step s x :=
          foldl_fixed xs fun i _ => hstuck _ i (by simp [herr])
        rw [hfold, herr]
        exact ⟨rfl, fun h => absurd h (by simp)⟩
      | none =>
        rw [hcase] at herr
        obtain ⟨b', hshader, hconf, hlaid, hQb⟩ := hstep s x b herror hb hPb herr
        have hparted := hs.setBody hb hconf fun id hid => hlaid.lt_size hid
        rw [← hshader] at hparted
        have hsame : xs.findSome? ((shader s).fault? cause?) =
            xs.findSome? ((shader (step s x)).fault? cause?) := by
          apply findSome?_congr
          intro i hi
          rw [hshader]
          exact (hs.fault?_other hb hconf (fun heq => hx (heq ▸ hi)) hcause).symm
        rw [hsame]
        apply ih hxs herr hparted
        · intro i hi c hc
          rw [hshader] at hc
          have hne : i ≠ x := fun heq => hx (heq ▸ hi)
          exact hP.other hs hb hconf hlaid hne hc (hin i (.tail _ hi))
        · intro i hi c hc
          rw [hshader] at hc
          by_cases hne : i = x
          · subst hne
            rw [body?_setBody_self hb] at hc
            cases hc
            exact hQb
          · exact hQ.other hs hb hconf hlaid hne hc (hout i (by simp [hne, hi]))

end

theorem Lasting.unlowered : Lasting Body.Unlowered := fun _ _ h hu hrec => h.undisturbed hu hrec

theorem Lasting.copyless : Lasting fun b => b.Unlowered ∧ b.Copyless := by
  intro b c h hu hrec
  refine ⟨h.1.undisturbed hu hrec, ?_⟩
  intro id hid dst src
  rw [hu.placedInstrs] at hid
  rw [hu.op? hid]
  exact h.2 id hid dst src

section

variable {s : Shader}

theorem Undisturbed.mismatch? (b c : Body) (hu : Undisturbed b c) :
    ∀ id ∈ b.placedInstrs, c.mismatch? id = b.mismatch? id := by
  intro id hid
  rw [Body.mismatch?, Body.mismatch?, hu.op? hid, hu.links]

theorem Undisturbed.refusal? (b c : Body) (hu : Undisturbed b c) :
    ∀ id ∈ b.placedInstrs, c.refusal? id = b.refusal? id := by
  intro id hid
  rw [Body.refusal?, Body.refusal?, hu.op? hid, hu.links]

theorem fault?_eq {ε : Type} {cause? : Body → InstrId → Option ε} {i : Nat} {b : Body}
    (hb : s.body? i = some b) : s.fault? cause? i =
      (b.firstFault (cause? b)).map fun f => { f with function := s.functionName? i } := by
  rw [Shader.fault?, hb, Option.bind_some]

/-- Splitting a shader fails at the first copy between places of different types, or it leaves no
copy behind. -/
theorem Shader.Parted.splitCopies (hs : s.Parted)
    (hbodies : ∀ i b, s.body? i = some b → b.Unlowered) :
    s.splitCopies.error = s.firstFault Body.mismatch? ∧
      (s.splitCopies.error = none → s.splitCopies.shader.Parted ∧
        ∀ i b, s.splitCopies.shader.body? i = some b → b.Unlowered ∧ b.Copyless) := by
  apply foldl_functions ShaderSplit.shader ShaderSplit.error ShaderSplit.function .unlowered
    .copyless Undisturbed.mismatch? ?_ ?_ ?_ ?_ _ List.nodup_range rfl hs
    (fun i _ => hbodies i) ?_
  · intro s i hne
    obtain ⟨e, he⟩ := Option.ne_none_iff_exists'.mp hne
    simp [ShaderSplit.function, he]
  · intro s i hnone
    cases he : s.error <;> simp [ShaderSplit.function, he, hnone]
  · intro s i b herror hb hu
    rw [fault?_eq hb, ← hu.splitCopies_fault]
    cases he : b.splitCopies.error <;> simp [ShaderSplit.function, herror, hb, he]
  · intro s i b herror hb hu hok
    have hok' : b.splitCopies.error = none := by
      cases he : b.splitCopies.error with
      | none => rfl
      | some e => simp [ShaderSplit.function, herror, hb, he] at hok
    have hunlowered := hu.splitCopies hok'
    refine ⟨b.splitCopies.body, ?_, splitCopies_confined hu.toLaid hok', hunlowered.toLaid,
      hunlowered, splitCopies_copyless hok'⟩
    simp [ShaderSplit.function, herror, hb, hok']
  · intro i hi b hb
    exact absurd (List.mem_range.mpr (lt_of_body? hb)) hi

theorem functionName?_of_body? {i : Nat} {b : Body} (hb : s.body? i = some b) :
    some ((s.functionName? i).getD "") = s.functionName? i := by
  have hlt := lt_of_body? hb
  simp [Shader.functionName?, hlt]

/-- Lowering a shader without copies fails at the first access that it refuses. -/
theorem Shader.Parted.lowerLocals (hs : s.Parted)
    (hbodies : ∀ i b, s.body? i = some b → b.Unlowered ∧ b.Copyless) :
    s.lowerLocals.error = s.firstFault Body.refusal? := by
  have hrun := foldl_functions (Q := fun _ => True) ShaderLowered.shader ShaderLowered.error
    ShaderLowered.function .copyless (fun _ _ _ _ _ => trivial) Undisturbed.refusal? ?_ ?_ ?_ ?_
    (List.range s.functions.size) (s := ⟨s, .zero, [], none⟩) List.nodup_range rfl hs
    (fun i _ => hbodies i) fun _ _ _ _ => trivial
  · exact hrun.1
  · intro s i hne
    obtain ⟨e, he⟩ := Option.ne_none_iff_exists'.mp hne
    simp [ShaderLowered.function, he]
  · intro s i hnone
    cases he : s.error <;> simp [ShaderLowered.function, he, hnone]
  · intro s i b herror hb hu
    rw [fault?_eq hb, ← functionName?_of_body? hb, ← hu.1.lowerLocals_fault hu.2]
    cases he : b.lowerLocals.error <;> simp [ShaderLowered.function, herror, hb, he]
  · intro s i b herror hb hu hok
    have hok' : b.lowerLocals.error = none := by
      cases he : b.lowerLocals.error with
      | none => rfl
      | some e => simp [ShaderLowered.function, herror, hb, he] at hok
    obtain ⟨hconfined, hlaid⟩ := lowerLocals_confined hu.1.toLaid hok'
    refine ⟨b.lowerLocals.body, ?_, hconfined, hlaid, trivial⟩
    simp [ShaderLowered.function, herror, hb, hok']

end

namespace Body

def AccessesInitialized (b : Body) (id : InstrId) : Prop :=
  ∃ h v, ((∃ dest n, b.op? id = some (.load h dest n)) ∨
      ∃ x mask, b.op? id = some (.store h x mask)) ∧
    rootVariable? (chain b.links h) = some v ∧ v.mode = .local ∧ v.init.isSome = true

def StoresAggregate (b : Body) (id : InstrId) : Prop :=
  ∃ h x mask, b.op? id = some (.store h x mask) ∧ isLocal b.links h = true ∧
    (derefType b.links h).isAggregate = true

def CopiesUnevenly (b : Body) (id : InstrId) : Prop :=
  ∃ dst src, b.op? id = some (.copy dst src) ∧ derefType b.links dst ≠ derefType b.links src

end Body

section

variable {b : Body} {id : InstrId}

theorem initializer?_eq_some {root : Option Variable} {e : LowerError}
    (h : initializer? root = some e) :
    ∃ v, root = some v ∧ v.init.isSome = true ∧ e = .initializer v.name := by
  obtain ⟨v, rfl, hv⟩ := Option.bind_eq_some_iff.mp h
  by_cases hinit : v.init.isSome = true
  · rw [if_pos hinit] at hv
    exact ⟨v, rfl, hinit, (Option.some.inj hv).symm⟩
  · rw [if_neg hinit] at hv
    cases hv

theorem aggregate?_eq_some {type : Ty} {e : LowerError} (h : aggregate? type = some e) :
    type.isAggregate = true ∧ e = .badLeaf type := by
  unfold aggregate? at h
  split at h
  · rename_i htype
    exact ⟨htype, (Option.some.inj h).symm⟩
  · cases h

theorem mismatch?_eq_some {e : SplitError} (h : b.mismatch? id = some e) :
    b.CopiesUnevenly id ∧ ∃ dst src, e = .mismatch dst src := by
  unfold Body.mismatch? at h
  split at h
  · rename_i dst src hop
    split at h
    · cases h
    · rename_i hne
      exact ⟨⟨dst, src, hop, hne⟩, _, _, (Option.some.inj h).symm⟩
  · cases h

theorem mismatch?_ne_none_iff : b.mismatch? id ≠ none ↔ b.CopiesUnevenly id := by
  constructor
  · intro h
    obtain ⟨e, he⟩ := Option.ne_none_iff_exists'.mp h
    exact (mismatch?_eq_some he).1
  · rintro ⟨dst, src, hop, hne⟩
    simp [Body.mismatch?, hop, hne]

theorem refusal?_eq_some (hplain : PlainArena b.links) {e : LowerError} (h : b.refusal? id = some e) :
    (b.AccessesInitialized id ∧ ∃ name, e = .initializer name) ∨
      (b.StoresAggregate id ∧ ∃ type : Ty, type.isAggregate = true ∧ e = .badLeaf type) := by
  unfold Body.refusal? at h
  split at h
  · rename_i x dest n hop
    split at h
    · rename_i hlocal
      obtain ⟨v, hroot, hinit, rfl⟩ := initializer?_eq_some h
      exact .inl ⟨⟨x, v, .inl ⟨dest, n, hop⟩, hroot, (hplain.isLocal_iff hroot).mp hlocal, hinit⟩,
        _, rfl⟩
    · cases h
  · rename_i x value mask hop
    split at h
    · rename_i hlocal
      rcases Option.or_eq_some_iff.mp h with h | ⟨-, h⟩
      · obtain ⟨v, hroot, hinit, rfl⟩ := initializer?_eq_some h
        exact .inl ⟨⟨x, v, .inr ⟨value, mask, hop⟩, hroot, (hplain.isLocal_iff hroot).mp hlocal,
          hinit⟩, _, rfl⟩
      · obtain ⟨htype, rfl⟩ := aggregate?_eq_some h
        exact .inr ⟨⟨x, value, mask, hop, hlocal, htype⟩, _, htype, rfl⟩
    · cases h
  · cases h

theorem refusal?_ne_none_iff (hplain : PlainArena b.links) :
    b.refusal? id ≠ none ↔ b.AccessesInitialized id ∨ b.StoresAggregate id := by
  constructor
  · intro h
    obtain ⟨e, he⟩ := Option.ne_none_iff_exists'.mp h
    exact (refusal?_eq_some hplain he).imp And.left And.left
  · rintro (⟨x, v, hop, hroot, hmode, hinit⟩ | ⟨x, value, mask, hop, hlocal, htype⟩)
    · have hlocal := (hplain.isLocal_iff hroot).mpr hmode
      rcases hop with ⟨dest, n, hop⟩ | ⟨value, mask, hop⟩ <;>
        simp [Body.refusal?, hop, hlocal, hroot, initializer?, hinit]
    · simp [Body.refusal?, hop, hlocal, aggregate?, htype]

end

theorem Shader.Loaded.unlowered {s : Shader} (h : s.Loaded) {i : Nat} {b : Body}
    (hb : s.body? i = some b) : b.Unlowered := by
  obtain ⟨store, store', -, hr⟩ := h.resides i b hb
  apply hr.unlowered
  · rw [store_of_body? hb]
    exact h.recorded
  · intro v hv
    apply h.types v
    rcases List.mem_append.mp hv with hv | hv
    · obtain ⟨f, hf, hvf⟩ := exists_function hb (Array.mem_toList_iff.mp hv)
      exact List.mem_append_right _ (List.mem_flatMap.mpr ⟨f, Array.mem_toList_iff.mpr hf, hvf⟩)
    · exact List.mem_append_left _ hv

theorem Shader.Loaded.parted {s : Shader} (h : s.Loaded) : s.Parted := by
  constructor
  · exact h.apart
  · intro i b hb id hid
    exact (h.unlowered hb).lt_size hid

/-- Splitting a loaded shader fails exactly when a function copies between places of different types,
and names the first such copy. When it succeeds, lowering fails exactly when a function accesses a
local variable with an initializer or stores to a whole local array or struct, and names the first
such access. Neither pass fails for another cause. -/
theorem toShader_faults (d : Description) (s : Shader) (h : d.toShader = .ok s) :
    s.splitCopies.error = s.firstFault Body.mismatch? ∧
    (s.splitCopies.error ≠ none ↔ ∃ i b, s.body? i = some b ∧
      ∃ id ∈ b.placedInstrs, b.CopiesUnevenly id) ∧
    (∀ f, s.splitCopies.error = some f → ∃ dst src, f.cause = .mismatch dst src) ∧
    (s.splitCopies.error = none →
      let t := s.splitCopies.shader
      t.lowerLocals.error = t.firstFault Body.refusal? ∧
      (t.lowerLocals.error ≠ none ↔ ∃ i b, t.body? i = some b ∧
        ∃ id ∈ b.placedInstrs, b.AccessesInitialized id ∨ b.StoresAggregate id) ∧
      ∀ f, t.lowerLocals.error = some f → (∃ name, f.cause = .initializer name) ∨
        ∃ type : Ty, type.isAggregate = true ∧ f.cause = .badLeaf type) := by
  have hs := Description.loaded h
  obtain ⟨hsplit, hnext⟩ := hs.parted.splitCopies fun i b hb => hs.unlowered hb
  refine ⟨hsplit, ?_, ?_, ?_⟩
  · rw [hsplit]
    exact shader_firstFault_ne_none_iff fun _ _ _ _ => mismatch?_ne_none_iff
  · intro f hf
    obtain ⟨i, b, -, id, -, hcause⟩ := exists_of_shader_firstFault (hsplit.symm.trans hf)
    exact (mismatch?_eq_some hcause).2
  · intro hok t
    obtain ⟨hparted, hbodies⟩ := hnext hok
    have hlower := hparted.lowerLocals hbodies
    refine ⟨hlower, ?_, ?_⟩
    · rw [hlower]
      exact shader_firstFault_ne_none_iff fun i b hb _ =>
        refusal?_ne_none_iff (hbodies i b hb).1.plain
    · intro f hf
      obtain ⟨i, b, hb, id, -, hcause⟩ := exists_of_shader_firstFault (hlower.symm.trans hf)
      exact (refusal?_eq_some (hbodies i b hb).1.plain hcause).imp And.right And.right

def clashing : Description where
  format := "1.0"
  shader := "clashing"
  globals := [{ name := "g", type := "vec2[2]" }, { name := "x", type := "float" }]
  functions :=
    [⟨"main", [{ name := "a", type := "vec2[2]" }],
        [⟨"entry", [], [{ op := "copy", dst := "a", src := "g" }]⟩]⟩,
      ⟨"shade", [{ name := "k", type := "float[2]", init := some [1, 2] }],
        [⟨"entry", ["exit"], [{ op := "load", result := "v", deref := "x" }]⟩,
          -- refused for the initializer, although a whole array is stored
          ⟨"exit", [], [{ op := "store", deref := "k", value := "v" },
            { op := "load", result := "w", deref := "k[1]" }]⟩]⟩]

theorem clashing_faults : ∃ s, clashing.toShader = .ok s ∧ s.splitCopies.error = none ∧
    s.firstFault Body.mismatch? = none ∧ s.splitCopies.shader.lowerLocals.error =
      some ⟨some "shade", 1, .initializer "k"⟩ ∧
    s.splitCopies.shader.firstFault Body.refusal? = some ⟨some "shade", 1, .initializer "k"⟩ ∧
    ∃ i b, s.splitCopies.shader.body? i = some b ∧
      ∃ id ∈ b.placedInstrs, b.AccessesInitialized id ∨ b.StoresAggregate id := by
  have hrun : (clashing.toShader.toOption.map fun s =>
      (s.splitCopies.error, s.splitCopies.shader.lowerLocals.error)) =
        some (none, some ⟨some "shade", 1, .initializer "k"⟩) := by
    decide +kernel
  obtain ⟨s, hs, herrors⟩ := Option.map_eq_some_iff.mp hrun
  obtain ⟨hsplit, hlower⟩ := Prod.mk.inj herrors
  have hok := ok_of_toOption hs
  obtain ⟨hmismatch, -, -, hnext⟩ := toShader_faults clashing s hok
  obtain ⟨hrefusal, hiff, -⟩ := hnext hsplit
  exact ⟨s, hok, hsplit, hmismatch ▸ hsplit, hlower, hrefusal ▸ hlower,
    hiff.mp (by rw [hlower]; simp)⟩

end ShaderIR
