import ShaderIR.Proofs.LoweringTrace
import ShaderIR.Proofs.SSAForm

/-!
# What lowering changes

Lowering replaces each local load and store, at its own position, by address arithmetic and one
move. Every other instruction keeps its place, and its reads change at most from the value of a
local load to the value of the move that stands for it. The blocks, the variables and the outlines
of the deref links stay, and registers are only appended. The statistics count the accesses that
were there and the identities that they lead to.
-/

set_option autoImplicit false

namespace ShaderIR

def Body.localDeref? (b : Body) (id : InstrId) : Option Handle :=
  match b.op? id with
  | some (.load h _ _) | some (.store h _ _) => if isLocal b.links h then some h else none
  | _ => none

def Body.loadsLocal (b : Body) (id : InstrId) : Bool :=
  match b.op? id with
  | some (.load h _ _) => isLocal b.links h
  | _ => false

def Body.storesLocal (b : Body) (id : InstrId) : Bool :=
  match b.op? id with
  | some (.store h _ _) => isLocal b.links h
  | _ => false

def Link.shape (l : Link) : Turn × Handle × Ty × Mode := (l.kind.turn, l.parent, l.type, l.mode)

theorem Link.shape_replace (old new : Value) (l : Link) :
    (l.replace old new).shape = l.shape := by
  cases hk : l.kind <;> simp [Link.shape, Link.replace_kind, hk]

inductive Action.Arithmetic : Action → Prop
  | const (v : Value) (values : List UInt64) : Arithmetic (.const v values)
  | alu {op : AluOp} (hop : op ∈ [AluOp.mov, .u2u32, .imul, .iadd]) (srcs : List Site) (v : Value)
      (mask : UInt8) : Arithmetic (.alu op srcs (.value v) mask)

/-- In `b'` the instructions `run` and `last` stand for the access `id` of `b`. The names of the
values in `b'` are given by `next`. -/
structure Rewritten (b b' : Body) (next : Value → Value) (id : InstrId) (run : List InstrId)
    (last : InstrId) : Prop where
  new : ∀ x ∈ run ++ [last], b.instrs.size ≤ x
  arithmetic : ∀ x ∈ run, ∃ a, b'.action? x = some a ∧ a.Arithmetic
  move : (∃ hops dest n s, b.action? id = some (.load hops dest n) ∧
      b'.action? last = some (.alu .mov [.slot s] (dest.rename next next) (fullMask n))) ∨
    ∃ hops v mask s, b.action? id = some (.store hops v mask) ∧
      b'.action? last = some (.alu .mov [v.map next] (.slot s) mask)
  fresh : ∀ v, b.resultOf? id = some v → b.definers.size ≤ (next v).serial

def Body.DefinesOnce (b : Body) : Prop :=
  ∀ id ∈ b.placedInstrs, ∀ id' ∈ b.placedInstrs, ∀ v, b.resultOf? id = some v →
    b.resultOf? id' = some v → id = id'

/-- How far the rewriting of `b` into `c` came, when the instructions in `met` were met: `ids` are
the instructions that stand for each instruction of `b`, `next` the names of the values of `b`. -/
structure Rewriting (b : Body) (met : List InstrId) (c : Body) (ids : InstrId → List InstrId)
    (next : Value → Value) : Prop where
  confined : Confined b c
  shapes : c.links.map Link.shape = b.links.map Link.shape
  held : ∀ k ∈ b.layout, c.held k = (b.held k).flatMap ids
  kept : ∀ id ∈ b.placedInstrs, (id ∈ met → b.localDeref? id = none) →
    ids id = [id] ∧ c.action? id = (b.action? id).map (Action.mapUses next)
  replaced : ∀ id ∈ b.placedInstrs, id ∈ met → b.localDeref? id ≠ none →
    ∃ run last, ids id = run ++ [last] ∧ Rewritten b c next id run last
  renamed : ∀ v, next v = v ∨ b.definers.size ≤ (next v).serial ∧
    ∃ id ∈ b.placedInstrs, id ∈ met ∧ b.loadsLocal id = true ∧ b.resultOf? id = some v

section

variable {b : Body} {id : InstrId}

/-- An access leads through one chain, which leads into local memory. -/
theorem localDeref?_eq_some {h : Handle} (hd : b.localDeref? id = some h) :
    ∃ a, b.action? id = some a ∧ a.chains = [b.hops h] ∧ isLocal b.links h = true := by
  unfold Body.localDeref? at hd
  split at hd
  · rename_i h' dest n hop
    split at hd
    · rename_i hlocal
      cases hd
      exact ⟨_, by rw [Body.action?, hop]; rfl, rfl, hlocal⟩
    · cases hd
  · rename_i h' v mask hop
    split at hd
    · rename_i hlocal
      cases hd
      exact ⟨_, by rw [Body.action?, hop]; rfl, rfl, hlocal⟩
    · cases hd
  · cases hd

theorem localDeref?_eq_none (h : ∀ a ∈ b.action? id, ∀ hops ∈ a.chains, localChain hops = false) :
    b.localDeref? id = none := by
  cases hd : b.localDeref? id with
  | none => rfl
  | some h' =>
    obtain ⟨a, ha, hch, hlocal⟩ := localDeref?_eq_some hd
    have := h a ha (b.hops h') (by simp [hch])
    rw [localChain_hops, hlocal] at this
    cases this

theorem loadsLocal_iff {hops : List Hop} {dest : Site} {n : Int}
    (ha : b.action? id = some (.load hops dest n)) (hlocal : localChain hops = true) :
    b.loadsLocal id = true ∧ b.storesLocal id = false ∧
      ∃ h, b.localDeref? id = some h ∧ b.hops h = hops := by
  obtain ⟨op, hop, hact⟩ := Option.map_eq_some_iff.mp ha
  cases op with
  | load h d m =>
    cases hact
    rw [localChain_hops] at hlocal
    exact ⟨by simp [Body.loadsLocal, hop, hlocal], by simp [Body.storesLocal, hop],
      h, by simp [Body.localDeref?, hop, hlocal], rfl⟩
  | _ => cases hact

theorem storesLocal_iff {hops : List Hop} {v : Site} {mask : UInt8}
    (ha : b.action? id = some (.store hops v mask)) (hlocal : localChain hops = true) :
    b.loadsLocal id = false ∧ b.storesLocal id = true ∧
      ∃ h, b.localDeref? id = some h ∧ b.hops h = hops := by
  obtain ⟨op, hop, hact⟩ := Option.map_eq_some_iff.mp ha
  cases op with
  | store h u m =>
    cases hact
    rw [localChain_hops] at hlocal
    exact ⟨by simp [Body.loadsLocal, hop], by simp [Body.storesLocal, hop, hlocal],
      h, by simp [Body.localDeref?, hop, hlocal], rfl⟩
  | _ => cases hact

theorem not_loadsLocal (h : b.localDeref? id = none) :
    b.loadsLocal id = false ∧ b.storesLocal id = false := by
  unfold Body.localDeref? at h
  unfold Body.loadsLocal Body.storesLocal
  cases hop : b.op? id with
  | none => simp
  | some op => cases op <;> simp_all

end

theorem Action.Arithmetic.mapUses {a : Action} (h : a.Arithmetic) (f : Value → Value) :
    (a.mapUses f).Arithmetic := by
  cases h with
  | const v values => exact .const v values
  | alu hop srcs v mask => exact .alu hop _ v mask

theorem Narrowed.arithmetic {x : Site} {code : List Action} {i : Value} (h : Narrowed x code i) :
    ∀ a ∈ code, a.Arithmetic := by
  cases h with
  | plain _ => simp
  | cut _ => simpa using .alu (by simp) _ _ _
  | moved _ => simpa using .alu (by simp) _ _ _
  | movedCut _ _ _ =>
    simp only [List.mem_cons, List.not_mem_nil, or_false, forall_eq_or_imp, forall_eq]
    exact ⟨.alu (by simp) _ _ _, .alu (by simp) _ _ _⟩

theorem Adds.arithmetic {sum total : Value} {x : Site} {stride : Int} {code : List Action}
    (h : Adds sum x stride code total) : ∀ a ∈ code, a.Arithmetic := by
  obtain ⟨hi, -, -, -⟩ := h
  intro a ha
  rcases List.mem_append.mp ha with ha | ha
  · exact hi.arithmetic a ha
  · simp only [List.mem_cons, List.not_mem_nil, or_false] at ha
    rcases ha with rfl | rfl | rfl
    · exact .const _ _
    · exact .alu (by simp) _ _ _
    · exact .alu (by simp) _ _ _

theorem AddressCode.arithmetic {known : Site → Option UInt64} {hops : List Hop} {stride : Int}
    {slot slot' : Slot} {code : List Action} (h : AddressCode known hops stride slot code slot') :
    ∀ a ∈ code, a.Arithmetic := by
  induction h with
  | root => simp
  | skip _ _ ih => exact ih
  | fold _ _ _ _ ih => exact ih
  | start _ _ _ hadd _ ih =>
    intro a ha
    rcases List.mem_cons.mp ha with rfl | ha
    · exact .const _ _
    · rcases List.mem_append.mp ha with ha | ha
      · exact hadd.arithmetic a ha
      · exact ih a ha
  | more _ _ _ hadd _ ih =>
    intro a ha
    rcases List.mem_append.mp ha with ha | ha
    · exact hadd.arithmetic a ha
    · exact ih a ha

theorem Locates.arithmetic {known : Site → Option UInt64} {hops : List Hop} {reg : Register}
    {code : List Action} {slot : Slot} (h : Locates known hops reg code slot) :
    ∀ a ∈ code, a.Arithmetic := by
  unfold Locates at h
  split at h
  · simp [h.1]
  · exact h.arithmetic

section

variable {b : Body} {s s' : Lowered} {k : BlockId} {id : InstrId} {h : Handle} {a last : Action}
  {reg : Register} {code : List Action} {slot : Slot} {f : Value → Value}

theorem Site.map_map (f g : Value → Value) (x : Site) : (x.map g).map f = x.map (f ∘ g) :=
  Site.rename_rename f f g g x

theorem Finish.cases_access {o : Action} {next : Value → Value}
    (hf : Finish slot (o.mapUses next) last) :
    (∃ hops dest n, o = .load hops dest n) ∨ ∃ hops v mask, o = .store hops v mask := by
  cases o with
  | load hops dest n => exact .inl ⟨hops, dest, n, rfl⟩
  | store hops v mask => exact .inr ⟨hops, v, mask, rfl⟩
  | _ =>
    simp only [Action.mapUses, Action.rename] at hf
    cases hf

/-- The move that ends a step, once the reads of the access' own value are redirected. -/
theorem Finish.mapUses {o : Action} {next : Value → Value} (hf : Finish slot (o.mapUses next) last)
    (hres : ∀ v, o.result? = some v → next v = v ∧ last.result? = some (f v)) :
    (∃ hops dest n, o = .load hops dest n ∧ last.mapUses f =
      .alu .mov [.slot (slot.map f)] (dest.rename (f ∘ next) (f ∘ next)) (fullMask n)) ∨
    ∃ hops v mask, o = .store hops v mask ∧ last.mapUses f =
      .alu .mov [v.map (f ∘ next)] (.slot (slot.map f)) mask := by
  rcases hf.cases_access with ⟨hops, dest, n, rfl⟩ | ⟨hops, v, mask, rfl⟩
  · left
    refine ⟨hops, dest, n, rfl, ?_⟩
    simp only [Action.mapUses, Action.rename] at hf
    cases dest with
    | value old =>
      obtain ⟨hname, hnew⟩ := hres old rfl
      simp only [Site.rename] at hf
      cases hf with
      | load _ =>
        obtain rfl := Option.some.inj hnew
        simp [Action.mapUses, Action.rename, Site.rename, Site.map, hname]
      | loadSlot hd => simp [Site.value?] at hd
    | missing =>
      simp only [Site.rename] at hf
      cases hf
      rfl
    | slot sl =>
      simp only [Site.rename] at hf
      cases hf
      simp [Action.mapUses, Action.rename, Site.rename, Site.map, Slot.map_map]
  · right
    refine ⟨hops, v, mask, rfl, ?_⟩
    simp only [Action.mapUses, Action.rename] at hf
    cases hf
    rw [← Site.map_map]
    rfl

/-- A step redirects the reads of the value that its access defined, to the value of the move. -/
theorem Lowers.redirects (hs : Lowers s s' k id h a reg code slot last f) {v : Value} :
    (a.result? ≠ some v → f v = v) ∧ (a.result? = some v → last.result? = some (f v)) := by
  cases hs.replaced.successor with
  | none hn =>
    rw [hn]
    simp
  | @value old new x hold hx hr _ =>
    obtain rfl : last = x := by simpa using hx
    rw [hold, hr]
    constructor
    · intro hne
      apply Value.replace_of_ne
      rintro rfl
      exact hne rfl
    · intro heq
      obtain rfl := Option.some.inj heq
      rw [Value.replace_old]

theorem Lowers.last_fresh (hs : Lowers s s' k id h a reg code slot last f) {v : Value}
    (hv : last.result? = some v) : s.body.definers.size ≤ v.serial :=
  (hs.replaced.fresh (List.mem_append_right _ (List.mem_singleton.mpr rfl)) hv).1

end

namespace Rewriting

variable {b c : Body} {met : List InstrId} {ids : InstrId → List InstrId} {next : Value → Value}

theorem start (h : SameCode b c) : Rewriting b [] c (fun x => [x]) id where
  confined := h.confined
  shapes := by rw [h.links]
  held k _ := by rw [List.flatMap_singleton', h.held]
  kept id _ _ := by
    refine ⟨rfl, ?_⟩
    rw [h.action?]
    cases b.action? id with
    | none => rfl
    | some a => rw [Option.map_some, Action.mapUses, Action.rename_id]
  replaced id _ hm := by simp at hm
  renamed _ := .inl rfl

theorem sameCode {c' : Body} (hw : Rewriting b met c ids next) (h : SameCode c c') :
    Rewriting b met c' ids next where
  confined := hw.confined.trans h.confined
  shapes := by rw [h.links, hw.shapes]
  held k hk := by rw [h.held, hw.held k hk]
  kept id hid hplain := by
    rw [h.action?]
    exact hw.kept id hid hplain
  replaced id hid hm hlocal := by
    obtain ⟨run, last, hids, hr⟩ := hw.replaced id hid hm hlocal
    exact ⟨run, last, hids, hr.new, by rw [h.action?]; exact hr.arithmetic,
      by rw [h.action?]; exact hr.move, hr.fresh⟩
  renamed := hw.renamed

variable {id : InstrId}

theorem plain (hw : Rewriting b met c ids next) (hid : id ∈ b.placedInstrs) (hmet : id ∉ met)
    (hnone : ∀ a ∈ c.action? id, ∀ hops ∈ a.chains, localChain hops = false) :
    b.localDeref? id = none := by
  apply localDeref?_eq_none
  intro a ha hops hh
  have hkept := (hw.kept id hid fun h => absurd h hmet).2
  rw [ha, Option.map_some] at hkept
  rw [← localChain_map next]
  apply hnone _ hkept
  rw [Action.mapUses, Action.chains_rename]
  exact List.mem_map_of_mem hh

theorem skip (hw : Rewriting b met c ids next) (hid : id ∈ b.placedInstrs) (hmet : id ∉ met)
    (hnone : ∀ a ∈ c.action? id, ∀ hops ∈ a.chains, localChain hops = false) :
    Rewriting b (met ++ [id]) c ids next := by
  have hplain := hw.plain hid hmet hnone
  refine { hw with kept := ?_, replaced := ?_, renamed := ?_ }
  · intro x hx hlocal
    exact hw.kept x hx fun hm => hlocal (List.mem_append_left _ hm)
  · intro x hx hm hlocal
    rcases List.mem_append.mp hm with hm | hm
    · exact hw.replaced x hx hm hlocal
    · rw [List.mem_singleton.mp hm] at hlocal
      exact absurd hplain hlocal
  · intro v
    rcases hw.renamed v with hv | ⟨hv, x, hx, hm, hload⟩
    · exact .inl hv
    · exact .inr ⟨hv, x, hx, List.mem_append_left _ hm, hload⟩

theorem mem_placedInstrs (hw : Rewriting b met c ids next) {x y : InstrId}
    (hx : x ∈ b.placedInstrs) (hy : y ∈ ids x) : y ∈ c.placedInstrs := by
  obtain ⟨j, hj, hx⟩ := Body.mem_placedInstrs.mp hx
  apply Body.mem_placedInstrs.mpr
  refine ⟨j, hw.confined.layout ▸ hj, ?_⟩
  rw [hw.held j hj]
  exact List.mem_flatMap.mpr ⟨x, hx, hy⟩

theorem not_mem_ids (hw : Rewriting b met c ids next) (hb : b.Laid) (hid : id ∈ b.placedInstrs)
    {x : InstrId} (hx : x ∈ b.placedInstrs) (hne : x ≠ id) : id ∉ ids x := by
  intro hmem
  by_cases hplain : x ∈ met → b.localDeref? x = none
  · rw [(hw.kept x hx hplain).1, List.mem_singleton] at hmem
    exact hne hmem.symm
  · obtain ⟨hm, hlocal⟩ := Classical.not_imp.mp hplain
    obtain ⟨run, last, hids, hr⟩ := hw.replaced x hx hm hlocal
    rw [hids] at hmem
    exact absurd (hb.lt_size hid) (Nat.not_lt.mpr (hr.new id hmem))

section

variable {s s' : Lowered} {k : BlockId} {h : Handle} {a last : Action} {reg : Register}
  {code : List Action} {slot : Slot} {f : Value → Value}
  (hw : Rewriting b met s.body ids next) (hb : b.Laid) (ho : b.DefinesOnce)
  (hid : id ∈ b.placedInstrs) (hmet : id ∉ met)
  (hs : Lowers s s' k id h a reg code slot last f)

include hw hid hmet hs

/-- The access that a step meets is the one of `b`, under the names that the values have. -/
theorem exists_access : ids id = [id] ∧ ∃ o, b.action? id = some o ∧ a = o.mapUses next := by
  obtain ⟨hids, hact⟩ := hw.kept id hid fun hm => absurd hm hmet
  rw [hs.replaced.target] at hact
  obtain ⟨o, ho, hao⟩ := Option.map_eq_some_iff.mp hact.symm
  exact ⟨hids, o, ho, hao.symm⟩

theorem exists_localDeref : ∃ h₀, b.localDeref? id = some h₀ ∧
    s.body.hops h = (b.hops h₀).map (Hop.map next) ∧
    b.loadsLocal id = decide (a.tally.loads = 1) ∧
    b.storesLocal id = decide (a.tally.stores = 1) ∧
    ∀ v, b.resultOf? id = some v → b.loadsLocal id = true := by
  obtain ⟨-, o, ho, rfl⟩ := hw.exists_access hid hmet hs
  have hlocal : localChain (s.body.hops h) = true := by
    rw [localChain_hops]
    exact hs.reaches
  have hchains := hs.chains
  rcases hs.finish.cases_access with ⟨hops, dest, n, rfl⟩ | ⟨hops, v, mask, rfl⟩
  · have hhops : hops.map (Hop.map next) = s.body.hops h := List.singleton_inj.mp hchains
    rw [← hhops, localChain_map] at hlocal
    obtain ⟨hload, hstore, h₀, hd, hh⟩ := loadsLocal_iff ho hlocal
    exact ⟨h₀, hd, by rw [hh, hhops], hload, hstore, fun _ _ => hload⟩
  · have hhops : hops.map (Hop.map next) = s.body.hops h := List.singleton_inj.mp hchains
    rw [← hhops, localChain_map] at hlocal
    obtain ⟨hload, hstore, h₀, hd, hh⟩ := storesLocal_iff ho hlocal
    refine ⟨h₀, hd, by rw [hh, hhops], hload, hstore, fun u hu => ?_⟩
    rw [Body.resultOf?, ho] at hu
    cases hu

omit hs in
include ho in
theorem next_result {v : Value} (hv : b.resultOf? id = some v) : next v = v := by
  rcases hw.renamed v with hfix | ⟨-, x, hx, hm, -, hres⟩
  · exact hfix
  · rw [ho x hx id hid v hres hv] at hm
    exact absurd hm hmet

include hb

theorem result_made {v : Value} (hv : a.result? = some v) :
    v.serial < b.definers.size ∧ b.resultOf? id = some v := by
  obtain ⟨-, o, ho, rfl⟩ := hw.exists_access hid hmet hs
  have hres : o.result? = some v := by
    simpa [Action.mapUses, Action.result?_rename] using hv
  exact ⟨(hb.made id hid o ho).values v (by simp [Action.values, hres]),
    by rw [Body.resultOf?, ho]; exact hres⟩

theorem f_of_fresh {v : Value} (hv : b.definers.size ≤ v.serial) : f v = v := by
  apply hs.redirects.1
  intro hres
  exact absurd (hw.result_made hb hid hmet hs hres).1 (Nat.not_lt.mpr hv)

theorem renamed_step (v : Value) :
    (f ∘ next) v = v ∨ b.definers.size ≤ ((f ∘ next) v).serial ∧
      ∃ x ∈ b.placedInstrs, x ∈ met ++ [id] ∧ b.loadsLocal x = true ∧ b.resultOf? x = some v := by
  rw [Function.comp_apply]
  rcases hw.renamed v with hv | ⟨hge, x, hx, hm, hload⟩
  · rw [hv]
    by_cases hres : a.result? = some v
    · have hresult := (hw.result_made hb hid hmet hs hres).2
      obtain ⟨-, -, -, -, -, hload⟩ := hw.exists_localDeref hid hmet hs
      refine .inr ⟨?_, id, hid, by simp, hload v hresult, hresult⟩
      exact hw.confined.definers_le.trans (hs.last_fresh (hs.redirects.2 hres))
    · exact .inl (hs.redirects.1 hres)
  · rw [hw.f_of_fresh hb hid hmet hs hge]
    exact .inr ⟨hge, x, hx, List.mem_append_left _ hm, hload⟩

include ho

theorem f_next {x : InstrId} (hx : x ∈ b.placedInstrs) (hne : x ≠ id) {v : Value}
    (hv : b.resultOf? x = some v) : f (next v) = next v := by
  rcases hw.renamed v with hfix | ⟨hge, -⟩
  · rw [hfix]
    apply hs.redirects.1
    intro hres
    exact hne (ho x hx id hid v hv (hw.result_made hb hid hmet hs hres).2)
  · exact hw.f_of_fresh hb hid hmet hs hge

omit hb in
/-- Address arithmetic and a move stand for the access after the step. -/
theorem rewritten_step : ∃ run l,
    List.range' s.body.instrs.size (code ++ [last]).length = run ++ [l] ∧
      Rewritten b s'.body (f ∘ next) id run l := by
  obtain ⟨-, o, hoa, rfl⟩ := hw.exists_access hid hmet hs
  have hrange : List.range' s.body.instrs.size (code ++ [last]).length =
      List.range' s.body.instrs.size code.length ++ [s.body.instrs.size + code.length] := by
    rw [List.length_append, List.length_singleton, List.range'_1_concat]
  have hlast : s'.body.action? (s.body.instrs.size + code.length) = some (last.mapUses f) :=
    hs.replaced.added code.length last (by simp)
  refine ⟨_, _, hrange, ?_, ?_, ?_, ?_⟩
  · intro x hx
    rw [← hrange, List.mem_range'_1] at hx
    exact hw.confined.instrs_le.trans hx.1
  · intro x hx
    obtain ⟨i, y, hy, rfl⟩ := exists_of_mem_range' hx
    have hmem : y ∈ code := List.mem_of_getElem? hy
    refine ⟨y.mapUses f, ?_, (hs.locates.arithmetic y hmem).mapUses f⟩
    apply hs.replaced.added i y
    rw [List.getElem?_append_left (List.getElem?_eq_some_iff.mp hy).1]
    exact hy
  · rw [hlast, hoa]
    have hmove := hs.finish.mapUses (f := f) fun v hv =>
      ⟨hw.next_result ho hid hmet (by rw [Body.resultOf?, hoa]; exact hv), hs.redirects.2 (by
        simpa [Action.mapUses, Action.result?_rename] using hv)⟩
    rcases hmove with ⟨hops, dest, n, rfl, hmove⟩ | ⟨hops, v, mask, rfl, hmove⟩
    · exact .inl ⟨hops, dest, n, slot.map f, rfl, congrArg some hmove⟩
    · exact .inr ⟨hops, v, mask, slot.map f, rfl, congrArg some hmove⟩
  · intro v hv
    have hres : (o.mapUses next).result? = some v := by
      rw [Body.resultOf?, hoa] at hv
      simpa [Action.mapUses, Action.result?_rename] using hv
    rw [Function.comp_apply, hw.next_result ho hid hmet hv]
    exact hw.confined.definers_le.trans (hs.last_fresh (hs.redirects.2 hres))

/-- What stands for an access that was met before is only redirected. -/
theorem rewritten_kept {x : InstrId} (hx : x ∈ b.placedInstrs) (hne : x ≠ id)
    {run : List InstrId} {l : InstrId} (hids : ids x = run ++ [l])
    (hr : Rewritten b s.body next x run l) : Rewritten b s'.body (f ∘ next) x run l := by
  have hact : ∀ y ∈ run ++ [l], s'.body.action? y = (s.body.action? y).map (Action.mapUses f) := by
    intro y hy
    apply hs.replaced.kept y (hw.mem_placedInstrs hx (hids ▸ hy))
    rintro rfl
    exact absurd (hb.lt_size hid) (Nat.not_lt.mpr (hr.new y hy))
  refine ⟨hr.new, ?_, ?_, ?_⟩
  · intro y hy
    obtain ⟨z, hz, harith⟩ := hr.arithmetic y hy
    exact ⟨z.mapUses f, by rw [hact y (List.mem_append_left _ hy), hz]; rfl, harith.mapUses f⟩
  · rw [hact l (by simp)]
    rcases hr.move with ⟨hops, dest, n, sl, hload, hmove⟩ | ⟨hops, v, mask, sl, hstore, hmove⟩
    · refine .inl ⟨hops, dest, n, sl.map f, hload, ?_⟩
      rw [hmove, Option.map_some]
      cases dest with
      | value old =>
        have hname := hw.f_next hb ho hid hmet hs hx hne (v := old)
          (by rw [Body.resultOf?, hload]; rfl)
        simp [Action.mapUses, Action.rename, Site.rename, Site.map, hname]
      | missing => rfl
      | slot sl' => simp [Action.mapUses, Action.rename, Site.rename, Site.map, Slot.map_map]
    · refine .inr ⟨hops, v, mask, sl.map f, hstore, ?_⟩
      rw [hmove, Option.map_some, ← Site.map_map]
      rfl
  · intro v hv
    rw [Function.comp_apply, hw.f_next hb ho hid hmet hs hx hne hv]
    exact hr.fresh v hv

/-- A step replaces the access it meets and leaves the rest, redirected. -/
theorem lower : Rewriting b (met ++ [id]) s'.body
    (Function.update ids id (List.range' s.body.instrs.size (code ++ [last]).length))
    (f ∘ next) := by
  obtain ⟨hids, -⟩ := hw.exists_access hid hmet hs
  obtain ⟨h₀, hd, -⟩ := hw.exists_localDeref hid hmet hs
  constructor
  · exact hw.confined.trans hs.replaced.confined
  · rw [← hw.shapes]
    rcases hs.links with hlinks | ⟨old, new, hlinks⟩
    · rw [hlinks]
    · rw [hlinks, Array.map_map]
      congr 1
      funext l
      exact Link.shape_replace old new l
  · intro j hj
    rw [hs.replaced.held j (hw.confined.layout ▸ hj), hw.held j hj]
    apply expandAt_update hids
    intro x hx hne
    exact hw.not_mem_ids hb hid (Body.mem_placedInstrs.mpr ⟨j, hj, hx⟩) hne
  · intro x hx hplain
    have hne : x ≠ id := by
      rintro rfl
      rw [hplain (by simp)] at hd
      cases hd
    obtain ⟨hself, hact⟩ := hw.kept x hx fun hm => hplain (List.mem_append_left _ hm)
    rw [Function.update_of_ne hne]
    refine ⟨hself, ?_⟩
    have hplaced : x ∈ s.body.placedInstrs := hw.mem_placedInstrs hx (by simp [hself])
    rw [hs.replaced.kept x hplaced hne, hact, Option.map_map]
    congr 1
    funext z
    exact Action.rename_rename f _ z next _
  · intro x hx hm hlocal
    by_cases hne : x = id
    · rw [hne, Function.update_self]
      exact hw.rewritten_step ho hid hmet hs
    · rw [Function.update_of_ne hne]
      have hm' : x ∈ met := by simpa [hne] using hm
      obtain ⟨run, l, hrun, hr⟩ := hw.replaced x hx hm' hlocal
      exact ⟨run, l, hrun, hw.rewritten_kept hb ho hid hmet hs hx hne hrun hr⟩
  · exact hw.renamed_step hb hid hmet hs

end

end Rewriting

structure Counted (b : Body) (met : List InstrId) (s : Lowered) : Prop where
  loads : s.stats.loads = met.countP b.loadsLocal
  stores : s.stats.stores = met.countP b.storesLocal
  registers : s.table.size + b.registerCount = s.body.registerCount

def Body.accessedIdentities (b : Body) : List (Option (Variable × List Nat)) :=
  (b.placedInstrs.filterMap b.localDeref?).map fun h => identity? (chain b.links h)

structure Surveyed (b : Body) (met : List InstrId) (s : Lowered) : Prop
    extends Filed b s.body s.table where
  found : ∀ i, (∃ e ∈ s.table.entries, identity? (chain b.links e.deref) = i) ↔
    ∃ h ∈ met.filterMap b.localDeref?, identity? (chain b.links h) = i

section

variable {b : Body} {met : List InstrId} {ids : InstrId → List InstrId} {next : Value → Value}
  {s s' : Lowered} {k : BlockId} {id : InstrId} {h : Handle} {a last : Action} {reg : Register}
  {code : List Action} {slot : Slot} {f : Value → Value}

theorem Counted.skip (hc : Counted b met s) (hplain : b.localDeref? id = none) :
    Counted b (met ++ [id]) s := by
  obtain ⟨hload, hstore⟩ := not_loadsLocal hplain
  exact ⟨by simp [hc.loads, hload], by simp [hc.stores, hstore], hc.registers⟩

theorem Finish.tally (hf : Finish slot a last) :
    a.tally = ⟨1, 0, 0⟩ ∨ a.tally = ⟨0, 1, 0⟩ := by
  cases hf with
  | load _ => exact .inl rfl
  | loadSlot _ => exact .inl rfl
  | store => exact .inr rfl

theorem Counted.lower (hc : Counted b met s) (ht : s.table.Made s.body)
    (hs : Lowers s s' k id h a reg code slot last f)
    (hload : b.loadsLocal id = decide (a.tally.loads = 1))
    (hstore : b.storesLocal id = decide (a.tally.stores = 1)) : Counted b (met ++ [id]) s' := by
  have hsize := hs.table_size ht
  have hregs := hc.registers
  constructor
  · rw [hs.stats, LowerStats.add, hc.loads, List.countP_append]
    rcases hs.finish.tally with htally | htally <;> simp [hload, htally]
  · rw [hs.stats, LowerStats.add, hc.stores, List.countP_append]
    rcases hs.finish.tally with htally | htally <;> simp [hstore, htally]
  · omega

theorem Surveyed.skip (hv : Surveyed b met s) (hplain : b.localDeref? id = none) :
    Surveyed b (met ++ [id]) s := by
  refine { hv with found := fun i => ?_ }
  rw [hv.found i, List.filterMap_append]
  simp [hplain]

theorem Surveyed.lower (hv : Surveyed b met s) (hs : Lowers s s' k id h a reg code slot last f)
    {h₀ : Handle} (hd : b.localDeref? id = some h₀)
    (hhops : s.body.hops h = (b.hops h₀).map (Hop.map next)) : Surveyed b (met ++ [id]) s' := by
  -- the chain of the access takes the same turns before and after the indices were redirected
  have hturns : turns (chain b.links h) = turns (chain b.links h₀) := by
    have hhop := congrArg hopTurns hhops
    rw [hopTurns_map, Body.hops, Body.hops, hopTurns_hop, hopTurns_hop] at hhop
    rw [← hhop, turns_congr (hv.outline h)]
  obtain ⟨c, hlook, -⟩ := hs.lookup
  obtain ⟨⟨e, he, -, het⟩, hcase⟩ :=
    RegisterTable.lookupOrCreate_ok hv.built rfl hv.sound hlook
  rw [turns_congr (hv.outline e.deref), turns_congr (hv.outline h), hturns] at het
  refine { toFiled := hs.filed hv.toFiled, found := fun i => ?_ }
  rw [List.filterMap_append, List.filterMap_cons_some hd, List.filterMap_nil]
  constructor
  · rintro ⟨e', he', rfl⟩
    rcases hcase with ⟨ht, -⟩ | ⟨hash, -, hentries, -⟩
    · rw [ht] at he'
      obtain ⟨h', hh', hi⟩ := (hv.found _).mp ⟨e', he', rfl⟩
      exact ⟨h', List.mem_append_left _ hh', hi⟩
    · rw [hentries] at he'
      rcases List.mem_append.mp he' with he' | he'
      · obtain ⟨h', hh', hi⟩ := (hv.found _).mp ⟨e', he', rfl⟩
        exact ⟨h', List.mem_append_left _ hh', hi⟩
      · rw [List.mem_singleton.mp he']
        exact ⟨h₀, by simp, identity?_congr hturns.symm⟩
  · rintro ⟨h', hh', rfl⟩
    rcases List.mem_append.mp hh' with hh' | hh'
    · obtain ⟨e', he', hi⟩ := (hv.found _).mpr ⟨h', hh', rfl⟩
      refine ⟨e', ?_, hi⟩
      rcases hcase with ⟨ht, -⟩ | ⟨hash, -, hentries, -⟩
      · rwa [ht]
      · rw [hentries]
        exact List.mem_append_left _ he'
    · rw [List.mem_singleton.mp hh']
      exact ⟨e, he, identity?_congr het⟩

/-- The table has as many entries as the accesses have identities. -/
theorem Surveyed.size (hv : Surveyed b b.placedInstrs s) :
    s.table.size = b.accessedIdentities.dedup.length := by
  have hid : ∀ e : TableEntry, identity? (chain s.body.links e.deref) =
      identity? (chain b.links e.deref) := fun e => identity?_congr (turns_congr (hv.outline e.deref))
  have hnodup := hv.sound.identities
  simp only [hid] at hnodup
  have hperm : (s.table.entries.map fun e => identity? (chain b.links e.deref)).Perm
      b.accessedIdentities.dedup := by
    rw [List.perm_ext_iff_of_nodup hnodup (List.nodup_dedup _)]
    intro i
    rw [List.mem_dedup, Body.accessedIdentities, List.mem_map, List.mem_map]
    exact hv.found i
  simpa [RegisterTable.size] using hperm.length_eq

end

structure Progress (b : Body) (met : List InstrId) (s : Lowered) : Prop where
  rewriting : ∃ ids next, Rewriting b met s.body ids next
  counted : Counted b met s
  surveyed : Built b.links → Surveyed b met s

theorem Progress.start {b c : Body} (h : SameCode b c) :
    Progress b [] ⟨c, .empty, .zero, none⟩ where
  rewriting := ⟨_, _, .start h⟩
  counted := ⟨rfl, rfl, by simp [RegisterTable.size, RegisterTable.empty, h.registerCount]⟩
  surveyed hb := { toFiled := .start hb h, found := by simp [RegisterTable.empty] }

theorem lowerBlocks_progress {b : Body} (hl : b.Laid) (ho : b.DefinesOnce)
    (hok : b.lowerLocals.error = none) :
    Progress b b.placedInstrs b.dominated.lowerBlocks := by
  have hc : SameCode b b.dominated := .require b _
  have hkeeps := lowerBlocks_keeps (Progress b) (hc.laid hl) (.start hc) ?_ ?_
    (lowerLocals_error b ▸ hok)
  · rw [← hc.placedInstrs]
    exact hkeeps.2
  · intro met id s _ hp hid hmet hnone
    rw [hc.placedInstrs] at hid
    obtain ⟨ids, next, hw⟩ := hp.rewriting
    have hplain := hw.plain hid hmet hnone
    exact ⟨⟨ids, next, hw.skip hid hmet hnone⟩, hp.counted.skip hplain,
      fun hb => (hp.surveyed hb).skip hplain⟩
  · intro met s s' k id h a reg code slot last f _ ht hp hid hmet hs
    rw [hc.placedInstrs] at hid
    obtain ⟨ids, next, hw⟩ := hp.rewriting
    obtain ⟨h₀, hd, hhops, hload, hstore, -⟩ := hw.exists_localDeref hid hmet hs
    exact ⟨⟨_, _, hw.lower hl ho hid hmet hs⟩, hp.counted.lower ht hs hload hstore,
      fun hb => (hp.surveyed hb).lower hs hd hhops⟩

/-- Lowering keeps the blocks, the variables and the outlines of the links, and appends registers.
Each local access gives way, at its own position, to new address arithmetic and a move, and every
other instruction stays with its reads redirected from the values of local loads to those of the
moves. The statistics count the local loads and stores there were and the registers appended, of
which there is one for each identity that is accessed. -/
theorem lowerLocals_effect (b : Body) (hl : b.Laid) (ho : b.DefinesOnce)
    (hok : b.lowerLocals.error = none) :
    let r := b.lowerLocals
    r.body.layout = b.layout ∧ r.body.locals = b.locals ∧
    (∀ k, r.body.label? k = b.label? k) ∧
    r.body.links.map Link.shape = b.links.map Link.shape ∧
    b.registers.toList <+: r.body.registers.toList ∧
    (∃ (ids : InstrId → List InstrId) (next : Value → Value),
      (∀ k ∈ b.layout, r.body.held k = (b.held k).flatMap ids) ∧
      (∀ id ∈ b.placedInstrs, b.localDeref? id = none → ids id = [id] ∧
        r.body.action? id = (b.action? id).map (Action.mapUses next)) ∧
      (∀ id ∈ b.placedInstrs, b.localDeref? id ≠ none →
        ∃ run last, ids id = run ++ [last] ∧ Rewritten b r.body next id run last) ∧
      ∀ v, next v ≠ v →
        ∃ id ∈ b.placedInstrs, b.loadsLocal id = true ∧ b.resultOf? id = some v) ∧
    r.stats.loads = b.placedInstrs.countP b.loadsLocal ∧
    r.stats.stores = b.placedInstrs.countP b.storesLocal ∧
    r.body.registers.size = b.registers.size + r.stats.registers ∧
    (Built b.links → r.stats.registers = b.accessedIdentities.dedup.length) := by
  intro r
  have hp := lowerBlocks_progress hl ho hok
  obtain ⟨ids, next, hw⟩ := hp.rewriting
  have hr : r = _ := lowerLocals_eq hok
  rw [hr]
  have hw' := hw.sameCode (.preserve _ Body.controlFlowAnalyses)
  refine ⟨hw'.confined.layout, hw'.confined.locals, hw'.confined.label, hw'.shapes,
    hw'.confined.registers, ⟨ids, next, hw'.held, ?_, ?_, ?_⟩, hp.counted.loads,
    hp.counted.stores, ?_, fun hb => (hp.surveyed hb).size⟩
  · intro id hid hplain
    exact hw'.kept id hid fun _ => hplain
  · intro id hid hlocal
    exact hw'.replaced id hid hid hlocal
  · intro v hv
    rcases hw.renamed v with hfix | ⟨-, id, hid, -, hload⟩
    · exact absurd hfix hv
    · exact ⟨id, hid, hload⟩
  · have hsize := hw.confined.registers_size
    have hcount := hp.counted.registers
    show b.dominated.lowerBlocks.body.registers.size =
      b.registers.size + b.dominated.lowerBlocks.table.size
    omega

def gathered : Body :=
  let i : Variable := ⟨0, 0, "i", .scalar .uint, .local, none⟩
  let a : Variable := ⟨1, 1, "a", .array (.scalar .uint) 4, .local, none⟩
  let o : Variable := ⟨2, 2, "o", .scalar .uint, .shaderOut, none⟩
  let index : Value := ⟨0, 0, 1, 32⟩
  let read : Value := ⟨1, 1, 1, 32⟩
  let element : Link := ⟨.array (.value index), some 1, .scalar .uint, .local⟩
  { links := #[varLink i, varLink a, element, element, varLink o]
    instrs := #[⟨.load (some 0) (.value index) 1, some 0⟩, ⟨.load (some 2) (.value read) 1, some 0⟩,
      ⟨.store (some 4) (.value read) 1, some 0⟩, ⟨.store (some 3) (.value index) 1, some 1⟩,
      ⟨.intrinsic "emit" [.value index] none, some 1⟩]
    definers := #[some 0, some 1]
    blocks := #[⟨0, "entry", [0, 1, 2], [1], none, [], [], []⟩,
      ⟨1, "rest", [3, 4], [], none, [], [], []⟩]
    layout := #[0, 1]
    valueCount := 2 }

theorem gathered_built : Built gathered.links := by
  have hi := Built.var .empty ⟨0, 0, "i", .scalar .uint, .local, none⟩
  have ha := hi.var ⟨1, 1, "a", .array (.scalar .uint) 4, .local, none⟩
  have h₂ := ha.array (rfl : arrayLink _ (some 1) (.value ⟨0, 0, 1, 32⟩) = .ok _)
  have h₃ := h₂.array (rfl : arrayLink _ (some 1) (.value ⟨0, 0, 1, 32⟩) = .ok _)
  exact h₃.var ⟨2, 2, "o", .scalar .uint, .shaderOut, none⟩

/-- The two chains to the element share a register. -/
theorem gathered_effect :
    gathered.Laid ∧ gathered.DefinesOnce ∧ gathered.lowerLocals.error = none ∧
      Built gathered.links ∧ gathered.lowerLocals.stats.loads = 2 ∧
      gathered.lowerLocals.stats.stores = 1 ∧ gathered.lowerLocals.stats.registers = 2 ∧
      gathered.lowerLocals.body.registers.size = 2 ∧
      gathered.lowerLocals.body.label? 0 = some ("entry", [1]) := by
  have hl : gathered.Laid := by decide +kernel
  have ho : gathered.DefinesOnce := by
    unfold Body.DefinesOnce
    decide +kernel
  have hok : gathered.lowerLocals.error = none := by decide +kernel
  obtain ⟨-, -, hlabel, -, -, -, hloads, hstores, hsize, hregs⟩ :=
    lowerLocals_effect gathered hl ho hok
  have hcount : gathered.lowerLocals.stats.registers = 2 :=
    (hregs gathered_built).trans (by decide +kernel)
  exact ⟨hl, ho, hok, gathered_built, hloads.trans (by decide +kernel),
    hstores.trans (by decide +kernel), hcount, hsize.trans (by rw [hcount]; rfl),
    (hlabel 0).trans rfl⟩

end ShaderIR
