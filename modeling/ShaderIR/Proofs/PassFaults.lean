import ShaderIR.Proofs.Idempotence
import ShaderIR.Proofs.LoweringTrace
import ShaderIR.Proofs.Unlowered

/-!
# Where a pass fails

On a body before lowering, splitting refuses a copy between places of different types and nothing
else. Lowering refuses, once the copies are gone, an access to a local variable with an initializer
and a store to a whole local array or struct. The fault of a pass is that of the first instruction
it refuses, in the order of the blocks.
-/

set_option autoImplicit false

namespace ShaderIR

def Ty.isAggregate : Ty → Bool
  | .array _ _ | .struct _ _ => true
  | _ => false

def initializer? (root : Option Variable) : Option LowerError :=
  root.bind fun v => if v.init.isSome then some (.initializer v.name) else none

def aggregate? (type : Ty) : Option LowerError :=
  if type.isAggregate then some (.badLeaf type) else none

namespace Body

def mismatch? (b : Body) (id : InstrId) : Option SplitError :=
  match b.op? id with
  | some (.copy dst src) =>
    if derefType b.links dst = derefType b.links src then none
    else some (.mismatch (derefType b.links dst) (derefType b.links src))
  | _ => none

def refusal? (b : Body) (id : InstrId) : Option LowerError :=
  match b.op? id with
  | some (.load h _ _) =>
    if isLocal b.links h then initializer? (rootVariable? (chain b.links h)) else none
  | some (.store h _ _) =>
    if isLocal b.links h then
      -- the table looks for an initializer before it looks at the type
      (initializer? (rootVariable? (chain b.links h))).or (aggregate? (derefType b.links h))
    else none
  | _ => none

def firstFault {ε : Type} (b : Body) (cause? : InstrId → Option ε) : Option (Fault ε) :=
  b.layout.toList.findSome? fun k => (b.held k).findSome? fun id =>
    (cause? id).map fun e => ⟨none, b.blockIndex k, e⟩

end Body

section

variable {ε : Type} {b : Body} {cause? : InstrId → Option ε}

theorem firstFault_eq_none_iff :
    b.firstFault cause? = none ↔ ∀ id ∈ b.placedInstrs, cause? id = none := by
  simp only [Body.firstFault, List.findSome?_eq_none_iff, Option.map_eq_none_iff,
    Body.placedInstrs_eq, List.mem_flatMap]
  constructor
  · rintro h id ⟨k, hk, hid⟩
    exact h k hk id hid
  · intro h k hk id hid
    exact h id ⟨k, hk, hid⟩

theorem firstFault_eq_some {js rest : List BlockId} {k : BlockId} {pre post : List InstrId}
    {id : InstrId} {e : ε} (hlayout : b.layout.toList = js ++ k :: rest)
    (hheld : b.held k = pre ++ id :: post)
    (hbefore : ∀ x ∈ js.flatMap b.held ++ pre, cause? x = none) (he : cause? id = some e) :
    b.firstFault cause? = some ⟨none, b.blockIndex k, e⟩ := by
  apply List.findSome?_eq_some_iff.mpr
  refine ⟨js, k, rest, hlayout, ?_, ?_⟩
  · apply List.findSome?_eq_some_iff.mpr
    refine ⟨pre, id, post, hheld, by rw [he, Option.map_some], ?_⟩
    intro x hx
    rw [hbefore x (List.mem_append_right _ hx), Option.map_none]
  · intro j hj
    apply List.findSome?_eq_none_iff.mpr
    intro x hx
    rw [hbefore x (List.mem_append_left _ (List.mem_flatMap.mpr ⟨j, hj, hx⟩)), Option.map_none]

theorem exists_of_firstFault {f : Fault ε} (h : b.firstFault cause? = some f) :
    ∃ id ∈ b.placedInstrs, cause? id = some f.cause := by
  obtain ⟨js, k, rest, hlayout, hk, -⟩ := List.findSome?_eq_some_iff.mp h
  obtain ⟨pre, id, post, hheld, hid, -⟩ := List.findSome?_eq_some_iff.mp hk
  obtain ⟨e, he, rfl⟩ := Option.map_eq_some_iff.mp hid
  refine ⟨id, Body.mem_placedInstrs.mpr ⟨k, ?_, by simp [hheld]⟩, he⟩
  exact Array.mem_toList_iff.mp (by simp [hlayout])

/-- The order of the code and what is refused in it determine the fault. -/
theorem firstFault_congr {c : Body} {cause'? : InstrId → Option ε} (hlayout : c.layout = b.layout)
    (hheld : ∀ k ∈ b.layout, c.held k = b.held k)
    (hindex : ∀ k ∈ b.layout, c.blockIndex k = b.blockIndex k)
    (hcause : ∀ id ∈ b.placedInstrs, cause'? id = cause? id) :
    c.firstFault cause'? = b.firstFault cause? := by
  rw [Body.firstFault, Body.firstFault, hlayout]
  apply findSome?_congr
  intro k hk
  rw [Array.mem_toList_iff] at hk
  rw [hheld k hk, hindex k hk]
  apply findSome?_congr
  intro id hid
  rw [hcause id (Body.mem_placedInstrs.mpr ⟨k, hk, hid⟩)]

end

def hopsRoot? : List Hop → Option Variable
  | [] => none
  | hop :: rest =>
    match hop.kind with
    | .var v => some v
    | .cast => none
    | .array _ | .struct _ => hopsRoot? rest

theorem hopsRoot?_hop (b : Body) (links : List Link) :
    hopsRoot? (links.map b.hop) = rootVariable? links := by
  induction links with
  | nil => rfl
  | cons l rest ih =>
    cases hk : l.kind <;> simp [hopsRoot?, rootVariable?, Body.hop, hk]
    · exact ih
    · exact ih

theorem hopsRoot?_map (f : Value → Value) (hops : List Hop) :
    hopsRoot? (hops.map (Hop.map f)) = hopsRoot? hops := by
  induction hops with
  | nil => rfl
  | cons hop rest ih => cases hk : hop.kind <;> simp [hopsRoot?, Hop.map, hk, ih]

namespace Action

def mismatch? : Action → Option SplitError
  | copy dst src =>
    if hopsType dst = hopsType src then none
    else some (.mismatch (hopsType dst) (hopsType src))
  | _ => none

def refusal? : Action → Option LowerError
  | load hops _ _ => if localChain hops then initializer? (hopsRoot? hops) else none
  | store hops _ _ =>
    if localChain hops then (initializer? (hopsRoot? hops)).or (aggregate? (hopsType hops))
    else none
  | _ => none

theorem mismatch?_mapUses (f : Value → Value) (a : Action) :
    (a.mapUses f).mismatch? = a.mismatch? := by
  cases a <;> simp [mapUses, rename, mismatch?, hopsType_map]

theorem refusal?_mapUses (f : Value → Value) (a : Action) :
    (a.mapUses f).refusal? = a.refusal? := by
  cases a <;> simp [mapUses, rename, refusal?, localChain_map, hopsRoot?_map, hopsType_map]

end Action

theorem mismatch?_eq (b : Body) (id : InstrId) :
    b.mismatch? id = (b.action? id).bind Action.mismatch? := by
  rw [Body.mismatch?, Body.action?]
  cases b.op? id with
  | none => rfl
  | some op => cases op <;> simp [Body.action, Action.mismatch?, hopsType_hops]

theorem refusal?_eq (b : Body) (id : InstrId) :
    b.refusal? id = (b.action? id).bind Action.refusal? := by
  have hroot : ∀ h, hopsRoot? (b.hops h) = rootVariable? (chain b.links h) :=
    fun h => hopsRoot?_hop b _
  rw [Body.refusal?, Body.action?]
  cases b.op? id with
  | none => rfl
  | some op =>
    cases op <;> simp [Body.action, Action.refusal?, localChain_hops, hroot, hopsType_hops]

section

variable {ε : Type} {cause? : Action → Option ε} {b c c' : Body} {met : List InstrId} {k : BlockId}
  {id : InstrId}

structure Faultless (b : Body) (cause? : Action → Option ε) (met : List InstrId) (c : Body) :
    Prop where
  head : ∀ j, c.head? j = b.head? j
  rest : ∀ x ∈ b.placedInstrs, x ∉ met → x ∈ c.placedInstrs ∧
    ∃ f, c.action? x = (b.action? x).map (Action.mapUses f)
  none : ∀ x ∈ met, (b.action? x).bind cause? = none

namespace Faultless

theorem start (b : Body) (cause? : Action → Option ε) : Faultless b cause? [] b := by
  constructor
  · exact fun _ => rfl
  · intro x hx _
    refine ⟨hx, id, ?_⟩
    cases b.action? x <;> simp [Action.mapUses, Action.rename_id]
  · simp

theorem skip (h : Faultless b cause? met c) (hid : (b.action? id).bind cause? = .none) :
    Faultless b cause? (met ++ [id]) c := by
  constructor
  · exact h.head
  · intro x hx hmet
    exact h.rest x hx fun hx => hmet (List.mem_append_left _ hx)
  · intro x hx
    rcases List.mem_append.mp hx with hx | hx
    · exact h.none x hx
    · exact List.mem_singleton.mp hx ▸ hid

theorem replaced (h : Faultless b cause? met c) {a : Action} {acts : List Action}
    {f : Value → Value} (hr : Replaced c c' k id a acts f)
    (hid : (b.action? id).bind cause? = .none) :
    Faultless b cause? (met ++ [id]) c' := by
  have hskip := h.skip hid
  constructor
  · exact fun j => (hr.head j).trans (h.head j)
  · intro x hx hmet
    obtain ⟨hplaced, g, hg⟩ := hskip.rest x hx hmet
    have hne : x ≠ id := fun heq => hmet (by simp [heq])
    constructor
    · rw [hr.placedInstrs, mem_expandAt]
      exact .inr ⟨hplaced, hne⟩
    · refine ⟨f ∘ g, ?_⟩
      rw [hr.kept x hplaced hne, hg]
      cases b.action? x <;> simp [Action.mapUses, Action.rename_rename]
  · exact hskip.none

end Faultless

end

section

/- `J` is what the steps keep. A step refuses an instruction exactly when its action at the start of
the pass has a cause for that. -/
variable {σ ε : Type} (body : σ → Body) (error : σ → Option (Fault ε))
  (instr : BlockId → σ → InstrId → σ) (J : σ → Prop) {cause? : Action → Option ε} (s₀ : σ)
  (hlaid : ∀ s, J s → (body s).Laid) (hstuck : ∀ k s id, error s ≠ none → instr k s id = s)
  (hfault : ∀ k s id a f, J s → error s = none → k ∈ (body s).layout → id ∈ (body s).held k →
    id ∈ (body s₀).placedInstrs → (body s₀).action? id = some a →
    (body s).action? id = some (a.mapUses f) →
    error (instr k s id) = (cause? a).map fun e => ⟨none, (body s).blockIndex k, e⟩)
  (hstep : ∀ k s id, J s → error s = none → k ∈ (body s).layout → id ∈ (body s).held k →
    error (instr k s id) = none → J (instr k s id) ∧ (instr k s id = s ∨
      ∃ a acts f, Replaced (body s) (body (instr k s id)) k id a acts f))

include hlaid hstuck hfault hstep

/-- A pass fails at the first instruction that its steps refuse. -/
theorem foldl_firstFault (hJ : J s₀) (he : error s₀ = none) :
    error ((body s₀).layout.toList.foldl (fun s k => ((body s).held k).foldl (instr k) s) s₀) =
      (body s₀).firstFault fun id => ((body s₀).action? id).bind cause? := by
  have hwalk := foldl_layout body instr
    (fun met s => error s = none ∧ J s ∧ Faultless (body s₀) cause? met (body s))
    (fun met k id s => (∀ x ∈ met, ((body s₀).action? x).bind cause? = none) ∧
      ∃ e, ((body s₀).action? id).bind cause? = some e ∧
        error s = some ⟨none, (body s₀).blockIndex k, e⟩)
    ?_ ?_ (s := s₀) ⟨he, hJ, .start _ _⟩ rfl (hlaid s₀ hJ).once
  · rcases hwalk with ⟨hnone, -, hfree⟩ |
      ⟨js, k, rest, pre, id, post, hlayout, hheld, hbefore, e, hid, herror⟩
    · rw [hnone]
      exact (firstFault_eq_none_iff.mpr hfree.none).symm
    · rw [herror]
      exact (firstFault_eq_some hlayout hheld hbefore hid).symm
  · -- a pass that failed stays as it is
    rintro met k id s j x ⟨hmet, e, hid, herror⟩
    rw [hstuck j s x (by simp [herror])]
    exact ⟨hmet, e, hid, herror⟩
  · rintro met k s id ⟨herror, hJ, hfree⟩ hk hid hall hmet
    obtain ⟨-, f, hsame⟩ := hfree.rest id hall hmet
    obtain ⟨op, hop⟩ := (hlaid s hJ).exists_op hk hid
    have hop' : (body s).action? id = some ((body s).action op) := by
      simp [Body.action?, Body.op?, hop]
    obtain ⟨a, ha, hact⟩ := Option.map_eq_some_iff.mp (hsame.symm.trans hop')
    rw [← hact] at hop'
    have hout := hfault k s id a f hJ herror hk hid hall ha hop'
    cases hcause : cause? a with
    | none =>
      left
      rw [hcause, Option.map_none] at hout
      have hnone : ((body s₀).action? id).bind cause? = none := by rw [ha, Option.bind_some, hcause]
      obtain ⟨hJ', heq | ⟨_, _, _, hr⟩⟩ := hstep k s id hJ herror hk hid hout
      · rw [heq]
        exact ⟨⟨herror, hJ, hfree.skip hnone⟩, .refl k id _⟩
      · exact ⟨⟨hout, hJ', hfree.replaced hr hnone⟩, hr.steps (hlaid s hJ)⟩
    | some e =>
      right
      rw [hcause, Option.map_some, Body.index_of_head (hfree.head k)] at hout
      exact ⟨hfree.none, e, by rw [ha, Option.bind_some, hcause], hout⟩

end

def Succeeds {ε α : Type} (x : ExceptT ε Edit α) (b : Body) : Prop := ∃ a c, x b = (.ok a, c)

section

variable {ε α β : Type} {b : Body}

theorem Succeeds.pure (a : α) : Succeeds (pure a : ExceptT ε Edit α) b := ⟨a, b, rfl⟩

theorem Succeeds.lift (x : Edit α) : Succeeds (liftM x : ExceptT ε Edit α) b :=
  ⟨(x b).1, (x b).2, rfl⟩

theorem Succeeds.bind {x : ExceptT ε Edit α} {f : α → ExceptT ε Edit β} (hx : Succeeds x b)
    (hf : ∀ a c, x b = (.ok a, c) → Succeeds (f a) c) : Succeeds (x >>= f) b := by
  obtain ⟨a, c, hx⟩ := hx
  obtain ⟨r, d, hf⟩ := hf a c hx
  refine ⟨r, d, ?_⟩
  rw [exceptT_bind, hx]
  exact hf

end

section

open CopySplitting

variable {b : Body} {k : BlockId} {id : InstrId} {p : Pending} {t : Transfer}

theorem succeeds_extend {step : ExceptT LinkError Edit Handle} (h : Succeeds step b) :
    Succeeds (extend step) b := by
  obtain ⟨x, c, hrun⟩ := h
  refine ⟨x, c, ?_⟩
  rw [extend, hrun]

theorem succeeds_arrayDeref {h : Handle} (v : Value)
    (hne : (derefType b.links h).elementType ≠ .absent) :
    Succeeds (Body.arrayDeref h (.value v)) b := by
  unfold derefType at hne
  unfold Succeeds
  rw [arrayDeref_run, arrayLink]
  cases hl : h.bind (b.links[·]?) with
  | none => simp [hl, Ty.elementType] at hne
  | some l =>
    simp only [hl] at hne
    simp only [if_neg hne]
    exact ⟨_, _, rfl⟩

theorem succeeds_structDeref {h : Handle} (f : Nat)
    (hne : (derefType b.links h).fieldType f ≠ .absent) :
    Succeeds (Body.structDeref h f) b := by
  unfold derefType at hne
  unfold Succeeds
  rw [structDeref_run, structLink]
  cases hl : h.bind (b.links[·]?) with
  | none => simp [hl, Ty.fieldType] at hne
  | some l =>
    simp only [hl] at hne
    simp only [if_neg hne]
    exact ⟨_, _, rfl⟩

theorem Ty.ne_absent_of_complete {type : Ty} (h : type.complete = true) : type ≠ .absent := by
  rintro rfl
  cases h

theorem Stands.dst_type (hs : Stands b p t) : derefType b.links p.dst = t.type := by
  rw [← hopsType_hops, hs.dst]
  rfl

theorem Stands.src_type (hs : Stands b p t) (he : t.Even) : derefType b.links p.src = t.type := by
  rw [← hopsType_hops, hs.src, he.same]

theorem succeeds_element {elem : Ty} {n : Int} (hm : id < b.instrs.size) (hr : b.Rooted)
    (hs : Stands b p t) (he : t.Even) (ht : t.type = .array elem n) (i : Nat) :
    Succeeds (element ⟨some k, some id⟩ p i) b := by
  have hne : t.type.elementType ≠ .absent :=
    Ty.ne_absent_of_complete (he.element ht (b.fresh 1 32)).complete
  apply Succeeds.bind (.lift _)
  intro v c hv
  obtain ⟨c', himm, hemits, htables⟩ := emits_imm (k := k) hm i 32
  obtain ⟨rfl, rfl⟩ := Prod.mk.inj ((lift_ok hv).symm.trans himm)
  have hc : EmitsLinks k id [.const (b.fresh 1 32) [Cursor.word i]] b c := .ofTables hemits htables hr
  have hsc := hs.mono hr hc.toGrows
  apply Succeeds.bind (succeeds_extend (succeeds_arrayDeref _ (hsc.dst_type ▸ hne)))
  intro dst d hdst
  obtain ⟨hd, -, -⟩ := emitsLinks_element (k := k) hc.mark_lt' hc.rooted hdst
  have hsd := hsc.mono hc.rooted hd.toGrows
  apply Succeeds.bind (succeeds_extend (succeeds_arrayDeref _ ((hsd.src_type he) ▸ hne)))
  exact fun src e _ => .pure _

theorem succeeds_field {name : String} {fields : List (String × Ty)} (hm : id < b.instrs.size)
    (hr : b.Rooted) (hs : Stands b p t) (he : t.Even) (ht : t.type = .struct name fields) {f : Nat}
    (hf : f < fields.length) : Succeeds (field p f) b := by
  have hne : t.type.fieldType f ≠ .absent := Ty.ne_absent_of_complete (he.field ht hf).complete
  apply Succeeds.bind (succeeds_extend (succeeds_structDeref _ (hs.dst_type ▸ hne)))
  intro dst d hdst
  obtain ⟨hd, -, -⟩ := emitsLinks_field (k := 0) hm hr hdst
  have hsd := hs.mono hr hd.toGrows
  apply Succeeds.bind (succeeds_extend (succeeds_structDeref _ ((hsd.src_type he) ▸ hne)))
  exact fun src e _ => .pure _

/-- A level succeeds when each of its members does while the transfer stands. -/
theorem succeeds_mapM {f : Nat → Step Pending} (hs : Stands b p t) (hm : id < b.instrs.size)
    (hr : b.Rooted) (xs : List Nat)
    (hf : ∀ x ∈ xs, ∀ c, id < c.instrs.size → c.Rooted → Stands c p t → Succeeds (f x) c ∧
      ∀ q d, f x c = (.ok q, d) → ∃ ops, EmitsLinks k id ops c d) :
    Succeeds (xs.mapM f) b := by
  induction xs generalizing b with
  | nil =>
    rw [List.mapM_nil]
    exact .pure _
  | cons x xs ih =>
    rw [List.mapM_cons]
    obtain ⟨hx, hext⟩ := hf x (.head _) b hm hr hs
    apply hx.bind
    intro q c hq
    obtain ⟨ops, hc⟩ := hext q c hq
    apply Succeeds.bind
    · exact ih (hs.mono hr hc.toGrows) hc.mark_lt' hc.rooted fun y hy => hf y (.tail _ hy)
    · exact fun qs d _ => .pure _

theorem succeeds_leaf (c : Cursor) : Succeeds (do leaf c p; return [] : Step (List Pending)) b := by
  apply Succeeds.bind
  · apply Succeeds.bind (.lift _)
    exact fun v d _ => .lift _
  · exact fun _ d _ => .pure _

theorem succeeds_expand (hm : id < b.instrs.size) (hr : b.Rooted) (hs : Stands b p t)
    (he : t.Even) : Succeeds (expand ⟨some k, some id⟩ p) b := by
  unfold expand
  rw [hs.type]
  cases ht : t.type with
  | absent => exact absurd ht (Ty.ne_absent_of_complete he.complete)
  | array elem n =>
    apply succeeds_mapM (k := k) hs hm hr
    intro i _ c hm hr hs
    refine ⟨succeeds_element hm hr hs he ht i, ?_⟩
    intro q d hq
    obtain ⟨v, -, hext, -⟩ := emitsLinks_transfer_element hm hr hs hq
    exact ⟨_, hext⟩
  | struct name fields =>
    apply succeeds_mapM (k := k) hs hm hr
    intro f hf c hm hr hs
    refine ⟨succeeds_field hm hr hs he ht (List.mem_range.mp hf), ?_⟩
    intro q d hq
    exact ⟨_, (emitsLinks_transfer_field (k := k) hm hr hs hq).1⟩
  | scalar base => exact succeeds_leaf _
  | vector base n => exact succeeds_leaf _

theorem succeeds_drain {fuel : Nat} {qs : List Pending} {ts : List Transfer}
    (hm : id < b.instrs.size) (hr : b.Rooted) (hs : List.Forall₂ (Stands b) qs ts)
    (he : ∀ t ∈ ts, t.Even) : Succeeds (drain ⟨some k, some id⟩ fuel qs) b := by
  induction fuel generalizing qs ts b with
  | zero => exact .pure _
  | succ fuel ih =>
    cases hs with
    | nil => exact .pure _
    | @cons q t qs ts hq hqs =>
      have hte := he t (.head _)
      apply Succeeds.bind (succeeds_expand hm hr hq hte)
      intro more c hmore
      obtain ⟨ops, us, hexp⟩ := expansion hm hr hq hmore
      have hqueue : List.Forall₂ (Stands c) (qs ++ more) (ts ++ us) :=
        List.rel_append (hqs.imp fun _ _ h => h.mono hr hexp.toGrows) hexp.stands
      apply ih hexp.mark_lt' hexp.rooted hqueue
      intro u hu
      rcases List.mem_append.mp hu with hu | hu
      · exact he u (.tail _ hu)
      · exact hexp.even hte u hu

theorem lt_of_complete {h : Handle} (hc : (derefType b.links h).complete = true) :
    ∀ n ∈ h, n < b.links.size := by
  rintro n rfl
  apply Nat.lt_of_not_le
  intro hn
  simp [derefType, Array.getElem?_eq_none hn, Ty.complete] at hc

theorem Stands.of_complete {dst src : Handle}
    (hsame : derefType b.links dst = derefType b.links src)
    (hcomplete : (derefType b.links dst).complete = true) :
    Stands b ⟨dst, src, derefType b.links dst⟩ ⟨b.hops dst, b.hops src⟩ :=
  ⟨rfl, rfl, lt_of_complete hcomplete, lt_of_complete (hsame ▸ hcomplete),
    (hopsType_hops b dst).symm⟩

theorem Transfer.Even.of_complete {dst src : Handle}
    (hsame : derefType b.links dst = derefType b.links src)
    (hcomplete : (derefType b.links dst).complete = true) :
    Transfer.Even ⟨b.hops dst, b.hops src⟩ := by
  constructor
  · rw [Transfer.type, hopsType_hops, hopsType_hops, hsame]
  · rw [Transfer.type, hopsType_hops]
    exact hcomplete

theorem succeeds_split {dst src : Handle} (hm : id < b.instrs.size) (hr : b.Rooted)
    (hsame : derefType b.links dst = derefType b.links src)
    (hcomplete : (derefType b.links dst).complete = true) :
    Succeeds (split ⟨some k, some id⟩ dst src) b := by
  have heven := Transfer.Even.of_complete hsame hcomplete
  unfold Succeeds
  rw [split_eq, if_pos hsame]
  exact succeeds_drain hm hr (.cons (.of_complete hsame hcomplete) .nil) (by simpa using heven)

end

def Action.Splittable : Action → Prop
  | copy dst src => Transfer.Even ⟨dst, src⟩
  | _ => True

theorem split_passes {s : Split} {k : BlockId} {id : InstrId} {a : Action} (hl : s.body.Laid)
    (herror : s.error = none) (hk : k ∈ s.body.layout) (hid : id ∈ s.body.held k)
    (ha : s.body.action? id = some a) (hs : a.Splittable) : (Split.instr k s id).error = none := by
  obtain ⟨op, hop, rfl⟩ := Option.map_eq_some_iff.mp ha
  cases op with
  | copy dst src =>
    obtain ⟨hsame, hcomplete⟩ := hs
    rw [Transfer.type, hopsType_hops] at hsame hcomplete
    rw [hopsType_hops] at hsame
    obtain ⟨_, c, hrun⟩ := succeeds_split (k := k)
      (hl.lt_size (Body.mem_placedInstrs.mpr ⟨k, hk, hid⟩)) hl.toRooted hsame.symm hcomplete
    simp only [Split.instr, herror, hop, hl.beforeInstr hk hid, hrun]
  | _ => simp [Split.instr, herror, hop]

theorem split_stops {s : Split} (k : BlockId) {id : InstrId} {dst src : List Hop}
    (herror : s.error = none) (ha : s.body.action? id = some (.copy dst src))
    (hne : hopsType dst ≠ hopsType src) :
    Split.instr k s id = ⟨s.body, s.progress,
      some ⟨none, s.body.blockIndex k, .mismatch (hopsType dst) (hopsType src)⟩⟩ := by
  obtain ⟨op, hop, hact⟩ := Option.map_eq_some_iff.mp ha
  cases op with
  | copy d c =>
    obtain ⟨rfl, rfl⟩ : s.body.hops d = dst ∧ s.body.hops c = src := by
      simpa [Body.action] using hact
    rw [hopsType_hops, hopsType_hops] at hne ⊢
    simp only [Split.instr, herror, hop]
    rw [split_eq, if_neg hne]
  | _ => cases hact

/-- A step of splitting fails exactly at an action that has a cause for it. -/
theorem split_fault {s : Split} {k : BlockId} {id : InstrId} {a : Action} (hl : s.body.Laid)
    (herror : s.error = none) (hk : k ∈ s.body.layout) (hid : id ∈ s.body.held k)
    (ha : s.body.action? id = some a) (hu : a.Unlowered) :
    (Split.instr k s id).error = a.mismatch?.map fun e => ⟨none, s.body.blockIndex k, e⟩ := by
  cases a with
  | copy dst src =>
    by_cases hsame : hopsType dst = hopsType src
    · rw [split_passes hl herror hk hid ha ⟨hsame.symm, hu.complete _ (.head _)⟩]
      simp [Action.mismatch?, hsame]
    · rw [split_stops k herror ha hsame]
      simp [Action.mismatch?, hsame]
  | _ => rw [split_passes hl herror hk hid ha trivial]; rfl

/-- Splitting fails at the first copy between places of different types. -/
theorem Body.Unlowered.splitCopies_fault {b : Body} (h : b.Unlowered) :
    b.splitCopies.error = b.firstFault b.mismatch? := by
  rw [splitCopies_error, splitBlocks_eq, funext (mismatch?_eq b)]
  apply foldl_firstFault Split.body Split.error Split.instr (·.body.Laid) ⟨b, false, none⟩
    (fun _ hl => hl) (fun k s id => split_stuck) ?_ ?_ h.toLaid rfl
  · intro k s id a f hl herror hk hid hplaced ha hact
    rw [split_fault hl herror hk hid hact ((h.actions id hplaced a ha).mapUses f),
      Action.mismatch?_mapUses]
  · intro k s id hl herror hk hid hok
    rcases split_step hl hk hid hok with ⟨heq, -⟩ | ⟨-, dst, src, acts, hs⟩
    · exact ⟨by rw [heq]; exact hl, .inl heq⟩
    · exact ⟨hs.replaced.laid, .inr ⟨_, _, _, hs.replaced⟩⟩

section

open Lowering

variable {b : Body} {c : Cursor}

def Slot.Folded (slot : Slot) : Prop := slot.indirect.isSome → slot.base = 0

theorem succeeds_addIndex {slot : Slot} (hs : slot.Folded) (index : Operand) (stride : Int) :
    ∃ slot' d, addIndex c slot index stride b = (.ok slot', d) ∧ slot'.Folded := by
  rw [addIndex_run]
  cases hi : slot.indirect with
  | some sum =>
    have hbase : slot.base = 0 := hs (by rw [hi]; rfl)
    simp only [hbase, if_true]
    exact ⟨_, _, rfl, fun _ => rfl⟩
  | none =>
    cases b.constant? index with
    | none => exact ⟨_, _, rfl, fun _ => rfl⟩
    | some n =>
      refine ⟨_, _, rfl, fun h => ?_⟩
      cases h

theorem succeeds_addIndices (links : List Link) {slot : Slot} (hs : slot.Folded) (stride : Int) :
    Succeeds (addIndices c links stride slot) b := by
  induction links generalizing slot stride b with
  | nil => exact .pure _
  | cons link rest ih =>
    cases hk : link.kind with
    | array index =>
      simp only [addIndices, hk]
      obtain ⟨slot', d, hrun, hs'⟩ := succeeds_addIndex (c := c) (b := b) hs index stride
      apply Succeeds.bind ⟨slot', d, hrun⟩
      intro slot'' d' hrun'
      rw [hrun] at hrun'
      cases hrun'
      exact ih hs' _
    | _ =>
      simp only [addIndices, hk]
      exact ih hs _

theorem succeeds_linearize (h : Handle) (reg : Register) : Succeeds (linearize c h reg) b := by
  unfold linearize
  dsimp only
  split
  · exact .pure _
  · apply Succeeds.bind ⟨b, b, rfl⟩
    intro d e _
    apply succeeds_addIndices
    intro hsome
    cases hsome

theorem identity?_of_root {links : List Link} {v : Variable} (h : rootVariable? links = some v) :
    ∃ fs, identity? links = some (v, fs) := by
  induction links with
  | nil => cases h
  | cons l rest ih =>
    cases hk : l.kind with
    | var w => simp_all [identity?, rootVariable?]
    | array index =>
      obtain ⟨fs, hfs⟩ := ih (by simpa [rootVariable?, hk] using h)
      exact ⟨fs, by simpa [identity?, hk] using hfs⟩
    | struct f =>
      obtain ⟨fs, hfs⟩ := ih (by simpa [rootVariable?, hk] using h)
      exact ⟨f :: fs, by simp [identity?, hk, hfs]⟩
    | cast => simp [rootVariable?, hk] at h

theorem aggregate?_of_complete {type : Ty} (h : type.complete = true) :
    aggregate? type = if type.isVectorOrScalar then none else some (.badLeaf type) := by
  cases type with
  | absent => cases h
  | _ => rfl

/-- A lookup fails at an initialized variable, and otherwise at a leaf that has no slot. -/
theorem lookupOrCreate_outcome {t : RegisterTable} {made : Nat} {h : Handle} (hb : Built b.links)
    (ht : t.Sound b.links made) (hroot : rootVariable? (chain b.links h) ≠ none)
    (hcomplete : (derefType b.links h).complete = true) :
    match (initializer? (rootVariable? (chain b.links h))).or (aggregate? (derefType b.links h)) with
    | some e => t.lookupOrCreate h b = .error e
    | none => ∃ r, t.lookupOrCreate h b = .ok r := by
  obtain ⟨v, hv⟩ := Option.ne_none_iff_exists'.mp hroot
  obtain ⟨fs, hid⟩ := identity?_of_root hv
  have hhash : hashChain (chain b.links h) = .ok _ := hashFrom_of_identity hid hashStart
  have hfind := RegisterTable.find?_eq hb hhash t.entries ht.hash
  rw [aggregate?_of_complete hcomplete, hv, ← headType_chain]
  simp only [RegisterTable.lookupOrCreate, RegisterTable.initialized?, hhash, hv, hfind, bind,
    Except.bind]
  by_cases hinit : v.init.isSome = true
  · simp [initializer?, hinit, throw, throwThe, MonadExceptOf.throw]
  · cases hf : t.entries.find? fun e => turns (chain b.links e.deref) = turns (chain b.links h) with
    | some e =>
      -- the entry that was found ends at a vector or scalar, so the chain does
      have he := List.mem_of_find?_eq_some hf
      have hturns : turns (chain b.links e.deref) = turns (chain b.links h) := by
        simpa using List.find?_some hf
      have hleaf : (headType (chain b.links h)).isVectorOrScalar = true := by
        rw [← headType_congr (ht.outline_eq hb he hturns)]
        exact ht.leaf e he
      simp [initializer?, hinit, hleaf, pure, Except.pure]
    | none =>
      by_cases hleaf : (headType (chain b.links h)).isVectorOrScalar = true
      · simp only [initializer?, hinit, hleaf, Option.bind_some, Bool.false_eq_true, if_false,
          if_true, Option.or_none, Option.map_none]
        exact ⟨_, rfl⟩
      · simp [initializer?, hinit, hleaf, throw, throwThe, MonadExceptOf.throw]

theorem exists_link_of_isLocal {links : Array Link} {h : Handle} (hlocal : isLocal links h = true) :
    ∃ n l, h = some n ∧ links[n]? = some l := by
  unfold isLocal at hlocal
  split at hlocal
  · rename_i l hl
    obtain ⟨n, rfl, hn⟩ := Option.bind_eq_some_iff.mp hl
    exact ⟨n, l, rfl, hn⟩
  · cases hlocal

/-- An access to local memory fails for the reasons of its lookup, before anything has changed. -/
theorem slotOf_outcome {t : RegisterTable} {made : Nat} {h : Handle} (hplain : PlainArena b.links)
    (ht : t.Sound b.links made) (hlocal : isLocal b.links h = true) :
    match (initializer? (rootVariable? (chain b.links h))).or (aggregate? (derefType b.links h)) with
    | some e => slotOf t c h b = (.error e, b)
    | none => ∃ r d, slotOf t c h b = (.ok r, d) := by
  obtain ⟨n, l, rfl, hn⟩ := exists_link_of_isLocal hlocal
  obtain ⟨v, hroot, -, -⟩ := hplain.built.exists_root hplain.castless hn
  have hlook := lookupOrCreate_outcome hplain.built ht (by rw [hroot]; simp)
    (hplain.complete_derefType (Array.getElem?_eq_some_iff.mp hn).1)
  split at hlook
  · rw [slotOf, hlook]
  · obtain ⟨⟨reg, t', b'⟩, hlook⟩ := hlook
    obtain ⟨slot, d, hlin⟩ := succeeds_linearize (c := c) (b := b') (some n) reg
    refine ⟨(slot, t'), d, ?_⟩
    rw [slotOf, hlook]
    dsimp only
    rw [hlin]

end

section

variable {s : Lowered} {k : BlockId} {id : InstrId}

theorem access_fault {h : Handle} {done : LowerStats} {finish : Cursor → Slot → Edit Unit}
    (hplain : PlainArena s.body.links) (ht : s.table.Sound s.body.links s.body.registerCount)
    (hlocal : isLocal s.body.links h = true) :
    (s.access k id h done finish).error =
      ((initializer? (rootVariable? (chain s.body.links h))).or
        (aggregate? (derefType s.body.links h))).map fun e => ⟨none, s.body.blockIndex k, e⟩ := by
  have hslot := slotOf_outcome (c := .beforeInstr s.body id) hplain ht hlocal
  unfold Lowered.access
  dsimp only
  split at hslot
  · rename_i e hcause
    rw [hslot, hcause]
    rfl
  · rename_i hcause
    obtain ⟨⟨slot, t⟩, d, hslot⟩ := hslot
    rw [hslot, hcause]
    rfl

theorem aggregate?_of_leaf {type : Ty} (h : type.isVectorOrScalar = true) :
    aggregate? type = none := by
  cases type with
  | array elem n => cases h
  | struct name fields => cases h
  | _ => rfl

/-- A step of lowering fails exactly at an action that has a cause for it. -/
theorem lower_fault {a : Action} (hplain : PlainArena s.body.links)
    (ht : s.table.Sound s.body.links s.body.registerCount) (herror : s.error = none)
    (ha : s.body.action? id = some a) (hu : a.Unlowered) (hcopy : ∀ dst src, a ≠ .copy dst src) :
    (Lowered.instr k s id).error = a.refusal?.map fun e => ⟨none, s.body.blockIndex k, e⟩ := by
  have hroot : ∀ h, hopsRoot? (s.body.hops h) = rootVariable? (chain s.body.links h) :=
    fun h => hopsRoot?_hop s.body _
  obtain ⟨op, hop, rfl⟩ := Option.map_eq_some_iff.mp ha
  cases op with
  | load h dest n =>
    have hleaf := hu.load _ _ _ rfl
    rw [hopsType_hops] at hleaf
    simp only [Lowered.instr, herror, hop, Body.action, Action.refusal?, localChain_hops, hroot]
    by_cases hlocal : isLocal s.body.links h = true
    · rw [if_pos hlocal, if_pos hlocal, access_fault hplain ht hlocal, aggregate?_of_leaf hleaf,
        Option.or_none]
    · rw [if_neg hlocal, if_neg hlocal]
      exact herror
  | store h v mask =>
    simp only [Lowered.instr, herror, hop, Body.action, Action.refusal?, localChain_hops, hroot,
      hopsType_hops]
    by_cases hlocal : isLocal s.body.links h = true
    · rw [if_pos hlocal, if_pos hlocal, access_fault hplain ht hlocal]
    · rw [if_neg hlocal, if_neg hlocal]
      exact herror
  | copy dst src => exact absurd rfl (hcopy _ _)
  | _ => simp [Lowered.instr, herror, hop, Body.action, Action.refusal?]

end

def Body.Copyless (b : Body) : Prop :=
  ∀ id ∈ b.placedInstrs, ∀ dst src, b.op? id ≠ some (.copy dst src)

/-- Lowering a body without copies fails at the first access that it refuses. -/
theorem Body.Unlowered.lowerLocals_fault {b : Body} (h : b.Unlowered) (hcopy : b.Copyless) :
    b.lowerLocals.error = b.firstFault b.refusal? := by
  have hcode : SameCode b b.dominated := .require b _
  obtain ⟨hd, hindex⟩ := h.require ⟨false, true, false⟩
  have hwalk : b.dominated.lowerBlocks.error = b.dominated.firstFault fun id =>
      (b.dominated.action? id).bind Action.refusal? := by
    rw [lowerBlocks_eq]
    apply foldl_firstFault Lowered.body Lowered.error Lowered.instr
      (fun s => s.body.Laid ∧ s.table.Made s.body ∧ PlainArena s.body.links ∧
        Filed b.dominated s.body s.table) ⟨b.dominated, .empty, .zero, none⟩
      (fun _ hJ => hJ.1) (fun k s id => lowered_stuck) ?_ ?_ ?_ rfl
    · rintro k s id a f ⟨-, -, hplain, hfiled⟩ herror hk hid hplaced ha hact
      have hnot : ∀ dst src, a.mapUses f ≠ .copy dst src := by
        intro dst src heq
        obtain ⟨op, hop, rfl⟩ := Option.map_eq_some_iff.mp ha
        cases op with
        | copy d s =>
          rw [hcode.placedInstrs] at hplaced
          rw [Body.op?, hcode.instrs] at hop
          exact hcopy id hplaced d s hop
        | _ => cases heq
      rw [lower_fault hplain hfiled.sound herror hact ((hd.actions id hplaced a ha).mapUses f) hnot,
        Action.refusal?_mapUses]
    · rintro k s id ⟨hl, hmade, hplain, hfiled⟩ herror hk hid hok
      rcases instr_step hl hmade hk hid hok with ⟨heq, -⟩ | ⟨_, _, _, _, _, _, _, hs⟩
      · rw [heq]
        exact ⟨⟨hl, hmade, hplain, hfiled⟩, .inl rfl⟩
      · have hplain' : PlainArena (Lowered.instr k s id).body.links := by
          rcases hs.links with hlinks | ⟨old, new, hlinks⟩
          · rw [hlinks]
            exact hplain
          · rw [hlinks]
            exact hplain.replace old new
        exact ⟨⟨hs.replaced.laid, hs.made hmade, hplain', hs.filed hfiled⟩,
          .inr ⟨_, _, _, hs.replaced⟩⟩
    · exact ⟨hd.toLaid, by simp [RegisterTable.Made, RegisterTable.empty], hd.plain,
        .start hd.plain.built (.refl _)⟩
  rw [lowerLocals_error, hwalk]
  apply firstFault_congr hcode.layout (fun k _ => hcode.held k) (fun k _ => hindex k)
  intro id _
  rw [refusal?_eq, hcode.action?]

section

variable {b : Body}

theorem splitCopies_confined (hl : b.Laid) (hok : b.splitCopies.error = none) :
    Confined b b.splitCopies.body := by
  obtain ⟨c, -, hc, hcode⟩ := splitCopies_rule (Confined b) hl (.refl b)
    (fun _ _ _ _ _ _ _ _ hc hs => hc.trans hs.replaced.confined) hok
  exact hc.trans hcode.confined

theorem lowerLocals_confined (hl : b.Laid) (hok : b.lowerLocals.error = none) :
    Confined b b.lowerLocals.body ∧ b.lowerLocals.body.Laid := by
  obtain ⟨c, hlaid, hc, hcode⟩ := lowerLocals_rule (fun _ c _ => Confined b c) hl
    (fun _ hc => hc.confined) (fun _ _ _ _ _ hc _ _ _ => hc)
    (fun _ _ _ _ _ _ _ _ _ _ _ _ _ hc _ _ hs => hc.trans hs.replaced.confined) hok
  exact ⟨hc.trans hcode.confined, hcode.laid hlaid⟩

end

end ShaderIR
