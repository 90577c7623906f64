import ShaderIR.Proofs.LoweringStep
import ShaderIR.Proofs.SplittingStep
import ShaderIR.Proofs.StoredAnalyses

/-!
# Passes that leave nothing to do

Splitting picks the copies out of the blocks, lowering the accesses to local memory. What a pass
emits in their place is never of the kind that it picks. So after a pass that succeeds nothing is
left to pick, and running the pass again changes nothing.
-/

set_option autoImplicit false

namespace ShaderIR

abbrev Choice := Array Link → Op → Bool

namespace Choice

def copies : Choice := fun _ op =>
  match op with
  | .copy _ _ => true
  | _ => false

def localAccesses : Choice := fun links op => op.derefs.any (isLocal links)

structure ByChains (p : Choice) : Prop where
  chainless : ∀ links op, op.derefs = [] → p links op = false
  congr : ∀ links links' op op', isLocal links' = isLocal links → op'.derefs = op.derefs →
    p links' op' = p links op

theorem localAccesses_byChains : localAccesses.ByChains where
  chainless links op h := by simp [localAccesses, h]
  congr links links' op op' hlocal h := by simp [localAccesses, hlocal, h]

end Choice

namespace Body

def picks (b : Body) (p : Choice) (id : InstrId) : Bool := (b.op? id).any (p b.links)

def picked (b : Body) (p : Choice) (k : BlockId) : List InstrId := (b.held k).filter (b.picks p)

def home? (b : Body) (id : InstrId) : Option BlockId := b.instrs[id]?.bind (·.block)

def Homed (b : Body) : Prop :=
  ∀ k ∈ b.layout, (b.held k).Nodup ∧ ∀ id ∈ b.held k, b.home? id = some k

end Body

structure Spares (p : Choice) (b b' : Body) : Prop where
  layout : b'.layout = b.layout
  valid : b'.valid = b.valid
  picks : ∀ id, b'.picks p id = b.picks p id
  picked : ∀ k, b'.picked p k = b.picked p k
  home : ∀ id, b.picks p id = true → b'.home? id = b.home? id

section

variable {p : Choice} {b b' b'' : Body}

theorem Spares.refl (p : Choice) (b : Body) : Spares p b b :=
  ⟨rfl, rfl, fun _ => rfl, fun _ => rfl, fun _ _ => rfl⟩

theorem Spares.trans (h : Spares p b b') (h' : Spares p b' b'') : Spares p b b'' where
  layout := h'.layout.trans h.layout
  valid := h'.valid.trans h.valid
  picks id := (h'.picks id).trans (h.picks id)
  picked k := (h'.picked k).trans (h.picked k)
  home id hid := (h'.home id ((h.picks id).trans hid)).trans (h.home id hid)

theorem filter_insertBefore {q : InstrId → Bool} {id : InstrId} (hq : q id = false)
    (mark : Option InstrId) (xs : List InstrId) :
    (Body.insertBefore id mark xs).filter q = xs.filter q := by
  induction xs with
  | nil => simp [Body.insertBefore, hq]
  | cons x xs ih =>
    unfold Body.insertBefore
    split
    · simp [hq]
    · rw [List.filter_cons, List.filter_cons, ih]

theorem Body.exists_op_of_picks {id : InstrId} (h : b.picks p id = true) :
    ∃ op, b.op? id = some op ∧ p b.links op = true := by
  cases hop : b.op? id with
  | none => simp [picks, hop] at h
  | some op => exact ⟨op, rfl, by simpa [picks, hop] using h⟩

theorem Body.lt_of_picks {id : InstrId} (h : b.picks p id = true) : id < b.instrs.size := by
  by_contra hge
  simp [picks, op?, Array.getElem?_eq_none (Nat.not_lt.mp hge)] at h

theorem picks_push {op : Op} (hop : p b.links op = false) (k : Option BlockId) (id : InstrId) :
    ({ b with instrs := b.instrs.push ⟨op, k⟩ } : Body).picks p id = b.picks p id := by
  simp only [Body.picks, Body.op?, Array.getElem?_push]
  by_cases h : id = b.instrs.size
  · subst h
    simp [hop]
  · simp [h]

theorem home?_push {op : Op} {k : Option BlockId} {id : InstrId} (h : b.picks p id = true) :
    ({ b with instrs := b.instrs.push ⟨op, k⟩ } : Body).home? id = b.home? id := by
  have hne : id ≠ b.instrs.size := Nat.ne_of_lt (Body.lt_of_picks h)
  simp [Body.home?, Array.getElem?_push, hne]

theorem spares_putAt {op : Op} (hop : p b.links op = false) (k : BlockId) (mark : Option InstrId) :
    Spares p b (b.putAt k mark op) := by
  have hpicks : ∀ id, (b.putAt k mark op).picks p id = b.picks p id := by
    intro id
    rw [putAt_eq]
    exact picks_push hop (some k) id
  refine ⟨by rw [putAt_eq], by rw [putAt_eq], hpicks, ?_, ?_⟩
  · intro j
    rw [Body.picked, Body.picked, funext hpicks, held_putAt]
    by_cases hj : j = k
    · have hnew : b.picks p b.instrs.size = false := by simp [Body.picks, Body.op?]
      rw [if_pos hj, hj, Body.held]
      cases b.blocks[k]? with
      | none => rfl
      | some blk => exact filter_insertBefore hnew mark blk.instrs
    · rw [if_neg hj]
  · intro id hid
    rw [putAt_eq]
    exact home?_push hid

theorem spares_insert (op : Op) (hop : p b.links op = false) (c : Cursor) :
    Spares p b (c.insert op b).2 := by
  obtain ⟨k, mark⟩ := c
  cases k with
  | some k => exact spares_putAt hop k mark
  | none =>
    refine ⟨rfl, rfl, picks_push hop none, fun k => ?_, fun id => home?_push⟩
    exact List.filter_congr fun id _ => picks_push hop none id

theorem Spares.of_code (hi : b'.instrs = b.instrs) (hb : b'.blocks = b.blocks)
    (hk : b'.links = b.links) (hl : b'.layout = b.layout) (hv : b'.valid = b.valid) :
    Spares p b b' := by
  have hpicks : b'.picks p = b.picks p := by
    funext id
    rw [Body.picks, Body.picks, Body.op?, Body.op?, hi, hk]
  refine ⟨hl, hv, fun id => by rw [hpicks], fun k => ?_, fun id _ => ?_⟩
  · rw [Body.picked, Body.picked, hpicks, Body.held, Body.held, hb]
  · rw [Body.home?, Body.home?, hi]

theorem spares_define (op : Op) (hop : p b.links op = false) (c : Cursor) :
    Spares p b (c.insert op b.addValue).2 := by
  have hvalue : Spares p b b.addValue := .of_code rfl rfl rfl rfl rfl
  exact hvalue.trans (spares_insert (b := b.addValue) op hop c)

theorem spares_imm (n w : Int) (hop : p b.links (.const (b.fresh 1 w) [Cursor.word n]) = false)
    (c : Cursor) : Spares p b (c.imm n w b).2 :=
  spares_define (.const (b.fresh 1 w) [Cursor.word n]) hop c

theorem spares_addLink (link : Link) : Spares .copies b (b.addLink link) :=
  ⟨rfl, rfl, fun _ => rfl, fun _ => rfl, fun _ _ => rfl⟩

theorem spares_seq {α β : Type} {x : Edit α} {f : α → Edit β} (hx : Spares p b (x b).2)
    (hf : ∀ a c, Spares p c (f a c).2) : Spares p b ((x >>= f) b).2 :=
  hx.trans (hf _ _)

/-- A sequence that stops early has spared what it met. -/
theorem spares_bind {ε α β : Type} {x : ExceptT ε Edit α} {f : α → ExceptT ε Edit β}
    (hx : Spares p b (x b).2) (hf : ∀ a c, Spares p c (f a c).2) :
    Spares p b ((x >>= f) b).2 := by
  rw [exceptT_bind]
  rcases hr : x b with ⟨e | a, c⟩
  · rwa [hr] at hx
  · rw [hr] at hx
    exact hx.trans (hf a c)

theorem spares_mapM {ε α β : Type} {f : α → ExceptT ε Edit β}
    (hf : ∀ a c, Spares p c (f a c).2) (xs : List α) (b : Body) :
    Spares p b (xs.mapM f b).2 := by
  induction xs generalizing b with
  | nil => exact .refl p b
  | cons x xs ih =>
    rw [List.mapM_cons]
    exact spares_bind (hf x b) fun y c => spares_bind (ih c) fun ys d => .refl p d

end

namespace CopySplitting

theorem spares_extend {b : Body} {step : ExceptT LinkError Edit Handle}
    (h : Spares .copies b (step b).2) : Spares .copies b (extend step b).2 := by
  unfold extend
  rcases hr : step b with ⟨e | a, c⟩ <;> rwa [hr] at h

theorem spares_arrayDeref (parent : Handle) (index : Operand) (b : Body) :
    Spares .copies b (Body.arrayDeref parent index b).2 := by
  rw [arrayDeref_run]
  split
  · exact spares_addLink _
  · exact .refl _ b

theorem spares_structDeref (parent : Handle) (field : Int) (b : Body) :
    Spares .copies b (Body.structDeref parent field b).2 := by
  rw [structDeref_run]
  split
  · exact spares_addLink _
  · exact .refl _ b

variable (c : Cursor)

theorem spares_element (q : Pending) (i : Nat) (b : Body) :
    Spares .copies b (element c q i b).2 := by
  refine spares_bind (spares_imm i 32 rfl c) fun index d => ?_
  refine spares_bind (spares_extend (spares_arrayDeref _ _ d)) fun dst d => ?_
  exact spares_bind (spares_extend (spares_arrayDeref _ _ d)) fun src d => .refl _ d

theorem spares_field (q : Pending) (i : Nat) (b : Body) : Spares .copies b (field q i b).2 := by
  refine spares_bind (spares_extend (spares_structDeref _ _ b)) fun dst d => ?_
  exact spares_bind (spares_extend (spares_structDeref _ _ d)) fun src d => .refl _ d

theorem spares_leaf (q : Pending) (b : Body) : Spares .copies b (leaf c q b).2 :=
  (spares_define (.load q.src (.value (b.fresh q.type.components q.type.bits)) _) rfl c).trans
    (spares_insert (.store q.dst (.value (b.fresh q.type.components q.type.bits)) _) rfl c)

theorem spares_expand (q : Pending) (b : Body) : Spares .copies b (expand c q b).2 := by
  unfold expand
  cases q.type with
  | array t n => exact spares_mapM (spares_element c q) _ b
  | struct name fs => exact spares_mapM (spares_field q) _ b
  | scalar s => exact spares_bind (spares_leaf c q b) fun _ d => .refl _ d
  | vector s n => exact spares_bind (spares_leaf c q b) fun _ d => .refl _ d
  | absent => exact .refl _ b

theorem spares_drain (fuel : Nat) (queue : List Pending) (b : Body) :
    Spares .copies b (drain c fuel queue b).2 := by
  induction fuel generalizing queue b with
  | zero => exact .refl _ b
  | succ fuel ih =>
    cases queue with
    | nil => exact .refl _ b
    | cons q queue => exact spares_bind (spares_expand c q b) fun more d => ih _ d

theorem spares_split (dst src : Handle) (b : Body) : Spares .copies b (split c dst src b).2 := by
  rw [split_eq]
  split
  · exact spares_drain c _ _ b
  · exact .refl _ b

end CopySplitting

namespace Lowering

variable {p : Choice} (hp : p.ByChains) (c : Cursor)

include hp

theorem spares_aluInto (op : AluOp) (srcs : List Operand) (n w : Int) (b : Body) :
    Spares p b (c.aluInto op srcs n w b).2 :=
  spares_define (.alu op srcs (.value (b.fresh n w)) (fullMask n)) (hp.chainless _ _ rfl) c

theorem spares_valueOf (src : Operand) (n : Int) (b : Body) :
    Spares p b (c.valueOf src n b).2 := by
  cases src with
  | value v => exact .refl _ b
  | slot s => exact spares_aluInto hp c _ _ n _ b
  | missing => exact spares_aluInto hp c _ _ n 32 b

theorem spares_u2u32 (x : Value) (b : Body) : Spares p b (c.u2u32 x b).2 := by
  unfold Cursor.u2u32
  split
  · exact .refl _ b
  · exact spares_aluInto hp c _ _ _ 32 b

theorem spares_accumulate (sum : Value) (index : Operand) (stride : Int) (b : Body) :
    Spares p b (accumulate c sum index stride b).2 := by
  refine spares_seq (spares_valueOf hp c index 1 b) fun i d => ?_
  refine spares_seq (spares_u2u32 hp c i d) fun i d => ?_
  refine spares_seq (spares_imm stride 32 (hp.chainless _ _ rfl) c) fun n d => ?_
  refine spares_seq (spares_aluInto hp c .imul _ _ _ d) fun term d => ?_
  exact spares_aluInto hp c .iadd _ _ _ d

theorem spares_addIndex (slot : Slot) (index : Operand) (stride : Int) (b : Body) :
    Spares p b (addIndex c slot index stride b).2 := by
  rw [addIndex_run]
  split
  · exact .refl _ b
  · have himm := spares_imm slot.base 32 (hp.chainless b.links _ rfl) c
    exact himm.trans (spares_accumulate hp c _ index stride _)
  · split
    · exact spares_accumulate hp c _ index stride b
    · exact .refl _ b

theorem spares_addIndices (links : List Link) (stride : Int) (slot : Slot) (b : Body) :
    Spares p b (addIndices c links stride slot b).2 := by
  induction links generalizing stride slot b with
  | nil => exact .refl _ b
  | cons link rest ih =>
    cases hk : link.kind with
    | array index =>
      simp only [addIndices, hk]
      exact spares_bind (spares_addIndex hp c slot index stride b) fun slot d => ih _ slot d
    | _ =>
      simp only [addIndices, hk]
      exact ih stride slot b

theorem spares_linearize (h : Handle) (reg : Register) (b : Body) :
    Spares p b (linearize c h reg b).2 := by
  unfold linearize
  split
  · exact .refl _ b
  · exact spares_addIndices hp c (chain b.links h) 1 _ b

theorem spares_slotOf (t : RegisterTable) (h : Handle) (b : Body) :
    Spares p b (slotOf t c h b).2 := by
  unfold slotOf
  cases hlook : t.lookupOrCreate h b with
  | error e => exact .refl _ b
  | ok r =>
    obtain ⟨reg, t', b'⟩ := r
    have hreg : Spares p b b' := by
      rcases RegisterTable.lookupOrCreate_cases hlook with ⟨-, -, rfl⟩ | ⟨-, -, rfl⟩
      · exact .refl _ _
      · exact .of_code rfl rfl rfl rfl rfl
    have hlin := hreg.trans (spares_linearize hp c h reg b')
    dsimp only
    rcases hr : linearize c h reg b' with ⟨e | slot, d⟩ <;> rwa [hr] at hlin

/-- Redirecting the reads of a value leaves the chains where they lead. -/
theorem spares_redirects {f : Value → Value} {b b' : Body} (h : Redirects f b b') :
    Spares p b b' := by
  have hlocal : isLocal b'.links = isLocal b.links := by
    funext x
    rcases h.links with hlinks | ⟨old, new, hlinks⟩
    · rw [hlinks]
    · cases x with
      | none => rfl
      | some n =>
        simp only [isLocal, hlinks, Option.bind_some, Array.getElem?_map]
        cases b.links[n]? <;> simp [Link.replace_mode]
  have hpicks : ∀ id, b'.picks p id = b.picks p id := by
    intro id
    by_cases hid : id ∈ b.placedInstrs
    · cases hop : b.op? id with
      | some op =>
        obtain ⟨op', hop', -, hderefs, -⟩ := h.op id hid op hop
        simpa [Body.picks, hop, hop'] using hp.congr _ _ op op' hlocal hderefs
      | none =>
        have hge : b.instrs.size ≤ id := by simpa [Body.op?] using hop
        have hop' : b'.op? id = none := by simpa [Body.op?, h.size] using hge
        simp [Body.picks, hop, hop']
    · have hchoice : p b'.links = p b.links := funext fun op => hp.congr _ _ op op hlocal rfl
      rw [Body.picks, Body.picks, Body.op?, Body.op?, h.other id hid, hchoice]
  refine ⟨h.layout, h.valid, hpicks, fun k => ?_, fun id _ => h.block id⟩
  rw [Body.picked, Body.picked, funext hpicks, h.held]

end Lowering

/-- What a step of a pass does at an instruction of a block: one that is not picked stays, and one
that is picked goes, the others of its kind being spared. -/
inductive Clears (p : Choice) (k : BlockId) (id : InstrId) (b : Body) : Body → Prop
  | stays (h : b.picks p id = false) : Clears p k id b b
  | goes {c : Body} (h : b.picks p id = true) (hc : Spares p b c) :
      Clears p k id b (Body.remove id k c).2

theorem split_skip {s : Split} {k : BlockId} {id : InstrId}
    (h : s.body.picks .copies id = false) : Split.instr k s id = s := by
  unfold Split.instr
  split
  · rename_i dst src herror hop
    simp [Body.picks, hop, Choice.copies] at h
  · rfl

theorem split_clears {s : Split} {k : BlockId} {id : InstrId}
    (hok : (Split.instr k s id).error = none) :
    Clears .copies k id s.body (Split.instr k s id).body := by
  by_cases hp : s.body.picks .copies id = true
  · have hspares := CopySplitting.spares_split (.beforeInstr s.body id)
    unfold Split.instr at hok ⊢
    split at hok
    · rename_i dst src herror hop
      specialize hspares dst src s.body
      split at hok
      · rename_i b hrun
        rw [hrun] at hspares
        exact .goes hp hspares
      · cases hok
    · rename_i hcopy
      obtain ⟨op, hop, hpick⟩ := Body.exists_op_of_picks hp
      cases op with
      | copy dst src => exact absurd hop (hcopy dst src hok)
      | _ => cases hpick
  · have hp' := Bool.eq_false_of_not_eq_true hp
    rw [split_skip hp']
    exact .stays hp'

namespace Lowering

section

variable {b : Body} {k : BlockId} {id : InstrId} {slot : Slot}

theorem spares_addSlot {p : Choice} (s : Slot) : Spares p b (b.addSlot s) :=
  .of_code rfl rfl rfl rfl rfl

theorem spares_replaceLoad {p : Choice} (hp : p.ByChains) (c : Cursor) (dest : Dest) (n : Int) :
    ∃ d, Spares p b d ∧ (replaceLoad c id dest n slot b).2 = (removeFromBlock id d).2 := by
  have halu : ∀ (d : Body) op srcs dest mask, Spares p d (c.insert (.alu op srcs dest mask) d).2 :=
    fun d op srcs dest mask => spares_insert _ (hp.chainless _ _ rfl) c
  cases dest with
  | value old =>
    refine ⟨_, ?_, rfl⟩
    have hvalue : Spares p b (b.addSlot slot).addValue := .of_code rfl rfl rfl rfl rfl
    exact (hvalue.trans (halu _ _ _ _ _)).trans (spares_redirects hp (redirects_replaceUses _ _ _))
  | slot target =>
    refine ⟨_, ?_, rfl⟩
    exact ((spares_addSlot slot).trans (spares_addSlot _)).trans (halu _ _ _ _ _)
  | missing =>
    refine ⟨_, ?_, rfl⟩
    exact (spares_addSlot slot).trans (halu _ _ _ _ _)

theorem spares_replaceStore {p : Choice} (hp : p.ByChains) (c : Cursor) (v : Operand)
    (mask : UInt8) :
    ∃ d, Spares p b d ∧ (replaceStore c id v mask slot b).2 = (removeFromBlock id d).2 := by
  refine ⟨_, ?_, rfl⟩
  exact (spares_addSlot slot).trans (spares_insert _ (hp.chainless _ _ rfl) c)

end

section

variable {s : Lowered} {k : BlockId} {id : InstrId}

theorem access_clears {h : Handle} {done : LowerStats} {finish : Cursor → Slot → Edit Unit}
    (hb : s.body.home? id = some k) (hp : s.body.picks .localAccesses id = true)
    (hfinish : ∀ (b : Body) (slot : Slot), ∃ c, Spares .localAccesses b c ∧
      (finish ⟨some k, some id⟩ slot b).2 = (removeFromBlock id c).2)
    (hok : (s.access k id h done finish).error = none) :
    Clears .localAccesses k id s.body (s.access k id h done finish).body := by
  have hcursor : Cursor.beforeInstr s.body id = ⟨some k, some id⟩ := by
    rw [Cursor.beforeInstr, show s.body.instrs[id]?.bind (·.block) = some k from hb]
  have hspares := spares_slotOf Choice.localAccesses_byChains ⟨some k, some id⟩ s.table h s.body
  simp only [Lowered.access, hcursor] at hok ⊢
  rcases hr : slotOf s.table ⟨some k, some id⟩ h s.body with ⟨e | ⟨slot, table⟩, b⟩
  · rw [hr] at hok
    cases hok
  · rw [hr] at hspares
    obtain ⟨c, hc, hrun⟩ := hfinish b slot
    have hspares := hspares.trans hc
    show Clears .localAccesses k id s.body (finish ⟨some k, some id⟩ slot b).2
    rw [hrun, removeFromBlock_run ((hspares.home id hp).trans hb)]
    exact .goes hp hspares

theorem lower_skip (h : s.body.picks .localAccesses id = false) : Lowered.instr k s id = s := by
  unfold Lowered.instr
  split
  · rename_i x dest n herror hop
    have hlocal : isLocal s.body.links x = false := by
      simpa [Body.picks, hop, Choice.localAccesses, Op.derefs] using h
    simp [hlocal]
  · rename_i x v mask herror hop
    have hlocal : isLocal s.body.links x = false := by
      simpa [Body.picks, hop, Choice.localAccesses, Op.derefs] using h
    simp [hlocal]
  · rename_i dst src herror hop
    have hlocal : isLocal s.body.links dst = false ∧ isLocal s.body.links src = false := by
      simpa [Body.picks, hop, Choice.localAccesses, Op.derefs] using h
    simp [hlocal]
  · rfl

theorem lower_clears (hb : s.body.picks .localAccesses id = true → s.body.home? id = some k)
    (hok : (Lowered.instr k s id).error = none) :
    Clears .localAccesses k id s.body (Lowered.instr k s id).body := by
  by_cases hp : s.body.picks .localAccesses id = true
  · have herror : s.error = none := by
      by_contra hne
      rw [lowered_stuck hne] at hok
      exact hne hok
    obtain ⟨op, hop, hpick⟩ := Body.exists_op_of_picks hp
    cases op with
    | load h dest n =>
      have hlocal : isLocal s.body.links h = true := by
        simpa [Choice.localAccesses, Op.derefs] using hpick
      simp only [Lowered.instr, herror, hop, hlocal, if_true] at hok ⊢
      exact access_clears (hb hp) hp
        (fun b slot => spares_replaceLoad Choice.localAccesses_byChains _ dest n) hok
    | store h v mask =>
      have hlocal : isLocal s.body.links h = true := by
        simpa [Choice.localAccesses, Op.derefs] using hpick
      simp only [Lowered.instr, herror, hop, hlocal, if_true] at hok ⊢
      exact access_clears (hb hp) hp
        (fun b slot => spares_replaceStore Choice.localAccesses_byChains _ v mask) hok
    | copy dst src =>
      have hlocal : (isLocal s.body.links dst || isLocal s.body.links src) = true := by
        simpa [Choice.localAccesses, Op.derefs] using hpick
      simp only [Lowered.instr, herror, hop, hlocal, if_true, Lowered.fail] at hok
      cases hok
    | _ => simp [Choice.localAccesses, Op.derefs] at hpick
  · have hp' := Bool.eq_false_of_not_eq_true hp
    rw [lower_skip hp']
    exact .stays hp'

end

end Lowering

section

variable {p : Choice} {b b' b'' : Body} {k : BlockId} {id : InstrId}

theorem picks_remove (h : id ∈ b.held k) (x : InstrId) :
    (Body.remove id k b).2.picks p x = b.picks p x := by
  rw [Body.picks, op?_remove h, remove_eq h]
  rfl

theorem erase_filter (q : InstrId → Bool) (hq : q id = true) (xs : List InstrId) :
    (xs.erase id).filter q = (xs.filter q).erase id := by
  induction xs with
  | nil => rfl
  | cons x xs ih =>
    by_cases hx : x = id
    · subst hx
      simp [hq]
    · by_cases hqx : q x = true
      · simp [hqx, hx, ih]
      · simp [hqx, hx, ih]

theorem picked_remove (h : id ∈ b.held k) (hp : b.picks p id = true) (j : BlockId) :
    (Body.remove id k b).2.picked p j =
      if j = k then (b.picked p k).erase id else b.picked p j := by
  rw [Body.picked, funext (picks_remove h), held_remove h]
  split
  · exact erase_filter (b.picks p) hp _
  · rfl

structure Beside (p : Choice) (k : BlockId) (b b' : Body) : Prop where
  layout : b'.layout = b.layout
  valid : b'.valid = b.valid
  picked : ∀ j, j ≠ k → b'.picked p j = b.picked p j

theorem Beside.trans (h : Beside p k b b') (h' : Beside p k b' b'') : Beside p k b b'' where
  layout := h'.layout.trans h.layout
  valid := h'.valid.trans h.valid
  picked j hj := (h'.picked j hj).trans (h.picked j hj)

def Body.Settled (p : Choice) (b : Body) : Prop :=
  ∀ j ∈ b.layout, (b.picked p j).Nodup ∧ ∀ id ∈ b.picked p j, b.home? id = some j

namespace Clears

variable (h : Clears p k id b b') (hid : b.picks p id = true → id ∈ b.picked p k)

include h hid

theorem beside : Beside p k b b' := by
  cases h with
  | stays _ => exact ⟨rfl, rfl, fun _ _ => rfl⟩
  | @goes c hp hc =>
    have hmem : id ∈ c.held k := (List.mem_filter.mp (hc.picked k ▸ hid hp)).1
    refine ⟨?_, ?_, fun j hj => ?_⟩
    · rw [remove_eq hmem]
      exact hc.layout
    · rw [remove_eq hmem]
      exact hc.valid
    · rw [picked_remove hmem ((hc.picks id).trans hp), if_neg hj, hc.picked]

/-- The instruction at hand is the first that is left to do, and no longer after the step. -/
theorem rest {xs : List InstrId} (hxs : (id :: xs).filter (b.picks p) = b.picked p k) :
    xs.filter (b'.picks p) = b'.picked p k := by
  cases h with
  | stays hp => rwa [List.filter_cons_of_neg (by simp [hp])] at hxs
  | @goes c hp hc =>
    have hmem : id ∈ c.held k := (List.mem_filter.mp (hc.picked k ▸ hid hp)).1
    rw [List.filter_cons_of_pos hp] at hxs
    rw [picked_remove hmem ((hc.picks id).trans hp), if_pos rfl, hc.picked, ← hxs,
      List.erase_cons_head, funext (picks_remove hmem), funext hc.picks]

theorem settled (hk : k ∈ b.layout) (hs : b.Settled p) : b'.Settled p := by
  cases h with
  | stays _ => exact hs
  | @goes c hp hc =>
    have hmem : id ∈ c.held k := (List.mem_filter.mp (hc.picked k ▸ hid hp)).1
    have hlayout : (Body.remove id k c).2.layout = b.layout := by
      rw [remove_eq hmem]
      exact hc.layout
    have hhome : ∀ {j x}, j ∈ b.layout → x ∈ b.picked p j → x ≠ id →
        (Body.remove id k c).2.home? x = some j := by
      intro j x hj hx hne
      rw [Body.home?, block_remove hmem hne, ← (hs j hj).2 x hx]
      exact hc.home x (List.mem_filter.mp hx).2
    intro j hj
    rw [hlayout] at hj
    rw [picked_remove hmem ((hc.picks id).trans hp), hc.picked, hc.picked]
    by_cases hjk : j = k
    · subst hjk
      rw [if_pos rfl]
      obtain ⟨hnodup, -⟩ := hs j hj
      refine ⟨hnodup.erase id, fun x hx => ?_⟩
      obtain ⟨hne, hx⟩ := hnodup.mem_erase_iff.mp hx
      exact hhome hj hx hne
    · rw [if_neg hjk]
      refine ⟨(hs j hj).1, fun x hx => hhome hj hx ?_⟩
      rintro rfl
      have hj' := (hs j hj).2 x hx
      rw [(hs k hk).2 x (hid hp)] at hj'
      exact hjk (Option.some.inj hj').symm

end Clears

end

section

variable {σ : Type} (body : σ → Body) (instr : BlockId → σ → InstrId → σ) (ok : σ → Prop)
  (J : Body → Prop) {p : Choice} (hback : ∀ k s id, ok (instr k s id) → ok s)
  (hstep : ∀ k s id, ok (instr k s id) → J (body s) → k ∈ (body s).layout →
    ((body s).picks p id = true → id ∈ (body s).picked p k) →
    Clears p k id (body s) (body (instr k s id)))
  (hJ : ∀ k id b b', Clears p k id b b' → (b.picks p id = true → id ∈ b.picked p k) →
    k ∈ b.layout → J b → J b')

include hback

theorem ok_of_foldl {k : BlockId} (xs : List InstrId) {s : σ} (h : ok (xs.foldl (instr k) s)) :
    ok s := by
  induction xs generalizing s with
  | nil => exact h
  | cons x xs ih => exact hback k s x (ih h)

theorem ok_of_foldl_blocks (ks : List BlockId) {s : σ}
    (h : ok (ks.foldl (fun s k => ((body s).held k).foldl (instr k) s) s)) : ok s := by
  induction ks generalizing s with
  | nil => exact h
  | cons k ks ih => exact ok_of_foldl instr ok hback _ (ih h)

include hstep hJ

/-- The instructions of a block are met in the order in which they were left to do. -/
theorem clear_block {k : BlockId} (xs : List InstrId) {s : σ} (hok : ok (xs.foldl (instr k) s))
    (hs : J (body s)) (hk : k ∈ (body s).layout)
    (hxs : xs.filter ((body s).picks p) = (body s).picked p k) :
    Beside p k (body s) (body (xs.foldl (instr k) s)) ∧
      (body (xs.foldl (instr k) s)).picked p k = [] ∧ J (body (xs.foldl (instr k) s)) := by
  induction xs generalizing s with
  | nil => exact ⟨⟨rfl, rfl, fun _ _ => rfl⟩, hxs.symm, hs⟩
  | cons x xs ih =>
    have hid : (body s).picks p x = true → x ∈ (body s).picked p k := by
      intro hp
      rw [← hxs, List.filter_cons_of_pos hp]
      exact .head _
    have hc := hstep k s x (ok_of_foldl instr ok hback xs hok) hs hk hid
    have hbeside := hc.beside hid
    obtain ⟨hb, hempty, hlast⟩ := ih hok (hJ _ _ _ _ hc hid hk hs) (hbeside.layout ▸ hk)
      (hc.rest hid hxs)
    exact ⟨hbeside.trans hb, hempty, hlast⟩

theorem clear_blocks (ks : List BlockId) {s : σ}
    (hok : ok (ks.foldl (fun s k => ((body s).held k).foldl (instr k) s) s)) (hs : J (body s))
    (hks : ∀ k ∈ ks, k ∈ (body s).layout) :
    let fin := body (ks.foldl (fun s k => ((body s).held k).foldl (instr k) s) s)
    fin.layout = (body s).layout ∧ fin.valid = (body s).valid ∧
      ∀ j, j ∈ ks ∨ (body s).picked p j = [] → fin.picked p j = [] := by
  induction ks generalizing s with
  | nil => exact ⟨rfl, rfl, fun j hj => hj.resolve_left List.not_mem_nil⟩
  | cons k ks ih =>
    rw [List.foldl_cons] at hok ⊢
    obtain ⟨hb, hempty, hs'⟩ := clear_block body instr ok J hback hstep hJ ((body s).held k)
      (ok_of_foldl_blocks body instr ok hback ks hok) hs (hks k (.head _)) rfl
    obtain ⟨hlayout, hvalid, hclear⟩ := ih hok hs' fun j hj => hb.layout ▸ hks j (.tail _ hj)
    refine ⟨hlayout.trans hb.layout, hvalid.trans hb.valid, fun j hj => hclear j ?_⟩
    by_cases hjk : j = k
    · exact .inr (hjk ▸ hempty)
    · rw [hb.picked j hjk]
      exact hj.imp_left fun hj => (List.mem_cons.mp hj).resolve_left hjk

end

theorem not_picks_of_clear {p : Choice} {b : Body} {k : BlockId} {id : InstrId}
    (h : b.picked p k = []) (hid : id ∈ b.held k) : b.picks p id = false := by
  by_contra hp
  have hmem : id ∈ b.picked p k := List.mem_filter.mpr ⟨hid, Bool.eq_true_of_not_eq_false hp⟩
  rw [h] at hmem
  cases hmem

theorem splitBlocks_clear {b : Body} (hok : b.splitBlocks.error = none) :
    b.splitBlocks.body.layout = b.layout ∧
      ∀ k ∈ b.layout, b.splitBlocks.body.picked .copies k = [] := by
  have hback : ∀ k s id, (Split.instr k s id).error = none → s.error = none := by
    intro k s id h
    by_contra hne
    rw [split_stuck hne] at h
    exact hne h
  rw [splitBlocks_eq] at hok ⊢
  obtain ⟨hlayout, -, hclear⟩ := clear_blocks Split.body Split.instr (·.error = none)
    (fun _ => True) hback (fun _ _ _ hok _ _ _ => split_clears hok) (fun _ _ _ _ _ _ _ h => h)
    b.layout.toList hok trivial fun k hk => Array.mem_toList_iff.mp hk
  exact ⟨hlayout, fun k hk => hclear k (.inl (Array.mem_toList_iff.mpr hk))⟩

theorem lowerBlocks_clear {b : Body} (hb : b.Homed) (hok : b.lowerBlocks.error = none) :
    b.lowerBlocks.body.layout = b.layout ∧ b.lowerBlocks.body.valid = b.valid ∧
      ∀ k ∈ b.layout, b.lowerBlocks.body.picked .localAccesses k = [] := by
  have hback : ∀ k s id, (Lowered.instr k s id).error = none → s.error = none := by
    intro k s id h
    by_contra hne
    rw [lowered_stuck hne] at h
    exact hne h
  have hsettled : b.Settled .localAccesses := by
    intro k hk
    obtain ⟨hnodup, hhome⟩ := hb k hk
    exact ⟨hnodup.filter _, fun id hid => hhome id (List.mem_filter.mp hid).1⟩
  rw [lowerBlocks_eq] at hok ⊢
  obtain ⟨hlayout, hvalid, hclear⟩ := clear_blocks Lowered.body Lowered.instr (·.error = none)
    (Body.Settled .localAccesses) hback
    (fun k s id hok hs hk hid => Lowering.lower_clears (fun hp => (hs k hk).2 id (hid hp)) hok)
    (fun _ _ _ _ hc hid hk hs => hc.settled hid hk hs)
    b.layout.toList hok hsettled fun k hk => Array.mem_toList_iff.mp hk
  exact ⟨hlayout, hvalid, fun k hk => hclear k (.inl (Array.mem_toList_iff.mpr hk))⟩

theorem splitCopies_of_clear {b : Body} (h : ∀ k ∈ b.layout, b.picked .copies k = []) :
    b.splitCopies = ⟨b, false, none⟩ := by
  have hwalk : b.splitBlocks = ⟨b, false, none⟩ := by
    apply foldl_fixed
    intro k hk
    rw [split_block]
    apply foldl_fixed
    intro id hid
    exact split_skip (not_picks_of_clear (h k (Array.mem_toList_iff.mp hk)) hid)
  have hok : b.splitCopies.error = none := by rw [splitCopies_error, hwalk]
  rw [splitCopies_eq hok, hwalk]
  rfl

/-- Lowering leaves a body without local accesses as it is, once its dominance is valid and its
liveness is not. -/
theorem lowerLocals_of_clear {b : Body} (h : ∀ k ∈ b.layout, b.picked .localAccesses k = [])
    (hd : b.valid.dominance = true) (hv : b.valid.liveness = false) :
    b.lowerLocals = ⟨b, .empty, .zero, none⟩ := by
  have hdom : b.dominated = b := by
    have hdiff : (⟨false, true, false⟩ : Analyses).diff b.valid = .none := by
      simp [Analyses.diff, hd, Analyses.none]
    unfold Body.dominated Body.require
    rw [hdiff]
    rfl
  have hwalk : b.lowerBlocks = ⟨b, .empty, .zero, none⟩ := by
    apply foldl_fixed
    intro k hk
    rw [lowered_block]
    apply foldl_fixed
    intro id hid
    exact Lowering.lower_skip (not_picks_of_clear (h k (Array.mem_toList_iff.mp hk)) hid)
  have hok : b.lowerLocals.error = none := by rw [lowerLocals_error, hdom, hwalk]
  have hvalid : b.preserve Body.controlFlowAnalyses = b := by
    have hinter : b.valid.inter Body.controlFlowAnalyses = b.valid := by
      cases hvalid : b.valid with
      | mk index dominance liveness =>
        rw [hvalid] at hv
        simp only at hv
        simp [Analyses.inter, Body.controlFlowAnalyses, hv]
    rw [Body.preserve, hinter]
  rw [lowerLocals_eq hok, hdom, hwalk]
  show (⟨b.preserve _, _, _, _⟩ : Lowered) = _
  rw [hvalid]
  rfl

theorem dominated_valid (b : Body) : b.dominated.valid.dominance = true := by
  rw [Body.dominated, (Body.valid_require b _).1, Bool.or_true]

theorem SameCode.homed {b c : Body} (h : SameCode b c) (hb : b.Homed) : c.Homed := by
  intro k hk
  simpa [h.held, Body.home?, h.instrs] using hb k (h.layout ▸ hk)

theorem SameCode.picked {b c : Body} (h : SameCode b c) (p : Choice) (k : BlockId) :
    c.picked p k = b.picked p k := by
  have hpicks : c.picks p = b.picks p := by
    funext id
    rw [Body.picks, Body.picks, Body.op?, Body.op?, h.instrs, h.links]
  rw [Body.picked, Body.picked, hpicks, h.held]

theorem splitCopies_clear {b : Body} (hok : b.splitCopies.error = none) :
    ∀ k ∈ b.splitCopies.body.layout, b.splitCopies.body.picked .copies k = [] := by
  obtain ⟨hlayout, hclear⟩ := splitBlocks_clear (splitCopies_error b ▸ hok)
  have hsame := splitCopies_body hok
  intro k hk
  rw [hsame.picked]
  exact hclear k (hlayout ▸ hsame.layout ▸ hk)

theorem splitCopies_copyless {b : Body} (hok : b.splitCopies.error = none) :
    ∀ id ∈ b.splitCopies.body.placedInstrs, ∀ dst src,
      b.splitCopies.body.op? id ≠ some (.copy dst src) := by
  intro id hid dst src hop
  obtain ⟨k, hk, hid⟩ := Body.mem_placedInstrs.mp hid
  have hquiet := not_picks_of_clear (splitCopies_clear hok k hk) hid
  simp [Body.picks, hop, Choice.copies] at hquiet

/-- A body that was lowered has no local access left, and a second lowering leaves all of it as it
is. A body whose copies were split has no copy left, and a second splitting leaves it as it is. -/
theorem passes_idempotent (b : Body) :
    (b.Homed → b.lowerLocals.error = none →
      (∀ id ∈ b.lowerLocals.body.placedInstrs, ∀ op ∈ b.lowerLocals.body.op? id,
        ∀ h ∈ op.derefs, isLocal b.lowerLocals.body.links h = false) ∧
      b.lowerLocals.body.lowerLocals = ⟨b.lowerLocals.body, .empty, .zero, none⟩) ∧
    (b.splitCopies.error = none →
      (∀ id ∈ b.splitCopies.body.placedInstrs, ∀ dst src,
        b.splitCopies.body.op? id ≠ some (.copy dst src)) ∧
      b.splitCopies.body.splitCopies = ⟨b.splitCopies.body, false, none⟩) := by
  constructor
  · intro hb hok
    have hcode : SameCode b b.dominated := .require b _
    obtain ⟨hlayout, hvalid, hclear⟩ := lowerBlocks_clear (hcode.homed hb)
      (lowerLocals_error b ▸ hok)
    have hbody : b.lowerLocals.body =
        b.dominated.lowerBlocks.body.preserve Body.controlFlowAnalyses := by
      rw [lowerLocals_eq hok]
    have hsame : SameCode b.dominated.lowerBlocks.body b.lowerLocals.body :=
      hbody ▸ .preserve _ _
    have hclear' : ∀ k ∈ b.lowerLocals.body.layout,
        b.lowerLocals.body.picked .localAccesses k = [] := by
      intro k hk
      rw [hsame.picked]
      exact hclear k (hlayout ▸ hsame.layout ▸ hk)
    constructor
    · intro id hid op hop h hh
      obtain ⟨k, hk, hid⟩ := Body.mem_placedInstrs.mp hid
      have hquiet := not_picks_of_clear (hclear' k hk) hid
      rw [Body.picks, hop] at hquiet
      exact Bool.eq_false_of_not_eq_true (List.any_eq_false.mp hquiet h hh)
    · apply lowerLocals_of_clear hclear'
      · simp [hbody, Body.preserve, Analyses.inter, Body.controlFlowAnalyses, hvalid,
          dominated_valid]
      · simp [hbody, Body.preserve, Analyses.inter, Body.controlFlowAnalyses]
  · intro hok
    exact ⟨splitCopies_copyless hok, splitCopies_of_clear (splitCopies_clear hok)⟩

def staged : Body :=
  let x : Variable := ⟨0, 0, "x", .scalar .float, .local, none⟩
  let g : Variable := ⟨1, 1, "g", .array (.scalar .float) 2, .global, none⟩
  let o : Variable := ⟨2, 2, "o", .array (.scalar .float) 2, .shaderOut, none⟩
  let v : Value := ⟨0, 0, 1, 32⟩
  { links := #[varLink x, varLink g, varLink o]
    instrs := #[⟨.copy (some 2) (some 1), some 0⟩, ⟨.load (some 0) (.value v) 1, some 0⟩,
      ⟨.store (some 0) (.value v) 1, some 0⟩]
    definers := #[some 1]
    blocks := #[⟨0, "entry", [0, 1, 2], [], none, [], [], []⟩]
    layout := #[0]
    valueCount := 1 }

/-- Both passes find something to do in the first run and nothing in the second. -/
theorem staged_idempotent :
    staged.Homed ∧ staged.lowerLocals.error = none ∧ staged.lowerLocals.stats = ⟨1, 1, 1⟩ ∧
      staged.lowerLocals.body.lowerLocals = ⟨staged.lowerLocals.body, .empty, .zero, none⟩ ∧
      staged.splitCopies.error = none ∧ staged.splitCopies.progress = true ∧
      staged.splitCopies.body.splitCopies = ⟨staged.splitCopies.body, false, none⟩ := by
  have hh : staged.Homed := by
    unfold Body.Homed
    decide +kernel
  have hlower : staged.lowerLocals.error = none := by decide +kernel
  have hsplit : staged.splitCopies.error = none := by decide +kernel
  obtain ⟨hl, hs⟩ := passes_idempotent staged
  exact ⟨hh, hlower, by decide +kernel, (hl hh hlower).2, hsplit, by decide +kernel, (hs hsplit).2⟩

def doubled : Body :=
  let x : Variable := ⟨0, 0, "x", .scalar .float, .local, none⟩
  { links := #[varLink x]
    instrs := #[⟨.load (some 0) (.value ⟨0, 0, 1, 32⟩) 1, some 1⟩]
    definers := #[some 0]
    -- both blocks hold the load, which knows only the second
    blocks := #[⟨0, "b0", [0], [], none, [], [], []⟩, ⟨1, "b1", [0], [], none, [], [], []⟩]
    layout := #[0, 1]
    valueCount := 1 }

/-- Lowering takes the shared load out of one block only, and the other keeps a local access. -/
theorem doubled_keeps_access :
    ¬ ∀ b : Body, b.lowerLocals.error = none →
      ∀ id ∈ b.lowerLocals.body.placedInstrs, ∀ op ∈ b.lowerLocals.body.op? id,
        ∀ h ∈ op.derefs, isLocal b.lowerLocals.body.links h = false := by
  intro hall
  have hlocal := hall doubled (by decide +kernel) 0 (by decide +kernel)
    (.load (some 0) (.value ⟨0, 0, 1, 32⟩) 1) (by decide +kernel) (some 0) (by decide)
  exact absurd hlocal (by decide +kernel)

end ShaderIR
