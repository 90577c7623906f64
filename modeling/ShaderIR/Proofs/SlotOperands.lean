import ShaderIR.Proofs.AcyclicArena
import ShaderIR.Proofs.Linearization

/-!
# Register operands are well formed

The slot of a chain has a part that is known beforehand and, from the first index that is only known
at run time, an address that is computed in front of the cursor. When the address is started it
takes over what was added up so far, so the known part stays zero beside it, whatever indices follow
and however the sums wrap. Every step of the computation puts its instruction behind those it reads
from, and the last one defines the address.
-/

set_option autoImplicit false

namespace ShaderIR

open Lowering

def Available (K : Value → Prop) (ops : List Op) (v : Value) : Prop :=
  K v ∨ ∃ op ∈ ops, op.result? = some v

inductive Computed (k : BlockId) (mark : Option InstrId) (K : Value → Prop) (b : Body) :
    List Op → Body → Prop
  | start : Computed k mark K b [] b
  | define {ops : List Op} {c : Body} (h : Computed k mark K b ops c) (op : Op) {n w : Int}
      (hr : op.result? = some (c.fresh n w)) (hu : ∀ v ∈ c.uses op, Available K ops v) :
      Computed k mark K b (ops ++ [op]) (c.addValue.putAt k mark op)

theorem insertBefore_split {id : InstrId} {mark : Option InstrId} {xs ys : List InstrId}
    (hx : ∀ x ∈ xs, mark ≠ some x) (hy : ∀ y ∈ ys.head?, mark = some y) :
    Body.insertBefore id mark (xs ++ ys) = xs ++ id :: ys := by
  induction xs with
  | nil =>
    cases ys with
    | nil => rfl
    | cons y ys => simp [Body.insertBefore, hy y rfl]
  | cons x xs ih =>
    rw [List.cons_append, Body.insertBefore, if_neg (hx x (.head _)),
      ih fun y hy => hx y (.tail _ hy), List.cons_append]

namespace Computed

variable {k : BlockId} {mark : Option InstrId} {K : Value → Prop} {b c : Body} {ops : List Op}

theorem tables (h : Computed k mark K b ops c) : SameTables b c := by
  induction h with
  | start => exact .refl b
  | define _ op _ _ ih =>
    refine ih.trans ?_
    rw [putAt_eq]
    exact ⟨rfl, rfl, rfl⟩

theorem size (h : Computed k mark K b ops c) : c.instrs.size = b.instrs.size + ops.length := by
  induction h with
  | start => rfl
  | define _ op _ _ ih =>
    have hvalue : ∀ c : Body, c.addValue.instrs = c.instrs := fun _ => rfl
    simp [putAt_eq, hvalue, ih, Nat.add_assoc]

theorem op? (h : Computed k mark K b ops c) {i : Nat} {op : Op} (hi : ops[i]? = some op) :
    c.op? (b.instrs.size + i) = some op := by
  induction h with
  | start => simp at hi
  | @define ops c h op' n w hr hu ih =>
    have hinstrs : (c.addValue.putAt k mark op').instrs = c.instrs.push ⟨op', some k⟩ := by
      rw [putAt_eq]
      rfl
    rw [Body.op?, hinstrs]
    by_cases hlt : i < ops.length
    · rw [List.getElem?_append_left hlt] at hi
      rw [push_old _ _ (by rw [h.size]; omega)]
      exact ih hi
    · have hlen := (List.getElem?_eq_some_iff.mp hi).1
      obtain rfl : i = ops.length := by simp at hlen; omega
      obtain rfl : op' = op := by simpa using hi
      simp [← h.size]

theorem emitted (h : Computed k mark K b ops c) :
    b.emitted c = List.range' b.instrs.size ops.length := by
  rw [Body.emitted, h.size, Nat.add_sub_cancel_left]

theorem blocks_size (h : Computed k mark K b ops c) : c.blocks.size = b.blocks.size := by
  induction h with
  | start => rfl
  | define _ op _ _ ih => simpa [putAt_eq, Body.addValue] using ih

theorem held (h : Computed k mark K b ops c) (hk : k < b.blocks.size)
    (hm : ∀ m ∈ mark, m < b.instrs.size) :
    c.held k = (b.held k).takeWhile (fun x => mark ≠ some x) ++ b.emitted c ++
      (b.held k).dropWhile (fun x => mark ≠ some x) := by
  rw [h.emitted]
  induction h with
  | start => simp
  | @define ops c h op n w hr hu ih =>
    have hput : (c.addValue.putAt k mark op).held k =
        Body.insertBefore c.instrs.size mark (c.held k) := by
      have hblock : c.addValue.blocks[k]? = c.blocks[k]? := rfl
      rw [held_putAt, if_pos rfl, Body.held, hblock,
        Array.getElem?_eq_getElem (h.blocks_size ▸ hk)]
      rfl
    rw [hput, ih, insertBefore_split, h.size, List.length_append, List.length_singleton,
      List.range'_1_concat]
    · simp
    · intro x hx
      rcases List.mem_append.mp hx with hx | hx
      · simpa using List.mem_takeWhile_imp hx
      · intro hmark
        exact absurd (hm x hmark) (Nat.not_lt.mpr (List.mem_range'_1.mp hx).1)
    · intro y hy
      have hhead := List.head?_dropWhile_not (fun x => decide (mark ≠ some x)) (b.held k)
      rw [hy] at hhead
      simpa using hhead

theorem covered (h : Computed k mark K b ops c) : Covered K (ops.map b.action) := by
  induction h with
  | start => trivial
  | @define ops c h op n w hr hu ih =>
    rw [List.map_append, Covered.append_iff]
    refine ⟨ih, fun v hv => ?_, trivial⟩
    rw [← h.tables.action, Body.uses_action] at hv
    rcases hu v hv with hK | ⟨o, ho, hres⟩
    · exact .inl hK
    · exact .inr ⟨b.action o, List.mem_map_of_mem ho, by rwa [Body.result?_action]⟩

theorem actions (h : Computed k mark K b ops c) :
    (b.emitted c).filterMap c.action? = ops.map b.action := by
  rw [h.emitted]
  refine filterMap_range' fun i op hi => ?_
  rw [Body.action?, h.op? hi, Option.map_some, h.tables.action]

theorem last (h : Computed k mark K b ops c) {v : Value}
    (hv : ops.getLast?.bind Op.result? = some v) :
    ∃ others i, b.emitted c = others ++ [i] ∧ c.definer? v = some i ∧
      (c.op? i).bind Op.result? = some v := by
  rw [h.emitted]
  cases h with
  | start => simp at hv
  | @define ops c h op n w hr hu =>
    rw [List.getLast?_concat, Option.bind_some, hr] at hv
    obtain rfl := Option.some.inj hv
    refine ⟨List.range' b.instrs.size ops.length, c.instrs.size, ?_, ?_, ?_⟩
    · rw [List.length_append, List.length_singleton, List.range'_1_concat, h.size]
    · simp only [putAt_eq, hr, Body.definer?, Array.getElem?_modify]
      simp [Body.fresh, Body.addValue]
    · have hop : (c.addValue.putAt k mark op).op? (b.instrs.size + ops.length) = some op :=
        (h.define op hr hu).op? (by simp)
      rw [h.size, hop, Option.bind_some, hr]

theorem available_mono {more : List Op} {v : Value} (h : Available K ops v) :
    Available K (ops ++ more) v :=
  h.imp_right fun ⟨op, ho, hr⟩ => ⟨op, List.mem_append_left _ ho, hr⟩

end Computed

section

variable {k : BlockId} {mark : Option InstrId} {K : Value → Prop} {b c : Body} {ops : List Op}

def Yields (k : BlockId) (mark : Option InstrId) (K : Value → Prop) (b : Body) (ops : List Op)
    (r : Value × Body) : Prop :=
  ∃ more, Computed k mark K b (ops ++ more) r.2 ∧ Available K (ops ++ more) r.1

theorem Computed.yields (h : Computed k mark K b ops c) {v : Value} (hv : Available K ops v) :
    Yields k mark K b ops (v, c) :=
  ⟨[], by simpa using h, by simpa using hv⟩

theorem uses_alu (c : Body) (op : AluOp) (srcs : List Operand) (v : Value) (mask : UInt8) :
    c.uses (.alu op srcs (.value v) mask) = srcs.flatMap (Operand.uses c.slot) := by
  simp [Body.uses, Op.uses, Op.srcs, Op.slotDest?, Dest.slot?, Op.derefs]

theorem Computed.alu (h : Computed k mark K b ops c) (op : AluOp) (srcs : List Operand) (n w : Int)
    (hs : ∀ v ∈ srcs.flatMap (Operand.uses c.slot), Available K ops v) :
    Yields k mark K b ops ((⟨some k, mark⟩ : Cursor).aluInto op srcs n w c) := by
  refine ⟨[.alu op srcs (.value (c.fresh n w)) (fullMask n)], h.define _ rfl ?_, ?_⟩
  · rwa [uses_alu]
  · exact .inr ⟨_, List.mem_append_right _ (.head _), rfl⟩

theorem Computed.valueOf (h : Computed k mark K b ops c) {index : Operand}
    (hi : ∀ v ∈ index.uses b.slot, K v) :
    Yields k mark K b ops ((⟨some k, mark⟩ : Cursor).valueOf index 1 c) := by
  have hslot : c.slot = b.slot := by
    funext s
    simp [Body.slot, h.tables.slots]
  have hmov : ∀ w, Yields k mark K b ops ((⟨some k, mark⟩ : Cursor).mov index 1 w c) := fun w =>
    h.alu .mov [index] 1 w fun v hv => .inl (hi v (by simpa [hslot] using hv))
  cases index with
  | missing => exact hmov 32
  | value v => exact h.yields (.inl (hi v (by simp [Operand.uses])))
  | slot s => exact hmov _

theorem Computed.u2u32 (h : Computed k mark K b ops c) {x : Value} (hx : Available K ops x) :
    Yields k mark K b ops ((⟨some k, mark⟩ : Cursor).u2u32 x c) := by
  by_cases hbits : x.bits = 32
  · rw [Cursor.u2u32, if_pos hbits]
    exact h.yields hx
  · rw [Cursor.u2u32, if_neg hbits]
    exact h.alu .u2u32 [.value x] x.components 32 (by simpa [Operand.uses] using hx)

theorem Computed.imm (h : Computed k mark K b ops c) (n w : Int) :
    Yields k mark K b ops ((⟨some k, mark⟩ : Cursor).imm n w c) := by
  refine ⟨[.const (c.fresh 1 w) [Cursor.word n]], h.define _ rfl ?_, ?_⟩
  · simp [Body.uses, Op.uses, Op.srcs, Op.slotDest?, Op.derefs]
  · exact .inr ⟨_, List.mem_append_right _ (.head _), rfl⟩

theorem Computed.imul (h : Computed k mark K b ops c) {x y : Value} (hx : Available K ops x)
    (hy : Available K ops y) : Yields k mark K b ops ((⟨some k, mark⟩ : Cursor).imul x y c) :=
  h.alu .imul [.value x, .value y] x.components x.bits (by simp [Operand.uses, hx, hy])

/-- The code that adds an index to a sum ends with the new sum, which is shaped like the old one. -/
theorem Computed.accumulate (h : Computed k mark K b ops c) {sum : Value}
    (hs : Available K ops sum) {index : Operand} (hi : ∀ v ∈ index.uses b.slot, K v)
    (stride : Int) :
    ∃ more op total d, Lowering.accumulate ⟨some k, mark⟩ sum index stride c = (total, d) ∧
      Computed k mark K b (ops ++ more ++ [op]) d ∧ op.result? = some total ∧
      total.components = sum.components ∧ total.bits = sum.bits := by
  rw [accumulate_run]
  dsimp only
  obtain ⟨moved, h₁, hv⟩ := h.valueOf hi
  generalize (⟨some k, mark⟩ : Cursor).valueOf index 1 c = r at h₁ hv ⊢
  obtain ⟨cut, h₂, hx⟩ := h₁.u2u32 hv
  generalize (⟨some k, mark⟩ : Cursor).u2u32 r.1 r.2 = i at h₂ hx ⊢
  obtain ⟨factor, h₃, hn⟩ := h₂.imm stride 32
  generalize (⟨some k, mark⟩ : Cursor).imm stride 32 i.2 = n at h₃ hn ⊢
  obtain ⟨product, h₄, hp⟩ := h₃.imul (available_mono hx) hn
  generalize (⟨some k, mark⟩ : Cursor).imul i.1 n.1 n.2 = p at h₄ hp ⊢
  have hsum : Available K (ops ++ moved ++ cut ++ factor ++ product) sum :=
    available_mono (available_mono (available_mono (available_mono hs)))
  have hreads : ∀ v ∈ [Operand.value sum, .value p.1].flatMap (Operand.uses p.2.slot),
      Available K (ops ++ moved ++ cut ++ factor ++ product) v := by
    intro v hv
    obtain rfl | rfl : v = sum ∨ v = p.1 := by simpa [Operand.uses] using hv
    · exact hsum
    · exact hp
  refine ⟨moved ++ cut ++ factor ++ product, .alu .iadd [.value sum, .value p.1]
    (.value (p.2.fresh sum.components sum.bits)) (fullMask sum.components), _, _, rfl, ?_, rfl, rfl,
    rfl⟩
  rw [← List.append_assoc, ← List.append_assoc, ← List.append_assoc]
  exact h₄.define _ rfl (by rwa [uses_alu])

/-- What holds of the slot while the indices of a chain are added: the known part is zero beside an
address, and an address has 32 bits and one component and was defined last. Without an address
nothing was put in. -/
structure Addressed (k : BlockId) (mark : Option InstrId) (K : Value → Prop) (b : Body)
    (ops : List Op) (slot : Slot) (c : Body) : Prop where
  code : Computed k mark K b ops c
  folded : slot.Folded
  shape : ∀ v ∈ slot.indirect, v.bits = 32 ∧ v.components = 1
  last : ∀ v ∈ slot.indirect, ops.getLast?.bind Op.result? = some v
  idle : slot.indirect = none → ops = []

theorem Addressed.addIndex {slot : Slot} (h : Addressed k mark K b ops slot c) {index : Operand}
    (hi : ∀ v ∈ index.uses b.slot, K v) (stride : Int) :
    ∃ slot' ops' c', Lowering.addIndex ⟨some k, mark⟩ slot index stride c = (.ok slot', c') ∧
      slot'.reg = slot.reg ∧ Addressed k mark K b ops' slot' c' := by
  rw [addIndex_run]
  cases hslot : slot.indirect with
  | some sum =>
    -- A further index: the guard holds because the known part is zero.
    have hbase : slot.base = 0 := h.folded (by rw [hslot]; rfl)
    have hsum : Available K ops sum := by
      obtain ⟨op, hop, hr⟩ := Option.bind_eq_some_iff.mp (h.last sum hslot)
      exact .inr ⟨op, List.mem_of_getLast? hop, hr⟩
    obtain ⟨more, op, total, d, hrun, hcode, hr, hn, hw⟩ := h.code.accumulate hsum hi stride
    obtain ⟨hbits, hcomponents⟩ := h.shape sum hslot
    simp only [hbase, if_true, hrun]
    refine ⟨_, _, _, rfl, rfl, hcode, fun _ => rfl, ?_, ?_, by simp⟩
    · simp [hn, hw, hbits, hcomponents]
    · simp [hr]
  | none =>
    obtain rfl := h.idle hslot
    cases hk : c.constant? index with
    | some n =>
      refine ⟨_, _, _, rfl, rfl, h.code, ?_, ?_, ?_, fun _ => rfl⟩
      · simp [Slot.Folded]
      · simp
      · simp
    | none =>
      -- The first index of the address takes over the known part.
      obtain ⟨start, h₁, hz⟩ := h.code.imm slot.base 32
      obtain ⟨more, op, total, d, hrun, hcode, hr, hn, hw⟩ := h₁.accumulate hz hi stride
      simp only [hrun]
      refine ⟨_, _, _, rfl, rfl, hcode, fun _ => rfl, ?_, ?_, by simp⟩
      · rintro v ⟨⟩
        exact ⟨hw, hn⟩
      · simp [hr]

/-- The indices of a chain are added one after the other. -/
theorem Addressed.addIndices {slot : Slot} (h : Addressed k mark K b ops slot c) (links : List Link)
    (hi : ∀ v ∈ links.flatMap (·.kind.uses b.slot), K v) (stride : Int) :
    ∃ slot' ops' c', Lowering.addIndices ⟨some k, mark⟩ links stride slot c = (.ok slot', c') ∧
      slot'.reg = slot.reg ∧ Addressed k mark K b ops' slot' c' := by
  induction links generalizing slot ops c stride with
  | nil => exact ⟨slot, ops, c, rfl, rfl, h⟩
  | cons link rest ih =>
    have hrest : ∀ v ∈ rest.flatMap (·.kind.uses b.slot), K v := fun v hv =>
      hi v (List.mem_append_right _ hv)
    cases hk : link.kind with
    | array index =>
      have hindex : ∀ v ∈ index.uses b.slot, K v := fun v hv =>
        hi v (List.mem_append_left _ (by simpa [hk, LinkKind.uses] using hv))
      obtain ⟨slot₁, ops₁, c₁, hrun, hreg, h₁⟩ := h.addIndex hindex stride
      obtain ⟨slot₂, ops₂, c₂, hrun', hreg', h₂⟩ := ih h₁ hrest _
      refine ⟨slot₂, ops₂, c₂, ?_, hreg'.trans hreg, h₂⟩
      simp only [Lowering.addIndices, hk]
      rw [exceptT_bind, hrun]
      exact hrun'
    | _ =>
      simp only [Lowering.addIndices, hk]
      exact ih h hrest stride

end

structure RegisterOperand (b : Body) (k : BlockId) (mark : Option InstrId) (h : Handle)
    (reg : Register) (slot : Slot) (c : Body) : Prop where
  register : slot.reg = some reg
  single : reg.arrayElems = 0 → slot.base = 0 ∧ slot.indirect = none
  folded : slot.Folded
  shape : ∀ v ∈ slot.indirect, v.bits = 32 ∧ v.components = 1
  /-- What was put in stands at the cursor. -/
  placed : c.held k = (b.held k).takeWhile (fun x => mark ≠ some x) ++ b.emitted c ++
    (b.held k).dropWhile (fun x => mark ≠ some x)
  /-- Each instruction stands behind those whose values it reads. Other values come from the
  indices of the chain. -/
  ordered : Covered (· ∈ (chain b.links h).flatMap (·.kind.uses b.slot))
    ((b.emitted c).filterMap c.action?)
  /-- The address is what the last instruction defines. -/
  defined : ∀ v ∈ slot.indirect, ∃ others i, b.emitted c = others ++ [i] ∧ c.definer? v = some i ∧
    (c.op? i).bind Op.result? = some v
  idle : slot.indirect = none → b.emitted c = []

/-- The slot of a chain is always found, and it is a well-formed operand. The chain is walked to its
root for it, as the arena has no cycles. -/
theorem linearize_operand {b : Body} (ha : Acyclic b.links) (h : Handle) (reg : Register)
    {k : BlockId} (hk : k < b.blocks.size) {mark : Option InstrId}
    (hm : ∀ m ∈ mark, m < b.instrs.size) :
    Walks b.links h (chain b.links h) ∧
    ∃ slot c, (linearize ⟨some k, mark⟩ h reg).run b = (.ok slot, c) ∧
      RegisterOperand b k mark h reg slot c := by
  refine ⟨ha.walks h, ?_⟩
  have hstart : Addressed k mark (· ∈ (chain b.links h).flatMap (·.kind.uses b.slot)) b []
      ⟨some reg, 0, none⟩ b := ⟨.start, by simp [Slot.Folded], by simp, by simp, fun _ => rfl⟩
  obtain ⟨slot, ops, c, hrun, hreg, haddr, hsingle⟩ : ∃ slot ops c,
      (linearize ⟨some k, mark⟩ h reg).run b = (.ok slot, c) ∧ slot.reg = some reg ∧
      Addressed k mark (· ∈ (chain b.links h).flatMap (·.kind.uses b.slot)) b ops slot c ∧
      (reg.arrayElems = 0 → slot.base = 0 ∧ slot.indirect = none) := by
    by_cases helems : reg.arrayElems = 0
    · refine ⟨⟨some reg, 0, none⟩, [], b, ?_, rfl, hstart, fun _ => ⟨rfl, rfl⟩⟩
      simp only [linearize, helems, if_true]
      rfl
    · obtain ⟨slot, ops, c, hrun, hreg, haddr⟩ :=
        hstart.addIndices (chain b.links h) (fun _ hv => hv) 1
      refine ⟨slot, ops, c, ?_, hreg, haddr, fun hz => absurd hz helems⟩
      simp only [linearize, helems, if_false]
      exact hrun
  refine ⟨slot, c, hrun, hreg, hsingle, haddr.folded, haddr.shape, haddr.code.held hk hm, ?_,
    fun v hv => haddr.code.last (haddr.last v hv), fun hnone => ?_⟩
  · rw [haddr.code.actions]
    exact haddr.code.covered
  · rw [haddr.code.emitted, haddr.idle hnone]
    rfl

def mixedStore : Body :=
  let row : Ty := .array (.scalar .uint) 4
  let a : Variable := ⟨0, 0, "a", .array (.array row 2) 3, .local, none⟩
  let r : Register := ⟨0, 0, 1, 16, 0⟩
  let outer : Value := ⟨0, 0, 1, 64⟩
  let inner : Value := ⟨1, 1, 1, 32⟩
  { links := #[varLink a, ⟨.array (.value outer), some 0, .array row 2, .local⟩,
      ⟨.array (.slot 0), some 1, row, .local⟩,
      ⟨.array (.value inner), some 2, .scalar .uint, .local⟩]
    slots := #[⟨some r, 0, none⟩]
    -- the store is to `a[1][r][2]`
    instrs := #[⟨.const outer [1], some 0⟩, ⟨.const inner [2], some 0⟩,
      ⟨.store (some 3) (.value inner) 1, some 0⟩]
    definers := #[some 0, some 1]
    blocks := #[⟨0, "entry", [0, 1, 2], [], none, [], [], []⟩]
    layout := #[0]
    registers := #[r]
    registerCount := 1
    valueCount := 2 }

/-- The inner index is taken over into the address, and the outer one is added to it. Both are in
the ten instructions in front of the store. -/
theorem mixedStore_operand :
    let reg : Register := ⟨1, 1, 1, 32, 24⟩
    ∃ slot c, (linearize ⟨some 0, some 2⟩ (some 3) reg).run mixedStore = (.ok slot, c) ∧
      slot.indirect = some ⟨11, 11, 1, 32⟩ ∧ c.held 0 = [0, 1] ++ List.range' 3 10 ++ [2] ∧
      RegisterOperand mixedStore 0 (some 2) (some 3) reg slot c := by
  intro reg
  have hacyclic : Acyclic mixedStore.links := Descending.acyclic (by decide)
  have hblock : 0 < mixedStore.blocks.size := by decide
  have hmark : ∀ m ∈ some 2, m < mixedStore.instrs.size := by decide
  obtain ⟨-, slot, c, hrun, hoperand⟩ := linearize_operand hacyclic (some 3) reg hblock hmark
  have hslot : ((linearize ⟨some 0, some 2⟩ (some 3) reg).run mixedStore).1.map Slot.indirect =
      .ok (some ⟨11, 11, 1, 32⟩) := by decide +kernel
  have hheld : ((linearize ⟨some 0, some 2⟩ (some 3) reg).run mixedStore).2.held 0 =
      [0, 1] ++ List.range' 3 10 ++ [2] := by decide +kernel
  rw [hrun] at hslot hheld
  exact ⟨slot, c, hrun, by simpa [Except.map] using hslot, hheld, hoperand⟩

end ShaderIR
