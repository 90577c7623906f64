import ShaderIR.Proofs.AcyclicArena
import ShaderIR.Proofs.Replacement

/-!
# Uses and their replacement agree

The uses of an instruction are found from the instruction: its operands, the slot that it writes and
the links that it meets on its chains. They are replaced from the body: the instructions of the
blocks, the whole arena, and the slots that these name. Both cover the same places. So afterwards
each instruction uses what it used before with one value in the place of another, and nothing but
the places of the old value is changed.
-/

set_option autoImplicit false

namespace ShaderIR

def Operand.Redirected (old new : Value) (o o' : Operand) : Prop :=
  (o = .value old ∧ o' = .value new) ∨ (o ≠ .value old ∧ o' = o)

structure Slot.Redirected (old new : Value) (s s' : Slot) : Prop where
  reg : s'.reg = s.reg
  base : s'.base = s.base
  indirect : (s.indirect = some old ∧ s'.indirect = some new) ∨
    (s.indirect ≠ some old ∧ s'.indirect = s.indirect)

inductive LinkKind.Redirected (old new : Value) : LinkKind → LinkKind → Prop
  | var (v : Variable) : Redirected old new (.var v) (.var v)
  | array {o o' : Operand} (h : o.Redirected old new o') : Redirected old new (.array o) (.array o')
  | struct (field : Nat) : Redirected old new (.struct field) (.struct field)
  | cast : Redirected old new .cast .cast

structure Link.Redirected (old new : Value) (l l' : Link) : Prop where
  kind : l.kind.Redirected old new l'.kind
  parent : l'.parent = l.parent
  type : l'.type = l.type
  mode : l'.mode = l.mode

inductive Op.Redirected (old new : Value) : Op → Op → Prop
  | alu (op : AluOp) {srcs srcs' : List Operand} (dest : Dest) (mask : UInt8)
      (h : List.Forall₂ (Operand.Redirected old new) srcs srcs') :
      Redirected old new (.alu op srcs dest mask) (.alu op srcs' dest mask)
  | const (result : Value) (values : List UInt64) :
      Redirected old new (.const result values) (.const result values)
  | load (deref : Handle) (dest : Dest) (components : Int) :
      Redirected old new (.load deref dest components) (.load deref dest components)
  | store (deref : Handle) {value value' : Operand} (mask : UInt8)
      (h : value.Redirected old new value') :
      Redirected old new (.store deref value mask) (.store deref value' mask)
  | copy (dst src : Handle) : Redirected old new (.copy dst src) (.copy dst src)
  | intrinsic (name : String) {srcs srcs' : List Operand} (dest : Option Dest)
      (h : List.Forall₂ (Operand.Redirected old new) srcs srcs') :
      Redirected old new (.intrinsic name srcs dest) (.intrinsic name srcs' dest)

structure Instr.Redirected (old new : Value) (i i' : Instr) : Prop where
  op : i.op.Redirected old new i'.op
  block : i'.block = i.block

structure Body.UsesReplaced (old new : Value) (b b' : Body) : Prop where
  uses : ∀ id ∈ b.placedInstrs, ∀ op ∈ b.op? id, ∃ op' ∈ b'.op? id,
    b'.uses op' = (b.uses op).map fun v => if v = old then new else v
  unused : ∀ id ∈ b'.placedInstrs, ∀ op ∈ b'.op? id, old ∉ b'.uses op
  instrs : ∀ id ∈ b.placedInstrs,
    Option.Rel (Instr.Redirected old new) b.instrs[id]? b'.instrs[id]?
  other_instrs : ∀ id, id ∉ b.placedInstrs → b'.instrs[id]? = b.instrs[id]?
  slots : ∀ s ∈ b.namedSlots, Option.Rel (Slot.Redirected old new) b.slots[s]? b'.slots[s]?
  other_slots : ∀ s, s ∉ b.namedSlots → b'.slots[s]? = b.slots[s]?
  links : List.Forall₂ (Link.Redirected old new) b.links.toList b'.links.toList
  rest : { b' with instrs := b.instrs, slots := b.slots, links := b.links } = b

section

variable (old new : Value)

theorem Operand.redirected_replace (o : Operand) : o.Redirected old new (o.replace old new) := by
  cases o with
  | missing => exact .inr ⟨by simp, rfl⟩
  | slot s => exact .inr ⟨by simp, rfl⟩
  | value v =>
    by_cases hv : v = old
    · subst hv
      exact .inl ⟨rfl, congrArg _ (Value.replace_old v new)⟩
    · exact .inr ⟨fun heq => hv (Operand.value.inj heq), congrArg _ (Value.replace_of_ne hv)⟩

theorem Operand.redirected_map (os : List Operand) :
    List.Forall₂ (Operand.Redirected old new) os (os.map (Operand.replace old new)) := by
  induction os with
  | nil => exact .nil
  | cons o os ih => exact .cons (o.redirected_replace old new) ih

theorem Slot.redirected_replace (s : Slot) : s.Redirected old new (s.replace old new) := by
  refine ⟨rfl, rfl, ?_⟩
  cases hs : s.indirect with
  | none => exact .inr ⟨by simp, by simp [Slot.replace, hs]⟩
  | some v =>
    by_cases hv : v = old
    · subst hv
      exact .inl ⟨rfl, by simp [Slot.replace, hs, Value.replace_old]⟩
    · exact .inr ⟨by simpa using hv, by simp [Slot.replace, hs, Value.replace_of_ne hv]⟩

theorem Link.redirected_replace (l : Link) : l.Redirected old new (l.replace old new) := by
  refine ⟨?_, l.replace_parent old new, l.replace_type old new, l.replace_mode old new⟩
  rw [Link.replace_kind]
  cases l.kind with
  | var v => exact .var v
  | array o => exact .array (o.redirected_replace old new)
  | struct field => exact .struct field
  | cast => exact .cast

theorem Op.redirected_replace (op : Op) : op.Redirected old new (op.replace old new) := by
  cases op with
  | alu op srcs dest mask => exact .alu op dest mask (Operand.redirected_map old new srcs)
  | const v values => exact .const v values
  | load h dest n => exact .load h dest n
  | store h v mask => exact .store h mask (v.redirected_replace old new)
  | copy d s => exact .copy d s
  | intrinsic name srcs dest => exact .intrinsic name dest (Operand.redirected_map old new srcs)

theorem redirected_links (links : Array Link) :
    List.Forall₂ (Link.Redirected old new) links.toList
      (links.map (Link.replace old new)).toList := by
  rw [Array.toList_map]
  induction links.toList with
  | nil => exact .nil
  | cons l ls ih => exact .cons (l.redirected_replace old new) ih

/-- Each instruction of a block uses the new value where it used the old one. -/
theorem uses_replaceUses (b : Body) {id : InstrId} (hid : id ∈ b.placedInstrs) {op : Op}
    (hop : op ∈ b.op? id) : ∃ op' ∈ (Body.replaceUses old new b).2.op? id,
      (Body.replaceUses old new b).2.uses op' = (b.uses op).map (Value.replace old new) := by
  obtain ⟨op', hop', -, -, haction⟩ := (redirects_replaceUses old new b).op id hid op hop
  refine ⟨op', hop', ?_⟩
  rw [← Body.uses_action, haction, Action.mapUses, Action.uses_rename, Body.uses_action]

theorem instrs_replaceUses (b : Body) {id : InstrId} (hid : id ∈ b.placedInstrs) :
    Option.Rel (Instr.Redirected old new) b.instrs[id]?
      (Body.replaceUses old new b).2.instrs[id]? := by
  rw [getElem?_instrs_replaceUses, if_pos hid]
  cases b.instrs[id]? with
  | none => exact .none
  | some i => exact .some ⟨i.op.redirected_replace old new, rfl⟩

theorem slots_replaceUses (b : Body) {s : SlotId} (hs : s ∈ b.namedSlots) :
    Option.Rel (Slot.Redirected old new) b.slots[s]? (Body.replaceUses old new b).2.slots[s]? := by
  rw [getElem?_slots_replaceUses, if_pos hs]
  cases b.slots[s]? with
  | none => exact .none
  | some slot => exact .some (slot.redirected_replace old new)

end

/-- The blocks hold the same instructions, so an operation that is found afterwards comes from one
that was there. -/
theorem exists_op_of_replaceUses {old new : Value} {b : Body} {id : InstrId}
    (hid : id ∈ b.placedInstrs) {op' : Op} (hop' : op' ∈ (Body.replaceUses old new b).2.op? id) :
    ∃ op ∈ b.op? id, (Body.replaceUses old new b).2.uses op' =
      (b.uses op).map (Value.replace old new) := by
  have hthere : ∃ op, op ∈ b.op? id := by
    simp only [Body.op?, getElem?_instrs_replaceUses, if_pos hid, Option.map_map] at hop'
    obtain ⟨i, hi, -⟩ := Option.map_eq_some_iff.mp hop'
    exact ⟨i.op, by simp [Body.op?, hi]⟩
  obtain ⟨op, hop⟩ := hthere
  obtain ⟨op'', hop'', huses⟩ := uses_replaceUses old new b hid hop
  obtain rfl : op'' = op' := Option.some.inj (hop''.symm.trans hop')
  exact ⟨op, hop, huses⟩

theorem usesReplaced_replaceUses (b : Body) {old new : Value} (hne : old ≠ new) :
    b.UsesReplaced old new (Body.replaceUses old new b).2 where
  uses _ hid _ hop := uses_replaceUses old new b hid hop
  unused id hid op' hop' hmem := by
    rw [(redirects_replaceUses old new b).placedInstrs] at hid
    obtain ⟨op, -, huses⟩ := exists_op_of_replaceUses hid hop'
    rw [huses] at hmem
    obtain ⟨v, -, hv⟩ := List.mem_map.mp hmem
    by_cases hold : v = old
    · rw [hold, Value.replace_old] at hv
      exact hne hv.symm
    · rw [Value.replace_of_ne hold] at hv
      exact hold hv
  instrs _ hid := instrs_replaceUses old new b hid
  other_instrs id hid := by rw [getElem?_instrs_replaceUses, if_neg hid]
  slots _ hs := slots_replaceUses old new b hs
  other_slots s hs := by rw [getElem?_slots_replaceUses, if_neg hs]
  links := redirected_links old new b.links
  rest := rfl

/-- Replacing the uses of a value agrees with finding them. In an arena without cycles every chain
is walked to its root for this, before and after. -/
theorem replaceUses_agrees {b : Body} (ha : Acyclic b.links) {old new : Value} (hne : old ≠ new) :
    b.UsesReplaced old new ((Body.replaceUses old new).run b).2 ∧
    ∀ h, Walks b.links h (chain b.links h) ∧
      Walks ((Body.replaceUses old new).run b).2.links h
        (chain ((Body.replaceUses old new).run b).2.links h) := by
  refine ⟨usesReplaced_replaceUses b hne, fun h => ⟨ha.walks h, ?_⟩⟩
  have hlinks : ((Body.replaceUses old new).run b).2.links =
      b.links.map (Link.replace old new) := rfl
  rw [hlinks]
  exact (ha.map (Link.replace_parent old new)).walks h

def woven : Body :=
  let row : Ty := .array (.scalar .uint) 2
  let a : Variable := ⟨0, 0, "a", .array row 3, .local, none⟩
  let r : Register := ⟨0, 0, 1, 32, 4⟩
  let index : Value := ⟨0, 0, 1, 32⟩
  let read : Value := ⟨2, 2, 1, 32⟩
  -- no link stands behind its parent
  { links := #[⟨.array (.slot 0), some 1, .scalar .uint, .local⟩,
      ⟨.array (.value index), some 2, row, .local⟩, varLink a]
    slots := #[⟨some r, 1, some index⟩, ⟨some r, 2, some index⟩]
    instrs := #[⟨.const index [1], some 0⟩, ⟨.const ⟨1, 1, 1, 32⟩ [0], some 0⟩,
      ⟨.alu .mov [.value index] (.slot 1) 1, some 0⟩, ⟨.load (some 0) (.value read) 1, some 0⟩,
      ⟨.store (some 0) (.value read) 1, some 0⟩, ⟨.copy (some 0) (some 1), some 0⟩,
      ⟨.intrinsic "emit" [.slot 0, .value index] (some (.slot 1)), some 0⟩]
    definers := #[some 0, some 1, some 3]
    blocks := #[⟨0, "entry", [0, 1, 2, 3, 4, 5, 6], [], none, [], [], []⟩]
    layout := #[0]
    registers := #[r]
    registerCount := 1
    valueCount := 3 }

/-- The operand, the written slot and both indices of the chain count as uses of the old value. -/
theorem woven_replaced : Acyclic woven.links ∧
    (woven.placedInstrs.filterMap woven.op?).map (fun op => (woven.uses op).map Value.serial) =
      [[], [], [0, 0], [0, 0], [2, 0, 0], [0, 0, 0], [0, 0, 0]] ∧
    woven.UsesReplaced ⟨0, 0, 1, 32⟩ ⟨1, 1, 1, 32⟩
      ((Body.replaceUses ⟨0, 0, 1, 32⟩ ⟨1, 1, 1, 32⟩).run woven).2 := by
  have hacyclic : Acyclic woven.links := by
    refine acyclic_of_rank (3 - ·) fun h p hp => ?_
    obtain ⟨link, hl, -⟩ := Option.bind_eq_some_iff.mp hp
    have hlt : h < 3 := (Array.getElem?_eq_some_iff.mp hl).1
    have hall : ∀ h < 3, ∀ p ∈ woven.links[h]?.bind Link.parent, 3 - p < 3 - h := by decide
    exact hall h hlt p hp
  exact ⟨hacyclic, by decide, (replaceUses_agrees hacyclic (by decide)).1⟩

end ShaderIR
