import ShaderIR.Builder
import ShaderIR.Lowering.RegisterTable

/-!
# Slots in row-major order

The slot of a chain is the sum of its indices, each times the number of slots below it. Constant
indices are added up beforehand until the first index that is known only at run time; from there on
the sum is computed by emitted instructions, in 32 bits.
-/

set_option autoImplicit false

namespace ShaderIR.Lowering

open Text

abbrev Step := ExceptT LowerError Edit

def accumulate (c : Cursor) (sum : Value) (index : Operand) (stride : Int) : Edit Value := do
  let i ← c.valueOf index 1
  let i ← c.u2u32 i
  let n ← c.imm stride 32
  let term ← c.imul i n
  c.iadd sum term

/-- Adds one index to the slot. A constant counts by its low 32 bits. -/
def addIndex (c : Cursor) (slot : Slot) (index : Operand) (stride : Int) : Step Slot := do
  match slot.indirect, (← get).constant? index with
  | none, some k =>
    return { slot with base := wrap64 (slot.base + (k.toNat % 0x100000000 : Nat) * stride) }
  | none, none =>
    let start ← c.imm slot.base 32
    let sum ← accumulate c start index stride
    return { slot with base := 0, indirect := some sum }
  | some sum, _ =>
    if slot.base = 0 then
      let sum ← accumulate c sum index stride
      return { slot with indirect := some sum }
    else throw (.unfoldedOffset slot.base)

/-- Adds the indices of a chain from its end, where `stride` slots lie below the next index. -/
def addIndices (c : Cursor) : List Link → Int → Slot → Step Slot
  | [], _, slot => pure slot
  | link :: rest, stride, slot =>
    match link.kind with
    | .array index => do
      let slot ← addIndex c slot index stride
      addIndices c rest (wrap64 (stride * (headType rest).length)) slot
    | _ => addIndices c rest stride slot

def linearize (c : Cursor) (h : Handle) (reg : Register) : Step Slot := do
  let slot : Slot := ⟨some reg, 0, none⟩
  if reg.arrayElems = 0 then return slot
  else addIndices c (chain (← get).links h) 1 slot

end ShaderIR.Lowering
