import ShaderIR.Body

/-!
# Emitting instructions

A cursor is a place in a block. Each function below makes one instruction and puts it at the
cursor, which stays in front of the same instruction, so that what is emitted first runs first.
-/

set_option autoImplicit false

namespace ShaderIR

/-- In front of `before` in a block, or at the end of the block. -/
structure Cursor where
  block : Option BlockId
  before : Option InstrId
  deriving DecidableEq, Repr, Inhabited

namespace Cursor

def nowhere : Cursor := ⟨none, none⟩

def atEnd (block : BlockId) : Cursor := ⟨some block, none⟩

def beforeInstr (b : Body) (id : InstrId) : Cursor :=
  ⟨b.instrs[id]?.bind (·.block), some id⟩

def put (c : Cursor) (id : InstrId) : Edit Unit :=
  match c.block with
  | some block => Body.place id block c.before
  | none => pure ()

def insert (c : Cursor) (op : Op) : Edit InstrId := do
  let id ← Body.newInstr op
  c.put id
  return id

def word (n : Int) : UInt64 := UInt64.ofInt n

def const (c : Cursor) (values : List UInt64) (bits : Int) : Edit Value := do
  let v ← Body.newValue values.length bits
  let _ ← c.insert (.const v values)
  return v

def imm (c : Cursor) (n : Int) (bits : Int) : Edit Value :=
  c.const [word n] bits

def aluInto (c : Cursor) (op : AluOp) (srcs : List Operand) (components bits : Int) :
    Edit Value := do
  let v ← Body.newValue components bits
  let _ ← c.insert (.alu op srcs (.value v) (fullMask components))
  return v

def alu (c : Cursor) (op : AluOp) (srcs : List Operand) : Edit Value :=
  let shape := (srcs.head?.bind Operand.value?).getD default
  c.aluInto op srcs shape.components shape.bits

def iadd (c : Cursor) (x y : Value) : Edit Value := c.alu .iadd [.value x, .value y]

def imul (c : Cursor) (x y : Value) : Edit Value := c.alu .imul [.value x, .value y]

def u2u32 (c : Cursor) (x : Value) : Edit Value :=
  if x.bits = 32 then pure x else c.aluInto .u2u32 [.value x] x.components 32

def mov (c : Cursor) (src : Operand) (components bits : Int) : Edit Value :=
  c.aluInto .mov [src] components bits

/-- The operand as a value. A register slot is copied out first, at the width of its register. -/
def valueOf (c : Cursor) (src : Operand) (components : Int) : Edit Value := do
  match src with
  | .value v => pure v
  | .slot s => c.mov src components (match ((← get).slot s).reg with | some r => r.bits | none => 32)
  | .missing => c.mov src components 32

def load (c : Cursor) (h : Handle) (components bits : Int) : Edit Value := do
  let v ← Body.newValue components bits
  let _ ← c.insert (.load h (.value v) components)
  return v

def store (c : Cursor) (h : Handle) (value : Operand) (mask : UInt8) : Edit Unit := do
  let _ ← c.insert (.store h value mask)

end Cursor

end ShaderIR
