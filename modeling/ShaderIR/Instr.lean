import ShaderIR.Variable

/-!
# Instructions

Values and registers are plain data: a serial number that is handed out once for the whole shader
tells them apart, and an index numbers them within their function. An instruction reads operands and
deref chains and writes at most one destination. Instructions may share a register slot, so operands
name slots by their number in a table.
-/

set_option autoImplicit false

namespace ShaderIR

structure Value where
  serial : Nat
  index : Nat
  components : Int
  bits : Int
  deriving DecidableEq, Repr, Inhabited

/-- A virtual register of a function. A register of no array elements is a single slot. -/
structure Register where
  serial : Nat
  index : Nat
  components : Int
  bits : Int
  arrayElems : Int
  deriving DecidableEq, Repr, Inhabited

structure Slot where
  reg : Option Register
  base : Int
  indirect : Option Value
  deriving DecidableEq, Repr, Inhabited

abbrev SlotId := Nat

inductive Operand where
  | missing
  | value (v : Value)
  | slot (s : SlotId)
  deriving DecidableEq, Repr, Inhabited

inductive Dest where
  | missing
  | value (v : Value)
  | slot (s : SlotId)
  deriving DecidableEq, Repr, Inhabited

namespace Operand

def value? : Operand → Option Value
  | value v => some v
  | _ => none

def slot? : Operand → Option SlotId
  | slot s => some s
  | _ => none

end Operand

namespace Dest

def value? : Dest → Option Value
  | value v => some v
  | _ => none

def slot? : Dest → Option SlotId
  | slot s => some s
  | _ => none

end Dest

/-- An arithmetic operation. `other` is a number beyond the known operations. -/
inductive AluOp where
  | mov
  | iadd
  | imul
  | fadd
  | fmul
  | u2u32
  | other (number : Nat)
  deriving DecidableEq, Repr, Inhabited

namespace AluOp

def ofNumber : Nat → AluOp
  | 0 => mov
  | 1 => iadd
  | 2 => imul
  | 3 => fadd
  | 4 => fmul
  | 5 => u2u32
  | n => other n

def number : AluOp → Nat
  | mov => 0
  | iadd => 1
  | imul => 2
  | fadd => 3
  | fmul => 4
  | u2u32 => 5
  | other n => n

def name : AluOp → String
  | mov => "mov"
  | iadd => "iadd"
  | imul => "imul"
  | fadd => "fadd"
  | fmul => "fmul"
  | u2u32 => "u2u32"
  | other _ => "?"

def named : List AluOp := [mov, iadd, imul, fadd, fmul, u2u32]

def parse (s : String) : Except UnknownName AluOp :=
  match named.find? (·.name == s) with
  | some op => .ok op
  | none => .error ⟨"alu op", s⟩

def arity : AluOp → Nat
  | mov | u2u32 => 1
  | _ => 2

end AluOp

/-- A position in the deref arena of a function; `none` is no deref at all. -/
abbrev Handle := Option Nat

abbrev InstrId := Nat

abbrev BlockId := Nat

/-- The write mask that covers `n` components. A mask has eight places. -/
def fullMask (n : Int) : UInt8 :=
  if 0 ≤ n ∧ n < 8 then UInt8.ofNat ((1 <<< n.toNat) - 1) else 255

inductive Op where
  | alu (op : AluOp) (srcs : List Operand) (dest : Dest) (mask : UInt8)
  | const (result : Value) (values : List UInt64)
  | load (deref : Handle) (dest : Dest) (components : Int)
  | store (deref : Handle) (value : Operand) (mask : UInt8)
  | copy (dst src : Handle)
  | intrinsic (name : String) (srcs : List Operand) (dest : Option Dest)
  deriving DecidableEq, Inhabited

namespace Op

def srcs : Op → List Operand
  | alu _ ss _ _ | intrinsic _ ss _ => ss
  | store _ v _ => [v]
  | const _ _ | load _ _ _ | copy _ _ => []

def result? : Op → Option Value
  | alu _ _ d _ | load _ d _ => d.value?
  | const v _ => some v
  | intrinsic _ _ d => d.bind Dest.value?
  | store _ _ _ | copy _ _ => none

def slotDest? : Op → Option SlotId
  | alu _ _ d _ | load _ d _ => d.slot?
  | intrinsic _ _ d => d.bind Dest.slot?
  | const _ _ | store _ _ _ | copy _ _ => none

def slots (op : Op) : List SlotId :=
  op.srcs.filterMap Operand.slot? ++ op.slotDest?.toList

def derefs : Op → List Handle
  | load h _ _ | store h _ _ => [h]
  | copy d s => [d, s]
  | alu _ _ _ _ | const _ _ | intrinsic _ _ _ => []

end Op

structure Instr where
  op : Op
  block : Option BlockId
  deriving DecidableEq, Inhabited

end ShaderIR
