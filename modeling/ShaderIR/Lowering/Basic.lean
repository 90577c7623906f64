import ShaderIR.Analysis.Metadata
import ShaderIR.Fault
import ShaderIR.Lowering.Offset
import ShaderIR.Uses

/-!
# Lowering locals to registers

Every load from and store to local memory becomes a move from or to a register slot. Chains that
differ only in their array indices share a register. Copies of local memory have to be split
beforehand.
-/

set_option autoImplicit false

namespace ShaderIR

structure LowerStats where
  loads : Nat
  stores : Nat
  registers : Nat
  deriving DecidableEq, Repr, Inhabited

namespace LowerStats

def zero : LowerStats := ⟨0, 0, 0⟩

def add (a b : LowerStats) : LowerStats :=
  ⟨a.loads + b.loads, a.stores + b.stores, a.registers + b.registers⟩

def progress (s : LowerStats) : Bool := 0 < s.loads || 0 < s.stores

end LowerStats

structure Lowered where
  body : Body
  table : RegisterTable
  stats : LowerStats
  error : Option (Fault LowerError)

namespace Lowering

def slotOf (t : RegisterTable) (c : Cursor) (h : Handle) (b : Body) :
    Except LowerError (Slot × RegisterTable) × Body :=
  match t.lookupOrCreate h b with
  | .error e => (.error e, b)
  | .ok (reg, t, b) =>
    match linearize c h reg b with
    | (.ok slot, b) => (.ok (slot, t), b)
    | (.error e, b) => (.error e, b)

def removeFromBlock (id : InstrId) : Edit Unit := do
  match (← get).instrs[id]?.bind (·.block) with
  | some block => Body.remove id block
  | none => pure ()

/-- Moves the slot to where the load put its result. A fresh value takes the place of the value
that the load defined, and a register slot is named anew. -/
def replaceLoad (c : Cursor) (id : InstrId) (dest : Dest) (components : Int) (slot : Slot) :
    Edit Unit := do
  match dest with
  | .value old =>
    let v ← Body.newValue components old.bits
    let s ← Body.newSlot slot
    let _ ← c.insert (.alu .mov [.slot s] (.value v) (fullMask components))
    Body.replaceUses old v
  | .slot target =>
    let s ← Body.newSlot slot
    let d ← Body.newSlot ((← get).slot target)
    let _ ← c.insert (.alu .mov [.slot s] (.slot d) (fullMask components))
  | .missing =>
    let s ← Body.newSlot slot
    let _ ← c.insert (.alu .mov [.slot s] .missing (fullMask components))
  removeFromBlock id

def replaceStore (c : Cursor) (id : InstrId) (value : Operand) (mask : UInt8) (slot : Slot) :
    Edit Unit := do
  let d ← Body.newSlot slot
  -- the operand is shared with the store until that is taken out
  let _ ← c.insert (.alu .mov [value] (.slot d) mask)
  removeFromBlock id

end Lowering

namespace Lowered

def fail (s : Lowered) (block : BlockId) (b : Body) (e : LowerError) : Lowered :=
  { s with body := b, error := some ⟨none, b.blockIndex block, e⟩ }

def access (block : BlockId) (s : Lowered) (id : InstrId) (h : Handle) (done : LowerStats)
    (finish : Cursor → Slot → Edit Unit) : Lowered :=
  let c := Cursor.beforeInstr s.body id
  match Lowering.slotOf s.table c h s.body with
  | (.error e, b) => s.fail block b e
  | (.ok (slot, table), b) =>
    ⟨((finish c slot).run b).2, table, s.stats.add done, none⟩

def instr (block : BlockId) (s : Lowered) (id : InstrId) : Lowered :=
  match s.error, s.body.op? id with
  | none, some (.load h dest n) =>
    if isLocal s.body.links h then
      s.access block id h ⟨1, 0, 0⟩ fun c slot => Lowering.replaceLoad c id dest n slot
    else s
  | none, some (.store h v mask) =>
    if isLocal s.body.links h then
      s.access block id h ⟨0, 1, 0⟩ fun c slot => Lowering.replaceStore c id v mask slot
    else s
  | none, some (.copy dst src) =>
    if isLocal s.body.links dst || isLocal s.body.links src then
      s.fail block s.body (.localCopy (s.body.renderOp (.copy dst src)))
    else s
  | _, _ => s

def block (s : Lowered) (id : BlockId) : Lowered :=
  match s.body.blocks[id]? with
  | some blk => blk.instrs.foldl (instr id) s
  | none => s

end Lowered

/-- Lowers all local accesses of the body. Only when all of them succeed are the registers counted
and the analyses updated. -/
def Body.lowerLocals (b : Body) : Lowered :=
  let b := b.require ⟨false, true, false⟩
  let s := b.layout.toList.foldl Lowered.block ⟨b, .empty, .zero, none⟩
  match s.error with
  | none =>
    { s with
      body := s.body.preserve Body.controlFlowAnalyses
      stats := { s.stats with registers := s.table.size } }
  | some _ => s

structure ShaderLowered where
  shader : Shader
  total : LowerStats
  reports : List (String × LowerStats)
  error : Option (Fault LowerError)

namespace ShaderLowered

def function (s : ShaderLowered) (i : Nat) : ShaderLowered :=
  match s.error, s.shader.body? i with
  | none, some b =>
    let r := b.lowerLocals
    let name := (s.shader.functionName? i).getD ""
    let shader := s.shader.setBody i r.body
    match r.error with
    | none => ⟨shader, s.total.add r.stats, s.reports ++ [(name, r.stats)], none⟩
    | some e => ⟨shader, s.total.add r.stats, s.reports, some { e with function := some name }⟩
  | _, _ => s

end ShaderLowered

def Shader.lowerLocals (s : Shader) : ShaderLowered :=
  (List.range s.functions.size).foldl ShaderLowered.function ⟨s, .zero, [], none⟩

end ShaderIR
