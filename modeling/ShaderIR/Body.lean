import ShaderIR.Deref

/-!
# Function bodies

Instructions, blocks and register slots live in tables that all functions of a shader share, so an
instruction can be asked about after it was taken out of its block, and one function may hold an
instruction of another. What a function has of its own is a frame: its variables, deref links and
registers, and the layout of its blocks. A body is a frame together with the tables. What the
analyses found is stored on the blocks, and `valid` tells which of it may be relied on.
-/

set_option autoImplicit false

namespace ShaderIR

structure Block where
  index : Nat
  name : String
  instrs : List InstrId
  succs : List BlockId
  idom : Option BlockId
  domChildren : List BlockId
  liveIn : List Value
  liveOut : List Value
  deriving DecidableEq, Inhabited

structure Analyses where
  index : Bool
  dominance : Bool
  liveness : Bool
  deriving DecidableEq, Repr, Inhabited

namespace Analyses

def none : Analyses := ⟨false, false, false⟩

def all : Analyses := ⟨true, true, true⟩

def inter (a b : Analyses) : Analyses :=
  ⟨a.index && b.index, a.dominance && b.dominance, a.liveness && b.liveness⟩

def union (a b : Analyses) : Analyses :=
  ⟨a.index || b.index, a.dominance || b.dominance, a.liveness || b.liveness⟩

def diff (a b : Analyses) : Analyses :=
  ⟨a.index && !b.index, a.dominance && !b.dominance, a.liveness && !b.liveness⟩

end Analyses

/-- The tables of a shader. Nothing is ever removed from them. -/
structure Store where
  instrs : Array Instr := #[]
  blocks : Array Block := #[]
  slots : Array Slot := #[]
  /-- For each value made, by its serial, the instruction that was placed as its definition. -/
  definers : Array (Option InstrId) := #[]
  /-- How many registers were made. -/
  registerCount : Nat := 0
  deriving DecidableEq, Inhabited

structure Frame where
  locals : Array Variable := #[]
  links : Array Link := #[]
  layout : Array BlockId := #[]
  registers : Array Register := #[]
  /-- How many values the function has made. -/
  valueCount : Nat := 0
  valid : Analyses := .none
  deriving DecidableEq, Inhabited

structure Body extends Store, Frame
  deriving DecidableEq, Inhabited

structure Function where
  name : String
  /-- A declaration has no frame. -/
  frame : Option Frame
  deriving DecidableEq, Inhabited

structure Shader where
  name : String
  globals : Array Variable
  functions : Array Function
  store : Store
  deriving DecidableEq, Inhabited

abbrev Edit := StateM Body

namespace Body

def empty : Body := {}

def op? (b : Body) (id : InstrId) : Option Op :=
  b.instrs[id]?.map (·.op)

def slot (b : Body) (id : SlotId) : Slot :=
  b.slots[id]?.getD default

def orderedBlocks (b : Body) : List Block :=
  b.layout.toList.filterMap (b.blocks[·]?)

def blockOps (b : Body) (block : Block) : List Op :=
  block.instrs.filterMap b.op?

def mapBlocks (b : Body) (f : Nat → Block → Block) : Body :=
  { b with
    blocks := b.layout.toList.zipIdx.foldl (fun blocks (id, i) => blocks.modify id (f i)) b.blocks }

def blockIndex (b : Body) (id : BlockId) : Nat :=
  (b.blocks[id]?.map (·.index)).getD 0

def addBlock (name : String) : Edit BlockId := do
  let b ← get
  let id := b.blocks.size
  MonadState.set { b with
    blocks := b.blocks.push ⟨b.layout.size, name, [], [], none, [], [], []⟩
    layout := b.layout.push id
    valid := .none }
  return id

def addEdge (source target : BlockId) : Edit Unit :=
  modify fun b =>
    { b with blocks := b.blocks.modify source fun blk => { blk with succs := blk.succs ++ [target] } }

def preds (b : Body) (target : BlockId) : List BlockId :=
  b.layout.toList.filter fun id =>
    match b.blocks[id]? with
    | some blk => blk.succs.contains target
    | none => false

def newValue (components bits : Int) : Edit Value := do
  let b ← get
  let v : Value := ⟨b.definers.size, b.valueCount, components, bits⟩
  MonadState.set { b with definers := b.definers.push none, valueCount := b.valueCount + 1 }
  return v

def newRegister (components bits arrayElems : Int) : Edit Register := do
  let b ← get
  let r : Register := ⟨b.registerCount, b.registers.size, components, bits, arrayElems⟩
  MonadState.set { b with registers := b.registers.push r, registerCount := b.registerCount + 1 }
  return r

def newSlot (s : Slot) : Edit SlotId := do
  let id := (← get).slots.size
  modify fun b => { b with slots := b.slots.push s }
  return id

def newLink (link : Link) : Edit Handle := do
  let n := (← get).links.size
  modify fun b => { b with links := b.links.push link }
  return some n

def varDeref (v : Variable) : Edit Handle :=
  newLink (varLink v)

def castDeref (parent : Handle) (type : Ty) (mode : Mode) : Edit Handle :=
  newLink (castLink parent type mode)

def arrayDeref (parent : Handle) (index : Operand) : ExceptT LinkError Edit Handle := do
  match arrayLink (← get).links parent index with
  | .ok link => newLink link
  | .error e => throw e

def structDeref (parent : Handle) (field : Int) : ExceptT LinkError Edit Handle := do
  match structLink (← get).links parent field with
  | .ok link => newLink link
  | .error e => throw e

def newInstr (op : Op) : Edit InstrId := do
  let n := (← get).instrs.size
  modify fun b => { b with instrs := b.instrs.push ⟨op, none⟩ }
  return n

def setBlock (id : InstrId) (block : Option BlockId) (b : Body) : Body :=
  { b with instrs := b.instrs.modify id fun i => { i with block } }

def setDefiner (id : InstrId) (b : Body) : Body :=
  match (b.op? id).bind Op.result? with
  | some v => { b with definers := b.definers.modify v.serial fun _ => some id }
  | none => b

def insertBefore (id : InstrId) (mark : Option InstrId) : List InstrId → List InstrId
  | [] => [id]
  | x :: xs => if mark = some x then id :: x :: xs else x :: insertBefore id mark xs

def place (id : InstrId) (block : BlockId) (mark : Option InstrId) : Edit Unit :=
  modify fun b =>
    let b := setDefiner id (setBlock id (some block) b)
    { b with blocks := b.blocks.modify block fun blk =>
        { blk with instrs := insertBefore id mark blk.instrs } }

def remove (id : InstrId) (block : BlockId) : Edit Unit :=
  modify fun b =>
    match b.blocks[block]? with
    | none => b
    | some blk =>
      if blk.instrs.contains id then
        let b := setBlock id none b
        { b with blocks := b.blocks.modify block fun blk =>
            { blk with instrs := blk.instrs.erase id } }
      else b

def definer? (b : Body) (v : Value) : Option InstrId :=
  b.definers[v.serial]?.join

/-- The first component of an operand that is known before the program runs. -/
def constant? (b : Body) : Operand → Option UInt64
  | .value v =>
    match (b.definer? v).bind b.op? with
    | some (.const _ values) => values.head?
    | _ => none
  | _ => none

def swapBlocks (i j : Nat) : Edit Unit :=
  modify fun b => { b with layout := b.layout.swapIfInBounds i j }

end Body

namespace Shader

def body? (s : Shader) (i : Nat) : Option Body :=
  (s.functions[i]?.bind (·.frame)).map fun frame => { toStore := s.store, toFrame := frame }

def functionName? (s : Shader) (i : Nat) : Option String :=
  s.functions[i]?.map (·.name)

def bodies (s : Shader) : List (Nat × String × Body) :=
  s.functions.toList.zipIdx.filterMap fun (f, i) => (s.body? i).map fun b => (i, f.name, b)

def setBody (s : Shader) (i : Nat) (b : Body) : Shader :=
  { s with
    store := b.toStore
    functions := s.functions.modify i fun f => { f with frame := some b.toFrame } }

def mapBodies (f : Body → Body) (s : Shader) : Shader :=
  (List.range s.functions.size).foldl
    (fun s i =>
      match s.body? i with
      | some b => s.setBody i (f b)
      | none => s)
    s

end Shader

end ShaderIR
