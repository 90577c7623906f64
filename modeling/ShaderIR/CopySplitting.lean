import ShaderIR.Analysis.Metadata
import ShaderIR.Builder
import ShaderIR.Fault
import ShaderIR.Printer

/-!
# Splitting copies

A copy of a whole array or struct becomes one load and one store for each vector or scalar in it.
The copied type is walked level by level: the elements of an array by index, the fields of a struct
in the order of their declaration.
-/

set_option autoImplicit false

namespace ShaderIR

inductive SplitError where
  | mismatch (dst src : Ty)
  | uncopyable (type : Ty)
  | link (e : LinkError)
  deriving DecidableEq

def SplitError.message : SplitError → String
  | mismatch d s => "unsupported copy_deref: " ++ d.shown ++ " = " ++ s.shown
  | uncopyable t => "unsupported copy_deref: cannot copy " ++ t.shown
  | link e => e.message

mutual

def Ty.weight : Ty → Nat
  | .array t n => 1 + n.toNat * t.weight
  | .struct _ fs => 1 + Ty.fieldsWeight fs
  | _ => 1

def Ty.fieldsWeight : List (String × Ty) → Nat
  | [] => 0
  | (_, t) :: fs => t.weight + Ty.fieldsWeight fs

end

namespace CopySplitting

structure Pending where
  dst : Handle
  src : Handle
  type : Ty

abbrev Step := ExceptT SplitError Edit

def extend (step : ExceptT LinkError Edit Handle) : Step Handle := fun b =>
  match step b with
  | (.ok h, b) => (.ok h, b)
  | (.error e, b) => (.error (.link e), b)

def element (c : Cursor) (p : Pending) (i : Nat) : Step Pending := do
  let index ← c.imm i 32
  let dst ← extend (Body.arrayDeref p.dst (.value index))
  let src ← extend (Body.arrayDeref p.src (.value index))
  return ⟨dst, src, p.type.elementType⟩

def field (p : Pending) (i : Nat) : Step Pending := do
  let dst ← extend (Body.structDeref p.dst i)
  let src ← extend (Body.structDeref p.src i)
  return ⟨dst, src, p.type.fieldType i⟩

def leaf (c : Cursor) (p : Pending) : Step Unit := do
  let v ← c.load p.src p.type.components p.type.bits
  c.store p.dst (.value v) (fullMask p.type.components)

def expand (c : Cursor) (p : Pending) : Step (List Pending) :=
  match p.type with
  | .array _ n => (List.range n.toNat).mapM (element c p)
  | .struct _ fs => (List.range fs.length).mapM (field p)
  | .scalar _ | .vector _ _ => do leaf c p; return []
  | .absent => throw (.uncopyable .absent)

/-- Works off a queue. Every copy taken from it weighs more than the copies it leaves, so the weight
of the queue bounds the work. -/
def drain (c : Cursor) : Nat → List Pending → Step Unit
  | 0, _ => pure ()
  | _ + 1, [] => pure ()
  | fuel + 1, p :: queue => do
    let more ← expand c p
    drain c fuel (queue ++ more)

def split (c : Cursor) (dst src : Handle) : Step Unit := do
  let links := (← get).links
  let dt := derefType links dst
  let st := derefType links src
  if dt.same st then drain c dt.weight [⟨dst, src, dt⟩]
  else throw (.mismatch dt st)

end CopySplitting

structure Split where
  body : Body
  progress : Bool
  error : Option (Fault SplitError)

namespace Split

def instr (block : BlockId) (s : Split) (id : InstrId) : Split :=
  match s.error, s.body.op? id with
  | none, some (.copy dst src) =>
    match CopySplitting.split (.beforeInstr s.body id) dst src s.body with
    | (.ok _, b) => ⟨((Body.remove id block).run b).2, true, none⟩
    | (.error e, b) => ⟨b, s.progress, some ⟨none, b.blockIndex block, e⟩⟩
  | _, _ => s

def block (s : Split) (id : BlockId) : Split :=
  match s.body.blocks[id]? with
  -- what the block held when it was reached
  | some blk => blk.instrs.foldl (instr id) s
  | none => s

end Split

def Body.splitCopies (b : Body) : Split :=
  let s := b.layout.toList.foldl Split.block ⟨b, false, none⟩
  match s.error with
  | none => if s.progress then { s with body := s.body.preserve Body.controlFlowAnalyses } else s
  | some _ => s

structure ShaderSplit where
  shader : Shader
  progress : Bool
  error : Option (Fault SplitError)

namespace ShaderSplit

def function (s : ShaderSplit) (i : Nat) : ShaderSplit :=
  match s.error, s.shader.body? i with
  | none, some b =>
    let r := b.splitCopies
    let shader := s.shader.setBody i r.body
    match r.error with
    | none => ⟨shader, s.progress || r.progress, none⟩
    | some e => ⟨shader, s.progress, some { e with function := s.shader.functionName? i }⟩
  | _, _ => s

end ShaderSplit

/-- Replaces every copy in every function, up to the first function where that fails. What the
failing function had done by then is not counted as progress. -/
def Shader.splitCopies (s : Shader) : ShaderSplit :=
  (List.range s.functions.size).foldl ShaderSplit.function ⟨s, false, none⟩

end ShaderIR
