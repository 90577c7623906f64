import ShaderIR.Body
import ShaderIR.Text.Integer
import ShaderIR.Type.Printer

/-!
# Writing shaders

The printed form shows declarations, then each function block by block, one instruction a line.
What the analyses know about a block stands behind its name, as far as it is valid.
-/

set_option autoImplicit false

namespace ShaderIR

open Text

def LinkError.message : LinkError → String
  | notArray t => "cannot index non-array type " ++ t.shown
  | noField t i => "type " ++ t.shown ++ " has no field " ++ toString i

def renderVector (components : Int) : String := "vec" ++ toString components

def renderWords (ws : List UInt64) : String :=
  "(" ++ ", ".intercalate (ws.map fun w => "0x" ++ hexPadded 8 w.toNat) ++ ")"

def renderMask (mask : UInt8) : String :=
  String.ofList (("xyzw".toList.zipIdx.filter fun (_, i) => mask.toNat.testBit i).map Prod.fst)

namespace Value

def render (v : Value) : String := "ssa_" ++ toString v.index

def renderDecl (v : Value) : String :=
  renderVector v.components ++ " " ++ toString v.bits ++ " " ++ v.render

end Value

def Register.renderDecl (r : Register) : String :=
  renderVector r.components ++ " " ++ toString r.bits ++ " r" ++ toString r.index ++
    (if 0 < r.arrayElems then "[" ++ toString r.arrayElems ++ "]" else "")

def Slot.render (s : Slot) : String :=
  match s.reg with
  | none => "r?"
  | some r =>
    let name := "r" ++ toString r.index
    if r.arrayElems = 0 then name
    else match s.indirect with
      | none => name ++ "[" ++ toString s.base ++ "]"
      | some v =>
        if s.base = 0 then name ++ "[" ++ v.render ++ "]"
        else name ++ "[" ++ toString s.base ++ " + " ++ v.render ++ "]"

def fieldLabel (t : Ty) (field : Nat) : String :=
  match t with
  | .struct _ fs =>
    match fs[field]? with
    | some (name, _) => name
    | none => toString field
  | _ => toString field

namespace Body

def renderSlot (b : Body) (s : SlotId) : String := (b.slot s).render

def renderOperand (b : Body) : Operand → String
  | .missing => "???"
  | .value v => v.render
  | .slot s => b.renderSlot s

def renderDest (b : Body) : Dest → String
  | .missing => "???"
  | .value v => v.renderDecl
  | .slot s => b.renderSlot s

def renderOperands (b : Body) (srcs : List Operand) : String :=
  ", ".intercalate (srcs.map b.renderOperand)

def renderLink (b : Body) (link : Link) (above : Ty) : String :=
  match link.kind with
  | .var v => v.name
  | .array index =>
    match b.constant? index with
    | some n => "[" ++ toString n.toNat ++ "]"
    | none => "[" ++ b.renderOperand index ++ "]"
  | .struct field => "." ++ fieldLabel above field
  | .cast => "(" ++ link.type.shown ++ " *)"

def renderLinks (b : Body) : List Link → String
  | [] => ""
  | link :: rest => renderLinks b rest ++ renderLink b link (headType rest)

def renderDeref (b : Body) (h : Handle) : String :=
  "&" ++ b.renderLinks (chain b.links h)

def renderPartial (b : Body) (dest : Dest) (mask : UInt8) : String :=
  match dest.slot?.bind fun s => (b.slot s).reg with
  | some r => if mask = fullMask r.components then "" else " (wrmask=" ++ renderMask mask ++ ")"
  | none => ""

def renderOp (b : Body) : Op → String
  | .alu op srcs dest mask =>
    b.renderDest dest ++ " = " ++ op.name ++ " " ++ b.renderOperands srcs ++
      b.renderPartial dest mask
  | .const v values => v.renderDecl ++ " = load_const " ++ renderWords values
  | .load h dest _ => b.renderDest dest ++ " = load_deref " ++ b.renderDeref h
  | .store h v mask =>
    "store_deref " ++ b.renderDeref h ++ ", " ++ b.renderOperand v ++ " (wrmask=" ++
      renderMask mask ++ ")"
  | .copy d s => "copy_deref " ++ b.renderDeref d ++ ", " ++ b.renderDeref s
  | .intrinsic name srcs dest =>
    (match dest with
      | some d => b.renderDest d ++ " = "
      | none => "") ++ "@" ++ name ++ " (" ++ b.renderOperands srcs ++ ")"

def renderArenaEntry (b : Body) (h : Nat) (link : Link) : String :=
  let parent : Int := match link.parent with
    | some p => p
    | none => -1
  let type := match link.type with
    | .absent => "<nil>"
    | t => t.render
  toString h ++ ": " ++ link.kind.name ++ " parent=" ++ toString parent ++ " type=" ++ type ++
    " mode=" ++ link.mode.name ++ " " ++ b.renderDeref (some h)

def arenaLines (b : Body) : List String :=
  b.links.toList.zipIdx.map fun (link, h) => b.renderArenaEntry h link

end Body

def Block.label (blk : Block) : String :=
  if blk.name = "" then "b" ++ toString blk.index else blk.name

namespace Body

def renderBlockNames (b : Body) (ids : List BlockId) : String :=
  " ".intercalate (ids.filterMap fun id => b.blocks[id]?.map Block.label)

def renderBlock (b : Body) (id : BlockId) (blk : Block) : List String :=
  let preds := b.preds id
  let head := "  block " ++ blk.label ++ ":" ++
    (if preds.isEmpty then "" else " // preds: " ++ b.renderBlockNames preds) ++
    (match b.valid.dominance, blk.idom with
      | true, some d => " // idom: " ++ b.renderBlockNames [d]
      | _, _ => "") ++
    (if b.valid.liveness && !blk.liveIn.isEmpty then
      " // live-in: " ++ " ".intercalate (blk.liveIn.map Value.render) else "")
  [head] ++ (b.blockOps blk).map (fun op => "    " ++ b.renderOp op) ++
    (if blk.succs.isEmpty then [] else ["    // succs: " ++ b.renderBlockNames blk.succs])

def blockLines (b : Body) : List String :=
  b.layout.toList.flatMap fun id => (b.blocks[id]?.map (b.renderBlock id)).getD []

end Body

def Variable.renderDecl (v : Variable) : String :=
  "decl_var " ++ v.mode.name ++ " " ++ v.type.shown ++ " " ++ v.name ++
    (match v.init with
      | some ws => " = " ++ renderWords ws
      | none => "")

def functionLines (name : String) : Option Body → List String
  | none => ["decl_function " ++ name]
  | some b =>
    ["impl " ++ name ++ " \x7b"] ++ b.locals.toList.map (fun v => "  " ++ v.renderDecl) ++
      b.registers.toList.map (fun r => "  decl_reg " ++ r.renderDecl) ++ b.blockLines ++ ["\x7d"]

def Shader.functionLines (s : Shader) (i : Nat) : List String :=
  match s.functions[i]? with
  | some f => ShaderIR.functionLines f.name (s.body? i)
  | none => []

def Shader.lines (s : Shader) : List String :=
  ["shader " ++ s.name] ++ s.globals.toList.map Variable.renderDecl ++
    (List.range s.functions.size).flatMap fun i => "" :: s.functionLines i

def renderLines (lines : List String) : String :=
  String.join (lines.map (· ++ "\n"))

def Shader.renderFunction (s : Shader) (i : Nat) : String := renderLines (s.functionLines i)

def Shader.render (s : Shader) : String := renderLines s.lines

end ShaderIR
