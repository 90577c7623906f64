import ShaderIR.Builder
import ShaderIR.Description.Basic
import ShaderIR.Description.Error

/-!
# Loading descriptions

A description is turned into a shader from the top: structs, globals, then each function with its
locals, blocks, edges and instructions. The first fault ends the loading. Integers used as operands
become constants right before the instruction that uses them.
-/

set_option autoImplicit false

namespace ShaderIR

namespace Loading

structure Scope where
  structs : Ty.Structs
  globals : List (String × Variable)
  locals : List (String × Variable)

def Scope.variable? (s : Scope) (name : String) : Option Variable :=
  (s.locals.lookup name).or (s.globals.lookup name)

structure Building where
  body : Body
  values : List (String × Value)

abbrev Build := StateT Building (Except InstrError)

def edit {α : Type} (e : Edit α) : Build α := fun s =>
  let (a, b) := e.run s.body
  .ok (a, { s with body := b })

def define (name : String) (v : Value) : Build Unit := do
  if name = "" then return
  if ((← get).values.lookup name).isSome then throw (.redefined name)
  modify fun s => { s with values := (name, v) :: s.values }

/-- The value of an operand: a named value, or an integer, which is emitted as a constant. -/
def operand (c : Cursor) (name : String) : StateT Building (Except OperandError) Value := fun s =>
  match s.values.lookup name with
  | some v => .ok (v, s)
  | none =>
    match Text.literal? name.toList with
    | some n =>
      let (v, b) := (c.imm n 32).run s.body
      .ok (v, { s with body := b })
    | none => .error (if name = "" then .missing else .undefined name)

abbrev PathBuild := StateT Building (Except PathError)

def liftOperand {α ε : Type} (wrap : OperandError → ε) (m : StateT Building (Except OperandError) α) :
    StateT Building (Except ε) α := fun s =>
  (m s).mapError wrap

def extend (e : ExceptT LinkError Edit Handle) : PathBuild Handle := fun s =>
  match e s.body with
  | (.ok h, b) => .ok (h, { s with body := b })
  | (.error e, _) => .error (.link e)

def pathLink (c : Cursor) (h : Handle) : PathLink → PathBuild Handle
  | .index text => do
    let v ← liftOperand .operand (operand c text)
    extend (Body.arrayDeref h (.value v))
  | .field name => do
    let t := derefType (← get).body.links h
    match t.fieldIndex name with
    | some i => extend (Body.structDeref h i)
    | none => throw (.noField t name)

def pathLinks (c : Cursor) : Handle → List PathLink → PathBuild Handle
  | h, [] => pure h
  | h, l :: ls => do
    let h ← pathLink c h l
    pathLinks c h ls

def derefPath (scope : Scope) (c : Cursor) (p : Path) : PathBuild Handle := do
  if p.root = "" then throw .expectedName
  match scope.variable? p.root with
  | none => throw (.unknownVariable p.root)
  | some v =>
    let h ← fun s => let (h, b) := (Body.varDeref v).run s.body; .ok (h, { s with body := b })
    let h ← pathLinks c h p.links
    match p.fault with
    | some e => throw (.fault e)
    | none => return h

def deref (scope : Scope) (c : Cursor) (text : String) : Build Handle := fun s =>
  (derefPath scope c (.parse text) s).mapError (.path text)

def value (c : Cursor) (name : String) : Build Value :=
  liftOperand .operand (operand c name)

def instr (scope : Scope) (c : Cursor) (d : InstrDecl) : Build Unit := do
  let bits := if d.bits = 0 then 32 else d.bits
  match d.op with
  | "const" =>
    if d.values.isEmpty then throw .noValues
    define d.result (← edit (c.const d.values bits))
  | "load" =>
    let h ← deref scope c d.deref
    let leaf := derefType (← get).body.links h
    if !leaf.isVectorOrScalar then throw (.aggregateLoad leaf)
    define d.result (← edit (c.load h leaf.components leaf.bits))
  | "store" =>
    let h ← deref scope c d.deref
    let v ← value c d.value
    edit (c.store h (.value v) (d.mask.getD (fullMask v.components)))
  | "copy" =>
    let dst ← deref scope c d.dst
    let src ← deref scope c d.src
    let _ ← edit (c.insert (.copy dst src))
  | "alu" =>
    match AluOp.parse d.alu with
    | .error e => throw (.unknownName e)
    | .ok op =>
      if d.srcs.length ≠ op.arity then throw (.operandCount op d.srcs.length)
      let srcs ← d.srcs.mapM (value c)
      define d.result (← edit (c.alu op (srcs.map .value)))
  | "intrinsic" =>
    if d.name = "" then throw .unnamedIntrinsic
    let srcs ← d.srcs.mapM (value c)
    let dest ←
      if d.result = "" then pure none
      else do
        let v ← edit (Body.newValue (if d.components = 0 then 1 else d.components) bits)
        define d.result v
        pure (some (Dest.value v))
    let _ ← edit (c.insert (.intrinsic d.name (srcs.map .value) dest))
  | op => throw (.unknownName ⟨"op", op⟩)

def instrs (scope : Scope) (c : Cursor) (block : String) :
    Nat → List InstrDecl → StateT Building (Except FunctionError) Unit
  | _, [] => pure ()
  | position, d :: ds => do
    (fun s => (instr scope c d s).mapError (.instr d.line block position))
    instrs scope c block (position + 1) ds

def blockName (i : Nat) (d : BlockDecl) : String :=
  if d.name = "" then "b" ++ toString i else d.name

def blockNames : List String → Nat → List BlockDecl → Except FunctionError (List String)
  | seen, _, [] => .ok seen.reverse
  | seen, i, d :: ds =>
    let name := blockName i d
    if seen.contains name then .error (.blockRedeclared name)
    else blockNames (name :: seen) (i + 1) ds

def edges (blocks : List (String × BlockId)) (block : String) (id : BlockId)
    (succs : List String) (b : Body) : Except FunctionError Body := do
  if 2 < succs.length then throw (.successorCount block succs.length)
  succs.foldlM
    (fun b s =>
      match blocks.lookup s with
      | some target => .ok ((Body.addEdge id target).run b).2
      | none => .error (.unknownSuccessor block s))
    b

def declare (structs : Ty.Structs) (next : Nat) (mode : Mode) (d : VariableDecl) :
    Except Ty.ParseError Variable := do
  let t ← Ty.parse structs d.type
  return ⟨next, next, d.name, t, mode, d.init⟩

def declareLocals (structs : Ty.Structs) : Nat → List (String × Variable) → List VariableDecl →
    Except FunctionError (Nat × List (String × Variable))
  | next, seen, [] => .ok (next, seen)
  | next, seen, d :: ds => do
    let v ← (declare structs next .local d).mapError (.localType d.name)
    if (seen.lookup v.name).isSome then throw (.localRedeclared v.name)
    declareLocals structs (next + 1) ((v.name, v) :: seen) ds

/-- Makes a function on the tables built so far. The tables and the number of the next variable
come out with it. -/
def buildFunction (structs : Ty.Structs) (globals : List (String × Variable)) (next : Nat)
    (store : Store) (d : FunctionDecl) : Except FunctionError (Function × Store × Nat) := do
  if d.blocks.isEmpty then
    if !d.locals.isEmpty then throw .localsWithoutBody
    return (⟨d.name, none⟩, store, next)
  let (next, vars) ← declareLocals structs next [] d.locals
  let names ← blockNames [] 0 d.blocks
  let start : Body := { toStore := store, locals := (vars.reverse.map Prod.snd).toArray }
  let (ids, body) := ((names.mapM Body.addBlock : Edit (List BlockId))).run start
  let blocks := names.zip ids
  let described := d.blocks.zip blocks
  let body ← described.foldlM
    (fun b (blk, name, id) => edges blocks name id blk.succs b) body
  let scope : Scope := ⟨structs, globals, vars⟩
  let built ← described.foldlM
    (fun (s : Building) (blk, name, id) => do
      let (_, s) ← instrs scope (.atEnd id) name 0 blk.instrs s
      return s)
    ⟨body, []⟩
  return (⟨d.name, some built.body.toFrame⟩, built.body.toStore, next)

def structFields (structs : Ty.Structs) (struct : String) (ds : List VariableDecl) :
    Except LoadError (List (String × Ty)) :=
  ds.mapM fun d => do
    let t ← (Ty.parse structs d.type).mapError (.fieldType struct d.name)
    return (d.name, t)

def declareStructs : Ty.Structs → List StructDecl → Except LoadError Ty.Structs
  | seen, [] => .ok seen
  | seen, d :: ds => do
    let fields ← structFields seen d.name d.fields
    if (seen.lookup d.name).isSome then throw (.structRedeclared d.name)
    declareStructs ((d.name, .struct d.name fields) :: seen) ds

def globalMode (d : VariableDecl) : Except LoadError Mode := do
  let mode ← if d.mode = "" then pure .global
    else (Mode.parse d.mode).mapError (.globalMode d.name)
  if mode = .local then throw (.localGlobal d.name)
  return mode

def declareGlobals (structs : Ty.Structs) : Nat → List (String × Variable) → List VariableDecl →
    Except LoadError (Nat × List (String × Variable))
  | next, seen, [] => .ok (next, seen)
  | next, seen, d :: ds => do
    let mode ← globalMode d
    let v ← (declare structs next mode d).mapError (.globalType d.name)
    if (seen.lookup v.name).isSome then throw (.globalRedeclared v.name)
    declareGlobals structs (next + 1) ((v.name, v) :: seen) ds

def buildFunctions (structs : Ty.Structs) (globals : List (String × Variable)) :
    Nat → Store → List FunctionDecl → Except LoadError (List Function × Store)
  | _, store, [] => .ok ([], store)
  | next, store, d :: ds => do
    let (f, store, next) ←
      (buildFunction structs globals next store d).mapError (.function d.name)
    let (fs, store) ← buildFunctions structs globals next store ds
    return (f :: fs, store)

def checkFormat (format : String) : Except LoadError Unit := do
  if format = "" then throw .noFormat
  let v ← (Version.parse format).mapError (.badFormat format)
  if !v.supported then throw (.unsupportedFormat v)

end Loading

namespace Description

open Loading

def toShader (d : Description) : Except LoadError Shader := do
  checkFormat d.format
  let structs ← declareStructs [] d.structs
  let (next, globals) ← declareGlobals structs 1 [] d.globals
  let (functions, store) ← buildFunctions structs globals next {} d.functions
  return ⟨d.shader, (globals.reverse.map Prod.snd).toArray, functions.toArray, store⟩

def ofText (text : String) : Except LoadError Description := do
  match ← (Yaml.read text).mapError .malformed with
  | none => throw .noDocument
  | some node =>
    match ← (Yaml.decode Description.decoder node).mapError .malformed with
    | (d, []) => return d.getD {}
    | (_, errors) => throw (.mistyped errors)

end Description

def Shader.ofText (text : String) : Except LoadError Shader := do
  (← Description.ofText text).toShader

end ShaderIR
