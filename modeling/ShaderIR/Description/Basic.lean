import ShaderIR.Yaml.Decode

/-!
# Shader descriptions

A description is what a document says about a shader, before names are looked up and types are
read. Instructions may carry keys of their own, everything else is closed.
-/

set_option autoImplicit false

namespace ShaderIR

open Yaml

structure VariableDecl where
  name : String := ""
  type : String := ""
  mode : String := ""
  init : Option (List UInt64) := none
  deriving DecidableEq, Inhabited

structure StructDecl where
  name : String := ""
  fields : List VariableDecl := []
  deriving DecidableEq, Inhabited

/-- An instruction. The line is that of its mapping in the document. -/
structure InstrDecl where
  line : Nat := 0
  op : String := ""
  result : String := ""
  values : List UInt64 := []
  bits : Int := 0
  components : Int := 0
  deref : String := ""
  value : String := ""
  mask : Option UInt8 := none
  dst : String := ""
  src : String := ""
  alu : String := ""
  srcs : List String := []
  name : String := ""
  deriving DecidableEq, Inhabited

structure BlockDecl where
  name : String := ""
  succs : List String := []
  instrs : List InstrDecl := []
  deriving DecidableEq, Inhabited

structure FunctionDecl where
  name : String := ""
  locals : List VariableDecl := []
  blocks : List BlockDecl := []
  deriving DecidableEq, Inhabited

structure Description where
  format : String := ""
  shader : String := ""
  structs : List StructDecl := []
  globals : List VariableDecl := []
  functions : List FunctionDecl := []
  deriving DecidableEq, Inhabited

def VariableDecl.decoder : Decoder VariableDecl :=
  recordDecoder ⟨"nirload.varSpec", true,
    [.of "name" textDecoder fun d s => { d with name := s },
      .of "type" textDecoder fun d s => { d with type := s },
      .of "mode" textDecoder fun d s => { d with mode := s },
      .of "init" (listDecoder "[]uint64" wordDecoder) fun d ws => { d with init := some ws }]⟩
    {}

def StructDecl.decoder : Decoder StructDecl :=
  recordDecoder ⟨"nirload.structSpec", true,
    [.of "name" textDecoder fun d s => { d with name := s },
      .of "fields" (listDecoder "[]nirload.varSpec" VariableDecl.decoder) fun d fs =>
        { d with fields := fs }]⟩
    {}

def InstrDecl.decoder : Decoder InstrDecl := fun n =>
  recordDecoder ⟨"nirload.plain", false,
    [.of "op" textDecoder fun d s => { d with op := s },
      .of "def" textDecoder fun d s => { d with result := s },
      .of "values" (listDecoder "[]uint64" wordDecoder) fun d ws => { d with values := ws },
      .of "bits" intDecoder fun d k => { d with bits := k },
      .of "components" intDecoder fun d k => { d with components := k },
      .of "deref" textDecoder fun d s => { d with deref := s },
      .of "value" textDecoder fun d s => { d with value := s },
      .of "wrmask" byteDecoder fun d m => { d with mask := some m },
      .of "dst" textDecoder fun d s => { d with dst := s },
      .of "src" textDecoder fun d s => { d with src := s },
      .of "alu" textDecoder fun d s => { d with alu := s },
      .of "srcs" (listDecoder "[]string" textDecoder) fun d ss => { d with srcs := ss },
      .of "name" textDecoder fun d s => { d with name := s }]⟩
    { line := n.line } n

def BlockDecl.decoder : Decoder BlockDecl :=
  recordDecoder ⟨"nirload.blockSpec", true,
    [.of "name" textDecoder fun d s => { d with name := s },
      .of "succs" (listDecoder "[]string" textDecoder) fun d ss => { d with succs := ss },
      .of "instrs" (listDecoder "[]nirload.instrSpec" InstrDecl.decoder) fun d is =>
        { d with instrs := is }]⟩
    {}

def FunctionDecl.decoder : Decoder FunctionDecl :=
  recordDecoder ⟨"nirload.functionSpec", true,
    [.of "name" textDecoder fun d s => { d with name := s },
      .of "locals" (listDecoder "[]nirload.varSpec" VariableDecl.decoder) fun d vs =>
        { d with locals := vs },
      .of "blocks" (listDecoder "[]nirload.blockSpec" BlockDecl.decoder) fun d bs =>
        { d with blocks := bs }]⟩
    {}

def Description.decoder : Decoder Description :=
  recordDecoder ⟨"nirload.shaderSpec", true,
    [.of "format" textDecoder fun d s => { d with format := s },
      .of "shader" textDecoder fun d s => { d with shader := s },
      .of "structs" (listDecoder "[]nirload.structSpec" StructDecl.decoder) fun d ss =>
        { d with structs := ss },
      .of "globals" (listDecoder "[]nirload.varSpec" VariableDecl.decoder) fun d vs =>
        { d with globals := vs },
      .of "functions" (listDecoder "[]nirload.functionSpec" FunctionDecl.decoder) fun d fs =>
        { d with functions := fs }]⟩
    {}

end ShaderIR
