import ShaderIR.Description.Path
import ShaderIR.Description.Version
import ShaderIR.Printer
import ShaderIR.Yaml.Decode

/-!
# What can be wrong with a description

Each cause carries what its message shows. The wording is here and nowhere else.
-/

set_option autoImplicit false

namespace ShaderIR

open Text

inductive OperandError where
  | missing
  | undefined (name : String)
  deriving DecidableEq, Repr

def OperandError.message : OperandError → String
  | missing => "missing operand"
  | undefined name => "undefined value " ++ name

inductive PathError where
  | expectedName
  | unknownVariable (name : String)
  | operand (e : OperandError)
  | noField (type : Ty) (name : String)
  | link (e : LinkError)
  | fault (e : PathFault)
  deriving DecidableEq

def PathFault.message : PathFault → String
  | unterminated => "unterminated index"
  | unexpected byte offset =>
    "unexpected " ++ quotedChar byte ++ " at offset " ++ toString offset

def PathError.message : PathError → String
  | expectedName => "expected variable name"
  | unknownVariable name => "unknown variable " ++ name
  | operand e => e.message
  | noField t name => t.shown ++ " has no field " ++ quoted name
  | link e => e.message
  | fault e => e.message

inductive InstrError where
  | noValues
  | aggregateLoad (type : Ty)
  | redefined (name : String)
  | operand (e : OperandError)
  | path (text : String) (e : PathError)
  | unknownName (e : UnknownName)
  | operandCount (op : AluOp) (got : Nat)
  | unnamedIntrinsic
  deriving DecidableEq

def InstrError.message : InstrError → String
  | noValues => "const without values"
  | aggregateLoad t => "load of aggregate " ++ t.shown
  | redefined name => "value " ++ name ++ " redefined"
  | operand e => e.message
  | path text e => "deref " ++ quoted text ++ ": " ++ e.message
  | unknownName e => e.message
  | operandCount op got =>
    op.name ++ " takes " ++ toString op.arity ++ " operands, got " ++ toString got
  | unnamedIntrinsic => "intrinsic without name"

inductive FunctionError where
  | localsWithoutBody
  | localType (name : String) (e : Ty.ParseError)
  | localRedeclared (name : String)
  | blockRedeclared (name : String)
  | successorCount (block : String) (got : Nat)
  | unknownSuccessor (block name : String)
  | instr (line : Nat) (block : String) (position : Nat) (e : InstrError)
  deriving DecidableEq

def FunctionError.message : FunctionError → String
  | localsWithoutBody => "declaration cannot have locals"
  | localType name e => "local " ++ name ++ ": " ++ e.message
  | localRedeclared name => "local " ++ name ++ " redeclared"
  | blockRedeclared name => "block " ++ name ++ " redeclared"
  | successorCount block got =>
    "block " ++ block ++ ": " ++ toString got ++ " successors, at most 2 allowed"
  | unknownSuccessor block name => "block " ++ block ++ ": unknown successor " ++ name
  | instr line block position e =>
    "line " ++ toString line ++ ": block " ++ block ++ ": instr " ++ toString position ++ ": " ++
      e.message

inductive LoadError where
  | noDocument
  | malformed (e : Yaml.SyntaxError)
  | mistyped (es : List Yaml.TypeError)
  | noFormat
  | badFormat (format : String) (e : VersionError)
  | unsupportedFormat (v : Version)
  | fieldType (struct field : String) (e : Ty.ParseError)
  | structRedeclared (name : String)
  | globalMode (name : String) (e : UnknownName)
  | localGlobal (name : String)
  | globalType (name : String) (e : Ty.ParseError)
  | globalRedeclared (name : String)
  | function (name : String) (e : FunctionError)
  deriving DecidableEq

def LoadError.message : LoadError → String
  | noDocument => "EOF"
  | malformed e => e.message
  | mistyped es => Yaml.typeErrorsMessage es
  | noFormat => "missing format version"
  | badFormat format e => "format " ++ quoted format ++ ": " ++ e.message
  | unsupportedFormat v =>
    "format " ++ v.render ++ " not supported (want " ++ Version.supportedRange ++ ")"
  | fieldType struct field e => "struct " ++ struct ++ ": field " ++ field ++ ": " ++ e.message
  | structRedeclared name => "struct " ++ name ++ " redeclared"
  | globalMode name e => "global " ++ name ++ ": " ++ e.message
  | localGlobal name => "global " ++ name ++ ": mode local is reserved for function locals"
  | globalType name e => "global " ++ name ++ ": " ++ e.message
  | globalRedeclared name => "global " ++ name ++ " redeclared"
  | function name e => "function " ++ name ++ ": " ++ e.message

end ShaderIR
