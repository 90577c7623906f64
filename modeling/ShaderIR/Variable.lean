import ShaderIR.Text.Quoted
import ShaderIR.Type.Basic

/-!
# Variables

A variable is a declared storage place. Its `id` is the number that descriptions and hashes use and
may be given by hand, so two variables can share one. The `serial` counts declarations and is what
tells variables apart.
-/

set_option autoImplicit false

namespace ShaderIR

structure UnknownName where
  kind : String
  name : String
  deriving DecidableEq, Repr

def UnknownName.message (e : UnknownName) : String :=
  "unknown " ++ e.kind ++ " " ++ Text.quoted e.name

/-- The storage class of a variable. `other` is a number beyond the known classes. -/
inductive Mode where
  | local
  | global
  | uniform
  | shaderIn
  | shaderOut
  | other (number : Nat)
  deriving DecidableEq, Repr, Inhabited

namespace Mode

def ofNumber : Nat → Mode
  | 0 => .local
  | 1 => .global
  | 2 => .uniform
  | 3 => .shaderIn
  | 4 => .shaderOut
  | n => .other n

def number : Mode → Nat
  | .local => 0
  | .global => 1
  | .uniform => 2
  | .shaderIn => 3
  | .shaderOut => 4
  | .other n => n

def name : Mode → String
  | .local => "local"
  | .global => "global"
  | .uniform => "uniform"
  | .shaderIn => "shader_in"
  | .shaderOut => "shader_out"
  | .other _ => "?"

def named : List Mode := [.local, .global, .uniform, .shaderIn, .shaderOut]

def parse (s : String) : Except UnknownName Mode :=
  match named.find? (·.name == s) with
  | some m => .ok m
  | none => .error ⟨"variable mode", s⟩

end Mode

structure Variable where
  serial : Nat
  id : Int
  name : String
  type : Ty
  mode : Mode
  /-- Constant components, if the declaration gives any. -/
  init : Option (List UInt64)
  deriving DecidableEq, Inhabited

end ShaderIR
