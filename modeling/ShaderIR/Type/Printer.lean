import ShaderIR.Type.Basic

/-!
# Writing types

An array is written with its dimensions after the innermost element, the outermost dimension
first: an array of three `float[4]` is `float[3][4]`.
-/

set_option autoImplicit false

namespace ShaderIR.Ty

def peel : Ty → Ty × List Int
  | array t n => let (base, dims) := peel t; (base, n :: dims)
  | t => (t, [])

def renderDim (n : Int) : String := "[" ++ toString n ++ "]"

def renderBase : Ty → String
  | scalar b => b.name
  | vector b n => b.vectorStem ++ toString n
  | struct name _ => if name = "" then "struct <anonymous>" else "struct " ++ name
  | array _ _ | absent => "?"

def render (t : Ty) : String :=
  renderBase t.peel.1 ++ String.join (t.peel.2.map renderDim)

def shown : Ty → String
  | absent => "%!s(<nil>)"
  | t => t.render

end ShaderIR.Ty
