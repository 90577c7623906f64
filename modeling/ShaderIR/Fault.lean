/-!
# Where a pass failed

A pass stops at the first instruction it cannot handle. The fault names the block by its index and,
when a whole shader was processed, the function.
-/

set_option autoImplicit false

namespace ShaderIR

structure Fault (ε : Type) where
  function : Option String
  block : Nat
  cause : ε
  deriving DecidableEq

def Fault.message {ε : Type} (describe : ε → String) (f : Fault ε) : String :=
  (match f.function with
    | some name => "function " ++ name ++ ": "
    | none => "") ++ "block " ++ toString f.block ++ ": " ++ describe f.cause

end ShaderIR
