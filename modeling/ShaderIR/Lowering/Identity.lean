import ShaderIR.Printer

/-!
# The identity of a place

Two chains name parts of the same register when they start at the same variable and select the
same struct fields; array indices do not count. The hash of a chain covers what identity compares,
so chains of one identity have one hash.
-/

set_option autoImplicit false

namespace ShaderIR

inductive LowerError where
  | unexpectedLink (kind : String)
  | noVariable
  | badLeaf (type : Ty)
  | localCopy (text : String)
  | unfoldedOffset (base : Int)
  | initializer (name : String)
  deriving DecidableEq

def LowerError.message : LowerError → String
  | unexpectedLink kind => "malformed deref chain: unexpected " ++ kind ++ " link"
  | noVariable => "malformed deref chain: chain does not end at a variable"
  | badLeaf t => "malformed deref chain: leaf type " ++ t.shown ++ " is not a vector or scalar"
  | localCopy text => "copy_deref on local storage: " ++ text
  | unfoldedOffset n => "base offset not folded into indirect index: offset " ++ toString n
  | initializer name => "local variable has a constant initializer: " ++ name

namespace Lowering

/-- One step of the 32-bit FNV-1a hash. -/
def hashByte (h : UInt32) (byte : UInt64) : UInt32 :=
  (h ^^^ byte.toUInt32) * 16777619

def hashWord (h : UInt32) (w : UInt64) : UInt32 :=
  ([0, 8, 16, 24, 32, 40, 48, 56] : List UInt64).foldl (fun h s => hashByte h ((w >>> s) &&& 255)) h

def hashStart : UInt32 := 2166136261

def hashFrom : UInt32 → List Link → Except LowerError UInt32
  | _, [] => .error .noVariable
  | h, link :: rest =>
    match link.kind with
    | .var v => .ok (hashWord h (UInt64.ofInt v.id))
    | .array _ => hashFrom h rest
    | .struct field => hashFrom (hashWord h (UInt64.ofNat field)) rest
    | .cast => .error (.unexpectedLink link.kind.name)

def hashChain (links : List Link) : Except LowerError UInt32 :=
  hashFrom hashStart links

/-- Compares two chains link by link, so chains of different shape differ. -/
def samePlace : List Link → List Link → Except LowerError Bool
  | [], [] => .error .noVariable
  | [], _ :: _ | _ :: _, [] => .ok false
  | a :: as, b :: bs =>
    match a.kind, b.kind with
    | .var v, .var w => .ok (v = w)
    | .array _, .array _ => samePlace as bs
    | .struct f, .struct g => if f = g then samePlace as bs else .ok false
    | .cast, .cast => .error (.unexpectedLink a.kind.name)
    | _, _ => .ok false

end Lowering

end ShaderIR
