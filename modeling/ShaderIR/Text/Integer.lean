/-!
# Integers in text

Two notations are read. A *decimal* is an optional sign and decimal digits. A *literal* may also
carry a base mark (`0x`, `0b`, `0o`, or a bare leading zero for octal) and may separate its digits
by underscores. Both denote signed 64-bit integers, and a text outside that range is no integer
at all. Arithmetic on them wraps, which `wrap64` states once.
-/

set_option autoImplicit false

namespace ShaderIR.Text

def wrap64 (n : Int) : Int := n.bmod 0x10000000000000000

def inInt64 (n : Int) : Bool := decide (-0x8000000000000000 ≤ n ∧ n < 0x8000000000000000)

def digitValue (c : Char) : Option Nat :=
  if '0' ≤ c ∧ c ≤ '9' then some (c.toNat - '0'.toNat)
  else if 'a' ≤ c ∧ c ≤ 'z' then some (c.toNat - 'a'.toNat + 10)
  else if 'A' ≤ c ∧ c ≤ 'Z' then some (c.toNat - 'A'.toNat + 10)
  else none

def digitsFrom (base : Nat) : Nat → List Char → Option Nat
  | acc, [] => some acc
  | acc, c :: cs =>
    match digitValue c with
    | some d => if d < base then digitsFrom base (base * acc + d) cs else none
    | none => none

def digits (base : Nat) : List Char → Option Nat
  | [] => none
  | cs => digitsFrom base 0 cs

def signed (read : List Char → Option Nat) : List Char → Option Int
  | '-' :: cs => (read cs).map fun n => -(n : Int)
  | '+' :: cs => (read cs).map fun n => (n : Int)
  | cs => (read cs).map fun n => (n : Int)

def decimal? (cs : List Char) : Option Int :=
  (signed (digits 10) cs).filter inInt64

/-- Every underscore stands between two digits; `afterDigit` tells whether a digit, or a base
mark that counts as one, stands right before the text. -/
def separated : Bool → List Char → Bool
  | _, [] => true
  | afterDigit, '_' :: cs =>
    afterDigit && (match cs with
      | [] => false
      | c :: _ => c != '_') && separated false cs
  | _, _ :: cs => separated true cs

def separatedDigits (base : Nat) (marked : Bool) (cs : List Char) : Option Nat :=
  if separated marked cs then digitsFrom base 0 (cs.filter (· != '_')) else none

/-- An unsigned literal. A base mark needs a digit after it, and a lone zero is octal zero. -/
def unsignedLiteral : List Char → Option Nat
  | [] => none
  | '0' :: m :: c :: cs =>
    if m = 'x' ∨ m = 'X' then separatedDigits 16 true (c :: cs)
    else if m = 'b' ∨ m = 'B' then separatedDigits 2 true (c :: cs)
    else if m = 'o' ∨ m = 'O' then separatedDigits 8 true (c :: cs)
    else separatedDigits 8 true (m :: c :: cs)
  | '0' :: cs => separatedDigits 8 true cs
  | cs => separatedDigits 10 false cs

def literal? (cs : List Char) : Option Int :=
  (signed unsignedLiteral cs).filter inInt64

def hexPadded (width n : Nat) : String :=
  let ds := Nat.toDigits 16 n
  String.ofList (List.replicate (width - ds.length) '0' ++ ds)

end ShaderIR.Text
