import ShaderIR.Text.Integer
import ShaderIR.Yaml.Timestamp

/-!
# What a plain scalar means

An unquoted word may be null, a truth value, an integer, a floating point number, a point in time
or the mark that merges mappings; any other word is text. Integers may be written in four bases and
with underscores anywhere. A float is the double nearest to what is written, and a number too large
for a double is text.
-/

set_option autoImplicit false

namespace ShaderIR.Yaml

open Text

/-- A double. A finite one is `mantissa * 2 ^ exponent`, up to the sign. -/
inductive Double where
  | nan
  | infinite (negative : Bool)
  | finite (negative : Bool) (mantissa : Nat) (exponent : Int)
  deriving DecidableEq, Repr

inductive Scalar where
  | null
  | bool
  | int (n : Int)
  | float (x : Double)
  | timestamp
  | merge
  | text
  deriving DecidableEq, Repr

def Scalar.tag : Scalar → String
  | null => "!!null"
  | bool => "!!bool"
  | int _ => "!!int"
  | float _ => "!!float"
  | timestamp => "!!timestamp"
  | merge => "!!merge"
  | text => "!!str"

namespace Double

def roundDiv (num den : Nat) : Nat :=
  let q := num / den
  let r := num % den
  if den < 2 * r || (2 * r == den && q % 2 == 1) then q + 1 else q

def scaled (num den : Nat) (e : Int) : Nat :=
  if 0 ≤ e then roundDiv num (den <<< e.toNat) else roundDiv (num <<< (-e).toNat) den

/-- The least exponent that leaves a significand of at most 53 bits, and at least that of the
smallest double. -/
def exponentFor (num den : Nat) : Int :=
  let guess : Int := (Nat.log2 num : Int) - Nat.log2 den - 53
  let fits (e : Int) : Bool :=
    if 0 ≤ e then num < den <<< (e.toNat + 53)
    else num <<< (-e).toNat < den <<< 53
  max (-1074) (if fits guess then guess else if fits (guess + 1) then guess + 1 else guess + 2)

def nearest? (negative : Bool) (num den : Nat) : Option Double :=
  let e := exponentFor num den
  let m := scaled num den e
  if 0 ≤ e && 1 <<< 1024 ≤ m <<< e.toNat then none else some (.finite negative m e)

/-- The double nearest to `digits * 10 ^ e`. Exponents far out of range are settled by size. -/
def ofDecimal? (negative : Bool) (digits : Nat) (e : Int) : Option Double :=
  let magnitude : Int := (Nat.toDigits 10 digits).length + e
  if digits = 0 || magnitude < -330 then some (.finite negative 0 0)
  else if 310 < magnitude then none
  else if 0 ≤ e then nearest? negative (digits * Nat.pow 10 e.toNat) 1
  else nearest? negative digits (Nat.pow 10 (-e).toNat)

def whole (mantissa : Nat) (exponent : Int) : Nat :=
  if 0 ≤ exponent then mantissa <<< exponent.toNat else mantissa >>> (-exponent).toNat

def toSignedWord (negative : Bool) (n : Nat) : Int :=
  if negative then (if n ≤ 0x8000000000000000 then -(n : Int) else -0x8000000000000000)
  else if n < 0x8000000000000000 then n else -0x8000000000000000

def toInt64? : Double → Option Int
  | nan => none
  | infinite negative => if negative then some (-0x8000000000000000) else none
  | finite negative m e =>
    let n := whole m e
    if !negative && 0x8000000000000000 < n then none else some (toSignedWord negative n)

/-- An unsigned 64-bit integer, refused when the double is above that range. A negative double is
cut as a signed word and read as unsigned. -/
def toUInt64? : Double → Option Nat
  | nan => none
  | infinite negative => if negative then some 0x8000000000000000 else none
  | finite negative m e =>
    let n := whole m e
    if negative then some ((toSignedWord true n) % 0x10000000000000000).toNat
    else if 0x10000000000000000 < n then none
    else some (n % 0x10000000000000000)

end Double

def splitSign : List Char → Bool × List Char
  | '-' :: cs => (true, cs)
  | '+' :: cs => (false, cs)
  | cs => (false, cs)

def exponent? : List Char → Option Int
  | [] => some 0
  | c :: cs =>
    if c = 'e' ∨ c = 'E' then
      let (negative, ds) := splitSign cs
      (digits 10 ds).map fun n => if negative then -(n : Int) else n
    else none

def float? (cs : List Char) : Option Double := do
  let (negative, cs) := splitSign cs
  let front := cs.takeWhile Char.isDigit
  let rest := cs.dropWhile Char.isDigit
  let (back, rest) := match rest with
    | '.' :: ds => (ds.takeWhile Char.isDigit, ds.dropWhile Char.isDigit)
    | ds => ([], ds)
  let e ← exponent? rest
  let n ← digits 10 (front ++ back)
  Double.ofDecimal? negative n (e - back.length)

def separatesDigits (digit : Bool) : List Char → Bool
  | [] => true
  | '_' :: cs => digit && (cs.head?.any Char.isDigit) && separatesDigits false cs
  | c :: cs => separatesDigits c.isDigit cs

def pointFloat? (cs : List Char) : Option Double :=
  if separatesDigits false cs then float? (cs.filter (· != '_')) else none

def integer? (cs : List Char) : Option Int :=
  match literal? cs with
  | some n => some n
  | none =>
    ((unsignedLiteral cs).filter (· < 0x10000000000000000)).map fun n => (n : Int)

def innerSigned? : List Char → Option Int
  | '0' :: 'b' :: cs => (signed (digits 2) cs).filter inInt64
  | '0' :: 'o' :: cs => (signed (digits 8) cs).filter inInt64
  | _ => none

def number (cs : List Char) : Scalar :=
  let plain := cs.filter (· != '_')
  match integer? plain with
  | some n => .int n
  | none =>
    match float? plain with
    | some x => .float x
    | none =>
      match innerSigned? plain with
      | some n => .int n
      | none => .text

def fixedWords : List (String × Scalar) :=
  let words (s : Scalar) (ws : List String) := ws.map fun w => (w, s)
  words .bool ["true", "True", "TRUE", "false", "False", "FALSE"] ++
    words .null ["", "~", "null", "Null", "NULL"] ++
    words (.float .nan) [".nan", ".NaN", ".NAN"] ++
    words (.float (.infinite false)) [".inf", ".Inf", ".INF", "+.inf", "+.Inf", "+.INF"] ++
    words (.float (.infinite true)) ["-.inf", "-.Inf", "-.INF"] ++
    words .merge ["<<"]

def resolve (word : String) : Scalar :=
  match fixedWords.lookup word with
  | some s => s
  | none =>
    match word.toList with
    | '.' :: cs =>
      match pointFloat? ('.' :: cs) with
      | some x => .float x
      | none => .text
    | c :: cs =>
      if Timestamp.isTimestamp (c :: cs) then .timestamp
      else if c.isDigit || c == '+' || c == '-' then number (c :: cs)
      else .text
    | [] => .text

end ShaderIR.Yaml
