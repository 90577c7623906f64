import ShaderIR.Text.Quoted

/-!
# Format versions

A description states the version of its format: up to three numbers, then an optional pre-release
and optional build data. Descriptions of the first major version are read, pre-releases are not.
-/

set_option autoImplicit false

namespace ShaderIR

structure Version where
  major : Nat
  minor : Nat
  patch : Nat
  pre : String
  build : String
  deriving DecidableEq, Repr

inductive VersionError where
  | invalid
  | segmentOutOfRange (digits : String)
  | leadingZero
  deriving DecidableEq, Repr

def VersionError.message : VersionError → String
  | invalid => "Invalid Semantic Version"
  | segmentOutOfRange ds =>
    "Error parsing version segment: strconv.ParseUint: parsing " ++ Text.quoted ds ++
      ": value out of range"
  | leadingZero => "Version segment starts with 0"

namespace Version

def render (v : Version) : String :=
  toString v.major ++ "." ++ toString v.minor ++ "." ++ toString v.patch ++
    (if v.pre = "" then "" else "-" ++ v.pre) ++ (if v.build = "" then "" else "+" ++ v.build)

def isLabelChar (c : Char) : Bool := c.isAlphanum || c == '-'

def labels : List Char → List (List Char)
  | [] => [[]]
  | '.' :: cs => [] :: labels cs
  | c :: cs =>
    match labels cs with
    | l :: ls => (c :: l) :: ls
    | [] => [[c]]

def validLabels (cs : List Char) : Bool :=
  (labels cs).all fun l => !l.isEmpty && l.all isLabelChar

def moreNumbers : Nat → List Char → List (List Char) × List Char
  | n + 1, '.' :: cs =>
    if (cs.takeWhile Char.isDigit).isEmpty then ([], '.' :: cs)
    else
      let (rest, tail) := moreNumbers n (cs.dropWhile Char.isDigit)
      (cs.takeWhile Char.isDigit :: rest, tail)
  | _, cs => ([], cs)

def marked (mark : Char) : List Char → Option (List Char)
  | [] => none
  | c :: cs => if c = mark then some cs else none

def parts? (text : String) : Option (List (List Char) × List Char × List Char) :=
  let cs := match text.toList with
    | 'v' :: cs => cs
    | cs => cs
  let front := cs.takeWhile Char.isDigit
  if front.isEmpty then none
  else
    let (more, tail) := moreNumbers 2 (cs.dropWhile Char.isDigit)
    let (pre, tail) := match marked '-' tail with
      | some rest => (some (rest.takeWhile (· != '+')), rest.dropWhile (· != '+'))
      | none => (none, tail)
    let (build, tail) := match marked '+' tail with
      | some rest => (some rest, [])
      | none => (none, tail)
    if tail.isEmpty && pre.all validLabels && build.all validLabels then
      some (front :: more, pre.getD [], build.getD [])
    else none

def segment (ds : List Char) : Except VersionError Nat :=
  match Text.digits 10 ds with
  | some n => if n < 0x10000000000000000 then .ok n else .error (.segmentOutOfRange (String.ofList ds))
  | none => .error .invalid

def leadingZeros (pre : List Char) : Bool :=
  (labels pre).any fun l => l.all Char.isDigit && 1 < l.length && l.head? == some '0'

def parse (text : String) : Except VersionError Version := do
  match parts? text with
  | none => throw .invalid
  | some (numbers, pre, build) =>
    let numbers ← numbers.mapM segment
    if leadingZeros pre then throw .leadingZero
    return ⟨numbers.getD 0 0, numbers.getD 1 0, numbers.getD 2 0, String.ofList pre,
      String.ofList build⟩

def supportedRange : String := "^1.0"

def supported (v : Version) : Bool := v.major == 1 && v.pre == ""

end Version

end ShaderIR
