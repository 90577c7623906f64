/-!
# The text of a document

A text is read in portions of at most 512 bytes, each only when a character of it is asked for, so
that what stands behind the end of a document may hold anything. A portion with a control character
is refused as a whole. The reader knows the place of the next character: its line, its column and
its index.
-/

set_option autoImplicit false

namespace ShaderIR.Yaml

inductive SyntaxError where
  | controlCharacter
  | strayCharacter
  | tabIndentation
  | keyWithoutColon
  | misplacedValue
  | misplacedEntry
  | misplacedKey
  | unclosedQuote
  | markInQuotes
  | badEscape
  | badDirective
  | tooDeep
  | expectedNode
  | expectedEntry
  | expectedKey
  | expectedSeparator
  | expectedDocument
  | mergeOfNoMapping
  deriving DecidableEq, Repr

def SyntaxError.message : SyntaxError → String
  | controlCharacter => "yaml: control characters are not allowed"
  | strayCharacter => "yaml: found character that cannot start any token"
  | tabIndentation => "yaml: found a tab character that violates indentation"
  | keyWithoutColon => "yaml: could not find expected ':'"
  | misplacedValue => "yaml: mapping values are not allowed in this context"
  | misplacedEntry => "yaml: block sequence entries are not allowed in this context"
  | misplacedKey => "yaml: mapping keys are not allowed in this context"
  | unclosedQuote => "yaml: found unexpected end of stream"
  | markInQuotes => "yaml: found unexpected document indicator"
  | badEscape => "yaml: found unknown escape character"
  | badDirective => "yaml: found unknown directive"
  | tooDeep => "yaml: exceeded max depth of 10000"
  | expectedNode => "yaml: did not find expected node content"
  | expectedEntry => "yaml: did not find expected '-' indicator"
  | expectedKey => "yaml: did not find expected key"
  | expectedSeparator => "yaml: did not find expected ',' or closing bracket"
  | expectedDocument => "yaml: did not find expected <document start>"
  | mergeOfNoMapping => "yaml: map merge requires map or sequence of maps as the value"

def isAllowed (c : Char) : Bool :=
  let n := c.toNat
  n == 0x09 || n == 0x0A || n == 0x0D || (0x20 ≤ n && n ≤ 0x7E) || n == 0x85 ||
    (0xA0 ≤ n && n ≤ 0xFFFD) || 0x10000 ≤ n

def endMark : Char := Char.ofNat 0

def byteOrderMark : Char := Char.ofNat 0xFEFF

def isBlank (c : Char) : Bool := c == ' ' || c == '\t'

def isBreak (c : Char) : Bool :=
  c == '\n' || c == '\r' || c == Char.ofNat 0x85 || c == Char.ofNat 0x2028 ||
    c == Char.ofNat 0x2029

def endsLine (c : Char) : Bool := c == endMark || isBreak c

def endsWord (c : Char) : Bool := isBlank c || endsLine c

structure Source where
  /-- The characters ahead, and how many they are. -/
  rest : List Char
  left : Nat
  /-- How many of them are in reach. An end mark in reach counts like a character. -/
  inReach : Nat
  /-- The numbers of characters in the portions to come, of which `none` holds a forbidden one. -/
  portions : List (Option Nat)
  /-- The character that was ahead when the latest portion came in. -/
  front : Char
  line : Nat
  column : Nat
  index : Nat
  /-- The line breaks since the last character that is no blank. -/
  breaks : Nat
  deriving Inhabited

abbrev Reading := StateT Source (Except SyntaxError)

namespace Source

def portionSize : Nat := 512

/-- Cuts a text into portions. `room` bytes are left in the one that has `count` characters. -/
def cut (room count : Nat) (sound : Bool) : List Char → List (Option Nat)
  | [] => if count = 0 then [] else [if sound then some count else none]
  | c :: cs =>
    if c.utf8Size ≤ room then cut (room - c.utf8Size) (count + 1) (sound && isAllowed c) cs
    else (if sound then some count else none) :: cut (portionSize - c.utf8Size) 1 (isAllowed c) cs

def ofText (text : String) : Source :=
  let start (cs : List Char) (room : Nat) : Source :=
    { rest := cs, left := cs.length, inReach := 0, portions := cut room 0 true cs, front := endMark
      line := 0, column := 0, index := 0, breaks := 0 }
  match text.toList with
  | c :: cs =>
    if c == byteOrderMark then start cs (portionSize - c.utf8Size) else start (c :: cs) portionSize
  | [] => start [] portionSize

def ahead (s : Source) (i : Nat) : Char := s.rest.getD i endMark

def fill (need inReach : Nat) : List (Option Nat) → Except SyntaxError (Nat × List (Option Nat))
  | [] => .ok (if inReach < need then inReach + 1 else inReach, [])
  | p :: ps =>
    if inReach < need then
      match p with
      | some n => fill need (inReach + n) ps
      | none => .error .controlCharacter
    else .ok (inReach, p :: ps)

def advance (s : Source) : Source :=
  { s with
    rest := s.rest.tail
    left := s.left - 1
    inReach := s.inReach - 1
    column := s.column + 1
    index := s.index + 1
    breaks := if isBlank (s.ahead 0) then s.breaks else 0 }

def nextLine (s : Source) : Source :=
  let n := if s.ahead 0 == '\r' && s.ahead 1 == '\n' then 2 else 1
  { s with
    rest := s.rest.drop n
    left := s.left - n
    inReach := s.inReach - n
    line := s.line + 1
    column := 0
    index := s.index + n
    breaks := s.breaks + 1 }

def atMark (s : Source) (mark : Char) : Bool :=
  s.column == 0 && s.ahead 0 == mark && s.ahead 1 == mark && s.ahead 2 == mark &&
    endsWord (s.ahead 3)

def atDocumentMark (s : Source) : Bool := s.atMark '-' || s.atMark '.'

end Source

def reach (need : Nat) : Reading Unit := do
  let s ← get
  if s.inReach < need then
    let (inReach, portions) ← Source.fill need s.inReach s.portions
    MonadState.set { s with inReach := inReach, portions := portions, front := s.ahead 0 }

def ahead (i : Nat) : Reading Char := return (← get).ahead i

def advance : Reading Unit := modify Source.advance

def advanceBy : Nat → Reading Unit
  | 0 => pure ()
  | n + 1 => do
    advance
    advanceBy n

/-- Takes a line break. All spellings of it read as one, save for the separators U+2028 and
U+2029. -/
def takeBreak : Reading Char := do
  reach 2
  let c ← ahead 0
  modify Source.nextLine
  return if c == '\r' || c == Char.ofNat 0x85 then '\n' else c

def skipWhile (p : Char → Bool) : Nat → Reading Unit
  | 0 => reach 1
  | fuel + 1 => do
    reach 1
    if p (← ahead 0) then
      advance
      skipWhile p fuel

def skipBlanks : Reading Unit := do skipWhile isBlank (← get).left

def skipLine : Reading Unit := do skipWhile (fun c => !endsLine c) (← get).left

/-- The distance of a comment that has nothing but blanks in front of it, or, if it may stand on a
later line, also line breaks of one byte. Further than a portion away no comment is seen. -/
def commentAhead (later : Bool) : List Char → Nat → Reading (Option Nat)
  | [], i => do
    if i < Source.portionSize then reach (i + 1)
    return none
  | c :: cs, i => do
    if Source.portionSize ≤ i then return none
    reach (i + 1)
    if isBlank c || (later && (c == '\n' || c == '\r')) then commentAhead later cs (i + 1)
    else
      if later && isBreak c && i + 1 < Source.portionSize then reach (i + 2)
      return if c == '#' then some i else none

def skipTo (target : Nat) : Nat → Reading Unit
  | 0 => pure ()
  | fuel + 1 => do
    let s ← get
    if s.index < target then
      reach 1
      if isBreak (s.ahead 0) then
        let _ ← takeBreak
      else advance
      skipTo target fuel

def skipComment (distance : Nat) : Reading Unit := do
  skipTo ((← get).index + distance) distance
  skipLine

def skipTrailingComment : Reading Unit := do
  let s ← get
  if s.breaks = 0 then
    match ← commentAhead false s.rest 0 with
    | some i => skipComment i
    | none => pure ()

def skipComments : Nat → Nat → Reading Unit
  | 0, _ => pure ()
  | fuel + 1, distance => do
    skipComment distance
    let s ← get
    -- Only a line break of one byte is looked across.
    let c := s.ahead 0
    if c == '\n' || c == '\r' then
      match ← commentAhead true s.rest.tail 1 with
      | some i => skipComments fuel i
      | none => pure ()
    else reach 2

end ShaderIR.Yaml
