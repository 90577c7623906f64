import ShaderIR.Yaml.Source

/-!
# Scalars over several lines

A plain or quoted scalar may run over lines. Spaces at the ends of its lines are dropped, a single
line break becomes a space, and further breaks are kept.
-/

set_option autoImplicit false

namespace ShaderIR.Yaml

/-- A scalar as read so far, last character first. `pending` holds spaces that are dropped if the
line ends here. Once it has ended, `broken` holds the first break, which an escaped break lacks,
and `further` the others. -/
structure Folding where
  text : List Char
  pending : List Char
  broken : Option (Option Char)
  further : List Char
  deriving DecidableEq, Inhabited

namespace Folding

def start : Folding := ⟨[], [], none, []⟩

def space (f : Folding) (c : Char) : Folding :=
  if f.broken.isSome then f else { f with pending := c :: f.pending }

def lineBreak (f : Folding) (c : Char) : Folding :=
  if f.broken.isSome then { f with further := c :: f.further }
  else { f with pending := [], broken := some (some c) }

def escapedBreak (f : Folding) : Folding :=
  { f with pending := [], broken := some none }

def join (f : Folding) : Folding :=
  let between := match f.broken with
    | none => f.pending
    | some (some c) =>
      if c == '\n' then (if f.further.isEmpty then [' '] else f.further) else f.further ++ [c]
    | some none => f.further
  ⟨between ++ f.text, [], none, []⟩

def char (f : Folding) (c : Char) : Folding :=
  let f := f.join
  { f with text := c :: f.text }

def result (f : Folding) : String := String.ofList f.text.reverse

end Folding

def foldSpace (indent : Nat) : Nat → Folding → Reading Folding
  | 0, f => pure f
  | fuel + 1, f => do
    let s ← get
    let c := s.ahead 0
    if isBlank c then
      if f.broken.isSome && c == '\t' && s.column < indent then throw .tabIndentation
      advance
      reach 1
      foldSpace indent fuel (f.space c)
    else if isBreak c then
      let b ← takeBreak
      reach 1
      foldSpace indent fuel (f.lineBreak b)
    else return f

def isFlowIndicator (c : Char) : Bool :=
  c == ',' || c == '?' || c == '[' || c == ']' || c == '{' || c == '}'

/-- Reads a plain scalar. It ends before a colon that ends a word, a comment, a document mark, an
indicator inside brackets, or a line that is indented less than `indent` outside of them. `fresh`
tells that a word begins here. -/
def plainScalar (flow : Bool) (indent : Nat) : Nat → (fresh : Bool) → Folding → Reading Folding
  | 0, _, f => pure f
  | fuel + 1, fresh, f => do
    if fresh then reach 4
    let s ← get
    let c := s.ahead 0
    if fresh && (s.atDocumentMark || c == '#') then return f
    else if !endsWord c then
      if (c == ':' && endsWord (s.ahead 1)) || (flow && isFlowIndicator c) then return f
      else
        advance
        reach 2
        plainScalar flow indent fuel false (f.char c)
    else if c == endMark then return f
    else
      reach 1
      let f ← foldSpace indent (s.left + 1) f
      if !flow && (← get).column < indent then return f
      else plainScalar flow indent fuel true f

def simpleEscape? (c : Char) : Option Char :=
  match c with
  | '0' => some (Char.ofNat 0)
  | 'a' => some (Char.ofNat 7)
  | 'b' => some (Char.ofNat 8)
  | 't' | '\t' => some '\t'
  | 'n' => some '\n'
  | 'v' => some (Char.ofNat 11)
  | 'f' => some (Char.ofNat 12)
  | 'r' => some '\r'
  | 'e' => some (Char.ofNat 27)
  | ' ' | '"' | '\'' | '\\' => some c
  | 'N' => some (Char.ofNat 0x85)
  | '_' => some (Char.ofNat 0xA0)
  | 'L' => some (Char.ofNat 0x2028)
  | 'P' => some (Char.ofNat 0x2029)
  | _ => none

def escapeDigits? (c : Char) : Option Nat :=
  match c with
  | 'x' => some 2
  | 'u' => some 4
  | 'U' => some 8
  | _ => none

def hexDigit? (c : Char) : Option Nat :=
  if '0' ≤ c ∧ c ≤ '9' then some (c.toNat - '0'.toNat)
  else if 'a' ≤ c ∧ c ≤ 'f' then some (c.toNat - 'a'.toNat + 10)
  else if 'A' ≤ c ∧ c ≤ 'F' then some (c.toNat - 'A'.toNat + 10)
  else none

def hexNumber? (cs : List Char) : Option Nat :=
  cs.foldlM (fun n c => (hexDigit? c).map (16 * n + ·)) 0

def escaped : Reading Char := do
  let c ← ahead 1
  match simpleEscape? c, escapeDigits? c with
  | some e, _ =>
    advanceBy 2
    return e
  | none, some n =>
    advanceBy 2
    reach n
    let digits := (List.range n).map (← get).ahead
    match hexNumber? digits with
    | some code =>
      if code.isValidChar then
        advanceBy n
        return Char.ofNat code
      else throw .badEscape
    | none => throw .badEscape
  | none, none => throw .badEscape

/-- Reads a quoted scalar after its opening quote. In single quotes a doubled quote stands for one,
in double quotes there are escapes. `fresh` tells that a word begins here. -/
def quotedScalar (quote : Char) : Nat → (fresh : Bool) → Folding → Reading Folding
  | 0, _, _ => throw .unclosedQuote
  | fuel + 1, fresh, f => do
    if fresh then reach 4
    let s ← get
    let c := s.ahead 0
    if fresh && s.atDocumentMark then throw .markInQuotes
    else if c == endMark then throw .unclosedQuote
    else if endsWord c then
      let f ← foldSpace 0 (s.left + 1) f
      quotedScalar quote fuel true f
    else if c == '\'' && quote == '\'' && s.ahead 1 == '\'' then
      advanceBy 2
      reach 2
      quotedScalar quote fuel false (f.char c)
    else if c == quote then
      advance
      return f.join
    else if c == '\\' && quote == '"' then
      if isBreak (s.ahead 1) then
        reach 3
        advance
        let _ ← takeBreak
        reach 1
        let f := f.join.escapedBreak
        if (← ahead 0) == quote then
          advance
          return f.join
        else
          let f ← foldSpace 0 (s.left + 1) f
          quotedScalar quote fuel true f
      else
        let e ← escaped
        reach 2
        quotedScalar quote fuel false (f.char e)
    else
      advance
      reach 2
      quotedScalar quote fuel false (f.char c)

end ShaderIR.Yaml
