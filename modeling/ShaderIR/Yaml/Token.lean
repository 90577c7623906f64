import ShaderIR.Yaml.Folding
import Std.Data.TreeMap

/-!
# Tokens

The text is cut into marks and scalars. Indentation becomes tokens that open and close block
collections. A word turns out to be a mapping key only when its colon is met, so each level of
brackets remembers where its latest candidate for a key began, and the key token is slipped in
there. A token is handed out when two more are known behind it and it is no open candidate; beyond
that the text is not looked at.
-/

set_option autoImplicit false

namespace ShaderIR.Yaml

inductive TokenKind where
  | version (major minor : Nat)
  | documentStart
  | documentEnd
  | blockSeqStart
  | blockMapStart
  | blockEnd
  | flowSeqStart
  | flowSeqEnd
  | flowMapStart
  | flowMapEnd
  | blockEntry
  | flowEntry
  | key
  | value
  | scalar (plain : Bool) (text : String)
  | streamEnd
  deriving DecidableEq, Repr, Inhabited

structure Token where
  kind : TokenKind
  line : Nat
  deriving DecidableEq, Repr, Inhabited

/-- Where a key may have begun: before the token with this number. A required one stands where
the block mapping around it expects a key. -/
structure Candidate where
  number : Nat
  possible : Bool
  required : Bool
  line : Nat
  column : Nat
  index : Nat
  deriving DecidableEq, Repr, Inhabited

/-- Tokens are numbered from zero; those below `taken` have been handed out. -/
structure Scan where
  source : Source
  tokens : Array Token
  taken : Nat
  indent : Int
  indents : List Int
  /-- The candidate of the block level and one for each open bracket, the innermost last. -/
  candidates : Array Candidate
  /-- The tokens that wait for a candidate, with its level. -/
  awaited : Std.TreeMap Nat Nat
  keyAllowed : Bool
  deriving Inhabited

abbrev Scanning := StateT Scan (Except SyntaxError)

namespace Scan

def ofText (text : String) : Scan :=
  { source := .ofText text, tokens := #[], taken := 0, indent := -1, indents := []
    candidates := #[⟨0, false, false, 0, 0, 0⟩], awaited := ∅, keyAllowed := true }

def depth (s : Scan) : Nat := s.candidates.size - 1

def flow (s : Scan) : Bool := 0 < s.depth

def latest (s : Scan) : Candidate := s.candidates.back?.getD default

def setLatest (s : Scan) (k : Candidate) : Scan :=
  { s with candidates := s.candidates.pop.push k }

def push (s : Scan) (kind : TokenKind) (line : Nat) : Scan :=
  { s with tokens := s.tokens.push ⟨kind, line⟩ }

/-- Slips a token in front of the token with the given number. Where that has been handed out, the
token goes to the end. -/
def slipIn (s : Scan) (number : Nat) (kind : TokenKind) (line : Nat) : Scan :=
  if s.taken ≤ number then { s with tokens := s.tokens.insertIdxIfInBounds number ⟨kind, line⟩ }
  else s.push kind line

def holds (s : Scan) (k : Candidate) : Bool :=
  -- a key stays on one line and within 1024 characters
  !(k.line < s.source.line) && !(k.index + 1024 < s.source.index)

def maxDepth : Nat := 10000

end Scan

open Scan

def onSource {α : Type} (r : Reading α) : Scanning α := do
  let s ← get
  let (a, source) ← r.run s.source
  MonadState.set { s with source := source }
  return a

def candidateHolds (level : Nat) : Scanning Bool := do
  let s ← get
  match s.candidates[level]? with
  | none => return false
  | some k =>
    if !k.possible then return false
    else if s.holds k then return true
    else if k.required then throw .keyWithoutColon
    else
      MonadState.set
        { s with candidates := s.candidates.setIfInBounds level { k with possible := false } }
      return false

def dropCandidate : Scanning Unit := do
  let s ← get
  let k := s.latest
  if k.possible then
    if k.required then throw .keyWithoutColon
    MonadState.set
      { s.setLatest { k with possible := false } with awaited := s.awaited.erase k.number }

def saveCandidate : Scanning Unit := do
  let s ← get
  if s.keyAllowed then
    dropCandidate
    modify fun t =>
      let required := !s.flow && s.indent == (s.source.column : Int)
      { t.setLatest
          ⟨s.tokens.size, true, required, s.source.line, s.source.column, s.source.index⟩ with
        awaited := t.awaited.insert s.tokens.size s.depth }

def indentTo (column number : Nat) (kind : TokenKind) (line : Nat) : Scanning Unit := do
  let s ← get
  if !s.flow && s.indent < (column : Int) then
    if maxDepth ≤ s.indents.length then throw .tooDeep
    MonadState.set
      { s.slipIn number kind line with indents := s.indent :: s.indents, indent := (column : Int) }

def indentHere (kind : TokenKind) : Scanning Unit := do
  let s ← get
  indentTo s.source.column s.tokens.size kind s.source.line

def Scan.outdentTo (s : Scan) (column : Int) : Scan :=
  if s.flow then s else close s s.indents
where
  close (s : Scan) : List Int → Scan
    | [] => s
    | outer :: outers =>
      if column < s.indent then
        close { s.push .blockEnd s.source.line with indent := outer, indents := outers } outers
      else s

/-- Goes over spaces, comments and line breaks. A tab may not indent a line outside of brackets.
After a line break outside of them a key is allowed again. A text portion that began with a byte
order mark loses the first character of each line. -/
def toNextToken : Nat → Scanning Unit
  | 0 => pure ()
  | fuel + 1 => do
    onSource (reach 1)
    let s ← get
    let tabs := s.flow || !s.keyAllowed
    onSource do
      if s.source.column = 0 && (← get).front == byteOrderMark then advance
      skipWhile (fun c => c == ' ' || (tabs && c == '\t')) s.source.left
      if (← ahead 0) == '#' then skipComments s.source.left 0
    if isBreak ((← get).source.ahead 0) then
      let _ ← onSource takeBreak
      if !s.flow then modify fun t => { t with keyAllowed := true }
      toNextToken fuel

def mark (kind : TokenKind) (length : Nat) (keyAllowed : Bool) : Scanning Unit := do
  let line := (← get).source.line
  onSource (advanceBy length)
  modify fun s => { s.push kind line with keyAllowed := keyAllowed }

def closeAll : Scanning Unit := do
  modify (·.outdentTo (-1))
  dropCandidate

def streamEnd : Scanning Unit := do
  modify fun s =>
    let src := s.source
    { s with source := if src.column = 0 then src else { src with line := src.line + 1, column := 0 } }
  closeAll
  modify fun s => { s.push .streamEnd s.source.line with keyAllowed := false }

def documentMark (kind : TokenKind) : Scanning Unit := do
  closeAll
  mark kind 3 false

def versionNumber : Reading Nat := do
  reach 1
  let s ← get
  let digits := (s.rest.take 3).takeWhile Char.isDigit
  if digits.isEmpty || 2 < digits.length then throw .badDirective
  skipWhile Char.isDigit s.left
  return digits.foldl (fun n c => 10 * n + (c.toNat - '0'.toNat)) 0

def versionLine : Reading TokenKind := do
  advance
  reach 5
  let s ← get
  if String.ofList (s.rest.take 4) ≠ "YAML" || !endsWord (s.ahead 4) then throw .badDirective
  advanceBy 4
  skipBlanks
  let major ← versionNumber
  if (← ahead 0) ≠ '.' then throw .badDirective
  advance
  let minor ← versionNumber
  skipBlanks
  if (← ahead 0) == '#' then skipLine
  let c ← ahead 0
  if !endsLine c then throw .badDirective
  if c ≠ endMark then
    let _ ← takeBreak
  return .version major minor

def directive : Scanning Unit := do
  closeAll
  let line := (← get).source.line
  let kind ← onSource versionLine
  modify fun s => { s.push kind line with keyAllowed := false }

def openBracket (kind : TokenKind) : Scanning Unit := do
  saveCandidate
  let s ← get
  if maxDepth ≤ s.depth then throw .tooDeep
  let src := s.source
  MonadState.set { s with
    candidates :=
      s.candidates.push ⟨s.tokens.size, false, false, src.line, src.column, src.index⟩ }
  mark kind 1 true

def closeBracket (kind : TokenKind) : Scanning Unit := do
  dropCandidate
  modify fun s =>
    if s.flow then
      { s with awaited := s.awaited.erase s.latest.number, candidates := s.candidates.pop }
    else s
  mark kind 1 false

def flowEntry : Scanning Unit := do
  dropCandidate
  mark .flowEntry 1 true

def blockEntry : Scanning Unit := do
  let s ← get
  if !s.flow && !s.keyAllowed then throw .misplacedEntry
  indentHere .blockSeqStart
  dropCandidate
  mark .blockEntry 1 true

def explicitKey : Scanning Unit := do
  let s ← get
  if !s.flow && !s.keyAllowed then throw .misplacedKey
  indentHere .blockMapStart
  dropCandidate
  mark .key 1 (!s.flow)

def valueMark : Scanning Unit := do
  if ← candidateHolds (← get).depth then
    let k := (← get).latest
    modify (·.slipIn k.number .key k.line)
    indentTo k.column k.number .blockMapStart k.line
    modify fun s =>
      { s.setLatest { k with possible := false } with awaited := s.awaited.erase k.number }
    mark .value 1 false
  else
    let s ← get
    if !s.flow && !s.keyAllowed then throw .misplacedValue
    indentHere .blockMapStart
    mark .value 1 (!s.flow)

def quoted (quote : Char) : Scanning Unit := do
  saveCandidate
  let line := (← get).source.line
  let f ← onSource do
    advance
    quotedScalar quote ((← get).left + 1) true .start
  modify fun s => { s.push (.scalar false f.result) line with keyAllowed := false }

def plain : Scanning Unit := do
  saveCandidate
  let s ← get
  let f ← onSource
    (plainScalar s.flow (s.indent + 1).toNat (s.source.left + 1) true .start)
  modify fun t =>
    { t.push (.scalar true f.result) s.source.line with keyAllowed := f.broken.isSome }

def isIndicator (c : Char) : Bool :=
  c == '-' || c == '?' || c == ':' || c == ',' || c == '[' || c == ']' || c == '{' || c == '}' ||
    c == '#' || c == '&' || c == '*' || c == '!' || c == '|' || c == '>' || c == '\'' ||
    c == '"' || c == '%' || c == '@' || c == Char.ofNat 0x60

/-- Whether a plain scalar begins with `c` before `d`. A dash, and outside of brackets a question
mark or a colon, may begin one if the word goes on. -/
def startsPlain (flow : Bool) (c d : Char) : Bool :=
  (!isIndicator c && !endsWord c) || (c == '-' && !isBlank d) ||
    (!flow && (c == '?' || c == ':') && !endsWord d)

def contentToken : Scanning Unit := do
  let s ← get
  let c := s.source.ahead 0
  let d := s.source.ahead 1
  match c with
  | '[' => openBracket .flowSeqStart
  | '{' => openBracket .flowMapStart
  | ']' => closeBracket .flowSeqEnd
  | '}' => closeBracket .flowMapEnd
  | ',' => flowEntry
  | '\'' | '"' => quoted c
  | _ =>
    if c == '-' && endsWord d then blockEntry
    else if c == '?' && (s.flow || endsWord d) then explicitKey
    else if c == ':' && (s.flow || endsWord d) then valueMark
    else if startsPlain s.flow c d then plain
    else throw .strayCharacter

/-- Adds the next token, and those that close and open block collections before it. A comment
behind it goes with it, save behind the dash of an entry. -/
def scanToken : Scanning Unit := do
  toNextToken ((← get).source.left + 1)
  modify fun s => s.outdentTo s.source.column
  onSource (reach 4)
  let s ← get
  let src := s.source
  if src.ahead 0 == endMark then streamEnd
  else if src.column = 0 && src.ahead 0 == '%' then directive
  else if src.atMark '-' then documentMark .documentStart
  else if src.atMark '.' then documentMark .documentEnd
  else
    contentToken
    if (← get).tokens.back?.map (·.kind) ≠ some .blockEntry then onSource skipTrailingComment

def scanAhead : Nat → Scanning Unit
  | 0 => pure ()
  | fuel + 1 => do
    let s ← get
    let waits ←
      if s.taken + 2 < s.tokens.size then
        match s.awaited[s.taken]? with
        | some level => candidateHolds level
        | none => pure false
      else pure true
    if waits then
      scanToken
      scanAhead fuel

def peekToken : Scanning Token := do
  scanAhead ((← get).source.left + 4)
  let s ← get
  -- the end of the text is repeated for ever
  return s.tokens[s.taken]?.getD ⟨.streamEnd, 0⟩

def takeToken : Scanning Unit := modify fun s => { s with taken := s.taken + 1 }

end ShaderIR.Yaml
