import ShaderIR.Yaml.Token

/-!
# Documents

A document is a tree of scalars, sequences and mappings. Each node knows the line on which it
begins, counted from one.
-/

set_option autoImplicit false

namespace ShaderIR.Yaml

inductive Node where
  | scalar (line : Nat) (plain : Bool) (text : String)
  | seq (line : Nat) (items : List Node)
  | map (line : Nat) (entries : List (Node × Node))
  deriving Inhabited

namespace Node

def line : Node → Nat
  | scalar n _ _ | seq n _ | map n _ => n

def blank (t : Token) : Node := .scalar (t.line + 1) true ""

end Node

def endsEntry : TokenKind → Bool
  | .blockEntry | .blockEnd => true
  | _ => false

def endsIndentlessEntry : TokenKind → Bool
  | .blockEntry | .key | .value | .blockEnd => true
  | _ => false

def endsMapPart : TokenKind → Bool
  | .key | .value | .blockEnd => true
  | _ => false

def endsFlowPart (close : TokenKind) (k : TokenKind) : Bool :=
  k == .flowEntry || k == close

def separator (close : TokenKind) (first : Bool) : Scanning Token := do
  let t ← peekToken
  if t.kind = close || first then return t
  else if t.kind = .flowEntry then
    takeToken
    peekToken
  else throw .expectedSeparator

mutual

/-- A node. Block collections are read only where `block` allows them, and a sequence that is not
indented below its key only where `indentless` does. -/
def readNode : Nat → (block indentless : Bool) → Scanning Node
  | 0, _, _ => throw .expectedNode
  | fuel + 1, block, indentless => do
    let t ← peekToken
    match t.kind with
    | .scalar plain text =>
      takeToken
      return .scalar (t.line + 1) plain text
    | .flowSeqStart =>
      takeToken
      return .seq (t.line + 1) (← readFlowSeq fuel true)
    | .flowMapStart =>
      takeToken
      return .map (t.line + 1) (← readFlowMap fuel true)
    | .blockEntry =>
      if indentless then return .seq (t.line + 1) (← readIndentless fuel) else throw .expectedNode
    | .blockSeqStart =>
      if block then
        takeToken
        return .seq (t.line + 1) (← readBlockSeq fuel)
      else throw .expectedNode
    | .blockMapStart =>
      if block then
        takeToken
        return .map (t.line + 1) (← readBlockMap fuel)
      else throw .expectedNode
    | _ => throw .expectedNode
termination_by structural fuel => fuel

def readBlockSeq : Nat → Scanning (List Node)
  | 0 => throw .expectedNode
  | fuel + 1 => do
    let t ← peekToken
    match t.kind with
    | .blockEntry =>
      takeToken
      let item ←
        if endsEntry (← peekToken).kind then pure (.blank t) else readNode fuel true false
      return item :: (← readBlockSeq fuel)
    | .blockEnd =>
      takeToken
      return []
    | _ => throw .expectedEntry
termination_by structural fuel => fuel

def readIndentless : Nat → Scanning (List Node)
  | 0 => throw .expectedNode
  | fuel + 1 => do
    let t ← peekToken
    match t.kind with
    | .blockEntry =>
      takeToken
      let item ←
        if endsIndentlessEntry (← peekToken).kind then pure (.blank t)
        else readNode fuel true false
      return item :: (← readIndentless fuel)
    | _ => return []
termination_by structural fuel => fuel

def readMapPart (t : Token) : Nat → Scanning Node
  | 0 => throw .expectedNode
  | fuel + 1 => do
    if endsMapPart (← peekToken).kind then return .blank t else readNode fuel true true
termination_by structural fuel => fuel

def readBlockMap : Nat → Scanning (List (Node × Node))
  | 0 => throw .expectedNode
  | fuel + 1 => do
    let t ← peekToken
    match t.kind with
    | .key =>
      takeToken
      let key ← readMapPart t fuel
      let u ← peekToken
      let value ←
        if u.kind = .value then do
          takeToken
          readMapPart u fuel
        else pure (.blank u)
      return (key, value) :: (← readBlockMap fuel)
    | .blockEnd =>
      takeToken
      return []
    | _ => throw .expectedKey
termination_by structural fuel => fuel

/-- The items up to a closing bracket. Between two items stands a comma, and one may follow the
last. A single pair may stand for a mapping. -/
def readFlowSeq : Nat → (first : Bool) → Scanning (List Node)
  | 0, _ => throw .expectedNode
  | fuel + 1, first => do
    let t ← separator .flowSeqEnd first
    match t.kind with
    | .flowSeqEnd =>
      takeToken
      return []
    | .key =>
      takeToken
      let entry ← readFlowPair fuel
      return .map (t.line + 1) [entry] :: (← readFlowSeq fuel false)
    | _ =>
      let item ← readNode fuel false false
      return item :: (← readFlowSeq fuel false)
termination_by structural fuel => fuel

/-- The pair behind a key mark in a flow sequence. Where its key is left out, the token in that
place counts as the key. -/
def readFlowPair : Nat → Scanning (Node × Node)
  | 0 => throw .expectedNode
  | fuel + 1 => do
    let t ← peekToken
    let key ←
      if t.kind = .value || endsFlowPart .flowSeqEnd t.kind then do
        takeToken
        pure (.blank t)
      else readNode fuel false false
    return (key, ← readFlowValue .flowSeqEnd fuel)
termination_by structural fuel => fuel

def readFlowValue (close : TokenKind) : Nat → Scanning Node
  | 0 => throw .expectedNode
  | fuel + 1 => do
    let t ← peekToken
    if t.kind = .value then
      takeToken
      let u ← peekToken
      if endsFlowPart close u.kind then return .blank u else readNode fuel false false
    else return .blank t
termination_by structural fuel => fuel

def readFlowMap : Nat → (first : Bool) → Scanning (List (Node × Node))
  | 0, _ => throw .expectedNode
  | fuel + 1, first => do
    let t ← separator .flowMapEnd first
    match t.kind with
    | .flowMapEnd =>
      takeToken
      return []
    | .key =>
      takeToken
      let u ← peekToken
      let key ←
        if u.kind = .value || endsFlowPart .flowMapEnd u.kind then pure (.blank u)
        else readNode fuel false false
      let value ← readFlowValue .flowMapEnd fuel
      return (key, value) :: (← readFlowMap fuel false)
    | _ =>
      let key ← readNode fuel false false
      let value := Node.blank (← peekToken)
      return (key, value) :: (← readFlowMap fuel false)
termination_by structural fuel => fuel

end

def endsDocument : TokenKind → Bool
  | .version .. | .documentStart | .documentEnd | .streamEnd => true
  | _ => false

/-- Takes the lines in front of a document that give the version of the format, of which there may
be one, and only for version 1.1. -/
def readDirectives : Scanning Unit := do
  match (← peekToken).kind with
  | .version 1 1 =>
    takeToken
    match (← peekToken).kind with
    | .version .. => throw .badDirective
    | _ => pure ()
  | .version .. => throw .badDirective
  | _ => pure ()

def readDocument (fuel : Nat) : Scanning (Option Node) := do
  let t ← peekToken
  if t.kind = .streamEnd then return none
  let isOpened := endsDocument t.kind && t.kind ≠ .documentEnd
  if isOpened then
    readDirectives
    if (← peekToken).kind ≠ .documentStart then throw .expectedDocument
    takeToken
  let u ← peekToken
  let root ←
    if isOpened && endsDocument u.kind then pure (.blank u) else readNode fuel true false
  let _ ← peekToken
  return some root

def read (text : String) : Except SyntaxError (Option Node) :=
  (readDocument (8 * text.length + 8)).run' (.ofText text)

end ShaderIR.Yaml
