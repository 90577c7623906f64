import ShaderIR.Text.Quoted
import ShaderIR.Yaml.Node
import ShaderIR.Yaml.Scalar

/-!
# From documents to data

A decoder takes what it can from a node and notes everything that does not fit, so that one reading
reports all faults of a document, in its order. Null stands for nothing: it leaves a field as it was
and adds no element to a list.
-/

set_option autoImplicit false

namespace ShaderIR.Yaml

inductive TypeError where
  | mismatch (line : Nat) (tag : String) (text : Option String) (target : String)
  | unknownField (line : Nat) (key target : String)
  | repeatedKey (line : Nat) (key : String) (firstLine : Nat)
  deriving DecidableEq, Repr

/-- The characters that lie within the first `n` bytes. A character that is cut in two leaves one
replacement character for each of its bytes. -/
def firstBytes : Nat → List Char → List Char
  | _, [] => []
  | n, c :: cs =>
    if c.utf8Size ≤ n then c :: firstBytes (n - c.utf8Size) cs
    else List.replicate n (Char.ofNat 0xFFFD)

def excerpt (s : String) : String :=
  if 10 < s.utf8ByteSize then String.ofList (firstBytes 7 s.toList) ++ "..." else s

def TypeError.message : TypeError → String
  | mismatch line tag text target =>
    let shown := match text with
      | some s => " `" ++ excerpt s ++ "`"
      | none => ""
    "line " ++ toString line ++ ": cannot unmarshal " ++ tag ++ shown ++ " into " ++ target
  | unknownField line key target =>
    "line " ++ toString line ++ ": field " ++ key ++ " not found in type " ++ target
  | repeatedKey line key firstLine =>
    "line " ++ toString line ++ ": mapping key " ++ Text.quoted key ++
      " already defined at line " ++ toString firstLine

def typeErrorsMessage (es : List TypeError) : String :=
  "yaml: unmarshal errors:" ++ String.join (es.map fun e => "\n  " ++ e.message)

abbrev Decoding := StateT (Array TypeError) (Except SyntaxError)

abbrev Decoder (α : Type) := Node → Decoding (Option α)

def report (es : List TypeError) : Decoding Unit := modify (· ++ es.toArray)

def Node.meaning : Node → Scalar
  | .scalar _ true text => resolve text
  | _ => .text

def Node.isNull (n : Node) : Bool := n.meaning = .null

def Node.isMerge (n : Node) : Bool := n.meaning = .merge

def misfit (target : String) : Node → TypeError
  | .scalar line plain text =>
    .mismatch line (Node.meaning (.scalar line plain text)).tag (some text) target
  | .seq line _ => .mismatch line "!!seq" none target
  | .map line _ => .mismatch line "!!map" none target

def repeatedKeys : List (Node × Node) → List TypeError
  | [] => []
  | (key, _) :: rest =>
    (rest.filterMap fun (other, _) =>
      match key, other with
      | .scalar first _ a, .scalar line _ b =>
        if a = b then some (.repeatedKey line b first) else none
      | .seq first _, .seq line _ => some (.repeatedKey line "" first)
      | .map first _, .map line _ => some (.repeatedKey line "" first)
      | _, _ => none) ++ repeatedKeys rest

def misfits (target : String) (n : Node) : List TypeError :=
  match n with
  | .map _ entries =>
    let repeated := repeatedKeys entries
    -- repeated keys are reported in the place of the misfit
    if repeated.isEmpty then [misfit target n] else repeated
  | n => [misfit target n]

def refuse {α : Type} (target : String) (n : Node) : Decoding (Option α) := do
  if !n.isNull then report (misfits target n)
  return none

def scalarDecoder {α : Type} (target : String) (take : String → Scalar → Option α) : Decoder α
  | .scalar line plain text => do
    let n := Node.scalar line plain text
    if n.isNull then return none
    else match take text n.meaning with
      | some a => return some a
      | none => refuse target n
  | n => refuse target n

def textDecoder : Decoder String := scalarDecoder "string" fun text _ => some text

def unsignedDecoder (target : String) (most : Nat) : Decoder Nat :=
  scalarDecoder target fun _ s =>
    (match s with
      | .int n => if 0 ≤ n then some n.toNat else none
      | .float x => x.toUInt64?
      | _ => none).filter (· ≤ most)

def wordDecoder : Decoder UInt64 := fun n =>
  return (← unsignedDecoder "uint64" 0xffffffffffffffff n).map UInt64.ofNat

def byteDecoder : Decoder UInt8 := fun n =>
  return (← unsignedDecoder "uint8" 255 n).map UInt8.ofNat

def intDecoder : Decoder Int :=
  scalarDecoder "int" fun _ s =>
    match s with
    | .int n => if n < 0x8000000000000000 then some n else none
    | .float x => x.toInt64?
    | _ => none

def listDecoder {α : Type} (target : String) (item : Decoder α) : Decoder (List α)
  | .seq _ items => do
    let read ← items.mapM item
    return some (read.filterMap id)
  | n => refuse target n

structure Field (α : Type) where
  key : String
  read : Node → α → Decoding α

def Field.of {α β : Type} (key : String) (decoder : Decoder β) (set : α → β → α) : Field α :=
  ⟨key, fun n a => do
    match ← decoder n with
    | some b => return set a b
    | none => return a⟩

/-- How the mappings of a kind of record are read. A closed record reports keys that it does not
know. -/
structure RecordFormat (α : Type) where
  target : String
  closed : Bool
  fields : List (Field α)

namespace RecordFormat

def readEntry {α : Type} (r : RecordFormat α) (taken : List String) (a : α)
    (key value : Node) : Decoding (List String × α) := do
  if key.isMerge then return (taken, a)
  match ← textDecoder key with
  | none => return (taken, a)
  | some name =>
    if taken.contains name then return (taken, a)
    match r.fields.find? (·.key == name) with
    | some f => return (name :: taken, ← f.read value a)
    | none =>
      if r.closed then report [.unknownField key.line name r.target]
      return (name :: taken, a)

def readEntries {α : Type} (r : RecordFormat α) (entries : List (Node × Node))
    (taken : List String) (a : α) : Decoding (List String × α) := do
  let repeated := repeatedKeys entries
  if repeated.isEmpty then
    entries.foldlM (fun (taken, a) (key, value) => r.readEntry taken a key value) (taken, a)
  else
    report repeated
    return (taken, a)

end RecordFormat

mutual

def mergeLayers : Node → Except SyntaxError (List (List (Node × Node)))
  | .map _ entries => do
    if (repeatedKeys entries).isEmpty then return entries :: (← mergedLayers entries)
    else return [entries]
  | _ => .error .mergeOfNoMapping

def mergedLayers : List (Node × Node) → Except SyntaxError (List (List (Node × Node)))
  | [] => .ok []
  | (key, value) :: rest =>
    if key.isMerge then
      match value with
      | .seq _ items => listLayers items
      | value => mergeLayers value
    else mergedLayers rest

def listLayers : List Node → Except SyntaxError (List (List (Node × Node)))
  | [] => .ok []
  | n :: ns => return (← mergeLayers n) ++ (← listLayers ns)

end

/-- Reads a mapping into a record. What it merges fills the fields that it leaves open. -/
def recordDecoder {α : Type} (r : RecordFormat α) (start : α) : Decoder α
  | .map _ entries => do
    let repeated := repeatedKeys entries
    if repeated.isEmpty then
      let (_, a) ← r.readEntries entries [] start
      let own := entries.filterMap fun (key, _) =>
        match key with
        | .scalar _ _ text =>
          if key.meaning = .text || key.meaning = .merge then some text else none
        | _ => none
      let layers ← mergedLayers entries
      let (_, a) ← layers.foldlM (fun (taken, a) layer => r.readEntries layer taken a) (own, a)
      return some a
    else
      report repeated
      return none
  | n => refuse r.target n

def decode {α : Type} (decoder : Decoder α) (n : Node) :
    Except SyntaxError (Option α × List TypeError) := do
  let (value, errors) ← (decoder n).run #[]
  return (value, errors.toList)

end ShaderIR.Yaml
