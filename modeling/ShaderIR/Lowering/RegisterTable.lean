import ShaderIR.Lowering.Identity

/-!
# Registers by place

The table of a function remembers, for each identity met so far, the first chain that showed it and
the register that holds it. Entries are never removed.
-/

set_option autoImplicit false

namespace ShaderIR

open Text

structure TableEntry where
  hash : UInt32
  deref : Handle
  reg : Register
  deriving DecidableEq

structure RegisterTable where
  entries : List TableEntry
  deriving DecidableEq

namespace RegisterTable

def empty : RegisterTable := ⟨[]⟩

def size (t : RegisterTable) : Nat := t.entries.length

def find? (links : Array Link) (hash : UInt32) (h : Handle) :
    List TableEntry → Except LowerError (Option Register)
  | [] => .ok none
  | e :: rest =>
    if e.hash = hash then do
      if ← Lowering.samePlace (chain links e.deref) (chain links h) then return some e.reg
      else find? links hash h rest
    else find? links hash h rest

/-- The product of the array lengths along a chain, as a wrapping 64-bit number. -/
def elemCount : List Link → Int
  | [] => 1
  | link :: rest =>
    match link.kind with
    | .array _ => wrap64 ((headType rest).length * elemCount rest)
    | _ => elemCount rest

def arraySize (links : List Link) : Int :=
  -- a single slot is no array
  if 1 < elemCount links then elemCount links else 0

def initialized? (links : List Link) : Option String :=
  match rootVariable? links with
  | some v => if v.init.isSome then some v.name else none
  | none => none

/-- The register of a place, made on first use. A failing call changes nothing. -/
def lookupOrCreate (t : RegisterTable) (h : Handle) (b : Body) :
    Except LowerError (Register × RegisterTable × Body) := do
  let links := chain b.links h
  let hash ← Lowering.hashChain links
  match initialized? links with
  | some name => throw (.initializer name)
  | none =>
    match ← find? b.links hash h t.entries with
    | some reg => return (reg, t, b)
    | none =>
      let leaf := headType links
      if leaf.isVectorOrScalar then
        let (reg, b) := (Body.newRegister leaf.components leaf.bits (arraySize links)).run b
        return (reg, ⟨t.entries ++ [⟨hash, h, reg⟩]⟩, b)
      else throw (.badLeaf leaf)

end RegisterTable

end ShaderIR
