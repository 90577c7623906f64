import ShaderIR.Text.Blank
import ShaderIR.Type.Parser

/-!
# Deref paths

A path names a variable and then goes down by `[index]` and `.field`. It is cut into these links
from the left, up to the first place where no link begins.
-/

set_option autoImplicit false

namespace ShaderIR

open Text

inductive PathLink where
  | index (text : String)
  | field (name : String)
  deriving DecidableEq, Repr

/-- What stops a path. The offset counts bytes, and the byte there is given as a character. -/
inductive PathFault where
  | unterminated
  | unexpected (byte : Char) (offset : Nat)
  deriving DecidableEq, Repr

structure Path where
  root : String
  links : List PathLink
  fault : Option PathFault
  deriving DecidableEq, Repr

namespace Path

def isNameStart (c : Char) : Bool := c.isAlpha || c == '_'

def isNameChar (c : Char) : Bool := isNameStart c || c.isDigit

def name : List Char → List Char
  | [] => []
  | c :: cs => if isNameStart c then c :: cs.takeWhile isNameChar else []

def byteSize (cs : List Char) : Nat := cs.foldl (fun n c => n + c.utf8Size) 0

def firstByte (c : Char) : Char :=
  let n := c.toNat
  if n < 0x80 then c
  else if n < 0x800 then Char.ofNat (0xC0 + n / 0x40)
  else if n < 0x10000 then Char.ofNat (0xE0 + n / 0x1000)
  else Char.ofNat (0xF0 + n / 0x40000)

def linksFrom (offset : Nat) (cs : List Char) : List PathLink × Option PathFault :=
  match cs with
  | [] => ([], none)
  | '[' :: cs =>
    match _closed : Ty.bracketed? cs with
    | none => ([], some .unterminated)
    | some (inside, rest) =>
      let (links, fault) := linksFrom (offset + byteSize inside + 2) rest
      (.index (String.ofList (trim inside)) :: links, fault)
  | '.' :: cs =>
    let word := name cs
    let (links, fault) := linksFrom (offset + byteSize word + 1) (cs.drop word.length)
    (.field (String.ofList word) :: links, fault)
  | c :: _ => ([], some (.unexpected (firstByte c) offset))
termination_by cs.length
decreasing_by
  · have := Ty.bracketed?_length _closed
    simp only [List.length_cons]
    omega
  · simp only [List.length_cons, List.length_drop]
    omega

def parse (text : String) : Path :=
  let cs := text.toList
  let root := name cs
  let (links, fault) := linksFrom (byteSize root) (cs.drop root.length)
  ⟨String.ofList root, links, fault⟩

end Path

end ShaderIR
