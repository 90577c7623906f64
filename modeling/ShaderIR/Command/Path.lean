/-!
# File names

A file name is a list of parts between slashes. Two names are taken for the same file when they
agree after cleaning, which drops empty parts and dots and lets two dots undo the part before them.
-/

set_option autoImplicit false

namespace ShaderIR.FileName

abbrev Part := List Char

def split : List Char → List Part
  | [] => [[]]
  | '/' :: cs => [] :: split cs
  | c :: cs =>
    match split cs with
    | p :: ps => (c :: p) :: ps
    | [] => [[c]]

def join : List Part → List Char
  | [] => []
  | [p] => p
  | p :: ps => p ++ '/' :: join ps

def here : Part := ['.']

def above : Part := ['.', '.']

def push (rooted : Bool) (stack : List Part) (p : Part) : List Part :=
  if p = [] ∨ p = here then stack
  else if p = above then
    match stack with
    -- nothing is above the root
    | [] => if rooted then [] else [above]
    | top :: rest => if top = above then above :: stack else rest
  else p :: stack

def isRooted (cs : List Char) : Bool := cs.head? == some '/'

def cleanParts (cs : List Char) : List Part :=
  ((split cs).foldl (push (isRooted cs)) []).reverse

def cleanChars (cs : List Char) : List Char :=
  if isRooted cs then '/' :: join (cleanParts cs)
  else match cleanParts cs with
    | [] => here
    | ps => join ps

def clean (name : String) : String := String.ofList (cleanChars name.toList)

def folderChars (cs : List Char) : List Char :=
  (cs.reverse.dropWhile (· != '/')).reverse

def folder (name : String) : String := String.ofList (cleanChars (folderChars name.toList))

def same (a b : String) : Bool := clean a == clean b

/-- The name of an output: the ending of a description is replaced, any other name is extended. -/
def withEnding (name ending : String) : String :=
  match ([".yaml", ".yml"] : List String).find? (fun e => e.toList.isSuffixOf name.toList) with
  | some e => String.ofList (name.toList.take (name.length - e.length)) ++ ending
  | none => name ++ ending

end ShaderIR.FileName
