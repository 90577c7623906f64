import ShaderIR.Text.Blank
import ShaderIR.Text.Quoted
import ShaderIR.Type.Basic

/-!
# Reading types

A written type is a base name followed by dimensions `[N]`, outermost first, with white space
allowed around the name, the brackets and the numbers. A base name is a scalar name, a vector
stem with a component count from 2 to 4, or a declared struct, with or without `struct ` in front.
-/

set_option autoImplicit false

namespace ShaderIR.Ty

open ShaderIR.Text

/-- The declared structs by name; a later declaration of a name hides an earlier one. -/
abbrev Structs := List (String × Ty)

inductive ParseError where
  | unexpected (text rest : String)
  | missingBracket (text : String)
  | badLength (text length : String)
  | badVector (name : String)
  | unknown (name : String)
  deriving DecidableEq, Repr

def ParseError.message : ParseError → String
  | unexpected text rest => "type " ++ quoted text ++ ": unexpected " ++ quoted rest
  | missingBracket text => "type " ++ quoted text ++ ": missing ']'"
  | badLength text length => "type " ++ quoted text ++ ": bad array length " ++ quoted length
  | badVector name => "type " ++ quoted name ++ ": vectors have 2 to 4 components"
  | unknown name => "unknown type " ++ quoted name

def scalarBases : List Base := [.float, .double, .int, .uint, .int64, .uint64, .bool]

/-- The bases in the order in which their stems are tried, the long stems before the short. -/
def vectorBases : List Base := [.int64, .uint64, .double, .int, .uint, .bool, .float]

def dropStem? (stem cs : List Char) : Option (List Char) :=
  if stem.isPrefixOf cs then some (cs.drop stem.length) else none

def vectorName? (name : List Char) : Option (Base × Int) :=
  vectorBases.findSome? fun b =>
    (dropStem? b.vectorStem.toList name).bind fun cs => (decimal? cs).map fun n => (b, n)

def parseBase (structs : Structs) (name : List Char) : Except ParseError Ty :=
  match scalarBases.find? (·.name.toList == name) with
  | some b => .ok (scalar b)
  | none =>
    match vectorName? name with
    | some (b, n) =>
      if 2 ≤ n ∧ n ≤ 4 then .ok (vector b n) else .error (.badVector (String.ofList name))
    | none =>
      let bare := (dropStem? "struct ".toList name).getD name
      match structs.lookup (String.ofList bare) with
      | some t => .ok t
      | none => .error (.unknown (String.ofList name))

def bracketed? : List Char → Option (List Char × List Char)
  | [] => none
  | ']' :: cs => some ([], cs)
  | c :: cs => (bracketed? cs).map fun (inside, rest) => (c :: inside, rest)

theorem bracketed?_length {cs inside rest : List Char}
    (h : bracketed? cs = some (inside, rest)) : rest.length < cs.length := by
  induction cs generalizing inside with
  | nil => simp [bracketed?] at h
  | cons c cs ih =>
    unfold bracketed? at h
    split at h
    · simp_all
    · simp_all
    · rename_i heq
      obtain ⟨p, hp, he⟩ := Option.map_eq_some_iff.1 h
      cases heq
      cases he
      have := ih hp
      simp only [List.length_cons]
      omega

theorem trim_length_le (cs : List Char) : (trim cs).length ≤ cs.length := by
  have hl : (trimLeft cs).length ≤ cs.length := (List.dropWhile_sublist _).length_le
  have hr (ds : List Char) : (trimRight ds).length ≤ ds.length := by
    simpa [trimRight] using (List.dropWhile_sublist (l := ds.reverse) isBlank).length_le
  exact Nat.le_trans (hr _) hl

def parseDims (text : String) (rest : List Char) : Except ParseError (List Int) :=
  match rest with
  | [] => .ok []
  | '[' :: cs =>
    match _closed : bracketed? cs with
    | none => .error (.missingBracket text)
    | some (inside, tail) =>
      match (decimal? (trim inside)).filter (0 < ·) with
      | none => .error (.badLength text (String.ofList inside))
      | some n => do
        let dims ← parseDims text (trim tail)
        return n :: dims
  | cs => .error (.unexpected text (String.ofList cs))
termination_by rest.length
decreasing_by
  have h1 := bracketed?_length _closed
  have h2 := trim_length_le tail
  simp only [List.length_cons]
  omega

def wrapDims (base : Ty) (dims : List Int) : Ty :=
  dims.foldr (fun n t => array t n) base

def parse (structs : Structs) (text : String) : Except ParseError Ty := do
  let cs := trim text.toList
  let dims ← parseDims (String.ofList cs) (cs.dropWhile (· != '['))
  let base ← parseBase structs (trim (cs.takeWhile (· != '[')))
  return wrapDims base dims

end ShaderIR.Ty
