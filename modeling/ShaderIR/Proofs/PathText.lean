import ShaderIR.Description.Path
import ShaderIR.Proofs.TypeGrammar

/-!
# The text of a path

A path is the name of a variable and then steps down from it, `[index]` or `.field`. A step begins
with a character that no name holds, so a name ends where the next step begins, and the steps of a
path can be read off its text in one way. The name of a field may be empty.
-/

set_option autoImplicit false

namespace ShaderIR

namespace Text

theorem trim_toString (n : Nat) : trim (toString n).toList = (toString n).toList := by
  refine (trimmed_of_forall fun c hc => ?_).trim
  exact Ty.isBlank_of_isDigit (isDigit_of_mem_toString (Int.natCast_nonneg n) hc)

theorem head?_toDigits {n : Nat} (hn : n ≠ 0) : (Nat.toDigits 10 n).head? ≠ some '0' := by
  induction n using Nat.strongRecOn with
  | _ n ih =>
    by_cases hlt : n < 10
    · rw [Nat.toDigits_of_lt_base hlt]
      have hall : ∀ n < 10, n ≠ 0 → Nat.digitChar n ≠ '0' := by decide
      exact fun h => hall n hlt hn (Option.some.inj h)
    · rw [Nat.toDigits_of_base_le (by decide) (by omega),
        List.head?_append_of_ne_nil _ Nat.toDigits_ne_nil]
      exact ih (n / 10) (by omega) (by omega)

theorem ne_underscore_of_isDigit {c : Char} (h : c.isDigit = true) : c ≠ '_' := by
  rintro rfl
  exact absurd h (by decide)

theorem separated_of_isDigit {cs : List Char} (h : ∀ c ∈ cs, c.isDigit = true)
    (afterDigit : Bool) : separated afterDigit cs = true := by
  induction cs generalizing afterDigit with
  | nil => rfl
  | cons c cs ih =>
    obtain ⟨hc, hcs⟩ := List.forall_mem_cons.mp h
    rw [separated.eq_4 _ _ _ (ne_underscore_of_isDigit hc)]
    exact ih hcs true

theorem separatedDigits_of_isDigit (base : Nat) (marked : Bool) {cs : List Char}
    (h : ∀ c ∈ cs, c.isDigit = true) : separatedDigits base marked cs = digitsFrom base 0 cs := by
  have hne : ∀ c ∈ cs, (c != '_') = true :=
    fun c hc => bne_iff_ne.mpr (ne_underscore_of_isDigit (h c hc))
  rw [separatedDigits, if_pos (separated_of_isDigit h marked), List.filter_eq_self.mpr hne]

/-- The digits of a number carry no base mark, since only zero begins with a zero. -/
theorem unsignedLiteral_toDigits (n : Nat) : unsignedLiteral (Nat.toDigits 10 n) = some n := by
  by_cases hn : n = 0
  · subst hn
    rfl
  · have hhead := head?_toDigits hn
    have hread : unsignedLiteral (Nat.toDigits 10 n) =
        separatedDigits 10 false (Nat.toDigits 10 n) := by
      unfold unsignedLiteral
      split
      · exact absurd ‹_› Nat.toDigits_ne_nil
      · rename_i h
        exact absurd (congrArg List.head? h) hhead
      · rename_i h
        exact absurd (congrArg List.head? h) hhead
      · rfl
    rw [hread, separatedDigits_of_isDigit 10 false fun c hc =>
      Nat.isDigit_of_mem_toDigits (by decide) (by decide) hc, digitsFrom_toDigits]

/-- A number that a signed word holds is a literal as it is printed. -/
theorem literal?_toString {n : Nat} (hn : n < 0x8000000000000000) :
    literal? (toString n).toList = some (n : Int) := by
  have hdigits : ∀ c ∈ (toString n).toList.head?, c.isDigit = true :=
    fun c hc => isDigit_of_mem_toString (Int.natCast_nonneg n) (List.mem_of_mem_head? hc)
  have hread : unsignedLiteral (toString n).toList = some n :=
    (congrArg unsignedLiteral (toList_toString (Int.natCast_nonneg n))).trans
      (unsignedLiteral_toDigits n)
  have hfits : inInt64 n = true := by
    simp only [inInt64, decide_eq_true_eq]
    omega
  rw [literal?, signed_of_isDigit _ hdigits, hread, Option.map_some, Option.filter_some,
    if_pos hfits]

end Text

namespace Path

open Text

def Identifier : List Char → Prop
  | [] => False
  | c :: cs => isNameStart c = true ∧ ∀ d ∈ cs, isNameChar d = true

inductive Step where
  | index (inside : List Char)
  | field (word : List Char)
  deriving DecidableEq, Repr

namespace Step

def text : Step → List Char
  | index inside => '[' :: inside ++ [']']
  | field word => '.' :: word

def Legible : Step → Prop
  | index inside => ']' ∉ inside
  | field word => word = [] ∨ Identifier word

def link : Step → PathLink
  | index inside => .index (String.ofList (trim inside))
  | field word => .field (String.ofList word)

end Step

theorem name_legible (cs : List Char) : name cs = [] ∨ Identifier (name cs) := by
  cases cs with
  | nil => exact .inl rfl
  | cons c cs =>
    rw [name]
    split
    · rename_i hstart
      exact .inr ⟨hstart, fun d hd => List.mem_takeWhile_imp hd⟩
    · exact .inl rfl

theorem name_prefix (cs : List Char) : name cs <+: cs := by
  cases cs with
  | nil => exact List.prefix_rfl
  | cons c cs =>
    rw [name]
    split
    · exact List.cons_prefix_cons.mpr ⟨rfl, List.takeWhile_prefix isNameChar⟩
    · exact List.nil_prefix

theorem name_append_drop (cs : List Char) : name cs ++ cs.drop (name cs).length = cs := by
  obtain ⟨rest, hrest⟩ := name_prefix cs
  generalize name cs = word at hrest
  subst hrest
  rw [List.drop_left]

theorem name_append {word rest : List Char} (hword : word = [] ∨ Identifier word)
    (hrest : ∀ c ∈ rest.head?, isNameChar c = false) : name (word ++ rest) = word := by
  have hnone : ∀ {cs : List Char}, (∀ d ∈ cs, isNameChar d = true) →
      (cs ++ rest).takeWhile isNameChar = cs := by
    intro cs hcs
    rw [List.takeWhile_append_of_pos hcs]
    cases rest with
    | nil => rw [List.takeWhile_nil, List.append_nil]
    | cons c rest => simp [hrest c rfl]
  rcases hword with rfl | hword
  · cases rest with
    | nil => rfl
    | cons c rest =>
      have hc := hrest c rfl
      have hstart : isNameStart c = false := by
        rw [isNameChar, Bool.or_eq_false_iff] at hc
        exact hc.1
      simp [name, hstart]
  · cases word with
    | nil => exact hword.elim
    | cons c word =>
      rw [List.cons_append, name, if_pos hword.1, hnone hword.2]

theorem head?_texts (steps : List Step) :
    ∀ c ∈ (steps.flatMap Step.text).head?, isNameChar c = false := by
  cases steps with
  | nil => simp
  | cons step steps =>
    intro c hc
    cases step with
    | index inside =>
      obtain rfl : '[' = c := Option.some.inj hc
      decide
    | field word =>
      obtain rfl : '.' = c := Option.some.inj hc
      decide

theorem linksFrom_sound {offset : Nat} {cs : List Char} {links : List PathLink}
    (h : linksFrom offset cs = (links, none)) :
    ∃ steps : List Step, (∀ step ∈ steps, step.Legible) ∧ cs = steps.flatMap Step.text ∧
      links = steps.map Step.link := by
  fun_induction linksFrom offset cs generalizing links with
  | case1 =>
    cases h
    exact ⟨[], by simp, rfl, rfl⟩
  | case2 => cases h
  | case3 offset cs inside rest hclosed links' fault hlinks ih =>
    cases h
    obtain ⟨steps, hlegible, rfl, rfl⟩ := ih hlinks
    obtain ⟨rfl, hinside⟩ := Ty.bracketed?_eq_some hclosed
    refine ⟨.index inside :: steps, List.forall_mem_cons.mpr ⟨hinside, hlegible⟩, ?_, rfl⟩
    simp [Step.text]
  | case4 offset cs word links' fault hlinks =>
    rename_i ih
    cases h
    obtain ⟨steps, hlegible, hrest, rfl⟩ := ih hlinks
    refine ⟨.field (name cs) :: steps, List.forall_mem_cons.mpr ⟨name_legible cs, hlegible⟩, ?_, rfl⟩
    rw [List.flatMap_cons, ← hrest, Step.text, List.cons_append, name_append_drop]
  | case5 => cases h

theorem linksFrom_texts (offset : Nat) {steps : List Step} (h : ∀ step ∈ steps, step.Legible) :
    linksFrom offset (steps.flatMap Step.text) = (steps.map Step.link, none) := by
  induction steps generalizing offset with
  | nil =>
    unfold linksFrom
    rfl
  | cons step steps ih =>
    obtain ⟨hstep, hsteps⟩ := List.forall_mem_cons.mp h
    cases step with
    | index inside =>
      have hclosed := Ty.bracketed?_append hstep (steps.flatMap Step.text)
      have htext : (Step.index inside :: steps).flatMap Step.text =
          '[' :: (inside ++ ']' :: steps.flatMap Step.text) := by
        simp [Step.text]
      rw [htext, linksFrom.eq_def]
      simp only
      split
      · rename_i hopen
        rw [hclosed] at hopen
        cases hopen
      · rename_i inside' rest hsome
        rw [hclosed] at hsome
        cases hsome
        rw [ih _ hsteps]
        rfl
    | field word =>
      have hword := name_append hstep (head?_texts steps)
      have htext : (Step.field word :: steps).flatMap Step.text =
          '.' :: (word ++ steps.flatMap Step.text) := rfl
      rw [htext, linksFrom.eq_def]
      simp only [hword, List.drop_left, ih _ hsteps]
      rfl

structure Written (text : String) (root : List Char) (steps : List Step) : Prop where
  legible : ∀ step ∈ steps, step.Legible
  spelled : text.toList = root ++ steps.flatMap Step.text

/-- A text without a fault is a name, which may be empty, and steps. -/
theorem exists_written {text : String} (h : (parse text).fault = none) :
    ∃ root steps, (root = [] ∨ Identifier root) ∧ Written text root steps := by
  obtain ⟨steps, hlegible, htext, -⟩ := linksFrom_sound (Prod.ext rfl h)
  refine ⟨name text.toList, steps, name_legible _, hlegible, ?_⟩
  rw [← htext, name_append_drop]

/-- The name and the steps of a text are read off it. -/
theorem Written.parse {text : String} {root : List Char} {steps : List Step}
    (h : Written text root steps) (hroot : root = [] ∨ Identifier root) :
    parse text = ⟨String.ofList root, steps.map Step.link, none⟩ := by
  have hname : name text.toList = root := by
    rw [h.spelled]
    exact name_append hroot (head?_texts steps)
  have hrest : text.toList.drop root.length = steps.flatMap Step.text := by
    rw [h.spelled, List.drop_left]
  simp only [Path.parse, hname, hrest, linksFrom_texts _ h.legible]

end Path

end ShaderIR
