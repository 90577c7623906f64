import ShaderIR.Proofs.TypeText

/-!
# The grammar of written types

The text of a type is a base name and then lengths in brackets, the outermost first, with white
space around the name, the brackets and the numbers. The grammar states this on the whole text and
knows of no scanner. A name ends where a bracket opens and has no white space at its ends; with this
the reader accepts exactly the texts of the grammar and answers the type that they spell.
-/

set_option autoImplicit false

namespace ShaderIR

namespace Text

structure Digits (ds : List Char) (n : Nat) : Prop where
  nonempty : ds ≠ []
  digit : ∀ c ∈ ds, c.isDigit = true
  value : Nat.ofDigitChars 10 ds 0 = n

inductive Numeral : List Char → Int → Prop
  | unsigned {ds : List Char} {n : Nat} (h : Digits ds n) : Numeral ds n
  | plus {ds : List Char} {n : Nat} (h : Digits ds n) : Numeral ('+' :: ds) n
  | minus {ds : List Char} {n : Nat} (h : Digits ds n) : Numeral ('-' :: ds) (-(n : Int))

theorem digitValue_of_isDigit {c : Char} (h : c.isDigit = true) :
    digitValue c = some (c.toNat - '0'.toNat) ∧ c.toNat - '0'.toNat < 10 := by
  have hrange : '0' ≤ c ∧ c ≤ '9' := by simpa [Char.isDigit, Char.le_def] using h
  refine ⟨by rw [digitValue, if_pos hrange], ?_⟩
  have hle : c.toNat ≤ '9'.toNat := hrange.2
  have h9 : '9'.toNat = 57 := rfl
  have h0 : '0'.toNat = 48 := rfl
  omega

/-- The letters are digits of larger bases only. -/
theorem digitValue_of_not_isDigit {c : Char} (h : c.isDigit = false) :
    ∀ d ∈ digitValue c, 10 ≤ d := by
  have hrange : ¬('0' ≤ c ∧ c ≤ '9') := by
    simpa [Char.isDigit, Char.le_def] using h
  intro d hd
  rw [digitValue, if_neg hrange] at hd
  split at hd
  · cases hd
    omega
  · split at hd
    · cases hd
      omega
    · cases hd

theorem digitsFrom_eq_some_iff {acc n : Nat} {cs : List Char} :
    digitsFrom 10 acc cs = some n ↔
      (∀ c ∈ cs, c.isDigit = true) ∧ Nat.ofDigitChars 10 cs acc = n := by
  induction cs generalizing acc with
  | nil => simp [digitsFrom]
  | cons c cs ih =>
    cases hc : c.isDigit with
    | true =>
      obtain ⟨hvalue, hlt⟩ := digitValue_of_isDigit hc
      rw [digitsFrom, hvalue]
      simp only [if_pos hlt, ih, List.forall_mem_cons, hc, true_and, Nat.ofDigitChars_cons]
    | false =>
      have hlarge := digitValue_of_not_isDigit hc
      have hnone : digitsFrom 10 acc (c :: cs) = none := by
        rw [digitsFrom]
        cases hd : digitValue c with
        | none => rfl
        | some d =>
          have hle : 10 ≤ d := hlarge d hd
          exact if_neg (by omega)
      simp [hnone, hc]

theorem digits_eq_some_iff {cs : List Char} {n : Nat} : digits 10 cs = some n ↔ Digits cs n := by
  cases cs with
  | nil => exact ⟨fun h => absurd h.symm (Option.some_ne_none n), fun h => absurd rfl h.nonempty⟩
  | cons c cs =>
    have hne := List.cons_ne_nil c cs
    rw [digits.eq_2 10 _ hne, digitsFrom_eq_some_iff]
    exact ⟨fun h => ⟨hne, h.1, h.2⟩, fun h => ⟨h.digit, h.value⟩⟩

theorem signed_minus (read : List Char → Option Nat) (cs : List Char) :
    signed read ('-' :: cs) = (read cs).map fun n : Nat => -(n : Int) := by
  rw [signed]
  cases read cs <;> rfl

theorem signed_plus (read : List Char → Option Nat) (cs : List Char) :
    signed read ('+' :: cs) = (read cs).map fun n : Nat => (n : Int) := by
  rw [signed]
  cases read cs <;> rfl

theorem signed_eq_some_iff {cs : List Char} {n : Int} :
    signed (digits 10) cs = some n ↔ Numeral cs n := by
  constructor
  · intro h
    by_cases hminus : cs.head? = some '-'
    · obtain ⟨ds, rfl⟩ := List.head?_eq_some_iff.mp hminus
      rw [signed_minus] at h
      obtain ⟨m, hm, rfl⟩ := Option.map_eq_some_iff.mp h
      exact .minus (digits_eq_some_iff.mp hm)
    by_cases hplus : cs.head? = some '+'
    · obtain ⟨ds, rfl⟩ := List.head?_eq_some_iff.mp hplus
      rw [signed_plus] at h
      obtain ⟨m, hm, rfl⟩ := Option.map_eq_some_iff.mp h
      exact .plus (digits_eq_some_iff.mp hm)
    · unfold signed at h
      split at h
      · exact absurd rfl hminus
      · exact absurd rfl hplus
      · cases hm : digits 10 cs with
        | none =>
          rw [hm] at h
          cases h
        | some m =>
          rw [hm] at h
          cases h
          exact .unsigned (digits_eq_some_iff.mp hm)
  · intro h
    cases h with
    | unsigned h =>
      rw [signed_of_isDigit _ fun c hc => h.digit c (List.mem_of_mem_head? hc),
        digits_eq_some_iff.mpr h, Option.map_some]
    | plus h => rw [signed_plus, digits_eq_some_iff.mpr h, Option.map_some]
    | minus h => rw [signed_minus, digits_eq_some_iff.mpr h, Option.map_some]

theorem decimal?_eq_some_iff {cs : List Char} {n : Int} :
    decimal? cs = some n ↔ Numeral cs n ∧ inInt64 n = true := by
  rw [decimal?, Option.filter_eq_some_iff, signed_eq_some_iff]

theorem Numeral.mem {cs : List Char} {n : Int} (h : Numeral cs n) {c : Char} (hc : c ∈ cs) :
    c.isDigit = true ∨ c = '+' ∨ c = '-' := by
  cases h with
  | unsigned h => exact .inl (h.digit c hc)
  | plus h =>
    rcases List.mem_cons.mp hc with rfl | hc
    · exact .inr (.inl rfl)
    · exact .inl (h.digit c hc)
  | minus h =>
    rcases List.mem_cons.mp hc with rfl | hc
    · exact .inr (.inr rfl)
    · exact .inl (h.digit c hc)

theorem Numeral.trimmed {cs : List Char} {n : Int} (h : Numeral cs n) : Trimmed cs := by
  apply trimmed_of_forall
  intro c hc
  rcases h.mem hc with hd | rfl | rfl
  · exact Ty.isBlank_of_isDigit hd
  · decide
  · decide

theorem Numeral.not_mem_close {cs : List Char} {n : Int} (h : Numeral cs n) : ']' ∉ cs := by
  intro hc
  rcases h.mem hc with hd | hd | hd
  · exact absurd hd (by decide)
  · exact absurd hd (by decide)
  · exact absurd hd (by decide)

def Blanks (cs : List Char) : Prop := ∀ c ∈ cs, isBlank c = true

theorem blanks_nil : Blanks [] := by simp [Blanks]

theorem Blanks.append {v w : List Char} (hv : Blanks v) (hw : Blanks w) : Blanks (v ++ w) :=
  fun c hc => (List.mem_append.mp hc).elim (hv c) (hw c)

theorem Blanks.not_mem {w : List Char} (hw : Blanks w) {c : Char} (hc : isBlank c = false) :
    c ∉ w := by
  intro hmem
  rw [hw c hmem] at hc
  cases hc

theorem exists_trimLeft (cs : List Char) : ∃ w, Blanks w ∧ cs = w ++ trimLeft cs :=
  ⟨cs.takeWhile isBlank, fun _ hc => List.mem_takeWhile_imp hc,
    List.takeWhile_append_dropWhile.symm⟩

theorem exists_trimRight (cs : List Char) : ∃ w, Blanks w ∧ cs = trimRight cs ++ w := by
  obtain ⟨w, hw, hcs⟩ := exists_trimLeft cs.reverse
  refine ⟨w.reverse, fun c hc => hw c (List.mem_reverse.mp hc), ?_⟩
  have hrev := congrArg List.reverse hcs
  rwa [List.reverse_reverse, List.reverse_append] at hrev

/-- Trimming takes white space off both ends. -/
theorem exists_trim (cs : List Char) :
    ∃ v w, Blanks v ∧ Blanks w ∧ cs = v ++ trim cs ++ w := by
  obtain ⟨v, hv, hcs⟩ := exists_trimLeft cs
  obtain ⟨w, hw, hleft⟩ := exists_trimRight (trimLeft cs)
  refine ⟨v, w, hv, hw, ?_⟩
  rw [List.append_assoc, trim, ← hleft, ← hcs]

theorem first_trim (cs : List Char) : ∀ c ∈ (trim cs).head?, isBlank c = false := by
  intro c hc
  obtain ⟨w, -, hleft⟩ := exists_trimRight (trimLeft cs)
  have hhead : (trimLeft cs).head? = some c := by
    rw [hleft, List.head?_append]
    exact Option.or_eq_some_iff.mpr (.inl hc)
  have hnot := List.head?_dropWhile_not isBlank cs
  rw [trimLeft] at hhead
  rw [hhead] at hnot
  simpa using hnot

theorem trimmed_trim (cs : List Char) : Trimmed (trim cs) := ⟨first_trim cs, last_trim cs⟩

theorem trimLeft_of_blanks {w : List Char} (hw : Blanks w) : trimLeft w = [] :=
  List.dropWhile_eq_nil_iff.mpr hw

theorem trimLeft_blanks_append {w : List Char} (hw : Blanks w) (cs : List Char) :
    trimLeft (w ++ cs) = trimLeft cs :=
  List.dropWhile_append_of_pos hw

theorem trimRight_append_blanks (cs : List Char) {w : List Char} (hw : Blanks w) :
    trimRight (cs ++ w) = trimRight cs := by
  have hrev : Blanks w.reverse := fun c hc => hw c (List.mem_reverse.mp hc)
  have hleft := trimLeft_blanks_append hrev cs.reverse
  unfold trimLeft at hleft
  rw [trimRight, List.reverse_append, hleft, trimRight]

/-- Whatever white space stands around a trimmed text, trimming finds the text. -/
theorem Trimmed.trim_around {core : List Char} (h : Trimmed core) {v w : List Char}
    (hv : Blanks v) (hw : Blanks w) : Text.trim (v ++ core ++ w) = core := by
  rw [Text.trim, List.append_assoc, trimLeft_blanks_append hv]
  cases core with
  | nil =>
    rw [List.nil_append, trimLeft_of_blanks hw]
    rfl
  | cons c core =>
    have hfirst : trimLeft (c :: core ++ w) = c :: core ++ w := by
      apply trimLeft_eq
      intro d hd
      exact h.first d hd
    rw [hfirst, trimRight_append_blanks _ hw, trimRight_eq h.last]

theorem trim_around {v w : List Char} (hv : Blanks v) (hw : Blanks w) (cs : List Char) :
    trim (v ++ cs ++ w) = trim cs := by
  obtain ⟨v', w', hv', hw', hcs⟩ := exists_trim cs
  have hwhole : v ++ cs ++ w = (v ++ v') ++ trim cs ++ (w' ++ w) := by
    rw [hcs, (trimmed_trim cs).trim_around hv' hw']
    simp only [List.append_assoc]
  rw [hwhole, (trimmed_trim cs).trim_around (hv.append hv') (hw'.append hw)]

theorem trim_blanks_append {w : List Char} (hw : Blanks w) (cs : List Char) :
    trim (w ++ cs) = trim cs := by
  have h := trim_around hw blanks_nil cs
  rwa [List.append_nil] at h

theorem trim_append_blanks (cs : List Char) {w : List Char} (hw : Blanks w) :
    trim (cs ++ w) = trim cs :=
  trim_around blanks_nil hw cs

end Text

namespace Ty

open Text

def ScalarName (name : List Char) : Prop :=
  ∃ b : Base, (∀ m, b ≠ .other m) ∧ name = b.name.toList

def VectorName (name : List Char) (b : Base) (n : Int) : Prop :=
  (∀ m, b ≠ .other m) ∧ ∃ number, name = b.vectorStem.toList ++ number ∧ Numeral number n

def Bare (name bare : List Char) : Prop :=
  name = "struct ".toList ++ bare ∨ ¬"struct ".toList <+: name ∧ bare = name

inductive BaseName (structs : Structs) : List Char → Ty → Prop
  | scalar {b : Base} (hb : ∀ m, b ≠ .other m) : BaseName structs b.name.toList (.scalar b)
  | vector {name : List Char} {b : Base} {n : Int} (h : VectorName name b n)
      (hn : 2 ≤ n ∧ n ≤ 4) : BaseName structs name (.vector b n)
  -- a vector name is free for a struct only where no word holds its number
  | struct {name bare : List Char} {t : Ty} (hs : ¬ScalarName name)
      (hv : ∀ b n, VectorName name b n → inInt64 n = false) (hbare : Bare name bare)
      (ht : structs.lookup (String.ofList bare) = some t) : BaseName structs name t

theorem find?_scalar {name : List Char} {b : Base} :
    scalarBases.find? (·.name.toList == name) = some b ↔
      (∀ m, b ≠ .other m) ∧ name = b.name.toList := by
  constructor
  · intro h
    refine ⟨mem_scalarBases.mp (List.mem_of_find?_eq_some h), ?_⟩
    have heq := List.find?_some h
    exact (beq_iff_eq.mp heq).symm
  · rintro ⟨hb, rfl⟩
    have hall : ∀ b ∈ scalarBases,
        scalarBases.find? (·.name.toList == b.name.toList) = some b := by
      decide +kernel
    exact hall b (mem_scalarBases.mpr hb)

theorem find?_scalar_none {name : List Char} :
    scalarBases.find? (·.name.toList == name) = none ↔ ¬ScalarName name := by
  rw [← Option.not_isSome_iff_eq_none, Option.isSome_iff_exists]
  simp only [find?_scalar, ScalarName]

theorem dropStem?_eq_some_iff {stem cs rest : List Char} :
    dropStem? stem cs = some rest ↔ cs = stem ++ rest := by
  unfold dropStem?
  constructor
  · intro h
    split at h
    · rename_i hprefix
      obtain ⟨more, rfl⟩ := List.isPrefixOf_iff_prefix.mp hprefix
      cases h
      rw [List.drop_left]
    · cases h
  · rintro rfl
    simp

theorem dropStem?_eq_none_iff {stem cs : List Char} :
    dropStem? stem cs = none ↔ ¬stem <+: cs := by
  rw [← List.isPrefixOf_iff_prefix, dropStem?]
  split <;> simp_all

/-- No vector stem is the start of another, and no scalar name starts with one. -/
theorem stems_apart :
    (∀ b ∈ vectorBases, ∀ b' ∈ vectorBases,
      b.vectorStem.toList.isPrefixOf b'.vectorStem.toList = true → b = b') ∧
    ∀ b ∈ vectorBases, ∀ b' ∈ scalarBases,
      b.vectorStem.toList.isPrefixOf b'.name.toList = false := by
  decide +kernel

theorem VectorName.base_unique {name : List Char} {b b' : Base} {n n' : Int}
    (h : VectorName name b n) (h' : VectorName name b' n') : b = b' := by
  obtain ⟨hb, ds, rfl, -⟩ := h
  obtain ⟨hb', ds', heq, -⟩ := h'
  have hmem := mem_vectorBases.mpr hb
  have hmem' := mem_vectorBases.mpr hb'
  rcases List.append_eq_append_iff.mp heq with ⟨more, hmore, -⟩ | ⟨more, hmore, -⟩
  · exact stems_apart.1 b hmem b' hmem' (List.isPrefixOf_iff_prefix.mpr ⟨more, hmore.symm⟩)
  · exact (stems_apart.1 b' hmem' b hmem (List.isPrefixOf_iff_prefix.mpr ⟨more, hmore.symm⟩)).symm

theorem VectorName.not_scalarName {name : List Char} {b : Base} {n : Int}
    (h : VectorName name b n) : ¬ScalarName name := by
  rintro ⟨b', hb', hname⟩
  obtain ⟨hb, ds, heq, -⟩ := h
  have hapart := stems_apart.2 b (mem_vectorBases.mpr hb) b' (mem_scalarBases.mpr hb')
  rw [← hname, heq, Bool.eq_false_iff] at hapart
  exact hapart (List.isPrefixOf_iff_prefix.mpr (List.prefix_append _ _))

theorem vectorName?_eq_some_iff {name : List Char} {b : Base} {n : Int} :
    vectorName? name = some (b, n) ↔ VectorName name b n ∧ inInt64 n = true := by
  have hread : ∀ b' : Base, ∀ r, ((dropStem? b'.vectorStem.toList name).bind fun cs =>
      (decimal? cs).map fun n => (b', n)) = some r ↔
        r.1 = b' ∧ ∃ cs, name = b'.vectorStem.toList ++ cs ∧ decimal? cs = some r.2 := by
    intro b' r
    simp only [Option.bind_eq_some_iff, Option.map_eq_some_iff, dropStem?_eq_some_iff]
    constructor
    · rintro ⟨cs, hcs, m, hm, rfl⟩
      exact ⟨rfl, cs, hcs, hm⟩
    · rintro ⟨rfl, cs, hcs, hm⟩
      exact ⟨cs, hcs, r.2, hm, rfl⟩
  constructor
  · intro h
    obtain ⟨b', hb', hsome⟩ := List.exists_of_findSome?_eq_some h
    obtain ⟨rfl, cs, hcs, hm⟩ := (hread b' (b, n)).mp hsome
    obtain ⟨hnum, hfits⟩ := decimal?_eq_some_iff.mp hm
    exact ⟨⟨mem_vectorBases.mp hb', cs, hcs, hnum⟩, hfits⟩
  · rintro ⟨⟨hb, cs, hcs, hnum⟩, hfits⟩
    have hsome := (hread b (b, n)).mpr ⟨rfl, cs, hcs, decimal?_eq_some_iff.mpr ⟨hnum, hfits⟩⟩
    have hany : (vectorName? name).isSome = true :=
      List.findSome?_isSome_iff.mpr ⟨b, mem_vectorBases.mpr hb, by rw [hsome]; rfl⟩
    obtain ⟨r, hr⟩ := Option.isSome_iff_exists.mp hany
    obtain ⟨b', hb', hsome'⟩ := List.exists_of_findSome?_eq_some hr
    obtain ⟨hr1, cs', hcs', hm'⟩ := (hread b' r).mp hsome'
    obtain ⟨hnum', -⟩ := decimal?_eq_some_iff.mp hm'
    -- two stems that fit are the same, and then so are the numbers behind them
    have hbase : b = b' := VectorName.base_unique ⟨hb, cs, hcs, hnum⟩
      ⟨mem_vectorBases.mp hb', cs', hcs', hnum'⟩
    subst hbase
    rw [hr, ← hsome', hsome]

theorem bare_eq {name bare : List Char} :
    (dropStem? "struct ".toList name).getD name = bare ↔ Bare name bare := by
  cases hdrop : dropStem? "struct ".toList name with
  | none =>
    have hnot := dropStem?_eq_none_iff.mp hdrop
    constructor
    · rintro rfl
      exact .inr ⟨hnot, rfl⟩
    · rintro (rfl | ⟨-, rfl⟩)
      · exact absurd (List.prefix_append _ _) hnot
      · rfl
  | some rest =>
    have hname := dropStem?_eq_some_iff.mp hdrop
    constructor
    · rintro rfl
      exact .inl hname
    · rintro (heq | ⟨hnot, -⟩)
      · rw [hname] at heq
        exact List.append_cancel_left heq
      · exact absurd ⟨rest, hname.symm⟩ hnot

theorem parseBase_eq_ok_iff {structs : Structs} {name : List Char} {t : Ty} :
    parseBase structs name = .ok t ↔ BaseName structs name t := by
  constructor
  · intro h
    unfold parseBase at h
    split at h
    · rename_i b hfind
      cases h
      obtain ⟨hb, rfl⟩ := find?_scalar.mp hfind
      exact .scalar hb
    · rename_i hscalar
      split at h
      · rename_i b n hvector
        split at h
        · rename_i hn
          cases h
          exact .vector (vectorName?_eq_some_iff.mp hvector).1 hn
        · cases h
      · rename_i hvector
        simp only at h
        split at h
        · rename_i u hlookup
          cases h
          refine .struct (find?_scalar_none.mp hscalar) (fun b n hv => ?_) (bare_eq.mp rfl) hlookup
          rw [Bool.eq_false_iff]
          intro hfits
          rw [vectorName?_eq_some_iff.mpr ⟨hv, hfits⟩] at hvector
          cases hvector
        · cases h
  · intro h
    cases h with
    | scalar hb => rw [parseBase, find?_scalar.mpr ⟨hb, rfl⟩]
    | @vector _ b n hv hn =>
      have hfits : inInt64 n = true := by
        rw [inInt64, decide_eq_true_eq]
        omega
      rw [parseBase, find?_scalar_none.mpr hv.not_scalarName,
        vectorName?_eq_some_iff.mpr ⟨hv, hfits⟩]
      exact if_pos hn
    | struct hs hv hbare ht =>
      have hnone : vectorName? name = none := by
        cases hvector : vectorName? name with
        | none => rfl
        | some r =>
          obtain ⟨hname, hfits⟩ := vectorName?_eq_some_iff.mp hvector
          rw [hv r.1 r.2 hname] at hfits
          cases hfits
      rw [parseBase, find?_scalar_none.mpr hs, hnone]
      simp only [bare_eq.mpr hbare, ht]

/-- The groups behind a base name, and the type that they make of the base. White space may stand in
front of each bracket, around each number, and at the end. -/
inductive Dimensions (base : Ty) : List Char → Ty → Prop
  | none {w : List Char} (hw : Blanks w) : Dimensions base w base
  | group {w before number after rest : List Char} {n : Int} {t : Ty} (hw : Blanks w)
      (hb : Blanks before) (hnum : Numeral number n) (hn : IsLength n) (ha : Blanks after)
      (hrest : Dimensions base rest t) :
      Dimensions base (w ++ '[' :: (before ++ number ++ after ++ ']' :: rest)) (.array t n)

theorem Dimensions.pad {base t : Ty} {v cs : List Char} (hv : Blanks v)
    (h : Dimensions base cs t) : Dimensions base (v ++ cs) t := by
  cases h with
  | none hw => exact .none (hv.append hw)
  | group hw hb hnum hn ha hrest =>
    rw [← List.append_assoc]
    exact .group (hv.append hw) hb hnum hn ha hrest

theorem Dimensions.append_blanks {base t : Ty} {v cs : List Char} (h : Dimensions base cs t)
    (hv : Blanks v) : Dimensions base (cs ++ v) t := by
  induction h with
  | none hw => exact .none (hw.append hv)
  | group hw hb hnum hn ha _ ih =>
    have hgroup := Dimensions.group hw hb hnum hn ha ih
    simpa only [List.append_assoc, List.cons_append] using hgroup

theorem Dimensions.of_trim {base t : Ty} {cs : List Char} (h : Dimensions base (trim cs) t) :
    Dimensions base cs t := by
  obtain ⟨v, w, hv, hw, hcs⟩ := exists_trim cs
  rw [hcs, List.append_assoc]
  exact (h.append_blanks hw).pad hv

/-- Behind the base name stands white space, and then a bracket opens or the text ends. -/
theorem Dimensions.cut {base t : Ty} {cs : List Char} (h : Dimensions base cs t) :
    ∃ w rest, Blanks w ∧ cs = w ++ rest ∧ ∀ c ∈ rest.head?, c = '[' := by
  cases h with
  | none hw => exact ⟨cs, [], hw, (List.append_nil cs).symm, by simp⟩
  | group hw _ _ _ _ _ => exact ⟨_, _, hw, rfl, by simp⟩

theorem bracketed?_eq_some {cs inside rest : List Char}
    (h : bracketed? cs = some (inside, rest)) : cs = inside ++ ']' :: rest ∧ ']' ∉ inside := by
  induction cs generalizing inside with
  | nil => cases h
  | cons c cs ih =>
    by_cases hc : c = ']'
    · subst hc
      cases h
      exact ⟨rfl, by simp⟩
    · rw [bracketed?.eq_3 c cs hc] at h
      obtain ⟨⟨inside', rest'⟩, hp, heq⟩ := Option.map_eq_some_iff.mp h
      cases heq
      obtain ⟨rfl, hnot⟩ := ih hp
      exact ⟨rfl, by simp [hnot, Ne.symm hc]⟩

theorem parseDims_sound {text : String} {rest : List Char} {dims : List Int} (base : Ty)
    (h : parseDims text rest = .ok dims) : Dimensions base rest (wrapDims base dims) := by
  fun_induction parseDims text rest generalizing dims with
  | case1 =>
    cases h
    exact .none blanks_nil
  | case2 => cases h
  | case3 => cases h
  | case4 cs inside tail hclosed n hn ih =>
    obtain ⟨more, hmore, h⟩ := except_ok h
    cases h
    obtain ⟨hread, hpos⟩ := Option.filter_eq_some_iff.mp hn
    obtain ⟨hnum, hfits⟩ := decimal?_eq_some_iff.mp hread
    simp only [inInt64, decide_eq_true_eq] at hfits hpos
    obtain ⟨rfl, -⟩ := bracketed?_eq_some hclosed
    obtain ⟨before, after, hb, ha, hinside⟩ := exists_trim inside
    have hgroup : Dimensions base ([] ++ '[' :: (before ++ trim inside ++ after ++ ']' :: tail))
        (.array (wrapDims base more) n) :=
      .group blanks_nil hb hnum ⟨hpos, hfits.2⟩ ha (.of_trim (ih hmore))
    rwa [← hinside] at hgroup
  | case5 => cases h

/-- The text between brackets is trimmed and read, and the rest is trimmed and read on. -/
theorem parseDims_group (text : String) {inside tail : List Char} {n : Int} (hclose : ']' ∉ inside)
    (hread : (decimal? (trim inside)).filter (0 < ·) = some n) :
    parseDims text ('[' :: (inside ++ ']' :: tail)) =
      (parseDims text (trim tail)).map (n :: ·) := by
  have hclosed := bracketed?_append hclose tail
  rw [parseDims.eq_def]
  simp only
  split
  · rename_i hopen
    rw [hclosed] at hopen
    cases hopen
  · rename_i inside' tail' hsome
    rw [hclosed] at hsome
    cases hsome
    simp only [hread]
    cases parseDims text (trim tail) <;> rfl

theorem trim_group {w : List Char} (hw : Blanks w) (inside rest : List Char) :
    trim (w ++ '[' :: (inside ++ ']' :: rest)) = '[' :: (inside ++ ']' :: trimRight rest) := by
  obtain ⟨v, hv, hrest⟩ := exists_trimRight rest
  have hcore : Trimmed ('[' :: (inside ++ ']' :: trimRight rest)) := by
    refine ⟨fun c hc => ?_, fun c hc => ?_⟩
    · cases hc
      rfl
    · rw [← List.cons_append, List.getLast?_append, List.getLast?_cons, Option.some_or] at hc
      cases hlast : (trimRight rest).getLast? with
      | none =>
        rw [hlast] at hc
        cases hc
        rfl
      | some d =>
        rw [hlast] at hc
        cases hc
        exact last_trimRight rest d hlast
  have htext : w ++ '[' :: (inside ++ ']' :: rest) =
      w ++ '[' :: (inside ++ ']' :: trimRight rest) ++ v := by
    simp only [List.append_assoc, List.cons_append, ← hrest]
  rw [htext, hcore.trim_around hw hv]

theorem parseDims_complete (text : String) {base t : Ty} {cs : List Char}
    (h : Dimensions base cs t) :
    ∃ dims, parseDims text (trim cs) = .ok dims ∧ wrapDims base dims = t := by
  induction h with
  | @none w hw =>
    have hempty : trim w = [] := by
      rw [trim, trimLeft_of_blanks hw]
      rfl
    rw [hempty]
    unfold parseDims
    exact ⟨[], rfl, rfl⟩
  | @group w before number after rest n t hw hb hnum hn ha hrest ih =>
    obtain ⟨dims, hdims, rfl⟩ := ih
    have hclose : ']' ∉ before ++ number ++ after := by
      simp only [List.mem_append, not_or]
      exact ⟨⟨hb.not_mem rfl, hnum.not_mem_close⟩, ha.not_mem rfl⟩
    have hfits : inInt64 n = true := by
      have hlen : 0 < n ∧ n < 0x8000000000000000 := hn
      rw [inInt64, decide_eq_true_eq]
      omega
    have hread : (decimal? (trim (before ++ number ++ after))).filter (0 < ·) = some n := by
      rw [hnum.trimmed.trim_around hb ha, decimal?_eq_some_iff.mpr ⟨hnum, hfits⟩,
        Option.filter_some, if_pos (decide_eq_true hn.1)]
    have htail : trim (trimRight rest) = trim rest := by
      obtain ⟨v, hv, hrest⟩ := exists_trimRight rest
      conv_rhs => rw [hrest, trim_append_blanks _ hv]
    refine ⟨n :: dims, ?_, rfl⟩
    rw [trim_group hw, parseDims_group text hclose hread, htail, hdims]
    rfl

def Spells (structs : Structs) (name text : List Char) (t : Ty) : Prop :=
  ∃ w rest base, Blanks w ∧ text = w ++ name ++ rest ∧ BaseName structs name base ∧
    Dimensions base rest t

structure Delimited (name : List Char) : Prop extends Trimmed name where
  bracket : '[' ∉ name

theorem cut_eq {pre post : List Char} (hpre : '[' ∉ pre) (hpost : ∀ c ∈ post.head?, c = '[') :
    (pre ++ post).takeWhile (· != '[') = pre ∧ (pre ++ post).dropWhile (· != '[') = post := by
  have hplain : ∀ c ∈ pre, (c != '[') = true := by
    intro c hc
    rw [bne_iff_ne]
    rintro rfl
    exact hpre hc
  rw [List.takeWhile_append_of_pos hplain, List.dropWhile_append_of_pos hplain]
  cases post with
  | nil => simp
  | cons c post =>
    obtain rfl : c = '[' := hpost c rfl
    simp

theorem exists_cut (cs : List Char) :
    ∃ pre post, cs = pre ++ post ∧ '[' ∉ pre ∧ ∀ c ∈ post.head?, c = '[' := by
  refine ⟨cs.takeWhile (· != '['), cs.dropWhile (· != '['),
    List.takeWhile_append_dropWhile.symm, fun hmem => ?_, fun c hc => ?_⟩
  · have hstops := List.mem_takeWhile_imp hmem
    simp at hstops
  · have hnot := List.head?_dropWhile_not (· != '[') cs
    rw [Option.mem_def.mp hc] at hnot
    simpa using hnot

theorem cut_trim (cs : List Char) :
    trim ((trim cs).takeWhile (· != '[')) = trim (cs.takeWhile (· != '[')) ∧
      (trim cs).dropWhile (· != '[') = trim (cs.dropWhile (· != '[')) := by
  obtain ⟨v, w, hv, hw, hcs⟩ := exists_trim cs
  obtain ⟨pre, post, hcore, hpre, hpost⟩ := exists_cut (trim cs)
  obtain ⟨htake, hdrop⟩ := cut_eq hpre hpost
  rw [← hcore] at htake hdrop
  rw [htake, hdrop]
  have hv' : '[' ∉ v := hv.not_mem rfl
  have hw' : '[' ∉ w := hw.not_mem rfl
  cases post with
  | nil =>
    -- no bracket opens, so the white space on both sides belongs to the name
    have htext : cs = v ++ pre ++ w ++ [] := by
      rw [hcs, hcore]
      simp only [List.append_nil]
    obtain ⟨htake', hdrop'⟩ :=
      @cut_eq (v ++ pre ++ w) [] (by simp [hv', hpre, hw']) hpost
    rw [htext, htake', hdrop', trim_around hv hw]
    exact ⟨rfl, rfl⟩
  | cons c post =>
    have htext : cs = v ++ pre ++ (c :: post ++ w) := by
      rw [hcs, hcore]
      simp only [List.append_assoc]
    obtain ⟨htake', hdrop'⟩ :=
      @cut_eq (v ++ pre) (c :: post ++ w) (by simp [hv', hpre]) hpost
    have hopened : Trimmed (c :: post) := by
      refine ⟨fun d hd => hpost d hd ▸ rfl, fun d hd => last_trim cs d ?_⟩
      rw [hcore, List.getLast?_append_of_ne_nil _ (List.cons_ne_nil c post)]
      exact hd
    rw [htext, htake', hdrop', trim_blanks_append hv, trim_append_blanks _ hw, hopened.trim]
    exact ⟨rfl, rfl⟩

theorem parse_eq_ok_iff {structs : Structs} {text : String} {t : Ty} :
    parse structs text = .ok t ↔ ∃ dims base,
      parseDims (String.ofList (trim text.toList))
          (trim (text.toList.dropWhile (· != '['))) = .ok dims ∧
        BaseName structs (trim (text.toList.takeWhile (· != '['))) base ∧
        t = wrapDims base dims := by
  obtain ⟨hname, hrest⟩ := cut_trim text.toList
  rw [← hname, ← hrest]
  constructor
  · intro h
    obtain ⟨dims, hdims, h⟩ := except_ok h
    obtain ⟨base, hbase, h⟩ := except_ok h
    exact ⟨dims, base, hdims, parseBase_eq_ok_iff.mp hbase, (Except.ok.inj h).symm⟩
  · rintro ⟨dims, base, hdims, hbase, rfl⟩
    simp only [parse, hdims, parseBase_eq_ok_iff.mpr hbase]
    rfl

/-- The reader accepts exactly the texts of the grammar, and answers the type that they spell: the
base type under the groups, of which the first is the outermost. -/
theorem parse_accepts_grammar (structs : Structs) (text : String) (t : Ty) :
    parse structs text = .ok t ↔
      ∃ name, Delimited name ∧ Spells structs name text.toList t := by
  rw [parse_eq_ok_iff]
  constructor
  · rintro ⟨dims, base, hdims, hbase, rfl⟩
    obtain ⟨v, w, hv, hw, hname⟩ := exists_trim (text.toList.takeWhile (· != '['))
    refine ⟨trim (text.toList.takeWhile (· != '[')), ⟨trimmed_trim _, fun hmem => ?_⟩, v,
      w ++ text.toList.dropWhile (· != '['), base, hv, ?_, hbase, ?_⟩
    · have hstops := List.mem_takeWhile_imp ((trim_sublist _).subset hmem)
      simp at hstops
    · rw [← List.append_assoc, ← hname, List.takeWhile_append_dropWhile]
    · exact (Dimensions.of_trim (parseDims_sound base hdims)).pad hw
  · rintro ⟨name, hname, v, rest, base, hv, htext, hbase, hdims⟩
    obtain ⟨w, post, hw, hrest, hpost⟩ := hdims.cut
    have hpre : '[' ∉ v ++ name ++ w := by
      simp only [List.mem_append, not_or]
      exact ⟨⟨hv.not_mem rfl, hname.bracket⟩, hw.not_mem rfl⟩
    obtain ⟨htake, hdrop⟩ := cut_eq hpre hpost
    have hcut : text.toList = v ++ name ++ w ++ post := by
      rw [htext, hrest]
      simp only [List.append_assoc]
    obtain ⟨dims, hread, hwrap⟩ :=
      parseDims_complete (String.ofList (trim text.toList)) hdims
    rw [hrest, trim_blanks_append hw] at hread
    rw [hcut] at hread ⊢
    rw [htake, hdrop, hname.toTrimmed.trim_around hv hw]
    exact ⟨dims, base, hread, hbase, hwrap.symm⟩

def undelimited : Structs :=
  [("mat[n]", .struct "mat[n]" [("x", .scalar .float)]), (" a", .struct " a" [])]

/-- A declared name that is not delimited spells its struct and is refused: at the bracket the name
is taken to end, and white space in front of it is dropped. -/
theorem undelimited_names_refused :
    (Spells undelimited "mat[n]".toList "mat[n]".toList (.struct "mat[n]" [("x", .scalar .float)]) ∧
      parse undelimited "mat[n]" = .error (.badLength "mat[n]" "n")) ∧
    Spells undelimited " a".toList " a".toList (.struct " a" []) ∧
      parse undelimited " a" = .error (.unknown "a") := by
  have hspells : ∀ {name : List Char} {t : Ty}, parseBase undelimited name = .ok t →
      Spells undelimited name name t := fun {name t} h =>
    ⟨[], [], t, blanks_nil, by simp, parseBase_eq_ok_iff.mp h, .none blanks_nil⟩
  exact ⟨⟨hspells (by decide +kernel), by decide +kernel⟩, hspells (by decide +kernel),
    by decide +kernel⟩

end Ty

end ShaderIR
