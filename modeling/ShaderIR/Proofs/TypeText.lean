import Mathlib.Data.List.Induction
import Mathlib.Data.List.TakeWhile
import ShaderIR.Proofs.Sequencing
import ShaderIR.Type.Parser
import ShaderIR.Type.Printer

/-!
# Written types are read back

A type is written as a base name and its dimensions, the outermost first, and reading wraps the
dimensions around the base again, the innermost first. A name in the text of a type ends where the
first bracket opens, and blanks at its end are dropped, so only structs whose names have neither can
be named. Every such type is read back from its text. The word before the name of a struct keeps it
apart from the names of scalars and vectors.
-/

set_option autoImplicit false

namespace ShaderIR

namespace Text

structure Trimmed (cs : List Char) : Prop where
  first : ∀ c ∈ cs.head?, isBlank c = false
  last : ∀ c ∈ cs.getLast?, isBlank c = false

theorem trimLeft_eq {cs : List Char} (h : ∀ c ∈ cs.head?, isBlank c = false) : trimLeft cs = cs := by
  cases cs with
  | nil => rfl
  | cons c cs =>
    have hc : isBlank c = false := h c rfl
    simp [trimLeft, hc]

theorem trimRight_eq {cs : List Char} (h : ∀ c ∈ cs.getLast?, isBlank c = false) :
    trimRight cs = cs := by
  have hrev : trimLeft cs.reverse = cs.reverse := trimLeft_eq (by rwa [List.head?_reverse])
  rw [trimRight]
  unfold trimLeft at hrev
  rw [hrev, List.reverse_reverse]

theorem Trimmed.trim {cs : List Char} (h : Trimmed cs) : trim cs = cs := by
  rw [Text.trim, trimLeft_eq h.first, trimRight_eq h.last]

theorem trimmed_of_forall {cs : List Char} (h : ∀ c ∈ cs, isBlank c = false) : Trimmed cs where
  first c hc := h c (List.mem_of_mem_head? hc)
  last c hc := h c (List.mem_of_getLast? hc)

theorem Trimmed.append {xs ys : List Char} (hx : Trimmed xs) (hy : Trimmed ys) :
    Trimmed (xs ++ ys) where
  first c hc := by
    rw [List.head?_append] at hc
    rcases Option.or_eq_some_iff.mp hc with hc | ⟨-, hc⟩
    · exact hx.first c hc
    · exact hy.first c hc
  last c hc := by
    rw [List.getLast?_append] at hc
    rcases Option.or_eq_some_iff.mp hc with hc | ⟨-, hc⟩
    · exact hy.last c hc
    · exact hx.last c hc

theorem last_trimRight (cs : List Char) : ∀ c ∈ (trimRight cs).getLast?, isBlank c = false := by
  intro c hc
  rw [trimRight, List.getLast?_reverse] at hc
  have hhead := List.head?_dropWhile_not isBlank cs.reverse
  rw [hc] at hhead
  simpa using hhead

theorem last_trim (cs : List Char) : ∀ c ∈ (trim cs).getLast?, isBlank c = false :=
  last_trimRight _

theorem trim_sublist (cs : List Char) : (trim cs).Sublist cs := by
  have hright (ds : List Char) : (trimRight ds).Sublist ds := by
    simpa [trimRight] using (List.dropWhile_sublist isBlank (l := ds.reverse)).reverse
  exact (hright _).trans (List.dropWhile_sublist isBlank)

theorem digitsFrom_append (base : Nat) (acc : Nat) (xs ys : List Char) :
    digitsFrom base acc (xs ++ ys) = (digitsFrom base acc xs).bind fun n => digitsFrom base n ys := by
  induction xs generalizing acc with
  | nil => rfl
  | cons x xs ih =>
    simp only [List.cons_append, digitsFrom]
    cases digitValue x with
    | none => rfl
    | some d =>
      simp only
      split
      · exact ih _
      · rfl

theorem digitValue_digitChar {n : Nat} (h : n < 10) : digitValue n.digitChar = some n := by
  have hall : ∀ n < 10, digitValue n.digitChar = some n := by decide +kernel
  exact hall n h

theorem digitsFrom_toDigits (n : Nat) : digitsFrom 10 0 (Nat.toDigits 10 n) = some n := by
  induction n using Nat.strongRecOn with
  | _ n ih =>
    by_cases hn : n < 10
    · rw [Nat.toDigits_of_lt_base hn]
      simp [digitsFrom, digitValue_digitChar hn, hn]
    · have hlast : n % 10 < 10 := Nat.mod_lt n (by decide)
      rw [Nat.toDigits_of_base_le (by decide) (by omega), digitsFrom_append, ih (n / 10) (by omega)]
      simp only [Option.bind_some, digitsFrom, digitValue_digitChar hlast, if_pos hlast]
      congr 1
      omega

theorem toList_toString {n : Int} (h : 0 ≤ n) :
    (toString n).toList = Nat.toDigits 10 n.toNat := by
  obtain ⟨m, rfl⟩ := Int.eq_ofNat_of_zero_le h
  have htext : toString (m : Int) = toString m := rfl
  rw [htext, Nat.toString_eq_ofList_toDigits, String.toList_ofList, Int.toNat_natCast]

theorem isDigit_of_mem_toString {n : Int} (h : 0 ≤ n) {c : Char} (hc : c ∈ (toString n).toList) :
    c.isDigit = true := by
  rw [toList_toString h] at hc
  exact Nat.isDigit_of_mem_toDigits (by decide) (by decide) hc

theorem signed_of_isDigit (read : List Char → Option Nat) {cs : List Char}
    (h : ∀ c ∈ cs.head?, c.isDigit = true) :
    signed read cs = (read cs).map fun n : Nat => (n : Int) := by
  unfold signed
  split
  · exact absurd (h '-' rfl) (by decide)
  · exact absurd (h '+' rfl) (by decide)
  · cases read cs <;> rfl

/-- A number that a signed word holds is read back from its decimal text. -/
theorem decimal?_toString {n : Int} (h : 0 ≤ n) (hn : n < 0x8000000000000000) :
    decimal? (toString n).toList = some n := by
  have hdigits : ∀ c ∈ (toString n).toList.head?, c.isDigit = true :=
    fun c hc => isDigit_of_mem_toString h (List.mem_of_mem_head? hc)
  have hread : digits 10 (toString n).toList = some n.toNat := by
    rw [toList_toString h, ← digitsFrom_toDigits n.toNat]
    unfold digits
    split
    · exact absurd ‹_› Nat.toDigits_ne_nil
    · rfl
  have hfits : inInt64 n = true := by
    simp only [inInt64, decide_eq_true_eq]
    omega
  rw [decimal?, signed_of_isDigit _ hdigits, hread, Option.map_some, Int.toNat_of_nonneg h,
    Option.filter_some, if_pos hfits]

end Text

namespace Ty

open Text

def dimText (n : Int) : List Char := '[' :: (toString n).toList ++ [']']

theorem toList_renderDim (n : Int) : (renderDim n).toList = dimText n := by
  simp [renderDim, dimText]

def IsLength (n : Int) : Prop := 0 < n ∧ n < 0x8000000000000000

theorem toList_render (t : Ty) :
    t.render.toList = (renderBase t.peel.1).toList ++ t.peel.2.flatMap dimText := by
  rw [render, String.toList_append, String.toList_join, List.flatMap_map]
  simp only [toList_renderDim]

theorem wrapDims_peel (t : Ty) : wrapDims t.peel.1 t.peel.2 = t := by
  induction t using peel.induct with
  | case1 t n base dims hpeel ih =>
    rw [hpeel] at ih
    simp only [peel, hpeel, wrapDims, List.foldr_cons]
    exact congrArg (array · n) ih
  | case2 t ht =>
    have hpeel : t.peel = (t, []) := peel.eq_2 t ht
    rw [hpeel]
    rfl

theorem bracketed?_append {inside : List Char} (h : ']' ∉ inside) (rest : List Char) :
    bracketed? (inside ++ ']' :: rest) = some (inside, rest) := by
  induction inside with
  | nil => rfl
  | cons c inside ih =>
    have hc : c = ']' → False := fun heq => h (heq ▸ .head _)
    rw [List.cons_append, bracketed?.eq_3 _ _ hc, ih fun hmem => h (.tail _ hmem)]
    rfl

theorem getLast?_flatMap_dimText {dims : List Int} {c : Char}
    (hc : c ∈ (dims.flatMap dimText).getLast?) : c = ']' := by
  induction dims using List.reverseRecOn with
  | nil => cases hc
  | append_singleton dims n _ =>
    rw [List.flatMap_append, List.flatMap_singleton, dimText, ← List.append_assoc,
      List.getLast?_concat] at hc
    exact (Option.some.inj hc).symm

theorem head?_flatMap_dimText {dims : List Int} {c : Char}
    (hc : c ∈ (dims.flatMap dimText).head?) : c = '[' := by
  cases dims with
  | nil => cases hc
  | cons n dims => exact (Option.some.inj hc).symm

theorem trimmed_dims (dims : List Int) : Trimmed (dims.flatMap dimText) where
  first _ hc := head?_flatMap_dimText hc ▸ rfl
  last _ hc := getLast?_flatMap_dimText hc ▸ rfl

theorem isBlank_of_isDigit {c : Char} (h : c.isDigit = true) : isBlank c = false := by
  have hrange : 48 ≤ c.toNat ∧ c.toNat ≤ 57 := by
    simpa [Char.isDigit, UInt32.le_iff_toNat_le] using h
  simp only [isBlank, Bool.or_eq_false_iff, Bool.and_eq_false_iff, decide_eq_false_iff_not,
    beq_eq_false_iff_ne]
  omega

theorem parseDims_cons (text : String) {n : Int} (hn : IsLength n) {tail : List Char}
    (ht : Trimmed tail) :
    parseDims text (dimText n ++ tail) = (parseDims text tail).map (n :: ·) := by
  have hdigit : ∀ c ∈ (toString n).toList, c.isDigit = true :=
    fun c hc => isDigit_of_mem_toString (Int.le_of_lt hn.1) hc
  have hclosed : bracketed? ((toString n).toList ++ ']' :: tail) =
      some ((toString n).toList, tail) :=
    bracketed?_append (fun hmem => absurd (hdigit _ hmem) (by decide)) tail
  have htrim : trim (toString n).toList = (toString n).toList :=
    (trimmed_of_forall fun c hc => isBlank_of_isDigit (hdigit c hc)).trim
  have hread : (decimal? (trim (toString n).toList)).filter (0 < ·) = some n := by
    rw [htrim, decimal?_toString (Int.le_of_lt hn.1) hn.2, Option.filter_some,
      if_pos (decide_eq_true hn.1)]
  have htext : dimText n ++ tail = '[' :: ((toString n).toList ++ ']' :: tail) := by
    simp [dimText]
  rw [htext, parseDims.eq_def]
  simp only
  split
  · rename_i hopen
    rw [hclosed] at hopen
    cases hopen
  · rename_i inside tail' hsome
    rw [hclosed] at hsome
    cases hsome
    simp only [hread, ht.trim]
    cases parseDims text tail <;> rfl

theorem parseDims_dims (text : String) {dims : List Int} (h : ∀ n ∈ dims, IsLength n) :
    parseDims text (dims.flatMap dimText) = .ok dims := by
  induction dims with
  | nil =>
    unfold parseDims
    rfl
  | cons n dims ih =>
    rw [List.flatMap_cons, parseDims_cons text (h n (.head _)) (trimmed_dims dims),
      ih fun m hm => h m (.tail _ hm)]
    rfl

structure Nameable (name : String) : Prop where
  bracket : '[' ∉ name.toList
  last : ∀ c ∈ name.toList.getLast?, isBlank c = false

instance (name : String) : Decidable (Nameable name) :=
  decidable_of_iff ('[' ∉ name.toList ∧ name.toList.getLast?.all (!isBlank ·) = true) <| by
    refine ⟨fun ⟨hb, hl⟩ => ⟨hb, fun c hc => ?_⟩, fun ⟨hb, hl⟩ => ⟨hb, ?_⟩⟩
    · simpa [Option.mem_def.mp hc] using hl
    · rw [Option.all_eq_true]
      exact fun c hc => by simp [hl c hc]

structure Declares (structs : Structs) : Prop where
  named : ∀ name t, structs.lookup name = some t → ∃ fields, t = .struct name fields
  nonempty : structs.lookup "" = none

inductive Writable (structs : Structs) : Ty → Prop
  | scalar {b : Base} (hb : ∀ m, b ≠ .other m) : Writable structs (.scalar b)
  | vector {b : Base} {n : Int} (hb : ∀ m, b ≠ .other m) (hn : 2 ≤ n ∧ n ≤ 4) :
      Writable structs (.vector b n)
  | struct {name : String} {fields : List (String × Ty)}
      (hs : structs.lookup name = some (.struct name fields)) (hn : Nameable name) :
      Writable structs (.struct name fields)
  | array {t : Ty} {n : Int} (ht : Writable structs t) (hn : IsLength n) :
      Writable structs (.array t n)

theorem mem_scalarBases {b : Base} : b ∈ scalarBases ↔ ∀ m, b ≠ .other m := by
  cases b <;> simp [scalarBases]

theorem mem_vectorBases {b : Base} : b ∈ vectorBases ↔ ∀ m, b ≠ .other m := by
  cases b <;> simp [vectorBases]

structure ReadsBase (structs : Structs) (name : List Char) (t : Ty) : Prop where
  trimmed : Trimmed name
  bracket : '[' ∉ name
  reads : parseBase structs name = .ok t

def plainChar (c : Char) : Bool := !isBlank c && c != '['

theorem readsBase_of_plain {structs : Structs} {name : List Char} {t : Ty}
    (hname : name.all plainChar = true) (hread : parseBase structs name = .ok t) :
    ReadsBase structs name t := by
  have hplain : ∀ c ∈ name, isBlank c = false ∧ c ≠ '[' := by
    simpa [plainChar] using hname
  exact ⟨trimmed_of_forall fun c hc => (hplain c hc).1, fun hc => (hplain _ hc).2 rfl, hread⟩

theorem readsBase_scalar (structs : Structs) {b : Base} (hb : ∀ m, b ≠ .other m) :
    ReadsBase structs b.name.toList (.scalar b) := by
  have hall : ∀ b ∈ scalarBases, b.name.toList.all plainChar = true ∧
      scalarBases.find? (·.name.toList == b.name.toList) = some b := by
    decide +kernel
  obtain ⟨hplain, hfind⟩ := hall b (mem_scalarBases.mpr hb)
  apply readsBase_of_plain hplain
  rw [parseBase, hfind]

theorem readsBase_vector (structs : Structs) {b : Base} {n : Int} (hb : ∀ m, b ≠ .other m)
    (hn : 2 ≤ n ∧ n ≤ 4) :
    ReadsBase structs (b.vectorStem ++ toString n).toList (.vector b n) := by
  have hall : ∀ b ∈ vectorBases, ∀ n ∈ [(2 : Int), 3, 4],
      (b.vectorStem ++ toString n).toList.all plainChar = true ∧
      scalarBases.find? (·.name.toList == (b.vectorStem ++ toString n).toList) = none ∧
      vectorName? (b.vectorStem ++ toString n).toList = some (b, n) := by
    decide +kernel
  have hmem : n ∈ [(2 : Int), 3, 4] := by
    simp only [List.mem_cons, List.not_mem_nil, or_false]
    omega
  obtain ⟨hplain, hfind, hvector⟩ := hall b (mem_vectorBases.mpr hb) n hmem
  apply readsBase_of_plain hplain
  rw [parseBase, hfind, hvector]
  exact if_pos hn

/-- No built-in name starts with the letter that `struct` starts with. -/
theorem parseBase_struct {structs : Structs} {name : String} {t : Ty}
    (ht : structs.lookup name = some t) :
    parseBase structs ("struct ".toList ++ name.toList) = .ok t := by
  have hletters : "struct ".toList = 's' :: "truct ".toList := by decide +kernel
  have hscalar : scalarBases.find? (·.name.toList == "struct ".toList ++ name.toList) = none := by
    have hall : ∀ b ∈ scalarBases, b.name.toList.head? ≠ some 's' := by decide +kernel
    rw [List.find?_eq_none]
    intro b hb heq
    apply hall b hb
    rw [beq_iff_eq.mp heq, hletters]
    rfl
  have hvector : vectorName? ("struct ".toList ++ name.toList) = none := by
    have hall : ∀ b ∈ vectorBases, b.vectorStem.toList.head?.any (· != 's') = true := by
      decide +kernel
    rw [vectorName?, List.findSome?_eq_none_iff]
    intro b hb
    have hfirst := hall b hb
    cases hstem : b.vectorStem.toList with
    | nil =>
      rw [hstem] at hfirst
      cases hfirst
    | cons c stem =>
      rw [hstem] at hfirst
      have hc : c ≠ 's' := by simpa using hfirst
      rw [hletters]
      simp [dropStem?, List.isPrefixOf, hc]
  have hbare : dropStem? "struct ".toList ("struct ".toList ++ name.toList) = some name.toList := by
    simp [dropStem?]
  rw [parseBase, hscalar, hvector, hbare]
  simp only [Option.getD_some, String.ofList_toList, ht]

theorem readsBase_struct {structs : Structs} (hd : Declares structs) {name : String} {t : Ty}
    (ht : structs.lookup name = some t) (hn : Nameable name) :
    ReadsBase structs ("struct ".toList ++ name.toList) t := by
  have hne : name.toList ≠ [] := by
    rw [Ne, String.toList_eq_nil_iff]
    rintro rfl
    rw [hd.nonempty] at ht
    cases ht
  have hword : "struct ".toList.head? = some 's' ∧ '[' ∉ "struct ".toList := by decide +kernel
  refine ⟨⟨fun c hc => ?_, fun c hc => ?_⟩, fun hc => ?_, parseBase_struct ht⟩
  · rw [List.head?_append, hword.1] at hc
    cases hc
    rfl
  · rw [List.getLast?_append_of_ne_nil _ hne] at hc
    exact hn.last c hc
  · exact (List.mem_append.mp hc).elim hword.2 hn.bracket

/-- The base of a type that can be written is read back from its name. -/
theorem Writable.peel {structs : Structs} (hd : Declares structs) {t : Ty}
    (h : Writable structs t) :
    ReadsBase structs (renderBase t.peel.1).toList t.peel.1 ∧ ∀ n ∈ t.peel.2, IsLength n := by
  induction h with
  | scalar hb => exact ⟨readsBase_scalar structs hb, by simp [Ty.peel]⟩
  | vector hb hn => exact ⟨readsBase_vector structs hb hn, by simp [Ty.peel]⟩
  | @struct name fields hs hn =>
    have hne : name ≠ "" := by
      rintro rfl
      rw [hd.nonempty] at hs
      cases hs
    have htext : (renderBase (.struct name fields)).toList = "struct ".toList ++ name.toList := by
      rw [renderBase, if_neg hne, String.toList_append]
    have hpeel : (Ty.struct name fields).peel = (.struct name fields, []) := rfl
    rw [hpeel, htext]
    exact ⟨readsBase_struct hd hs hn, by simp⟩
  | array _ hn ih =>
    refine ⟨ih.1, fun m hm => ?_⟩
    rcases List.mem_cons.mp hm with rfl | hm
    · exact hn
    · exact ih.2 m hm

/-- The text of a type is cut where its first bracket opens. -/
theorem cut_dims {name : List Char} (h : '[' ∉ name) (dims : List Int) :
    (name ++ dims.flatMap dimText).takeWhile (· != '[') = name ∧
      (name ++ dims.flatMap dimText).dropWhile (· != '[') = dims.flatMap dimText := by
  have hname : ∀ c ∈ name, (c != '[') = true := by
    intro c hc
    rw [bne_iff_ne]
    rintro rfl
    exact h hc
  rw [List.takeWhile_append_of_pos hname, List.dropWhile_append_of_pos hname]
  cases dims with
  | nil => simp
  | cons n dims => simp [dimText]

/-- Types that can be written are read back. -/
theorem Writable.parse_render {structs : Structs} (hd : Declares structs) {t : Ty}
    (h : Writable structs t) : parse structs t.render = .ok t := by
  obtain ⟨hbase, hdims⟩ := h.peel hd
  have htext : trim t.render.toList =
      (renderBase t.peel.1).toList ++ t.peel.2.flatMap dimText := by
    rw [toList_render]
    exact (hbase.trimmed.append (trimmed_dims _)).trim
  obtain ⟨hname, hrest⟩ := cut_dims hbase.bracket t.peel.2
  simp only [parse, htext, hname, hrest, parseDims_dims _ hdims, hbase.trimmed.trim, hbase.reads]
  exact congrArg Except.ok t.wrapDims_peel

theorem inInt64_of_decimal? {cs : List Char} {n : Int} (h : decimal? cs = some n) :
    inInt64 n = true :=
  (Option.filter_eq_some_iff.mp h).2

theorem parseDims_isLength {text : String} {rest : List Char} {dims : List Int}
    (h : parseDims text rest = .ok dims) : ∀ n ∈ dims, IsLength n := by
  fun_induction parseDims text rest generalizing dims with
  | case1 =>
    cases h
    simp
  | case2 => cases h
  | case3 => cases h
  | case4 cs inside tail _ n hn ih =>
    obtain ⟨more, hmore, h⟩ := except_ok h
    cases h
    obtain ⟨hread, hpos⟩ := Option.filter_eq_some_iff.mp hn
    have hfits := inInt64_of_decimal? hread
    simp only [inInt64, decide_eq_true_eq] at hfits hpos
    have hlen : IsLength n := ⟨hpos, hfits.2⟩
    simpa [hlen] using ih hmore
  | case5 => cases h

theorem wrapDims_writable {structs : Structs} {t : Ty} (h : Writable structs t) {dims : List Int}
    (hd : ∀ n ∈ dims, IsLength n) : Writable structs (wrapDims t dims) := by
  induction dims with
  | nil => exact h
  | cons n dims ih => exact .array (ih fun m hm => hd m (.tail _ hm)) (hd n (.head _))

theorem bare_suffix (name : List Char) : (dropStem? "struct ".toList name).getD name <:+ name := by
  unfold dropStem?
  split
  · exact List.drop_suffix _ name
  · exact List.suffix_rfl

theorem nameable_of_suffix {bare name : List Char} (hs : bare <:+ name) (hb : '[' ∉ name)
    (hlast : ∀ c ∈ name.getLast?, isBlank c = false) : Nameable (String.ofList bare) := by
  obtain ⟨pre, rfl⟩ := hs
  refine ⟨fun hmem => ?_, fun c hc => hlast c ?_⟩
  · rw [String.toList_ofList] at hmem
    exact hb (List.mem_append_right pre hmem)
  · rw [String.toList_ofList] at hc
    rw [Option.mem_def, List.getLast?_append, hc, Option.some_or]

theorem mem_of_vectorName? {name : List Char} {b : Base} {n : Int}
    (h : vectorName? name = some (b, n)) : b ∈ vectorBases := by
  obtain ⟨b', hb', hread⟩ := List.exists_of_findSome?_eq_some h
  obtain ⟨cs, -, hmap⟩ := Option.bind_eq_some_iff.mp hread
  obtain ⟨m, -, heq⟩ := Option.map_eq_some_iff.mp hmap
  cases heq
  exact hb'

theorem parseBase_writable {structs : Structs} (hd : Declares structs) {name : List Char} {t : Ty}
    (hb : '[' ∉ name) (hlast : ∀ c ∈ name.getLast?, isBlank c = false)
    (h : parseBase structs name = .ok t) : Writable structs t := by
  unfold parseBase at h
  split at h
  · rename_i b hfind
    cases h
    exact .scalar (mem_scalarBases.mp (List.mem_of_find?_eq_some hfind))
  · split at h
    · rename_i b n hvector
      split at h
      · rename_i hn
        cases h
        exact .vector (mem_vectorBases.mp (mem_of_vectorName? hvector)) hn
      · cases h
    · simp only at h
      split at h
      · rename_i t' hlookup
        cases h
        obtain ⟨fields, rfl⟩ := hd.named _ _ hlookup
        exact .struct hlookup (nameable_of_suffix (bare_suffix name) hb hlast)
      · cases h

theorem parse_writable {structs : Structs} (hd : Declares structs) {text : String} {t : Ty}
    (h : parse structs text = .ok t) : Writable structs t := by
  obtain ⟨dims, hdims, h⟩ := except_ok h
  obtain ⟨base, hbase, h⟩ := except_ok h
  cases h
  have hbracket : '[' ∉ trim ((trim text.toList).takeWhile (· != '[')) := by
    intro hmem
    have hstops := List.mem_takeWhile_imp ((trim_sublist _).subset hmem)
    simp at hstops
  exact wrapDims_writable (parseBase_writable hd hbracket (last_trim _) hbase)
    (parseDims_isLength hdims)

/-- Reading undoes writing. What is read from any text is read again from what it is written as, and
the types that can be read are exactly those that can be written. -/
theorem types_read_back {structs : Structs} (hd : Declares structs) :
    (∀ text t, parse structs text = .ok t → parse structs t.render = .ok t) ∧
    (∀ t, Writable structs t → parse structs t.render = .ok t) ∧
    ∀ t, (∃ text, parse structs text = .ok t) ↔ Writable structs t := by
  refine ⟨fun text t h => ?_, fun t h => h.parse_render hd, fun t => ⟨?_, fun h => ?_⟩⟩
  · exact (parse_writable hd h).parse_render hd
  · rintro ⟨text, h⟩
    exact parse_writable hd h
  · exact ⟨t.render, h.parse_render hd⟩

def misleading : Structs :=
  [("vec2", .struct "vec2" [("x", .scalar .float)]), ("struct", .struct "struct" []),
    (" a", .struct " a" [])]

/-- The vector and the struct of its name are told apart, the outermost dimension comes first, and
the longest array can be written. -/
theorem misleading_read_back : Declares misleading ∧
    (let t := Ty.array (.array (.struct "vec2" [("x", .scalar .float)]) 3) 0x7FFFFFFFFFFFFFFF
     t.render = "struct vec2[9223372036854775807][3]" ∧ parse misleading t.render = .ok t) ∧
    (let t := Ty.vector .float 2
     t.render = "vec2" ∧ parse misleading t.render = .ok t) ∧
    let t := Ty.struct "struct" []
    t.render = "struct struct" ∧ parse misleading t.render = .ok t := by
  have hd : Declares misleading := by
    refine ⟨fun name t ht => ?_, by decide +kernel⟩
    obtain ⟨before, after, heq, -⟩ := List.lookup_eq_some_iff.mp ht
    have hmem : (name, t) ∈ misleading := heq ▸ by simp
    simp only [misleading, List.mem_cons, Prod.mk.injEq, List.not_mem_nil, or_false] at hmem
    rcases hmem with ⟨rfl, rfl⟩ | ⟨rfl, rfl⟩ | ⟨rfl, rfl⟩ <;> exact ⟨_, rfl⟩
  have hread := (types_read_back hd).2.1
  refine ⟨hd, ⟨by decide +kernel, hread _ ?_⟩, ⟨by decide +kernel, hread _ ?_⟩, by decide +kernel,
    hread _ ?_⟩
  · refine .array (.array (.struct (by decide +kernel) (by decide +kernel)) ?_) ?_
    · exact ⟨by decide, by decide⟩
    · exact ⟨by decide, by decide⟩
  · exact .vector (by simp) (by decide)
  · exact .struct (by decide +kernel) (by decide +kernel)

end Ty

end ShaderIR
