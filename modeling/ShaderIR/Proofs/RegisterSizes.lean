import Mathlib.Algebra.Order.BigOperators.GroupWithZero.List
import Mathlib.Algebra.Order.Ring.Int
import ShaderIR.Proofs.PassFaults

/-!
# The size of a register

A register has a slot for each way through the arrays of its chain. Their number is the product of
the array lengths, which a description may write down one by one as large as it likes. The product
is kept as a 64-bit number. So the size is right exactly while the product is below 2 ^ 63, and
beyond that an array may end up in a single slot.
-/

set_option autoImplicit false

namespace ShaderIR

open Lowering Text

mutual

def Ty.populated : Ty → Bool
  | .array t n => decide (0 < n) && t.populated
  | .struct _ fs => Ty.fieldsPopulated fs
  | _ => true

def Ty.fieldsPopulated : List (String × Ty) → Bool
  | [] => true
  | (_, t) :: fs => t.populated && Ty.fieldsPopulated fs

end

namespace Ty

theorem fieldsPopulated_iff {fs : List (String × Ty)} :
    fieldsPopulated fs = true ↔ ∀ f ∈ fs, f.2.populated = true := by
  induction fs with
  | nil => simp [fieldsPopulated]
  | cons f fs ih => simp [fieldsPopulated, ih]

theorem populated_fieldType {t : Ty} {i : Int} (h : t.populated = true) :
    (t.fieldType i).populated = true := by
  unfold fieldType
  split
  · rename_i name fs i
    cases hf : fs[i]? with
    | none => rfl
    | some f => exact fieldsPopulated_iff.mp h f (List.mem_of_getElem? hf)
  · rfl

theorem populated_elementType {t : Ty} (h : t.populated = true) (hne : t.elementType ≠ .absent) :
    t.elementType.populated = true ∧ 0 < t.length := by
  cases t with
  | array t n =>
    simp only [populated, Bool.and_eq_true, decide_eq_true_eq] at h
    exact ⟨h.2, h.1⟩
  | _ => exact absurd rfl hne

theorem wrapDims_populated {t : Ty} (h : t.populated = true) {dims : List Int}
    (hpos : ∀ n ∈ dims, 0 < n) : (wrapDims t dims).populated = true := by
  induction dims with
  | nil => exact h
  | cons n dims ih =>
    have hrest : (wrapDims t dims).populated = true := ih fun m hm => hpos m (.tail _ hm)
    have hn : decide (0 < n) = true := decide_eq_true (hpos n (.head _))
    exact Bool.and_eq_true_iff.mpr ⟨hn, hrest⟩

theorem parseBase_populated {structs : Structs} (hs : ∀ x ∈ structs, x.2.populated = true)
    {name : List Char} {t : Ty} (h : parseBase structs name = .ok t) : t.populated = true := by
  unfold parseBase at h
  split at h
  · cases h
    rfl
  · split at h
    · split at h <;> cases h
      rfl
    · dsimp only at h
      split at h <;> cases h
      rename_i hlookup
      exact hs _ (mem_of_lookup hlookup)

theorem parse_populated {structs : Structs} (hs : ∀ x ∈ structs, x.2.populated = true)
    {text : String} {t : Ty} (h : parse structs text = .ok t) : t.populated = true := by
  obtain ⟨dims, hdims, h⟩ := except_ok h
  obtain ⟨base, hbase, h⟩ := except_ok h
  cases h
  exact wrapDims_populated (parseBase_populated hs hbase)
    fun n hn => (parseDims_isLength hdims n hn).1

inductive Declarations : Structs → Prop
  | nil : Declarations []
  | cons {structs : Structs} (hs : Declarations structs) (name : String)
      (fields : List (String × Ty)) (hf : ∀ f ∈ fields, ∃ text, parse structs text = .ok f.2) :
      Declarations ((name, .struct name fields) :: structs)

theorem Declarations.populated {structs : Structs} (h : Declarations structs) :
    ∀ x ∈ structs, x.2.populated = true := by
  induction h with
  | nil => simp
  | cons hs name fields hf ih =>
    intro x hx
    rcases List.mem_cons.mp hx with rfl | hx
    · refine fieldsPopulated_iff.mpr fun f hmem => ?_
      obtain ⟨text, htext⟩ := hf f hmem
      exact parse_populated ih htext
    · exact ih x hx

def Written (t : Ty) : Prop := ∃ structs text, Declarations structs ∧ parse structs text = .ok t

theorem Written.populated {t : Ty} (h : t.Written) : t.populated = true := by
  obtain ⟨structs, text, hs, ht⟩ := h
  exact parse_populated hs.populated ht

end Ty

def arrayLengths : List Link → List Int
  | [] => []
  | link :: rest =>
    match link.kind with
    | .array _ => (headType rest).length :: arrayLengths rest
    | _ => arrayLengths rest

/-- On a chain from a variable of a written type no length is zero. -/
theorem Typed.arrayLengths_pos {links : List Link} (h : Typed links)
    (hid : (identity? links).isSome)
    (hvar : ∀ l ∈ links, ∀ v, l.kind = .var v → v.type.populated = true) :
    (headType links).populated = true ∧ ∀ n ∈ arrayLengths links, 0 < n := by
  induction links with
  | nil => cases hid
  | cons link rest ih =>
    have hrest := fun hid => ih h.2 hid fun l hl => hvar l (.tail _ hl)
    cases hk : link.kind with
    | var v =>
      simp only [Typed, hk] at h
      obtain ⟨⟨rfl, htype, -⟩, -⟩ := h
      refine ⟨?_, by simp [arrayLengths, hk]⟩
      rw [headType_cons, htype]
      exact hvar link (.head _) v hk
    | array index =>
      simp only [Typed, hk] at h
      obtain ⟨⟨htype, hne, -⟩, -⟩ := h
      rw [htype] at hne
      obtain ⟨hpop, hpos⟩ := hrest (by simpa [identity?, hk] using hid)
      obtain ⟨helem, hlen⟩ := Ty.populated_elementType hpop hne
      refine ⟨by rwa [headType_cons, htype], ?_⟩
      simpa [arrayLengths, hk, hlen] using hpos
    | struct f =>
      simp only [Typed, hk] at h
      obtain ⟨⟨htype, -, -⟩, -⟩ := h
      obtain ⟨hpop, hpos⟩ := hrest (by simpa [identity?, hk] using hid)
      refine ⟨?_, by simpa [arrayLengths, hk] using hpos⟩
      rw [headType_cons, htype]
      exact Ty.populated_fieldType hpop
    | cast => simp [identity?, hk] at hid

namespace RegisterTable

/-- Wrapping after each factor is wrapping once. -/
theorem elemCount_eq (links : List Link) : elemCount links = wrap64 (arrayLengths links).prod := by
  induction links with
  | nil => rfl
  | cons link rest ih =>
    cases hk : link.kind with
    | array index =>
      simp only [elemCount, arrayLengths, hk, List.prod_cons, ih, wrap64, Int.mul_bmod_bmod]
    | _ => simp only [elemCount, arrayLengths, hk, ih]

/-- The size of a register is the product of the lengths exactly while it is below 2 ^ 63. -/
theorem arraySize_eq_prod_iff {links : List Link} (hpos : 1 ≤ (arrayLengths links).prod) :
    (arraySize links = if (arrayLengths links).prod = 1 then 0 else (arrayLengths links).prod) ↔
      (arrayLengths links).prod < 2 ^ 63 := by
  rw [arraySize, elemCount_eq]
  generalize (arrayLengths links).prod = n at hpos
  constructor
  · intro hsize
    have hlt : wrap64 n < 2 ^ 63 := Int.bmod_lt (by decide)
    split at hsize <;> split at hsize <;> omega
  · intro hlt
    have hwrap : wrap64 n = n := Int.bmod_eq_of_le_mul_two (by omega) (by omega)
    rw [hwrap]
    split <;> split <;> omega

/-- A chain from a variable without an initializer to a vector or scalar finds a register in every
sequence of lookups. -/
theorem lookups_succeed {links : Array Link} (hb : Built links) {hs : List Handle}
    {t : RegisterTable} {b : Body} (hl : b.links = links) (ht : t.Sound links b.registerCount)
    {h : Handle} (hh : h ∈ hs) {v : Variable} (hv : rootVariable? (chain links h) = some v)
    (hinit : v.init = none) (hleaf : (derefType links h).isVectorOrScalar = true) :
    ∃ reg, (h, .ok reg) ∈ (lookups t b hs).1 := by
  induction hs generalizing t b with
  | nil => cases hh
  | cons h' hs ih =>
    unfold lookups
    rcases List.mem_cons.mp hh with rfl | hh
    · subst hl
      have hcomplete : (derefType b.links h).complete = true := by
        cases ht : derefType b.links h <;> simp_all [Ty.isVectorOrScalar, Ty.complete]
      have hout := lookupOrCreate_outcome hb ht (by rw [hv]; simp) hcomplete
      rw [hv, aggregate?_of_leaf hleaf] at hout
      simp only [initializer?, hinit, Option.bind_some, Option.isSome_none, Bool.false_eq_true,
        if_false, Option.or_none] at hout
      obtain ⟨⟨reg, t', b'⟩, hok⟩ := hout
      rw [hok]
      exact ⟨reg, .head _⟩
    · cases hstep : t.lookupOrCreate h' b with
      | error e =>
        obtain ⟨reg, hreg⟩ := ih hl ht hh
        exact ⟨reg, .tail _ hreg⟩
      | ok res =>
        obtain ⟨reg', t', b'⟩ := res
        obtain ⟨ht', hl'⟩ := ht.lookup hb hl hstep
        obtain ⟨reg, hreg⟩ := ih hl' ht' hh
        exact ⟨reg, .tail _ hreg⟩

/-- Over variables of written types, a lookup of a chain to a vector or scalar gives a register. Its
size is the product of the array lengths along the chain as a 64-bit number, with no array if that
is not above 1. So it is the product itself, and a single slot for the product 1, exactly while the
product is below 2 ^ 63. -/
theorem lookups_size (b : Body) (hb : Built b.links)
    (htypes : ∀ l ∈ b.links, ∀ v, l.kind = .var v → v.type.Written) (hs : List Handle) :
    (∀ h ∈ hs, ∀ v, rootVariable? (chain b.links h) = some v → v.init = none →
      (derefType b.links h).isVectorOrScalar = true →
      ∃ reg, (h, .ok reg) ∈ (lookups .empty b hs).1) ∧
    ∀ h reg, (h, .ok reg) ∈ (lookups .empty b hs).1 →
      let n := (arrayLengths (chain b.links h)).prod
      1 ≤ n ∧ (reg.arrayElems = if 1 < wrap64 n then wrap64 n else 0) ∧
      ((reg.arrayElems = if n = 1 then 0 else n) ↔ n < 2 ^ 63) := by
  have hempty := Sound.empty b.links b.registerCount
  constructor
  · intro h hh v hv hinit hleaf
    exact lookups_succeed hb rfl hempty hh hv hinit hleaf
  · intro h reg hmem n
    obtain ⟨hsound, hfound, -⟩ := lookups_entries hb hs rfl hempty
    obtain ⟨e, he, rfl, hturns⟩ := hfound h reg hmem
    have hsize : e.reg.arrayElems = arraySize (chain b.links h) := by
      rw [(hsound.shape e he).2.2, arraySize_congr (hsound.outline_eq hb he hturns)]
    have hid : (identity? (chain b.links h)).isSome := identity?_congr hturns ▸ hsound.identity he
    have hpos := ((hb.typed_chain h).arrayLengths_pos hid fun l hl v hv =>
      (htypes l (mem_of_mem_chain hl) v hv).populated).2
    have hprod : 1 ≤ n := List.prod_pos hpos
    rw [hsize]
    refine ⟨hprod, ?_, arraySize_eq_prod_iff hprod⟩
    rw [arraySize, elemCount_eq]

def gridLinks (n m : Int) : Array Link :=
  let row : Ty := .array (.scalar .float) m
  let p : Ty := .struct "P" [("x", row)]
  let index : Operand := .value ⟨0, 0, 1, 32⟩
  -- `a`, `a[i]`, `a[i].x` and `a[i].x[i]`
  #[varLink ⟨0, 1, "a", .array p n, .local, none⟩, ⟨.array index, some 0, p, .local⟩,
    ⟨.struct 0, some 1, row, .local⟩, ⟨.array index, some 2, .scalar .float, .local⟩]

theorem gridLinks_built (n m : Int) : Built (gridLinks n m) := by
  have h0 := Built.empty.var
    ⟨0, 1, "a", .array (.struct "P" [("x", .array (.scalar .float) m)]) n, .local, none⟩
  have h1 := @Built.array _ (some 0) (.value ⟨0, 0, 1, 32⟩) _ h0 rfl
  have h2 := @Built.struct _ (some 1) 0 _ h1 rfl
  exact @Built.array _ (some 2) (.value ⟨0, 0, 1, 32⟩) _ h2 rfl

/-- The lengths 2 ^ 32 and 2 ^ 31 - 1 still have the product 2 ^ 63 - 2 ^ 32 for a size. -/
theorem grid_size :
    let b : Body := { links := gridLinks 4294967296 2147483647 }
    Built b.links ∧ (∀ l ∈ b.links, ∀ v, l.kind = .var v → v.type.Written) ∧
    ∃ reg, (some 3, .ok reg) ∈ (lookups .empty b [some 0, some 3]).1 ∧
      reg.arrayElems = 9223372032559808512 := by
  intro b
  have hb : Built b.links := gridLinks_built _ _
  have htypes : ∀ l ∈ b.links, ∀ v, l.kind = .var v → v.type.Written := by
    have hfield : Ty.parse [] "float[2147483647]" = .ok (.array (.scalar .float) 2147483647) :=
      ok_of_toOption (by decide +kernel)
    have hvar : Ty.parse [("P", .struct "P" [("x", .array (.scalar .float) 2147483647)])]
        "P[4294967296]" =
          .ok (.array (.struct "P" [("x", .array (.scalar .float) 2147483647)]) 4294967296) :=
      ok_of_toOption (by decide +kernel)
    have hs := Ty.Declarations.nil.cons "P" [("x", .array (.scalar .float) 2147483647)]
      (by simpa using ⟨_, hfield⟩)
    intro l hl v hv
    simp only [b, gridLinks, List.mem_toArray, List.mem_cons, List.not_mem_nil, or_false] at hl
    rcases hl with rfl | rfl | rfl | rfl <;> cases hv
    exact ⟨_, _, hs, hvar⟩
  obtain ⟨hsucceeds, hsize⟩ := lookups_size b hb htypes [some 0, some 3]
  obtain ⟨reg, hreg⟩ := hsucceeds (some 3) (by decide) _ rfl rfl rfl
  have hprod : (arrayLengths (chain b.links (some 3))).prod = 9223372032559808512 := by
    decide +kernel
  refine ⟨hb, htypes, reg, hreg, ?_⟩
  have hexact := (hsize (some 3) reg hreg).2.2.mpr (by rw [hprod]; decide)
  rw [hexact, hprod]
  rfl

/-- The lengths 2 ^ 32 and 2 ^ 32 have the product 2 ^ 64, and the register has a single slot. -/
theorem grid_single_slot :
    let b : Body := { links := gridLinks 4294967296 4294967296 }
    Built b.links ∧
    (Ty.parse [] "float[4294967296]").toOption = some (.array (.scalar .float) 4294967296) ∧
    (Ty.parse [("P", .struct "P" [("x", .array (.scalar .float) 4294967296)])]
      "P[4294967296]").toOption =
        some (.array (.struct "P" [("x", .array (.scalar .float) 4294967296)]) 4294967296) ∧
    (arrayLengths (chain b.links (some 3))).prod = 2 ^ 64 ∧
    (lookups .empty b [some 3]).1.map (fun a => a.2.toOption.map (·.arrayElems)) = [some 0] := by
  refine ⟨gridLinks_built _ _, ?_, ?_, ?_, ?_⟩ <;> decide +kernel

end RegisterTable

end ShaderIR
