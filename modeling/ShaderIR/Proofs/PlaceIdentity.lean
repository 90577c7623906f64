import ShaderIR.Proofs.AcyclicArena
import ShaderIR.Proofs.Identity

/-!
# Comparing places and hashing them

The hash of a chain skips its array elements and ends with the number of its variable; the
comparison goes through two chains link by link and ends at the variables themselves. Both stop at a
variable or a cast, whatever the arena holds above it. Places that compare equal have one hash, and
on the chains that have a hash the comparison is an equivalence. For chains that the link
constructors made and that end at a vector or scalar, it compares variables and fields.
-/

set_option autoImplicit false

namespace ShaderIR

open Lowering

/-- The walk from a handle comes to the variable over array elements and the given fields, and over
no cast. -/
inductive Identifies (links : Array Link) : Handle → Variable → List Nat → Prop
  | var {h : Nat} {link : Link} {v : Variable} (hl : links[h]? = some link)
      (hk : link.kind = .var v) : Identifies links (some h) v []
  | element {h : Nat} {link : Link} {index : Operand} {v : Variable} {fs : List Nat}
      (hl : links[h]? = some link) (hk : link.kind = .array index)
      (hr : Identifies links link.parent v fs) : Identifies links (some h) v fs
  | field {h : Nat} {link : Link} {f : Nat} {v : Variable} {fs : List Nat}
      (hl : links[h]? = some link) (hk : link.kind = .struct f)
      (hr : Identifies links link.parent v fs) : Identifies links (some h) v (f :: fs)

inductive Constructed (links : Array Link) : Handle → Prop
  | nothing : Constructed links none
  | var {h : Nat} {v : Variable} (hl : links[h]? = some (varLink v)) : Constructed links (some h)
  | array {h : Nat} (p : Nat) (index : Operand) {link : Link} (hl : links[h]? = some link)
      (hc : arrayLink links (some p) index = .ok link) (hp : Constructed links (some p)) :
      Constructed links (some h)
  | struct {h : Nat} (p : Nat) (field : Int) {link : Link} (hl : links[h]? = some link)
      (hc : structLink links (some p) field = .ok link) (hp : Constructed links (some p)) :
      Constructed links (some h)
  | cast {h : Nat} {parent : Handle} {type : Ty} {mode : Mode}
      (hl : links[h]? = some (castLink parent type mode)) (hp : Constructed links parent) :
      Constructed links (some h)

def Hashed (links : Array Link) (h : Handle) : Prop := ∃ n, hashChain (chain links h) = .ok n

def SamePlaces (links : Array Link) (a b : Handle) : Prop :=
  samePlace (chain links a) (chain links b) = .ok true

section

variable {links : Array Link} {h : Handle} {ls : List Link}

theorem Walks.head? (hw : Walks links h ls) : ls.head? = h.bind (links[·]?) := by
  cases hw with
  | done hh => exact hh.symm
  | step hl _ => exact hl.symm

theorem Walks.exists_rest {n : Nat} {link : Link} (hw : Walks links (some n) ls)
    (hl : links[n]? = some link) : ∃ rest, ls = link :: rest ∧ Walks links link.parent rest := by
  cases hw with
  | done hh => simp [hl] at hh
  | @step _ link' rest hl' hw =>
    obtain rfl : link = link' := Option.some.inj (hl.symm.trans hl')
    exact ⟨rest, rfl, hw⟩

/-- What a walk identifies is the identity of the links it meets. -/
theorem Walks.identifies_iff (hw : Walks links h ls) {v : Variable} {fs : List Nat} :
    Identifies links h v fs ↔ identity? ls = some (v, fs) := by
  induction hw generalizing fs with
  | done hh =>
    refine ⟨fun hr => ?_, fun hid => by cases hid⟩
    cases hr <;> simp_all
  | @step h link rest hl hw ih =>
    cases hk : link.kind with
    | var w =>
      simp only [identity?, hk, Option.some.injEq, Prod.mk.injEq]
      constructor
      · intro hr
        cases hr <;> simp_all
      · rintro ⟨rfl, rfl⟩
        exact .var hl hk
    | array index =>
      simp only [identity?, hk]
      rw [← ih]
      constructor
      · intro hr
        cases hr <;> simp_all
      · exact .element hl hk
    | struct f =>
      simp only [identity?, hk, Option.map_eq_some_iff, Prod.mk.injEq]
      constructor
      · intro hr
        cases hr with
        | var hl' hk' => simp_all
        | element hl' hk' => simp_all
        | @field _ link' g _ gs hl' hk' hr =>
          obtain rfl : link = link' := Option.some.inj (hl.symm.trans hl')
          obtain rfl : f = g := LinkKind.struct.inj (hk.symm.trans hk')
          exact ⟨(v, gs), ih.mp hr, rfl, rfl⟩
      · rintro ⟨⟨w, gs⟩, hid, rfl, rfl⟩
        exact .field hl hk (ih.mpr hid)
    | cast =>
      simp only [identity?, hk]
      refine ⟨fun hr => ?_, fun hid => by cases hid⟩
      cases hr <;> simp_all

theorem Constructed.typed (hc : Constructed links h) (hw : Walks links h ls) : Typed ls := by
  induction hc generalizing ls with
  | nothing =>
    cases hw
    trivial
  | var hl =>
    obtain ⟨rest, rfl, hrest⟩ := hw.exists_rest hl
    cases hrest
    exact ⟨⟨rfl, rfl, rfl⟩, trivial⟩
  | array p index hl hc hp ih =>
    obtain ⟨rest, rfl, hrest⟩ := hw.exists_rest hl
    refine (arrayLink_fits hc).typed hrest.head? (ih ?_)
    obtain ⟨n, up, hn, -, -, rfl⟩ := arrayLink_ok hc
    exact hrest
  | struct p field hl hc hp ih =>
    obtain ⟨rest, rfl, hrest⟩ := hw.exists_rest hl
    refine (structLink_fits hc).typed hrest.head? (ih ?_)
    obtain ⟨n, up, hn, -, -, rfl⟩ := structLink_ok hc
    exact hrest
  | cast hl hp ih =>
    obtain ⟨rest, rfl, hrest⟩ := hw.exists_rest hl
    exact ⟨trivial, ih hrest⟩

end

/-- Chains that compare equal have an identity, and the same one. -/
theorem identity?_of_samePlace {as bs : List Link} (h : samePlace as bs = .ok true) :
    (identity? as).isSome ∧ identity? as = identity? bs := by
  induction as generalizing bs with
  | nil => cases bs <;> simp [samePlace] at h
  | cons a as ih =>
    cases bs with
    | nil => simp [samePlace] at h
    | cons b bs =>
      cases ha : a.kind <;> cases hb : b.kind <;>
        simp only [samePlace, ha, hb, reduceCtorEq, Except.ok.injEq, Bool.false_eq_true] at h
      case var.var v w =>
        obtain rfl : v = w := of_decide_eq_true h
        simp [identity?, ha, hb]
      case array.array i j =>
        obtain ⟨hsome, heq⟩ := ih h
        simp [identity?, ha, hb, ← heq, hsome]
      case struct.struct f g =>
        split at h
        · rename_i hfg
          obtain ⟨hsome, heq⟩ := ih h
          simp [identity?, ha, hb, ← heq, hsome, hfg]
        · cases h

def approach : List Link → List Turn
  | [] => []
  | link :: rest =>
    match link.kind with
    | .array _ | .struct _ => link.kind.turn :: approach rest
    | .var _ | .cast => [link.kind.turn]

/-- On chains that have an identity the comparison never fails, and it compares the turns up to the
variable. -/
theorem samePlace_eq_approach {as bs : List Link} (ha : (identity? as).isSome)
    (hb : (identity? bs).isSome) :
    samePlace as bs = .ok (decide (approach as = approach bs)) := by
  induction as generalizing bs with
  | nil => simp [identity?] at ha
  | cons a as ih =>
    cases bs with
    | nil => simp [identity?] at hb
    | cons b bs =>
      cases hka : a.kind <;> cases hkb : b.kind <;>
        simp_all [samePlace, identity?, approach]
      split <;> simp_all

theorem hashed_iff {links : Array Link} {h : Handle} :
    Hashed links h ↔ (identity? (chain links h)).isSome := by
  constructor
  · rintro ⟨n, hn⟩
    exact identity?_of_hashFrom hn
  · intro hs
    obtain ⟨⟨v, fs⟩, hid⟩ := Option.isSome_iff_exists.mp hs
    exact ⟨_, hashFrom_of_identity hid hashStart⟩

section

variable {links : Array Link} {a b : Handle}

theorem SamePlaces.hash_eq (h : SamePlaces links a b) :
    ∃ n, hashChain (chain links a) = .ok n ∧ hashChain (chain links b) = .ok n := by
  obtain ⟨hsome, heq⟩ := identity?_of_samePlace h
  obtain ⟨⟨v, fs⟩, hid⟩ := Option.isSome_iff_exists.mp hsome
  exact ⟨_, hashFrom_of_identity hid hashStart, hashFrom_of_identity (heq ▸ hid) hashStart⟩

theorem Hashed.samePlace_eq (ha : Hashed links a) (hb : Hashed links b) :
    samePlace (chain links a) (chain links b) =
      .ok (decide (approach (chain links a) = approach (chain links b))) :=
  samePlace_eq_approach (hashed_iff.mp ha) (hashed_iff.mp hb)

theorem Hashed.samePlaces_iff (ha : Hashed links a) (hb : Hashed links b) :
    SamePlaces links a b ↔ approach (chain links a) = approach (chain links b) := by
  rw [SamePlaces, ha.samePlace_eq hb]
  simp

theorem samePlaces_equivalence (links : Array Link) :
    Equivalence fun a b : { h // Hashed links h } => SamePlaces links a b where
  refl a := (a.2.samePlaces_iff a.2).mpr rfl
  symm {a b} h := (b.2.samePlaces_iff a.2).mpr ((a.2.samePlaces_iff b.2).mp h).symm
  trans {a b c} h h' := (a.2.samePlaces_iff c.2).mpr
    (((a.2.samePlaces_iff b.2).mp h).trans ((b.2.samePlaces_iff c.2).mp h'))

/-- Constructed chains to a vector or scalar compare equal if they start at one variable and select
the same fields: the types decide where array elements stand between these. -/
theorem Acyclic.samePlaces_iff (hacyclic : Acyclic links) (ca : Constructed links a)
    (cb : Constructed links b) (la : (derefType links a).isVectorOrScalar = true)
    (lb : (derefType links b).isVectorOrScalar = true) {v w : Variable} {fs gs : List Nat}
    (ha : Identifies links a v fs) (hb : Identifies links b w gs) :
    SamePlaces links a b ↔ v = w ∧ fs = gs := by
  have hwa := hacyclic.walks a
  have hwb := hacyclic.walks b
  have hida := hwa.identifies_iff.mp ha
  have hidb := hwb.identifies_iff.mp hb
  constructor
  · intro h
    have heq := (identity?_of_samePlace h).2
    rw [hida, hidb, Option.some.injEq, Prod.mk.injEq] at heq
    exact heq
  · rintro ⟨rfl, rfl⟩
    have ta := ca.typed hwa
    have tb := cb.typed hwb
    have sa : (identity? (chain links a)).isSome := by rw [hida]; rfl
    have sb : (identity? (chain links b)).isSome := by rw [hidb]; rfl
    have hturns := turns_eq_of_identity ta tb (by rwa [headType_chain]) (by rwa [headType_chain])
      sa (hida.trans hidb.symm)
    rw [SamePlaces, ShaderIR.samePlace_eq ta tb sa sb, decide_eq_true hturns]

end

/-- In an arena without cycles, chains that compare equal have the same hash; a chain has a hash
exactly if it comes to a variable over no cast; among the chains that have a hash the comparison
does not fail and is an equivalence; and constructed chains to a vector or scalar compare equal
exactly if they have the same variable and the same fields. -/
theorem comparison_fits_hash {links : Array Link} (ha : Acyclic links) :
    (∀ a b, SamePlaces links a b →
      ∃ n, hashChain (chain links a) = .ok n ∧ hashChain (chain links b) = .ok n) ∧
    (∀ a, Hashed links a ↔ ∃ v fs, Identifies links a v fs) ∧
    (∀ a b, Hashed links a → Hashed links b →
      ∃ r, samePlace (chain links a) (chain links b) = .ok r) ∧
    (Equivalence fun a b : { h // Hashed links h } => SamePlaces links a b) ∧
    ∀ a b, Constructed links a → Constructed links b →
      (derefType links a).isVectorOrScalar = true → (derefType links b).isVectorOrScalar = true →
      ∀ v fs w gs, Identifies links a v fs → Identifies links b w gs →
        (SamePlaces links a b ↔ v = w ∧ fs = gs) := by
  refine ⟨fun a b h => h.hash_eq, fun a => ?_, fun a b ha hb => ⟨_, ha.samePlace_eq hb⟩,
    samePlaces_equivalence links,
    fun a b ca cb la lb v fs w gs hv hw => ha.samePlaces_iff ca cb la lb hv hw⟩
  rw [hashed_iff, Option.isSome_iff_exists, Prod.exists]
  simp only [(ha.walks a).identifies_iff]

def twins : Array Link :=
  let point : Ty := .struct "Point" [("x", .scalar .float), ("y", .scalar .float)]
  let a : Variable := ⟨0, 7, "a", .array point 4, .local, none⟩
  let b : Variable := ⟨1, 7, "b", .array point 4, .local, none⟩
  -- the first chain stands in front of its parents; both variables have the number 7
  #[⟨.struct 1, some 1, .scalar .float, .local⟩, ⟨.array (.slot 0), some 2, point, .local⟩,
    varLink a, ⟨.array .missing, some 2, point, .local⟩,
    ⟨.struct 1, some 3, .scalar .float, .local⟩, varLink b,
    ⟨.array (.slot 0), some 5, point, .local⟩, ⟨.struct 1, some 6, .scalar .float, .local⟩,
    castLink (some 7) (.scalar .float) .local]

/-- Elements of one variable compare equal whatever their index. Those of the other variable have
the same hash and are told apart. -/
theorem twins_compared : Acyclic twins ∧ SamePlaces twins (some 0) (some 4) ∧
    ¬ SamePlaces twins (some 0) (some 7) ∧
    hashChain (chain twins (some 0)) = hashChain (chain twins (some 7)) ∧
    Hashed twins (some 7) ∧ ¬ Hashed twins (some 8) := by
  have hacyclic : Acyclic twins := by
    refine acyclic_of_rank (fun h => if h < 2 then 4 - h else h) fun h p hp => ?_
    obtain ⟨link, hl, -⟩ := Option.bind_eq_some_iff.mp hp
    have hlt : h < 9 := (Array.getElem?_eq_some_iff.mp hl).1
    have hall : ∀ h < 9, ∀ p ∈ twins[h]?.bind Link.parent,
        (if p < 2 then 4 - p else p) < if h < 2 then 4 - h else h := by decide
    exact hall h hlt p hp
  obtain ⟨-, hhashed, -, -, hsame⟩ := comparison_fits_hash hacyclic
  have c0 : Constructed twins (some 0) :=
    .struct 1 1 rfl rfl (.array 2 (.slot 0) rfl rfl (.var rfl))
  have c4 : Constructed twins (some 4) :=
    .struct 3 1 rfl rfl (.array 2 .missing rfl rfl (.var rfl))
  have c7 : Constructed twins (some 7) :=
    .struct 6 1 rfl rfl (.array 5 (.slot 0) rfl rfl (.var rfl))
  have r0 : Identifies twins (some 0) _ _ := .field rfl rfl (.element rfl rfl (.var rfl rfl))
  have r4 : Identifies twins (some 4) _ _ := .field rfl rfl (.element rfl rfl (.var rfl rfl))
  have r7 : Identifies twins (some 7) _ _ := .field rfl rfl (.element rfl rfl (.var rfl rfl))
  refine ⟨hacyclic, (hsame _ _ c0 c4 rfl rfl _ _ _ _ r0 r4).mpr ⟨rfl, rfl⟩, fun h => ?_, by rfl,
    (hhashed _).mpr ⟨_, _, r7⟩, fun h => ?_⟩
  · have hvar := ((hsame _ _ c0 c7 rfl rfl _ _ _ _ r0 r7).mp h).1
    exact absurd (congrArg Variable.serial hvar) (by decide)
  · obtain ⟨v, fs, hr⟩ := (hhashed _).mp h
    cases hr with
    | var hl hk => cases hl; cases hk
    | element hl hk => cases hl; cases hk
    | field hl hk => cases hl; cases hk

end ShaderIR
