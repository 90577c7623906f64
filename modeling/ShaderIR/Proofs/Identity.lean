import ShaderIR.Lowering.RegisterTable
import ShaderIR.Proofs.Arena

/-!
# The identity of a chain

The table looks entries up by a hash of the fields and the variable, but compares chains link by
link. Both agree with identity. A chain of an arena follows its variable's type from the root, so
its fields decide every turn it takes until the type is a vector or scalar. Chains of equal identity
that reach such a type are therefore equal link by link, and everything the table stores about one
of them holds of the other.
-/

set_option autoImplicit false

namespace ShaderIR

open Lowering

inductive Turn where
  | var (v : Variable)
  | element
  | field (f : Nat)
  | cast
  deriving DecidableEq

def LinkKind.turn : LinkKind → Turn
  | var v => .var v
  | array _ => .element
  | struct f => .field f
  | cast => .cast

@[simp] theorem LinkKind.turn_var (v : Variable) : (LinkKind.var v).turn = .var v := rfl

@[simp] theorem LinkKind.turn_array (index : Operand) :
    (LinkKind.array index).turn = .element := rfl

@[simp] theorem LinkKind.turn_struct (f : Nat) : (LinkKind.struct f).turn = .field f := rfl

@[simp] theorem LinkKind.turn_cast : LinkKind.cast.turn = .cast := rfl

def Link.outline (l : Link) : Turn × Ty := (l.kind.turn, l.type)

def turns (links : List Link) : List Turn := links.map (·.kind.turn)

@[simp] theorem turns_cons (link : Link) (rest : List Link) :
    turns (link :: rest) = link.kind.turn :: turns rest := rfl

@[simp] theorem turns_nil : turns [] = [] := rfl

/-- The root variable of a chain with its field numbers from the end to the root. A chain through a
cast, or without a variable, has no identity. -/
def identity? : List Link → Option (Variable × List Nat)
  | [] => none
  | link :: rest =>
    match link.kind with
    | .var v => some (v, [])
    | .array _ => identity? rest
    | .struct f => (identity? rest).map fun (v, fs) => (v, f :: fs)
    | .cast => none

theorem identity?_congr {as bs : List Link} (h : turns as = turns bs) :
    identity? as = identity? bs := by
  induction as generalizing bs with
  | nil =>
    cases bs with
    | nil => rfl
    | cons b bs => simp at h
  | cons a as ih =>
    cases bs with
    | nil => simp at h
    | cons b bs =>
      simp only [turns_cons, List.cons.injEq] at h
      have hrest := ih h.2
      cases ha : a.kind <;> cases hb : b.kind <;> simp_all [identity?]

theorem hashFrom_of_identity {links : List Link} {v : Variable} {fs : List Nat}
    (h : identity? links = some (v, fs)) (start : UInt32) :
    hashFrom start links = .ok (hashWord
      (fs.foldl (fun h f => hashWord h (UInt64.ofNat f)) start) (UInt64.ofInt v.id)) := by
  induction links generalizing start fs with
  | nil => simp [identity?] at h
  | cons link rest ih =>
    cases hk : link.kind with
    | var w =>
      simp only [identity?, hk, Option.some.injEq, Prod.mk.injEq] at h
      obtain ⟨rfl, rfl⟩ := h
      simp [hashFrom, hk]
    | array index =>
      simp only [identity?, hk] at h
      simp [hashFrom, hk, ih h]
    | struct f =>
      simp only [identity?, hk, Option.map_eq_some_iff, Prod.mk.injEq] at h
      obtain ⟨⟨w, gs⟩, hrest, rfl, rfl⟩ := h
      simp [hashFrom, hk, ih hrest]
    | cast => simp [identity?, hk] at h

theorem identity?_of_hashFrom {links : List Link} {start hash : UInt32}
    (h : hashFrom start links = .ok hash) : (identity? links).isSome := by
  induction links generalizing start with
  | nil => simp [hashFrom] at h
  | cons link rest ih =>
    cases hk : link.kind with
    | var w => simp [identity?, hk]
    | array index =>
      simp only [hashFrom, hk] at h
      simpa [identity?, hk] using ih h
    | struct f =>
      simp only [hashFrom, hk] at h
      simpa [identity?, hk] using ih h
    | cast => simp [hashFrom, hk] at h

/-- On chains that have an identity the comparison never fails and compares the turns. -/
theorem samePlace_eq {as bs : List Link} (ta : Typed as) (tb : Typed bs)
    (ha : (identity? as).isSome) (hb : (identity? bs).isSome) :
    samePlace as bs = .ok (decide (turns as = turns bs)) := by
  induction as generalizing bs with
  | nil => simp [identity?] at ha
  | cons a as ih =>
    cases bs with
    | nil => simp [identity?] at hb
    | cons b bs =>
      have step : (identity? as).isSome → (identity? bs).isSome →
          samePlace as bs = .ok (decide (turns as = turns bs)) := ih ta.2 tb.2
      have hta := ta.1
      have htb := tb.1
      cases hka : a.kind <;> cases hkb : b.kind <;>
        simp_all [samePlace, identity?]
      split <;> simp_all

/-- The turns below a place of the given type, from there to a vector or scalar, when the given
fields are selected in this order. -/
def route : Ty → List Nat → List Turn
  | .array t _, fs => .element :: route t fs
  | .struct name gs, f :: fs => .field f :: route (Ty.fieldType (.struct name gs) f) fs
  | _, _ => []
termination_by t fs => (fs.length, t)

theorem route_element {t : Ty} (h : t.elementType ≠ .absent) (fs : List Nat) :
    route t fs = .element :: route t.elementType fs := by
  cases t <;> simp_all [Ty.elementType, route]

theorem route_field {t : Ty} {f : Nat} (h : t.fieldType f ≠ .absent) (fs : List Nat) :
    route t (f :: fs) = .field f :: route (t.fieldType f) fs := by
  cases t <;> simp_all [Ty.fieldType, route]

theorem route_leaf {t : Ty} (h : t.isVectorOrScalar = true) : route t [] = [] := by
  cases t <;> simp_all [Ty.isVectorOrScalar, route]

theorem turns_route {links : List Link} {v : Variable} {fs : List Nat} (ht : Typed links)
    (h : identity? links = some (v, fs)) (more : List Nat) :
    (turns links).reverse ++ route (headType links) more =
      .var v :: route v.type (fs.reverse ++ more) := by
  induction links generalizing fs more with
  | nil => simp [identity?] at h
  | cons link rest ih =>
    obtain ⟨hlink, hrest⟩ := ht
    cases hk : link.kind with
    | var w =>
      simp only [identity?, hk, Option.some.injEq, Prod.mk.injEq] at h
      simp only [hk] at hlink
      obtain ⟨rfl, rfl⟩ := h
      simp [hk, hlink]
    | array index =>
      simp only [identity?, hk] at h
      simp only [hk] at hlink
      obtain ⟨htype, hne, -⟩ := hlink
      rw [← ih hrest h more, route_element (t := headType rest) (by rwa [← htype])]
      simp [hk, htype]
    | struct f =>
      simp only [identity?, hk, Option.map_eq_some_iff, Prod.mk.injEq] at h
      simp only [hk] at hlink
      obtain ⟨⟨w, gs⟩, hid, rfl, rfl⟩ := h
      obtain ⟨htype, hne, -⟩ := hlink
      have hstep := ih hrest hid (f :: more)
      rw [route_field (by rwa [← htype])] at hstep
      simpa [hk, htype] using hstep
    | cast => simp [identity?, hk] at h

/-- Array depth needs no comparison: chains of one identity that end at a vector or scalar take the
same turns. -/
theorem turns_eq_of_identity {as bs : List Link} (ta : Typed as) (tb : Typed bs)
    (la : (headType as).isVectorOrScalar = true) (lb : (headType bs).isVectorOrScalar = true)
    (ha : (identity? as).isSome) (h : identity? as = identity? bs) : turns as = turns bs := by
  obtain ⟨⟨v, fs⟩, hid⟩ := Option.isSome_iff_exists.mp ha
  have h1 := turns_route ta hid []
  have h2 := turns_route tb (h ▸ hid) []
  rw [route_leaf la] at h1
  rw [route_leaf lb] at h2
  simpa using h1.trans h2.symm

theorem outline_eq_of_turns {as bs : List Link} (ta : Typed as) (tb : Typed bs)
    (ha : (identity? as).isSome) (h : turns as = turns bs) :
    as.map Link.outline = bs.map Link.outline := by
  induction as generalizing bs with
  | nil => simp [identity?] at ha
  | cons a as ih =>
    cases bs with
    | nil => simp at h
    | cons b bs =>
      simp only [turns_cons, List.cons.injEq] at h
      obtain ⟨hturn, hrest⟩ := h
      have step : (identity? as).isSome → as.map Link.outline = bs.map Link.outline :=
        fun hs => ih ta.2 tb.2 hs hrest
      have head : as.map Link.outline = bs.map Link.outline → headType as = headType bs := by
        intro he
        cases as <;> cases bs <;> simp_all [Link.outline]
      have hta := ta.1
      have htb := tb.1
      cases hka : a.kind <;> cases hkb : b.kind <;>
        simp_all [identity?, Link.outline]

theorem turns_congr {as bs : List Link} (h : as.map Link.outline = bs.map Link.outline) :
    turns as = turns bs := by
  simpa [turns, Link.outline, Function.comp_def] using congrArg (List.map Prod.fst) h

theorem headType_congr {as bs : List Link} (h : as.map Link.outline = bs.map Link.outline) :
    headType as = headType bs := by
  cases as <;> cases bs <;> simp_all [Link.outline]

theorem elemCount_congr {as bs : List Link} (h : as.map Link.outline = bs.map Link.outline) :
    RegisterTable.elemCount as = RegisterTable.elemCount bs := by
  induction as generalizing bs with
  | nil => cases bs <;> simp_all
  | cons a as ih =>
    cases bs with
    | nil => simp at h
    | cons b bs =>
      simp only [List.map_cons, List.cons.injEq] at h
      have hhead := headType_congr h.2
      have hrest := ih h.2
      have hturn : a.kind.turn = b.kind.turn := congrArg Prod.fst h.1
      cases ha : a.kind <;> cases hb : b.kind <;>
        simp_all [RegisterTable.elemCount]

theorem arraySize_congr {as bs : List Link} (h : as.map Link.outline = bs.map Link.outline) :
    RegisterTable.arraySize as = RegisterTable.arraySize bs := by
  simp [RegisterTable.arraySize, elemCount_congr h]

end ShaderIR
