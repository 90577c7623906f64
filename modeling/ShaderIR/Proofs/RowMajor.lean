import Mathlib.Tactic.Linarith
import ShaderIR.Lowering.RegisterTable
import ShaderIR.Proofs.Identity
import ShaderIR.Proofs.Places

/-!
# Places in row-major order

The vectors and scalars that a chain leads to for all its indices are numbered in row-major order.
Along a chain whose indices are in bounds the number is below the product of the array lengths, and
no two places that take the same turns have the same number.
-/

set_option autoImplicit false

namespace ShaderIR

open Text

def Sel.turn : Sel → Turn
  | .field f => .field f
  | .index _ => .element

namespace Ty

theorem parts_congr (t : Ty) {p q : List Sel} (h : p.map Sel.turn = q.map Sel.turn) :
    t.parts p = t.parts q := by
  induction p generalizing q with
  | nil =>
    obtain rfl : q = [] := by simpa using h.symm
    rfl
  | cons x p ih =>
    cases q with
    | nil => simp at h
    | cons y q =>
      simp only [List.map_cons, List.cons.injEq] at h
      have hpart : ∀ u : Ty, u.part x = u.part y := by
        intro u
        cases x <;> cases y <;> simp_all [Sel.turn]
        cases u <;> rfl
      simp [parts, ih h.2, hpart]

def number (t : Ty) : List Sel → Nat
  | [] => 0
  | .field _ :: path => t.number path
  -- the last step comes first, so the innermost index is the low digit
  | .index i :: path => i.toNat + ((t.parts path).map (·.length.toNat)).getD 0 * t.number path

theorem index_lt_of_reach {t u : Ty} {i : UInt32} {path : List Sel}
    (h : t.reach (.index i :: path) = some u) :
    ∃ w, t.reach path = some w ∧ i.toNat < w.length.toNat := by
  obtain ⟨w, hw, hin⟩ := Option.bind_eq_some_iff.mp h
  refine ⟨w, hw, ?_⟩
  cases w with
  | array elem n =>
    simp only [inside, Option.ite_none_right_eq_some] at hin
    simp only [length]
    omega
  | _ => simp [inside] at hin

theorem reach_isSome_tail {t : Ty} {x : Sel} {path : List Sel}
    (h : (t.reach (x :: path)).isSome) : (t.reach path).isSome := by
  cases hp : t.reach path with
  | none => simp [reach, hp] at h
  | some u => rfl

/-- Digits below their base are determined by their number. -/
theorem eq_of_digits {n i j a c : Nat} (hi : i < n) (hj : j < n) (h : i + n * a = j + n * c) :
    i = j ∧ a = c := by
  have hn : 0 < n := by omega
  have hdiv := congrArg (· / n) h
  have hmod := congrArg (· % n) h
  simp only [Nat.add_mul_div_left _ _ hn, Nat.add_mul_mod_self_left, Nat.div_eq_of_lt hi,
    Nat.div_eq_of_lt hj, Nat.mod_eq_of_lt hi, Nat.mod_eq_of_lt hj, Nat.zero_add] at hdiv hmod
  exact ⟨hmod, hdiv⟩

theorem number_inj {t : Ty} {p q : List Sel} (hp : (t.reach p).isSome) (hq : (t.reach q).isSome)
    (ht : p.map Sel.turn = q.map Sel.turn) (hn : t.number p = t.number q) : p = q := by
  induction p generalizing q with
  | nil => simpa using ht.symm
  | cons x p ih =>
    cases q with
    | nil => simp at ht
    | cons y q =>
      simp only [List.map_cons, List.cons.injEq] at ht
      have hp' := reach_isSome_tail hp
      have hq' := reach_isSome_tail hq
      cases x with
      | field f =>
        cases y with
        | field g => rw [ih hp' hq' ht.2 hn, Turn.field.inj ht.1]
        | index j => cases ht.1
      | index i =>
        cases y with
        | field g => cases ht.1
        | index j =>
          obtain ⟨u, hu⟩ := Option.isSome_iff_exists.mp hp
          obtain ⟨w, hw⟩ := Option.isSome_iff_exists.mp hq
          obtain ⟨u', hu', hi⟩ := index_lt_of_reach hu
          obtain ⟨w', hw', hj⟩ := index_lt_of_reach hw
          have hlen := parts_congr t ht.2
          rw [parts_of_reach hu', parts_of_reach hw', Option.some.injEq] at hlen
          subst hlen
          simp only [number, parts_of_reach hu', parts_of_reach hw', Option.map_some,
            Option.getD_some] at hn
          obtain ⟨hij, hrest⟩ := eq_of_digits hi hj hn
          rw [ih hp' hq' ht.2 hrest, UInt32.toNat_inj.mp hij]

end Ty

namespace Place

def turns (p : Place) : List Turn := p.path.map Sel.turn ++ [.var p.var]

def number (p : Place) : Nat := p.var.type.number p.path

def Exists (p : Place) : Prop := (p.var.type.reach p.path).isSome

instance (p : Place) : Decidable p.Exists :=
  inferInstanceAs (Decidable ((p.var.type.reach p.path).isSome = true))

theorem eq_of_number {p q : Place} (hp : p.Exists) (hq : q.Exists) (ht : p.turns = q.turns)
    (hn : p.number = q.number) : p = q := by
  obtain ⟨v, path⟩ := p
  obtain ⟨w, path'⟩ := q
  obtain ⟨hpath, hvar⟩ := List.append_inj' ht rfl
  obtain rfl : v = w := by simpa using hvar
  exact congrArg (Place.mk v) (Ty.number_inj hp hq hpath hn)

end Place

def HopKind.turn : HopKind → Turn
  | .var v => .var v
  | .array _ => .element
  | .struct f => .field f
  | .cast => .cast

def hopTurns (hops : List Hop) : List Turn := hops.map (·.kind.turn)

theorem hopTurns_hop (b : Body) (links : List Link) : hopTurns (links.map b.hop) = turns links := by
  simp only [hopTurns, turns, List.map_map]
  refine List.map_congr_left fun l _ => ?_
  cases hk : l.kind <;> simp [Body.hop, hk, HopKind.turn]

theorem hopTurns_map (f : Value → Value) (hops : List Hop) :
    hopTurns (hops.map (Hop.map f)) = hopTurns hops := by
  simp only [hopTurns, List.map_map]
  refine List.map_congr_left fun h _ => ?_
  cases hk : h.kind <;> simp [Hop.map, hk, HopKind.turn]

def span : List Hop → Int
  | [] => 1
  | hop :: rest =>
    match hop.kind with
    | .array _ => (hopsType rest).length * span rest
    | _ => span rest

namespace State

variable {ε : Type}

def InBounds (s : State ε) : List Hop → Prop
  | [] => True
  | hop :: rest =>
    (match hop.kind with
      | .array index => ((indexOf (s.read index)).toNat : Int) < (hopsType rest).length
      | _ => True) ∧ s.InBounds rest

instance InBounds.decidable (s : State ε) : (hops : List Hop) → Decidable (s.InBounds hops)
  | [] => isTrue trivial
  | hop :: rest =>
    have := InBounds.decidable s rest
    have : Decidable (match hop.kind with
      | .array index => ((indexOf (s.read index)).toNat : Int) < (hopsType rest).length
      | _ => True) := by
      split <;> infer_instance
    inferInstanceAs (Decidable (_ ∧ _))

def slotOf (s : State ε) : List Hop → Nat
  | [] => 0
  | hop :: rest =>
    match hop.kind with
    | .array index => (indexOf (s.read index)).toNat + (hopsType rest).length.toNat * s.slotOf rest
    | _ => s.slotOf rest

variable {s : State ε} {hops : List Hop}

theorem InBounds.span_pos (h : s.InBounds hops) : 1 ≤ span hops := by
  induction hops with
  | nil => simp [span]
  | cons hop rest ih =>
    obtain ⟨hhop, hrest⟩ := h
    have hpos := ih hrest
    cases hk : hop.kind with
    | array index =>
      simp only [hk] at hhop
      simp only [span, hk]
      nlinarith
    | _ => simpa [span, hk] using hpos

theorem InBounds.slotOf_lt (h : s.InBounds hops) : (s.slotOf hops : Int) < span hops := by
  induction hops with
  | nil => simp [span, slotOf]
  | cons hop rest ih =>
    obtain ⟨hhop, hrest⟩ := h
    have hlt := ih hrest
    cases hk : hop.kind with
    | array index =>
      simp only [hk] at hhop
      simp only [span, slotOf, hk]
      generalize hn : (hopsType rest).length = n at hhop
      generalize (indexOf (s.read index)).toNat = i at hhop
      obtain ⟨k, rfl⟩ := Int.eq_ofNat_of_zero_le (show 0 ≤ n by omega)
      rw [Int.toNat_natCast]
      push_cast
      nlinarith
    | _ => simpa [span, slotOf, hk] using hlt

end State

theorem Agree.numbering {ε : Type} {K : Value → Prop} {R : Register → Prop} {M : Variable → Prop}
    {s t : State ε} (h : Agree K R M s t) (hops : List Hop)
    (hu : ∀ v ∈ hops.flatMap Hop.uses, K v) (hr : ∀ r ∈ hops.flatMap Hop.registers, R r) :
    (t.InBounds hops ↔ s.InBounds hops) ∧ t.slotOf hops = s.slotOf hops := by
  induction hops with
  | nil => exact ⟨.rfl, rfl⟩
  | cons hop rest ih =>
    simp only [List.flatMap_cons, List.mem_append] at hu hr
    obtain ⟨hin, hslot⟩ := ih (fun v hv => hu v (.inr hv)) fun r hr' => hr r (.inr hr')
    cases hk : hop.kind with
    | array index =>
      have hread : t.read index = s.read index :=
        h.read (fun v hv => hu v (.inl (by simpa [Hop.uses, hk] using hv)))
          fun r hr' => hr r (.inl (by simpa [Hop.registers, hk] using hr'))
      simp [State.InBounds, State.slotOf, hk, hread, hin, hslot]
    | _ => simp [State.InBounds, State.slotOf, hk, hin, hslot]

theorem wrap64_of_le {n : Int} (h0 : 0 ≤ n) (h : n ≤ 2 ^ 32) : wrap64 n = n := by
  exact Int.bmod_eq_of_le_mul_two (by omega) (by omega)

def wrappedSpan : List Hop → Int
  | [] => 1
  | hop :: rest =>
    match hop.kind with
    | .array _ => wrap64 ((hopsType rest).length * wrappedSpan rest)
    | _ => wrappedSpan rest

def reserved (hops : List Hop) : Int := if 1 < wrappedSpan hops then wrappedSpan hops else 0

theorem arraySize_eq_reserved (b : Body) (links : List Link) :
    RegisterTable.arraySize links = reserved (links.map b.hop) := by
  have hcount : RegisterTable.elemCount links = wrappedSpan (links.map b.hop) := by
    induction links with
    | nil => rfl
    | cons link rest ih =>
      cases hk : link.kind <;>
        simp [RegisterTable.elemCount, wrappedSpan, Body.hop, hk, ih, hopsType_hop]
  rw [RegisterTable.arraySize, reserved, hcount]

theorem reserved_map (f : Value → Value) (hops : List Hop) :
    reserved (hops.map (Hop.map f)) = reserved hops := by
  have hcount : wrappedSpan (hops.map (Hop.map f)) = wrappedSpan hops := by
    induction hops with
    | nil => rfl
    | cons hop rest ih =>
      cases hk : hop.kind <;> simp [wrappedSpan, Hop.map, hk, ih, hopsType_map]
  rw [reserved, reserved, hcount]

/-- As long as the product of the lengths stays small, the reserved slots are that many. -/
theorem State.InBounds.reserved_eq {ε : Type} {s : State ε} {hops : List Hop}
    (hin : s.InBounds hops) (hs : span hops ≤ 2 ^ 32) :
    reserved hops = if 1 < span hops then span hops else 0 := by
  suffices hcount : wrappedSpan hops = span hops by rw [reserved, hcount]
  induction hops with
  | nil => rfl
  | cons hop rest ih =>
    obtain ⟨hhop, hrest⟩ := hin
    have hpos := hrest.span_pos
    cases hk : hop.kind with
    | array index =>
      simp only [hk] at hhop
      simp only [span, wrappedSpan, hk] at hs ⊢
      have hle : span rest ≤ 2 ^ 32 := by nlinarith
      rw [ih hrest hle]
      exact wrap64_of_le (by nlinarith) hs
    | _ =>
      simp only [span, wrappedSpan, hk] at hs ⊢
      exact ih hrest hs

namespace Straight

variable {ε : Type} {s : State ε} {hops : List Hop} {p : Place}

/-- The place at the end of a chain has the turns of the chain, in a variable of its mode. -/
theorem turns_mode (h : Straight hops) (hp : s.place? hops = some p) :
    p.turns = hopTurns hops ∧ p.var.mode = hopsMode hops := by
  induction hops generalizing p with
  | nil => exact h.elim
  | cons hop rest ih =>
    cases hk : hop.kind with
    | var v =>
      simp only [Straight, hk] at h
      obtain ⟨rfl, -, hm⟩ := h
      obtain rfl : (⟨v, []⟩ : Place) = p := by simpa [State.place?, hk] using hp
      simp [Place.turns, hopTurns, hopsMode, HopKind.turn, hk, hm]
    | array index =>
      simp only [Straight, hk] at h
      obtain ⟨hrest, -, -, hm⟩ := h
      simp only [State.place?, hk, Option.map_eq_some_iff] at hp
      obtain ⟨q, hq, rfl⟩ := hp
      obtain ⟨ht, hmode⟩ := ih hrest hq
      refine ⟨?_, by simp [hmode, hopsMode, hm]⟩
      simpa [Place.turns, hopTurns, HopKind.turn, Sel.turn, hk] using ht
    | struct f =>
      simp only [Straight, hk] at h
      obtain ⟨hrest, -, -, hm⟩ := h
      simp only [State.place?, hk, Option.map_eq_some_iff] at hp
      obtain ⟨q, hq, rfl⟩ := hp
      obtain ⟨ht, hmode⟩ := ih hrest hq
      refine ⟨?_, by simp [hmode, hopsMode, hm]⟩
      simpa [Place.turns, hopTurns, HopKind.turn, Sel.turn, hk] using ht
    | cast => simp [Straight, hk] at h

/-- In bounds a chain leads to a place that exists, and numbers it. -/
theorem number (h : Straight hops) (hp : s.place? hops = some p) (hin : s.InBounds hops) :
    p.var.type.reach p.path = some (hopsType hops) ∧ p.number = s.slotOf hops := by
  induction hops generalizing p with
  | nil => exact h.elim
  | cons hop rest ih =>
    obtain ⟨hhop, hin⟩ := hin
    cases hk : hop.kind with
    | var v =>
      simp only [Straight, hk] at h
      obtain ⟨rfl, ht, -⟩ := h
      obtain rfl : (⟨v, []⟩ : Place) = p := by simpa [State.place?, hk] using hp
      simp [Ty.reach, Place.number, Ty.number, State.slotOf, hopsType, hk, ht]
    | array index =>
      simp only [Straight, hk] at h
      simp only [hk] at hhop
      obtain ⟨hrest, ht, hne, -⟩ := h
      simp only [State.place?, hk, Option.map_eq_some_iff] at hp
      obtain ⟨q, hq, rfl⟩ := hp
      obtain ⟨hreach, hnum⟩ := ih hrest hq hin
      constructor
      · rw [Ty.reach, hreach, Option.bind_some, hopsType, ht]
        cases hrt : hopsType rest with
        | array elem n =>
          rw [hrt] at hhop
          exact if_pos hhop
        | _ => simp [ht, hrt, Ty.elementType] at hne
      · simp only [Place.number] at hnum ⊢
        simp [Ty.number, Ty.parts_of_reach hreach, State.slotOf, hk, hnum]
    | struct f =>
      simp only [Straight, hk] at h
      obtain ⟨hrest, ht, hne, -⟩ := h
      simp only [State.place?, hk, Option.map_eq_some_iff] at hp
      obtain ⟨q, hq, rfl⟩ := hp
      obtain ⟨hreach, hnum⟩ := ih hrest hq hin
      constructor
      · rw [Ty.reach, hreach, Option.bind_some, hopsType, ht]
        have hpart := fieldType_eq_part (ht ▸ hne)
        cases hrt : hopsType rest with
        | struct name fs =>
          rw [hrt] at hpart
          exact hpart
        | _ => simp [ht, hrt, Ty.fieldType] at hne
      · simp only [Place.number] at hnum ⊢
        simp [Ty.number, State.slotOf, hk, hnum]
    | cast => simp [Straight, hk] at h

end Straight

end ShaderIR
