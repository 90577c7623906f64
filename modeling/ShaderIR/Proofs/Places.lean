import ShaderIR.Proofs.Execution

/-!
# Places of a chain

A chain without casts leads from its variable to a place, and the type of its end is the type of
what lies there. A type is larger than everything inside of it. So two places of one type in the
same variable are the same place, or nothing lies inside of both.
-/

set_option autoImplicit false

namespace ShaderIR

def Straight : List Hop → Prop
  | [] => False
  | hop :: rest =>
    match hop.kind with
    | .var v => rest = [] ∧ hop.type = v.type ∧ hop.mode = v.mode
    | .array _ => Straight rest ∧ hop.type = (hopsType rest).elementType ∧ hop.type ≠ .absent ∧
        hop.mode = hopsMode rest
    | .struct f => Straight rest ∧ hop.type = (hopsType rest).fieldType f ∧ hop.type ≠ .absent ∧
        hop.mode = hopsMode rest
    | .cast => False

theorem straight_of_typed (b : Body) {links : List Link} (ht : Typed links)
    (hc : ∀ l ∈ links, l.kind ≠ .cast) (hne : links ≠ []) : Straight (links.map b.hop) := by
  induction links with
  | nil => exact absurd rfl hne
  | cons link rest ih =>
    obtain ⟨hlink, hrest⟩ := ht
    have hup : rest.head?.map Link.mode = some link.mode →
        Straight (rest.map b.hop) ∧ link.mode = hopsMode (rest.map b.hop) := by
      intro hm
      have hne : rest ≠ [] := by
        rintro rfl
        simp at hm
      refine ⟨ih hrest (fun l hl => hc l (.tail _ hl)) hne, ?_⟩
      cases rest with
      | nil => simp at hm
      | cons l rest => simpa [hopsMode, Body.hop] using hm.symm
    cases hk : link.kind with
    | var v =>
      simp only [hk] at hlink
      simp [Straight, Body.hop, hk, hlink]
    | array index =>
      simp only [hk] at hlink
      obtain ⟨hs, hm⟩ := hup hlink.2.2
      simp only [List.map_cons, Straight, Body.hop, hk, hopsType_hop]
      exact ⟨hs, hlink.1, hlink.2.1, hm⟩
    | struct f =>
      simp only [hk] at hlink
      obtain ⟨hs, hm⟩ := hup hlink.2.2
      simp only [List.map_cons, Straight, Body.hop, hk, hopsType_hop]
      exact ⟨hs, hlink.1, hlink.2.1, hm⟩
    | cast => exact absurd hk (hc link (.head _))

/-- In an arena without casts every chain that leads somewhere is straight. -/
theorem Built.straight {b : Body} (hb : Built b.links) (hc : ∀ l ∈ b.links, l.kind ≠ .cast)
    {h : Handle} (hne : b.hops h ≠ []) : Straight (b.hops h) :=
  straight_of_typed b (hb.typed_chain h) (fun l hl => hc l (mem_of_mem_chain hl))
    fun hnil => hne (by simp [Body.hops, hnil])

namespace Ty

def part : Ty → Sel → Option Ty
  | array t _, .index _ => some t
  | struct _ fs, .field f => fs[f]?.map Prod.snd
  | _, _ => none

def parts (t : Ty) : List Sel → Option Ty
  | [] => some t
  | x :: path => (parts t path).bind (·.part x)

theorem part_of_inside {t u : Ty} {x : Sel} (h : t.inside x = some u) : t.part x = some u := by
  cases t <;> cases x <;> simp_all [inside, part]

theorem parts_append (t : Ty) (x y : List Sel) :
    t.parts (x ++ y) = (t.parts y).bind (·.parts x) := by
  induction x with
  | nil => cases h : t.parts y <;> simp [parts, h]
  | cons a x ih => cases h : t.parts y <;> simp [parts, ih, h]

theorem reach_append (t : Ty) (x y : List Sel) :
    t.reach (x ++ y) = (t.reach y).bind (·.reach x) := by
  induction x with
  | nil => cases h : t.reach y <;> simp [reach, h]
  | cons a x ih => cases h : t.reach y <;> simp [reach, ih, h]

theorem parts_of_reach {t u : Ty} {path : List Sel} (h : t.reach path = some u) :
    t.parts path = some u := by
  induction path generalizing u with
  | nil => exact h
  | cons x path ih =>
    obtain ⟨w, hw, hu⟩ := Option.bind_eq_some_iff.mp h
    simp [parts, ih hw, part_of_inside hu]

theorem sizeOf_part {t u : Ty} {x : Sel} (h : t.part x = some u) : sizeOf u < sizeOf t := by
  cases t with
  | array t n =>
    cases x with
    | index i =>
      obtain rfl : t = u := by simpa [part] using h
      rw [array.sizeOf_spec]
      omega
    | field f => simp [part] at h
  | struct name fs =>
    cases x with
    | index i => simp [part] at h
    | field f =>
      obtain ⟨⟨a, w⟩, hf, rfl⟩ := Option.map_eq_some_iff.mp h
      have := List.sizeOf_lt_of_mem (List.mem_of_getElem? hf)
      rw [Prod.mk.sizeOf_spec] at this
      rw [struct.sizeOf_spec]
      show sizeOf w < _
      omega
  | _ => cases x <;> simp [part] at h

theorem sizeOf_parts {t u : Ty} {path : List Sel} (h : t.parts path = some u) :
    path = [] ∨ sizeOf u < sizeOf t := by
  induction path generalizing u with
  | nil => exact .inl rfl
  | cons x path ih =>
    obtain ⟨w, hw, hu⟩ := Option.bind_eq_some_iff.mp h
    have hlt := sizeOf_part hu
    rcases ih hw with rfl | hlt'
    · obtain rfl : t = w := by simpa [parts] using hw
      exact .inr hlt
    · exact .inr (Nat.lt_trans hlt hlt')

/-- Two places of one type in a variable are the same if something lies inside of both. -/
theorem eq_of_overlap {t u : Ty} {d c x y : List Sel} (hd : t.parts d = some u)
    (hc : t.parts c = some u) (h : x ++ d = y ++ c) : d = c := by
  have hempty : ∀ z : List Sel, u.parts z = some u → z = [] := by
    intro z hz
    exact (sizeOf_parts hz).resolve_right (Nat.lt_irrefl _)
  rcases List.append_eq_append_iff.mp h with ⟨z, rfl, rfl⟩ | ⟨z, rfl, rfl⟩
  · rw [parts_append, hc] at hd
    rw [hempty z hd, List.nil_append]
  · rw [parts_append, hd] at hc
    rw [hempty z hc, List.nil_append]

end Ty

section

variable {ε : Type} {s : State ε}

theorem elementType_eq_part {t : Ty} (h : t.elementType ≠ .absent) (i : UInt32) :
    t.part (.index i) = some t.elementType := by
  cases t <;> simp_all [Ty.part, Ty.elementType]

theorem fieldType_eq_part {t : Ty} {f : Nat} (h : t.fieldType f ≠ .absent) :
    t.part (.field f) = some (t.fieldType f) := by
  cases t with
  | struct name fs =>
    simp only [Ty.fieldType, Ty.part] at h ⊢
    cases hf : fs[f]? <;> simp_all
  | _ => simp [Ty.fieldType] at h

/-- A straight chain leads to a place, which has the type of its end. -/
theorem Straight.place {hops : List Hop} (h : Straight hops) :
    ∃ p, s.place? hops = some p ∧ p.var.type.parts p.path = some (hopsType hops) := by
  induction hops with
  | nil => exact h.elim
  | cons hop rest ih =>
    cases hk : hop.kind with
    | var v =>
      simp only [Straight, hk] at h
      exact ⟨⟨v, []⟩, by simp [State.place?, hk], by simp [Ty.parts, hopsType, h.2.1]⟩
    | array index =>
      simp only [Straight, hk] at h
      obtain ⟨hrest, ht, hne, -⟩ := h
      obtain ⟨p, hp, hparts⟩ := ih hrest
      refine ⟨⟨p.var, .index (indexOf (s.read index)) :: p.path⟩, ?_, ?_⟩
      · simp [State.place?, hk, hp]
      · simp only [Ty.parts, hparts, Option.bind_some, hopsType, ht]
        exact elementType_eq_part (ht ▸ hne) _
    | struct f =>
      simp only [Straight, hk] at h
      obtain ⟨hrest, ht, hne, -⟩ := h
      obtain ⟨p, hp, hparts⟩ := ih hrest
      refine ⟨⟨p.var, .field f :: p.path⟩, ?_, ?_⟩
      · simp [State.place?, hk, hp]
      · simp only [Ty.parts, hparts, Option.bind_some, hopsType, ht]
        exact fieldType_eq_part (ht ▸ hne)
    | cast => simp [Straight, hk] at h

end

end ShaderIR
