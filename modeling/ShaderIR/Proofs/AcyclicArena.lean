import Mathlib.Data.List.Chain
import Mathlib.Data.List.Perm.Subperm
import Mathlib.Logic.Relation
import ShaderIR.Proofs.Arena

/-!
# Arenas without cycles

A walk goes from a link to its parent until there is none. When no link is its own ancestor, the
links that a walk meets stand at different positions. So the arena has room for every walk, and the
chain of a handle is its whole walk, whichever order the links stand in.
-/

set_option autoImplicit false

namespace ShaderIR

def HasParent (links : Array Link) (h p : Nat) : Prop := links[h]?.bind Link.parent = some p

def Acyclic (links : Array Link) : Prop := ∀ h, ¬ Relation.TransGen (HasParent links) h h

inductive Walks (links : Array Link) : Handle → List Link → Prop
  | done {h : Handle} (hh : h.bind (links[·]?) = none) : Walks links h []
  | step {h : Nat} {link : Link} {rest : List Link} (hl : links[h]? = some link)
      (hr : Walks links link.parent rest) : Walks links (some h) (link :: rest)

variable {links : Array Link}

theorem acyclic_of_rank (rank : Nat → Nat) (hrank : ∀ h p, HasParent links h p → rank p < rank h) :
    Acyclic links := by
  have hfalls : ∀ h p, Relation.TransGen (HasParent links) h p → rank p < rank h := by
    intro h p hp
    induction hp with
    | single hp => exact hrank _ _ hp
    | tail _ hp ih => exact Nat.lt_trans (hrank _ _ hp) ih
  exact fun h hh => Nat.lt_irrefl _ (hfalls h h hh)

theorem Descending.acyclic (hd : Descending links) : Acyclic links := by
  refine acyclic_of_rank id fun h p hp => ?_
  obtain ⟨link, hl, hlink⟩ := Option.bind_eq_some_iff.mp hp
  exact hd h link hl p hlink

theorem Acyclic.map (ha : Acyclic links) {f : Link → Link} (hf : ∀ l, (f l).parent = l.parent) :
    Acyclic (links.map f) := by
  have hsame : HasParent (links.map f) = HasParent links := by
    funext h p
    rw [HasParent, HasParent, Array.getElem?_map, Option.bind_map]
    simp only [Function.comp_def, hf]
  unfold Acyclic
  rwa [hsame]

/-- A walk with room for `n` links is done, or it has met as many links and has one more to go. -/
theorem walks_or_trail (n : Nat) : ∀ h : Handle, Walks links h (chainFrom links n h) ∨
    ∃ trail : List Nat, trail.length = n + 1 ∧ trail.head? = h ∧ (∀ p ∈ trail, p < links.size) ∧
      trail.IsChain (HasParent links) := by
  induction n with
  | zero =>
    intro h
    cases hh : h.bind (links[·]?) with
    | none => exact .inl (.done hh)
    | some link =>
      obtain ⟨h, rfl, hl⟩ := Option.bind_eq_some_iff.mp hh
      have hlt : h < links.size := (Array.getElem?_eq_some_iff.mp hl).1
      exact .inr ⟨[h], rfl, rfl, by simpa using hlt, List.isChain_singleton h⟩
  | succ n ih =>
    intro h
    cases hh : h.bind (links[·]?) with
    | none =>
      left
      cases h with
      | none => exact .done rfl
      | some h =>
        have hl : links[h]? = none := hh
        simp only [chainFrom, hl]
        exact .done hh
    | some link =>
      obtain ⟨h, rfl, hl⟩ := Option.bind_eq_some_iff.mp hh
      rcases ih link.parent with hw | ⟨trail, hlen, hhead, hlt, hchain⟩
      · left
        simp only [chainFrom, hl]
        exact .step hl hw
      · refine .inr ⟨h :: trail, by simp [hlen], rfl, ?_, ?_⟩
        · simpa [(Array.getElem?_eq_some_iff.mp hl).1] using hlt
        · refine List.isChain_cons.mpr ⟨fun p hp => ?_, hchain⟩
          rw [hhead] at hp
          rw [HasParent, hl, Option.bind_some, hp]

/-- In an arena without cycles the chain of a handle is its whole walk. -/
theorem Acyclic.walks (ha : Acyclic links) (h : Handle) : Walks links h (chain links h) := by
  refine (walks_or_trail links.size h).resolve_right ?_
  rintro ⟨trail, hlen, -, hlt, hchain⟩
  -- the positions on the trail are all different, and there are more of them than links
  have hancestors : trail.Pairwise (Relation.TransGen (HasParent links)) :=
    (hchain.imp fun _ _ => Relation.TransGen.single).pairwise
  have hnodup : trail.Nodup := by
    refine hancestors.imp ?_
    rintro p _ hp rfl
    exact ha p hp
  have hsub : trail ⊆ List.range links.size := fun p hp => List.mem_range.mpr (hlt p hp)
  have hle := (hnodup.subperm hsub).length_le
  rw [hlen, List.length_range] at hle
  omega

end ShaderIR
