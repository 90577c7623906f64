import Mathlib.Algebra.Order.BigOperators.Group.Finset
import Mathlib.Order.Interval.Finset.Nat
import ShaderIR.Analysis.Graph

/-!
# The search meets what can be reached

A node is put on the list at most once for each edge into it, so nodes and edges bound the steps of
the search. When nothing is left on the list, what was met is closed under the edges that stay open.
So it is exactly what paths lead to that never enter a closed node.
-/

set_option autoImplicit false

namespace ShaderIR.Graph

inductive Reaches (g : Graph) (closed : Nat → Bool) (start : Nat) : Nat → Prop
  | start (h : closed start = false) : Reaches g closed start start
  | step {v w : Nat} (h : Reaches g closed start v) (hw : w ∈ g.succs v)
      (hc : closed w = false) : Reaches g closed start w

def Bounded (g : Graph) : Prop := ∀ v < g.size, ∀ w ∈ g.succs v, w < g.size

theorem Reaches.opened {g : Graph} {closed : Nat → Bool} {start v : Nat}
    (h : g.Reaches closed start v) : closed start = false := by
  induction h with
  | start h => exact h
  | step _ _ _ ih => exact ih

section

variable {next : Nat → List Nat} {size u : Nat} {todo seen : List Nat}

theorem explore_nil (fuel : Nat) : explore next fuel [] seen = seen := by
  cases fuel <;> rfl

theorem explore_skip (fuel : Nat) (hu : u ∈ seen) :
    explore next (fuel + 1) (u :: todo) seen = explore next fuel todo seen := by
  simp [explore, hu]

theorem explore_meet (fuel : Nat) (hu : u ∉ seen) :
    explore next (fuel + 1) (u :: todo) seen =
      explore next fuel (next u ++ todo) (u :: seen) := by
  simp [explore, hu]

structure Searching (next : Nat → List Nat) (size : Nat) (todo seen : List Nat) : Prop where
  lt : ∀ v ∈ todo, v < size
  listed : ∀ v ∈ seen, ∀ w ∈ next v, w ∈ seen ∨ w ∈ todo

theorem Searching.skip (h : Searching next size (u :: todo) seen) (hu : u ∈ seen) :
    Searching next size todo seen where
  lt v hv := h.lt v (.tail _ hv)
  listed v hv w hw := by
    rcases h.listed v hv w hw with hw | hw
    · exact .inl hw
    · rcases List.mem_cons.mp hw with rfl | hw
      · exact .inl hu
      · exact .inr hw

theorem Searching.meet (h : Searching next size (u :: todo) seen)
    (hnext : ∀ v < size, ∀ w ∈ next v, w < size) :
    Searching next size (next u ++ todo) (u :: seen) where
  lt v hv := by
    rcases List.mem_append.mp hv with hv | hv
    · exact hnext u (h.lt u (.head _)) v hv
    · exact h.lt v (.tail _ hv)
  listed v hv w hw := by
    rcases List.mem_cons.mp hv with rfl | hv
    · exact .inr (List.mem_append_left _ hw)
    · rcases h.listed v hv w hw with hw | hw
      · exact .inl (.tail _ hw)
      · rcases List.mem_cons.mp hw with rfl | hw
        · exact .inl (.head _)
        · exact .inr (List.mem_append_right _ hw)

def outstanding (next : Nat → List Nat) (size : Nat) (todo seen : List Nat) : Nat :=
  todo.length + ∑ v ∈ Finset.range size \ seen.toFinset, (next v).length

theorem outstanding_skip :
    outstanding next size todo seen + 1 = outstanding next size (u :: todo) seen := by
  rw [outstanding, outstanding, List.length_cons]
  omega

theorem outstanding_meet (hu : u < size) (hn : u ∉ seen) :
    outstanding next size (next u ++ todo) (u :: seen) + 1 =
      outstanding next size (u :: todo) seen := by
  have hmem : u ∈ Finset.range size \ seen.toFinset := by simp [hu, hn]
  have hsplit := Finset.sum_erase_add _ (fun v => (next v).length) hmem
  rw [outstanding, outstanding, List.toFinset_cons, Finset.sdiff_insert, ← hsplit]
  simp only [List.length_append, List.length_cons]
  omega

end

section

variable {next : Nat → List Nat}

/-- Only nodes are met that edges lead to from what was met or listed before. -/
theorem explore_sound {R : Nat → Prop} (hnext : ∀ v, R v → ∀ w ∈ next v, R w) (fuel : Nat) :
    ∀ {todo seen : List Nat}, (∀ v ∈ todo, R v) → (∀ v ∈ seen, R v) →
      ∀ v ∈ explore next fuel todo seen, R v := by
  induction fuel with
  | zero => exact fun _ hseen => hseen
  | succ fuel ih =>
    intro todo seen htodo hseen
    cases todo with
    | nil => exact hseen
    | cons u todo =>
      have hu : R u := htodo u (.head _)
      have hrest : ∀ v ∈ todo, R v := fun v hv => htodo v (.tail _ hv)
      by_cases hmet : u ∈ seen
      · rw [explore_skip fuel hmet]
        exact ih hrest hseen
      · rw [explore_meet fuel hmet]
        apply ih
        · exact fun v hv => (List.mem_append.mp hv).elim (hnext u hu v) (hrest v)
        · intro v hv
          rcases List.mem_cons.mp hv with rfl | hv
          · exact hu
          · exact hseen v hv

/-- With enough fuel the search only ends when the list is empty. Then all that was met or listed
before has been met, and so has every node that an edge leads to from there. -/
theorem explore_closed {size : Nat} (hnext : ∀ v < size, ∀ w ∈ next v, w < size) (fuel : Nat) :
    ∀ {todo seen : List Nat}, Searching next size todo seen →
      outstanding next size todo seen ≤ fuel →
      (∀ v, v ∈ seen ∨ v ∈ todo → v ∈ explore next fuel todo seen) ∧
      Searching next size [] (explore next fuel todo seen) := by
  induction fuel with
  | zero =>
    intro todo seen h hfuel
    have htodo : todo = [] := by
      rw [outstanding] at hfuel
      exact List.length_eq_zero_iff.mp (by omega)
    subst htodo
    exact ⟨by simp [explore_nil], h⟩
  | succ fuel ih =>
    intro todo seen h hfuel
    cases todo with
    | nil => exact ⟨by simp [explore_nil], h⟩
    | cons u todo =>
      by_cases hmet : u ∈ seen
      · rw [← outstanding_skip] at hfuel
        obtain ⟨hsub, hend⟩ := ih (h.skip hmet) (by omega)
        rw [explore_skip fuel hmet]
        refine ⟨fun v hv => hsub v ?_, hend⟩
        rcases hv with hv | hv
        · exact .inl hv
        · rcases List.mem_cons.mp hv with rfl | hv
          · exact .inl hmet
          · exact .inr hv
      · rw [← outstanding_meet (h.lt u (.head _)) hmet] at hfuel
        obtain ⟨hsub, hend⟩ := ih (h.meet hnext) (by omega)
        rw [explore_meet fuel hmet]
        refine ⟨fun v hv => hsub v ?_, hend⟩
        rcases hv with hv | hv
        · exact .inl (.tail _ hv)
        · rcases List.mem_cons.mp hv with rfl | hv
          · exact .inl (.head _)
          · exact .inr (List.mem_append_right _ hv)

end

theorem edgeCount_eq (g : Graph) : g.edgeCount = ∑ v ∈ Finset.range g.size, (g.succs v).length := by
  have hfold : ∀ (vs : List Nat) (n : Nat), vs.foldl (fun n v => n + (g.succs v).length) n =
      n + (vs.map fun v => (g.succs v).length).sum := by
    intro vs
    induction vs with
    | nil => simp
    | cons v vs ih => simp [ih, Nat.add_assoc]
  rw [edgeCount, hfold, ← List.toFinset_range, List.sum_toFinset _ List.nodup_range, Nat.zero_add]

section

variable {g : Graph} (hg : g.Bounded) {closed : Nat → Bool} {start : Nat} (hs : start < g.size)

include hg hs

/-- The search finds exactly what open paths lead to. -/
theorem mem_reachAvoiding {v : Nat} :
    v ∈ g.reachAvoiding closed start ↔ g.Reaches closed start v := by
  unfold reachAvoiding
  cases hc : closed start with
  | true =>
    rw [if_pos rfl]
    refine ⟨fun hv => absurd hv List.not_mem_nil, fun hv => ?_⟩
    rw [hv.opened] at hc
    cases hc
  | false =>
    rw [if_neg Bool.false_ne_true]
    constructor
    · apply explore_sound
      · intro u hu w hw
        obtain ⟨hw, hopen⟩ := List.mem_filter.mp hw
        exact hu.step hw (by simpa using hopen)
      · intro u hu
        obtain rfl := List.mem_singleton.mp hu
        exact .start hc
      · simp
    · have hbound : outstanding (fun v => (g.succs v).filter fun w => !closed w) g.size [start] [] ≤
          1 + g.size + g.edgeCount := by
        have hle : ∑ v ∈ Finset.range g.size, ((g.succs v).filter fun w => !closed w).length ≤
            ∑ v ∈ Finset.range g.size, (g.succs v).length :=
          Finset.sum_le_sum fun v _ => List.length_filter_le _ _
        rw [← edgeCount_eq] at hle
        simp only [outstanding, List.length_singleton, List.toFinset_nil, Finset.sdiff_empty]
        omega
      obtain ⟨hsub, hend⟩ := explore_closed
        (fun v hv w hw => hg v hv w (List.mem_filter.mp hw).1) _
        ⟨fun v hv => List.mem_singleton.mp hv ▸ hs, by simp⟩ hbound
      intro hv
      induction hv with
      | start _ => exact hsub start (.inr (.head _))
      | step _ hw hopen ih =>
        refine (hend.listed _ ih _ (List.mem_filter.mpr ⟨hw, ?_⟩)).resolve_right List.not_mem_nil
        simpa using hopen

end

theorem getElem?_flags (size : Nat) (nodes : List Nat) (v : Nat) :
    (flags size nodes)[v]? = if v < size then some (decide (v ∈ nodes)) else none := by
  have hfold : ∀ (nodes : List Nat) (acc : Array Bool),
      (nodes.foldl (fun acc v => acc.setIfInBounds v true) acc)[v]? =
        acc[v]?.map (· || decide (v ∈ nodes)) := by
    intro nodes
    induction nodes with
    | nil => simp
    | cons w nodes ih =>
      intro acc
      rw [List.foldl_cons, ih, Array.getElem?_setIfInBounds]
      by_cases hw : w = v
      · subst hw
        by_cases hlt : w < acc.size <;> simp [hlt]
      · simp [hw, Ne.symm hw]
  rw [flags, hfold, Array.getElem?_replicate]
  split <;> simp

end ShaderIR.Graph
