import Mathlib.Algebra.Order.BigOperators.Group.Finset
import Mathlib.Data.List.Nodup
import ShaderIR.Analysis.Liveness

/-!
# The queue runs empty

Looking at a node adds values to its sets and touches no other node. A node that does not wait has
taken over all that is live into its successors, and when more becomes live into a node, the nodes
with an edge to it wait again. Every look either shortens the queue or puts a value into a set where
it was missing, so the queue runs empty, and then the sets hold exactly the values that can be
handed back along the edges to a node from where they are read.
-/

set_option autoImplicit false

namespace ShaderIR

inductive Live (g : Graph) (uses : Array LocalUses) : Nat → Value → Prop
  | read {i : Nat} {v : Value} (h : v ∈ (uses[i]?.getD default).reads) : Live g uses i v
  | pass {i j : Nat} {v : Value} (hj : j ∈ g.succs i) (h : Live g uses j v)
      (hd : v ∉ (uses[i]?.getD default).defs) : Live g uses i v

def readValues (uses : Array LocalUses) : List Value := uses.toList.flatMap (·.reads)

theorem Live.mem_readValues {g : Graph} {uses : Array LocalUses} {i : Nat} {v : Value}
    (h : Live g uses i v) : v ∈ readValues uses := by
  induction h with
  | @read i v h =>
    cases hu : uses[i]? with
    | none =>
      rw [hu] at h
      exact absurd h List.not_mem_nil
    | some u =>
      rw [hu] at h
      exact List.mem_flatMap.mpr ⟨u, Array.mem_toList_iff.mpr (Array.mem_of_getElem? hu), h⟩
  | pass _ _ _ ih => exact ih

namespace LiveSets

structure Extends (i : Nat) (s s' : LiveSets) : Prop where
  ins_size : s'.ins.size = s.ins.size
  outs_size : s'.outs.size = s.outs.size
  into : ∀ j, s.into j ⊆ s'.into j
  outOf : ∀ j, s.outOf j ⊆ s'.outOf j
  into_other : ∀ j, j ≠ i → s'.into j = s.into j
  outOf_other : ∀ j, j ≠ i → s'.outOf j = s.outOf j
  grew : s.grew = true → s'.grew = true
  still : s'.grew = false → s'.ins = s.ins
  grown : s'.grew = true → s.grew = true ∨ ∃ v ∈ s'.into i, v ∉ s.into i

namespace Extends

theorem refl (i : Nat) (s : LiveSets) : Extends i s s where
  ins_size := rfl
  outs_size := rfl
  into _ := List.Subset.refl _
  outOf _ := List.Subset.refl _
  into_other _ _ := rfl
  outOf_other _ _ := rfl
  grew h := h
  still _ := rfl
  grown h := .inl h

theorem trans {i : Nat} {s s' s'' : LiveSets} (h : Extends i s s') (h' : Extends i s' s'') :
    Extends i s s'' where
  ins_size := h'.ins_size.trans h.ins_size
  outs_size := h'.outs_size.trans h.outs_size
  into j _ hv := h'.into j (h.into j hv)
  outOf j _ hv := h'.outOf j (h.outOf j hv)
  into_other j hj := (h'.into_other j hj).trans (h.into_other j hj)
  outOf_other j hj := (h'.outOf_other j hj).trans (h.outOf_other j hj)
  grew hg := h'.grew (h.grew hg)
  still hs := by
    have hs' : s'.grew = false := by
      by_contra hne
      simp [h'.grew (Bool.eq_true_of_not_eq_false hne)] at hs
    rw [h'.still hs, h.still hs']
  grown hg := by
    rcases h'.grown hg with hg' | ⟨v, hv, hn⟩
    · rcases h.grown hg' with hg'' | ⟨v, hv, hn⟩
      · exact .inl hg''
      · exact .inr ⟨v, h'.into i hv, hn⟩
    · exact .inr ⟨v, hv, fun hmem => hn (h.into i hmem)⟩

end Extends

section

variable {defs : List Value} {i : Nat} {s : LiveSets} {v : Value}

theorem absorb_cases (defs : List Value) (i : Nat) (s : LiveSets) (v : Value) :
    (v ∈ s.outOf i ∧ absorb defs i s v = s) ∨
    (v ∉ s.outOf i ∧ (v ∈ defs ∨ v ∈ s.into i) ∧
      absorb defs i s v = { s with outs := s.outs.modify i (v :: ·) }) ∨
    (v ∉ s.outOf i ∧ v ∉ defs ∧ v ∉ s.into i ∧
      absorb defs i s v = ⟨s.ins.modify i (v :: ·), s.outs.modify i (v :: ·), true⟩) := by
  unfold absorb
  by_cases hout : v ∈ s.outOf i
  · exact .inl ⟨hout, by simp [hout]⟩
  · by_cases hin : v ∈ defs ∨ v ∈ s.into i
    · exact .inr (.inl ⟨hout, hin, by simp [hout, hin]⟩)
    · exact .inr (.inr ⟨hout, fun h => hin (.inl h), fun h => hin (.inr h), by simp [hout, hin]⟩)

theorem getD_modify (xs : Array (List Value)) (i j : Nat) (v : Value) (hi : i < xs.size) :
    (xs.modify i (v :: ·))[j]?.getD [] = if j = i then v :: xs[i]?.getD [] else xs[j]?.getD [] := by
  rw [Array.getElem?_modify]
  by_cases hj : j = i
  · subst hj
    simp [hi]
  · simp [hj, Ne.symm hj]

theorem absorb_outOf (hi : i < s.outs.size) (j : Nat) :
    (absorb defs i s v).outOf j =
      if j = i ∧ v ∉ s.outOf i then v :: s.outOf i else s.outOf j := by
  rcases absorb_cases defs i s v with ⟨hout, heq⟩ | ⟨hout, -, heq⟩ | ⟨hout, -, -, heq⟩ <;> rw [heq]
  · simp [hout]
  · simp only [outOf, getD_modify _ _ _ _ hi]
    simp only [outOf] at hout
    simp [hout]
  · simp only [outOf, getD_modify _ _ _ _ hi]
    simp only [outOf] at hout
    simp [hout]

theorem absorb_into (hi : i < s.ins.size) (j : Nat) :
    (absorb defs i s v).into j =
      if j = i ∧ v ∉ s.outOf i ∧ v ∉ defs ∧ v ∉ s.into i then v :: s.into i else s.into j := by
  rcases absorb_cases defs i s v with ⟨hout, heq⟩ | ⟨-, hin, heq⟩ | ⟨hout, hd, hin, heq⟩ <;>
    rw [heq]
  · simp [hout]
  · have hn : ¬ (v ∉ defs ∧ v ∉ s.into i) := fun h => hin.elim h.1 h.2
    rw [if_neg fun h => hn h.2.2]
    rfl
  · simp only [into, getD_modify _ _ _ _ hi]
    simp only [into] at hin
    simp [hout, hd, hin]

theorem absorb_ins_size : (absorb defs i s v).ins.size = s.ins.size := by
  rcases absorb_cases defs i s v with ⟨-, heq⟩ | ⟨-, -, heq⟩ | ⟨-, -, -, heq⟩ <;> simp [heq]

theorem absorb_outs_size : (absorb defs i s v).outs.size = s.outs.size := by
  rcases absorb_cases defs i s v with ⟨-, heq⟩ | ⟨-, -, heq⟩ | ⟨-, -, -, heq⟩ <;> simp [heq]

theorem absorb_extends (hi : i < s.ins.size) (ho : i < s.outs.size) :
    Extends i s (absorb defs i s v) where
  ins_size := absorb_ins_size
  outs_size := absorb_outs_size
  into j u hu := by
    rw [absorb_into hi]
    split
    · rename_i h
      rw [h.1] at hu
      exact .tail _ hu
    · exact hu
  outOf j u hu := by
    rw [absorb_outOf ho]
    split
    · rename_i h
      rw [h.1] at hu
      exact .tail _ hu
    · exact hu
  into_other j hj := by rw [absorb_into hi, if_neg fun h => hj h.1]
  outOf_other j hj := by rw [absorb_outOf ho, if_neg fun h => hj h.1]
  grew hg := by
    rcases absorb_cases defs i s v with ⟨-, heq⟩ | ⟨-, -, heq⟩ | ⟨-, -, -, heq⟩ <;> simp [heq, hg]
  still hs := by
    rcases absorb_cases defs i s v with ⟨-, heq⟩ | ⟨-, -, heq⟩ | ⟨-, -, -, heq⟩
    · rw [heq]
    · rw [heq]
    · simp [heq] at hs
  grown hg := by
    rcases absorb_cases defs i s v with ⟨-, heq⟩ | ⟨-, -, heq⟩ | ⟨hout, hd, hin, heq⟩
    · exact .inl (by simpa [heq] using hg)
    · exact .inl (by simpa [heq] using hg)
    · exact .inr ⟨v, by simp [absorb_into hi, hout, hd, hin], hin⟩

theorem mem_absorb_outOf (ho : i < s.outs.size) : v ∈ (absorb defs i s v).outOf i := by
  rw [absorb_outOf ho]
  by_cases hv : v ∈ s.outOf i <;> simp [hv]

end

section

variable {g : Graph} {defs : List Value} {i : Nat} {s : LiveSets}

/-- What holds of the sets while values that satisfy `Q` are taken over holds in the end. -/
theorem gather_rule {P : LiveSets → Prop} {Q : Value → Prop} (hi : i < s.ins.size)
    (ho : i < s.outs.size) (h : P { s with grew := false })
    (hQ : ∀ t, P t → ∀ j ∈ g.succs i, ∀ v ∈ t.into j, Q v)
    (hstep : ∀ t v, i < t.ins.size → i < t.outs.size → P t → Q v → P (absorb defs i t v)) :
    P (s.gather g defs i) := by
  have hall : i < (s.gather g defs i).ins.size ∧ i < (s.gather g defs i).outs.size ∧
      P (s.gather g defs i) := by
    apply List.foldlRecOn (motive := fun t => i < t.ins.size ∧ i < t.outs.size ∧ P t)
      (g.succs i) _ ⟨hi, ho, h⟩
    intro t ht j hj
    apply List.foldlRecOn (motive := fun t => i < t.ins.size ∧ i < t.outs.size ∧ P t)
      (t.into j) _ ht
    rintro u ⟨hui, huo, hu⟩ v hv
    exact ⟨hui.trans_eq absorb_ins_size.symm, huo.trans_eq absorb_outs_size.symm,
      hstep u v hui huo hu (hQ t ht.2.2 j hj v hv)⟩
  exact hall.2.2

theorem gather_extends (hi : i < s.ins.size) (ho : i < s.outs.size) :
    Extends i { s with grew := false } (s.gather g defs i) := by
  apply gather_rule (P := fun t => Extends i { s with grew := false } t) (Q := fun _ => True) hi ho
  · exact .refl i _
  · exact fun _ _ _ _ _ _ => trivial
  · exact fun t v hti hto ht _ => ht.trans (absorb_extends hti hto)

theorem foldl_absorb_extends (xs : List Value) (hi : i < s.ins.size) (ho : i < s.outs.size) :
    Extends i s (xs.foldl (absorb defs i) s) := by
  apply List.foldlRecOn xs _ (Extends.refl i s)
  intro t ht v _
  exact ht.trans (absorb_extends (ht.ins_size ▸ hi) (ht.outs_size ▸ ho))

theorem foldl_absorb_outOf (xs : List Value) (hi : i < s.ins.size) (ho : i < s.outs.size) :
    ∀ v ∈ xs, v ∈ (xs.foldl (absorb defs i) s).outOf i := by
  induction xs generalizing s with
  | nil => simp
  | cons x xs ih =>
    have hx : Extends i s (absorb defs i s x) := absorb_extends hi ho
    have hi' : i < (absorb defs i s x).ins.size := hx.ins_size ▸ hi
    have ho' : i < (absorb defs i s x).outs.size := hx.outs_size ▸ ho
    intro v hv
    rcases List.mem_cons.mp hv with rfl | hv
    · exact (foldl_absorb_extends xs hi' ho').outOf i (mem_absorb_outOf ho)
    · exact ih hi' ho' v hv

/-- Whatever is live into a successor is live out of the node afterwards. -/
theorem gather_outOf (hi : i < s.ins.size) (ho : i < s.outs.size) :
    ∀ j ∈ g.succs i, ∀ v ∈ s.into j, v ∈ (s.gather g defs i).outOf i := by
  have hrun (js : List Nat) : ∀ t : LiveSets, i < t.ins.size → i < t.outs.size →
      Extends i t (js.foldl (fun s j => (s.into j).foldl (absorb defs i) s) t) ∧
      ∀ j ∈ js, ∀ v ∈ t.into j,
        v ∈ (js.foldl (fun s j => (s.into j).foldl (absorb defs i) s) t).outOf i := by
    induction js with
    | nil => exact fun t _ _ => ⟨.refl i t, by simp⟩
    | cons j js ih =>
      intro t hti hto
      have hx : Extends i t ((t.into j).foldl (absorb defs i) t) := foldl_absorb_extends _ hti hto
      obtain ⟨hxs, hrest⟩ := ih ((t.into j).foldl (absorb defs i) t)
        (hx.ins_size ▸ hti) (hx.outs_size ▸ hto)
      refine ⟨hx.trans hxs, fun k hk v hv => ?_⟩
      rcases List.mem_cons.mp hk with rfl | hk
      · exact hxs.outOf i (foldl_absorb_outOf _ hti hto v hv)
      · exact hrest k hk v (hx.into k hv)
  exact (hrun (g.succs i) { s with grew := false } hi ho).2

end

/-- The sets hold live values only and none of them twice. What a node reads is live into it, and
what is live out of it comes from a successor and is defined there or live into it as well. -/
structure Sound (g : Graph) (uses : Array LocalUses) (s : LiveSets) : Prop where
  into : ∀ j, ∀ v ∈ s.into j, Live g uses j v
  outOf : ∀ j, ∀ v ∈ s.outOf j, ∃ k ∈ g.succs j, Live g uses k v
  reads : ∀ j, ∀ v ∈ (uses[j]?.getD default).reads, v ∈ s.into j
  through : ∀ j, ∀ v ∈ s.outOf j, v ∈ (uses[j]?.getD default).defs ∨ v ∈ s.into j
  into_nodup : ∀ j, (s.into j).Nodup
  outOf_nodup : ∀ j, (s.outOf j).Nodup

section

variable {g : Graph} {uses : Array LocalUses} {i : Nat} {s : LiveSets}

theorem Sound.absorb {v : Value} (h : Sound g uses s) (hi : i < s.ins.size) (ho : i < s.outs.size)
    (hv : ∃ k ∈ g.succs i, Live g uses k v) :
    Sound g uses (absorb (uses[i]?.getD default).defs i s v) where
  into j u hu := by
    rw [absorb_into hi] at hu
    split at hu
    · rename_i hc
      obtain ⟨rfl, -, hd, -⟩ := hc
      rcases List.mem_cons.mp hu with rfl | hu
      · obtain ⟨k, hk, hlive⟩ := hv
        exact .pass hk hlive hd
      · exact h.into j u hu
    · exact h.into j u hu
  outOf j u hu := by
    rw [absorb_outOf ho] at hu
    split at hu
    · rename_i hc
      obtain ⟨rfl, -⟩ := hc
      rcases List.mem_cons.mp hu with rfl | hu
      · exact hv
      · exact h.outOf j u hu
    · exact h.outOf j u hu
  reads j u hu := (absorb_extends hi ho).into j (h.reads j u hu)
  through j u hu := by
    rw [absorb_outOf ho] at hu
    have hkept : u ∈ s.outOf j → u ∈ (uses[j]?.getD default).defs ∨
        u ∈ (LiveSets.absorb (uses[i]?.getD default).defs i s v).into j :=
      fun hu => (h.through j u hu).imp_right fun hin => (absorb_extends hi ho).into j hin
    split at hu
    · rename_i hc
      obtain ⟨rfl, hout⟩ := hc
      rcases List.mem_cons.mp hu with rfl | hu
      · rw [absorb_into hi]
        by_cases hd : u ∈ (uses[j]?.getD default).defs
        · exact .inl hd
        · by_cases hin : u ∈ s.into j <;> simp [hout, hd, hin]
      · exact hkept hu
    · exact hkept hu
  into_nodup j := by
    rw [absorb_into hi]
    split
    · rename_i hc
      exact List.nodup_cons.mpr ⟨hc.2.2.2, h.into_nodup i⟩
    · exact h.into_nodup j
  outOf_nodup j := by
    rw [absorb_outOf ho]
    split
    · rename_i hc
      exact List.nodup_cons.mpr ⟨hc.2, h.outOf_nodup i⟩
    · exact h.outOf_nodup j

theorem Sound.gather (h : Sound g uses s) (hi : i < s.ins.size) (ho : i < s.outs.size) :
    Sound g uses (s.gather g (uses[i]?.getD default).defs i) := by
  apply gather_rule (Q := fun v => ∃ k ∈ g.succs i, Live g uses k v) hi ho
  · exact ⟨h.into, h.outOf, h.reads, h.through, h.into_nodup, h.outOf_nodup⟩
  · exact fun t ht j hj v hv => ⟨j, hj, ht.into j v hv⟩
  · exact fun t v hti hto ht hv => ht.absorb hti hto hv

end

def lacking (uses : Array LocalUses) (s : LiveSets) (j : Nat) : Finset Value :=
  (readValues uses).toFinset \ (s.into j).toFinset

def missing (uses : Array LocalUses) (s : LiveSets) : Nat :=
  ∑ j ∈ Finset.range uses.size, (s.lacking uses j).card

section

variable {uses : Array LocalUses} {i : Nat} {s s' : LiveSets}

theorem Extends.lacking (h : Extends i s s') (j : Nat) : s'.lacking uses j ⊆ s.lacking uses j := by
  intro v hv
  simp only [LiveSets.lacking, Finset.mem_sdiff, List.mem_toFinset] at hv ⊢
  exact ⟨hv.1, fun hmem => hv.2 (h.into j hmem)⟩

theorem Extends.missing_le (h : Extends i s s') : s'.missing uses ≤ s.missing uses :=
  Finset.sum_le_sum fun j _ => Finset.card_le_card (h.lacking j)

/-- When a value of those that are read becomes live into a node, one less is missing. -/
theorem Extends.missing_lt {v : Value} (h : Extends i s s') (hi : i < uses.size)
    (hv : v ∈ readValues uses) (hin : v ∈ s'.into i) (hn : v ∉ s.into i) :
    s'.missing uses < s.missing uses := by
  apply Finset.sum_lt_sum
  · exact fun j _ => Finset.card_le_card (h.lacking j)
  · refine ⟨i, Finset.mem_range.mpr hi, Finset.card_lt_card ⟨h.lacking i, fun hsub => ?_⟩⟩
    have hmem : v ∈ s.lacking uses i := by
      simp only [LiveSets.lacking, Finset.mem_sdiff, List.mem_toFinset]
      exact ⟨hv, hn⟩
    have hmem' := hsub hmem
    simp only [LiveSets.lacking, Finset.mem_sdiff, List.mem_toFinset] at hmem'
    exact hmem'.2 hin

theorem missing_le_mul : s.missing uses ≤ uses.size * Worklist.readCount uses := by
  have hle : ∀ j ∈ Finset.range uses.size, (s.lacking uses j).card ≤ Worklist.readCount uses :=
    fun j _ => (Finset.card_le_card Finset.sdiff_subset).trans (List.toFinset_card_le _)
  simpa [missing] using Finset.sum_le_card_nsmul _ _ _ hle

end

end LiveSets

namespace Worklist

structure Orderly (n : Nat) (w : Worklist) : Prop where
  size : w.queued.size = n
  once : w.queue.Nodup
  marked : ∀ j, j ∈ w.queue ↔ w.queued[j]? = some true

section

variable {n : Nat} {w : Worklist}

theorem Orderly.lt (h : w.Orderly n) {j : Nat} (hj : j ∈ w.queue) : j < n := by
  obtain ⟨hlt, -⟩ := Array.getElem?_eq_some_iff.mp ((h.marked j).mp hj)
  exact hlt.trans_eq h.size

theorem Orderly.length_le (h : w.Orderly n) : w.queue.length ≤ n := by
  have hsub : w.queue ⊆ List.range n := fun j hj => List.mem_range.mpr (h.lt hj)
  simpa using (h.once.subperm hsub).length_le

theorem Orderly.mem_enqueue (h : w.Orderly n) (i j : Nat) :
    j ∈ (w.enqueue i).queue ↔ j ∈ w.queue ∨ j = i ∧ i < n := by
  unfold enqueue
  split
  · rename_i hq
    have hi : i < n := (Array.getElem?_eq_some_iff.mp hq).1.trans_eq h.size
    simp [hi]
  · rename_i hq
    refine ⟨.inl, fun hj => hj.elim id fun ⟨hji, hi⟩ => ?_⟩
    subst hji
    have hi' : j < w.queued.size := hi.trans_eq h.size.symm
    rw [h.marked j, Array.getElem?_eq_getElem hi']
    rw [Array.getElem?_eq_getElem hi'] at hq
    simpa using hq

theorem Orderly.enqueue (h : w.Orderly n) (i : Nat) : (w.enqueue i).Orderly n := by
  unfold Worklist.enqueue
  split
  · rename_i hq
    have hnot : i ∉ w.queue := fun hmem => by simp [(h.marked i).mp hmem] at hq
    have hi : i < w.queued.size := (Array.getElem?_eq_some_iff.mp hq).1
    have hne : ∀ j ∈ w.queue, j ≠ i := fun j hj hji => hnot (hji ▸ hj)
    refine ⟨by simpa using h.size, by simpa [List.nodup_append, h.once] using hne, fun j => ?_⟩
    rw [Array.getElem?_setIfInBounds]
    by_cases hj : i = j
    · subst hj
      simp [hi]
    · simp [hj, Ne.symm hj, h.marked j]
  · exact h

theorem enqueue_sets (i : Nat) : (w.enqueue i).sets = w.sets := by
  unfold enqueue
  split <;> rfl

theorem Orderly.foldl_enqueue (h : w.Orderly n) (ps : List Nat) :
    (ps.foldl Worklist.enqueue w).Orderly n ∧ (ps.foldl Worklist.enqueue w).sets = w.sets ∧
      ∀ j, j ∈ (ps.foldl Worklist.enqueue w).queue ↔ j ∈ w.queue ∨ j ∈ ps ∧ j < n := by
  induction ps generalizing w with
  | nil => simp [h]
  | cons p ps ih =>
    obtain ⟨hord, hsets, hmem⟩ := ih (h.enqueue p)
    refine ⟨hord, hsets.trans (enqueue_sets p), fun j => ?_⟩
    rw [List.foldl_cons, hmem j, h.mem_enqueue p j, List.mem_cons]
    grind

end

section

variable {g : Graph} {uses : Array LocalUses} {w : Worklist} {i : Nat} {queue : List Nat}

def looked (g : Graph) (uses : Array LocalUses) (w : Worklist) (i : Nat) : LiveSets :=
  w.sets.gather g (uses[i]?.getD default).defs i

/-- The node in front of the queue leaves it unmarked. -/
theorem Orderly.pop {n : Nat} (h : w.Orderly n) (hq : w.queue = i :: queue) (sets : LiveSets) :
    Orderly n ⟨sets, queue, w.queued.setIfInBounds i false⟩ := by
  have honce : i ∉ queue ∧ queue.Nodup := List.nodup_cons.mp (hq ▸ h.once)
  refine ⟨by simpa using h.size, honce.2, fun j => ?_⟩
  have hj := h.marked j
  rw [hq, List.mem_cons] at hj
  rw [Array.getElem?_setIfInBounds]
  by_cases hij : i = j
  · subst hij
    simp [honce.1]
  · simpa [hij, Ne.symm hij] using hj

/-- What a look at the node in front of the queue does. Those who wait afterwards have waited
before, or have an edge to the node and more values are live into it. -/
theorem Orderly.step (h : w.Orderly uses.size) (hg : g.size = uses.size)
    (hq : w.queue = i :: queue) :
    (w.step g uses).Orderly uses.size ∧ (w.step g uses).sets = w.looked g uses i ∧
    (∀ j, j ∈ (w.step g uses).queue ↔
      j ∈ queue ∨ (w.looked g uses i).grew = true ∧ j < uses.size ∧ i ∈ g.succs j) ∧
    ((w.looked g uses i).grew = false → (w.step g uses).queue = queue) := by
  have hpop := h.pop hq (w.looked g uses i)
  have hstep : w.step g uses = if (w.looked g uses i).grew then
      (g.preds i).foldl Worklist.enqueue ⟨w.looked g uses i, queue, w.queued.setIfInBounds i false⟩
      else ⟨w.looked g uses i, queue, w.queued.setIfInBounds i false⟩ := by
    unfold Worklist.step
    rw [hq]
    rfl
  rw [hstep]
  cases hgrew : (w.looked g uses i).grew with
  | false => exact ⟨hpop, rfl, by simp, fun _ => rfl⟩
  | true =>
    obtain ⟨hord, hsets, hmem⟩ := hpop.foldl_enqueue (g.preds i)
    refine ⟨hord, hsets, fun j => ?_, fun hf => by simp at hf⟩
    rw [if_pos rfl, hmem j]
    simp only [Graph.preds, List.mem_filter, List.mem_range, List.contains_iff_mem, hg]
    tauto

/-- What holds at every moment. A node that does not wait has taken over all that is live into its
successors. -/
structure Valid (g : Graph) (uses : Array LocalUses) (w : Worklist) : Prop where
  orderly : w.Orderly uses.size
  ins_size : w.sets.ins.size = uses.size
  outs_size : w.sets.outs.size = uses.size
  sound : w.sets.Sound g uses
  settled : ∀ j < uses.size, j ∉ w.queue → ∀ k ∈ g.succs j, ∀ v ∈ w.sets.into k, v ∈ w.sets.outOf j

theorem Valid.extends (h : w.Valid g uses) (hi : i ∈ w.queue) :
    LiveSets.Extends i { w.sets with grew := false } (w.looked g uses i) :=
  LiveSets.gather_extends ((h.orderly.lt hi).trans_eq h.ins_size.symm)
    ((h.orderly.lt hi).trans_eq h.outs_size.symm)

theorem Valid.step (h : w.Valid g uses) (hg : g.size = uses.size) (hq : w.queue = i :: queue) :
    (w.step g uses).Valid g uses := by
  obtain ⟨hord, hsets, hmem, -⟩ := h.orderly.step hg hq
  have hi : i ∈ w.queue := hq ▸ List.mem_cons_self
  have hins : i < w.sets.ins.size := (h.orderly.lt hi).trans_eq h.ins_size.symm
  have houts : i < w.sets.outs.size := (h.orderly.lt hi).trans_eq h.outs_size.symm
  have hext := h.extends hi
  refine ⟨hord, ?_, ?_, ?_, fun j hj hnot k hk v hv => ?_⟩
  · exact (congrArg (·.ins.size) hsets).trans (hext.ins_size.trans h.ins_size)
  · exact (congrArg (·.outs.size) hsets).trans (hext.outs_size.trans h.outs_size)
  · rw [hsets]
    exact h.sound.gather hins houts
  · rw [hsets] at hv ⊢
    rw [hmem j] at hnot
    -- had more become live into `i` and had `j` an edge to it, then `j` would wait
    have hkept : (w.looked g uses i).into k = w.sets.into k := by
      by_cases hki : k = i
      · subst hki
        have hstill : (w.looked g uses k).grew = false := by
          by_contra hgrew
          exact hnot (.inr ⟨Bool.eq_true_of_not_eq_false hgrew, hj, hk⟩)
        unfold LiveSets.into
        rw [hext.still hstill]
      · exact hext.into_other k hki
    rw [hkept] at hv
    by_cases hji : j = i
    · subst hji
      exact LiveSets.gather_outOf hins houts k hk v hv
    · have hwait : j ∉ w.queue := by
        rw [hq, List.mem_cons]
        exact fun hor => hor.elim hji fun hin => hnot (.inl hin)
      exact hext.outOf j (h.settled j hj hwait k hk v hv)

def potential (uses : Array LocalUses) (w : Worklist) : Nat :=
  -- a value that becomes live may let every node wait again
  (uses.size + 1) * w.sets.missing uses + w.queue.length

theorem Valid.potential_step (h : w.Valid g uses) (hg : g.size = uses.size)
    (hq : w.queue = i :: queue) : (w.step g uses).potential uses < w.potential uses := by
  obtain ⟨hord, hsets, -, hqueue⟩ := h.orderly.step hg hq
  have hi : i ∈ w.queue := hq ▸ List.mem_cons_self
  have hext := h.extends hi
  have hlen : w.queue.length = queue.length + 1 := by simp [hq]
  unfold potential
  rw [hsets]
  cases hgrew : (w.looked g uses i).grew with
  | false =>
    have hle : (w.looked g uses i).missing uses ≤ w.sets.missing uses := hext.missing_le
    rw [hqueue hgrew, hlen]
    have hmul := Nat.mul_le_mul_left (uses.size + 1) hle
    omega
  | true =>
    obtain hfalse | ⟨v, hin, hn⟩ := hext.grown hgrew
    · simp at hfalse
    · have hlive : v ∈ readValues uses := by
        have hsound := (h.step hg hq).sound
        rw [hsets] at hsound
        exact (hsound.into i v hin).mem_readValues
      have hlt : (w.looked g uses i).missing uses < w.sets.missing uses :=
        hext.missing_lt (h.orderly.lt hi) hlive hin hn
      have hmul := Nat.mul_le_mul_left (uses.size + 1) (Nat.succ_le_of_lt hlt)
      have hwait := hord.length_le
      rw [Nat.mul_succ] at hmul
      omega

/-- Enough fuel runs the queue empty. -/
theorem Valid.drain (hg : g.size = uses.size) (fuel : Nat) :
    ∀ {w : Worklist}, w.Valid g uses → w.potential uses ≤ fuel →
      (drain g uses fuel w).Valid g uses ∧ (drain g uses fuel w).queue = [] := by
  induction fuel with
  | zero =>
    intro w h hfuel
    have hlen : w.queue.length = 0 := by
      unfold potential at hfuel
      omega
    exact ⟨h, List.length_eq_zero_iff.mp hlen⟩
  | succ fuel ih =>
    intro w h hfuel
    cases hq : w.queue with
    | nil => simpa [Worklist.drain, hq] using h
    | cons i queue =>
      have hrun : Worklist.drain g uses (fuel + 1) w =
          Worklist.drain g uses fuel (w.step g uses) := by
        simp [Worklist.drain, hq]
      rw [hrun]
      exact ih (h.step hg hq) (by have := h.potential_step hg hq; omega)

theorem valid_start (hnodup : ∀ u ∈ uses, u.reads.Nodup) : (start uses).Valid g uses := by
  have hinto (j : Nat) : (start uses).sets.into j = (uses[j]?.getD default).reads := by
    unfold start LiveSets.into
    cases hu : uses[j]? with
    | none =>
      simp only [Array.getElem?_map, hu, Option.map_none, Option.getD_none]
      rfl
    | some u => simp [hu]
  have hout (j : Nat) : (start uses).sets.outOf j = [] := by
    unfold start LiveSets.outOf
    cases hu : uses[j]? <;> simp [hu]
  refine ⟨⟨by simp [start], ?_, fun j => ?_⟩, by simp [start], by simp [start],
    ⟨?_, ?_, ?_, ?_, ?_, ?_⟩, fun j hj hnot => ?_⟩
  · simpa [start] using List.nodup_range
  · simp [start, Array.getElem?_eq_some_iff]
  · exact fun j v hv => .read (hinto j ▸ hv)
  · exact fun j v hv => absurd hv (by simp [hout])
  · exact fun j v hv => hinto j ▸ hv
  · exact fun j v hv => absurd hv (by simp [hout])
  · intro j
    rw [hinto]
    cases hu : uses[j]? with
    | none => exact List.nodup_nil
    | some u => exact hnodup u (Array.mem_of_getElem? hu)
  · simp [hout]
  · simp [start, hj] at hnot

theorem potential_start_le :
    (start uses).potential uses ≤ (uses.size + 1) * (uses.size * readCount uses + 1) := by
  have hmissing : (start uses).sets.missing uses ≤ uses.size * readCount uses :=
    LiveSets.missing_le_mul
  have hmul := Nat.mul_le_mul_left (uses.size + 1) hmissing
  have hlen : (start uses).queue.length = uses.size := by simp [start]
  unfold potential
  rw [hlen, Nat.mul_add]
  omega

theorem solve_valid (hg : g.size = uses.size) (hnodup : ∀ u ∈ uses, u.reads.Nodup) :
    (solve g uses).Valid g uses ∧ (solve g uses).queue = [] :=
  Valid.drain hg _ (valid_start hnodup) potential_start_le

/-- When nobody waits, the values live into a node are the ones that were found. -/
theorem Valid.mem_into_iff (h : w.Valid g uses) (hq : w.queue = [])
    (hclosed : ∀ i < uses.size, ∀ j ∈ g.succs i, j < uses.size) {i : Nat} (hi : i < uses.size)
    (v : Value) : v ∈ w.sets.into i ↔ Live g uses i v := by
  refine ⟨h.sound.into i v, fun hlive => ?_⟩
  induction hlive with
  | read hv => exact h.sound.reads _ _ hv
  | @pass i j v hj _ hd ih =>
    have hout : v ∈ w.sets.outOf i :=
      h.settled i hi (by simp [hq]) j hj v (ih (hclosed i hi j hj))
    exact (h.sound.through i v hout).resolve_left hd

theorem Valid.mem_outOf_iff (h : w.Valid g uses) (hq : w.queue = [])
    (hclosed : ∀ i < uses.size, ∀ j ∈ g.succs i, j < uses.size) {i : Nat} (hi : i < uses.size)
    (v : Value) : v ∈ w.sets.outOf i ↔ ∃ j ∈ g.succs i, v ∈ w.sets.into j := by
  constructor
  · intro hv
    obtain ⟨j, hj, hlive⟩ := h.sound.outOf i v hv
    exact ⟨j, hj, (h.mem_into_iff hq hclosed (hclosed i hi j hj) v).mpr hlive⟩
  · rintro ⟨j, hj, hv⟩
    exact h.settled i hi (by simp [hq]) j hj v hv

end

end Worklist

end ShaderIR
