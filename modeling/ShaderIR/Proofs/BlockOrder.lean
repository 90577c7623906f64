import Mathlib.Data.Finset.Card
import Mathlib.Data.List.Nodup
import ShaderIR.Chart
import ShaderIR.Proofs.Dominance

/-!
# The order of blocks along the dominator tree

The blocks that can be reached form a tree below the entry: each of them but the entry hangs below
the one block that dominates it immediately. So two blocks that dominate the same block dominate one
another, the trees below two siblings have no block in common, and going down from the entry ends.
The walk with a stack meets every block that can be reached once, in the order of the recursive walk
through the tree. The chart lists the other blocks behind them.
-/

set_option autoImplicit false

namespace ShaderIR

namespace Body

def below (b : Body) (k : BlockId) : List BlockId :=
  (b.blocks[k]?.map Block.domChildren).getD []

/-- Paths tell the same about immediate dominators as the blocks do, and below each block stand
those that it dominates immediately, in their layout. -/
structure DominanceCorrect (b : Body) : Prop where
  idom : ∀ k ∈ b.layout, ∀ d,
    (b.blocks[k]?.bind Block.idom = some d ↔ b.Reachable k ∧ b.ImmediatelyDominates d k)
  children : ∀ k ∈ b.layout,
    b.below k = b.layout.toList.filter fun j => b.blocks[j]?.bind Block.idom = some k

structure Children (b : Body) (k : BlockId) (ks : List BlockId) : Prop where
  sublist : ks.Sublist b.layout.toList
  mem : ∀ j, j ∈ ks ↔ b.Reachable j ∧ b.ImmediatelyDominates k j

inductive TreeOrder (b : Body) : List BlockId → List BlockId → Prop
  | nil : TreeOrder b [] []
  | cons {k : BlockId} {ks children inner rest : List BlockId} (hc : b.Children k children)
      (hi : TreeOrder b children inner) (hr : TreeOrder b ks rest) :
      TreeOrder b (k :: ks) (k :: inner ++ rest)

/-- The blocks that can be reached, each of them once and in the preorder of the dominator tree.
Every block stands behind its dominators, and the blocks that one block dominates stand together. -/
structure DominatorOrder (b : Body) (order : List BlockId) : Prop where
  preorder : b.TreeOrder b.layout[0]?.toList order
  entry : order.head? = b.layout[0]?
  nodup : order.Nodup
  mem : ∀ k, k ∈ order ↔ b.Reachable k
  behind : ∀ d k, b.Reachable k → b.Dominates d k → d ≠ k → [d, k].Sublist order
  contiguous : ∀ d, b.Reachable d → ∃ subtree, subtree <:+: order ∧
    ∀ k, k ∈ subtree ↔ b.Reachable k ∧ b.Dominates d k

section

variable {b : Body} {d e k : BlockId}

theorem Dominates.refl (b : Body) (k : BlockId) : b.Dominates k k := fun _ h => h.mem

theorem Dominates.trans (h : b.Dominates d e) (h' : b.Dominates e k) : b.Dominates d k := by
  intro path hpath
  obtain ⟨pre, post, rfl⟩ := List.append_of_mem (h' path hpath)
  rcases List.mem_append.mp (h _ hpath.cut) with hmem | hmem
  · exact List.mem_append_left _ hmem
  · rw [List.mem_singleton.mp hmem]
    simp

/-- What goes over from an immediate dominator to a block holds of every block that can be reached.
The immediate dominator stands on each path to the block, so a shorter path leads to it. -/
theorem Reachable.climb {P : BlockId → Prop} (hk : b.Reachable k)
    (hstep : ∀ k, b.Reachable k → (∀ d, b.ImmediatelyDominates d k → P d) → P k) : P k := by
  have hall : ∀ n, ∀ path k, path.length = n → b.Leads path k → P k := by
    intro n
    induction n using Nat.strongRecOn with
    | _ n ih =>
      intro path k hlen hpath
      refine hstep k ⟨path, hpath⟩ fun d hd => ?_
      obtain ⟨pre, post, rfl⟩ := List.append_of_mem (hd.dominates path hpath)
      have hpost : post ≠ [] := by
        rintro rfl
        have hlast := hpath.last
        rw [List.getLast?_concat] at hlast
        exact hd.ne (Option.some.inj hlast)
      have hlt : (pre ++ [d]).length < n := by
        have := List.length_pos_iff.mpr hpost
        simp only [List.length_append, List.length_cons, List.length_nil] at hlen ⊢
        omega
      exact ih _ hlt _ d rfl hpath.cut
  obtain ⟨path, hpath⟩ := hk
  exact hall _ path k rfl hpath

/-- A block that dominates another one dominates the immediate dominator of that one. -/
theorem Dominates.exists_immediate (h : b.Dominates d k) (hk : b.Reachable k) (hne : d ≠ k) :
    ∃ i, b.ImmediatelyDominates i k ∧ b.Dominates d i := by
  have hentry : b.layout[0]? ≠ some k := by
    intro he
    exact hne (List.mem_singleton.mp (h _ (.entry he)))
  obtain ⟨i, hi⟩ := exists_immediatelyDominates hk hentry
  refine ⟨i, hi, ?_⟩
  by_cases hdi : d = i
  · exact hdi ▸ Dominates.refl b d
  · exact hi.last d hne hdi h

/-- Of two blocks that dominate a block one dominates the other. -/
theorem Dominates.comparable (hk : b.Reachable k) :
    b.Dominates d k → b.Dominates e k → b.Dominates d e ∨ b.Dominates e d := by
  apply hk.climb (P := fun k => b.Dominates d k → b.Dominates e k →
    b.Dominates d e ∨ b.Dominates e d)
  intro k hk ih hd he
  by_cases hdk : d = k
  · exact .inr (hdk ▸ he)
  · by_cases hek : e = k
    · exact .inl (hek ▸ hd)
    · obtain ⟨i, hi, hdi⟩ := hd.exists_immediate hk hdk
      obtain ⟨i', hi', hei⟩ := he.exists_immediate hk hek
      obtain rfl := hi.unique hi' hk
      exact ih i hi hdi hei

/-- Neither of two blocks with the same immediate dominator dominates the other. -/
theorem ImmediatelyDominates.independent (hd : b.ImmediatelyDominates k d)
    (he : b.ImmediatelyDominates k e) (hr : b.Reachable d) (hne : d ≠ e) : ¬ b.Dominates d e := by
  intro hde
  have hdk : b.Dominates d k := he.last d hne (Ne.symm hd.ne) hde
  exact hd.ne (hd.dominates.antisymm hdk (hd.dominates.reachable hr))

end

theorem Children.unique {b : Body} (hn : b.layout.toList.Nodup) {k : BlockId}
    {ks ks' : List BlockId} (h : b.Children k ks) (h' : b.Children k ks') : ks = ks' := by
  refine (hn.perm_iff_eq_of_sublist h.sublist h'.sublist).mp ?_
  rw [List.perm_ext_iff_of_nodup (h.sublist.nodup hn) (h'.sublist.nodup hn)]
  exact fun j => (h.mem j).trans (h'.mem j).symm

namespace TreeOrder

variable {b : Body} {ks order : List BlockId}

theorem unique (hn : b.layout.toList.Nodup) (h : b.TreeOrder ks order) :
    ∀ {order'}, b.TreeOrder ks order' → order = order' := by
  induction h with
  | nil =>
    intro order' h'
    cases h'
    rfl
  | cons hc _ _ ihi ihr =>
    intro order' h'
    cases h' with
    | cons hc' hi' hr' =>
      obtain rfl := hc.unique hn hc'
      rw [ihi hi', ihr hr']

theorem append {ks' order' : List BlockId} (h : b.TreeOrder ks order) (h' : b.TreeOrder ks' order') :
    b.TreeOrder (ks ++ ks') (order ++ order') := by
  induction h with
  | nil => exact h'
  | cons hc hi _ _ ihr =>
    rw [List.cons_append, List.append_assoc]
    exact .cons hc hi ihr

theorem roots (h : b.TreeOrder ks order) : ∀ k ∈ ks, k ∈ order := by
  induction h with
  | nil => exact fun k hk => hk
  | cons _ _ _ _ ihr =>
    intro j hj
    rcases List.mem_cons.mp hj with rfl | hj
    · simp
    · simp [ihr j hj]

theorem children (h : b.TreeOrder ks order) {d k : BlockId} (hd : d ∈ order) (hk : b.Reachable k)
    (hi : b.ImmediatelyDominates d k) : k ∈ order := by
  induction h with
  | nil => exact absurd hd List.not_mem_nil
  | cons hc hinner _ ihi ihr =>
    simp only [List.cons_append, List.mem_cons, List.mem_append] at hd ⊢
    rcases hd with rfl | hd | hd
    · exact .inr (.inl (hinner.roots k ((hc.mem k).mpr ⟨hk, hi⟩)))
    · exact .inr (.inl (ihi hd))
    · exact .inr (.inr (ihr hd))

/-- The walk meets exactly the blocks that the roots dominate. -/
theorem mem_iff (h : b.TreeOrder ks order) (hks : ∀ k ∈ ks, b.Reachable k) (j : BlockId) :
    j ∈ order ↔ b.Reachable j ∧ ∃ k ∈ ks, b.Dominates k j := by
  constructor
  · intro hj
    induction h with
    | nil => exact absurd hj List.not_mem_nil
    | @cons k ks children inner rest hc _ _ ihi ihr =>
      simp only [List.cons_append, List.mem_cons, List.mem_append] at hj
      rcases hj with rfl | hj | hj
      · exact ⟨hks j (.head _), j, .head _, .refl b j⟩
      · obtain ⟨hr, c, hcmem, hcj⟩ := ihi (fun c hcmem => ((hc.mem c).mp hcmem).1) hj
        exact ⟨hr, k, .head _, ((hc.mem c).mp hcmem).2.dominates.trans hcj⟩
      · obtain ⟨hr, k', hk', hdom⟩ := ihr (fun k' hk' => hks k' (.tail _ hk')) hj
        exact ⟨hr, k', .tail _ hk', hdom⟩
  · rintro ⟨hj, k, hk, hdom⟩
    revert hdom
    apply hj.climb (P := fun j => b.Dominates k j → j ∈ order)
    intro j hj ih hdom
    by_cases hkj : k = j
    · exact hkj ▸ h.roots k hk
    · obtain ⟨i, hi, hki⟩ := hdom.exists_immediate hj hkj
      exact h.children (ih i hi hki) hj hi

theorem nodup (hn : b.layout.toList.Nodup) (h : b.TreeOrder ks order)
    (hks : ∀ k ∈ ks, b.Reachable k)
    (hind : ks.Pairwise fun k k' => ¬ b.Dominates k k' ∧ ¬ b.Dominates k' k) : order.Nodup := by
  induction h with
  | nil => exact List.nodup_nil
  | @cons k ks children inner rest hc hi hr ihi ihr =>
    have hchildren : ∀ c ∈ children, b.Reachable c := fun c hcmem => ((hc.mem c).mp hcmem).1
    have hrest : ∀ k' ∈ ks, b.Reachable k' := fun k' hk' => hks k' (.tail _ hk')
    obtain ⟨hroot, hind⟩ := List.pairwise_cons.mp hind
    have hinner : inner.Nodup := by
      refine ihi hchildren ((hc.sublist.nodup hn).imp_of_mem fun {c c'} hcm hcm' hne => ?_)
      obtain ⟨hr, himm⟩ := (hc.mem c).mp hcm
      obtain ⟨hr', himm'⟩ := (hc.mem c').mp hcm'
      exact ⟨himm.independent himm' hr hne, himm'.independent himm hr' hne.symm⟩
    -- whatever is met below `k` is dominated by `k` and is another block
    have hbelow : ∀ j ∈ inner, b.Reachable j ∧ b.Dominates k j ∧ j ≠ k := by
      intro j hj
      obtain ⟨hjr, c, hcm, hcj⟩ := (hi.mem_iff hchildren j).mp hj
      obtain ⟨hcr, himm⟩ := (hc.mem c).mp hcm
      refine ⟨hjr, himm.dominates.trans hcj, fun hjk => ?_⟩
      exact himm.ne (himm.dominates.antisymm (hjk ▸ hcj) (hks k (.head _)))
    have hapart : ∀ j, b.Dominates k j → j ∉ rest := by
      intro j hkj hj
      obtain ⟨hjr, k', hk', hdom⟩ := (hr.mem_iff hrest j).mp hj
      rcases Dominates.comparable hjr hkj hdom with hc | hc
      · exact (hroot k' hk').1 hc
      · exact (hroot k' hk').2 hc
    rw [List.cons_append, List.nodup_cons, List.nodup_append]
    refine ⟨fun hmem => ?_, hinner, ihr hrest hind, fun j hj j' hj' heq => ?_⟩
    · rcases List.mem_append.mp hmem with hmem | hmem
      · exact (hbelow k hmem).2.2 rfl
      · exact hapart k (.refl b k) hmem
    · exact hapart j (hbelow j hj).2.1 (heq ▸ hj')

/-- The walk of each block that is met stands in one piece. -/
theorem exists_infix (h : b.TreeOrder ks order) {d : BlockId} (hd : d ∈ order) :
    ∃ inner, b.TreeOrder [d] (d :: inner) ∧ (d :: inner) <:+: order := by
  induction h with
  | nil => exact absurd hd List.not_mem_nil
  | @cons k ks children inner rest hc hi hr ihi ihr =>
    simp only [List.cons_append, List.mem_cons, List.mem_append] at hd
    rcases hd with rfl | hd | hd
    · refine ⟨inner, ?_, List.infix_append' [] _ rest⟩
      have htree := TreeOrder.cons hc hi .nil
      rwa [List.append_nil] at htree
    · obtain ⟨below, htree, hin⟩ := ihi hd
      refine ⟨below, htree, hin.trans ?_⟩
      exact ⟨[k], rest, by simp⟩
    · obtain ⟨below, htree, hin⟩ := ihr hd
      exact ⟨below, htree, hin.trans (List.suffix_append _ rest).isInfix⟩

end TreeOrder

theorem preorderFrom_nil (b : Body) (n : Nat) : preorderFrom b n [] = [] := by
  cases n <;> rfl

theorem preorderFrom_cons (b : Body) (n : Nat) (k : BlockId) (stack : List BlockId) :
    preorderFrom b (n + 1) (k :: stack) = k :: preorderFrom b n (b.below k ++ stack) := by
  cases h : b.blocks[k]? <;> simp [preorderFrom, below, h]

/-- The walk from these blocks on top of any stack lists their trees in preorder and goes on with
the stack, if it has steps enough. -/
def Lists (b : Body) (ks : List BlockId) : Prop :=
  ∃ order, b.TreeOrder ks order ∧ ∀ n stack,
    preorderFrom b (order.length + n) (ks ++ stack) = order ++ preorderFrom b n stack

section

variable {b : Body} {k : BlockId}

theorem lists_nil (b : Body) : b.Lists [] := ⟨[], .nil, fun n stack => by simp⟩

theorem Lists.cons {ks : List BlockId} (h : b.Lists [k]) (hs : b.Lists ks) : b.Lists (k :: ks) := by
  obtain ⟨order, ht, hrun⟩ := h
  obtain ⟨order', ht', hrun'⟩ := hs
  refine ⟨order ++ order', ht.append ht', fun n stack => ?_⟩
  rw [List.length_append, Nat.add_assoc]
  calc preorderFrom b (order.length + (order'.length + n)) ([k] ++ (ks ++ stack))
      = order ++ preorderFrom b (order'.length + n) (ks ++ stack) := hrun _ _
    _ = order ++ (order' ++ preorderFrom b n stack) := by rw [hrun']
    _ = order ++ order' ++ preorderFrom b n stack := (List.append_assoc ..).symm

/-- A step puts the children of a block in its place. -/
theorem Lists.root (hc : b.Children k (b.below k)) (h : b.Lists (b.below k)) : b.Lists [k] := by
  obtain ⟨inner, ht, hrun⟩ := h
  refine ⟨k :: inner ++ [], .cons hc ht .nil, fun n stack => ?_⟩
  have hlen : (k :: inner ++ []).length + n = inner.length + n + 1 := by
    simp only [List.append_nil, List.length_cons]
    omega
  rw [hlen, List.singleton_append, preorderFrom_cons, hrun]
  simp

theorem DominanceCorrect.below (h : b.DominanceCorrect) (hk : k ∈ b.layout) :
    b.Children k (b.below k) := by
  rw [h.children k hk]
  refine ⟨List.filter_sublist, fun j => ?_⟩
  rw [List.mem_filter, Array.mem_toList_iff, decide_eq_true_eq]
  constructor
  · exact fun ⟨hj, hidom⟩ => (h.idom j hj k).mp hidom
  · rintro ⟨⟨path, hpath⟩, hi⟩
    have hj : j ∈ b.layout := hpath.mem_layout hpath.mem
    exact ⟨hj, (h.idom j hj k).mpr ⟨⟨path, hpath⟩, hi⟩⟩

open Classical in
noncomputable def dominatedBlocks (b : Body) (k : BlockId) : Finset BlockId :=
  b.layout.toList.toFinset.filter fun j => b.Reachable j ∧ b.Dominates k j

theorem ImmediatelyDominates.dominatedBlocks_lt {c : BlockId} (h : b.ImmediatelyDominates k c)
    (hc : b.Reachable c) : (b.dominatedBlocks c).card < (b.dominatedBlocks k).card := by
  have hk : b.Reachable k := h.dominates.reachable hc
  have hmem : k ∈ b.layout := h.dominates.mem_layout hc
  refine Finset.card_lt_card ⟨fun j hj => ?_, fun hsub => ?_⟩
  · simp only [dominatedBlocks, Finset.mem_filter] at hj ⊢
    exact ⟨hj.1, hj.2.1, h.dominates.trans hj.2.2⟩
  · have hin : k ∈ b.dominatedBlocks k := by
      simp only [dominatedBlocks, Finset.mem_filter, List.mem_toFinset, Array.mem_toList_iff]
      exact ⟨hmem, hk, .refl b k⟩
    have hck := hsub hin
    simp only [dominatedBlocks, Finset.mem_filter] at hck
    exact h.ne (h.dominates.antisymm hck.2.2 hk)

/-- The walk from a block that can be reached comes to an end and lists its tree. -/
theorem DominanceCorrect.lists (h : b.DominanceCorrect) (hk : b.Reachable k) : b.Lists [k] := by
  -- the number of dominated blocks falls from a block to its children
  induction hn : (b.dominatedBlocks k).card using Nat.strongRecOn generalizing k with
  | _ n ih =>
    obtain ⟨path, hpath⟩ := hk
    have hc := h.below (hpath.mem_layout hpath.mem)
    have hchildren : ∀ ks : List BlockId, (∀ c ∈ ks, c ∈ b.below k) → b.Lists ks := by
      intro ks hks
      induction ks with
      | nil => exact lists_nil b
      | cons c ks ihks =>
        obtain ⟨hr, himm⟩ := (hc.mem c).mp (hks c (.head _))
        have hlt := himm.dominatedBlocks_lt hr
        exact (ih _ (hn ▸ hlt) hr rfl).cons (ihks fun c' hc' => hks c' (.tail _ hc'))
    exact .root hc (hchildren _ fun _ hc => hc)

end

section

variable {b : Body}

theorem TreeOrder.dominatorOrder (hn : b.layout.toList.Nodup) {order : List BlockId}
    (h : b.TreeOrder b.layout[0]?.toList order) : b.DominatorOrder order := by
  have hroots : ∀ k ∈ b.layout[0]?.toList, b.Reachable k := by
    intro k hk
    exact ⟨[k], .entry (Option.mem_toList.mp hk)⟩
  have hmem (k : BlockId) : k ∈ order ↔ b.Reachable k := by
    rw [h.mem_iff hroots k, and_iff_left_iff_imp]
    rintro ⟨path, hpath⟩
    obtain ⟨e, he⟩ : ∃ e, b.layout[0]? = some e := by
      rw [← hpath.head]
      exact ⟨_, List.head?_eq_some_head (List.ne_nil_of_mem hpath.mem)⟩
    exact ⟨e, by simp [he], entry_dominates he k⟩
  have hsubtree (d : BlockId) (hd : b.Reachable d) : ∃ inner, (d :: inner) <:+: order ∧
      ∀ k, k ∈ d :: inner ↔ b.Reachable k ∧ b.Dominates d k := by
    obtain ⟨inner, htree, hin⟩ := h.exists_infix ((hmem d).mpr hd)
    refine ⟨inner, hin, fun k => ?_⟩
    rw [htree.mem_iff (by simpa using hd) k]
    simp
  refine ⟨h, ?_, ?_, hmem, fun d k hk hdom hne => ?_, fun d hd => ?_⟩
  · cases he : b.layout[0]? with
    | none =>
      rw [he] at h
      cases h
      rfl
    | some e =>
      rw [he] at h
      cases h
      rfl
  · refine h.nodup hn hroots ?_
    cases b.layout[0]? with
    | none => exact .nil
    | some e => exact List.pairwise_singleton _ e
  · obtain ⟨inner, hin, hiff⟩ := hsubtree d (hdom.reachable hk)
    have hmem : k ∈ inner := by
      rcases List.mem_cons.mp ((hiff k).mpr ⟨hk, hdom⟩) with hkd | hmem
      · exact absurd hkd.symm hne
      · exact hmem
    exact ((List.singleton_sublist.mpr hmem).cons_cons d).trans hin.sublist
  · obtain ⟨inner, hin, hiff⟩ := hsubtree d hd
    exact ⟨d :: inner, hin, hiff⟩

theorem DominatorOrder.length_le {order : List BlockId} (h : b.DominatorOrder order) :
    order.length ≤ b.layout.size := by
  have hsub : order ⊆ b.layout.toList := by
    intro k hk
    obtain ⟨path, hpath⟩ := (h.mem k).mp hk
    exact Array.mem_toList_iff.mpr (hpath.mem_layout hpath.mem)
  simpa using (h.nodup.subperm hsub).length_le

/-- The walk is at its end when it has taken one step for each block of the layout. -/
theorem DominanceCorrect.preorder (h : b.DominanceCorrect) (hn : b.layout.toList.Nodup) :
    b.DominatorOrder b.dominancePreorder ∧ ∀ n, b.layout.size ≤ n →
      preorderFrom b n b.layout[0]?.toList = b.dominancePreorder := by
  have hlists : b.Lists b.layout[0]?.toList := by
    cases he : b.layout[0]? with
    | none => exact lists_nil b
    | some e => exact h.lists ⟨[e], .entry he⟩
  obtain ⟨order, htree, hrun⟩ := hlists
  have horder := htree.dominatorOrder hn
  have hall (n : Nat) (hle : b.layout.size ≤ n) :
      preorderFrom b n b.layout[0]?.toList = order := by
    have hrun := hrun (n - order.length) []
    have hlen := horder.length_le
    rwa [Nat.add_sub_cancel' (hlen.trans hle), List.append_nil, preorderFrom_nil,
      List.append_nil] at hrun
  have hself : b.dominancePreorder = order := hall _ (Nat.le_refl _)
  rw [hself]
  exact ⟨horder, hall⟩

/-- The chart puts the blocks that cannot be reached behind the others. -/
theorem DominatorOrder.blockOrder (h : b.DominatorOrder b.dominancePreorder)
    (hn : b.layout.toList.Nodup) :
    ∃ rest, Chart.blockOrder b = b.dominancePreorder ++ rest ∧ rest.Sublist b.layout.toList ∧
      (∀ k, k ∈ rest ↔ k ∈ b.layout ∧ ¬ b.Reachable k) ∧
      (Chart.blockOrder b).Perm b.layout.toList := by
  have hrest (k : BlockId) :
      k ∈ b.layout.toList.filter (fun id => !b.dominancePreorder.contains id) ↔
        k ∈ b.layout ∧ ¬ b.Reachable k := by
    simp [h.mem]
  refine ⟨_, rfl, List.filter_sublist, hrest, ?_⟩
  rw [List.perm_ext_iff_of_nodup _ hn]
  · intro k
    rw [Chart.blockOrder, List.mem_append, h.mem, hrest, Array.mem_toList_iff]
    constructor
    · rintro (⟨path, hpath⟩ | ⟨hk, -⟩)
      · exact hpath.mem_layout hpath.mem
      · exact hk
    · exact fun hk => (em (b.Reachable k)).imp_right fun hr => ⟨hk, hr⟩
  · refine List.nodup_append.mpr ⟨h.nodup, hn.filter _, fun k hk k' hk' heq => ?_⟩
    exact ((hrest k').mp hk').2 (heq ▸ (h.mem k).mp hk)

end

section

variable {b : Body}

/-- What is computed for blocks that carry their places is what paths tell. -/
theorem DominanceCurrent.correct (h : b.DominanceCurrent) (hi : b.Indexed) (hc : b.Closed) :
    b.DominanceCorrect := by
  have hstored (i : Nat) (k : BlockId) (hk : b.layout[i]? = some k) :
      b.blocks[k]?.bind Block.idom = (b.dominanceAt i).1 := by
    obtain ⟨blk, hblk, hidom, -⟩ := h.exists_block hk
    rw [hblk, Option.bind_some, hidom]
  refine ⟨fun k hk d => ?_, fun k hk => ?_⟩
  · obtain ⟨i, hplace⟩ := Array.mem_iff_getElem?.mp hk
    rw [hstored i k hplace, dominanceAt_idom hi hc hplace]
  · obtain ⟨i, hplace⟩ := Array.mem_iff_getElem?.mp hk
    obtain ⟨blk, hblk, -, hchildren⟩ := h.exists_block hplace
    rw [Body.below, hblk, Option.map_some, Option.getD_some, hchildren,
      hi.dominanceAt_children hplace _ hstored]

theorem require_dominance_of_valid (hv : b.valid.dominance = true) :
    b.require ⟨false, true, false⟩ = b := by
  simp [Body.require, Analyses.diff, Analyses.none, hv]

/-- Dominance that is asked for is correct, whether it was there or not. -/
theorem dominanceCorrect_require (hd : b.valid.dominance = true → b.DominanceCorrect)
    (hm : b.valid.dominance = false → b.Charted) :
    (b.require ⟨false, true, false⟩).DominanceCorrect := by
  cases hv : b.valid.dominance with
  | true =>
    rw [require_dominance_of_valid hv]
    exact hd hv
  | false =>
    obtain ⟨hi, hc, hcurrent⟩ := @Charted.require b (hm hv) ⟨false, true, false⟩ rfl hv
    exact hcurrent.correct hi hc

theorem TreeOrder.congr {c : Body} (hs : SameCode b c) {ks order : List BlockId}
    (h : c.TreeOrder ks order) : b.TreeOrder ks order := by
  obtain ⟨hreach, himm⟩ := dominance_of_sameCode hs
  induction h with
  | nil => exact .nil
  | cons hc _ _ ihi ihr =>
    refine .cons ⟨hs.layout ▸ hc.sublist, fun j => ?_⟩ ihi ihr
    rw [hc.mem j, hreach, himm]

/-- Blocks are listed along the dominator tree. Where the dominance on the blocks is correct, the
walk ends with the preorder of the tree. The chart, which computes dominance unless it is valid,
lists each block once: in this order, and behind it those that cannot be reached. -/
theorem blocks_in_dominator_order (hn : b.layout.toList.Nodup)
    (hd : b.valid.dominance = true → b.DominanceCorrect)
    (hm : b.valid.dominance = false → b.Charted) :
    (b.DominanceCorrect → b.DominatorOrder b.dominancePreorder ∧ ∀ n, b.layout.size ≤ n →
      preorderFrom b n b.layout[0]?.toList = b.dominancePreorder) ∧
    ∃ order rest, b.DominatorOrder order ∧
      (b.DominanceCorrect → order = b.dominancePreorder) ∧
      Chart.blockOrder (b.require ⟨false, true, false⟩) = order ++ rest ∧
      rest.Sublist b.layout.toList ∧ (∀ k, k ∈ rest ↔ k ∈ b.layout ∧ ¬ b.Reachable k) ∧
      (Chart.blockOrder (b.require ⟨false, true, false⟩)).Perm b.layout.toList := by
  refine ⟨fun hcorrect => hcorrect.preorder hn, ?_⟩
  have hs : SameCode b (b.require ⟨false, true, false⟩) := .require b _
  have hn' : (b.require ⟨false, true, false⟩).layout.toList.Nodup := hs.layout.symm ▸ hn
  obtain ⟨horder, -⟩ := (dominanceCorrect_require hd hm).preorder hn'
  obtain ⟨rest, heq, hsub, hmem, hperm⟩ := horder.blockOrder hn'
  have htree : b.TreeOrder b.layout[0]?.toList
      (b.require ⟨false, true, false⟩).dominancePreorder := by
    have htree := horder.preorder.congr hs
    rwa [hs.layout] at htree
  rw [hs.layout] at hsub hmem hperm
  rw [(dominance_of_sameCode hs).1] at hmem
  refine ⟨_, rest, htree.dominatorOrder hn, fun hcorrect => ?_, heq, hsub, hmem, hperm⟩
  exact htree.unique hn (hcorrect.preorder hn).1.preorder

/-- Dominance is computed on the crossing. The three blocks below the entry come in their layout,
the exit right behind the block where both ways meet, and the block apart at the end. -/
theorem crossing_order :
    let c := crossing.require ⟨false, true, false⟩
    c.valid.dominance = true ∧ c.DominanceCorrect ∧ c.DominatorOrder [3, 1, 2, 4, 0] ∧
      Chart.blockOrder (c.require ⟨false, true, false⟩) = [3, 1, 2, 4, 0, 5] ∧
      (Chart.blockOrder (c.require ⟨false, true, false⟩)).Perm [3, 1, 2, 4, 5, 0] := by
  intro c
  have hcharted : crossing.Charted :=
    ⟨by decide +kernel, by decide +kernel, by decide +kernel, fun hv => by cases hv⟩
  have hcorrect : c.DominanceCorrect :=
    dominanceCorrect_require (fun hv => by cases hv) fun _ => hcharted
  have hwalk : c.dominancePreorder = [3, 1, 2, 4, 0] := by decide +kernel
  obtain ⟨hpre, order, rest, -, -, -, -, -, hperm⟩ :=
    @blocks_in_dominator_order c (by decide +kernel) (fun _ => hcorrect) fun hv => by cases hv
  refine ⟨rfl, hcorrect, ?_, by decide +kernel, hperm⟩
  rw [← hwalk]
  exact (hpre hcorrect).1

end

end Body

end ShaderIR
