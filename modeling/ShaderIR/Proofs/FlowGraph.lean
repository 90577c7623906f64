import Mathlib.Data.List.Nodup
import ShaderIR.Analysis.Metadata
import ShaderIR.Proofs.Action

/-!
# The flow graph of a body

The analyses work on numbers: a node of the flow graph is the place of a block in the layout. When
the blocks carry these places as their indices, no block stands in the layout twice, and the edges
of the graph are the edges between the blocks.
-/

set_option autoImplicit false

namespace ShaderIR

namespace Body

def Indexed (b : Body) : Prop :=
  ∀ i k, b.layout[i]? = some k → b.blocks[k]?.map Block.index = some i

instance (b : Body) : Decidable b.Indexed :=
  decidable_of_iff
    (∀ i : Fin b.layout.size, b.blocks[b.layout[i]]?.map Block.index = some i.val) <| by
    refine ⟨fun h i k hk => ?_, fun h i => h i b.layout[i] (Array.getElem?_eq_getElem i.isLt)⟩
    obtain ⟨hlt, rfl⟩ := Array.getElem?_eq_some_iff.mp hk
    exact h ⟨i, hlt⟩

def Closed (b : Body) : Prop := ∀ k ∈ b.layout, ∀ j ∈ b.next k, j ∈ b.layout

theorem Closed.congr {b c : Body} (h : b.Closed) (hlayout : c.layout = b.layout)
    (hnext : ∀ k, c.next k = b.next k) : c.Closed := by
  intro k hk j hj
  rw [hlayout] at hk ⊢
  exact h k hk j (hnext k ▸ hj)

instance (b : Body) : Decidable b.Closed :=
  inferInstanceAs (Decidable (∀ k ∈ b.layout, ∀ j ∈ b.next k, j ∈ b.layout))

namespace Indexed

variable {b : Body} (h : b.Indexed) {i : Nat} {k : BlockId}

include h

theorem exists_block (hk : b.layout[i]? = some k) :
    ∃ blk, b.blocks[k]? = some blk ∧ blk.index = i :=
  Option.map_eq_some_iff.mp (h i k hk)

theorem place_unique {j : Nat} (hi : b.layout[i]? = some k) (hj : b.layout[j]? = some k) :
    i = j :=
  Option.some.inj ((h i k hi).symm.trans (h j k hj))

theorem nodup : b.layout.toList.Nodup := by
  rw [List.nodup_iff_getElem?_ne_getElem?]
  intro i j hij hj heq
  rw [List.getElem?_eq_getElem hj] at heq
  have hi := Array.getElem?_toList ▸ heq
  have hj := Array.getElem?_toList ▸ List.getElem?_eq_getElem hj
  exact hij.ne (h.place_unique hi hj)

theorem orderedBlocks : b.orderedBlocks.map some = b.layout.toList.map (b.blocks[·]?) := by
  have hthere : ∀ k ∈ b.layout.toList, ∃ blk, b.blocks[k]? = some blk := by
    intro k hk
    obtain ⟨i, hi⟩ := List.mem_iff_getElem?.mp hk
    obtain ⟨blk, hblk, -⟩ := h.exists_block (Array.getElem?_toList ▸ hi)
    exact ⟨blk, hblk⟩
  unfold Body.orderedBlocks
  generalize b.layout.toList = ks at hthere
  induction ks with
  | nil => rfl
  | cons k ks ih =>
    obtain ⟨blk, hblk⟩ := hthere k (.head _)
    simp [hblk, ih fun j hj => hthere j (.tail _ hj)]

theorem getElem?_orderedBlocks (hk : b.layout[i]? = some k) :
    b.orderedBlocks[i]? = b.blocks[k]? := by
  obtain ⟨blk, hblk, -⟩ := h.exists_block hk
  have hget := congrArg (·[i]?) h.orderedBlocks
  simp only [List.getElem?_map, Array.getElem?_toList, hk, Option.map_some, hblk] at hget
  rw [hblk]
  simpa using hget

theorem length_orderedBlocks : b.orderedBlocks.length = b.layout.size := by
  simpa using congrArg List.length h.orderedBlocks

end Indexed

/-- Each block of a layout without repetitions is changed once, as its place tells. -/
theorem getElem?_mapBlocks_place {b : Body} (hn : b.layout.toList.Nodup)
    (f : Nat → Block → Block) {i : Nat} {k : BlockId} (hk : b.layout[i]? = some k) :
    (b.mapBlocks f).blocks[k]? = b.blocks[k]?.map (f i) := by
  have hother : ∀ (ids : List (BlockId × Nat)) (blocks : Array Block), k ∉ ids.map Prod.fst →
      (ids.foldl (fun blocks x => blocks.modify x.1 (f x.2)) blocks)[k]? = blocks[k]? := by
    intro ids
    induction ids with
    | nil => exact fun _ _ => rfl
    | cons x ids ih =>
      intro blocks hx
      simp only [List.map_cons, List.mem_cons, not_or] at hx
      rw [List.foldl_cons, ih _ hx.2, Array.getElem?_modify, if_neg (Ne.symm hx.1)]
  have hfold : ∀ (ids : List (BlockId × Nat)) (blocks : Array Block),
      (ids.map Prod.fst).Nodup → (k, i) ∈ ids →
      (ids.foldl (fun blocks x => blocks.modify x.1 (f x.2)) blocks)[k]? =
        blocks[k]?.map (f i) := by
    intro ids
    induction ids with
    | nil => exact fun _ _ hmem => absurd hmem List.not_mem_nil
    | cons x ids ih =>
      intro blocks hids hmem
      obtain ⟨hx, hids⟩ := List.nodup_cons.mp hids
      rw [List.foldl_cons]
      rcases List.mem_cons.mp hmem with rfl | hmem
      · rw [hother ids _ hx, Array.getElem?_modify, if_pos rfl]
      · have hne : x.1 ≠ k := fun hxk => hx (hxk ▸ List.mem_map_of_mem hmem)
        rw [ih _ hids hmem, Array.getElem?_modify, if_neg hne]
  apply hfold
  · rwa [List.zipIdx_map_fst]
  · exact List.mem_zipIdx_iff_getElem?.mpr (Array.getElem?_toList ▸ hk)

/-- A table that is filled by index holds at an index what the blocks with that index give. -/
theorem getElem?_foldl_setIfInBounds {α : Type} (f : Block → α) (blks : List Block) {i : Nat}
    {x : α} (hsame : ∀ blk ∈ blks, blk.index = i → f blk = x) (table : Array α)
    (hthere : table[i]? = some x ∨ (∃ blk ∈ blks, blk.index = i) ∧ i < table.size) :
    (blks.foldl (fun table blk => table.setIfInBounds blk.index (f blk)) table)[i]? = some x := by
  induction blks generalizing table with
  | nil => simpa using hthere
  | cons blk blks ih =>
    apply ih fun c hc => hsame c (.tail _ hc)
    rw [Array.getElem?_setIfInBounds, Array.size_setIfInBounds]
    by_cases hblk : blk.index = i
    · left
      have hlt : i < table.size := by
        rcases hthere with hx | ⟨-, hlt⟩
        · exact (Array.getElem?_eq_some_iff.mp hx).1
        · exact hlt
      simp [hblk, hlt, hsame blk (.head _) hblk]
    · rw [if_neg hblk]
      refine hthere.imp_right fun ⟨⟨c, hc, hci⟩, hlt⟩ => ⟨⟨c, ?_, hci⟩, hlt⟩
      exact (List.mem_cons.mp hc).resolve_left fun heq => hblk (heq ▸ hci)

theorem Indexed.flow_succs {b : Body} (h : b.Indexed) {i : Nat} {k : BlockId}
    (hk : b.layout[i]? = some k) :
    b.flow.succs i = (b.next k).filterMap fun j => b.blocks[j]?.map Block.index := by
  obtain ⟨blk, hblk, hindex⟩ := h.exists_block hk
  have hat := h.getElem?_orderedBlocks hk
  have htable := getElem?_foldl_setIfInBounds
    (fun blk => blk.succs.filterMap fun j => b.blocks[j]?.map Block.index) b.orderedBlocks
    (i := i) (x := blk.succs.filterMap fun j => b.blocks[j]?.map Block.index) ?_
    (Array.replicate b.layout.size []) (.inr ⟨⟨blk, ?_, hindex⟩, ?_⟩)
  · unfold Body.flow
    simp only [htable, Option.getD_some, Body.next, hblk, Option.map_some]
  · -- the index of a block is its place, so no other block has index `i`
    intro c hc hci
    obtain ⟨m, hm⟩ := List.mem_iff_getElem?.mp hc
    have hlt : m < b.layout.size :=
      (List.getElem?_eq_some_iff.mp hm).1.trans_eq h.length_orderedBlocks
    have hplace := Array.getElem?_eq_getElem hlt
    have hcm := h.getElem?_orderedBlocks hplace
    obtain ⟨c', hc', hindex'⟩ := h.exists_block hplace
    rw [hm, hc'] at hcm
    obtain rfl := Option.some.inj hcm
    obtain rfl : m = i := hindex'.symm.trans hci
    rw [hm, hblk] at hat
    rw [Option.some.inj hat]
  · exact List.mem_of_getElem? (hat.trans hblk)
  · simpa using (Array.getElem?_eq_some_iff.mp hk).1

theorem Indexed.mem_flow_succs {b : Body} (h : b.Indexed) (hc : b.Closed) {i m : Nat} {k : BlockId}
    (hk : b.layout[i]? = some k) : m ∈ b.flow.succs i ↔ ∃ j ∈ b.next k, b.layout[m]? = some j := by
  rw [h.flow_succs hk, List.mem_filterMap]
  refine exists_congr fun j => and_congr_right fun hj => ⟨fun hm => ?_, h m j⟩
  obtain ⟨n, hn⟩ := Array.mem_iff_getElem?.mp (hc k (Array.mem_of_getElem? hk) j hj)
  rwa [Option.some.inj ((h n j hn).symm.trans hm)] at hn

end Body

end ShaderIR
