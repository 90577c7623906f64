import ShaderIR.Proofs.FlowGraph
import ShaderIR.Proofs.Worklist

/-!
# Liveness is exact

A value is live into a block when it is read along some path from the start of the block before it
is defined there. The values that a block reads first and those it defines are collected in one walk
over its instructions, and the search hands them back along the edges. What is stored on the blocks
is exactly what paths tell.
-/

set_option autoImplicit false

namespace ShaderIR

inductive Action.Reads (a : Action) (v : Value) : Prop
  | operand (h : .value v ∈ a.srcs)
  | source {s : Slot} (h : .slot s ∈ a.srcs) (hv : s.indirect = some v)
  | target {s : Slot} (h : a.dest? = some (.slot s)) (hv : s.indirect = some v)
  | index {hops : List Hop} {hop : Hop} (hc : hops ∈ a.chains) (hh : hop ∈ hops)
      (hk : hop.kind = .array (.value v))
  | indexSource {hops : List Hop} {hop : Hop} {s : Slot} (hc : hops ∈ a.chains) (hh : hop ∈ hops)
      (hk : hop.kind = .array (.slot s)) (hv : s.indirect = some v)

theorem Site.mem_uses_iff {s : Site} {v : Value} :
    v ∈ s.uses ↔ s = .value v ∨ ∃ slot, s = .slot slot ∧ slot.indirect = some v := by
  cases s <;> simp [Site.uses, Slot.uses, eq_comm]

theorem Action.mem_uses_iff {a : Action} {v : Value} : v ∈ a.uses ↔ a.Reads v := by
  simp only [Action.uses, List.mem_append, List.mem_flatMap, Option.mem_toList]
  constructor
  · rintro ((⟨s, hs, hv⟩ | ⟨s, hs, hv⟩) | ⟨hops, hc, hop, hh, hv⟩)
    · rcases Site.mem_uses_iff.mp hv with rfl | ⟨slot, rfl, hslot⟩
      · exact .operand hs
      · exact .source hs hslot
    · cases s with
      | slot slot => exact .target hs (by simpa [Site.addressUses, Slot.uses] using hv)
      | missing => simp [Site.addressUses] at hv
      | value u => simp [Site.addressUses] at hv
    · unfold Hop.uses at hv
      split at hv
      · rename_i index hk
        rcases Site.mem_uses_iff.mp hv with rfl | ⟨slot, rfl, hslot⟩
        · exact .index hc hh hk
        · exact .indexSource hc hh hk hslot
      · simp at hv
  · intro h
    cases h with
    | operand h => exact .inl (.inl ⟨_, h, Site.mem_uses_iff.mpr (.inl rfl)⟩)
    | source h hv => exact .inl (.inl ⟨_, h, Site.mem_uses_iff.mpr (.inr ⟨_, rfl, hv⟩)⟩)
    | target h hv => exact .inl (.inr ⟨_, h, by simp [Site.addressUses, Slot.uses, hv]⟩)
    | index hc hh hk =>
      exact .inr ⟨_, hc, _, hh, by simp [Hop.uses, hk, Site.uses]⟩
    | indexSource hc hh hk hv =>
      exact .inr ⟨_, hc, _, hh, by simp [Hop.uses, hk, Site.uses, Slot.uses, hv]⟩

def ReadsFirst (v : Value) (acts : List Action) : Prop :=
  ∃ pre a post, acts = pre ++ a :: post ∧ a.Reads v ∧ ∀ x ∈ pre, x.result? ≠ some v

theorem readsFirst_append {v : Value} {xs ys : List Action} :
    ReadsFirst v (xs ++ ys) ↔
      ReadsFirst v xs ∨ (∀ x ∈ xs, x.result? ≠ some v) ∧ ReadsFirst v ys := by
  constructor
  · rintro ⟨pre, a, post, heq, ha, hpre⟩
    rcases List.append_eq_append_iff.mp heq with ⟨mid, rfl, hys⟩ | ⟨mid, rfl, hmid⟩
    · exact .inr ⟨fun x hx => hpre x (by simp [hx]),
        mid, a, post, hys, ha, fun x hx => hpre x (by simp [hx])⟩
    · cases mid with
      | nil =>
        exact .inr ⟨fun x hx => hpre x (by simpa using hx), [], a, post,
          by simpa using hmid.symm, ha, by simp⟩
      | cons m mid =>
        obtain ⟨rfl, -⟩ := List.cons.inj hmid
        exact .inl ⟨pre, a, mid, rfl, ha, hpre⟩
  · rintro (⟨pre, a, post, rfl, ha, hpre⟩ | ⟨hxs, pre, a, post, rfl, ha, hpre⟩)
    · exact ⟨pre, a, post ++ ys, by simp, ha, hpre⟩
    · refine ⟨xs ++ pre, a, post, by simp, ha, fun x hx => ?_⟩
      exact (List.mem_append.mp hx).elim (hxs x) (hpre x)

theorem readsFirst_singleton {v : Value} {a : Action} : ReadsFirst v [a] ↔ a.Reads v := by
  constructor
  · rintro ⟨pre, x, post, heq, hx, -⟩
    obtain ⟨rfl, rfl, rfl⟩ : pre = [] ∧ x = a ∧ post = [] := by
      cases pre <;> simp_all
    exact hx
  · exact fun ha => ⟨[], a, [], rfl, ha, by simp⟩

namespace LocalUses

variable {v : Value}

theorem mem_reads_foldl (vs : List Value) (u : LocalUses) :
    v ∈ (vs.foldl read u).reads ↔ v ∈ u.reads ∨ v ∈ vs ∧ v ∉ u.defs := by
  induction vs generalizing u with
  | nil => simp
  | cons w vs ih =>
    rw [List.foldl_cons, ih]
    unfold read
    by_cases hw : w ∈ u.defs
    · have hne : v ∉ u.defs → v ≠ w := fun hv heq => hv (heq ▸ hw)
      simp only [List.contains_eq_mem, hw, decide_true, if_true, List.mem_cons]
      tauto
    · have hne : v = w → v ∉ u.defs := fun heq => heq ▸ hw
      simp only [List.contains_eq_mem, hw, decide_false, Bool.false_eq_true, if_false,
        List.mem_insert_iff, List.mem_cons]
      tauto

theorem defs_foldl (vs : List Value) (u : LocalUses) : (vs.foldl read u).defs = u.defs := by
  induction vs generalizing u with
  | nil => rfl
  | cons w vs ih =>
    rw [List.foldl_cons, ih]
    unfold read
    split <;> rfl

theorem nodup_foldl (vs : List Value) {u : LocalUses} (h : u.reads.Nodup) :
    (vs.foldl read u).reads.Nodup := by
  induction vs generalizing u with
  | nil => exact h
  | cons w vs ih =>
    apply ih
    unfold read
    split
    · exact h
    · exact h.insert

theorem reads_step (uses : Op → List Value) (u : LocalUses) (op : Op) :
    (step uses u op).reads = ((uses op).foldl read u).reads := by
  unfold step
  cases op.result? <;> rfl

theorem mem_defs_step (uses : Op → List Value) (u : LocalUses) (op : Op) :
    v ∈ (step uses u op).defs ↔ v ∈ u.defs ∨ op.result? = some v := by
  unfold step
  cases hr : op.result? with
  | none => simp [define, defs_foldl]
  | some w => simp [define, defs_foldl, or_comm, eq_comm]

theorem ofOps_snoc (uses : Op → List Value) (ops : List Op) (op : Op) :
    ofOps uses (ops ++ [op]) = step uses (ofOps uses ops) op := by
  simp [ofOps]

theorem nodup_ofOps (uses : Op → List Value) (ops : List Op) : (ofOps uses ops).reads.Nodup := by
  induction ops using List.reverseRecOn with
  | nil => exact List.nodup_nil
  | append_singleton ops op ih =>
    rw [ofOps_snoc, reads_step]
    exact nodup_foldl _ ih

theorem mem_defs_ofOps (uses : Op → List Value) (ops : List Op) :
    v ∈ (ofOps uses ops).defs ↔ ∃ op ∈ ops, op.result? = some v := by
  induction ops using List.reverseRecOn with
  | nil => simp [ofOps]
  | append_singleton ops op ih =>
    rw [ofOps_snoc, mem_defs_step, ih]
    simp [or_and_right, exists_or]

/-- The walk over a block finds what the block reads first. -/
theorem mem_reads_ofOps (b : Body) (ops : List Op) :
    v ∈ (ofOps b.uses ops).reads ↔ ReadsFirst v (ops.map b.action) := by
  induction ops using List.reverseRecOn with
  | nil =>
    have hnil : ¬ ReadsFirst v [] := fun ⟨pre, a, post, heq, _⟩ => by simp at heq
    simp [ofOps, hnil]
  | append_singleton ops op ih =>
    have hdefs : v ∉ (ofOps b.uses ops).defs ↔ ∀ x ∈ ops.map b.action, x.result? ≠ some v := by
      rw [mem_defs_ofOps]
      simp [Body.result?_action]
    rw [ofOps_snoc, reads_step, mem_reads_foldl, ih, List.map_append, List.map_singleton,
      readsFirst_append, readsFirst_singleton, ← Action.mem_uses_iff, b.uses_action, hdefs,
      and_comm]

end LocalUses

namespace Body

theorem actions_eq {b : Body} {k : BlockId} {blk : Block} (hblk : b.blocks[k]? = some blk) :
    b.actions k = (b.blockOps blk).map b.action := by
  unfold actions held blockOps action?
  rw [hblk, List.map_filterMap]
  rfl

section

variable {b : Body} (h : b.Indexed) {i : Nat} {k : BlockId} (hk : b.layout[i]? = some k)

include h

theorem Indexed.size_localUses : b.localUses.size = b.layout.size := by
  simpa [localUses] using h.length_orderedBlocks

include hk

theorem Indexed.localUses : ∃ blk, b.blocks[k]? = some blk ∧
    b.localUses[i]? = some (.ofOps b.uses (b.blockOps blk)) := by
  obtain ⟨blk, hblk, -⟩ := h.exists_block hk
  refine ⟨blk, hblk, ?_⟩
  simp [Body.localUses, h.getElem?_orderedBlocks hk, hblk]

theorem Indexed.mem_reads {v : Value} :
    v ∈ (b.localUses[i]?.getD default).reads ↔ ReadsFirst v (b.actions k) := by
  obtain ⟨blk, hblk, huses⟩ := h.localUses hk
  rw [huses, Option.getD_some, LocalUses.mem_reads_ofOps, actions_eq hblk]

theorem Indexed.mem_defs {v : Value} :
    v ∈ (b.localUses[i]?.getD default).defs ↔ ∃ a ∈ b.actions k, a.result? = some v := by
  obtain ⟨blk, hblk, huses⟩ := h.localUses hk
  rw [huses, Option.getD_some, LocalUses.mem_defs_ofOps, actions_eq hblk]
  simp [Body.result?_action]

end

def LiveInto (b : Body) (k : BlockId) (v : Value) : Prop :=
  ∃ path, b.IsPath (k :: path) ∧ ReadsFirst v (b.along (k :: path))

theorem isPath_cons {b : Body} {j k : BlockId} {path : List BlockId} :
    b.IsPath (k :: j :: path) ↔ k ∈ b.layout ∧ j ∈ b.next k ∧ b.IsPath (j :: path) := by
  simp only [IsPath, List.mem_cons, List.isChain_cons_cons, forall_eq_or_imp]
  tauto

section

variable {b : Body} (h : b.Indexed) (hc : b.Closed)

include h hc

theorem live_of_path {v : Value} (path : List BlockId) :
    ∀ {i : Nat} {k : BlockId}, b.layout[i]? = some k → b.IsPath (k :: path) →
      ReadsFirst v (b.along (k :: path)) → Live b.flow b.localUses i v := by
  induction path with
  | nil =>
    intro i k hk _ hv
    exact .read ((h.mem_reads hk).mpr (by simpa [along] using hv))
  | cons j path ih =>
    intro i k hk hpath hv
    obtain ⟨-, hj, hrest⟩ := isPath_cons.mp hpath
    rw [along, List.flatMap_cons, readsFirst_append] at hv
    rcases hv with hv | ⟨hdefs, hv⟩
    · exact .read ((h.mem_reads hk).mpr hv)
    · obtain ⟨m, hm⟩ := Array.mem_iff_getElem?.mp (hc k (Array.mem_of_getElem? hk) j hj)
      refine .pass ((h.mem_flow_succs hc hk).mpr ⟨j, hj, hm⟩) (ih hm hrest hv) ?_
      rw [h.mem_defs hk]
      exact fun ⟨a, ha, hav⟩ => hdefs a ha hav

theorem liveInto_of_live {i : Nat} {v : Value} (hlive : Live b.flow b.localUses i v) :
    ∀ {k : BlockId}, b.layout[i]? = some k → b.LiveInto k v := by
  induction hlive with
  | read hv =>
    intro k hk
    refine ⟨[], ⟨by simpa using Array.mem_of_getElem? hk, List.isChain_singleton k⟩, ?_⟩
    simpa [along] using (h.mem_reads hk).mp hv
  | pass hm _ hd ih =>
    intro k hk
    obtain ⟨j, hj, hplace⟩ := (h.mem_flow_succs hc hk).mp hm
    obtain ⟨path, hpath, hv⟩ := ih hplace
    refine ⟨j :: path, isPath_cons.mpr ⟨Array.mem_of_getElem? hk, hj, hpath⟩, ?_⟩
    rw [along, List.flatMap_cons, readsFirst_append]
    rw [h.mem_defs hk] at hd
    exact .inr ⟨fun a ha hav => hd ⟨a, ha, hav⟩, hv⟩

theorem liveInto_iff {i : Nat} {k : BlockId} (hk : b.layout[i]? = some k) (v : Value) :
    Live b.flow b.localUses i v ↔ b.LiveInto k v :=
  ⟨fun hlive => liveInto_of_live h hc hlive hk,
    fun ⟨path, hpath, hv⟩ => live_of_path h hc path hk hpath hv⟩

end

theorem mem_byIndex {vs : List Value} {v : Value} : v ∈ byIndex vs ↔ v ∈ vs := by
  simp [byIndex]

theorem nodup_byIndex {vs : List Value} (h : vs.Nodup) : (byIndex vs).Nodup :=
  (List.mergeSort_perm vs _).nodup_iff.mpr h

theorem pairwise_byIndex (vs : List Value) :
    (byIndex vs).Pairwise fun a b => a.index ≤ b.index := by
  have hsorted : (byIndex vs).Pairwise fun a b => decide (a.index ≤ b.index) = true := by
    apply List.pairwise_mergeSort
    · intro a b c hab hbc
      simp only [decide_eq_true_eq] at hab hbc ⊢
      exact hab.trans hbc
    · intro a b
      simpa using Nat.le_total a.index b.index
  simpa using hsorted

theorem Indexed.computeLiveness {b : Body} (h : b.Indexed) {i : Nat} {k : BlockId}
    (hk : b.layout[i]? = some k) : ∃ blk, b.computeLiveness.blocks[k]? = some blk ∧
      blk.liveIn = byIndex (b.liveness.sets.into i) ∧
      blk.liveOut = byIndex (b.liveness.sets.outOf i) := by
  obtain ⟨blk, hblk, -⟩ := h.exists_block hk
  refine ⟨{ blk with
    liveIn := byIndex (b.liveness.sets.into i)
    liveOut := byIndex (b.liveness.sets.outOf i) }, ?_, rfl, rfl⟩
  unfold Body.computeLiveness
  rw [getElem?_mapBlocks_place h.nodup _ hk, hblk]
  rfl

theorem Indexed.liveness {b : Body} (h : b.Indexed) :
    b.liveness.Valid b.flow b.localUses ∧ b.liveness.queue = [] := by
  apply Worklist.solve_valid
  · exact h.size_localUses.symm
  · intro u hu
    simp only [Body.localUses, List.map_toArray, List.mem_toArray, List.mem_map] at hu
    obtain ⟨blk, -, rfl⟩ := hu
    exact LocalUses.nodup_ofOps _ _

/-- The search ends because nobody waits any more, and then the stored lists are exact. A value is
in the list of a block exactly if some path from there reads it before defining it, and leaves the
block exactly if it is in the list of a block that may run next. Both lists are in the order of the
indices and hold no value twice. -/
theorem computeLiveness_exact {b : Body} (h : b.Indexed) (hc : b.Closed) :
    b.liveness.queue = [] ∧
    ∀ k ∈ b.layout, ∃ blk, b.computeLiveness.blocks[k]? = some blk ∧
      (∀ v, v ∈ blk.liveIn ↔ b.LiveInto k v) ∧
      (∀ v, v ∈ blk.liveOut ↔ ∃ j ∈ b.next k, ∃ next, b.computeLiveness.blocks[j]? = some next ∧
        v ∈ next.liveIn) ∧
      blk.liveIn.Nodup ∧ blk.liveIn.Pairwise (fun v w => v.index ≤ w.index) ∧
      blk.liveOut.Nodup ∧ blk.liveOut.Pairwise (fun v w => v.index ≤ w.index) := by
  obtain ⟨hvalid, hqueue⟩ := h.liveness
  have hclosed : ∀ i < b.localUses.size, ∀ j ∈ b.flow.succs i, j < b.localUses.size := by
    rw [h.size_localUses]
    intro i hi m hm
    obtain ⟨j, -, hj⟩ := (h.mem_flow_succs hc (Array.getElem?_eq_getElem hi)).mp hm
    exact (Array.getElem?_eq_some_iff.mp hj).1
  refine ⟨hqueue, fun k hk => ?_⟩
  obtain ⟨i, hi⟩ := Array.mem_iff_getElem?.mp hk
  have hlt : i < b.localUses.size := h.size_localUses ▸ (Array.getElem?_eq_some_iff.mp hi).1
  obtain ⟨blk, hblk, hin, hout⟩ := h.computeLiveness hi
  refine ⟨blk, hblk, fun v => ?_, fun v => ?_, ?_, ?_, ?_, ?_⟩
  · rw [hin, mem_byIndex, hvalid.mem_into_iff hqueue hclosed hlt, liveInto_iff h hc hi]
  · rw [hout, mem_byIndex, hvalid.mem_outOf_iff hqueue hclosed hlt]
    constructor
    · rintro ⟨m, hm, hv⟩
      obtain ⟨j, hj, hplace⟩ := (h.mem_flow_succs hc hi).mp hm
      obtain ⟨next, hnext, hin', -⟩ := h.computeLiveness hplace
      exact ⟨j, hj, next, hnext, hin' ▸ mem_byIndex.mpr hv⟩
    · rintro ⟨j, hj, next, hnext, hv⟩
      obtain ⟨m, hm⟩ := Array.mem_iff_getElem?.mp (hc k hk j hj)
      obtain ⟨next', hnext', hin', -⟩ := h.computeLiveness hm
      obtain rfl := Option.some.inj (hnext.symm.trans hnext')
      exact ⟨m, (h.mem_flow_succs hc hi).mpr ⟨j, hj, hm⟩, mem_byIndex.mp (hin' ▸ hv)⟩
  · exact hin ▸ nodup_byIndex (hvalid.sound.into_nodup i)
  · exact hin ▸ pairwise_byIndex _
  · exact hout ▸ nodup_byIndex (hvalid.sound.outOf_nodup i)
  · exact hout ▸ pairwise_byIndex _

def spinning : Body :=
  let address : Value := ⟨0, 0, 1, 32⟩
  let step : Value := ⟨1, 1, 1, 32⟩
  let sum : Value := ⟨2, 2, 1, 32⟩
  { slots := #[⟨some ⟨0, 0, 1, 32, 4⟩, 0, some address⟩]
    instrs := #[⟨.const address [1], some 0⟩, ⟨.const step [2], some 0⟩,
      ⟨.alu .iadd [.value step, .value step] (.value sum) 1, some 1⟩,
      ⟨.alu .mov [.value sum] (.slot 0) 1, some 1⟩,
      ⟨.intrinsic "emit" [.value sum] none, some 2⟩]
    definers := #[some 0, some 1, some 2]
    blocks := #[⟨0, "entry", [0, 1], [1], none, [], [], []⟩,
      -- writes to the slot whose address the entry makes
      ⟨1, "spin", [2, 3], [1, 2], none, [], [], []⟩,
      ⟨2, "exit", [4], [], none, [], [], []⟩,
      ⟨3, "apart", [], [1, 1], none, [], [], []⟩]
    layout := #[0, 1, 2, 3]
    registers := #[⟨0, 0, 1, 32, 4⟩]
    registerCount := 1
    valueCount := 3 }

/-- The address is live into the block that spins, by its own edge back, and into the block apart.
What the block computes itself is not. -/
theorem spinning_liveness :
    spinning.Indexed ∧ spinning.Closed ∧ spinning.liveness.queue = [] ∧
    spinning.LiveInto 1 ⟨0, 0, 1, 32⟩ ∧ spinning.LiveInto 3 ⟨0, 0, 1, 32⟩ ∧
    ¬ spinning.LiveInto 1 ⟨2, 2, 1, 32⟩ := by
  have h : spinning.Indexed := by decide +kernel
  have hc : spinning.Closed := by decide +kernel
  obtain ⟨hqueue, hstored⟩ := computeLiveness_exact h hc
  obtain ⟨spin, hspin, hin, -⟩ := hstored 1 (by decide +kernel)
  obtain ⟨apart, hapart, hin', -⟩ := hstored 3 (by decide +kernel)
  -- the lists on the blocks are the sets of the search, which can be computed
  obtain ⟨spin', hspin', hset, -⟩ := h.computeLiveness (i := 1) (k := 1) (by decide +kernel)
  obtain ⟨apart', hapart', hset', -⟩ := h.computeLiveness (i := 3) (k := 3) (by decide +kernel)
  obtain rfl := Option.some.inj (hspin.symm.trans hspin')
  obtain rfl := Option.some.inj (hapart.symm.trans hapart')
  refine ⟨h, hc, hqueue, (hin _).mp ?_, (hin' _).mp ?_, fun hlive => ?_⟩
  · rw [hset, mem_byIndex]
    decide +kernel
  · rw [hset', mem_byIndex]
    decide +kernel
  · have hmem := (hin _).mpr hlive
    rw [hset, mem_byIndex] at hmem
    revert hmem
    decide +kernel

end Body

end ShaderIR
