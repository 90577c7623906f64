import ShaderIR.Proofs.FlowGraph
import ShaderIR.Proofs.Pass

/-!
# What analyses leave on the blocks

Dominance depends on the layout and the edges alone, liveness on the code as well. So a change that
leaves these alone leaves true what is stored. Computing what is asked for and giving up what is not
kept intact never mark anything valid that a fresh computation would not give, as long as the blocks
carry their places as indices.
-/

set_option autoImplicit false

namespace ShaderIR

namespace Body

def edges? (b : Body) (k : BlockId) : Option (Nat × List BlockId) :=
  b.blocks[k]?.map fun blk => (blk.index, blk.succs)

def dominance? (b : Body) (k : BlockId) : Option (Option BlockId × List BlockId) :=
  b.blocks[k]?.map fun blk => (blk.idom, blk.domChildren)

def liveness? (b : Body) (k : BlockId) : Option (List Value × List Value) :=
  b.blocks[k]?.map fun blk => (blk.liveIn, blk.liveOut)

def parents (b : Body) : Array (Option Nat) :=
  let entry := match b.layout[0]? with
    | some id => b.blockIndex id
    | none => 0
  let byIndex := b.flow.idoms entry
  b.layout.mapIdx fun i id => if i = 0 then none else byIndex[b.blockIndex id]?.join

def dominanceAt (b : Body) (i : Nat) : Option BlockId × List BlockId :=
  (b.parents[i]?.join.bind (b.layout[·]?), (childrenOf b.parents i).filterMap (b.layout[·]?))

def livenessAt (b : Body) (i : Nat) : List Value × List Value :=
  (byIndex (b.liveness.sets.into i), byIndex (b.liveness.sets.outOf i))

theorem computeDominance_eq (b : Body) : b.computeDominance = b.mapBlocks fun i blk =>
    { blk with idom := (b.dominanceAt i).1, domChildren := (b.dominanceAt i).2 } := rfl

theorem computeLiveness_eq (b : Body) : b.computeLiveness = b.mapBlocks fun i blk =>
    { blk with liveIn := (b.livenessAt i).1, liveOut := (b.livenessAt i).2 } := rfl

end Body

structure SameFlow (b c : Body) : Prop where
  layout : c.layout = b.layout
  edges : ∀ k, c.edges? k = b.edges? k

namespace SameFlow

variable {b c d : Body}

theorem refl (b : Body) : SameFlow b b := ⟨rfl, fun _ => rfl⟩

theorem trans (h : SameFlow b c) (h' : SameFlow c d) : SameFlow b d :=
  ⟨h'.layout.trans h.layout, fun k => (h'.edges k).trans (h.edges k)⟩

theorem valid (b : Body) (valid : Analyses) : SameFlow b { b with valid } := ⟨rfl, fun _ => rfl⟩

theorem of_head (hl : c.layout = b.layout) (hh : ∀ k, c.head? k = b.head? k) : SameFlow b c := by
  refine ⟨hl, fun k => ?_⟩
  have hedges := congrArg (Option.map fun blk : Block => (blk.index, blk.succs)) (hh k)
  simp only [Body.head?, Option.map_map, Function.comp_def] at hedges
  exact hedges

theorem mapBlocks (b : Body) {f : Nat → Block → Block} (hi : ∀ i blk, (f i blk).index = blk.index)
    (hs : ∀ i blk, (f i blk).succs = blk.succs) : SameFlow b (b.mapBlocks f) :=
  ⟨rfl, fun k => SameCode.getElem?_mapBlocks b _ (fun i blk => by rw [hi, hs]) k⟩

theorem computeDominance (b : Body) : SameFlow b b.computeDominance :=
  b.computeDominance_eq ▸ mapBlocks b (fun _ _ => rfl) fun _ _ => rfl

theorem computeLiveness (b : Body) : SameFlow b b.computeLiveness :=
  b.computeLiveness_eq ▸ mapBlocks b (fun _ _ => rfl) fun _ _ => rfl

variable (h : SameFlow b c)

include h

theorem index (k : BlockId) : c.blocks[k]?.map Block.index = b.blocks[k]?.map Block.index := by
  have hindex := congrArg (Option.map Prod.fst) (h.edges k)
  simpa only [Body.edges?, Option.map_map, Function.comp_def] using hindex

theorem blockIndex (k : BlockId) : c.blockIndex k = b.blockIndex k := by
  rw [Body.blockIndex, Body.blockIndex, h.index]

theorem indexed (hi : b.Indexed) : c.Indexed := by
  intro i k hk
  rw [h.index]
  exact hi i k (h.layout ▸ hk)

theorem orderedEdges : c.orderedBlocks.map (fun blk => (blk.index, blk.succs)) =
    b.orderedBlocks.map fun blk => (blk.index, blk.succs) := by
  have hedges (b : Body) : b.orderedBlocks.map (fun blk => (blk.index, blk.succs)) =
      b.layout.toList.filterMap b.edges? := List.map_filterMap
  rw [hedges, hedges, h.layout, funext h.edges]

theorem flow : c.flow = b.flow := by
  have htable (b : Body) : b.flow = ⟨b.layout.size, fun v =>
      ((b.orderedBlocks.map fun blk => (blk.index, blk.succs)).foldl (fun acc e =>
        acc.setIfInBounds e.1 (e.2.filterMap fun k => b.blocks[k]?.map Block.index))
        (Array.replicate b.layout.size []))[v]?.getD []⟩ := by
    rw [List.foldl_map]
    rfl
  rw [htable, htable, h.orderedEdges, h.layout, funext h.index]

theorem parents : c.parents = b.parents := by
  simp only [Body.parents, h.flow, h.layout, h.blockIndex]

theorem dominanceAt (i : Nat) : c.dominanceAt i = b.dominanceAt i := by
  rw [Body.dominanceAt, Body.dominanceAt, h.parents, h.layout]

theorem liveness (hc : SameCode b c) : c.liveness = b.liveness := by
  have hinstrs (k : BlockId) :
      c.blocks[k]?.map Block.instrs = b.blocks[k]?.map Block.instrs := by
    have hlabel := hc.label k
    have hheld := hc.held k
    unfold Body.label? at hlabel
    unfold Body.held at hheld
    cases hb : b.blocks[k]? <;> cases hc : c.blocks[k]? <;> simp_all
  have huses (b : Body) : b.localUses = ((b.layout.toList.filterMap fun k =>
      b.blocks[k]?.map Block.instrs).map fun ids =>
        LocalUses.ofOps b.uses (ids.filterMap b.op?)).toArray := by
    rw [Body.localUses, List.map_toArray, Body.orderedBlocks, ← List.map_filterMap, List.map_map]
    rfl
  have hop : c.op? = b.op? := by
    funext id
    rw [Body.op?, Body.op?, hc.instrs]
  have hread : c.uses = b.uses := by
    funext op
    have hslot : c.slot = b.slot := by
      funext s
      rw [Body.slot, Body.slot, hc.slots]
    rw [Body.uses, Body.uses, hslot, hc.links]
  have hlocal : c.localUses = b.localUses := by
    rw [huses, huses, h.layout, funext hinstrs, hop, hread]
  rw [Body.liveness, Body.liveness, h.flow, hlocal]

theorem livenessAt (hc : SameCode b c) (i : Nat) : c.livenessAt i = b.livenessAt i := by
  rw [Body.livenessAt, Body.livenessAt, h.liveness hc]

end SameFlow

namespace Body

def DominanceCurrent (b : Body) : Prop :=
  ∀ i k, b.layout[i]? = some k → b.dominance? k = some (b.dominanceAt i)

def LivenessCurrent (b : Body) : Prop :=
  ∀ i k, b.layout[i]? = some k → b.liveness? k = some (b.livenessAt i)

section

variable {b c : Body}

theorem DominanceCurrent.congr (h : b.DominanceCurrent) (hf : SameFlow b c)
    (hd : ∀ k, c.dominance? k = b.dominance? k) : c.DominanceCurrent := by
  intro i k hk
  rw [hd, hf.dominanceAt]
  exact h i k (hf.layout ▸ hk)

theorem LivenessCurrent.congr (h : b.LivenessCurrent) (hf : SameFlow b c) (hc : SameCode b c)
    (hl : ∀ k, c.liveness? k = b.liveness? k) : c.LivenessCurrent := by
  intro i k hk
  rw [hl, hf.livenessAt hc]
  exact h i k (hf.layout ▸ hk)

theorem dominance?_of_head {k : BlockId} (h : c.head? k = b.head? k) :
    c.dominance? k = b.dominance? k := by
  have hdom := congrArg (Option.map fun blk : Block => (blk.idom, blk.domChildren)) h
  simp only [head?, Option.map_map, Function.comp_def] at hdom
  exact hdom

theorem dominance?_computeLiveness (b : Body) (k : BlockId) :
    b.computeLiveness.dominance? k = b.dominance? k := by
  rw [computeLiveness_eq]
  apply SameCode.getElem?_mapBlocks
  exact fun _ _ => rfl

theorem liveness?_computeDominance (b : Body) (k : BlockId) :
    b.computeDominance.liveness? k = b.liveness? k := by
  rw [computeDominance_eq]
  apply SameCode.getElem?_mapBlocks
  exact fun _ _ => rfl

theorem Indexed.computeDominance_current (h : b.Indexed) : b.computeDominance.DominanceCurrent := by
  intro i k hk
  obtain ⟨blk, hblk, -⟩ := h.exists_block hk
  rw [(SameFlow.computeDominance b).dominanceAt, computeDominance_eq, dominance?,
    getElem?_mapBlocks_place h.nodup _ hk, hblk]
  rfl

theorem sameCode_computeDominance (b : Body) : SameCode b b.computeDominance :=
  b.computeDominance_eq ▸ .mapBlocks b (fun _ _ => rfl) (fun _ _ => rfl) fun _ _ => rfl

theorem sameCode_computeLiveness (b : Body) : SameCode b b.computeLiveness :=
  b.computeLiveness_eq ▸ .mapBlocks b (fun _ _ => rfl) (fun _ _ => rfl) fun _ _ => rfl

theorem Indexed.computeLiveness_current (h : b.Indexed) : b.computeLiveness.LivenessCurrent := by
  intro i k hk
  obtain ⟨blk, hblk, -⟩ := h.exists_block hk
  rw [(SameFlow.computeLiveness b).livenessAt (sameCode_computeLiveness b), computeLiveness_eq,
    liveness?, getElem?_mapBlocks_place h.nodup _ hk, hblk]
  rfl

theorem Indexed.indexBlocks_eq (h : b.Indexed) : b.indexBlocks = b := by
  have hblocks : b.indexBlocks.blocks = b.blocks := by
    apply Array.ext_getElem?
    intro k
    by_cases hk : k ∈ b.layout
    · obtain ⟨i, hi⟩ := Array.mem_iff_getElem?.mp hk
      obtain ⟨blk, hblk, hindex⟩ := h.exists_block hi
      rw [indexBlocks, getElem?_mapBlocks_place h.nodup _ hi, hblk, Option.map_some, ← hindex]
    · exact SameCode.mapBlocks_other b _ hk
  have heq : b.indexBlocks = { b with blocks := b.indexBlocks.blocks } := rfl
  rw [heq, hblocks]

end

/-- What each of the analyses keeps holds after asking for some of them. -/
theorem require_rule {P : Body → Prop} {b : Body} (h : P b) (hi : ∀ c, P c → P c.ensureIndex)
    (hd : ∀ c, P c → P c.ensureDominance) (hl : ∀ c, P c → P c.ensureLiveness)
    (wanted : Analyses) : P (b.require wanted) := by
  have hindex : P (if wanted.diff b.valid = .none then b else b.ensureIndex) := by
    split
    · exact h
    · exact hi b h
  have hite : ∀ (c d : Body) (p : Bool), P c → P d → P (if p then d else c) := by
    intro c d p hc hd
    cases p
    · exact hc
    · exact hd
  exact hite _ _ _ (hite _ _ _ hindex (hd _ hindex)) (hl _ (hite _ _ _ hindex (hd _ hindex)))

section

variable {b : Body}

theorem Indexed.ensureIndex_eq (h : b.Indexed) :
    b.ensureIndex = { b with valid := { b.valid with index := true } } := by
  unfold Body.ensureIndex
  split
  · rename_i hv
    rw [← hv]
  · rw [h.indexBlocks_eq]

theorem Indexed.ensureIndex (h : b.Indexed) : b.ensureIndex.Indexed := by
  rw [h.ensureIndex_eq]
  exact h

theorem Indexed.ensureDominance (h : b.Indexed) : b.ensureDominance.Indexed :=
  (SameFlow.computeDominance b).indexed h

theorem Indexed.ensureLiveness (h : b.Indexed) : b.ensureLiveness.Indexed :=
  (SameFlow.computeLiveness b).indexed h

theorem Indexed.require (h : b.Indexed) (wanted : Analyses) : (b.require wanted).Indexed :=
  require_rule h (fun _ h => h.ensureIndex) (fun _ h => h.ensureDominance)
    (fun _ h => h.ensureLiveness) wanted

/-- Dominance that is marked valid stays current when analyses are asked for. -/
theorem DominanceCurrent.require (hi : b.Indexed)
    (h : b.valid.dominance = true → b.DominanceCurrent) (wanted : Analyses) :
    (b.require wanted).valid.dominance = true → (b.require wanted).DominanceCurrent := by
  refine (require_rule (P := fun c => c.Indexed ∧ (c.valid.dominance = true → c.DominanceCurrent))
    ⟨hi, h⟩ ?_ ?_ ?_ wanted).2
  · rintro c ⟨hi, h⟩
    rw [hi.ensureIndex_eq]
    exact ⟨hi, h⟩
  · rintro c ⟨hi, -⟩
    exact ⟨hi.ensureDominance, fun _ => hi.computeDominance_current⟩
  · rintro c ⟨hi, h⟩
    refine ⟨hi.ensureLiveness, fun hv => ?_⟩
    have hcurrent : c.computeLiveness.DominanceCurrent :=
      (h hv).congr (.computeLiveness c) c.dominance?_computeLiveness
    exact hcurrent

theorem LivenessCurrent.require (hi : b.Indexed)
    (h : b.valid.liveness = true → b.LivenessCurrent) (wanted : Analyses) :
    (b.require wanted).valid.liveness = true → (b.require wanted).LivenessCurrent := by
  refine (require_rule (P := fun c => c.Indexed ∧ (c.valid.liveness = true → c.LivenessCurrent))
    ⟨hi, h⟩ ?_ ?_ ?_ wanted).2
  · rintro c ⟨hi, h⟩
    rw [hi.ensureIndex_eq]
    exact ⟨hi, h⟩
  · rintro c ⟨hi, h⟩
    refine ⟨hi.ensureDominance, fun hv => ?_⟩
    have hcurrent : c.computeDominance.LivenessCurrent :=
      (h hv).congr (.computeDominance c) c.sameCode_computeDominance c.liveness?_computeDominance
    exact hcurrent
  · rintro c ⟨hi, -⟩
    exact ⟨hi.ensureLiveness, fun _ => hi.computeLiveness_current⟩

theorem valid_ensureIndex (b : Body) : b.ensureIndex.valid = { b.valid with index := true } := by
  unfold Body.ensureIndex
  split
  · rename_i hv
    rw [← hv]
  · rfl

theorem valid_ensureDominance (b : Body) :
    b.ensureDominance.valid = { b.valid with dominance := true } := rfl

theorem valid_ensureLiveness (b : Body) :
    b.ensureLiveness.valid = { b.valid with liveness := true } := rfl

theorem valid_require (b : Body) (wanted : Analyses) :
    (b.require wanted).valid.dominance = (b.valid.dominance || wanted.dominance) ∧
    (b.require wanted).valid.liveness = (b.valid.liveness || wanted.liveness) := by
  have hstep (c : Body) (p q : Bool) :
      let d := if p then c.ensureDominance else c
      let e := if q then d.ensureLiveness else d
      e.valid.dominance = (c.valid.dominance || p) ∧
        e.valid.liveness = (c.valid.liveness || q) := by
    cases p <;> cases q <;> simp [valid_ensureDominance, valid_ensureLiveness]
  have hindex :
      (if wanted.diff b.valid = .none then b else b.ensureIndex).valid.dominance =
        b.valid.dominance ∧
      (if wanted.diff b.valid = .none then b else b.ensureIndex).valid.liveness =
        b.valid.liveness := by
    split <;> simp [valid_ensureIndex]
  obtain ⟨hd, hl⟩ := hstep (if wanted.diff b.valid = .none then b else b.ensureIndex)
    (wanted.diff b.valid).dominance (wanted.diff b.valid).liveness
  rw [hindex.1] at hd
  rw [hindex.2] at hl
  have hor (v w : Bool) : (v || (w && !v)) = (v || w) := by
    cases v <;> simp
  exact ⟨hd.trans (hor _ _), hl.trans (hor _ _)⟩

theorem Indexed.require_flow (h : b.Indexed) (wanted : Analyses) :
    SameFlow b (b.require wanted) := by
  refine (require_rule (P := fun c => c.Indexed ∧ SameFlow b c) ⟨h, .refl b⟩ ?_ ?_ ?_ wanted).2
  · rintro c ⟨hi, hf⟩
    rw [hi.ensureIndex_eq]
    exact ⟨hi, hf.trans (.valid c _)⟩
  · rintro c ⟨hi, hf⟩
    exact ⟨hi.ensureDominance, (hf.trans (.computeDominance c)).trans (.valid _ _)⟩
  · rintro c ⟨hi, hf⟩
    exact ⟨hi.ensureLiveness, (hf.trans (.computeLiveness c)).trans (.valid _ _)⟩

def reanalyzed (b : Body) : Body := (b.preserve .none).require .all

/-- What is marked valid is what a fresh computation on the body would give. -/
structure Honest (b : Body) : Prop where
  index : b.valid.index = true → ∀ k ∈ b.layout,
    b.blocks[k]?.map Block.index = b.reanalyzed.blocks[k]?.map Block.index
  dominance : b.valid.dominance = true → ∀ k ∈ b.layout,
    b.dominance? k = b.reanalyzed.dominance? k
  liveness : b.valid.liveness = true → ∀ k ∈ b.layout,
    b.liveness? k = b.reanalyzed.liveness? k

theorem Indexed.reanalyzed_flow (h : b.Indexed) : SameFlow b b.reanalyzed := by
  have hi : (b.preserve .none).Indexed := h
  exact (SameFlow.valid b _).trans (hi.require_flow .all)

theorem Indexed.reanalyzed_dominance (h : b.Indexed) : b.reanalyzed.DominanceCurrent := by
  have hi : (b.preserve .none).Indexed := h
  apply DominanceCurrent.require hi
  · simp [preserve, Analyses.inter, Analyses.none]
  · simp [(valid_require _ _).1, Analyses.all]

theorem Indexed.reanalyzed_liveness (h : b.Indexed) : b.reanalyzed.LivenessCurrent := by
  have hi : (b.preserve .none).Indexed := h
  apply LivenessCurrent.require hi
  · simp [preserve, Analyses.inter, Analyses.none]
  · simp [(valid_require _ _).2, Analyses.all]

theorem DominanceCurrent.eq_reanalyzed {c : Body} (h : c.DominanceCurrent) (hf : SameFlow b c)
    (hi : b.Indexed) {k : BlockId} (hk : k ∈ b.layout) :
    c.dominance? k = b.reanalyzed.dominance? k := by
  obtain ⟨i, hplace⟩ := Array.mem_iff_getElem?.mp hk
  have hflow := hi.reanalyzed_flow
  rw [h i k (hf.layout ▸ hplace), hf.dominanceAt,
    hi.reanalyzed_dominance i k (hflow.layout ▸ hplace), hflow.dominanceAt]

theorem LivenessCurrent.eq_reanalyzed (h : b.LivenessCurrent) (hi : b.Indexed) {k : BlockId}
    (hk : k ∈ b.layout) : b.liveness? k = b.reanalyzed.liveness? k := by
  obtain ⟨i, hplace⟩ := Array.mem_iff_getElem?.mp hk
  have hflow := hi.reanalyzed_flow
  have hcode : SameCode b b.reanalyzed := (SameCode.preserve b .none).trans (.require _ .all)
  rw [h i k hplace, hi.reanalyzed_liveness i k (hflow.layout ▸ hplace), hflow.livenessAt hcode]

theorem Indexed.honest (hi : b.Indexed) (hd : b.valid.dominance = true → b.DominanceCurrent)
    (hl : b.valid.liveness = true → b.LivenessCurrent) : b.Honest where
  index _ k _ := (hi.reanalyzed_flow.index k).symm
  dominance hv _ hk := (hd hv).eq_reanalyzed (.refl b) hi hk
  liveness hv _ hk := (hl hv).eq_reanalyzed hi hk

end

end Body

end ShaderIR
