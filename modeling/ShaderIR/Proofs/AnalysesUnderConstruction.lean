import ShaderIR.Proofs.StoredAnalyses

/-!
# Analyses while blocks and edges are added

Adding a block gives all analyses up, adding an edge gives up none. So dominance that is marked
valid is that of the edges only if none was added since the mark was last missing. An edge that
comes later leaves the dominators of the older graph in place, and asking for dominance does not
compute them again.
-/

set_option autoImplicit false

namespace ShaderIR

inductive Construction where
  | block (name : String)
  | edge (source target : BlockId)
  | require (wanted : Analyses)
  | preserve (kept : Analyses)

namespace Construction

def perform : Construction → Body → Body
  | block name, b => ((Body.addBlock name).run b).2
  | edge source target, b => ((Body.addEdge source target).run b).2
  | require wanted, b => b.require wanted
  | preserve kept, b => b.preserve kept

def built (steps : List Construction) : Body := steps.foldl (fun b c => c.perform b) .empty

theorem built_append (steps more : List Construction) :
    built (steps ++ more) = more.foldl (fun b c => c.perform b) (built steps) :=
  List.foldl_append

end Construction

namespace Body

variable {b : Body}

theorem Indexed.addBlock (h : b.Indexed) (name : String) :
    ((Body.addBlock name).run b).2.Indexed := by
  have hrun : ((Body.addBlock name).run b).2 = { b with
      blocks := b.blocks.push ⟨b.layout.size, name, [], [], none, [], [], []⟩
      layout := b.layout.push b.blocks.size
      valid := .none } := rfl
  rw [hrun]
  intro i k hk
  simp only [Array.getElem?_push] at hk ⊢
  split at hk
  · rename_i hi
    obtain rfl := Option.some.inj hk
    simp [hi]
  · obtain ⟨blk, hblk, hindex⟩ := h.exists_block hk
    have hlt : k < b.blocks.size := (Array.getElem?_eq_some_iff.mp hblk).1
    simp [hlt.ne, hblk, hindex]

theorem addEdge_run (source target : BlockId) : ((Body.addEdge source target).run b).2 =
    { b with blocks := b.blocks.modify source fun blk =>
        { blk with succs := blk.succs ++ [target] } } := rfl

theorem Indexed.addEdge (h : b.Indexed) (source target : BlockId) :
    ((Body.addEdge source target).run b).2.Indexed := by
  intro i k hk
  rw [addEdge_run, Array.getElem?_modify]
  split
  · rw [Option.map_map]
    exact h i k hk
  · exact h i k hk

theorem dominance?_addEdge (source target k : BlockId) :
    ((Body.addEdge source target).run b).2.dominance? k = b.dominance? k := by
  rw [dominance?, addEdge_run, Array.getElem?_modify]
  split
  · rw [Option.map_map]
    rfl
  · rfl

theorem dominance?_ensureIndex (b : Body) (k : BlockId) :
    b.ensureIndex.dominance? k = b.dominance? k := by
  have hindex : b.indexBlocks.dominance? k = b.dominance? k := by
    apply SameCode.getElem?_mapBlocks
    exact fun _ _ => rfl
  unfold ensureIndex
  split
  · rfl
  · exact hindex

theorem dominance?_require (h : b.valid.dominance = true) (wanted : Analyses) (k : BlockId) :
    (b.require wanted).dominance? k = b.dominance? k := by
  have hmissing : (wanted.diff b.valid).dominance = false := by simp [Analyses.diff, h]
  have hlive (c : Body) (p : Bool) :
      (if p then c.ensureLiveness else c).dominance? k = c.dominance? k := by
    cases p
    · rfl
    · exact dominance?_computeLiveness c k
  unfold require
  dsimp only
  rw [hlive, hmissing, if_neg Bool.false_ne_true]
  split
  · rfl
  · exact dominance?_ensureIndex b k

end Body

namespace Construction

theorem indexed_perform {b : Body} (c : Construction) (h : b.Indexed) : (c.perform b).Indexed := by
  cases c with
  | block name => exact h.addBlock name
  | edge source target => exact h.addEdge source target
  | require wanted => exact h.require wanted
  | preserve kept => exact h

theorem indexed_built (steps : List Construction) : (built steps).Indexed := by
  have hempty : Body.empty.Indexed := by
    intro i k hk
    simp [Body.empty] at hk
  exact List.foldlRecOn steps _ hempty fun b h c _ => c.indexed_perform h

/-- A step other than an edge leaves true what is marked valid. -/
theorem dominance_perform {b : Body} {c : Construction}
    (hc : ∀ source target, c ≠ .edge source target) (hi : b.Indexed)
    (h : b.valid.dominance = true → b.DominanceCurrent) :
    (c.perform b).valid.dominance = true → (c.perform b).DominanceCurrent := by
  cases c with
  | block name =>
    intro hv
    cases hv
  | edge source target => exact absurd rfl (hc source target)
  | require wanted => exact .require hi h wanted
  | preserve kept =>
    intro hv
    have hkept : b.valid.dominance = true ∧ kept.dominance = true := by
      simpa [perform, Body.preserve, Analyses.inter] using hv
    exact h hkept.1

theorem dominance_foldl {steps : List Construction}
    (hsteps : ∀ c ∈ steps, ∀ source target, c ≠ .edge source target) {b : Body} (hi : b.Indexed)
    (h : b.valid.dominance = true → b.DominanceCurrent) :
    (steps.foldl (fun b c => c.perform b) b).valid.dominance = true →
      (steps.foldl (fun b c => c.perform b) b).DominanceCurrent := by
  induction steps generalizing b with
  | nil => exact h
  | cons c steps ih =>
    exact ih (fun x hx => hsteps x (.tail _ hx)) (c.indexed_perform hi)
      (dominance_perform (hsteps c (.head _)) hi h)

/-- Let dominance be not valid after some steps, and let no edge be added from then on. Then
dominance that is marked valid is that of the edges, and asking for it leaves that of the edges. An
edge that is added while the mark stands changes neither the mark nor what is stored, and asking for
dominance leaves both as they are. -/
theorem dominance_honest_without_new_edges (steps more : List Construction)
    (hinvalid : (built steps).valid.dominance = false)
    (hmore : ∀ c ∈ more, ∀ source target, c ≠ .edge source target) :
    let b := built (steps ++ more)
    (b.valid.dominance = true → ∀ k ∈ b.layout, b.dominance? k = b.reanalyzed.dominance? k) ∧
    (∀ wanted, wanted.dominance = true → ∀ k ∈ b.layout,
      (b.require wanted).dominance? k = b.reanalyzed.dominance? k) ∧
    ∀ source target wanted, b.valid.dominance = true →
      let c := built (steps ++ more ++ [.edge source target, .require wanted])
      c.valid.dominance = true ∧ ∀ k, c.dominance? k = b.dominance? k := by
  intro b
  have hi : b.Indexed := indexed_built _
  have hcurrent : b.valid.dominance = true → b.DominanceCurrent := by
    show (built (steps ++ more)).valid.dominance = true → (built (steps ++ more)).DominanceCurrent
    rw [built_append]
    exact dominance_foldl hmore (indexed_built steps) fun hv => by simp [hinvalid] at hv
  refine ⟨fun hv k hk => (hcurrent hv).eq_reanalyzed (.refl b) hi hk, fun wanted hw k hk => ?_,
    fun source target wanted hv => ?_⟩
  · have hvalid : (b.require wanted).valid.dominance = true := by
      simp [(b.valid_require wanted).1, hw]
    exact (Body.DominanceCurrent.require hi hcurrent wanted hvalid).eq_reanalyzed
      (hi.require_flow wanted) hi hk
  · intro c
    have hc : c = ((Body.addEdge source target).run b).2.require wanted := built_append _ _
    have hedge : ((Body.addEdge source target).run b).2.valid.dominance = true := hv
    rw [hc]
    refine ⟨by simp [(Body.valid_require _ wanted).1, hedge], fun k => ?_⟩
    rw [Body.dominance?_require hedge, Body.dominance?_addEdge]

/-- A square whose last edge comes after dominance was computed and given up again. -/
theorem square_dominance_honest :
    let steps : List Construction := [.block "entry", .block "left", .block "right", .edge 0 1,
      .edge 0 2, .require ⟨false, true, false⟩, .block "exit", .edge 1 3, .edge 2 3]
    let more : List Construction := [.require .all, .preserve ⟨true, true, false⟩]
    let b := built (steps ++ more)
    (built steps).valid.dominance = false ∧ b.valid.dominance = true ∧
    b.dominance? 3 = some (some 0, []) ∧
    ∀ k ∈ b.layout, b.dominance? k = b.reanalyzed.dominance? k := by
  intro steps more b
  have hinvalid : (built steps).valid.dominance = false := by decide +kernel
  have hvalid : b.valid.dominance = true := by decide +kernel
  obtain ⟨hhonest, -⟩ := dominance_honest_without_new_edges steps more hinvalid (by simp [more])
  exact ⟨hinvalid, hvalid, by decide +kernel, hhonest hvalid⟩

/-- An edge to a block that could not be reached before. Dominance is marked valid and was asked for
after the edge, and still no dominator is stored on the block. -/
theorem edge_keeps_old_dominance :
    let b := built [.block "entry", .block "next", .require ⟨false, true, false⟩, .edge 0 1,
      .require ⟨false, true, false⟩]
    b.layout = #[0, 1] ∧ b.valid.dominance = true ∧ b.dominance? 1 = some (none, []) ∧
    b.reanalyzed.dominance? 1 = some (some 0, []) := by
  decide +kernel

end Construction

end ShaderIR
