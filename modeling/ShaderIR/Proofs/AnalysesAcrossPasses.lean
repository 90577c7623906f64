import ShaderIR.Chart
import ShaderIR.Proofs.LoweringStep
import ShaderIR.Proofs.PipelineFaults
import ShaderIR.Proofs.StoredAnalyses

/-!
# Analyses across passes

A pass exchanges instructions inside the blocks. It leaves the layout, the indices and the edges
alone and gives liveness up when it has changed anything. So whatever is marked valid is true, in
whatever order passes run and analyses are asked for and given up.
-/

set_option autoImplicit false

namespace ShaderIR

structure KeepsBlocks (b c : Body) : Prop where
  layout : c.layout = b.layout
  head : ∀ k, c.head? k = b.head? k
  valid : c.valid = b.valid

theorem KeepsBlocks.refl (b : Body) : KeepsBlocks b b := ⟨rfl, fun _ => rfl, rfl⟩

theorem KeepsBlocks.replaced {b c c' : Body} {k : BlockId} {id : InstrId} {a : Action}
    {acts : List Action} {f : Value → Value} (h : KeepsBlocks b c)
    (hr : Replaced c c' k id a acts f) : KeepsBlocks b c' :=
  ⟨hr.layout.trans h.layout, fun k => (hr.head k).trans (h.head k), hr.valid.trans h.valid⟩

/-- Blocks carry their places, and what is marked valid would be computed again as it is. -/
structure Body.Current (b : Body) : Prop extends b.Laid where
  indexed : b.Indexed
  dominance : b.valid.dominance = true → b.DominanceCurrent
  liveness : b.valid.liveness = true → b.LivenessCurrent

namespace Body.Current

variable {b c : Body}

theorem honest (h : b.Current) : b.Honest := h.indexed.honest h.dominance h.liveness

theorem require (h : b.Current) (wanted : Analyses) : (b.require wanted).Current where
  toLaid := (SameCode.require b wanted).laid h.toLaid
  indexed := h.indexed.require wanted
  dominance := .require h.indexed h.dominance wanted
  liveness := .require h.indexed h.liveness wanted

theorem preserve (h : b.Current) (kept : Analyses) : (b.preserve kept).Current where
  toLaid := (SameCode.preserve b kept).laid h.toLaid
  indexed := h.indexed
  dominance hv := by
    have hkept : b.valid.dominance = true ∧ kept.dominance = true := by
      simpa [Body.preserve, Analyses.inter] using hv
    exact h.dominance hkept.1
  liveness hv := by
    have hkept : b.valid.liveness = true ∧ kept.liveness = true := by
      simpa [Body.preserve, Analyses.inter] using hv
    exact h.liveness hkept.1

/-- Exchanging instructions and giving liveness up leaves true what is still marked valid. -/
theorem rewritten (h : b.Current) (hl : c.Laid) (hk : KeepsBlocks b c) :
    (c.preserve controlFlowAnalyses).Current := by
  have hflow : SameFlow b c := .of_head hk.layout hk.head
  refine ⟨(SameCode.preserve c _).laid hl, hflow.indexed h.indexed, fun hv => ?_, fun hv => ?_⟩
  · have hvalid : b.valid.dominance = true := by
      simpa [Body.preserve, Analyses.inter, controlFlowAnalyses, hk.valid] using hv
    have hcurrent : c.DominanceCurrent :=
      (h.dominance hvalid).congr hflow fun k => dominance?_of_head (hk.head k)
    exact hcurrent
  · simp [Body.preserve, Analyses.inter, controlFlowAnalyses] at hv

theorem splitCopies (h : b.Current) (hok : b.splitCopies.error = none) :
    b.splitCopies.body.Current := by
  -- without progress nothing was exchanged, and liveness may stay valid
  obtain ⟨hl, hkeeps, hidle⟩ := splitBlocks_keeps
    (fun _ s => KeepsBlocks b s.body ∧ (s.progress = false → s.body = b)) h.toLaid
    ⟨.refl b, fun _ => rfl⟩ (fun _ _ _ _ hI _ _ _ => hI)
    (fun _ _ _ _ _ _ _ _ _ hI _ _ hprogress hs =>
      ⟨hI.1.replaced hs.replaced, fun hfalse => by simp [hprogress] at hfalse⟩)
    (splitCopies_error b ▸ hok)
  rw [splitCopies_eq hok]
  cases hp : b.splitBlocks.progress with
  | true => exact h.rewritten hl hkeeps
  | false =>
    rw [if_neg Bool.false_ne_true, hidle hp]
    exact h

theorem lowerLocals (h : b.Current) (hok : b.lowerLocals.error = none) :
    b.lowerLocals.body.Current := by
  have hd : b.dominated.Current := h.require _
  obtain ⟨hl, hkeeps⟩ := lowerBlocks_keeps (fun _ s => KeepsBlocks b.dominated s.body) hd.toLaid
    (.refl _) (fun _ _ _ _ hI _ _ _ => hI)
    (fun _ _ _ _ _ _ _ _ _ _ _ _ _ _ hI _ _ hs => hI.replaced hs.replaced)
    (lowerLocals_error b ▸ hok)
  rw [lowerLocals_eq hok]
  exact hd.rewritten hl hkeeps

end Body.Current

inductive Call where
  | require (wanted : Analyses)
  | preserve (kept : Analyses)
  | split
  | lower
  | draw

def Call.perform : Call → Body → Option Body
  | require wanted, b => some (b.require wanted)
  | preserve kept, b => some (b.preserve kept)
  | split, b => if b.splitCopies.error.isNone then some b.splitCopies.body else none
  | lower, b => if b.lowerLocals.error.isNone then some b.lowerLocals.body else none
  | draw, b => some (Body.draw.run b).2

def performCalls (calls : List Call) (b : Body) : Option Body :=
  calls.foldlM (fun b c => c.perform b) b

theorem Call.current {b b' : Body} (c : Call) (h : b.Current) (hp : c.perform b = some b') :
    b'.Current := by
  cases c with
  | require wanted =>
    cases hp
    exact h.require wanted
  | preserve kept =>
    cases hp
    exact h.preserve kept
  | split =>
    obtain ⟨hok, hbody⟩ := Option.ite_none_right_eq_some.mp hp
    cases hbody
    exact h.splitCopies (Option.isNone_iff_eq_none.mp hok)
  | lower =>
    obtain ⟨hok, hbody⟩ := Option.ite_none_right_eq_some.mp hp
    cases hbody
    exact h.lowerLocals (Option.isNone_iff_eq_none.mp hok)
  | draw =>
    have hdraw : (Body.draw.run b).2 = b.require ⟨false, true, false⟩ := rfl
    rw [Call.perform, hdraw] at hp
    cases hp
    exact h.require _

theorem performCalls_current (calls : List Call) {b b' : Body} (h : b.Current)
    (hp : performCalls calls b = some b') : b'.Current := by
  induction calls generalizing b with
  | nil =>
    cases hp
    exact h
  | cons c calls ih =>
    obtain ⟨b₁, hc, hcalls⟩ := Option.bind_eq_some_iff.mp hp
    exact ih (c.current h hc) hcalls

/-- The loader computes nothing and numbers the blocks by their places. -/
theorem Description.current {d : Description} {s : Shader} {i : Nat} {b : Body}
    (h : d.toShader = .ok s) (hb : s.body? i = some b) : b.Current := by
  have hs := Description.loaded h
  obtain ⟨store, store', -, hr⟩ := hs.resides i b hb
  refine ⟨(hs.unlowered hb).toLaid, fun i k hk => ?_, fun hv => ?_, fun hv => ?_⟩
  · obtain ⟨blk, hblk, hindex, -⟩ := hr.ordered i k hk
    rw [hblk, Option.map_some, hindex]
  · simp [hr.valid, Analyses.none] at hv
  · simp [hr.valid, Analyses.none] at hv

/-- Whatever passes run on a loaded function and whatever analyses are asked for and given up
between them, what is marked valid in the end is what a fresh computation gives. -/
theorem analyses_stay_honest (d : Description) (s : Shader) (i : Nat) (b b' : Body)
    (calls : List Call) (hload : d.toShader = .ok s) (hb : s.body? i = some b)
    (hcalls : performCalls calls b = some b') : b'.Honest :=
  (performCalls_current calls (Description.current hload hb) hcalls).honest

/-- The passes run twice over a function that holds a copy. In the end everything is marked valid,
the dominance since before the passes. -/
theorem palette_stays_honest : ∃ s b b', palette.toShader = .ok s ∧ s.body? 0 = some b ∧
    performCalls [.require .all, .split, .draw, .lower, .preserve ⟨false, true, true⟩, .split,
      .require .all, .lower, .require ⟨false, false, true⟩] b = some b' ∧
    b'.valid = .all ∧ b'.Honest := by
  have hrun : (palette.toShader.toOption.bind fun s => (s.body? 0).bind fun b =>
      (performCalls [.require .all, .split, .draw, .lower, .preserve ⟨false, true, true⟩, .split,
        .require .all, .lower, .require ⟨false, false, true⟩] b).map (·.valid)) =
          some Analyses.all := by
    decide +kernel
  obtain ⟨s, hs, hrun⟩ := Option.bind_eq_some_iff.mp hrun
  obtain ⟨b, hb, hrun⟩ := Option.bind_eq_some_iff.mp hrun
  obtain ⟨b', hcalls, hvalid⟩ := Option.map_eq_some_iff.mp hrun
  have hok := ok_of_toOption hs
  exact ⟨s, b, b', hok, hb, hcalls, hvalid,
    analyses_stay_honest palette s 0 b b' _ hok hb hcalls⟩

end ShaderIR
