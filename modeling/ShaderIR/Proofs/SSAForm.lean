import ShaderIR.Proofs.LoweringStep
import ShaderIR.Proofs.SplittingStep

/-!
# SSA form after the passes

Splitting and lowering exchange one instruction after the other. Each exchange keeps the body well
formed and in SSA form, and no instruction reads a value any more whose definition was taken out.
The blocks are walked in their layout, so a read may be met before the definition it belongs to.
-/

set_option autoImplicit false

namespace ShaderIR

def Body.Reads (b : Body) (v : Value) : Prop :=
  ∃ id ∈ b.placedInstrs, ∃ a ∈ b.action? id, v ∈ a.uses

def Body.resultOf? (b : Body) (id : InstrId) : Option Value := (b.action? id).bind Action.result?

namespace Replaced

variable {b b' : Body} {k : BlockId} {id : InstrId} {a : Action} {acts : List Action}
  {f : Value → Value} (h : Replaced b b' k id a acts f)

include h

theorem reads {v : Value} (hv : b'.Reads v) :
    ∃ u, f u = v ∧ (b.Reads u ∨ b.definers.size ≤ u.serial) := by
  have hplaced : id ∈ b.placedInstrs := Body.mem_placedInstrs.mpr ⟨k, h.block, h.holds⟩
  obtain ⟨x, hx, y, hy, hv⟩ := hv
  rcases h.cases_placed hx with ⟨i, z, hz, rfl⟩ | ⟨hx, hne⟩
  · obtain rfl : z.mapUses f = y := by simpa [h.added i z hz] using hy
    rw [Action.mapUses, Action.uses_rename] at hv
    obtain ⟨u, hu, rfl⟩ := List.mem_map.mp hv
    refine ⟨u, rfl, ?_⟩
    rcases h.covered.known (List.mem_of_getElem? hz) hu with hu | ⟨w, hw, hr⟩
    · exact .inl ⟨id, hplaced, a, h.target, hu⟩
    · exact .inr (h.fresh hw hr).1
  · rw [h.kept x hx hne] at hy
    obtain ⟨z, hz, rfl⟩ := Option.map_eq_some_iff.mp hy
    rw [Action.mapUses, Action.uses_rename] at hv
    obtain ⟨u, hu, rfl⟩ := List.mem_map.mp hv
    exact ⟨u, rfl, .inl ⟨x, hx, z, hz, hu⟩⟩

theorem not_reads {v : Value} (hv : v.serial < b.definers.size) (hn : ¬ b.Reads v) :
    ¬ b'.Reads v := by
  intro hr
  obtain ⟨u, hu, hor⟩ := h.reads hr
  have hne : u ≠ v := by
    rintro rfl
    rcases hor with hor | hge
    · exact hn hor
    · exact absurd hge (Nat.not_le.mpr hv)
  cases h.successor with
  | none => exact hne hu
  | @value old new x _ hx hres _ =>
    unfold Value.replace at hu
    split at hu
    · rw [← hu] at hv
      exact absurd (h.fresh (List.mem_of_getLast? hx) hres).1 (Nat.not_le.mpr hv)
    · exact hne hu

theorem not_reads_target (hl : b.Laid) {v : Value} (hv : a.result? = some v) : ¬ b'.Reads v := by
  have hplaced : id ∈ b.placedInstrs := Body.mem_placedInstrs.mpr ⟨k, h.block, h.holds⟩
  have hlt := (hl.made id hplaced a h.target).values v (by simp [Action.values, hv])
  intro hr
  obtain ⟨u, hu, -⟩ := h.reads hr
  cases h.successor with
  | none hnone => simp [hnone] at hv
  | @value old new x hold hx hres _ =>
    obtain rfl : old = v := by simpa [hold] using hv
    unfold Value.replace at hu
    split at hu
    · rw [← hu] at hlt
      exact absurd (h.fresh (List.mem_of_getLast? hx) hres).1 (Nat.not_le.mpr hlt)
    · exact absurd hu ‹_›

theorem resultOf?_kept {x : InstrId} (hx : x ∈ b.placedInstrs) (hne : x ≠ id) :
    b'.resultOf? x = b.resultOf? x := by
  rw [Body.resultOf?, Body.resultOf?, h.kept x hx hne, Option.bind_map]
  simp [Function.comp_def, Action.mapUses, Action.result?_rename]

end Replaced

/-- What a pass keeps, beginning with the body `b`: an instruction of `b` is still there with its
result, or nothing reads the value that it defined. -/
structure Kept (b c : Body) : Prop where
  ssa : c.SSA
  definers_le : b.definers.size ≤ c.definers.size
  results : ∀ id ∈ b.placedInstrs, ∀ v, b.resultOf? id = some v →
    (id ∈ c.placedInstrs ∧ c.resultOf? id = some v) ∨ ¬ c.Reads v

theorem Kept.refl {b : Body} (hs : b.SSA) : Kept b b :=
  ⟨hs, Nat.le_refl _, fun _ hid _ hv => .inl ⟨hid, hv⟩⟩

theorem Kept.replaced {b c c' : Body} {k : BlockId} {id : InstrId} {a : Action}
    {acts : List Action} {f : Value → Value} (hb : b.Laid) (hc : c.Laid) (hk : Kept b c)
    (h : Replaced c c' k id a acts f) : Kept b c' := by
  refine ⟨h.ssa hc hk.ssa, Nat.le_trans hk.definers_le h.definers_le, ?_⟩
  intro x hx v hv
  rcases hk.results x hx v hv with ⟨hplaced, hres⟩ | hn
  · by_cases hxid : x = id
    · subst hxid
      exact .inr (h.not_reads_target hc (by simpa [Body.resultOf?, h.target] using hres))
    · refine .inl ⟨?_, (h.resultOf?_kept hplaced hxid).trans hres⟩
      rw [h.placedInstrs, mem_expandAt]
      exact .inr ⟨hplaced, hxid⟩
  · obtain ⟨y, hy, hr⟩ := Option.bind_eq_some_iff.mp hv
    have hlt := (hb.made x hx y hy).values v (by simp [Action.values, hr])
    exact .inr (h.not_reads (Nat.lt_of_lt_of_le hlt hk.definers_le) hn)

theorem Kept.sameCode {b b' c c' : Body} (hb : SameCode b b') (hc : SameCode c c')
    (hk : Kept b' c) : Kept b c' where
  ssa := hc.ssa hk.ssa
  definers_le := by rw [hc.definers, ← hb.definers]; exact hk.definers_le
  results id hid v hv := by
    simpa only [Body.Reads, Body.resultOf?, hc.action?, hc.placedInstrs] using
      hk.results id (by rwa [hb.placedInstrs]) v (by rwa [Body.resultOf?, hb.action?])

theorem splitCopies_kept {b : Body} (hl : b.Laid) (hs : b.SSA)
    (hok : b.splitCopies.error = none) :
    b.splitCopies.body.Laid ∧ Kept b b.splitCopies.body := by
  obtain ⟨c, hc, hk, hcode⟩ := splitCopies_rule (Kept b) hl (.refl hs)
    (fun _ _ _ _ _ _ _ hc hk h => hk.replaced hl hc h.replaced) hok
  exact ⟨hcode.laid hc, hk.sameCode (.refl b) hcode⟩

theorem lowerLocals_kept {b : Body} (hl : b.Laid) (hs : b.SSA)
    (hok : b.lowerLocals.error = none) :
    b.lowerLocals.body.Laid ∧ Kept b b.lowerLocals.body := by
  obtain ⟨c, hc, hk, hcode⟩ := lowerLocals_rule (fun _ c _ => Kept b c) hl
    (fun c hc => (Kept.refl hs).sameCode (.refl b) hc) (fun _ _ _ _ _ hk _ _ _ => hk)
    (fun _ _ _ _ _ _ _ _ _ _ _ _ hc hk _ _ h => hk.replaced hl hc h.replaced) hok
  exact ⟨hcode.laid hc, hk.sameCode (.refl b) hcode⟩

/-- Both passes keep a body in SSA form, and no instruction that is left reads a value whose
definition was taken out. -/
theorem passes_keep_ssa (b : Body) (hl : b.Laid) (hs : b.SSA) :
    (b.splitCopies.error = none → b.splitCopies.body.Laid ∧ b.splitCopies.body.SSA) ∧
    (b.lowerLocals.error = none →
      b.lowerLocals.body.Laid ∧ b.lowerLocals.body.SSA ∧
      ∀ id ∈ b.placedInstrs, id ∉ b.lowerLocals.body.placedInstrs →
        ∀ v, b.resultOf? id = some v → ¬ b.lowerLocals.body.Reads v) := by
  refine ⟨fun hok => ?_, fun hok => ?_⟩
  · obtain ⟨hl', hk⟩ := splitCopies_kept hl hs hok
    exact ⟨hl', hk.ssa⟩
  · obtain ⟨hl', hk⟩ := lowerLocals_kept hl hs hok
    refine ⟨hl', hk.ssa, fun id hid hgone v hv => ?_⟩
    exact (hk.results id hid v hv).resolve_left fun h => hgone h.1

def crossed : Body :=
  let i : Variable := ⟨0, 0, "i", .scalar .uint, .local, none⟩
  let a : Variable := ⟨1, 1, "a", .array (.scalar .uint) 4, .local, none⟩
  let g : Variable := ⟨2, 2, "g", .array (.scalar .uint) 2, .global, none⟩
  let o : Variable := ⟨3, 3, "o", .array (.scalar .uint) 2, .shaderOut, none⟩
  let index : Value := ⟨0, 0, 1, 32⟩
  let read : Value := ⟨1, 1, 1, 32⟩
  { links := #[varLink i, varLink a, ⟨.array (.value index), some 1, .scalar .uint, .local⟩,
      varLink g, varLink o]
    instrs := #[⟨.copy (some 4) (some 3), some 0⟩, ⟨.load (some 2) (.value read) 1, some 1⟩,
      ⟨.intrinsic "emit" [.value read] none, some 1⟩, ⟨.load (some 0) (.value index) 1, some 2⟩]
    definers := #[some 3, some 1]
    blocks := #[⟨0, "entry", [0], [2], none, [], [], []⟩, ⟨1, "use", [1, 2], [], none, [], [], []⟩,
      ⟨2, "index", [3], [1], none, [], [], []⟩]
    layout := #[0, 1, 2]
    valueCount := 2 }

theorem crossed_ssa : crossed.SSA := by
  refine ⟨by decide +kernel, by decide +kernel, ?_⟩
  -- From the entry the blocks run in the order 0, 2, 1.
  intro path hp hhead
  have h0 : crossed.next 0 = [2] := rfl
  have h2 : crossed.next 2 = [1] := rfl
  have h1 : crossed.next 1 = [] := rfl
  rcases path with _ | ⟨i, _ | ⟨j, _ | ⟨k, _ | ⟨l, rest⟩⟩⟩⟩
  · trivial
  all_goals
    obtain rfl : i = 0 := by simpa [crossed] using hhead
  · decide +kernel
  all_goals
    obtain rfl : j = 2 := by simpa [h0] using hp.2.rel
  · decide +kernel
  all_goals
    obtain rfl : k = 1 := by simpa [h2] using hp.2.tail.rel
  · decide +kernel
  · simpa [h1] using hp.2.tail.tail.rel

/-- The copy is split, and both loads give way to moves. -/
theorem crossed_keeps_ssa :
    crossed.Laid ∧ crossed.SSA ∧ crossed.splitCopies.body.SSA ∧ crossed.lowerLocals.body.SSA ∧
      crossed.resultOf? 3 = some ⟨0, 0, 1, 32⟩ ∧
      ¬ crossed.lowerLocals.body.Reads ⟨0, 0, 1, 32⟩ := by
  have hl : crossed.Laid := by decide +kernel
  obtain ⟨hsplit, hlower⟩ := passes_keep_ssa crossed hl crossed_ssa
  obtain ⟨-, hssa, hgone⟩ := hlower (by decide +kernel)
  exact ⟨hl, crossed_ssa, (hsplit (by decide +kernel)).2, hssa, by decide +kernel,
    hgone 3 (by decide +kernel) (by decide +kernel) _ (by decide +kernel)⟩

end ShaderIR
