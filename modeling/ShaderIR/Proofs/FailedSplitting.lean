import ShaderIR.Proofs.AnalysesAcrossPasses
import ShaderIR.Proofs.CopyMeaning
import ShaderIR.Proofs.Liveness

/-!
# Analyses after splitting has failed

When a copy cannot be split, the copies before it have been split already, and every analysis that
was valid is still marked so. Indices and dominance do not depend on the code. The code that stands
for a copy reads what the copy read, since each load and store goes along its chains. But a type
without a vector or scalar in it needs no load or store. Then what the copy was indexed by is not
read any more, and the stored lists may name values that are no longer live. They never miss one.
-/

set_option autoImplicit false

namespace ShaderIR

mutual

def Ty.hasLeaf : Ty → Bool
  | .scalar _ | .vector _ _ => true
  | .array t n => decide (0 < n) && t.hasLeaf
  | .struct _ fs => Ty.fieldsHaveLeaf fs
  | .absent => false

def Ty.fieldsHaveLeaf : List (String × Ty) → Bool
  | [] => false
  | (_, t) :: fs => t.hasLeaf || Ty.fieldsHaveLeaf fs

end

theorem Ty.exists_field_of_leaf {fields : List (String × Ty)}
    (h : Ty.fieldsHaveLeaf fields = true) (name : String) :
    ∃ f < fields.length, ((Ty.struct name fields).fieldType f).hasLeaf = true := by
  induction fields with
  | nil => cases h
  | cons field fields ih =>
    rcases Bool.or_eq_true_iff.mp h with hleaf | hrest
    · exact ⟨0, by simp, hleaf⟩
    · obtain ⟨f, hf, hleaf⟩ := ih hrest
      exact ⟨f + 1, by simpa using hf, hleaf⟩

theorem exists_hop_of_uses_copy {dst src : List Hop} {v : Value}
    (h : v ∈ (Action.copy dst src).uses) :
    ∃ hop ∈ (⟨dst, src⟩ : Transfer).hops, v ∈ hop.uses := by
  simpa [Action.uses, Action.srcs, Action.dest?, Action.chains, Transfer.hops, or_and_right,
    exists_or] using h

theorem Transfer.mem_hops_cons {t : Transfer} {x y hop : Hop} (h : hop ∈ t.hops) :
    hop ∈ (⟨x :: t.dst, y :: t.src⟩ : Transfer).hops := by
  rcases List.mem_append.mp h with h | h
  · exact List.mem_append_left _ (.tail _ h)
  · exact List.mem_append_right _ (.tail _ h)

/-- Where there is a leaf, some load or store goes along the chains of the transfer. -/
theorem Unrolls.reads {ts : List Transfer} {acts : List Action} (h : Unrolls ts acts)
    {t : Transfer} (ht : t ∈ ts) (hleaf : t.type.hasLeaf = true) {hop : Hop} (hh : hop ∈ t.hops)
    {v : Value} (hv : v ∈ hop.uses) : ∃ a ∈ acts, v ∈ a.uses := by
  induction h generalizing t with
  | done => cases ht
  | @array u queue elem n vs code hu hvs hb h ih =>
    suffices hcode : ∃ a ∈ code, v ∈ a.uses by
      obtain ⟨a, ha, hav⟩ := hcode
      exact ⟨a, List.mem_append_right _ ha, hav⟩
    rcases List.mem_cons.mp ht with rfl | ht
    · -- a first element exists, and its chains go on from those of the array
      rw [hu, Ty.hasLeaf, Bool.and_eq_true, decide_eq_true_eq] at hleaf
      obtain ⟨w, hw⟩ : ∃ w, w ∈ vs := List.exists_mem_of_length_pos (by omega)
      refine ih (List.mem_append_right _ (List.mem_map_of_mem hw)) ?_ ?_
      · have htype : (t.element w).type = t.type.elementType := rfl
        rw [htype, hu]
        exact hleaf.2
      · exact Transfer.mem_hops_cons hh
    · exact ih (List.mem_append_left _ ht) hleaf hh
  | @struct u queue name fields code hu h ih =>
    rcases List.mem_cons.mp ht with rfl | ht
    · rw [hu, Ty.hasLeaf] at hleaf
      obtain ⟨f, hf, hleaf⟩ := Ty.exists_field_of_leaf hleaf name
      refine ih (List.mem_append_right _ (List.mem_map_of_mem (List.mem_range.mpr hf))) ?_ ?_
      · have htype : (t.field f).type = t.type.fieldType f := rfl
        rw [htype, hu]
        exact hleaf
      · exact Transfer.mem_hops_cons hh
    · exact ih (List.mem_append_left _ ht) hleaf hh
  | @leaf u queue w code hu hw hn h ih =>
    rcases List.mem_cons.mp ht with rfl | ht
    · rcases List.mem_append.mp hh with hh | hh
      · refine ⟨_, .tail _ (.head _), ?_⟩
        simpa [Action.uses, Action.srcs, Action.dest?, Action.chains, Site.uses]
          using .inr ⟨hop, hh, hv⟩
      · refine ⟨_, .head _, ?_⟩
        simpa [Action.uses, Action.srcs, Action.dest?, Action.chains, Site.addressUses]
          using ⟨hop, hh, hv⟩
    · obtain ⟨a, ha, hav⟩ := ih ht hleaf hh
      exact ⟨a, .tail _ (.tail _ ha), hav⟩

/-- What covered code reads before it defines it was known before. -/
theorem Covered.known_of_readsFirst {K : Value → Prop} {acts : List Action} (h : Covered K acts)
    {v : Value} (hv : ReadsFirst v acts) : K v := by
  obtain ⟨pre, a, post, rfl, ha, hpre⟩ := hv
  obtain ⟨-, huses, -⟩ := Covered.append_iff.mp h
  rcases huses v (Action.mem_uses_iff.mpr ha) with hK | ⟨x, hx, hr⟩
  · exact hK
  · exact absurd hr (hpre x hx)

/-- Code may be exchanged piece by piece for code that reads as much first and defines no more. -/
theorem readsFirst_flatMap_mono {v : Value} {g g' : InstrId → List Action} {xs : List InstrId}
    (hreads : ∀ x ∈ xs, ReadsFirst v (g x) → ReadsFirst v (g' x))
    (hdefs : ∀ x ∈ xs, (∀ a ∈ g x, a.result? ≠ some v) → ∀ a ∈ g' x, a.result? ≠ some v)
    (h : ReadsFirst v (xs.flatMap g)) : ReadsFirst v (xs.flatMap g') := by
  induction xs with
  | nil => exact h
  | cons x xs ih =>
    rw [List.flatMap_cons, readsFirst_append] at h ⊢
    rcases h with h | ⟨hx, h⟩
    · exact .inl (hreads x (.head _) h)
    · exact .inr ⟨hdefs x (.head _) hx,
        ih (fun y hy => hreads y (.tail _ hy)) (fun y hy => hdefs y (.tail _ hy)) h⟩

theorem Body.LiveInto.exists_read {b : Body} {k : BlockId} {v : Value} (h : b.LiveInto k v) :
    ∃ id ∈ b.placedInstrs, ∃ a, b.action? id = some a ∧ v ∈ a.uses := by
  obtain ⟨path, hpath, pre, a, post, halong, ha, -⟩ := h
  have hmem : a ∈ b.along (k :: path) := by
    rw [halong]
    exact List.mem_append_right _ (.head _)
  obtain ⟨j, hj, ha'⟩ := List.mem_flatMap.mp hmem
  obtain ⟨id, hid, haction⟩ := List.mem_filterMap.mp ha'
  exact ⟨id, Body.mem_placedInstrs.mpr ⟨j, hpath.1 j hj, hid⟩, a, haction,
    Action.mem_uses_iff.mpr ha⟩

namespace Splits

variable {b b' : Body} {k : BlockId} {mark : InstrId} {dst src : List Hop} {acts : List Action}
  (h : Splits b b' k mark dst src acts) {j : BlockId} {v : Value}

include h

theorem along (path : List BlockId) (hp : ∀ j ∈ path, j ∈ b.layout) :
    b'.along path = (path.flatMap b.held).flatMap fun x =>
      if x = mark then acts else (b.action? x).toList := by
  have hid : Action.mapUses id = id := funext Action.rename_id
  rw [h.replaced.along path hp]
  simp only [hid, List.map_id]

/-- After a copy is split nothing is live that was not live before. -/
theorem liveInto (hlive : b'.LiveInto j v) : b.LiveInto j v := by
  obtain ⟨path, hpath, hv⟩ := hlive
  rw [h.replaced.isPath_iff] at hpath
  refine ⟨path, hpath, ?_⟩
  rw [h.along _ hpath.1] at hv
  rw [b.along_eq]
  refine readsFirst_flatMap_mono (fun x _ hx => ?_) (fun x _ hx => ?_) hv
  · split at hx
    · rename_i heq
      have huses := h.replaced.covered.known_of_readsFirst hx
      rw [heq, h.replaced.target, Option.toList_some, readsFirst_singleton]
      exact Action.mem_uses_iff.mp huses
    · exact hx
  · split at hx
    · rename_i heq
      rw [heq, h.replaced.target]
      simp [Action.result?, Action.dest?]
    · exact hx

/-- The code for a copy reads what the copy read, if there is a leaf to copy. -/
theorem readsFirst (hl : b.Laid)
    (hkeep : (hopsType dst).hasLeaf = true ∨ (Action.copy dst src).uses = [])
    (hv : v ∈ (Action.copy dst src).uses) : ReadsFirst v acts := by
  have hplaced : mark ∈ b.placedInstrs :=
    Body.mem_placedInstrs.mpr ⟨k, h.replaced.block, h.replaced.holds⟩
  have hold : v.serial < b.definers.size :=
    (hl.made mark hplaced _ h.replaced.target).values v (List.mem_append_left _ hv)
  rcases hkeep with hleaf | hnone
  · obtain ⟨hop, hh, hu⟩ := exists_hop_of_uses_copy hv
    obtain ⟨a, ha, hav⟩ := h.unrolls.reads (.head _) hleaf hh hu
    obtain ⟨pre, post, hsplit⟩ := List.append_of_mem ha
    refine ⟨pre, a, post, hsplit, Action.mem_uses_iff.mp hav, fun x hx hr => ?_⟩
    -- what the code defines is new
    have hfresh := h.replaced.fresh (hsplit ▸ List.mem_append_left _ hx) hr
    exact absurd hold (Nat.not_lt.mpr hfresh.1)
  · rw [hnone] at hv
    cases hv

/-- If there was a leaf to copy or nothing to read, what was live still is. -/
theorem liveInto_of_live (hl : b.Laid)
    (hkeep : (hopsType dst).hasLeaf = true ∨ (Action.copy dst src).uses = [])
    (hlive : b.LiveInto j v) : b'.LiveInto j v := by
  obtain ⟨id, hid, a, ha, hread⟩ := hlive.exists_read
  have hold : v.serial < b.definers.size :=
    (hl.made id hid a ha).values v (List.mem_append_left _ hread)
  obtain ⟨path, hpath, hv⟩ := hlive
  refine ⟨path, (h.replaced.isPath_iff _).mpr hpath, ?_⟩
  rw [b.along_eq] at hv
  rw [h.along _ hpath.1]
  refine readsFirst_flatMap_mono (fun x _ hx => ?_) (fun x _ hx => ?_) hv
  · split
    · rename_i heq
      rw [heq, h.replaced.target, Option.toList_some, readsFirst_singleton] at hx
      exact h.readsFirst hl hkeep (Action.mem_uses_iff.mpr hx)
    · exact hx
  · split
    · intro x hx hr
      exact absurd hold (Nat.not_lt.mpr (h.replaced.fresh hx hr).1)
    · exact hx

end Splits

theorem byIndex_eq_of_mem {vs ws : List Value} (hv : vs.Nodup) (hw : ws.Nodup)
    (hmem : ∀ v, v ∈ Body.byIndex vs ↔ v ∈ Body.byIndex ws)
    (hinj : ∀ v ∈ Body.byIndex vs, ∀ w ∈ Body.byIndex ws, v.index = w.index → v = w) :
    Body.byIndex vs = Body.byIndex ws := by
  apply List.Perm.eq_of_pairwise _ (Body.pairwise_byIndex vs) (Body.pairwise_byIndex ws)
  · exact (List.perm_ext_iff_of_nodup (Body.nodup_byIndex hv) (Body.nodup_byIndex hw)).mpr hmem
  · exact fun v w hv hw hvw hwv => hinj v hv w hw (Nat.le_antisymm hvw hwv)

namespace Body

section

variable {b c : Body} {i : Nat} {k : BlockId}

theorem liveness?_of_head (h : c.head? k = b.head? k) : c.liveness? k = b.liveness? k := by
  have hlive := congrArg (Option.map fun blk : Block => (blk.liveIn, blk.liveOut)) h
  simp only [head?, Option.map_map, Function.comp_def] at hlive
  exact hlive

theorem Indexed.mem_livenessAt (h : b.Indexed) (hc : b.Closed) (hk : b.layout[i]? = some k)
    (v : Value) : (v ∈ (b.livenessAt i).1 ↔ b.LiveInto k v) ∧
      (v ∈ (b.livenessAt i).2 ↔ ∃ j ∈ b.next k, b.LiveInto j v) := by
  obtain ⟨hvalid, hqueue⟩ := h.liveness
  have hlt : ∀ {i k}, b.layout[i]? = some k → i < b.localUses.size := fun hk =>
    h.size_localUses ▸ (Array.getElem?_eq_some_iff.mp hk).1
  have hclosed : ∀ i < b.localUses.size, ∀ j ∈ b.flow.succs i, j < b.localUses.size := by
    intro i hi m hm
    rw [h.size_localUses] at hi
    obtain ⟨j, -, hj⟩ := (h.mem_flow_succs hc (Array.getElem?_eq_getElem hi)).mp hm
    exact hlt hj
  have hinto : ∀ {i k}, b.layout[i]? = some k → (v ∈ b.liveness.sets.into i ↔ b.LiveInto k v) :=
    fun hk => (hvalid.mem_into_iff hqueue hclosed (hlt hk) v).trans (liveInto_iff h hc hk v)
  refine ⟨mem_byIndex.trans (hinto hk), mem_byIndex.trans ?_⟩
  rw [hvalid.mem_outOf_iff hqueue hclosed (hlt hk)]
  constructor
  · rintro ⟨m, hm, hv⟩
    obtain ⟨j, hj, hplace⟩ := (h.mem_flow_succs hc hk).mp hm
    exact ⟨j, hj, (hinto hplace).mp hv⟩
  · rintro ⟨j, hj, hv⟩
    obtain ⟨m, hm⟩ := Array.mem_iff_getElem?.mp (hc k (Array.mem_of_getElem? hk) j hj)
    exact ⟨m, (h.mem_flow_succs hc hk).mpr ⟨j, hj, hm⟩, (hinto hm).mpr hv⟩

def Distinct (b : Body) : Prop :=
  ∀ id ∈ b.placedInstrs, ∀ a, b.action? id = some a → ∀ v ∈ a.uses,
    ∀ id' ∈ b.placedInstrs, ∀ a', b.action? id' = some a' → ∀ w ∈ a'.uses,
      v.index = w.index → v = w

/-- Where the same values are live, the same lists are computed. -/
theorem Indexed.livenessAt_eq (hb : b.Indexed) (hcb : b.Closed) (hd : b.Distinct) (hc : c.Indexed)
    (hcc : c.Closed) (hlayout : c.layout = b.layout) (hnext : ∀ k, c.next k = b.next k)
    (hlive : ∀ k v, c.LiveInto k v ↔ b.LiveInto k v) (hk : b.layout[i]? = some k) :
    c.livenessAt i = b.livenessAt i := by
  have hmem := hb.mem_livenessAt hcb hk
  have hmem' := hc.mem_livenessAt hcc (hlayout ▸ hk)
  have hinj : ∀ {j k v w}, b.LiveInto j v → b.LiveInto k w → v.index = w.index → v = w := by
    intro j k v w hv hw
    obtain ⟨id, hid, a, ha, hv⟩ := hv.exists_read
    obtain ⟨id', hid', a', ha', hw⟩ := hw.exists_read
    exact hd id hid a ha v hv id' hid' a' ha' w hw
  have hsound := hb.liveness.1.sound
  have hsound' := hc.liveness.1.sound
  apply Prod.ext
  · apply byIndex_eq_of_mem (hsound'.into_nodup i) (hsound.into_nodup i)
    · exact fun v => ((hmem' v).1.trans (hlive k v)).trans (hmem v).1.symm
    · exact fun v hv w hw => hinj ((hlive k v).mp ((hmem' v).1.mp hv)) ((hmem w).1.mp hw)
  · apply byIndex_eq_of_mem (hsound'.outOf_nodup i) (hsound.outOf_nodup i)
    · intro v
      refine ((hmem' v).2.trans ?_).trans (hmem v).2.symm
      simp only [hnext, hlive]
    · intro v hv w hw
      obtain ⟨j, -, hv⟩ := (hmem' v).2.mp hv
      obtain ⟨j', -, hw⟩ := (hmem w).2.mp hw
      exact hinj ((hlive j v).mp hv) hw

end

end Body

def Body.keepsReads (b : Body) (id : InstrId) : Bool :=
  match b.op? id with
  -- without a leaf there is no load or store that would read the indices
  | some (.copy dst src) => (derefType b.links dst).hasLeaf || (b.uses (.copy dst src)).isEmpty
  | _ => true

theorem Body.keepsReads_copy {b : Body} {id : InstrId} {dst src : List Hop}
    (h : b.action? id = some (.copy dst src)) : b.keepsReads id = true ↔
      (hopsType dst).hasLeaf = true ∨ (Action.copy dst src).uses = [] := by
  obtain ⟨op, hop, haction⟩ := Option.map_eq_some_iff.mp h
  rw [← haction, Body.uses_action, Body.keepsReads, hop]
  cases op with
  | copy x y =>
    cases haction
    simp [hopsType_hops]
  | _ => cases haction

theorem Body.keepsReads_other {b : Body} {id : InstrId}
    (h : ∀ dst src, b.action? id ≠ some (.copy dst src)) : b.keepsReads id = true := by
  unfold Body.keepsReads
  split
  · rename_i dst src hop
    exact absurd (by simp [Body.action?, hop, Body.action]) (h (b.hops dst) (b.hops src))
  · rfl

structure Body.SplitUpTo (b : Body) (met : List InstrId) (c : Body) : Prop where
  unlowered : c.Unlowered
  keeps : KeepsBlocks b c
  size : b.instrs.size ≤ c.instrs.size
  placed : ∀ x ∈ met, x ∈ b.placedInstrs
  rest : ∀ x ∈ b.placedInstrs, x ∉ met → x ∈ c.placedInstrs ∧ c.action? x = b.action? x
  gone : ∀ x ∈ met, ∀ dst src, b.action? x = some (.copy dst src) → x ∉ c.placedInstrs
  live : ∀ k v, c.LiveInto k v → b.LiveInto k v
  kept : (∀ x ∈ met, b.keepsReads x = true) → ∀ k v, b.LiveInto k v → c.LiveInto k v

namespace Body.SplitUpTo

variable {b c c' : Body} {met : List InstrId} {id : InstrId}

theorem start (h : b.Unlowered) : b.SplitUpTo [] b where
  unlowered := h
  keeps := .refl b
  size := Nat.le_refl _
  placed := by simp
  rest x hx _ := ⟨hx, rfl⟩
  gone := by simp
  live _ _ hv := hv
  kept _ _ _ hv := hv

theorem placed_snoc (h : b.SplitUpTo met c) (hid : id ∈ b.placedInstrs) :
    ∀ x ∈ met ++ [id], x ∈ b.placedInstrs := by
  intro x hx
  rcases List.mem_append.mp hx with hx | hx
  · exact h.placed x hx
  · exact List.mem_singleton.mp hx ▸ hid

theorem skip (h : b.SplitUpTo met c) (hid : id ∈ b.placedInstrs) (hmet : id ∉ met)
    (hcopy : ∀ dst src, c.action? id ≠ some (.copy dst src)) : b.SplitUpTo (met ++ [id]) c where
  unlowered := h.unlowered
  keeps := h.keeps
  size := h.size
  placed := h.placed_snoc hid
  rest x hx hn := h.rest x hx fun hx => hn (List.mem_append_left _ hx)
  gone x hx dst src ha := by
    rcases List.mem_append.mp hx with hx | hx
    · exact h.gone x hx dst src ha
    · rw [List.mem_singleton.mp hx, ← (h.rest id hid hmet).2] at ha
      exact absurd ha (hcopy dst src)
  live := h.live
  kept hkeep := h.kept fun x hx => hkeep x (List.mem_append_left _ hx)

theorem split (h : b.SplitUpTo met c) (hl : b.Laid) (hid : id ∈ b.placedInstrs) (hmet : id ∉ met)
    {k : BlockId} {dst src : List Hop} {acts : List Action}
    (hs : Splits c c' k id dst src acts) : b.SplitUpTo (met ++ [id]) c' where
  unlowered := h.unlowered.split hs
  keeps := h.keeps.replaced hs.replaced
  size := by
    rw [hs.replaced.size]
    exact Nat.le_add_right_of_le h.size
  placed := h.placed_snoc hid
  rest x hx hn := by
    obtain ⟨hplaced, haction⟩ := h.rest x hx fun hx => hn (List.mem_append_left _ hx)
    have hne : x ≠ id := fun heq => hn (by simp [heq])
    constructor
    · rw [hs.replaced.placedInstrs, mem_expandAt]
      exact .inr ⟨hplaced, hne⟩
    · rw [hs.action?_kept hplaced hne, haction]
  gone x hx dst src ha hplaced := by
    have hlt := hl.lt_size (h.placed_snoc hid x hx)
    rcases hs.replaced.cases_placed hplaced with ⟨i, y, -, rfl⟩ | ⟨hold, hne⟩
    · -- a new instruction stands behind all those of `b`
      exact absurd (Nat.lt_of_lt_of_le hlt h.size) (Nat.not_lt.mpr (Nat.le_add_right _ _))
    · rcases List.mem_append.mp hx with hx | hx
      · exact h.gone x hx dst src ha hold
      · exact hne (List.mem_singleton.mp hx)
  live j v hv := h.live j v (hs.liveInto hv)
  kept hkeep j v hv := by
    have haction := (h.rest id hid hmet).2.symm.trans hs.replaced.target
    apply hs.liveInto_of_live h.unlowered.toLaid
    · exact (Body.keepsReads_copy haction).mp (hkeep id (by simp))
    · exact h.kept (fun x hx => hkeep x (List.mem_append_left _ hx)) j v hv

end Body.SplitUpTo

theorem split_refused {s : Split} {k : BlockId} {id : InstrId} {a : Action} (hl : s.body.Laid)
    (hk : k ∈ s.body.layout) (hid : id ∈ s.body.held k) (ha : s.body.action? id = some a)
    (hu : a.Unlowered) (hfail : (Split.instr k s id).error ≠ none) :
    (Split.instr k s id).body = s.body := by
  cases herror : s.error with
  | some e => rw [split_stuck (by simp [herror])]
  | none =>
    rw [split_fault hl herror hk hid ha hu] at hfail
    cases a with
    | copy dst src =>
      -- copies between places of one type are split
      have hne : hopsType dst ≠ hopsType src := fun hsame => hfail (by simp [Action.mismatch?, hsame])
      rw [split_stops k herror ha hne]
    | _ => exact absurd rfl hfail

/-- A failing pass has split the copies up to the one it fails at. -/
theorem splitUpTo_of_error {b : Body} (h : b.Unlowered) (hfail : b.splitCopies.error ≠ none) :
    ∃ met, b.SplitUpTo met b.splitCopies.body := by
  have hwalk := splitBlocks_rule (fun met s => b.SplitUpTo met s.body)
    (fun met _ _ s => s.error ≠ none ∧ b.SplitUpTo met s.body) h.toLaid (.start h)
    (fun met id s _ hI hid hmet hcopy => hI.skip hid hmet hcopy)
    (fun met s s' k id dst src acts _ hI hid hmet _ hs => hI.split h.toLaid hid hmet hs)
    (fun met s k id hl _ hI hk hid herror => by
      have hplaced : id ∈ s.body.placedInstrs := Body.mem_placedInstrs.mpr ⟨k, hk, hid⟩
      obtain ⟨a, ha⟩ := hl.exists_action hplaced
      refine ⟨herror, ?_⟩
      rw [split_refused hl hk hid ha (hI.unlowered.actions id hplaced a ha) herror]
      exact hI)
    (fun _ _ _ _ hF => hF.1)
  rw [splitCopies_of_error hfail]
  rcases hwalk with ⟨hok, -⟩ | ⟨js, k, rest, pre, id, post, -, -, -, hup⟩
  · exact absurd hok (splitCopies_error b ▸ hfail)
  · exact ⟨_, hup⟩

/-- The value with an index is the one that its definition defines. -/
theorem Body.Coherent.distinct {b : Body} {globals : List Variable} (h : b.Coherent globals) :
    b.Distinct := by
  have hdefined : ∀ id ∈ b.placedInstrs, ∀ a, b.action? id = some a → ∀ v ∈ a.uses,
      ∃ d ∈ b.placedInstrs, b.defined? d = some v := by
    intro id hid a ha v hv
    obtain ⟨op, hop, rfl⟩ := Option.map_eq_some_iff.mp ha
    obtain ⟨pre, post, hsplit⟩ := List.append_of_mem hid
    rw [Body.uses_action] at hv
    obtain ⟨d, hd, hdef⟩ := h.reads pre id post hsplit op hop v hv
    exact ⟨d, hsplit ▸ List.mem_append_left _ hd, hdef⟩
  intro id hid a ha v hv id' hid' a' ha' w hw hindex
  obtain ⟨d, hd, hdv⟩ := hdefined id hid a ha v hv
  obtain ⟨d', hd', hdw⟩ := hdefined id' hid' a' ha' w hw
  have hsame : d = d' := (h.defined v.index (h.results d hd v hdv).1).unique ⟨hd, v, hdv, rfl⟩
    ⟨hd', w, hdw, hindex.symm⟩
  rw [hsame] at hdv
  exact Option.some.inj (hdv.symm.trans hdw)

theorem Body.Ordered.closed {b : Body} (h : b.Ordered) : b.Closed := by
  intro k hk j hj
  obtain ⟨i, hi⟩ := Array.mem_iff_getElem?.mp hk
  obtain ⟨blk, hblk, -, -, hsuccs⟩ := h i k hi
  rw [Body.next, hblk] at hj
  exact hsuccs j hj

theorem Description.distinct {d : Description} {s : Shader} {i : Nat} {b : Body}
    (h : d.toShader = .ok s) (hb : s.body? i = some b) : b.Closed ∧ b.Distinct := by
  have hs := Description.loaded h
  obtain ⟨store, store', -, hr⟩ := hs.resides i b hb
  have hcoherent : b.Coherent s.globals.toList := hr.coherent (fun v hv => hs.local_mode hb hv)
    fun v hv => hs.globals v (Array.mem_toList_iff.mp hv)
  exact ⟨hr.ordered.closed, hcoherent.distinct⟩

namespace Body

variable {b : Body}

theorem Honest.current (h : b.Honest) (hl : b.Laid) (hi : b.Indexed) : b.Current := by
  have hflow := hi.reanalyzed_flow
  have hcode : SameCode b b.reanalyzed := (SameCode.preserve b .none).trans (.require _ .all)
  refine ⟨hl, hi, fun hv i k hk => ?_, fun hv i k hk => ?_⟩
  · rw [h.dominance hv k (Array.mem_of_getElem? hk),
      hi.reanalyzed_dominance i k (hflow.layout ▸ hk), hflow.dominanceAt]
  · rw [h.liveness hv k (Array.mem_of_getElem? hk),
      hi.reanalyzed_liveness i k (hflow.layout ▸ hk), hflow.livenessAt hcode]

/-- Indices and dominance that are marked valid are what a fresh computation would give, and the
lists of live values miss none. -/
structure Conservative (b : Body) : Prop where
  index : b.valid.index = true → ∀ k ∈ b.layout,
    b.blocks[k]?.map Block.index = b.reanalyzed.blocks[k]?.map Block.index
  dominance : b.valid.dominance = true → ∀ k ∈ b.layout,
    b.dominance? k = b.reanalyzed.dominance? k
  liveness : b.valid.liveness = true → ∀ k ∈ b.layout, ∃ stored fresh,
    b.liveness? k = some stored ∧ b.reanalyzed.liveness? k = some fresh ∧
      fresh.1 ⊆ stored.1 ∧ fresh.2 ⊆ stored.2

end Body

namespace Body.SplitUpTo

variable {b c : Body} {met : List InstrId} (h : b.SplitUpTo met c) (hb : b.Current)
  (hclosed : b.Closed)

include h

theorem flow : SameFlow b c := .of_head h.keeps.layout h.keeps.head

theorem next (k : BlockId) : c.next k = b.next k := Body.next_of_head (h.keeps.head k)

include hclosed in
theorem closed : c.Closed := hclosed.congr h.keeps.layout h.next

include hb

theorem dominance (hv : c.valid.dominance = true) : c.DominanceCurrent :=
  (hb.dominance (h.keeps.valid ▸ hv)).congr h.flow fun k => dominance?_of_head (h.keeps.head k)

/-- The lists on the blocks are those that were computed before the walk. -/
theorem liveness? (hv : c.valid.liveness = true) {i : Nat} {k : BlockId}
    (hk : b.layout[i]? = some k) : c.liveness? k = some (b.livenessAt i) := by
  rw [liveness?_of_head (h.keeps.head k)]
  exact hb.liveness (h.keeps.valid ▸ hv) i k hk

include hclosed

theorem conservative : c.Conservative := by
  have hi := h.flow.indexed hb.indexed
  have hflow := hi.reanalyzed_flow
  have hcode : SameCode c c.reanalyzed := (SameCode.preserve c .none).trans (.require _ .all)
  refine ⟨?_, ?_, ?_⟩
  · exact fun _ k _ => (hflow.index k).symm
  · exact fun hv k hk => (h.dominance hb hv).eq_reanalyzed (.refl c) hi hk
  · intro hv k hk
    obtain ⟨i, hplace⟩ := Array.mem_iff_getElem?.mp hk
    have hplace' : b.layout[i]? = some k := h.keeps.layout ▸ hplace
    have hmem := hi.mem_livenessAt (h.closed hclosed) hplace
    have hmem' := hb.indexed.mem_livenessAt hclosed hplace'
    refine ⟨_, c.livenessAt i, h.liveness? hb hv hplace', ?_, fun v hlive => ?_, fun v hlive => ?_⟩
    · rw [hi.reanalyzed_liveness i k (hflow.layout ▸ hplace), hflow.livenessAt hcode]
    · exact (hmem' v).1.mpr (h.live k v ((hmem v).1.mp hlive))
    · obtain ⟨j, hj, hlive⟩ := (hmem v).2.mp hlive
      exact (hmem' v).2.mpr ⟨j, h.next k ▸ hj, h.live j v hlive⟩

theorem honest (hdistinct : b.Distinct) (hkeep : ∀ x ∈ met, b.keepsReads x = true) :
    c.Honest := by
  have hi := h.flow.indexed hb.indexed
  refine hi.honest (h.dominance hb) fun hv i k hk => ?_
  have hlive : ∀ k v, c.LiveInto k v ↔ b.LiveInto k v := fun k v =>
    ⟨h.live k v, h.kept hkeep k v⟩
  have hplace : b.layout[i]? = some k := h.keeps.layout ▸ hk
  rw [h.liveness? hb hv hplace, hb.indexed.livenessAt_eq hclosed hdistinct hi (h.closed hclosed)
    h.keeps.layout h.next hlive hplace]

end Body.SplitUpTo

theorem SameCode.distinct {b c : Body} (h : SameCode b c) (hb : b.Distinct) : c.Distinct := by
  unfold Body.Distinct at hb ⊢
  simp only [h.placedInstrs, h.action?]
  exact hb

/-- When splitting fails in a function that came from the loader and whose marks were right, the
marks stay as they were. Indices and dominance are still right, and the lists of live values still
have every value that is live. They are right too unless one of the copies that are gone had a type
without a vector or scalar and a chain with a value for an index. -/
theorem splitCopies_failure_analyses {d : Description} {s : Shader} {i : Nat} {b₀ b : Body}
    (hload : d.toShader = .ok s) (hb : s.body? i = some b₀) (hcode : SameCode b₀ b)
    (hflow : SameFlow b₀ b) (hhonest : b.Honest) (hfail : b.splitCopies.error ≠ none) :
    b.splitCopies.body.valid = b.valid ∧ b.splitCopies.body.Conservative ∧
    ((∀ id ∈ b.placedInstrs, id ∉ b.splitCopies.body.placedInstrs → b.keepsReads id = true) →
      b.splitCopies.body.Honest) := by
  have hi : b.Indexed := hflow.indexed (Description.current hload hb).indexed
  have hu : b.Unlowered :=
    ((Description.loaded hload).unlowered hb).sameCode hcode fun k _ => hflow.blockIndex k
  have hcurrent := hhonest.current hu.toLaid hi
  obtain ⟨hclosed₀, hdistinct⟩ := Description.distinct hload hb
  have hclosed : b.Closed := hclosed₀.congr hcode.layout hcode.next
  obtain ⟨met, hup⟩ := splitUpTo_of_error hu hfail
  refine ⟨hup.keeps.valid, hup.conservative hcurrent hclosed, fun hcopies => ?_⟩
  refine hup.honest hcurrent hclosed (hcode.distinct hdistinct) fun x hx => ?_
  by_cases hcopy : ∃ dst src, b.action? x = some (.copy dst src)
  · obtain ⟨dst, src, ha⟩ := hcopy
    exact hcopies x (hup.placed x hx) (hup.gone x hx dst src ha)
  · exact Body.keepsReads_other fun dst src ha => hcopy ⟨dst, src, ha⟩

def lopsided (dst src : String) : Description where
  format := "1.0"
  shader := "lopsided"
  structs := [⟨"E", []⟩, ⟨"P", [{ name := "e", type := "E" }, { name := "x", type := "vec3[2]" }]⟩]
  globals := [{ name := "u", type := "uint", mode := "uniform" }]
  functions :=
    [⟨"main", [{ name := "a", type := "E[2]" }, { name := "e", type := "E" },
        { name := "p", type := "P[2]" }, { name := "q", type := "P" },
        { name := "x", type := "float" }, { name := "z", type := "int" }],
      [⟨"entry", ["next"], [{ op := "load", result := "i", deref := "u" }]⟩,
        -- the second copy is from an integer to a float and fails
        ⟨"next", [], [{ op := "copy", dst, src }, { op := "copy", dst := "x", src := "z" }]⟩]⟩]

/-- The copy of a whole struct is gone, and everything is still marked valid and right. -/
theorem lopsided_stays_honest : ∃ s b, (lopsided "p[i]" "q").toShader = .ok s ∧
    s.body? 0 = some b ∧ (b.require .all).splitCopies.error ≠ none ∧
    1 ∉ (b.require .all).splitCopies.body.placedInstrs ∧
    (b.require .all).splitCopies.body.valid = .all ∧
    (b.require .all).splitCopies.body.Honest := by
  have hrun : ((lopsided "p[i]" "q").toShader.toOption.bind fun s => (s.body? 0).map fun b =>
      let c := b.require .all
      (c.splitCopies.error.isSome, decide (1 ∈ c.splitCopies.body.placedInstrs), c.valid,
        c.placedInstrs.all c.keepsReads)) = some (true, false, Analyses.all, true) := by
    decide +kernel
  obtain ⟨s, hs, hrun⟩ := Option.bind_eq_some_iff.mp hrun
  obtain ⟨b, hb, hrun⟩ := Option.map_eq_some_iff.mp hrun
  simp only [Prod.mk.injEq, List.all_eq_true, decide_eq_false_iff_not] at hrun
  obtain ⟨herror, hgone, hvalid, hkeep⟩ := hrun
  have hok := ok_of_toOption hs
  have hcurrent := Description.current hok hb
  have hfail := Option.isSome_iff_ne_none.mp herror
  obtain ⟨hmarks, -, hhonest⟩ := splitCopies_failure_analyses hok hb (.require b .all)
    (hcurrent.indexed.require_flow .all) (hcurrent.require .all).honest hfail
  exact ⟨s, b, hok, hb, hfail, hgone, hmarks.trans hvalid, hhonest fun id hid _ => hkeep id hid⟩

/-- The copy of a struct without fields is gone, and nobody reads its index any more. The index is
still in the list of the block, which is marked valid. -/
theorem lopsided_keeps_old_liveness : ∃ s b, (lopsided "a[i]" "e").toShader = .ok s ∧
    s.body? 0 = some b ∧ (b.require .all).Honest ∧
    (b.require .all).splitCopies.body.valid.liveness = true ∧
    ¬ (b.require .all).splitCopies.body.Honest := by
  have hrun : ((lopsided "a[i]" "e").toShader.toOption.bind fun s => (s.body? 0).map fun b =>
      let c := (b.require .all).splitCopies.body
      (c.valid.liveness, c.layout, (c.liveness? 1).map fun l => l.1.map (·.index),
        (c.reanalyzed.liveness? 1).map fun l => l.1.map (·.index))) =
          some (true, #[0, 1], some [0], some []) := by
    decide +kernel
  obtain ⟨s, hs, hrun⟩ := Option.bind_eq_some_iff.mp hrun
  obtain ⟨b, hb, hrun⟩ := Option.map_eq_some_iff.mp hrun
  simp only [Prod.mk.injEq] at hrun
  obtain ⟨hvalid, hlayout, hstored, hfresh⟩ := hrun
  have hok := ok_of_toOption hs
  refine ⟨s, b, hok, hb, ((Description.current hok hb).require .all).honest, hvalid, fun h => ?_⟩
  have hlive := h.liveness hvalid 1 (by simp [hlayout])
  rw [hlive, hfresh] at hstored
  cases hstored

end ShaderIR
