import ShaderIR.Proofs.LoadedFunction
import ShaderIR.Proofs.SplittingStep

/-!
# Bodies before lowering

Until a function is lowered it names no register, its chains lead over elements and fields of its
variables, and what it loads is a vector or scalar. Functions come from the loader in this form.
Splitting keeps it, and so does whatever happens to other functions.
-/

set_option autoImplicit false

namespace ShaderIR

structure Action.Unlowered (a : Action) : Prop where
  slotless : ∀ x ∈ a.srcs ++ a.dest?.toList, ∀ s, x ≠ .slot s
  complete : ∀ hops ∈ a.chains, (hopsType hops).complete = true
  load : ∀ hops dest n, a = .load hops dest n → (hopsType hops).isVectorOrScalar = true

structure Body.Unlowered (b : Body) : Prop extends b.Laid where
  plain : PlainArena b.links
  actions : ∀ id ∈ b.placedInstrs, ∀ a ∈ b.action? id, a.Unlowered
  indexed : ∀ (i : Nat) (k : BlockId), b.layout[i]? = some k → b.blockIndex k = i

theorem Action.Unlowered.mapUses {a : Action} (h : a.Unlowered) (f : Value → Value) :
    (a.mapUses f).Unlowered := by
  constructor
  · intro x hx s hxs
    rw [Action.mapUses, Action.srcs_rename, Action.dest?_rename, Option.toList_map,
      List.mem_append] at hx
    have hsite : ∃ y ∈ a.srcs ++ a.dest?.toList, ∃ r, x = y.rename f r := by
      rcases hx with hx | hx
      · obtain ⟨y, hy, rfl⟩ := List.mem_map.mp hx
        exact ⟨y, List.mem_append_left _ hy, f, rfl⟩
      · obtain ⟨y, hy, rfl⟩ := List.mem_map.mp hx
        exact ⟨y, List.mem_append_right _ hy, id, rfl⟩
    obtain ⟨y, hy, r, rfl⟩ := hsite
    cases y with
    | slot s' => exact h.slotless _ hy s' rfl
    | _ => cases hxs
  · intro hops hh
    rw [Action.mapUses, Action.chains_rename] at hh
    obtain ⟨hops', hh', rfl⟩ := List.mem_map.mp hh
    rw [hopsType_map]
    exact h.complete hops' hh'
  · intro hops dest n heq
    cases a with
    | load hops' dest' n' =>
      cases heq
      rw [hopsType_map]
      exact h.load hops' dest' n rfl
    | _ => cases heq

section

variable {b c : Body}

theorem site_of_slotless {o : Operand} (h : o.slot? = none) : c.site o = b.site o := by
  cases o with
  | slot s => cases h
  | _ => rfl

theorem hops_of_slotless (hlinks : c.links = b.links) (hslot : ∀ l ∈ b.links, l.slot? = none)
    (h : Handle) : c.hops h = b.hops h := by
  rw [Body.hops, Body.hops, hlinks]
  apply List.map_congr_left
  intro l hl
  have hnone := hslot l (mem_of_mem_chain hl)
  cases hk : l.kind with
  | array index =>
    have hindex : index.slot? = none := by simpa [Link.slot?, hk] using hnone
    simp [Body.hop, hk, site_of_slotless (b := b) (c := c) hindex]
  | _ => simp [Body.hop, hk]

/-- An action that names no register does not depend on the table of slots. -/
theorem action_of_slotless (hlinks : c.links = b.links) (hslot : ∀ l ∈ b.links, l.slot? = none)
    {op : Op} (h : (b.action op).Unlowered) : c.action op = b.action op := by
  have hhops := hops_of_slotless hlinks hslot
  have hsite : ∀ o, b.site o ∈ (b.action op).srcs → c.site o = b.site o := by
    intro o ho
    apply site_of_slotless
    cases o with
    | slot s => exact absurd rfl (h.slotless _ (List.mem_append_left _ ho) (b.slot s))
    | _ => rfl
  have htarget : ∀ d, (b.action op).dest? = some (b.target d) → c.target d = b.target d := by
    intro d hd
    cases d with
    | slot s =>
      exact absurd rfl (h.slotless _ (List.mem_append_right _ (by simp [hd, Body.target])) (b.slot s))
    | _ => rfl
  cases op with
  | alu op srcs dest mask =>
    have hsrcs : srcs.map c.site = srcs.map b.site :=
      List.map_congr_left fun o ho => hsite o (List.mem_map_of_mem ho)
    simp only [Body.action, hsrcs, htarget dest rfl]
  | const v values => rfl
  | load x dest n => simp only [Body.action, hhops, htarget dest rfl]
  | store x v mask => simp only [Body.action, hhops, hsite v (List.mem_singleton.mpr rfl)]
  | copy x y => simp only [Body.action, hhops]
  | intrinsic name srcs dest =>
    have hsrcs : srcs.map c.site = srcs.map b.site :=
      List.map_congr_left fun o ho => hsite o (List.mem_map_of_mem ho)
    have hdest : dest.map c.target = dest.map b.target := by
      cases dest with
      | none => rfl
      | some d => rw [Option.map_some, Option.map_some, htarget d rfl]
    simp only [Body.action, hsrcs, hdest]

theorem Body.Unlowered.action?_undisturbed (h : b.Unlowered) (hu : Undisturbed b c) {id : InstrId}
    (hid : id ∈ b.placedInstrs) : c.action? id = b.action? id := by
  rw [Body.action?, Body.action?, hu.op? hid]
  cases hop : b.op? id with
  | none => rfl
  | some op =>
    have haction : b.action? id = some (b.action op) := by rw [Body.action?, hop, Option.map_some]
    rw [Option.map_some, Option.map_some,
      action_of_slotless hu.links h.plain.slotless (h.actions id hid _ haction)]

theorem Undisturbed.blockIndex (hu : Undisturbed b c) {k : BlockId} (hk : k ∈ b.layout) :
    c.blockIndex k = b.blockIndex k := by
  rw [Body.blockIndex, Body.blockIndex, hu.blocks k hk]

theorem srcs_action (b : Body) (op : Op) : (b.action op).srcs = op.srcs.map b.site := by
  cases op <;> rfl

theorem dest?_action {op : Op} {s : SlotId} (h : op.slotDest? = some s) :
    (b.action op).dest? = some (.slot (b.slot s)) := by
  have htarget : ∀ d : Dest, d.slot? = some s → b.target d = .slot (b.slot s) := by
    intro d hd
    cases d <;> cases hd
    rfl
  cases op with
  | alu op srcs dest mask => exact congrArg some (htarget dest h)
  | load x dest n => exact congrArg some (htarget dest h)
  | intrinsic name srcs dest =>
    obtain ⟨d, rfl, hd⟩ := Option.bind_eq_some_iff.mp h
    exact congrArg some (htarget d hd)
  | _ => cases h

/-- An operation whose action names no register names no slot. -/
theorem Action.Unlowered.slots {op : Op} (h : (b.action op).Unlowered) : op.slots = [] := by
  apply List.eq_nil_iff_forall_not_mem.mpr
  intro s hs
  rcases List.mem_append.mp hs with hs | hs
  · obtain ⟨o, ho, hos⟩ := List.mem_filterMap.mp hs
    have hmem : b.site o ∈ (b.action op).srcs := srcs_action b op ▸ List.mem_map_of_mem ho
    cases o with
    | slot s' => exact h.slotless _ (List.mem_append_left _ hmem) _ rfl
    | _ => cases hos
  · have hdest := dest?_action (b := b) (Option.mem_toList.mp hs)
    exact h.slotless (.slot (b.slot s)) (List.mem_append_right _ (by simp [hdest])) _ rfl

theorem Body.Unlowered.undisturbed (h : b.Unlowered) (hu : Undisturbed b c)
    (hrec : c.toStore.Recorded) : c.Unlowered where
  indices l hl s hs := by
    rw [hu.links] at hl
    rw [h.plain.slotless l hl] at hs
    cases hs
  descending := hu.links ▸ h.descending
  once := hu.placedInstrs ▸ h.once
  home k hk id hid := by
    rw [hu.layout] at hk
    rw [hu.held hk] at hid
    rw [hu.instrs id (Body.mem_placedInstrs.mpr ⟨k, hk, hid⟩)]
    exact h.home k hk id hid
  named id hid op hop := by
    rw [hu.placedInstrs] at hid
    rw [hu.op? hid] at hop
    have haction : b.action? id = some (b.action op) := by simp [Body.action?, Option.mem_def.mp hop]
    refine ⟨?_, ?_⟩
    · rw [(h.actions id hid _ haction).slots]
      simp
    · rw [hu.links]
      exact (h.named id hid op hop).derefs
  made id hid a ha := by
    rw [hu.placedInstrs] at hid
    rw [h.action?_undisturbed hu hid] at ha
    have hmade := h.made id hid a ha
    exact ⟨fun v hv => Nat.lt_of_lt_of_le (hmade.values v hv) hu.definers_le,
      fun r hr => Nat.lt_of_lt_of_le (hmade.registers r hr) hu.registerCount_le⟩
  recorded := hrec
  plain := hu.links ▸ h.plain
  actions id hid a ha := by
    rw [hu.placedInstrs] at hid
    rw [h.action?_undisturbed hu hid] at ha
    exact h.actions id hid a ha
  indexed i k hk := by
    rw [hu.layout] at hk
    rw [hu.blockIndex (Array.mem_of_getElem? hk)]
    exact h.indexed i k hk

end

/-- Code that works off transfers between places of one type names no register and loads vectors and
scalars. -/
theorem Unrolls.unlowered {ts : List Transfer} {acts : List Action} (h : Unrolls ts acts)
    (heven : ∀ t ∈ ts, t.Even) : ∀ a ∈ acts, a.Unlowered := by
  induction h with
  | done => simp
  | @array t queue elem n vs code ht hv hb h ih =>
    intro a ha
    rcases List.mem_append.mp ha with ha | ha
    · obtain ⟨v, -, i, rfl⟩ := mem_indexCode ha
      exact ⟨by simp [Action.srcs, Action.dest?], by simp [Action.chains], by simp⟩
    · apply ih _ a ha
      intro u hu
      rcases List.mem_append.mp hu with hu | hu
      · exact heven u (.tail _ hu)
      · obtain ⟨w, -, rfl⟩ := List.mem_map.mp hu
        exact (heven t (.head _)).element ht w
  | @struct t queue name fields code ht h ih =>
    apply ih
    intro u hu
    rcases List.mem_append.mp hu with hu | hu
    · exact heven u (.tail _ hu)
    · obtain ⟨f, hf, rfl⟩ := List.mem_map.mp hu
      exact (heven t (.head _)).field ht (List.mem_range.mp hf)
  | @leaf t queue v code ht hv hn h ih =>
    obtain ⟨hsame, hcomplete⟩ := heven t (.head _)
    intro a ha
    rcases List.mem_cons.mp ha with rfl | ha
    · refine ⟨by simp [Action.srcs, Action.dest?], ?_, ?_⟩
      · simpa [Action.chains, hsame] using hcomplete
      · rintro hops dest n ⟨⟩
        rw [hsame]
        exact ht
    · rcases List.mem_cons.mp ha with rfl | ha
      · refine ⟨by simp [Action.srcs, Action.dest?], ?_, by simp⟩
        intro hops hh
        rw [List.mem_singleton.mp hh]
        exact hcomplete
      · exact ih (fun u hu => heven u (.tail _ hu)) a ha

theorem Body.Unlowered.split {b b' : Body} {k : BlockId} {id : InstrId} {dst src : List Hop}
    {acts : List Action} (h : b.Unlowered) (hs : Splits b b' k id dst src acts) :
    b'.Unlowered where
  toLaid := hs.replaced.laid
  plain := hs.plain h.plain
  actions x hx a ha := by
    have hplaced : id ∈ b.placedInstrs :=
      Body.mem_placedInstrs.mpr ⟨k, hs.replaced.block, hs.replaced.holds⟩
    have heven : Transfer.Even ⟨dst, src⟩ :=
      ⟨hs.same.symm, (h.actions id hplaced _ hs.replaced.target).complete dst (.head _)⟩
    have hnew := hs.unrolls.unlowered (by simpa using heven)
    rcases hs.replaced.cases_placed hx with ⟨i, y, hy, rfl⟩ | ⟨hx, hne⟩
    · rw [hs.replaced.added i y hy] at ha
      rw [← Option.some.inj ha]
      exact (hnew y (List.mem_of_getElem? hy)).mapUses _
    · rw [hs.replaced.kept x hx hne] at ha
      obtain ⟨y, hy, rfl⟩ := Option.map_eq_some_iff.mp ha
      exact (h.actions x hx y hy).mapUses _
  indexed i j hj := by
    rw [hs.replaced.layout] at hj
    rw [Body.index_of_head (hs.replaced.head j)]
    exact h.indexed i j hj

section

variable {b c : Body}

/-- The code alone decides, once the blocks have the same numbers. -/
theorem Body.Unlowered.sameCode (h : b.Unlowered) (hc : SameCode b c)
    (hindex : ∀ k ∈ b.layout, c.blockIndex k = b.blockIndex k) : c.Unlowered where
  toLaid := hc.laid h.toLaid
  plain := hc.links ▸ h.plain
  actions id hid a ha := by
    rw [hc.placedInstrs] at hid
    rw [hc.action?] at ha
    exact h.actions id hid a ha
  indexed i k hk := by
    rw [hc.layout] at hk
    rw [hindex k (Array.mem_of_getElem? hk)]
    exact h.indexed i k hk

theorem blockIndex_mapBlocks (b : Body) {f : Nat → Block → Block}
    (hf : ∀ i blk, (f i blk).index = blk.index) (k : BlockId) :
    (b.mapBlocks f).blockIndex k = b.blockIndex k := by
  rw [Body.blockIndex, Body.blockIndex, SameCode.getElem?_mapBlocks b Block.index hf]

theorem blockIndex_indexBlocks (hindexed : ∀ (i : Nat) (k : BlockId), b.layout[i]? = some k →
    b.blockIndex k = i) (k : BlockId) : b.indexBlocks.blockIndex k = b.blockIndex k := by
  have hfold : ∀ (ids : List (BlockId × Nat)) (blocks : Array Block),
      (∀ x ∈ ids, (blocks[x.1]?.map Block.index).getD 0 = x.2) →
      ((ids.foldl (fun blocks x => blocks.modify x.1 fun blk => { blk with index := x.2 })
        blocks)[k]?.map Block.index).getD 0 = (blocks[k]?.map Block.index).getD 0 := by
    intro ids
    induction ids with
    | nil => intro _ _; rfl
    | cons x ids ih =>
      intro blocks hids
      have hstep : ∀ j : Nat, ((blocks.modify x.1 fun blk => { blk with index := x.2 })[j]?.map
          Block.index).getD 0 = (blocks[j]?.map Block.index).getD 0 := by
        intro j
        have hx := hids x (.head _)
        by_cases hj : x.1 = j
        · subst hj
          cases hblk : blocks[x.1]? with
          | none => simp [Array.getElem?_modify, hblk]
          | some blk =>
            rw [hblk] at hx
            simp only [Option.map_some, Option.getD_some] at hx
            simp [Array.getElem?_modify, hblk, hx]
        · rw [Array.getElem?_modify, if_neg hj]
      rw [List.foldl_cons, ih, hstep]
      intro y hy
      rw [hstep]
      exact hids y (.tail _ hy)
  apply hfold
  intro x hx
  apply hindexed
  rw [← Array.getElem?_toList]
  exact List.mem_zipIdx_iff_getElem?.mp hx

theorem Body.Unlowered.require (h : b.Unlowered) (wanted : Analyses) :
    (b.require wanted).Unlowered ∧ ∀ k, (b.require wanted).blockIndex k = b.blockIndex k := by
  have hindex : ∀ k, (b.require wanted).blockIndex k = b.blockIndex k := by
    intro k
    have hensure : b.ensureIndex.blockIndex k = b.blockIndex k := by
      unfold Body.ensureIndex
      split
      · rfl
      · exact blockIndex_indexBlocks h.indexed k
    have hdominance : ∀ c : Body, c.ensureDominance.blockIndex k = c.blockIndex k := by
      intro c
      show c.computeDominance.blockIndex k = _
      simp only [Body.computeDominance]
      apply blockIndex_mapBlocks
      exact fun _ _ => rfl
    have hliveness : ∀ c : Body, c.ensureLiveness.blockIndex k = c.blockIndex k := by
      intro c
      show c.computeLiveness.blockIndex k = _
      simp only [Body.computeLiveness]
      apply blockIndex_mapBlocks
      exact fun _ _ => rfl
    unfold Body.require
    dsimp only
    split <;> split <;> split <;> simp [hensure, hdominance, hliveness]
  exact ⟨h.sameCode (.require b wanted) fun k _ => hindex k, hindex⟩

theorem Body.Unlowered.splitCopies (h : b.Unlowered) (hok : b.splitCopies.error = none) :
    b.splitCopies.body.Unlowered := by
  obtain ⟨-, hbody⟩ := splitBlocks_keeps (fun _ s => s.body.Unlowered) h.toLaid h
    (fun _ _ _ _ hI _ _ _ => hI) (fun _ _ _ _ _ _ _ _ _ hI _ _ _ hs => hI.split hs)
    (splitCopies_error b ▸ hok)
  apply hbody.sameCode (splitCopies_body hok)
  intro k _
  rw [splitCopies_eq hok]
  split <;> rfl

end

section

variable {first last serials : Nat} {vars : List Variable} {b : Body}

theorem LoadedBody.plain (h : LoadedBody first last serials vars b)
    (htypes : ∀ v ∈ vars, v.type.complete = true) : PlainArena b.links := by
  refine ⟨h.built, h.castless, ?_, ?_⟩
  · intro l hl
    cases hk : l.kind with
    | array o =>
      obtain ⟨v, rfl, -⟩ := h.indices l hl o hk
      simp [Link.slot?, hk, Operand.slot?]
    | _ => simp [Link.slot?, hk]
  · intro l hl
    obtain ⟨n, hn⟩ := Array.mem_iff_getElem?.mp hl
    have hchain := chain_some h.built.descending hn
    have htyped := h.built.typed_chain (some n)
    have hmem : ∀ r ∈ chain b.links (some n), r ∈ b.links := fun r hr => mem_of_mem_chain hr
    rw [hchain] at htyped hmem
    exact htyped.complete (fun r hr => h.castless r (hmem r hr))
      fun r hr v hv => htypes v (h.roots r (hmem r hr) v hv)

theorem Op.Grounded.unlowered {id : Nat} {op : Op} (h : op.Grounded b first id)
    (hplain : PlainArena b.links) : (b.action op).Unlowered := by
  refine ⟨?_, ?_, ?_⟩
  · intro x hx s hxs
    rcases List.mem_append.mp hx with hx | hx
    · rw [srcs_action] at hx
      obtain ⟨o, ho, rfl⟩ := List.mem_map.mp hx
      obtain ⟨v, rfl, -⟩ := h.srcs o ho
      cases hxs
    · have hdest : ∀ d : Dest, d.slot? = none → b.target d ≠ .slot s := by
        intro d hd heq
        cases d <;> cases heq
        cases hd
      have hnone := h.slotless
      rw [Option.mem_toList, hxs] at hx
      cases op with
      | alu op srcs dest mask => exact hdest dest hnone (Option.some.inj hx)
      | load y dest n => exact hdest dest hnone (Option.some.inj hx)
      | intrinsic name srcs dest =>
        obtain ⟨d, rfl, hd⟩ := Option.map_eq_some_iff.mp hx
        exact hdest d hnone hd
      | _ => cases hx
  · intro hops hh
    rw [Body.chains_action] at hh
    obtain ⟨y, hy, rfl⟩ := List.mem_map.mp hh
    obtain ⟨n, hn, rfl⟩ := h.derefs y hy
    rw [hopsType_hops]
    exact hplain.complete_derefType hn
  · intro hops dest n heq
    cases op with
    | load y d m =>
      cases heq
      rw [hopsType_hops]
      exact (h.load y d n rfl).leaf
    | _ => cases heq

theorem Action.Unlowered.registers {op : Op} (h : (b.action op).Unlowered)
    (hslot : ∀ l ∈ b.links, l.slot? = none) : (b.action op).registers = [] := by
  have hsite : ∀ x ∈ (b.action op).srcs ++ (b.action op).dest?.toList, x.registers = [] := by
    intro x hx
    cases x with
    | slot s => exact absurd rfl (h.slotless _ hx s)
    | _ => rfl
  have hhops : ∀ hops ∈ (b.action op).chains, hops.flatMap Hop.registers = [] := by
    intro hops hh
    rw [Body.chains_action] at hh
    obtain ⟨y, -, rfl⟩ := List.mem_map.mp hh
    apply List.flatMap_eq_nil_iff.mpr
    intro hop hhop
    obtain ⟨l, hl, rfl⟩ := List.mem_map.mp hhop
    have hnone := hslot l (mem_of_mem_chain hl)
    cases hk : l.kind with
    | array o => cases o <;> simp_all [Body.hop, Hop.registers, Body.site, Site.registers, Link.slot?,
        Operand.slot?]
    | _ => simp [Body.hop, Hop.registers, hk]
  rw [Action.registers, ← List.flatMap_append, List.flatMap_eq_nil_iff.mpr hsite,
    List.flatMap_eq_nil_iff.mpr hhops]
  rfl

section

variable {store store' : Store} {globals : List Variable}

theorem Resides.op_grounded (h : Resides store store' globals b) {id : InstrId} {op : Op}
    (hid : id ∈ b.placedInstrs) (hop : b.op? id = some op) :
    op.Grounded b store.instrs.size id := by
  rw [h.mem_placedInstrs] at hid
  exact h.grounded id hid.1 hid.2 op hop

theorem Resides.serial_lt (h : Resides store store' globals b) {id : Nat}
    (hid : id ≤ store'.instrs.size) {v : Value} (hv : b.Defines store.instrs.size id v) :
    v.serial < b.definers.size := by
  obtain ⟨d, hd, hlt, hv⟩ := hv
  obtain ⟨hserial, hindex, -⟩ := h.results d hd (by omega) v hv
  have hle := h.serials_le
  omega

theorem Resides.values_lt (h : Resides store store' globals b) {id : InstrId} {op : Op}
    (hid : id ∈ b.placedInstrs) (hop : b.op? id = some op) {v : Value}
    (hv : v ∈ (b.action op).values) : v.serial < b.definers.size := by
  obtain ⟨hle, hlt⟩ := h.mem_placedInstrs.mp hid
  rw [Action.values, Body.uses_action, Body.result?_action, List.mem_append,
    Option.mem_toList] at hv
  rcases hv with hv | hv
  · exact h.serial_lt (Nat.le_of_lt hlt) ((h.op_grounded hid hop).uses hv)
  · apply h.serial_lt hlt
    refine ⟨id, hle, Nat.lt_succ_self _, ?_⟩
    rw [Body.defined?, hop]
    exact hv

theorem Resides.laid (h : Resides store store' globals b) (hrec : b.toStore.Recorded)
    (hplain : PlainArena b.links) : b.Laid := by
  refine ⟨⟨?_, h.built.descending⟩, ?_, h.home, ?_, ?_, hrec⟩
  · intro l hl s hs
    rw [hplain.slotless l hl] at hs
    cases hs
  · rw [h.placed]
    exact List.nodup_range'
  · intro id hid op hop
    have hg := h.op_grounded hid hop
    refine ⟨?_, ?_⟩
    · rw [(hg.unlowered hplain).slots]
      simp
    · intro x hx n hn
      obtain ⟨m, hm, rfl⟩ := hg.derefs x hx
      cases hn
      exact hm
  · intro id hid a ha
    obtain ⟨op, hop, rfl⟩ := Option.map_eq_some_iff.mp ha
    refine ⟨fun v hv => h.values_lt hid hop hv, ?_⟩
    rw [((h.op_grounded hid hop).unlowered hplain).registers hplain.slotless]
    simp

/-- A function that the tables hold is as the loader leaves it. -/
theorem Resides.unlowered (h : Resides store store' globals b) (hrec : b.toStore.Recorded)
    (htypes : ∀ v ∈ b.locals.toList ++ globals, v.type.complete = true) : b.Unlowered := by
  have hplain := h.plain htypes
  refine ⟨h.laid hrec hplain, hplain, ?_, ?_⟩
  · intro id hid a ha
    obtain ⟨op, hop, rfl⟩ := Option.map_eq_some_iff.mp ha
    exact (h.op_grounded hid hop).unlowered hplain
  · intro i k hk
    obtain ⟨blk, hblk, hindex, -⟩ := h.ordered i k hk
    rw [Body.blockIndex, hblk]
    exact hindex

end

end

end ShaderIR
