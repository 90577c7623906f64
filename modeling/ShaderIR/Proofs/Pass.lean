import ShaderIR.Analysis.Metadata
import ShaderIR.Proofs.Replacement

/-!
# Passes over a body

A pass takes the blocks in their layout and, of each block, the instructions it holds when it is
reached. It may exchange the instruction at hand for others; the rest stays in its block. So what
every step keeps holds after the pass, and every instruction there was at the start has been met,
unless the pass failed at one of them.
-/

set_option autoImplicit false

namespace ShaderIR

structure Steps (k : BlockId) (id : InstrId) (b b' : Body) : Prop where
  layout : b'.layout = b.layout
  other : ∀ j ∈ b.layout, j ≠ k → b'.held j = b.held j
  rest : ∀ x ∈ b.held k, x ≠ id → x ∈ b'.held k

theorem Steps.refl (k : BlockId) (id : InstrId) (b : Body) : Steps k id b b :=
  ⟨rfl, fun _ _ _ => rfl, fun _ hx _ => hx⟩

theorem Replaced.steps {b b' : Body} {k : BlockId} {id : InstrId} {a : Action}
    {acts : List Action} {f : Value → Value} (h : Replaced b b' k id a acts f) (hl : b.Laid) :
    Steps k id b b' := by
  refine ⟨h.layout, ?_, ?_⟩
  · intro j hj hne
    rw [h.held j hj, expandAt_of_not_mem]
    exact fun hid => hne (hl.block_unique hj h.block hid h.holds)
  · intro x hx hne
    rw [h.held k h.block, mem_expandAt]
    exact .inr ⟨hx, hne⟩

section

/- `I met s` holds while the pass has met the instructions `met` and may go on; `F met k id s` holds
once it failed at the instruction `id` of block `k`. -/
variable {σ : Type} (body : σ → Body) (instr : BlockId → σ → InstrId → σ)
  (I : List InstrId → σ → Prop) (F : List InstrId → BlockId → InstrId → σ → Prop)
  {all : List InstrId} (hstuck : ∀ met k id s j x, F met k id s → F met k id (instr j s x))
  (hstep : ∀ met k s id, I met s → k ∈ (body s).layout → id ∈ (body s).held k → id ∈ all →
    id ∉ met →
    (I (met ++ [id]) (instr k s id) ∧ Steps k id (body s) (body (instr k s id))) ∨
      F met k id (instr k s id))

include hstuck

theorem foldl_stuck {met : List InstrId} {k j : BlockId} {id : InstrId} (xs : List InstrId) {s : σ}
    (h : F met k id s) : F met k id (xs.foldl (instr j) s) := by
  induction xs generalizing s with
  | nil => exact h
  | cons x xs ih => exact ih (hstuck met k id s j x h)

theorem foldl_stuck_blocks {met : List InstrId} {k : BlockId} {id : InstrId} (ks : List BlockId)
    {s : σ} (h : F met k id s) :
    F met k id (ks.foldl (fun s k => ((body s).held k).foldl (instr k) s) s) := by
  induction ks generalizing s with
  | nil => exact h
  | cons j ks ih => exact ih (foldl_stuck instr F hstuck _ h)

include hstep

theorem foldl_block {k : BlockId} (xs : List InstrId) {met : List InstrId} {s : σ}
    (hI : I met s) (hk : k ∈ (body s).layout) (hxs : ∀ x ∈ xs, x ∈ (body s).held k)
    (ha : ∀ x ∈ xs, x ∈ all) (hn : (met ++ xs).Nodup) :
    (I (met ++ xs) (xs.foldl (instr k) s) ∧
      (body (xs.foldl (instr k) s)).layout = (body s).layout ∧
      ∀ j ∈ (body s).layout, j ≠ k → (body (xs.foldl (instr k) s)).held j = (body s).held j) ∨
    ∃ pre id post, xs = pre ++ id :: post ∧ F (met ++ pre) k id (xs.foldl (instr k) s) := by
  induction xs generalizing met s with
  | nil => exact .inl ⟨by simpa using hI, rfl, fun _ _ _ => rfl⟩
  | cons x xs ih =>
    have hx : x ∉ met := fun hx => (List.nodup_append.mp hn).2.2 x hx x (by simp) rfl
    have hne : ∀ y ∈ xs, y ≠ x := by
      rintro y hy rfl
      exact (List.nodup_cons.mp (List.nodup_append.mp hn).2.1).1 hy
    rcases hstep met k s x hI hk (hxs x (by simp)) (ha x (by simp)) hx with ⟨hI', hs⟩ | hF
    · rcases ih hI' (hs.layout.symm ▸ hk)
        (fun y hy => hs.rest y (hxs y (by simp [hy])) (hne y hy)) (fun y hy => ha y (by simp [hy]))
        (by simpa using hn) with ⟨hI'', hl, ho⟩ | ⟨pre, id, post, hxs', hF⟩
      · refine .inl ⟨by simpa using hI'', hl.trans hs.layout, fun j hj hjk => ?_⟩
        exact (ho j (hs.layout.symm ▸ hj) hjk).trans (hs.other j hj hjk)
      · exact .inr ⟨x :: pre, id, post, by rw [hxs']; rfl, by simpa using hF⟩
    · exact .inr ⟨[], x, xs, rfl, by simpa using foldl_stuck instr F hstuck xs hF⟩

theorem foldl_blocks (ks : List BlockId) {b : Body} {met : List InstrId} {s : σ} (hI : I met s)
    (hks : ∀ k ∈ ks, k ∈ (body s).layout ∧ (body s).held k = b.held k)
    (ha : ∀ x ∈ ks.flatMap b.held, x ∈ all) (hn : (met ++ ks.flatMap b.held).Nodup) :
    I (met ++ ks.flatMap b.held)
      (ks.foldl (fun s k => ((body s).held k).foldl (instr k) s) s) ∨
    ∃ js k rest pre id post, ks = js ++ k :: rest ∧ b.held k = pre ++ id :: post ∧
      F (met ++ js.flatMap b.held ++ pre) k id
        (ks.foldl (fun s k => ((body s).held k).foldl (instr k) s) s) := by
  induction ks generalizing met s with
  | nil => exact .inl (by simpa using hI)
  | cons k ks ih =>
    rw [List.flatMap_cons, ← List.append_assoc] at hn ⊢
    obtain ⟨hk, hheld⟩ := hks k (by simp)
    rw [List.foldl_cons]
    have hblock := foldl_block body instr I F hstuck hstep (k := k) ((body s).held k) hI hk
      (fun x hx => hx) (fun x hx => ha x (by simp [← hheld, hx]))
      (by rw [hheld]; exact (List.nodup_append.mp hn).1)
    rw [hheld] at hblock ⊢
    rcases hblock with ⟨hI', hl, ho⟩ | ⟨pre, id, post, hpre, hF⟩
    · have hks' : ∀ j ∈ ks, j ∈ (body ((b.held k).foldl (instr k) s)).layout ∧
          (body ((b.held k).foldl (instr k) s)).held j = b.held j := by
        intro j hj
        obtain ⟨hjl, hjh⟩ := hks j (by simp [hj])
        refine ⟨hl.symm ▸ hjl, ?_⟩
        by_cases hjk : j = k
        · -- A block that stands in the layout twice is empty, so nothing happened to it.
          subst hjk
          have hempty : b.held j = [] := by
            apply List.eq_nil_iff_forall_not_mem.mpr
            intro x hx
            exact (List.nodup_append.mp hn).2.2 x (by simp [hx]) x
              (List.mem_flatMap.mpr ⟨j, hj, hx⟩) rfl
          rw [hempty, List.foldl_nil, ← hempty]
          exact hjh
        · rw [ho j hjl hjk, hjh]
      rcases ih hI' hks' (fun x hx => ha x (List.mem_append_right _ hx)) hn with
        hI'' | ⟨js, j, rest, pre, id, post, hjs, hpre, hF⟩
      · exact .inl hI''
      · exact .inr ⟨k :: js, j, rest, pre, id, post, by rw [hjs]; rfl, hpre, by simpa using hF⟩
    · refine .inr ⟨[], k, ks, pre, id, post, rfl, hpre, ?_⟩
      simpa using foldl_stuck_blocks body instr F hstuck ks hF

/-- A pass meets all instructions, or it fails at the first instruction where a step fails. -/
theorem foldl_layout {s : σ} (hI : I [] s) (ha : (body s).placedInstrs = all)
    (hn : (body s).placedInstrs.Nodup) :
    I (body s).placedInstrs
      ((body s).layout.toList.foldl (fun s k => ((body s).held k).foldl (instr k) s) s) ∨
    ∃ js k rest pre id post, (body s).layout.toList = js ++ k :: rest ∧
      (body s).held k = pre ++ id :: post ∧
      F (js.flatMap (body s).held ++ pre) k id
        ((body s).layout.toList.foldl (fun s k => ((body s).held k).foldl (instr k) s) s) := by
  rw [Body.placedInstrs_eq] at ha hn ⊢
  have := foldl_blocks body instr I F hstuck hstep (body s).layout.toList (b := body s) hI
    (fun k hk => ⟨Array.mem_toList_iff.mp hk, rfl⟩) (fun x hx => ha ▸ hx) (by simpa using hn)
  simpa using this

end

structure SameCode (b b' : Body) : Prop where
  instrs : b'.instrs = b.instrs
  slots : b'.slots = b.slots
  definers : b'.definers = b.definers
  registerCount : b'.registerCount = b.registerCount
  links : b'.links = b.links
  layout : b'.layout = b.layout
  locals : b'.locals = b.locals
  registers : b'.registers = b.registers
  valueCount : b'.valueCount = b.valueCount
  held : ∀ k, b'.held k = b.held k
  label : ∀ k, b'.label? k = b.label? k
  blocks : ∀ k, k ∉ b.layout → b'.blocks[k]? = b.blocks[k]?

namespace SameCode

variable {b b' b'' : Body}

theorem refl (b : Body) : SameCode b b :=
  ⟨rfl, rfl, rfl, rfl, rfl, rfl, rfl, rfl, rfl, fun _ => rfl, fun _ => rfl, fun _ _ => rfl⟩

theorem trans (h : SameCode b b') (h' : SameCode b' b'') : SameCode b b'' where
  instrs := h'.instrs.trans h.instrs
  slots := h'.slots.trans h.slots
  definers := h'.definers.trans h.definers
  registerCount := h'.registerCount.trans h.registerCount
  links := h'.links.trans h.links
  layout := h'.layout.trans h.layout
  locals := h'.locals.trans h.locals
  registers := h'.registers.trans h.registers
  valueCount := h'.valueCount.trans h.valueCount
  held k := (h'.held k).trans (h.held k)
  label k := (h'.label k).trans (h.label k)
  blocks k hk := (h'.blocks k (h.layout ▸ hk)).trans (h.blocks k hk)

theorem preserve (b : Body) (kept : Analyses) : SameCode b (b.preserve kept) :=
  ⟨rfl, rfl, rfl, rfl, rfl, rfl, rfl, rfl, rfl, fun _ => rfl, fun _ => rfl, fun _ _ => rfl⟩

theorem valid (b : Body) (valid : Analyses) : SameCode b { b with valid } :=
  ⟨rfl, rfl, rfl, rfl, rfl, rfl, rfl, rfl, rfl, fun _ => rfl, fun _ => rfl, fun _ _ => rfl⟩

theorem getElem?_mapBlocks {α : Type} (b : Body) {f : Nat → Block → Block} (g : Block → α)
    (hg : ∀ i blk, g (f i blk) = g blk) (k : BlockId) :
    (b.mapBlocks f).blocks[k]?.map g = b.blocks[k]?.map g := by
  have hfold : ∀ (ids : List (BlockId × Nat)) (blocks : Array Block),
      (ids.foldl (fun blocks x => blocks.modify x.1 (f x.2)) blocks)[k]?.map g =
        blocks[k]?.map g := by
    intro ids
    induction ids with
    | nil => intro _; rfl
    | cons x ids ih =>
      intro blocks
      rw [List.foldl_cons, ih, Array.getElem?_modify]
      split
      · cases blocks[k]? <;> simp [hg]
      · rfl
  exact hfold _ _

theorem mapBlocks_other (b : Body) (f : Nat → Block → Block) {k : BlockId} (hk : k ∉ b.layout) :
    (b.mapBlocks f).blocks[k]? = b.blocks[k]? := by
  have hfold : ∀ (ids : List (BlockId × Nat)) (blocks : Array Block), (∀ x ∈ ids, x.1 ≠ k) →
      (ids.foldl (fun blocks x => blocks.modify x.1 (f x.2)) blocks)[k]? = blocks[k]? := by
    intro ids
    induction ids with
    | nil => intro _ _; rfl
    | cons x ids ih =>
      intro blocks hne
      rw [List.foldl_cons, ih _ fun y hy => hne y (by simp [hy]), Array.getElem?_modify,
        if_neg (hne x (by simp))]
  apply hfold
  rintro x hx rfl
  exact hk (Array.mem_toList_iff.mp (List.fst_mem_of_mem_zipIdx hx))

theorem mapBlocks (b : Body) {f : Nat → Block → Block}
    (hi : ∀ i blk, (f i blk).instrs = blk.instrs) (hn : ∀ i blk, (f i blk).name = blk.name)
    (hs : ∀ i blk, (f i blk).succs = blk.succs) : SameCode b (b.mapBlocks f) := by
  refine ⟨rfl, rfl, rfl, rfl, rfl, rfl, rfl, rfl, rfl, fun k => ?_, fun k => ?_, fun k hk => ?_⟩
  · rw [Body.held, getElem?_mapBlocks b _ hi, Body.held]
  · exact getElem?_mapBlocks b _ (fun i blk => by rw [hn, hs]) k
  · exact mapBlocks_other b f hk

theorem ensureIndex (b : Body) : SameCode b b.ensureIndex := by
  have hcode : SameCode b b.indexBlocks :=
    mapBlocks b (fun _ _ => rfl) (fun _ _ => rfl) fun _ _ => rfl
  unfold Body.ensureIndex
  split
  · exact refl b
  · exact hcode.trans (valid _ _)

theorem ensureDominance (b : Body) : SameCode b b.ensureDominance := by
  have hcode : SameCode b b.computeDominance := by
    simp only [Body.computeDominance]
    exact mapBlocks b (fun _ _ => rfl) (fun _ _ => rfl) fun _ _ => rfl
  exact hcode.trans (valid _ _)

theorem ensureLiveness (b : Body) : SameCode b b.ensureLiveness := by
  have hcode : SameCode b b.computeLiveness := by
    simp only [Body.computeLiveness]
    exact mapBlocks b (fun _ _ => rfl) (fun _ _ => rfl) fun _ _ => rfl
  exact hcode.trans (valid _ _)

theorem require (b : Body) (wanted : Analyses) : SameCode b (b.require wanted) := by
  have hite : ∀ {c d : Body} {p : Prop} [Decidable p], SameCode c d →
      SameCode c (if p then d else c) := by
    intro c d p _ h
    split
    · exact h
    · exact refl c
  have hindex : SameCode b (if wanted.diff b.valid = .none then b else b.ensureIndex) := by
    split
    · exact refl b
    · exact ensureIndex b
  exact (hindex.trans (hite (ensureDominance _))).trans (hite (ensureLiveness _))

variable (h : SameCode b b')

include h

theorem next (k : BlockId) : b'.next k = b.next k := by
  have hsuccs := congrArg (Option.map Prod.snd) (h.label k)
  simp only [Body.label?, Option.map_map, Function.comp_def] at hsuccs
  rw [Body.next, Body.next, hsuccs]

theorem same : SameTables b b' := ⟨h.slots, h.links, h.registerCount⟩

theorem action? : b'.action? = b.action? := by
  funext id
  simp only [Body.action?, Body.op?, h.instrs, h.same.action]

theorem placedInstrs : b'.placedInstrs = b.placedInstrs := by
  rw [Body.placedInstrs_eq, Body.placedInstrs_eq, h.layout]
  exact List.flatMap_congr fun k _ => h.held k

theorem confined : Confined b b' where
  layout := h.layout
  locals := h.locals
  label := h.label
  blocks := h.blocks
  instrs _ _ _ := by rw [h.instrs]
  instrs_le := by rw [h.instrs]
  definers _ _ := by rw [h.definers]
  definers_le := by rw [h.definers]
  registerCount_le := by rw [h.registerCount]
  registers := h.registers ▸ List.prefix_refl _
  registers_size := by rw [h.registerCount, h.registers]
  placed id hid := .inl (h.placedInstrs ▸ hid)

theorem along : b'.along = b.along := by
  funext path
  refine List.flatMap_congr fun k _ => ?_
  rw [Body.actions, Body.actions, h.held, h.action?]

theorem isPath_iff (path : List BlockId) : b'.IsPath path ↔ b.IsPath path := by
  simp [Body.IsPath, h.layout, h.next]

theorem laid (hl : b.Laid) : b'.Laid where
  indices := by rw [h.links, h.slots]; exact hl.indices
  descending := by rw [h.links]; exact hl.descending
  once := by rw [h.placedInstrs]; exact hl.once
  home k hk id hid := by
    rw [h.instrs]
    exact hl.home k (h.layout ▸ hk) id (h.held k ▸ hid)
  named id hid op hop := by
    have := hl.named id (h.placedInstrs ▸ hid) op (by simpa [Body.op?, h.instrs] using hop)
    exact this.congr h.slots h.links
  made id hid a ha := by
    have := hl.made id (h.placedInstrs ▸ hid) a (h.action? ▸ ha)
    exact ⟨by rw [h.definers]; exact this.values, by rw [h.registerCount]; exact this.registers⟩
  recorded := by rw [h.definers, h.instrs]; exact hl.recorded

theorem single (hs : b.Single) : b'.Single := by
  intro id hid a ha v hv
  rw [Body.definer?, h.definers]
  exact hs id (h.placedInstrs ▸ hid) a (h.action? ▸ ha) v hv

theorem ssa (hs : b.SSA) : b'.SSA where
  single := h.single hs.single
  counted id hid a ha := by
    rw [h.valueCount]
    exact hs.counted id (h.placedInstrs ▸ hid) a (h.action? ▸ ha)
  covered path hp hhead := by
    rw [h.along]
    exact hs.covered path ((h.isPath_iff path).mp hp) (h.layout ▸ hhead)

end SameCode

end ShaderIR
