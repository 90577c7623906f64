import Mathlib.Algebra.Order.BigOperators.Group.List
import Mathlib.Data.List.Count
import ShaderIR.Proofs.Idempotence
import ShaderIR.Proofs.PipelineFaults

/-!
# Progress as the passes report it

A pass answers whether it took an instruction of its kind out of a function: splitting a copy,
lowering a load or a store. Neither pass ever puts one in, so the number of such instructions in a
block never rises, and a flag that was raised stays right. A function where a pass fails may have
been changed before. Lowering counts what it did there, splitting a shader does not.
-/

set_option autoImplicit false

namespace ShaderIR

def Op.isCopy : Op → Bool
  | .copy _ _ => true
  | _ => false

def Op.isAccess : Op → Bool
  | .load _ _ _ | .store _ _ _ => true
  | _ => false

theorem Op.isAccess_eq (op : Op) : op.isAccess = (op.derefs.length == 1) := by
  cases op <;> rfl

theorem copies_eq : Choice.copies = fun _ => Op.isCopy := by
  funext links op
  cases op <;> rfl

theorem isAccess_byChains : Choice.ByChains fun _ => Op.isAccess where
  chainless links op h := by rw [Op.isAccess_eq, h]; rfl
  congr links links' op op' _ h := by rw [Op.isAccess_eq, Op.isAccess_eq, h]

def Store.number (s : Store) (kind : Op → Bool) (k : BlockId) : Nat :=
  ((s.blocks[k]?.map (·.instrs)).getD []).countP fun id => (s.instrs[id]?.map (·.op)).any kind

structure Dwindles (kind : Op → Bool) (b b' : Body) : Prop where
  layout : b'.layout = b.layout
  number : ∀ k, b'.number kind k ≤ b.number kind k

section

variable {kind : Op → Bool} {b b' b'' : Body} {k : BlockId} {id : InstrId}

theorem Body.number_eq (b : Body) (kind : Op → Bool) (k : BlockId) :
    b.number kind k = (b.held k).countP (b.picks fun _ => kind) := rfl

theorem Body.number_eq_length (b : Body) (kind : Op → Bool) (k : BlockId) :
    b.number kind k = (b.picked (fun _ => kind) k).length := List.countP_eq_length_filter

theorem Dwindles.refl (kind : Op → Bool) (b : Body) : Dwindles kind b b := ⟨rfl, fun _ => le_rfl⟩

theorem Dwindles.trans (h : Dwindles kind b b') (h' : Dwindles kind b' b'') :
    Dwindles kind b b'' :=
  ⟨h'.layout.trans h.layout, fun k => (h'.number k).trans (h.number k)⟩

theorem Spares.number (h : Spares (fun _ => kind) b b') (k : BlockId) :
    b'.number kind k = b.number kind k := by
  rw [Body.number_eq_length, Body.number_eq_length, h.picked]

theorem Spares.dwindles (h : Spares (fun _ => kind) b b') : Dwindles kind b b' :=
  ⟨h.layout, fun k => (h.number k).le⟩

theorem SameCode.number (h : SameCode b b') (kind : Op → Bool) (k : BlockId) :
    b'.number kind k = b.number kind k := by
  rw [Body.number_eq_length, Body.number_eq_length, h.picked]

theorem SameCode.dwindles (h : SameCode b b') : Dwindles kind b b' :=
  ⟨h.layout, fun k => (h.number kind k).le⟩

theorem remove_of_not_mem (h : id ∉ b.held k) : (Body.remove id k b).2 = b := by
  cases hb : b.blocks[k]? with
  | none =>
    simp [Body.remove, modify, modifyGet, MonadStateOf.modifyGet, StateT.modifyGet, pure, hb]
  | some blk =>
    have hblk : id ∉ blk.instrs := by simpa [Body.held, hb] using h
    simp [Body.remove, modify, modifyGet, MonadStateOf.modifyGet, StateT.modifyGet, pure, hb,
      hblk]

theorem number_remove (h : id ∈ b.held k) (j : BlockId) :
    (Body.remove id k b).2.number kind j =
      if j = k then ((b.held k).erase id).countP (b.picks fun _ => kind)
      else b.number kind j := by
  rw [Body.number_eq, funext (picks_remove h), held_remove h]
  split <;> rfl

theorem dwindles_remove (kind : Op → Bool) (id : InstrId) (k : BlockId) (b : Body) :
    Dwindles kind b (Body.remove id k b).2 := by
  by_cases h : id ∈ b.held k
  · refine ⟨by rw [remove_eq h], fun j => ?_⟩
    rw [number_remove h]
    split
    · rename_i hj
      rw [hj]
      exact List.erase_sublist.countP_le
    · exact le_rfl
  · rw [remove_of_not_mem h]
    exact .refl kind b

theorem number_remove_lt (h : id ∈ b.held k) (hid : b.picks (fun _ => kind) id = true) :
    (Body.remove id k b).2.number kind k < b.number kind k := by
  have hpos : 0 < (b.held k).countP (b.picks fun _ => kind) := List.countP_pos_iff.mpr ⟨id, h, hid⟩
  rw [number_remove h, if_pos rfl, List.countP_erase, if_pos ⟨h, hid⟩]
  exact Nat.sub_lt hpos Nat.one_pos

end

structure Tracks (kind : Op → Bool) (L : BlockId → Prop) (s s' : Store) (flag : Bool) : Prop where
  fewer : ∀ k, s'.number kind k ≤ s.number kind k
  flag : flag = true ↔ ∃ k, L k ∧ s'.number kind k < s.number kind k

section

variable {kind : Op → Bool} {L : BlockId → Prop} {s s' s'' : Store}

theorem Tracks.idle (h : ∀ k, s'.number kind k = s.number kind k) : Tracks kind L s s' false := by
  refine ⟨fun k => (h k).le, ?_⟩
  simp [h]

theorem Tracks.later (h : Tracks kind L s s' true)
    (hle : ∀ k, s''.number kind k ≤ s'.number kind k) : Tracks kind L s s'' true := by
  refine ⟨fun k => (hle k).trans (h.fewer k), fun _ => ?_, fun _ => rfl⟩
  obtain ⟨k, hk, hlt⟩ := h.flag.mp rfl
  exact ⟨k, hk, (hle k).trans_lt hlt⟩

theorem Tracks.trans {f g : Bool} (h : Tracks kind L s s' f) (h' : Tracks kind L s' s'' g) :
    Tracks kind L s s'' (f || g) := by
  refine ⟨fun k => (h'.fewer k).trans (h.fewer k), ?_⟩
  rw [Bool.or_eq_true, h.flag, h'.flag]
  constructor
  · rintro (⟨k, hk, hlt⟩ | ⟨k, hk, hlt⟩)
    · exact ⟨k, hk, (h'.fewer k).trans_lt hlt⟩
    · exact ⟨k, hk, hlt.trans_le (h.fewer k)⟩
  · rintro ⟨k, hk, hlt⟩
    rcases (h.fewer k).lt_or_eq with hfirst | hsame
    · exact .inl ⟨k, hk, hfirst⟩
    · exact .inr ⟨k, hk, hsame ▸ hlt⟩

theorem Tracks.congr {flag : Bool} {t t' : Store} (h : Tracks kind L s s' flag)
    (ht : ∀ k, t.number kind k = s.number kind k) (ht' : ∀ k, t'.number kind k = s'.number kind k) :
    Tracks kind L t t' flag := by
  refine ⟨fun k => ?_, ?_⟩
  · rw [ht, ht']
    exact h.fewer k
  · simp only [ht, ht']
    exact h.flag

end

def takenFrom (home : Option BlockId) (id : InstrId) (b : Body) : Body :=
  match home with
  | some k => (Body.remove id k b).2
  | none => b

theorem dwindles_takenFrom (kind : Op → Bool) (home : Option BlockId) (id : InstrId) (b : Body) :
    Dwindles kind b (takenFrom home id b) := by
  cases home with
  | some k => exact dwindles_remove kind id k b
  | none => exact .refl kind b

section

variable {σ : Type} (body : σ → Body) (progress : σ → Bool) (ok : σ → Prop)

/-- What a step of a pass does at an instruction: it leaves everything as it was, or it fails, or
it takes the instruction out and says so. What it emits is never of the kind that it takes. -/
inductive Attempt (kind : Op → Bool) (q : Choice) (id : InstrId) (home : Body → Option BlockId)
    (s : σ) : σ → Prop
  | stays : Attempt kind q id home s s
  | fails {s' : σ} (hb : Spares (fun _ => kind) (body s) (body s'))
      (hp : progress s' = progress s) (hok : ¬ ok s') : Attempt kind q id home s s'
  | takes {s' : σ} {c : Body} (hkind : (body s).picks (fun _ => kind) id = true)
      (hq : (body s).picks q id = true) (hc : Spares (fun _ => kind) (body s) c)
      (hb : body s' = takenFrom (home c) id c) (hp : progress s' = true) :
      Attempt kind q id home s s'

structure Reports (kind : Op → Bool) (L : BlockId → Prop) (b : Body) (s : σ) : Prop where
  tracks : Tracks kind L b.toStore (body s).toStore (progress s)
  idle : progress s = false → ok s → body s = b

end

section

variable {σ : Type} {body : σ → Body} {progress : σ → Bool} {ok : σ → Prop} {kind : Op → Bool}
  {q : Choice} {L : BlockId → Prop}

namespace Attempt

variable {id : InstrId} {home : Body → Option BlockId} {s s' : σ}
  (h : Attempt body progress ok kind q id home s s')

include h

theorem dwindles : Dwindles kind (body s) (body s') := by
  cases h with
  | stays => exact .refl kind _
  | fails hb _ _ => exact hb.dwindles
  | takes _ _ hc hb _ =>
    rw [hb]
    exact hc.dwindles.trans (dwindles_takenFrom kind _ id _)

theorem keeps (hp : progress s = true) : progress s' = true := by
  cases h with
  | stays => exact hp
  | fails _ hsame _ => exact hsame.trans hp
  | takes _ _ _ _ hraised => exact hraised

/-- The first instruction that is taken leaves a block that held it. -/
theorem reports (hp : progress s = false)
    (hhome : (body s).picks q id = true → ∃ j, L j ∧ id ∈ (body s).held j ∧
      ∀ c, (body s).picks (fun _ => kind) id = true → Spares (fun _ => kind) (body s) c →
        home c = some j) :
    Reports body progress ok kind L (body s) s' := by
  cases h with
  | stays =>
    refine ⟨?_, fun _ _ => rfl⟩
    rw [hp]
    exact .idle fun _ => rfl
  | fails hb hsame hok =>
    refine ⟨?_, fun _ h => absurd h hok⟩
    rw [hsame, hp]
    exact .idle hb.number
  | @takes _ c hkind hq hc hb hraised =>
    obtain ⟨j, hj, hid, hsome⟩ := hhome hq
    have hpicked : id ∈ (body s).picked (fun _ => kind) j := List.mem_filter.mpr ⟨hid, hkind⟩
    rw [← hc.picked] at hpicked
    obtain ⟨hheld, hpick⟩ := List.mem_filter.mp hpicked
    have hlt := number_remove_lt hheld hpick
    rw [hc.number] at hlt
    refine ⟨⟨fun k => ?_, ?_⟩, fun hdown => absurd (hdown.symm.trans hraised) Bool.false_ne_true⟩
    · rw [hb]
      exact (hc.dwindles.trans (dwindles_takenFrom kind _ id c)).number k
    · rw [hb, hsome c hkind hc]
      exact iff_of_true hraised ⟨j, hj, hlt⟩

end Attempt

section

variable {instr : BlockId → σ → InstrId → σ} {home : BlockId → InstrId → Body → Option BlockId}
  (hstep : ∀ k s id, Attempt body progress ok kind q id (home k id) s (instr k s id))

include hstep

theorem dwindles_block (k : BlockId) (xs : List InstrId) (s : σ) :
    Dwindles kind (body s) (body (xs.foldl (instr k) s)) := by
  induction xs generalizing s with
  | nil => exact .refl kind _
  | cons x xs ih => exact (hstep k s x).dwindles.trans (ih _)

theorem dwindles_blocks (ks : List BlockId) (s : σ) :
    Dwindles kind (body s)
      (body (ks.foldl (fun s k => ((body s).held k).foldl (instr k) s) s)) := by
  induction ks generalizing s with
  | nil => exact .refl kind _
  | cons k ks ih => exact (dwindles_block hstep k _ s).trans (ih _)

variable (hstuck : ∀ k s id, ¬ ok s → instr k s id = s) {b : Body}
  (hhome : ∀ k ∈ b.layout, ∀ id ∈ b.held k, b.picks q id = true → ∃ j, L j ∧ id ∈ b.held j ∧
    ∀ c, b.picks (fun _ => kind) id = true → Spares (fun _ => kind) b c → home k id c = some j)

include hstuck hhome

theorem reports_instr {k : BlockId} {s : σ} {id : InstrId} (hk : k ∈ b.layout)
    (h : Reports body progress ok kind L b s) (hid : progress s = false → ok s → id ∈ b.held k) :
    Reports body progress ok kind L b (instr k s id) := by
  cases hp : progress s with
  | true =>
    -- from here on it is enough that no number rises, so a lost link does no harm
    have hraised := (hstep k s id).keeps hp
    refine ⟨?_, fun hdown => absurd (hdown.symm.trans hraised) Bool.false_ne_true⟩
    rw [hraised]
    exact (hp ▸ h.tracks).later (hstep k s id).dwindles.number
  | false =>
    by_cases hok : ok s
    · obtain rfl := h.idle hp hok
      exact (hstep k s id).reports hp (hhome k hk id (hid hp hok))
    · rw [hstuck k s id hok]
      exact h

theorem reports_block {k : BlockId} (xs : List InstrId) {s : σ} (hk : k ∈ b.layout)
    (h : Reports body progress ok kind L b s)
    (hxs : progress s = false → ok s → ∀ x ∈ xs, x ∈ b.held k) :
    Reports body progress ok kind L b (xs.foldl (instr k) s) := by
  induction xs generalizing s with
  | nil => exact h
  | cons x xs ih =>
    have hnext := reports_instr hstep hstuck hhome hk h fun hp hok => hxs hp hok x (.head _)
    refine ih hnext fun hp hok y hy => hxs ?_ ?_ y (.tail _ hy)
    · -- a flag that is down now was down before
      by_contra hraised
      have hkeeps := (hstep k s x).keeps (Bool.eq_true_of_not_eq_false hraised)
      exact Bool.false_ne_true (hp.symm.trans hkeeps)
    · by_contra hfailed
      rw [hstuck k s x hfailed] at hok
      exact hfailed hok

theorem reports_blocks (ks : List BlockId) {s : σ} (hks : ∀ k ∈ ks, k ∈ b.layout)
    (h : Reports body progress ok kind L b s) :
    Reports body progress ok kind L b
      (ks.foldl (fun s k => ((body s).held k).foldl (instr k) s) s) := by
  induction ks generalizing s with
  | nil => exact h
  | cons k ks ih =>
    refine ih (fun j hj => hks j (.tail _ hj)) ?_
    refine reports_block hstep hstuck hhome _ (hks k (.head _)) h fun hp hok x hx => ?_
    rwa [h.idle hp hok] at hx

end

end

theorem split_attempt (k : BlockId) (s : Split) (id : InstrId) :
    Attempt Split.body Split.progress (·.error = none) Op.isCopy .copies id (fun _ => some k) s
      (Split.instr k s id) := by
  have hspares := CopySplitting.spares_split (.beforeInstr s.body id)
  rw [copies_eq] at hspares ⊢
  unfold Split.instr
  split
  · rename_i dst src herror hop
    specialize hspares dst src s.body
    have hkind : s.body.picks (fun _ => Op.isCopy) id = true := by
      simp [Body.picks, hop, Op.isCopy]
    split
    · rename_i b hrun
      rw [hrun] at hspares
      exact .takes hkind hkind hspares rfl rfl
    · rename_i e b hrun
      rw [hrun] at hspares
      exact .fails hspares rfl (Option.some_ne_none _)
  · exact .stays

namespace Lowering

theorem removeFromBlock_eq (id : InstrId) (b : Body) :
    (removeFromBlock id b).2 = takenFrom (b.home? id) id b := by
  cases hb : b.home? id with
  | some k => exact removeFromBlock_run hb
  | none =>
    rw [Body.home?] at hb
    simp only [removeFromBlock, state_bind, state_get, hb]
    rfl

theorem progress_iff (s : LowerStats) : s.progress = true ↔ 0 < s.loads ∨ 0 < s.stores := by
  simp [LowerStats.progress]

theorem progress_add (s t : LowerStats) : (s.add t).progress = (s.progress || t.progress) := by
  rw [Bool.eq_iff_iff, Bool.or_eq_true, progress_iff, progress_iff, progress_iff]
  simp only [LowerStats.add]
  omega

theorem access_attempt {s : Lowered} {id : InstrId} {h : Handle} {done : LowerStats}
    {finish : Cursor → Slot → Edit Unit} (k : BlockId)
    (hkind : s.body.picks (fun _ => Op.isAccess) id = true)
    (hlocal : s.body.picks .localAccesses id = true) (hdone : done.progress = true)
    (hfinish : ∀ c b slot, ∃ d, Spares (fun _ => Op.isAccess) b d ∧
      (finish c slot b).2 = (removeFromBlock id d).2) :
    Attempt Lowered.body (·.stats.progress) (·.error = none) Op.isAccess .localAccesses id
      (·.home? id) s (s.access k id h done finish) := by
  have hspares := spares_slotOf isAccess_byChains (.beforeInstr s.body id) s.table h s.body
  simp only [Lowered.access]
  rcases hr : slotOf s.table (.beforeInstr s.body id) h s.body with ⟨e | ⟨slot, table⟩, b⟩
  · rw [hr] at hspares
    exact .fails hspares rfl (Option.some_ne_none _)
  · rw [hr] at hspares
    obtain ⟨d, hd, hrun⟩ := hfinish (.beforeInstr s.body id) b slot
    refine .takes hkind hlocal (hspares.trans hd) (hrun.trans (removeFromBlock_eq id d)) ?_
    show (s.stats.add done).progress = true
    rw [progress_add, hdone, Bool.or_true]

theorem lower_attempt (k : BlockId) (s : Lowered) (id : InstrId) :
    Attempt Lowered.body (·.stats.progress) (·.error = none) Op.isAccess .localAccesses id
      (·.home? id) s (Lowered.instr k s id) := by
  unfold Lowered.instr
  split
  · rename_i h dest n herror hop
    split
    · rename_i hlocal
      exact access_attempt k (by simp [Body.picks, hop, Op.isAccess])
        (by simp [Body.picks, hop, Choice.localAccesses, Op.derefs, hlocal]) rfl
        fun c b slot => spares_replaceLoad isAccess_byChains c dest n
    · exact .stays
  · rename_i h v mask herror hop
    split
    · rename_i hlocal
      exact access_attempt k (by simp [Body.picks, hop, Op.isAccess])
        (by simp [Body.picks, hop, Choice.localAccesses, Op.derefs, hlocal]) rfl
        fun c b slot => spares_replaceStore isAccess_byChains c v mask
    · exact .stays
  · split
    · exact .fails (.refl _ _) rfl (Option.some_ne_none _)
    · exact .stays
  · exact .stays

end Lowering

section

variable {L : BlockId → Prop} {b : Body}

theorem splitCopies_walk (b : Body) : SameCode b.splitBlocks.body b.splitCopies.body ∧
    b.splitCopies.progress = b.splitBlocks.progress := by
  unfold Body.splitCopies Body.splitBlocks
  dsimp only
  split
  · split
    · exact ⟨.preserve _ _, rfl⟩
    · exact ⟨.refl _, rfl⟩
  · exact ⟨.refl _, rfl⟩

theorem splitCopies_dwindles (b : Body) : Dwindles Op.isCopy b b.splitCopies.body := by
  refine Dwindles.trans ?_ (splitCopies_walk b).1.dwindles
  rw [splitBlocks_eq]
  exact dwindles_blocks split_attempt b.layout.toList ⟨b, false, none⟩

/-- The flag of a function is right, even where splitting fails in it. -/
theorem splitCopies_tracks (hL : ∀ k ∈ b.layout, L k) :
    Tracks Op.isCopy L b.toStore b.splitCopies.body.toStore b.splitCopies.progress := by
  obtain ⟨hsame, hprogress⟩ := splitCopies_walk b
  have hwalk : Reports Split.body Split.progress (·.error = none) Op.isCopy L b b.splitBlocks := by
    rw [splitBlocks_eq]
    refine reports_blocks split_attempt (fun k s id => split_stuck) ?_ _
      (fun k hk => Array.mem_toList_iff.mp hk) ⟨.idle fun _ => rfl, fun _ _ => rfl⟩
    exact fun k hk id hid _ => ⟨k, hL k hk, hid, fun c _ _ => rfl⟩
  rw [hprogress]
  exact hwalk.tracks.congr (fun _ => rfl) (hsame.number _)

theorem lowerLocals_walk (b : Body) : SameCode b.dominated.lowerBlocks.body b.lowerLocals.body ∧
    b.lowerLocals.stats.progress = b.dominated.lowerBlocks.stats.progress := by
  unfold Body.lowerLocals Body.lowerBlocks Body.dominated
  dsimp only
  split
  · exact ⟨.preserve _ _, rfl⟩
  · exact ⟨.refl _, rfl⟩

theorem lowerLocals_dwindles (b : Body) : Dwindles Op.isAccess b b.lowerLocals.body := by
  have hstart : Dwindles Op.isAccess b b.dominated := (SameCode.require b _).dwindles
  refine (hstart.trans ?_).trans (lowerLocals_walk b).1.dwindles
  rw [lowerBlocks_eq]
  exact dwindles_blocks Lowering.lower_attempt b.dominated.layout.toList
    ⟨b.dominated, .empty, .zero, none⟩

def Body.Linked (L : BlockId → Prop) (b : Body) : Prop :=
  ∀ k ∈ b.layout, ∀ id ∈ b.held k, b.picks .localAccesses id = true →
    ∃ j, L j ∧ b.home? id = some j ∧ id ∈ b.held j

theorem Body.Linked.congr {c : Body} (hb : b.Linked L) (hinstrs : c.instrs = b.instrs)
    (hlinks : c.links = b.links) (hlayout : c.layout = b.layout)
    (hheld : ∀ k, c.held k = b.held k) : c.Linked L := by
  have hpicks : c.picks .localAccesses = b.picks .localAccesses := by
    funext id
    rw [Body.picks, Body.picks, Body.op?, Body.op?, hinstrs, hlinks]
  intro k hk id hid hpick
  rw [hlayout] at hk
  rw [hheld] at hid
  rw [hpicks] at hpick
  obtain ⟨j, hj, hhome, hmem⟩ := hb k hk id hid hpick
  refine ⟨j, hj, ?_, ?_⟩
  · rw [Body.home?, hinstrs]
    exact hhome
  · rw [hheld]
    exact hmem

theorem SameCode.linked {c : Body} (h : SameCode b c) (hb : b.Linked L) : c.Linked L :=
  hb.congr h.instrs h.links h.layout h.held

theorem lowerBlocks_reports (hb : b.Linked L) :
    Reports Lowered.body (·.stats.progress) (·.error = none) Op.isAccess L b b.lowerBlocks := by
  rw [lowerBlocks_eq]
  refine reports_blocks Lowering.lower_attempt (fun k s id => lowered_stuck) ?_ _
    (fun k hk => Array.mem_toList_iff.mp hk) ⟨.idle fun _ => rfl, fun _ _ => rfl⟩
  intro k hk id hid hlocal
  obtain ⟨j, hj, hhome, hheld⟩ := hb k hk id hid hlocal
  exact ⟨j, hj, hheld, fun c hpick hc => (hc.home id hpick).trans hhome⟩

theorem lowerLocals_tracks (hb : b.Linked L) :
    Tracks Op.isAccess L b.toStore b.lowerLocals.body.toStore b.lowerLocals.stats.progress := by
  obtain ⟨hsame, hprogress⟩ := lowerLocals_walk b
  have hstart : SameCode b b.dominated := .require b _
  rw [hprogress]
  exact (lowerBlocks_reports (hstart.linked hb)).tracks.congr
    (fun k => (hstart.number _ k).symm) (hsame.number _)

/-- A function where lowering found nothing to do keeps its code. -/
theorem lowerLocals_idle (hb : b.Linked L) (hprogress : b.lowerLocals.stats.progress = false)
    (hok : b.lowerLocals.error = none) : SameCode b b.lowerLocals.body := by
  obtain ⟨hsame, hsame'⟩ := lowerLocals_walk b
  have hstart : SameCode b b.dominated := .require b _
  have hidle := (lowerBlocks_reports (hstart.linked hb)).idle (hsame'.symm.trans hprogress)
    ((lowerLocals_error b).symm.trans hok)
  rw [hidle] at hsame
  exact hstart.trans hsame

end

namespace Shader

def number (s : Shader) (kind : Op → Bool) (i : Nat) : Nat :=
  match s.body? i with
  | some b => b.placedInstrs.countP fun id => (b.op? id).any kind
  | none => 0

def Loses (s : Shader) (kind : Op → Bool) (s' : Shader) : Prop :=
  ∃ i, s'.number kind i < s.number kind i

def Owns (s : Shader) (k : BlockId) : Prop := ∃ i b, s.body? i = some b ∧ k ∈ b.layout

def Linked (s : Shader) : Prop := ∀ i b, s.body? i = some b → b.Linked s.Owns

def SameLayouts (s s' : Shader) : Prop :=
  ∀ i, (s'.body? i).map (·.layout) = (s.body? i).map (·.layout)

variable {s s' s'' : Shader} {kind : Op → Bool}

theorem number_eq (s : Shader) (kind : Op → Bool) (i : Nat) : s.number kind i =
    (((s.body? i).map (·.layout)).map fun ks =>
      (ks.toList.map (s.store.number kind)).sum).getD 0 := by
  unfold number
  cases hb : s.body? i with
  | none => rfl
  | some b =>
    rw [← store_of_body? hb]
    show b.placedInstrs.countP _ = _
    rw [Body.placedInstrs_eq, List.countP_flatMap]
    rfl

theorem sum_lt_sum_iff {f g : BlockId → Nat} (h : ∀ k, f k ≤ g k) (ks : List BlockId) :
    (ks.map f).sum < (ks.map g).sum ↔ ∃ k ∈ ks, f k < g k := by
  constructor
  · intro hlt
    by_contra hnone
    have hsame : ks.map f = ks.map g := by
      refine List.map_congr_left fun k hk => (h k).eq_of_not_lt fun hlt => hnone ⟨k, hk, hlt⟩
    rw [hsame] at hlt
    exact lt_irrefl _ hlt
  · exact List.sum_lt_sum f g fun k _ => h k

/-- A flag that tracks the blocks of all functions tells whether a function lost an instruction. -/
theorem loses_iff {flag : Bool} (hlayouts : s.SameLayouts s')
    (h : Tracks kind s.Owns s.store s'.store flag) : flag = true ↔ s.Loses kind s' := by
  have hnumber : ∀ i, s'.number kind i < s.number kind i ↔
      ∃ b, s.body? i = some b ∧ ∃ k ∈ b.layout, s'.store.number kind k < s.store.number kind k := by
    intro i
    rw [number_eq, number_eq, hlayouts i]
    cases hb : s.body? i with
    | none => simp
    | some b =>
      have hsum := sum_lt_sum_iff h.fewer b.layout.toList
      simpa using hsum
  simp only [h.flag, Loses, hnumber, Owns]
  constructor
  · rintro ⟨k, ⟨i, b, hb, hk⟩, hlt⟩
    exact ⟨i, b, hb, k, hk, hlt⟩
  · rintro ⟨i, b, hb, k, hk, hlt⟩
    exact ⟨k, ⟨i, b, hb, hk⟩, hlt⟩

theorem SameLayouts.owns (h : s.SameLayouts s') {i : Nat} {b : Body} (hb : s'.body? i = some b)
    {k : BlockId} (hk : k ∈ b.layout) : s.Owns k := by
  have hi := h i
  rw [hb] at hi
  obtain ⟨c, hc, hlayout⟩ := Option.map_eq_some_iff.mp hi.symm
  exact ⟨i, c, hc, hlayout ▸ hk⟩

theorem SameLayouts.setBody (h : s.SameLayouts s') {i : Nat} {b b' : Body}
    (hb : s'.body? i = some b) (hlayout : b'.layout = b.layout) :
    s.SameLayouts (s'.setBody i b') := by
  intro j
  rw [← h j]
  by_cases hj : j = i
  · subst hj
    rw [body?_setBody_self hb, hb]
    exact congrArg some hlayout
  · rw [body?_setBody_other hj, Option.map_map]
    rfl

end Shader

def Shader.splitFirst (s : Shader) (n : Nat) : ShaderSplit :=
  (List.range n).foldl ShaderSplit.function ⟨s, false, none⟩

theorem splitFirst_succ (s : Shader) (n : Nat) :
    s.splitFirst (n + 1) = ShaderSplit.function (s.splitFirst n) n := by
  rw [Shader.splitFirst, List.range_succ, List.foldl_append]
  rfl

inductive SplitsFunction (r : ShaderSplit) (i : Nat) : ShaderSplit → Prop
  | stays : SplitsFunction r i r
  | passes {b : Body} (hok : r.error = none) (hb : r.shader.body? i = some b)
      (hsplit : b.splitCopies.error = none) :
      SplitsFunction r i ⟨r.shader.setBody i b.splitCopies.body,
        r.progress || b.splitCopies.progress, none⟩
  | stops {b : Body} {e : Fault SplitError} (hok : r.error = none)
      (hb : r.shader.body? i = some b) (hsplit : b.splitCopies.error ≠ none) :
      SplitsFunction r i ⟨r.shader.setBody i b.splitCopies.body, r.progress, some e⟩

theorem splitsFunction (r : ShaderSplit) (i : Nat) :
    SplitsFunction r i (ShaderSplit.function r i) := by
  unfold ShaderSplit.function
  split
  · rename_i b hok hb
    dsimp only
    split
    · rename_i hsplit
      exact .passes hok hb hsplit
    · rename_i e hsplit
      exact .stops hok hb (by simp [hsplit])
  · exact .stays

/-- What is known of a shader after its first functions. Where one of them failed, its own flag is
what the answer lacks. -/
structure SplitReport (s : Shader) (r : ShaderSplit) : Prop where
  layouts : s.SameLayouts r.shader
  passed : r.error = none → Tracks Op.isCopy s.Owns s.store r.shader.store r.progress
  stopped : r.error ≠ none → ∃ n b, (s.splitFirst n).error = none ∧
    (s.splitFirst n).shader.body? n = some b ∧ b.splitCopies.error ≠ none ∧
    ShaderSplit.function (s.splitFirst n) n = r ∧
    s.SameLayouts (s.splitFirst n).shader ∧
    Tracks Op.isCopy s.Owns s.store (s.splitFirst n).shader.store r.progress ∧
    Tracks Op.isCopy s.Owns s.store r.shader.store (r.progress || b.splitCopies.progress)

theorem splitFirst_report (s : Shader) (n : Nat) : SplitReport s (s.splitFirst n) := by
  induction n with
  | zero => exact ⟨fun _ => rfl, fun _ => .idle fun _ => rfl, fun h => absurd rfl h⟩
  | succ n ih =>
    have htracks : ∀ {b : Body}, (s.splitFirst n).error = none →
        (s.splitFirst n).shader.body? n = some b → Tracks Op.isCopy s.Owns s.store
          b.splitCopies.body.toStore ((s.splitFirst n).progress || b.splitCopies.progress) := by
      intro b hok hb
      refine (ih.passed hok).trans ?_
      rw [← store_of_body? hb]
      exact splitCopies_tracks fun k hk => ih.layouts.owns hb hk
    rw [splitFirst_succ]
    generalize hr : ShaderSplit.function (s.splitFirst n) n = r
    have hcases := hr ▸ splitsFunction (s.splitFirst n) n
    cases hcases with
    | stays => exact ih
    | passes hok hb hsplit =>
      exact ⟨ih.layouts.setBody hb (splitCopies_dwindles _).layout, fun _ => htracks hok hb,
        fun h => absurd rfl h⟩
    | @stops b e hok hb hsplit =>
      refine ⟨ih.layouts.setBody hb (splitCopies_dwindles _).layout,
        fun h => absurd h (Option.some_ne_none _), fun _ => ?_⟩
      exact ⟨n, b, hok, hb, hsplit, hr, ih.layouts, ih.passed hok, htracks hok hb⟩

def Shader.lowerFirst (s : Shader) (n : Nat) : ShaderLowered :=
  (List.range n).foldl ShaderLowered.function ⟨s, .zero, [], none⟩

theorem lowerFirst_succ (s : Shader) (n : Nat) :
    s.lowerFirst (n + 1) = ShaderLowered.function (s.lowerFirst n) n := by
  rw [Shader.lowerFirst, List.range_succ, List.foldl_append]
  rfl

/-- What lowering does at a function: nothing, or it counts what it did there, even if it failed. -/
theorem lowersFunction (r : ShaderLowered) (i : Nat) : ShaderLowered.function r i = r ∨
    ∃ b, r.error = none ∧ r.shader.body? i = some b ∧
      (ShaderLowered.function r i).shader = r.shader.setBody i b.lowerLocals.body ∧
      (ShaderLowered.function r i).total = r.total.add b.lowerLocals.stats ∧
      ((ShaderLowered.function r i).error = none → b.lowerLocals.error = none) := by
  unfold ShaderLowered.function
  split
  · rename_i b hok hb
    refine .inr ⟨b, hok, hb, ?_⟩
    dsimp only
    split
    · rename_i hlower
      exact ⟨rfl, rfl, fun _ => hlower⟩
    · exact ⟨rfl, rfl, fun h => absurd h (Option.some_ne_none _)⟩
  · exact .inl rfl

structure LowerReport (s : Shader) (n : Nat) (r : ShaderLowered) : Prop where
  layouts : s.SameLayouts r.shader
  tracks : Tracks Op.isAccess s.Owns s.store r.shader.store r.total.progress
  linked : r.total.progress = false → r.error = none → ∀ i b, n ≤ i → r.shader.body? i = some b →
    b.Linked s.Owns

theorem Body.Linked.setBody {s : Shader} {i j : Nat} {b b' c : Body} {L : BlockId → Prop}
    (hb : s.body? i = some b) (hsame : SameCode b b') (hne : j ≠ i)
    (hlinked : ∀ d, s.body? j = some d → d.Linked L) (hc : (s.setBody i b').body? j = some c) :
    c.Linked L := by
  rw [body?_setBody_other hne] at hc
  obtain ⟨d, hd, rfl⟩ := Option.map_eq_some_iff.mp hc
  have hstore : d.toStore = b.toStore := (store_of_body? hd).trans (store_of_body? hb).symm
  refine (hlinked d hd).congr ?_ rfl rfl fun k => ?_
  · show b'.instrs = d.instrs
    rw [hsame.instrs, hstore]
  · show b'.held k = d.held k
    rw [hsame.held, Body.held, Body.held, hstore]

theorem lowerFirst_report {s : Shader} (hs : s.Linked) (n : Nat) :
    LowerReport s n (s.lowerFirst n) := by
  induction n with
  | zero => exact ⟨fun _ => rfl, .idle fun _ => rfl, fun _ _ i b _ hb => hs i b hb⟩
  | succ n ih =>
    rw [lowerFirst_succ]
    rcases lowersFunction (s.lowerFirst n) n with hsame | ⟨b, hok, hb, hshader, htotal, herror⟩
    · rw [hsame]
      exact ⟨ih.layouts, ih.tracks,
        fun hp hok i b hi => ih.linked hp hok i b (Nat.le_of_succ_le hi)⟩
    · have hprogress := Lowering.progress_add (s.lowerFirst n).total b.lowerLocals.stats
      rw [← htotal] at hprogress
      have hstore := store_of_body? hb
      refine ⟨?_, ?_, fun hp hok' i c hi hc => ?_⟩
      · rw [hshader]
        exact ih.layouts.setBody hb (lowerLocals_dwindles b).layout
      · rw [hshader, hprogress]
        cases hp : (s.lowerFirst n).total.progress with
        | true =>
          -- the functions before may have changed the links of this one
          refine (hp ▸ ih.tracks).later ?_
          rw [← hstore]
          exact (lowerLocals_dwindles b).number
        | false =>
          have hlinked := ih.linked hp hok n b le_rfl hb
          exact (hp ▸ ih.tracks).trans (hstore ▸ lowerLocals_tracks hlinked)
      · rw [hprogress, Bool.or_eq_false_iff] at hp
        have hlinked := ih.linked hp.1 hok
        have hidle := lowerLocals_idle (hlinked n b le_rfl hb) hp.2 (herror hok')
        rw [hshader] at hc
        exact .setBody hb hidle (Nat.ne_of_gt hi) (hlinked i · (Nat.le_of_succ_le hi)) hc

theorem Description.linked {d : Description} {s : Shader} (h : d.toShader = .ok s) : s.Linked := by
  intro i b hb k hk id hid _
  have hlaid : b.Laid := ((Description.loaded h).unlowered hb).toLaid
  exact ⟨k, ⟨i, b, hb, hk⟩, hlaid.home k hk id hid, hid⟩

/-- The flag of lowering is right whether or not it fails. The flag of splitting is right if no
function fails. If one does, the flag is right for the functions before it, and what it misses is
what was done in that function. -/
theorem passes_report_progress (s : Shader) :
    (s.splitCopies.error = none →
      (s.splitCopies.progress = true ↔ s.Loses Op.isCopy s.splitCopies.shader)) ∧
    (s.splitCopies.error ≠ none → ∃ n b, (s.splitFirst n).error = none ∧
      (s.splitFirst n).shader.body? n = some b ∧ b.splitCopies.error ≠ none ∧
      ShaderSplit.function (s.splitFirst n) n = s.splitCopies ∧
      (s.splitCopies.progress = true ↔ s.Loses Op.isCopy (s.splitFirst n).shader) ∧
      ((s.splitCopies.progress || b.splitCopies.progress) = true ↔
        s.Loses Op.isCopy s.splitCopies.shader)) ∧
    (s.Linked →
      (s.lowerLocals.total.progress = true ↔ s.Loses Op.isAccess s.lowerLocals.shader)) := by
  have hsplit : SplitReport s s.splitCopies := splitFirst_report s s.functions.size
  refine ⟨fun hok => Shader.loses_iff hsplit.layouts (hsplit.passed hok), fun hfail => ?_,
    fun hs => ?_⟩
  · obtain ⟨n, b, hok, hb, herror, hlast, hlayouts, hbefore, hall⟩ := hsplit.stopped hfail
    exact ⟨n, b, hok, hb, herror, hlast, Shader.loses_iff hlayouts hbefore,
      Shader.loses_iff hsplit.layouts hall⟩
  · have hlower : LowerReport s s.functions.size s.lowerLocals :=
      lowerFirst_report hs s.functions.size
    exact Shader.loses_iff hlower.layouts hlower.tracks

def unsplit : FunctionDecl :=
  ⟨"helper", [{ name := "x", type := "float" }, { name := "y", type := "float" }],
    [⟨"entry", [], [{ op := "load", result := "v", deref := "x" },
      { op := "copy", dst := "x", src := "y" }]⟩]⟩

def torn : FunctionDecl :=
  ⟨"main", [{ name := "x", type := "float" }, { name := "y", type := "float" },
      { name := "z", type := "int" }],
    [⟨"entry", [], [{ op := "copy", dst := "x", src := "y" },
      -- an integer to a float
      { op := "copy", dst := "x", src := "z" }]⟩]⟩

def staggered (functions : List FunctionDecl) : Description :=
  { format := "1.0", shader := "staggered", functions }

/-- Both passes raise their flag, lowering although it fails. With a second function where splitting
fails, the flag of the first one is kept. -/
theorem staggered_reports :
    (∃ s, (staggered [unsplit]).toShader = .ok s ∧ s.splitCopies.error = none ∧
      s.Loses Op.isCopy s.splitCopies.shader ∧ s.Linked ∧ s.lowerLocals.error ≠ none ∧
      s.Loses Op.isAccess s.lowerLocals.shader) ∧
    ∃ s, (staggered [unsplit, torn]).toShader = .ok s ∧ s.splitCopies.error ≠ none ∧
      s.splitCopies.progress = true ∧ ∃ n, s.Loses Op.isCopy (s.splitFirst n).shader := by
  constructor
  · have hrun : ((staggered [unsplit]).toShader.toOption.map fun s =>
        (s.splitCopies.error, s.splitCopies.progress, s.lowerLocals.error.isSome,
          s.lowerLocals.total.progress)) = some (none, true, true, true) := by
      decide +kernel
    obtain ⟨s, hs, hrun⟩ := Option.map_eq_some_iff.mp hrun
    simp only [Prod.mk.injEq] at hrun
    obtain ⟨hok, hsplit, hfail, hlower⟩ := hrun
    have hs := ok_of_toOption hs
    have hlinked := Description.linked hs
    obtain ⟨hpassed, -, hlowered⟩ := passes_report_progress s
    exact ⟨s, hs, hok, (hpassed hok).mp hsplit, hlinked, Option.isSome_iff_ne_none.mp hfail,
      (hlowered hlinked).mp hlower⟩
  · have hrun : ((staggered [unsplit, torn]).toShader.toOption.map fun s =>
        (s.splitCopies.error.isSome, s.splitCopies.progress)) = some (true, true) := by
      decide +kernel
    obtain ⟨s, hs, hrun⟩ := Option.map_eq_some_iff.mp hrun
    simp only [Prod.mk.injEq] at hrun
    obtain ⟨hfail, hsplit⟩ := hrun
    have hfail := Option.isSome_iff_ne_none.mp hfail
    obtain ⟨-, hstopped, -⟩ := passes_report_progress s
    obtain ⟨n, b, -, -, -, -, hbefore, -⟩ := hstopped hfail
    exact ⟨s, ok_of_toOption hs, hfail, hsplit, n, hbefore.mp hsplit⟩

/-- One of the two copies is gone, and no progress is reported. -/
theorem torn_goes_unreported : ∃ s, (staggered [torn]).toShader = .ok s ∧
    s.splitCopies.error ≠ none ∧ s.Loses Op.isCopy s.splitCopies.shader ∧
    s.splitCopies.progress = false := by
  have hrun : ((staggered [torn]).toShader.toOption.map fun s =>
      (s.splitCopies.error.isSome, s.number Op.isCopy 0,
        s.splitCopies.shader.number Op.isCopy 0, s.splitCopies.progress)) =
          some (true, 2, 1, false) := by
    decide +kernel
  obtain ⟨s, hs, hrun⟩ := Option.map_eq_some_iff.mp hrun
  simp only [Prod.mk.injEq] at hrun
  obtain ⟨hfail, hbefore, hafter, hsplit⟩ := hrun
  have hloses : s.Loses Op.isCopy s.splitCopies.shader := ⟨0, by rw [hbefore, hafter]; decide⟩
  exact ⟨s, ok_of_toOption hs, Option.isSome_iff_ne_none.mp hfail, hloses, hsplit⟩

end ShaderIR
