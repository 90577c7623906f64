import ShaderIR.Proofs.Loading
import ShaderIR.Proofs.TypeText

/-!
# Loading a function

A function comes onto the tables as a run of empty blocks. The blocks get their edges, and after
that, from the first to the last, their instructions. What the tables held before stays, so the
functions loaded earlier do not notice.
-/

set_option autoImplicit false

namespace ShaderIR

def Function.locals (f : Function) : List Variable := (f.frame.map (·.locals.toList)).getD []

def Store.Recorded (s : Store) : Prop := ∀ id : Nat, some id ∈ s.definers → id < s.instrs.size

structure Store.Extends (s s' : Store) : Prop where
  instrs : ∀ id < s.instrs.size, s'.instrs[id]? = s.instrs[id]?
  instrs_le : s.instrs.size ≤ s'.instrs.size
  blocks : ∀ k < s.blocks.size, s'.blocks[k]? = s.blocks[k]?
  blocks_le : s.blocks.size ≤ s'.blocks.size
  definers : ∀ n < s.definers.size, s'.definers[n]? = s.definers[n]?
  definers_le : s.definers.size ≤ s'.definers.size
  registerCount_le : s.registerCount ≤ s'.registerCount

namespace Store.Extends

variable {s s' s'' : Store}

theorem refl (s : Store) : s.Extends s where
  instrs _ _ := rfl
  instrs_le := Nat.le_refl _
  blocks _ _ := rfl
  blocks_le := Nat.le_refl _
  definers _ _ := rfl
  definers_le := Nat.le_refl _
  registerCount_le := Nat.le_refl _

theorem trans (h : s.Extends s') (h' : s'.Extends s'') : s.Extends s'' where
  instrs id hid := (h'.instrs id (Nat.lt_of_lt_of_le hid h.instrs_le)).trans (h.instrs id hid)
  instrs_le := Nat.le_trans h.instrs_le h'.instrs_le
  blocks k hk := (h'.blocks k (Nat.lt_of_lt_of_le hk h.blocks_le)).trans (h.blocks k hk)
  blocks_le := Nat.le_trans h.blocks_le h'.blocks_le
  definers n hn := (h'.definers n (Nat.lt_of_lt_of_le hn h.definers_le)).trans (h.definers n hn)
  definers_le := Nat.le_trans h.definers_le h'.definers_le
  registerCount_le := Nat.le_trans h.registerCount_le h'.registerCount_le

/-- A function of the smaller tables does not notice that they grew. -/
theorem undisturbed (h : s.Extends s') {f : Frame} (hlayout : ∀ k ∈ f.layout, k < s.blocks.size)
    (hplaced : ∀ id ∈ (Body.mk s f).placedInstrs, id < s.instrs.size) :
    Undisturbed ⟨s, f⟩ ⟨s', f⟩ where
  frame := rfl
  blocks k hk := h.blocks k (hlayout k hk)
  instrs id hid := h.instrs id (hplaced id hid)
  instrs_le := h.instrs_le
  definers := h.definers
  definers_le := h.definers_le
  registerCount_le := h.registerCount_le

end Store.Extends

/-- The function came onto the tables as `store` was and left them as `store'` is. -/
structure Resides (store store' : Store) (globals : List Variable) (b : Body) : Prop
    extends LoadedBody store.instrs.size store'.instrs.size store.definers.size
      (b.locals.toList ++ globals) b where
  layout : b.layout.toList = List.range' store.blocks.size (store'.blocks.size - store.blocks.size)
  ordered : b.Ordered
  valid : b.valid = .none

namespace Resides

variable {store store' : Store} {globals : List Variable} {b b' : Body}

theorem undisturbed (h : Resides store store' globals b) (hu : Undisturbed b b') :
    Resides store store' globals b' where
  toLoadedBody := by
    rw [hu.locals]
    exact h.toLoadedBody.undisturbed hu
  layout := hu.layout ▸ h.layout
  ordered := h.ordered.undisturbed hu
  valid := (congrArg Frame.valid hu.frame).trans h.valid

theorem mem_layout (h : Resides store store' globals b) {k : Nat} (hk : k ∈ b.layout) :
    store.blocks.size ≤ k ∧ k < store'.blocks.size := by
  rw [← Array.mem_toList_iff, h.layout, List.mem_range'_1] at hk
  omega

/-- Functions that came onto the tables one after the other share no block and no instruction. -/
theorem apart {next next' : Store} (h : Resides store store' globals b)
    (h' : Resides next next' globals b') (hext : store'.Extends next) : Apart b b' := by
  have hblocks := hext.blocks_le
  have hinstrs := hext.instrs_le
  constructor
  · intro (k : Nat) hk hk'
    have hlt := (h.mem_layout hk).2
    have hge := (h'.mem_layout hk').1
    omega
  · intro (id : Nat) hid hid'
    have hlt := (h.mem_placedInstrs.mp hid).2
    have hge := (h'.mem_placedInstrs.mp hid').1
    omega

end Resides

namespace Loading

structure Sprouted (base : Store) (locals : Array Variable) (n : Nat) (b : Body) : Prop where
  instrs : b.instrs = base.instrs
  definers : b.definers = base.definers
  registerCount : b.registerCount = base.registerCount
  locals : b.locals = locals
  links : b.links = #[]
  valueCount : b.valueCount = 0
  valid : b.valid = .none
  layout : b.layout.toList = List.range' base.blocks.size n
  size : b.blocks.size = base.blocks.size + n
  old : ∀ k < base.blocks.size, b.blocks[k]? = base.blocks[k]?
  fresh : ∀ i < n, ∃ blk, b.blocks[base.blocks.size + i]? = some blk ∧ blk.index = i ∧
    blk.instrs = [] ∧ blk.succs.length ≤ 2 ∧ ∀ j ∈ blk.succs, j ∈ b.layout

def Edgeless (b : Body) (k : BlockId) : Prop := ∀ blk, b.blocks[k]? = some blk → blk.succs = []

section

variable {base : Store} {locals : Array Variable} {n : Nat} {b : Body}

theorem Sprouted.mem_layout (h : Sprouted base locals n b) {k : Nat} :
    k ∈ b.layout ↔ base.blocks.size ≤ k ∧ k < base.blocks.size + n := by
  rw [← Array.mem_toList_iff, h.layout, List.mem_range'_1]

theorem Sprouted.addBlock (h : Sprouted base locals n b) (name : String) :
    (Body.addBlock name b).1 = base.blocks.size + n ∧
      Sprouted base locals (n + 1) (Body.addBlock name b).2 ∧
      Edgeless (Body.addBlock name b).2 (base.blocks.size + n) ∧
      ∀ k < base.blocks.size + n, Edgeless b k → Edgeless (Body.addBlock name b).2 k := by
  have hrun : Body.addBlock name b = (b.blocks.size,
      { b with
        blocks := b.blocks.push ⟨b.layout.size, name, [], [], none, [], [], []⟩
        layout := b.layout.push b.blocks.size
        valid := .none }) := rfl
  have hsize := h.size
  have hlen : b.layout.size = n := by
    rw [← Array.length_toList, h.layout, List.length_range']
  rw [hrun]
  refine ⟨h.size, { h with valid := rfl, layout := ?_, size := ?_, old := ?_, fresh := ?_ }, ?_, ?_⟩
  · simp [h.layout, h.size, List.range'_concat]
  · simp [h.size]
    omega
  · intro k hk
    simp only [Array.getElem?_push]
    rw [if_neg (by omega)]
    exact h.old k hk
  · intro i hi
    by_cases hin : i = n
    · refine ⟨⟨b.layout.size, name, [], [], none, [], [], []⟩, ?_, ?_, rfl, by simp, by simp⟩
      · rw [hin, ← h.size]
        simp
      · rw [hin]
        exact hlen
    · obtain ⟨blk, hblk, hindex, hinstrs, hlength, hsuccs⟩ := h.fresh i (by omega)
      refine ⟨blk, ?_, hindex, hinstrs, hlength, fun j hj => Array.mem_push.mpr (.inl (hsuccs j hj))⟩
      simp only [Array.getElem?_push]
      rw [if_neg (by omega)]
      exact hblk
  · intro blk hblk
    simp only [Array.getElem?_push, h.size] at hblk
    rw [← Option.some.inj hblk]
  · intro k hk hedgeless blk hblk
    simp only [Array.getElem?_push] at hblk
    rw [if_neg (by omega)] at hblk
    exact hedgeless blk hblk

theorem addBlocks_ok {names : List String} {ids : List BlockId} {b' : Body}
    (h : Sprouted base locals n b)
    (hedgeless : ∀ k < base.blocks.size + n, k ∈ b.layout → Edgeless b k)
    (hrun : (names.mapM Body.addBlock : Edit (List BlockId)) b = (ids, b')) :
    ids = List.range' (base.blocks.size + n) names.length ∧
      Sprouted base locals (n + names.length) b' ∧ ∀ k ∈ b'.layout, Edgeless b' k := by
  induction names generalizing n b ids with
  | nil =>
    cases hrun
    refine ⟨rfl, h, fun k hk => ?_⟩
    exact hedgeless k (h.mem_layout.mp hk).2 hk
  | cons name names ih =>
    rw [List.mapM_cons, state_bind, state_bind] at hrun
    obtain ⟨hid, hs, hnew, hold⟩ := h.addBlock name
    have hedgeless' : ∀ k < base.blocks.size + (n + 1), k ∈ (Body.addBlock name b).2.layout →
        Edgeless (Body.addBlock name b).2 k := by
      intro (k : Nat) hk hmem
      by_cases hkn : k = base.blocks.size + n
      · rw [hkn]
        exact hnew
      · have hlt : k < base.blocks.size + n := by omega
        exact hold k hlt (hedgeless k hlt (h.mem_layout.mpr ⟨(hs.mem_layout.mp hmem).1, hlt⟩))
    generalize hrest : names.mapM Body.addBlock (Body.addBlock name b).2 = r at hrun
    cases hrun
    obtain ⟨hids, hs', hall⟩ := ih hs hedgeless' hrest
    refine ⟨?_, ?_, hall⟩
    · rw [hid, hids, List.length_cons, List.range'_succ]
      rfl
    · simpa [Nat.add_assoc, Nat.add_comm 1] using hs'

def addEdges (b : Body) (id : BlockId) (targets : List BlockId) : Body :=
  { b with blocks := b.blocks.modify id fun blk => { blk with succs := blk.succs ++ targets } }

theorem addEdges_nil (b : Body) (id : BlockId) : addEdges b id [] = b := by
  have hblocks : b.blocks.modify id (fun blk => { blk with succs := blk.succs ++ [] }) =
      b.blocks := by
    apply Array.ext_getElem?
    intro k
    simp [Array.getElem?_modify]
  rw [addEdges, hblocks]

theorem addEdges_addEdges (b : Body) (id : BlockId) (ts us : List BlockId) :
    addEdges (addEdges b id ts) id us = addEdges b id (ts ++ us) := by
  have hblocks : (addEdges (addEdges b id ts) id us).blocks = (addEdges b id (ts ++ us)).blocks := by
    apply Array.ext_getElem?
    intro k
    by_cases hk : id = k <;> simp [addEdges, Array.getElem?_modify, hk, Function.comp_def]
  simp only [addEdges, Body.mk.injEq, Store.mk.injEq] at hblocks ⊢
  simp [hblocks]

theorem edges_ok {blocks : List (String × BlockId)} {name : String} {id : BlockId}
    {succs : List String} {b' : Body} (h : edges blocks name id succs b = .ok b') :
    ∃ ts, ts.length ≤ 2 ∧ (∀ t ∈ ts, t ∈ blocks.map Prod.snd) ∧ b' = addEdges b id ts := by
  unfold edges at h
  split at h
  · cases h
  · rename_i hlength
    have hts : ∃ ts, ts.length = succs.length ∧ (∀ t ∈ ts, t ∈ blocks.map Prod.snd) ∧
        b' = addEdges b id ts := by
      clear hlength
      induction succs generalizing b with
      | nil =>
        cases h
        refine ⟨[], rfl, by simp, ?_⟩
        exact (addEdges_nil _ id).symm
      | cons s succs ih =>
        rw [List.foldlM_cons] at h
        obtain ⟨c, hc, h⟩ := except_ok h
        cases ht : blocks.lookup s with
        | none =>
          simp only [ht] at hc
          cases hc
        | some t =>
          simp only [ht] at hc
          cases hc
          obtain ⟨ts, hlen, hmem, rfl⟩ := ih h
          refine ⟨t :: ts, by simp [hlen], ?_, addEdges_addEdges b id [t] ts⟩
          intro u hu
          rcases List.mem_cons.mp hu with rfl | hu
          · exact List.mem_map_of_mem (mem_of_lookup ht)
          · exact hmem u hu
    obtain ⟨ts, hlen, hmem, rfl⟩ := hts
    exact ⟨ts, by omega, hmem, rfl⟩

theorem Sprouted.addEdges (h : Sprouted base locals n b) {id : Nat} (hid : id ∈ b.layout)
    (hedgeless : Edgeless b id) {ts : List BlockId} (hlen : ts.length ≤ 2)
    (hts : ∀ t ∈ ts, t ∈ b.layout) :
    Sprouted base locals n (addEdges b id ts) := by
  have hge := (h.mem_layout.mp hid).1
  refine { h with size := ?_, old := ?_, fresh := ?_ }
  · simp [Loading.addEdges, h.size]
  · intro k hk
    rw [← h.old k hk]
    simp only [Loading.addEdges, Array.getElem?_modify]
    rw [if_neg (by omega)]
  · intro i hi
    obtain ⟨blk, hblk, hindex, hinstrs, hlength, hsuccs⟩ := h.fresh i hi
    by_cases hk : id = base.blocks.size + i
    · have hnil := hedgeless blk (hk ▸ hblk)
      refine ⟨{ blk with succs := ts }, ?_, hindex, hinstrs, hlen, hts⟩
      simp [Loading.addEdges, Array.getElem?_modify, hk, hblk, hnil]
    · refine ⟨blk, ?_, hindex, hinstrs, hlength, hsuccs⟩
      simp [Loading.addEdges, Array.getElem?_modify, hk, hblk]

theorem allEdges_ok {blocks : List (String × BlockId)}
    {described : List (BlockDecl × String × BlockId)} {b' : Body}
    (h : Sprouted base locals n b) (hedgeless : ∀ k ∈ b.layout, Edgeless b k)
    (hblocks : ∀ k ∈ blocks.map Prod.snd, k ∈ b.layout)
    (hids : (described.map (·.2.2)).Nodup) (hmem : ∀ x ∈ described, x.2.2 ∈ b.layout)
    (hrun : described.foldlM (fun b (blk, name, id) => edges blocks name id blk.succs b) b =
      .ok b') : Sprouted base locals n b' := by
  have hI := foldlM_ok
    (fun (rest : List (BlockDecl × String × BlockId)) c => Sprouted base locals n c ∧
      c.layout = b.layout ∧ (rest.map (·.2.2)).Nodup ∧
      ∀ x ∈ rest, x.2.2 ∈ b.layout ∧ Edgeless c x.2.2) ?_
    ⟨h, rfl, hids, fun x hx => ⟨hmem x hx, hedgeless _ (hmem x hx)⟩⟩ hrun
  · exact hI.1
  · rintro ⟨blk, name, id⟩ rest c c' ⟨hs, hlayout, hnodup, hrest⟩ hc
    obtain ⟨ts, hlen, hts, rfl⟩ := edges_ok hc
    obtain ⟨hid, hbareid⟩ := hrest _ (.head _)
    rw [List.map_cons, List.nodup_cons] at hnodup
    refine ⟨hs.addEdges (hlayout ▸ hid) hbareid hlen (fun t ht => hlayout ▸ hblocks t (hts t ht)),
      hlayout, hnodup.2, fun x hx => ⟨(hrest x (.tail _ hx)).1, ?_⟩⟩
    intro blk' hblk'
    have hne : id ≠ x.2.2 := fun heq => hnodup.1 (List.mem_map.mpr ⟨x, hx, heq.symm⟩)
    simp only [addEdges, Array.getElem?_modify, if_neg hne] at hblk'
    exact (hrest x (.tail _ hx)).2 blk' hblk'

theorem Sprouted.held (h : Sprouted base locals n b) {k : Nat} (hk : k ∈ b.layout) :
    b.held k = [] := by
  obtain ⟨hge, hlt⟩ := h.mem_layout.mp hk
  obtain ⟨blk, hblk, -, hinstrs, -⟩ := h.fresh (k - base.blocks.size) (by omega)
  rw [Nat.add_sub_cancel' hge] at hblk
  simp [Body.held, hblk, hinstrs]

theorem Sprouted.ordered (h : Sprouted base locals n b) : b.Ordered := by
  intro i k hk
  rw [← Array.getElem?_toList, h.layout] at hk
  obtain ⟨hi, hik⟩ := List.getElem?_eq_some_iff.mp hk
  rw [List.length_range'] at hi
  rw [List.getElem_range', Nat.one_mul] at hik
  obtain ⟨blk, hblk, hindex, -, hlength, hsuccs⟩ := h.fresh i hi
  exact ⟨blk, hik ▸ hblk, hindex, hlength, hsuccs⟩

theorem Sprouted.assembled (h : Sprouted base locals n b) (hrec : base.Recorded)
    (vars : List Variable) : Assembled base vars b := by
  have hplaced : b.placedInstrs = [] := by
    rw [Body.placedInstrs_eq, List.flatMap_eq_nil_iff]
    exact fun k hk => h.held (Array.mem_toList_iff.mp hk)
  have hinstrs : b.instrs.size = base.instrs.size := by rw [h.instrs]
  refine ⟨⟨by omega, Nat.le_refl _, ?_, ?_, ?_, ?_, ?_, ?_, ?_, ?_, ?_, ?_⟩, ?_, ?_⟩
  · rw [hplaced, hinstrs, Nat.sub_self]
    rfl
  · intro k hk id hid
    rw [h.held hk] at hid
    simp at hid
  · rw [h.links]
    exact Built.empty
  · simp [h.links]
  · simp [h.links]
  · simp [h.links]
  · intro id hge hlt
    omega
  · intro id hge hlt
    omega
  · simp [h.definers, h.valueCount]
  · intro m hm
    rw [h.valueCount] at hm
    omega
  · simp [h.definers, h.valueCount]
  · rw [h.definers, h.instrs]
    exact hrec

end

structure Filled (base : Store) (scope : Scope) (b : Body)
    (rest : List (BlockDecl × String × BlockId)) (s : Building) : Prop where
  behind : ∃ pre, b.layout.toList = pre ++ rest.map (·.2.2)
  body : Assembled base scope.variables s.body
  grows : Grows b s.body
  values : ∀ x ∈ s.values, s.body.Defines base.instrs.size s.body.instrs.size x.2
  empty : ∀ x ∈ rest, s.body.held x.2.2 = []
  size : s.body.blocks.size = b.blocks.size
  blocks : ∀ k, k ∉ b.layout → s.body.blocks[k]? = b.blocks[k]?

section

variable {base : Store} {scope : Scope} {b : Body} {s s' : Building} {blk : BlockDecl}
  {name : String} {id : BlockId} {rest : List (BlockDecl × String × BlockId)}

/-- The block at hand is open, as the blocks behind it are empty. -/
theorem Filled.opened (h : Filled base scope b ((blk, name, id) :: rest) s)
    (hsorted : b.layout.toList.Pairwise (· < ·)) (hlt : ∀ k ∈ b.layout, k < b.blocks.size) :
    s.body.Open id := by
  obtain ⟨pre, hpre⟩ := h.behind
  have hmem : id ∈ b.layout := by
    rw [← Array.mem_toList_iff, hpre]
    simp
  refine ⟨h.grows.layout ▸ hsorted, h.grows.layout ▸ hmem, h.size ▸ hlt id hmem, ?_⟩
  intro j hj hlt
  rw [h.grows.layout, ← Array.mem_toList_iff, hpre, List.map_cons, List.mem_append,
    List.mem_cons] at hj
  rw [hpre, List.map_cons, List.pairwise_append] at hsorted
  rcases hj with hj | rfl | hj
  · exact absurd (hsorted.2.2 j hj id (.head _)) (Nat.lt_asymm hlt)
  · exact absurd hlt (Nat.lt_irrefl _)
  · obtain ⟨x, hx, rfl⟩ := List.mem_map.mp hj
    exact h.empty x (.tail _ hx)

theorem Filled.step (h : Filled base scope b ((blk, name, id) :: rest) s)
    (hsorted : b.layout.toList.Pairwise (· < ·)) (hlt : ∀ k ∈ b.layout, k < b.blocks.size)
    (hrun : instrs scope (.atEnd id) name 0 blk.instrs s = .ok ((), s')) :
    Filled base scope b rest s' := by
  have hadv := instrs_ok ⟨h.body, h.opened hsorted hlt, h.values⟩ hrun
  obtain ⟨pre, hpre⟩ := h.behind
  refine ⟨⟨pre ++ [id], by simp [hpre]⟩, hadv.body, h.grows.trans hadv.grows, hadv.values, ?_, ?_, ?_⟩
  · intro x hx
    have hlt : id < x.2.2 := by
      rw [hpre, List.map_cons, List.pairwise_append] at hsorted
      exact List.rel_of_pairwise_cons hsorted.2.1 (List.mem_map_of_mem hx)
    rw [Body.held, hadv.blocks _ (Nat.ne_of_gt hlt)]
    exact h.empty x (.tail _ hx)
  · rw [hadv.grows.blocks_size, h.size]
  · intro k hk
    have hne : k ≠ id := by
      rintro rfl
      apply hk
      rw [← Array.mem_toList_iff, hpre]
      simp
    rw [hadv.blocks k hne, h.blocks k hk]

end

theorem fill_ok {base : Store} {scope : Scope} {b : Body} {s' : Building}
    {described : List (BlockDecl × String × BlockId)} (hb : Assembled base scope.variables b)
    (hsorted : b.layout.toList.Pairwise (· < ·)) (hlt : ∀ k ∈ b.layout, k < b.blocks.size)
    (hheld : ∀ k ∈ b.layout, b.held k = []) (hids : described.map (·.2.2) = b.layout.toList)
    (hrun : described.foldlM
      (fun (s : Building) (blk, name, id) => do
        let (_, s) ← instrs scope (.atEnd id) name 0 blk.instrs s
        return s) ⟨b, []⟩ = .ok s') : Filled base scope b [] s' := by
  apply foldlM_ok (Filled base scope b) _ _ hrun
  · rintro ⟨blk, name, id⟩ rest s s₂ h hc
    obtain ⟨⟨u, s₁⟩, hc, hs₁⟩ := except_ok hc
    cases hs₁
    exact h.step hsorted hlt hc
  · refine ⟨⟨[], hids.symm⟩, hb, .refl b, by simp, ?_, rfl, fun _ _ => rfl⟩
    intro x hx
    apply hheld
    rw [← Array.mem_toList_iff, ← hids]
    exact List.mem_map_of_mem hx

/-- Filling the blocks of a new function appends to the tables. -/
theorem Sprouted.extends {base store : Store} {locals : Array Variable} {n : Nat} {scope : Scope}
    {b : Body} {s : Building} (h : Sprouted base locals n b) (hs : Filled store scope b [] s) :
    base.Extends s.body.toStore where
  instrs id hid := by rw [hs.grows.instrs id (h.instrs ▸ hid), h.instrs]
  instrs_le := h.instrs ▸ hs.grows.instrs_le
  blocks k hk := by
    have hnew : k ∉ b.layout := by
      rw [h.mem_layout]
      omega
    rw [hs.blocks k hnew, h.old k hk]
  blocks_le := by
    rw [hs.size, h.size]
    omega
  definers n hn := by rw [hs.grows.definers n (h.definers ▸ hn), h.definers]
  definers_le := h.definers ▸ hs.grows.definers_le
  registerCount_le := h.registerCount ▸ hs.grows.registerCount_le

theorem wrapDims_complete {t : Ty} (h : t.complete = true) (dims : List Int) :
    (Ty.wrapDims t dims).complete = true := by
  induction dims with
  | nil => exact h
  | cons n dims ih => exact ih

theorem parseBase_complete {structs : Ty.Structs} (hs : ∀ x ∈ structs, x.2.complete = true)
    {name : List Char} {t : Ty} (h : Ty.parseBase structs name = .ok t) : t.complete = true := by
  unfold Ty.parseBase at h
  split at h
  · cases h
    rfl
  · split at h
    · split at h
      · cases h
        rfl
      · cases h
    · dsimp only at h
      split at h
      · rename_i hlookup
        cases h
        exact hs _ (mem_of_lookup hlookup)
      · cases h

theorem parse_complete {structs : Ty.Structs} (hs : ∀ x ∈ structs, x.2.complete = true)
    {text : String} {t : Ty} (h : Ty.parse structs text = .ok t) : t.complete = true := by
  obtain ⟨dims, -, h⟩ := except_ok h
  obtain ⟨base, hbase, h⟩ := except_ok h
  cases h
  exact wrapDims_complete (parseBase_complete hs hbase) dims

structure Declared (P : Mode → Prop) (next next' : Nat) (vs : List Variable) : Prop where
  le : next ≤ next'
  ids : vs.map (·.id) = (List.range' next (next' - next)).map Int.ofNat
  modes : ∀ v ∈ vs, P v.mode
  types : ∀ v ∈ vs, v.type.complete = true

section

variable {P : Mode → Prop} {structs : Ty.Structs} {next next' : Nat} {vs : List Variable}

theorem Declared.nil (P : Mode → Prop) (next : Nat) : Declared P next next [] :=
  ⟨Nat.le_refl _, by simp, by simp, by simp⟩

theorem Declared.append_ids {Q : Mode → Prop} {last : Nat} {ws : List Variable}
    (h : Declared P next next' vs) (h' : Declared Q next' last ws) :
    (vs ++ ws).map (·.id) = (List.range' next (last - next)).map Int.ofNat := by
  have hle := h.le
  have hle' := h'.le
  have hstart : next' = next + 1 * (next' - next) := by omega
  have hcount : last - next = next' - next + (last - next') := by omega
  rw [List.map_append, h.ids, h'.ids, ← List.map_append]
  nth_rewrite 2 [hstart]
  rw [List.range'_append, hcount]

theorem Declared.append {last : Nat} {ws : List Variable} (h : Declared P next next' vs)
    (h' : Declared P next' last ws) : Declared P next last (vs ++ ws) := by
  refine ⟨Nat.le_trans h.le h'.le, h.append_ids h', ?_, ?_⟩
  · intro v hv
    rcases List.mem_append.mp hv with hv | hv
    · exact h.modes v hv
    · exact h'.modes v hv
  · intro v hv
    rcases List.mem_append.mp hv with hv | hv
    · exact h.types v hv
    · exact h'.types v hv

theorem Declared.push (h : Declared P next next' vs) (hs : ∀ x ∈ structs, x.2.complete = true)
    {mode : Mode} (hmode : P mode) {d : VariableDecl} {v : Variable}
    (hv : declare structs next' mode d = .ok v) : Declared P next (next' + 1) (vs ++ [v]) := by
  obtain ⟨t, ht, hv⟩ := except_ok hv
  cases hv
  apply h.append
  exact ⟨Nat.le_succ _, by simp, by simpa using hmode, by simpa using parse_complete hs ht⟩

theorem declareLocals_ok {first : Nat} {seen vars : List (String × Variable)}
    {ds : List VariableDecl} (hs : ∀ x ∈ structs, x.2.complete = true)
    (hseen : Declared (· = .local) first next (seen.reverse.map Prod.snd))
    (h : declareLocals structs next seen ds = .ok (next', vars)) :
    Declared (· = .local) first next' (vars.reverse.map Prod.snd) := by
  induction ds generalizing next seen with
  | nil =>
    cases h
    exact hseen
  | cons d ds ih =>
    obtain ⟨v, hv, h⟩ := except_ok h
    split at h
    · cases h
    · apply ih _ h
      simpa using hseen.push hs rfl (mapError_eq_ok_iff.mp hv)

end

theorem length_blockNames {seen names : List String} {i : Nat} {ds : List BlockDecl}
    (h : blockNames seen i ds = .ok names) : names.length = seen.length + ds.length := by
  induction ds generalizing seen i with
  | nil =>
    cases h
    simp
  | cons d ds ih =>
    unfold blockNames at h
    dsimp only at h
    split at h
    · cases h
    · rw [ih h]
      simp only [List.length_cons]
      omega

structure FunctionLoaded (globals : List Variable) (next next' : Nat) (store store' : Store)
    (f : Function) : Prop where
  tables : store.Extends store'
  recorded : store'.Recorded
  locals : Declared (· = .local) next next' f.locals
  resides : ∀ frame ∈ f.frame, Resides store store' globals ⟨store', frame⟩

theorem sprout_ok {store : Store} {locals : Array Variable} {names : List String}
    {ids : List BlockId} {ds : List BlockDecl} {b₁ b₂ : Body} (hlen : names.length = ds.length)
    (hstart : (names.mapM Body.addBlock : Edit (List BlockId))
      { toStore := store, locals := locals } = (ids, b₁))
    (hedges : (ds.zip (names.zip ids)).foldlM
      (fun b (blk, name, id) => edges (names.zip ids) name id blk.succs b) b₁ = .ok b₂) :
    Sprouted store locals names.length b₂ ∧
      (ds.zip (names.zip ids)).map (·.2.2) = b₂.layout.toList := by
  have hempty : Sprouted store locals 0 { toStore := store, locals := locals } :=
    ⟨rfl, rfl, rfl, rfl, rfl, rfl, rfl, rfl, rfl, fun _ _ => rfl, by simp⟩
  obtain ⟨hids, hs₁, hedgeless⟩ := addBlocks_ok hempty (by simp) hstart
  rw [Nat.zero_add] at hs₁
  rw [Nat.add_zero] at hids
  have hzip : (names.zip ids).map Prod.snd = ids := by
    apply List.map_snd_zip
    simp [hids]
  have hdescribed : (ds.zip (names.zip ids)).map (·.2.2) = ids := by
    have hsnd : (ds.zip (names.zip ids)).map Prod.snd = names.zip ids := by
      apply List.map_snd_zip
      simp [hids, hlen]
    have hmap := congrArg (List.map Prod.snd) hsnd
    rw [hzip, List.map_map] at hmap
    exact hmap
  have hlayout₁ : b₁.layout.toList = ids := hs₁.layout.trans hids.symm
  have hs₂ : Sprouted store locals names.length b₂ := by
    apply allEdges_ok hs₁ hedgeless _ _ _ hedges
    · rw [hzip]
      intro k hk
      rw [← Array.mem_toList_iff, hlayout₁]
      exact hk
    · rw [hdescribed, hids]
      exact List.nodup_range'
    · intro x hx
      rw [← Array.mem_toList_iff, hlayout₁, ← hdescribed]
      exact List.mem_map_of_mem hx
  exact ⟨hs₂, hdescribed.trans (hids.trans hs₂.layout.symm)⟩

theorem body_ok {store : Store} {structs : Ty.Structs} {globals vars : List (String × Variable)}
    {names : List String} {ids : List BlockId} {ds : List BlockDecl} {b₁ b₂ : Body} {s : Building}
    (hrec : store.Recorded) (hlen : names.length = ds.length)
    (hstart : (names.mapM Body.addBlock : Edit (List BlockId))
      { toStore := store, locals := (vars.reverse.map Prod.snd).toArray } = (ids, b₁))
    (hedges : (ds.zip (names.zip ids)).foldlM
      (fun b (blk, name, id) => edges (names.zip ids) name id blk.succs b) b₁ = .ok b₂)
    (hfill : (ds.zip (names.zip ids)).foldlM
      (fun (s : Building) (blk, name, id) => do
        let (_, s) ← instrs ⟨structs, globals, vars⟩ (.atEnd id) name 0 blk.instrs s
        return s) ⟨b₂, []⟩ = .ok s) :
    store.Extends s.body.toStore ∧ s.body.toStore.Recorded ∧
      s.body.locals = (vars.reverse.map Prod.snd).toArray ∧
      Resides store s.body.toStore (globals.map Prod.snd) s.body := by
  obtain ⟨hs₂, hdescribed⟩ := sprout_ok hlen hstart hedges
  have hfilled := fill_ok (hs₂.assembled hrec _)
    (by rw [hs₂.layout]; exact List.pairwise_lt_range')
    (fun (k : Nat) hk => by
      rw [hs₂.size]
      exact (hs₂.mem_layout.mp hk).2)
    (fun k hk => hs₂.held hk) hdescribed hfill
  have hs := hfilled.body
  have hlocals : s.body.locals = (vars.reverse.map Prod.snd).toArray :=
    hfilled.grows.locals.trans hs₂.locals
  refine ⟨hs₂.extends hfilled, hs.recorded, hlocals, ?_, ?_, ?_, ?_⟩
  · refine { hs.toLoadedBody with roots := fun l hl v hv => ?_ }
    have hmem := hs.roots l hl v hv
    simpa [Scope.variables, hlocals] using hmem
  · rw [hfilled.grows.layout, hs₂.layout, hfilled.size, hs₂.size]
    congr 1
    omega
  · exact hs₂.ordered.grows hfilled.grows
  · exact hfilled.grows.valid.trans hs₂.valid

theorem buildFunction_ok {structs : Ty.Structs} {globals : List (String × Variable)}
    {next next' : Nat} {store store' : Store} {d : FunctionDecl} {f : Function}
    (hs : ∀ x ∈ structs, x.2.complete = true) (hrec : store.Recorded)
    (h : buildFunction structs globals next store d = .ok (f, store', next')) :
    FunctionLoaded (globals.map Prod.snd) next next' store store' f := by
  unfold buildFunction at h
  split at h
  · split at h
    · cases h
    · cases h
      exact ⟨.refl store, hrec, .nil _ next, by simp⟩
  · obtain ⟨⟨next₁, vars⟩, hvars, h⟩ := except_ok h
    obtain ⟨names, hnames, h⟩ := except_ok h
    dsimp only at h
    generalize hstart : (names.mapM Body.addBlock : Edit (List BlockId)).run _ = started at h
    obtain ⟨ids, b₁⟩ := started
    obtain ⟨b₂, hedges, h⟩ := except_ok h
    obtain ⟨built, hbuilt, h⟩ := except_ok h
    cases h
    have hlen : names.length = d.blocks.length := by simpa using length_blockNames hnames
    have hlocals := declareLocals_ok hs (.nil _ next) hvars
    obtain ⟨hext, hrec', hsame, hres⟩ := body_ok hrec hlen hstart hedges hbuilt
    refine ⟨hext, hrec', ?_, ?_⟩
    · rw [Function.locals, Option.map_some, Option.getD_some, hsame]
      exact hlocals
    · rintro frame ⟨⟩
      exact hres

end Loading

end ShaderIR
