import ShaderIR.Proofs.Confinement
import ShaderIR.Proofs.Form

/-!
# Bodies under assembly

A body is assembled block by block, each from its start to its end. So a new instruction stands
behind all others, and it reads values that others before it define, at its operands and along its
chains. A link leads to a variable, an element or a field, never over a cast. The value of an
instruction has the number that the counter of the body had, and the instruction is recorded for it.
-/

set_option autoImplicit false

namespace ShaderIR

namespace Body

def defined? (b : Body) (id : InstrId) : Option Value := (b.op? id).bind Op.result?

def Defines (b : Body) (first id : Nat) (v : Value) : Prop :=
  ∃ d, first ≤ d ∧ d < id ∧ b.defined? d = some v

def Ready (b : Body) (first id : Nat) (o : Operand) : Prop :=
  ∃ v, o = .value v ∧ b.Defines first id v

structure Open (b : Body) (k : BlockId) : Prop where
  sorted : b.layout.toList.Pairwise (· < ·)
  mem : k ∈ b.layout
  lt_size : k < b.blocks.size
  behind : ∀ j ∈ b.layout, k < j → b.held j = []

end Body

structure Loads (t : Ty) (dest : Dest) (n : Int) : Prop where
  leaf : t.isVectorOrScalar = true
  components : n = t.components
  result : ∃ v, dest = .value v ∧ v.components = t.components ∧ v.bits = t.bits

structure Op.Grounded (b : Body) (first id : Nat) (op : Op) : Prop where
  srcs : ∀ o ∈ op.srcs, b.Ready first id o
  slotless : op.slotDest? = none
  derefs : ∀ h ∈ op.derefs, ∃ n < b.links.size, h = some n
  indices : ∀ h ∈ op.derefs, ∀ l ∈ chain b.links h, ∀ o, l.kind = .array o → b.Ready first id o
  load : ∀ h dest n, op = .load h dest n → Loads (derefType b.links h) dest n

/-- The instructions of the body are those from `first` on and before `last`, in this order, and its
values are numbered on from `serials`. Its chains start at the given variables. -/
structure LoadedBody (first last serials : Nat) (vars : List Variable) (b : Body) : Prop where
  first_le : first ≤ last
  last_le : last ≤ b.instrs.size
  placed : b.placedInstrs = List.range' first (last - first)
  home : ∀ k ∈ b.layout, ∀ id ∈ b.held k, b.instrs[id]?.bind (·.block) = some k
  built : Built b.links
  castless : ∀ l ∈ b.links, l.kind ≠ .cast
  roots : ∀ l ∈ b.links, ∀ v, l.kind = .var v → v ∈ vars
  indices : ∀ l ∈ b.links, ∀ o, l.kind = .array o → b.Ready first last o
  grounded : ∀ id, first ≤ id → id < last → ∀ op ∈ b.op? id, op.Grounded b first id
  results : ∀ id, first ≤ id → id < last → ∀ v, b.defined? id = some v →
    v.serial = serials + v.index ∧ v.index < b.valueCount ∧ b.definer? v = some id
  serials_le : serials + b.valueCount ≤ b.definers.size
  defined : ∀ n < b.valueCount, ∃ id v, first ≤ id ∧ id < last ∧ b.defined? id = some v ∧ v.index = n

def Body.Ordered (b : Body) : Prop :=
  ∀ (i : Nat) (k : BlockId), b.layout[i]? = some k → ∃ blk, b.blocks[k]? = some blk ∧
    blk.index = i ∧ blk.succs.length ≤ 2 ∧ ∀ j ∈ blk.succs, j ∈ b.layout

structure Assembled (base : Store) (vars : List Variable) (b : Body) : Prop
    extends LoadedBody base.instrs.size b.instrs.size base.definers.size vars b where
  definers : b.definers.size = base.definers.size + b.valueCount
  recorded : ∀ id : Nat, some id ∈ b.definers → id < b.instrs.size

theorem Body.lt_of_defined? {b : Body} {id : Nat} {v : Value} (h : b.defined? id = some v) :
    id < b.instrs.size := by
  obtain ⟨op, hop, -⟩ := Option.bind_eq_some_iff.mp h
  obtain ⟨i, hi, -⟩ := Option.map_eq_some_iff.mp hop
  exact (Array.getElem?_eq_some_iff.mp hi).1

section

variable {b b' : Body} {first id id' : Nat}

theorem Grows.defined? (hg : Grows b b') (hid : id < b.instrs.size) :
    b'.defined? id = b.defined? id := by
  rw [Body.defined?, Body.defined?, hg.op? hid]

theorem Body.Defines.grows {v : Value} (h : b.Defines first id v) (hg : Grows b b')
    (hle : id ≤ id') : b'.Defines first id' v := by
  obtain ⟨d, hfirst, hlt, hd⟩ := h
  refine ⟨d, hfirst, Nat.lt_of_lt_of_le hlt hle, ?_⟩
  rw [hg.defined? (Body.lt_of_defined? hd), hd]

theorem Body.Ready.grows {o : Operand} (h : b.Ready first id o) (hg : Grows b b')
    (hle : id ≤ id') : b'.Ready first id' o := by
  obtain ⟨v, rfl, hv⟩ := h
  exact ⟨v, rfl, hv.grows hg hle⟩

theorem Grows.derefType (hg : Grows b b') {n : Nat} (hn : n < b.links.size) :
    derefType b'.links (some n) = derefType b.links (some n) := by
  simp [ShaderIR.derefType, hg.links n hn]

theorem Op.Grounded.grows {op : Op} (h : op.Grounded b first id) (hg : Grows b b')
    (hd : Descending b.links) : op.Grounded b' first id where
  srcs o ho := (h.srcs o ho).grows hg (Nat.le_refl id)
  slotless := h.slotless
  derefs x hx := by
    obtain ⟨n, hn, rfl⟩ := h.derefs x hx
    exact ⟨n, Nat.lt_of_lt_of_le hn hg.links_le, rfl⟩
  indices x hx l hl o ho := by
    obtain ⟨n, hn, rfl⟩ := h.derefs x hx
    rw [chain_extend hd hn hg.links_le hg.links] at hl
    exact (h.indices (some n) hx l hl o ho).grows hg (Nat.le_refl id)
  load x dest n hop := by
    obtain ⟨m, hm, rfl⟩ := h.derefs x (by simp [hop, Op.derefs])
    rw [hg.derefType hm]
    exact h.load (some m) dest n hop

theorem Grows.blocks_size (hg : Grows b b') : b'.blocks.size = b.blocks.size := by
  have hiff : ∀ k, b'.blocks.size ≤ k ↔ b.blocks.size ≤ k := by
    intro k
    have hhead := congrArg (· = none) (hg.head k)
    simpa [Body.head?] using hhead
  exact Nat.le_antisymm ((hiff _).mpr (Nat.le_refl _)) ((hiff _).mp (Nat.le_refl _))

theorem Op.Grounded.uses {op : Op} (h : op.Grounded b first id) {v : Value} (hv : v ∈ b.uses op) :
    b.Defines first id v := by
  have hready : ∀ o, b.Ready first id o → v ∈ o.uses b.slot → b.Defines first id v := by
    rintro o ⟨w, rfl, hw⟩ hmem
    rw [List.mem_singleton.mp hmem]
    exact hw
  simp only [Body.uses, Op.uses, h.slotless, Option.map_none, Option.getD_none, List.append_nil,
    List.mem_append, List.mem_flatMap] at hv
  rcases hv with ⟨o, ho, hv⟩ | ⟨x, hx, l, hl, hv⟩
  · exact hready o (h.srcs o ho) hv
  · cases hk : l.kind with
    | array o =>
      rw [hk] at hv
      exact hready o (h.indices x hx l hl o hk) hv
    | _ => simp [hk, LinkKind.uses] at hv

theorem Body.Ordered.grows (h : b.Ordered) (hg : Grows b b') : b'.Ordered := by
  intro i k hk
  rw [hg.layout] at hk
  obtain ⟨blk, hblk, hindex, hlength, hsuccs⟩ := h i k hk
  have hhead := hg.head k
  rw [Body.head?, Body.head?, hblk] at hhead
  obtain ⟨blk', hblk', heq⟩ := Option.map_eq_some_iff.mp hhead
  have hindex' : blk'.index = blk.index := (Block.mk.inj heq).1
  have hsuccs' : blk'.succs = blk.succs := (Block.mk.inj heq).2.2.2.1
  refine ⟨blk', hblk', hindex'.trans hindex, ?_⟩
  rw [hsuccs', hg.layout]
  exact ⟨hlength, hsuccs⟩

end

section

variable {b b' : Body} {first last serials : Nat} {vars : List Variable}

theorem LoadedBody.mem_placedInstrs (h : LoadedBody first last serials vars b) {id : Nat} :
    id ∈ b.placedInstrs ↔ first ≤ id ∧ id < last := by
  have hle := h.first_le
  rw [h.placed, List.mem_range'_1]
  omega

theorem Undisturbed.defined? (hu : Undisturbed b b') {id : InstrId} (hid : id ∈ b.placedInstrs) :
    b'.defined? id = b.defined? id := by
  rw [Body.defined?, Body.defined?, hu.op? hid]

theorem Undisturbed.ready (hu : Undisturbed b b') (hb : LoadedBody first last serials vars b)
    {id : Nat} (hid : id ≤ last) {o : Operand} (h : b.Ready first id o) : b'.Ready first id o := by
  obtain ⟨v, rfl, d, hfirst, hlt, hd⟩ := h
  refine ⟨v, rfl, d, hfirst, hlt, ?_⟩
  rw [hu.defined? (hb.mem_placedInstrs.mpr ⟨hfirst, by omega⟩), hd]

theorem LoadedBody.undisturbed (h : LoadedBody first last serials vars b) (hu : Undisturbed b b') :
    LoadedBody first last serials vars b' where
  first_le := h.first_le
  last_le := Nat.le_trans h.last_le hu.instrs_le
  placed := hu.placedInstrs.trans h.placed
  home k hk id hid := by
    rw [hu.layout] at hk
    rw [hu.held hk] at hid
    rw [hu.instrs id (Body.mem_placedInstrs.mpr ⟨k, hk, hid⟩)]
    exact h.home k hk id hid
  built := hu.links ▸ h.built
  castless := hu.links ▸ h.castless
  roots := hu.links ▸ h.roots
  indices l hl o ho := hu.ready h (Nat.le_refl _) (h.indices l (hu.links ▸ hl) o ho)
  grounded id hid hlt op hop := by
    rw [hu.op? (h.mem_placedInstrs.mpr ⟨hid, hlt⟩)] at hop
    have hg := h.grounded id hid hlt op hop
    refine ⟨fun o ho => hu.ready h (Nat.le_of_lt hlt) (hg.srcs o ho), hg.slotless, ?_, ?_, ?_⟩
    · rw [hu.links]
      exact hg.derefs
    · intro x hx l hl o ho
      rw [hu.links] at hl
      exact hu.ready h (Nat.le_of_lt hlt) (hg.indices x hx l hl o ho)
    · rw [hu.links]
      exact hg.load
  results id hid hlt v hv := by
    rw [hu.defined? (h.mem_placedInstrs.mpr ⟨hid, hlt⟩)] at hv
    obtain ⟨hserial, hindex, hdef⟩ := h.results id hid hlt v hv
    have hle := h.serials_le
    rw [hu.valueCount, hu.definer? (by omega)]
    exact ⟨hserial, hindex, hdef⟩
  serials_le := by
    rw [hu.valueCount]
    exact Nat.le_trans h.serials_le hu.definers_le
  defined n hn := by
    obtain ⟨id, v, hid, hlt, hv, hindex⟩ := h.defined n (hu.valueCount ▸ hn)
    refine ⟨id, v, hid, hlt, ?_, hindex⟩
    rw [hu.defined? (h.mem_placedInstrs.mpr ⟨hid, hlt⟩), hv]

theorem Body.Ordered.undisturbed (h : b.Ordered) (hu : Undisturbed b b') : b'.Ordered := by
  intro i k hk
  rw [hu.layout] at hk ⊢
  rw [hu.blocks k (Array.mem_of_getElem? hk)]
  exact h i k hk

end

theorem Assembled.addLink {base : Store} {vars : List Variable} {b : Body} {l : Link}
    (hb : Assembled base vars b) (hbuilt : Built (b.links.push l)) (hcast : l.kind ≠ .cast)
    (hroot : ∀ v, l.kind = .var v → v ∈ vars)
    (hindex : ∀ o, l.kind = .array o → b.Ready base.instrs.size b.instrs.size o) :
    Assembled base vars (b.addLink l) := by
  have hg := Grows.addLink b l
  have hmem : ∀ {x}, x ∈ (b.addLink l).links → x ∈ b.links ∨ x = l := by
    intro x hx
    simpa [Body.addLink] using hx
  refine { hb with built := hbuilt, castless := ?_, roots := ?_, indices := ?_, grounded := ?_ }
  · intro x hx
    rcases hmem hx with hx | rfl
    · exact hb.castless x hx
    · exact hcast
  · intro x hx
    rcases hmem hx with hx | rfl
    · exact hb.roots x hx
    · exact hroot
  · intro x hx o ho
    rcases hmem hx with hx | rfl
    · exact (hb.indices x hx o ho).grows hg (Nat.le_refl _)
    · exact (hindex o ho).grows hg (Nat.le_refl _)
  · intro id hid hlt op hop
    exact (hb.grounded id hid hlt op hop).grows hg hb.built.descending

theorem insertBefore_end (id : InstrId) (xs : List InstrId) :
    Body.insertBefore id none xs = xs ++ [id] := by
  induction xs with
  | nil => rfl
  | cons x xs ih => simp [Body.insertBefore, ih]

inductive Prepared (b : Body) (op : Op) : Body → Prop
  | effect (h : op.result? = none) : Prepared b op b
  | define (n w : Int) (h : op.result? = some (b.fresh n w)) : Prepared b op b.addValue

section

variable {b c : Body} {k : BlockId} {op : Op}

theorem Prepared.grows (hc : Prepared b op c) (k : BlockId) : Grows b (c.putAt k none op) := by
  cases hc with
  | effect h => exact (Grows.refl b).putAt k none (by simp [h])
  | define n w h =>
    apply (Grows.addValue b).putAt k none
    intro v hv
    rw [h] at hv
    rw [← Option.some.inj hv]
    exact Nat.le_refl _

theorem Prepared.tables (hc : Prepared b op c) :
    c.instrs = b.instrs ∧ c.blocks = b.blocks ∧ c.layout = b.layout ∧ c.links = b.links := by
  cases hc <;> exact ⟨rfl, rfl, rfl, rfl⟩

theorem Prepared.instrs (hc : Prepared b op c) :
    (c.putAt k none op).instrs = b.instrs.push ⟨op, some k⟩ := by
  rw [putAt_eq, hc.tables.1]

theorem Prepared.op?_last (hc : Prepared b op c) :
    (c.putAt k none op).op? b.instrs.size = some op := by
  simp [Body.op?, hc.instrs]

theorem Prepared.layout (hc : Prepared b op c) : (c.putAt k none op).layout = b.layout := by
  rw [putAt_eq]
  exact hc.tables.2.2.1

theorem Prepared.held (hc : Prepared b op c) (hk : k < b.blocks.size) (j : BlockId) :
    (c.putAt k none op).held j = if j = k then b.held k ++ [b.instrs.size] else b.held j := by
  obtain ⟨hi, hb, -, -⟩ := hc.tables
  rw [held_putAt, hi, hb]
  have hheld : ∀ j, c.held j = b.held j := fun j => by rw [Body.held, Body.held, hb]
  rw [hheld]
  congr 1
  rw [Body.held, Array.getElem?_eq_getElem hk]
  simp [insertBefore_end]

theorem Prepared.placed (hc : Prepared b op c) (ho : b.Open k) :
    (c.putAt k none op).placedInstrs = b.placedInstrs ++ [b.instrs.size] := by
  obtain ⟨pre, post, hlayout⟩ := List.append_of_mem (Array.mem_toList_iff.mpr ho.mem)
  have hsorted := ho.sorted
  rw [hlayout, List.pairwise_append] at hsorted
  have hbehind : ∀ j ∈ post, j ≠ k ∧ b.held j = [] := by
    intro j hj
    have hlt : k < j := List.rel_of_pairwise_cons hsorted.2.1 hj
    refine ⟨Nat.ne_of_gt hlt, ho.behind j ?_ hlt⟩
    rw [← Array.mem_toList_iff, hlayout]
    exact List.mem_append_right _ (.tail _ hj)
  have hpre : pre.flatMap (c.putAt k none op).held = pre.flatMap b.held := by
    apply List.flatMap_congr
    intro j hj
    rw [hc.held ho.lt_size, if_neg (Nat.ne_of_lt (hsorted.2.2 j hj k (.head _)))]
  have hpost : post.flatMap b.held = [] := by
    apply List.flatMap_eq_nil_iff.mpr
    intro j hj
    exact (hbehind j hj).2
  have hpost' : post.flatMap (c.putAt k none op).held = [] := by
    apply List.flatMap_eq_nil_iff.mpr
    intro j hj
    rw [hc.held ho.lt_size, if_neg (hbehind j hj).1, (hbehind j hj).2]
  rw [Body.placedInstrs_eq, Body.placedInstrs_eq, hc.layout, hlayout, List.flatMap_append,
    List.flatMap_append, List.flatMap_cons, List.flatMap_cons, hpre, hpost, hpost',
    hc.held ho.lt_size, if_pos rfl]
  simp

theorem Prepared.opened (hc : Prepared b op c) (ho : b.Open k) : (c.putAt k none op).Open k := by
  refine ⟨hc.layout ▸ ho.sorted, hc.layout ▸ ho.mem, ?_, ?_⟩
  · rw [putAt_eq]
    simpa [hc.tables.2.1] using ho.lt_size
  · intro j hj hlt
    rw [hc.layout] at hj
    rw [hc.held ho.lt_size, if_neg (Nat.ne_of_gt hlt), ho.behind j hj hlt]

theorem Prepared.blocks (hc : Prepared b op c) {j : BlockId} (hj : j ≠ k) :
    (c.putAt k none op).blocks[j]? = b.blocks[j]? := by
  simp [putAt_eq, hc.tables.2.1, Array.getElem?_modify, Ne.symm hj]

theorem Prepared.defined?_cases (hc : Prepared b op c) {id : Nat} {v : Value}
    (h : (c.putAt k none op).defined? id = some v) :
    id < b.instrs.size ∧ b.defined? id = some v ∨ id = b.instrs.size ∧ op.result? = some v := by
  have hlt := Body.lt_of_defined? h
  rw [hc.instrs, Array.size_push] at hlt
  by_cases hid : id = b.instrs.size
  · rw [hid, Body.defined?, hc.op?_last] at h
    exact .inr ⟨hid, h⟩
  · have hold : id < b.instrs.size := by omega
    rw [(hc.grows k).defined? hold] at h
    exact .inl ⟨hold, h⟩

theorem Prepared.recorded (hc : Prepared b op c) :
    ∃ n, (c.putAt k none op).valueCount = b.valueCount + n ∧
      (c.putAt k none op).definers.size = b.definers.size + n ∧
      (∀ m, b.valueCount ≤ m → m < b.valueCount + n → ∃ v, op.result? = some v ∧ v.index = m) ∧
      (∀ v, op.result? = some v → v.serial = b.definers.size ∧ v.index = b.valueCount ∧
        (c.putAt k none op).valueCount = b.valueCount + 1 ∧
        (c.putAt k none op).definer? v = some b.instrs.size) ∧
      ∀ id, some id ∈ (c.putAt k none op).definers → some id ∈ b.definers ∨ id = b.instrs.size := by
  cases hc with
  | effect h =>
    rw [putAt_eq]
    refine ⟨0, rfl, by simp [h], by omega, by simp [h], fun id hid => ?_⟩
    rw [h] at hid
    exact .inl hid
  | define n w h =>
    rw [putAt_eq]
    refine ⟨1, rfl, by simp [h, Body.addValue], ?_, ?_, ?_⟩
    · intro m hle hlt
      exact ⟨b.fresh n w, h, by simp only [Body.fresh]; omega⟩
    · intro v hv
      obtain rfl : b.fresh n w = v := by simpa [h] using hv
      refine ⟨rfl, rfl, rfl, ?_⟩
      simp only [Body.definer?, h, Body.addValue, Body.fresh, Array.getElem?_modify]
      simp
    · intro id hid
      obtain ⟨m, hm⟩ := Array.mem_iff_getElem?.mp hid
      simp only [h, Body.addValue, Body.fresh, Array.getElem?_modify, Array.getElem?_push] at hm
      by_cases hmd : b.definers.size = m
      · subst hmd
        exact .inr (by simpa using hm.symm)
      · simp only [if_neg hmd, if_neg (Ne.symm hmd)] at hm
        exact .inl (Array.mem_of_getElem? hm)

end

/-- Every instruction of the function, the new one included, names the block that holds it. -/
theorem Assembled.put_home {base : Store} {vars : List Variable} {b c : Body} {k j : BlockId}
    {op : Op} (hb : Assembled base vars b) (ho : b.Open k) (hc : Prepared b op c) (hj : j ∈ b.layout)
    {id : Nat} (hid : id ∈ (c.putAt k none op).held j) :
    (c.putAt k none op).instrs[id]?.bind (·.block) = some j := by
  -- the function places exactly the instructions before the new one
  have hplaced : ∀ id : Nat, id ∈ b.held j → id < b.instrs.size := by
    intro id hid
    have hmem : id ∈ b.placedInstrs := Body.mem_placedInstrs.mpr ⟨j, hj, hid⟩
    rw [hb.placed, List.mem_range'_1] at hmem
    have hle := hb.first_le
    omega
  rw [hc.held ho.lt_size] at hid
  by_cases hlast : id = b.instrs.size
  · have hjk : j = k := by
      by_contra hne
      rw [if_neg hne] at hid
      have hlt := hplaced id hid
      omega
    simp [hc.instrs, hlast, hjk]
  · have hold : id ∈ b.held j := by
      by_cases hjk : j = k
      · rw [if_pos hjk, ← hjk] at hid
        simpa [hlast] using hid
      · rwa [if_neg hjk] at hid
    rw [(hc.grows k).instrs id (hplaced id hold)]
    exact hb.home j hj id hold

/-- An operation that reads what is ready comes to the end of the block that is filled. -/
theorem Assembled.put {base : Store} {vars : List Variable} {b c : Body} {k : BlockId} {op : Op}
    (hb : Assembled base vars b) (ho : b.Open k) (hc : Prepared b op c)
    (hop : op.Grounded b base.instrs.size b.instrs.size) :
    Assembled base vars (c.putAt k none op) := by
  have hg := hc.grows k
  have hle := hb.first_le
  have hsize : (c.putAt k none op).instrs.size = b.instrs.size + 1 := by simp [hc.instrs]
  have hlinks : (c.putAt k none op).links = b.links := by
    rw [putAt_eq]
    exact hc.tables.2.2.2
  have hdefiners := hb.definers
  obtain ⟨n, hcount, hdefs, hnew, hresult, hrec⟩ := hc.recorded (k := k)
  refine ⟨⟨by omega, Nat.le_refl _, ?_, ?_, by rw [hlinks]; exact hb.built,
    by rw [hlinks]; exact hb.castless, by rw [hlinks]; exact hb.roots, ?_, ?_, ?_, by omega, ?_⟩,
    by omega, ?_⟩
  · have hcounted : b.instrs.size + 1 - base.instrs.size =
        b.instrs.size - base.instrs.size + 1 := by omega
    have hlast : base.instrs.size + 1 * (b.instrs.size - base.instrs.size) = b.instrs.size := by omega
    rw [hc.placed ho, hb.placed, hsize, hcounted, List.range'_concat, hlast]
  · intro j hj id hid
    rw [hc.layout] at hj
    exact hb.put_home ho hc hj hid
  · intro l hl o hkind
    rw [hlinks] at hl
    exact (hb.indices l hl o hkind).grows hg (by omega)
  · intro id hid hlt o hoid
    by_cases hlast : id = b.instrs.size
    · rw [hlast, hc.op?_last] at hoid
      rw [hlast, ← Option.some.inj hoid]
      exact hop.grows hg hb.built.descending
    · have hold : id < b.instrs.size := by omega
      rw [hg.op? hold] at hoid
      exact (hb.grounded id hid hold o hoid).grows hg hb.built.descending
  · intro id hid _ v hv
    rcases hc.defined?_cases hv with ⟨hlt, hv⟩ | ⟨rfl, hres⟩
    · obtain ⟨hserial, hindex, hdef⟩ := hb.results id hid hlt v hv
      exact ⟨hserial, by omega, by rw [hg.definer? (by omega), hdef]⟩
    · obtain ⟨hserial, hindex, hone, hdef⟩ := hresult v hres
      exact ⟨by omega, by omega, hdef⟩
  · intro m hm
    by_cases hold : m < b.valueCount
    · obtain ⟨id, v, hid, hlt, hv, hindex⟩ := hb.defined m hold
      exact ⟨id, v, hid, by omega, by rw [hg.defined? hlt, hv], hindex⟩
    · obtain ⟨v, hv, hindex⟩ := hnew m (by omega) (by omega)
      refine ⟨b.instrs.size, v, hle, by omega, ?_, hindex⟩
      rw [Body.defined?, hc.op?_last]
      exact hv
  · intro id hid
    rcases hrec id hid with hid | rfl
    · have hlt := hb.recorded id hid
      omega
    · omega

end ShaderIR
