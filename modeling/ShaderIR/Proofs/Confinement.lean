import ShaderIR.Proofs.Action

/-!
# What a pass leaves alone

All functions of a shader share their tables. A pass over one function appends to the tables and
changes the blocks of its function and the instructions that stand in them; it keeps the names and
the edges of the blocks, the variables and the registers there were. Whatever else the tables hold
stays as it is, so the other functions do not notice.
-/

set_option autoImplicit false

namespace ShaderIR

def Body.label? (b : Body) (k : BlockId) : Option (String × List BlockId) :=
  b.blocks[k]?.map fun blk => (blk.name, blk.succs)

/-- The later body differs from the earlier one only in the instructions that its blocks hold, in
what analyses found, and in what was added to the tables. -/
structure Confined (b b' : Body) : Prop where
  layout : b'.layout = b.layout
  locals : b'.locals = b.locals
  label : ∀ k, b'.label? k = b.label? k
  blocks : ∀ k, k ∉ b.layout → b'.blocks[k]? = b.blocks[k]?
  instrs : ∀ id < b.instrs.size, id ∉ b.placedInstrs → b'.instrs[id]? = b.instrs[id]?
  instrs_le : b.instrs.size ≤ b'.instrs.size
  definers : ∀ n < b.definers.size, b'.definers[n]? = b.definers[n]?
  definers_le : b.definers.size ≤ b'.definers.size
  registerCount_le : b.registerCount ≤ b'.registerCount
  registers : b.registers.toList <+: b'.registers.toList
  registers_size : b.registerCount + b'.registers.size = b'.registerCount + b.registers.size
  placed : ∀ id ∈ b'.placedInstrs, id ∈ b.placedInstrs ∨ b.instrs.size ≤ id

namespace Confined

theorem refl (b : Body) : Confined b b where
  layout := rfl
  locals := rfl
  label _ := rfl
  blocks _ _ := rfl
  instrs _ _ _ := rfl
  instrs_le := Nat.le_refl _
  definers _ _ := rfl
  definers_le := Nat.le_refl _
  registerCount_le := Nat.le_refl _
  registers := List.prefix_refl _
  registers_size := rfl
  placed _ hid := .inl hid

theorem trans {b b' b'' : Body} (h : Confined b b') (h' : Confined b' b'') : Confined b b'' where
  layout := h'.layout.trans h.layout
  locals := h'.locals.trans h.locals
  label k := (h'.label k).trans (h.label k)
  blocks k hk := (h'.blocks k (h.layout ▸ hk)).trans (h.blocks k hk)
  instrs id hid hn := by
    have hn' : id ∉ b'.placedInstrs := by
      intro hmem
      rcases h.placed id hmem with hmem | hge
      · exact hn hmem
      · omega
    rw [h'.instrs id (Nat.lt_of_lt_of_le hid h.instrs_le) hn', h.instrs id hid hn]
  instrs_le := Nat.le_trans h.instrs_le h'.instrs_le
  definers n hn := (h'.definers n (Nat.lt_of_lt_of_le hn h.definers_le)).trans (h.definers n hn)
  definers_le := Nat.le_trans h.definers_le h'.definers_le
  registerCount_le := Nat.le_trans h.registerCount_le h'.registerCount_le
  registers := h.registers.trans h'.registers
  registers_size := by
    have h1 := h.registers_size
    have h2 := h'.registers_size
    omega
  placed id hid := by
    rcases h'.placed id hid with hid | hge
    · exact h.placed id hid
    · exact .inr (Nat.le_trans h.instrs_le hge)

end Confined

structure Undisturbed (b b' : Body) : Prop where
  frame : b'.toFrame = b.toFrame
  blocks : ∀ k ∈ b.layout, b'.blocks[k]? = b.blocks[k]?
  instrs : ∀ id ∈ b.placedInstrs, b'.instrs[id]? = b.instrs[id]?
  instrs_le : b.instrs.size ≤ b'.instrs.size
  definers : ∀ n < b.definers.size, b'.definers[n]? = b.definers[n]?
  definers_le : b.definers.size ≤ b'.definers.size
  registerCount_le : b.registerCount ≤ b'.registerCount

namespace Undisturbed

variable {b b' b'' : Body}

theorem layout (h : Undisturbed b b') : b'.layout = b.layout := congrArg Frame.layout h.frame

theorem links (h : Undisturbed b b') : b'.links = b.links := congrArg Frame.links h.frame

theorem locals (h : Undisturbed b b') : b'.locals = b.locals := congrArg Frame.locals h.frame

theorem valueCount (h : Undisturbed b b') : b'.valueCount = b.valueCount :=
  congrArg Frame.valueCount h.frame

theorem held (h : Undisturbed b b') {k : BlockId} (hk : k ∈ b.layout) : b'.held k = b.held k := by
  rw [Body.held, Body.held, h.blocks k hk]

theorem placedInstrs (h : Undisturbed b b') : b'.placedInstrs = b.placedInstrs := by
  rw [Body.placedInstrs_eq, Body.placedInstrs_eq, h.layout]
  exact List.flatMap_congr fun k hk => h.held (Array.mem_toList_iff.mp hk)

theorem op? (h : Undisturbed b b') {id : InstrId} (hid : id ∈ b.placedInstrs) :
    b'.op? id = b.op? id := by
  rw [Body.op?, Body.op?, h.instrs id hid]

theorem definer? (h : Undisturbed b b') {v : Value} (hv : v.serial < b.definers.size) :
    b'.definer? v = b.definer? v := by
  rw [Body.definer?, Body.definer?, h.definers v.serial hv]

end Undisturbed

structure Apart (b c : Body) : Prop where
  layout : ∀ k ∈ b.layout, k ∉ c.layout
  placed : ∀ id ∈ b.placedInstrs, id ∉ c.placedInstrs

theorem Apart.symm {b c : Body} (h : Apart b c) : Apart c b :=
  ⟨fun k hk hb => h.layout k hb hk, fun id hid hb => h.placed id hb hid⟩

/-- What stands beside the instructions of a block tells its name and its edges. -/
theorem Body.label_of_head {b b' : Body} {k : BlockId} (h : b'.head? k = b.head? k) :
    b'.label? k = b.label? k := by
  have hlabel := congrArg (Option.map fun blk : Block => (blk.name, blk.succs)) h
  simp only [head?, Option.map_map, Function.comp_def] at hlabel
  exact hlabel

theorem Body.index_of_head {b b' : Body} {k : BlockId} (h : b'.head? k = b.head? k) :
    b'.blockIndex k = b.blockIndex k := by
  have hindex := congrArg (Option.map Block.index) h
  simp only [head?, Option.map_map, Function.comp_def] at hindex
  rw [blockIndex, blockIndex, hindex]

end ShaderIR
