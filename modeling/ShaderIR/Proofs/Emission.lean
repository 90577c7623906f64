import ShaderIR.Builder
import ShaderIR.Proofs.Action
import ShaderIR.Proofs.Sequencing

/-!
# What emitting instructions changes

The builder works at a cursor in front of an instruction, the mark. A run of it appends to the
tables and slips the new instructions in before the mark; everything that was there stays. The
relation `Emits` says this for a list of emitted operations. It holds of each builder function and
composes, so a pass is described by the operations it emits.
-/

set_option autoImplicit false

namespace ShaderIR

structure Grows (b b' : Body) : Prop where
  instrs : ∀ id < b.instrs.size, b'.instrs[id]? = b.instrs[id]?
  instrs_le : b.instrs.size ≤ b'.instrs.size
  slots : ∀ s < b.slots.size, b'.slots[s]? = b.slots[s]?
  slots_le : b.slots.size ≤ b'.slots.size
  links : ∀ h < b.links.size, b'.links[h]? = b.links[h]?
  links_le : b.links.size ≤ b'.links.size
  definers : ∀ n < b.definers.size, b'.definers[n]? = b.definers[n]?
  definers_le : b.definers.size ≤ b'.definers.size
  layout : b'.layout = b.layout
  locals : b'.locals = b.locals
  valid : b'.valid = b.valid
  head : ∀ k, b'.head? k = b.head? k
  valueCount_le : b.valueCount ≤ b'.valueCount
  registerCount_le : b.registerCount ≤ b'.registerCount
  registers : b.registers.toList <+: b'.registers.toList
  registers_size : b.registerCount + b'.registers.size = b'.registerCount + b.registers.size

namespace Grows

theorem refl (b : Body) : Grows b b where
  instrs _ _ := rfl
  instrs_le := Nat.le_refl _
  slots _ _ := rfl
  slots_le := Nat.le_refl _
  links _ _ := rfl
  links_le := Nat.le_refl _
  definers _ _ := rfl
  definers_le := Nat.le_refl _
  layout := rfl
  locals := rfl
  valid := rfl
  head _ := rfl
  valueCount_le := Nat.le_refl _
  registerCount_le := Nat.le_refl _
  registers := List.prefix_refl _
  registers_size := rfl

theorem trans {b b' b'' : Body} (h : Grows b b') (h' : Grows b' b'') : Grows b b'' where
  instrs id hid := (h'.instrs id (Nat.lt_of_lt_of_le hid h.instrs_le)).trans (h.instrs id hid)
  instrs_le := Nat.le_trans h.instrs_le h'.instrs_le
  slots s hs := (h'.slots s (Nat.lt_of_lt_of_le hs h.slots_le)).trans (h.slots s hs)
  slots_le := Nat.le_trans h.slots_le h'.slots_le
  links l hl := (h'.links l (Nat.lt_of_lt_of_le hl h.links_le)).trans (h.links l hl)
  links_le := Nat.le_trans h.links_le h'.links_le
  definers n hn := (h'.definers n (Nat.lt_of_lt_of_le hn h.definers_le)).trans (h.definers n hn)
  definers_le := Nat.le_trans h.definers_le h'.definers_le
  layout := h'.layout.trans h.layout
  locals := h'.locals.trans h.locals
  valid := h'.valid.trans h.valid
  head k := (h'.head k).trans (h.head k)
  valueCount_le := Nat.le_trans h.valueCount_le h'.valueCount_le
  registerCount_le := Nat.le_trans h.registerCount_le h'.registerCount_le
  registers := h.registers.trans h'.registers
  registers_size := by
    have h1 := h.registers_size
    have h2 := h'.registers_size
    omega

theorem slot {b b' : Body} (h : Grows b b') {s : SlotId} (hs : s < b.slots.size) :
    b'.slot s = b.slot s := by
  simp [Body.slot, h.slots s hs]

theorem definer? {b b' : Body} (h : Grows b b') {v : Value} (hv : v.serial < b.definers.size) :
    b'.definer? v = b.definer? v := by
  simp [Body.definer?, h.definers v.serial hv]

theorem op? {b b' : Body} (h : Grows b b') {id : InstrId} (hid : id < b.instrs.size) :
    b'.op? id = b.op? id := by
  simp [Body.op?, h.instrs id hid]

end Grows

/-- The later body has the operations in front of the mark in block `k`, numbered on from the
instructions there were, and grows the tables otherwise. Each value that they define is new and has
its instruction recorded. -/
structure Emits (k : BlockId) (mark : InstrId) (ops : List Op) (b b' : Body) : Prop
    extends Grows b b' where
  mark_lt : mark < b.instrs.size
  size : b'.instrs.size = b.instrs.size + ops.length
  put : ∀ i op, ops[i]? = some op → b'.instrs[b.instrs.size + i]? = some ⟨op, some k⟩
  held : ∀ xs ys, b.held k = xs ++ mark :: ys → mark ∉ xs →
    b'.held k = xs ++ List.range' b.instrs.size ops.length ++ mark :: ys
  held_other : ∀ j, j ≠ k → b'.held j = b.held j
  serials : (ops.filterMap Op.result?).map (·.serial) =
    List.range' b.definers.size (b'.definers.size - b.definers.size)
  counted : ∀ op ∈ ops, ∀ v, op.result? = some v → v.index < b'.valueCount
  defined : ∀ i op, ops[i]? = some op → ∀ v, op.result? = some v →
    b'.definer? v = some (b.instrs.size + i)

namespace Emits

variable {k : BlockId} {mark : InstrId} {ops ops' : List Op} {b b' b'' : Body}

theorem nil (hm : mark < b.instrs.size) (hg : Grows b b') (hi : b'.instrs.size = b.instrs.size)
    (hh : ∀ j, b'.held j = b.held j) (hd : b'.definers.size = b.definers.size) :
    Emits k mark [] b b' where
  toGrows := hg
  mark_lt := hm
  size := by simp [hi]
  put i op h := by simp at h
  held xs ys h _ := by simp [hh, h]
  held_other j _ := hh j
  serials := by simp [hd]
  counted op h := by simp at h
  defined i op h := by simp at h

theorem refl (hm : mark < b.instrs.size) : Emits k mark [] b b :=
  nil hm (Grows.refl b) rfl (fun _ => rfl) rfl

/-- Every value that is defined by what was emitted is new. -/
theorem result_ge (h : Emits k mark ops b b') {op : Op} (ho : op ∈ ops) {v : Value}
    (hv : op.result? = some v) : b.definers.size ≤ v.serial ∧ v.serial < b'.definers.size := by
  have hmem : v.serial ∈ (ops.filterMap Op.result?).map (·.serial) :=
    List.mem_map.mpr ⟨v, List.mem_filterMap.mpr ⟨op, ho, hv⟩, rfl⟩
  rw [h.serials, List.mem_range'_1] at hmem
  have := h.definers_le
  omega

theorem trans (h : Emits k mark ops b b') (h' : Emits k mark ops' b' b'') :
    Emits k mark (ops ++ ops') b b'' where
  toGrows := h.toGrows.trans h'.toGrows
  mark_lt := h.mark_lt
  size := by simp [h'.size, h.size, Nat.add_assoc]
  put i op hi := by
    rw [List.getElem?_append] at hi
    split at hi
    · rename_i hlt
      rw [h'.instrs _ (by rw [h.size]; omega)]
      exact h.put i op hi
    · rename_i hge
      have := h'.put _ op hi
      rwa [h.size, show b.instrs.size + ops.length + (i - ops.length) = b.instrs.size + i by omega]
        at this
  held xs ys hx hm := by
    have h1 := h.held xs ys hx hm
    have hm' : mark ∉ xs ++ List.range' b.instrs.size ops.length := by
      simp only [List.mem_append, List.mem_range'_1, not_or, not_and]
      exact ⟨hm, fun hge => absurd h.mark_lt (Nat.not_lt.mpr hge)⟩
    rw [h'.held _ _ h1 hm', h.size, List.length_append, List.append_assoc xs, List.range'_append_1]
  held_other j hj := (h'.held_other j hj).trans (h.held_other j hj)
  serials := by
    have h1 := h.definers_le
    have h2 := h'.definers_le
    rw [List.filterMap_append, List.map_append, h.serials, h'.serials,
      show b'.definers.size = b.definers.size + (b'.definers.size - b.definers.size) by omega,
      Nat.add_sub_cancel_left, List.range'_append_1]
    congr 1
    omega
  counted op ho v hv := by
    rcases List.mem_append.mp ho with ho | ho
    · exact Nat.lt_of_lt_of_le (h.counted op ho v hv) h'.valueCount_le
    · exact h'.counted op ho v hv
  defined i op hi v hv := by
    rw [List.getElem?_append] at hi
    split at hi
    · have hd := h.result_ge (List.mem_of_getElem? hi) hv
      rw [h'.toGrows.definer? hd.2]
      exact h.defined i op hi v hv
    · rename_i hge
      have := h'.defined _ op hi v hv
      rwa [h.size, show b.instrs.size + ops.length + (i - ops.length) = b.instrs.size + i by omega]
        at this

end Emits

def Body.putAt (b : Body) (k : BlockId) (mark : Option InstrId) (op : Op) : Body :=
  ((⟨some k, mark⟩ : Cursor).insert op b).2

theorem insert_run (b : Body) (k : BlockId) (mark : InstrId) (op : Op) :
    (⟨some k, some mark⟩ : Cursor).insert op b = (b.instrs.size, b.putAt k (some mark) op) := rfl

theorem modify_push_last (xs : Array Instr) (x : Instr) (f : Instr → Instr) :
    (xs.push x).modify xs.size f = xs.push (f x) := by
  apply Array.ext_getElem?
  intro i
  rw [Array.getElem?_modify, Array.getElem?_push, Array.getElem?_push]
  grind

theorem putAt_eq (b : Body) (k : BlockId) (mark : Option InstrId) (op : Op) :
    b.putAt k mark op =
      { b with
        instrs := b.instrs.push ⟨op, some k⟩
        definers := match op.result? with
          | some v => b.definers.modify v.serial fun _ => some b.instrs.size
          | none => b.definers
        blocks := b.blocks.modify k fun blk =>
          { blk with instrs := Body.insertBefore b.instrs.size mark blk.instrs } } := by
  have hset : Body.setBlock b.instrs.size (some k)
      { b with instrs := b.instrs.push ⟨op, none⟩ } =
      { b with instrs := b.instrs.push ⟨op, some k⟩ } := by
    simp only [Body.setBlock, modify_push_last]
  have hrun : b.putAt k mark op =
      let c := Body.setDefiner b.instrs.size (Body.setBlock b.instrs.size (some k)
        { b with instrs := b.instrs.push ⟨op, none⟩ })
      { c with blocks := c.blocks.modify k fun blk =>
          { blk with instrs := Body.insertBefore b.instrs.size mark blk.instrs } } := rfl
  rw [hrun, hset]
  have hop : ({ b with instrs := b.instrs.push ⟨op, some k⟩ } : Body).op? b.instrs.size =
      some op := by
    simp [Body.op?]
  simp only [Body.setDefiner, hop, Option.bind_some]
  cases op.result? <;> rfl

theorem held_putAt (b : Body) (k j : BlockId) (mark : Option InstrId) (op : Op) :
    (b.putAt k mark op).held j =
      if j = k then (b.blocks[k]?.map fun blk =>
        Body.insertBefore b.instrs.size mark blk.instrs).getD []
      else b.held j := by
  rw [putAt_eq]
  simp only [Body.held, Array.getElem?_modify]
  by_cases h : j = k
  · subst h
    simp [Function.comp_def]
  · simp [h, Ne.symm h]

theorem head?_putAt (b : Body) (k j : BlockId) (mark : Option InstrId) (op : Op) :
    (b.putAt k mark op).head? j = b.head? j := by
  rw [putAt_eq]
  simp only [Body.head?, Array.getElem?_modify]
  by_cases h : k = j
  · subst h
    simp [Function.comp_def]
  · simp [h]

theorem insertBefore_mark {id mark : InstrId} {xs ys : List InstrId} (h : mark ∉ xs) :
    Body.insertBefore id (some mark) (xs ++ mark :: ys) = xs ++ id :: mark :: ys := by
  induction xs with
  | nil => simp [Body.insertBefore]
  | cons x xs ih =>
    simp only [List.mem_cons, not_or] at h
    simp [Body.insertBefore, h.1, ih h.2]

namespace Body

def fresh (b : Body) (components bits : Int) : Value :=
  ⟨b.definers.size, b.valueCount, components, bits⟩

def addValue (b : Body) : Body :=
  { b with definers := b.definers.push none, valueCount := b.valueCount + 1 }

def addSlot (b : Body) (s : Slot) : Body := { b with slots := b.slots.push s }

def addLink (b : Body) (l : Link) : Body := { b with links := b.links.push l }

theorem newValue_run (b : Body) (components bits : Int) :
    newValue components bits b = (b.fresh components bits, b.addValue) := rfl

theorem newSlot_run (b : Body) (s : Slot) : newSlot s b = (b.slots.size, b.addSlot s) := rfl

end Body

theorem Grows.addLink (b : Body) (l : Link) : Grows b (b.addLink l) :=
  { Grows.refl b with
    links := fun _ h => push_old b.links l h
    links_le := by simp [Body.addLink] }

theorem Grows.addValue (b : Body) : Grows b b.addValue :=
  { Grows.refl b with
    definers := fun _ h => push_old b.definers none h
    definers_le := by simp [Body.addValue]
    valueCount_le := Nat.le_succ _ }

/-- An operation that defines nothing of the earlier body may be placed anywhere. -/
theorem Grows.putAt {b c : Body} {op : Op} (hg : Grows b c) (k : BlockId) (mark : Option InstrId)
    (hop : ∀ v, op.result? = some v → b.definers.size ≤ v.serial) :
    Grows b (c.putAt k mark op) where
  instrs id h := by
    rw [putAt_eq, ← hg.instrs id h]
    exact push_old _ _ (Nat.lt_of_lt_of_le h hg.instrs_le)
  instrs_le := by
    have := hg.instrs_le
    simp only [putAt_eq, Array.size_push]
    omega
  slots s h := by simpa only [putAt_eq] using hg.slots s h
  slots_le := by simpa only [putAt_eq] using hg.slots_le
  links l h := by simpa only [putAt_eq] using hg.links l h
  links_le := by simpa only [putAt_eq] using hg.links_le
  definers n h := by
    rw [putAt_eq, ← hg.definers n h]
    cases hr : op.result? with
    | none => rfl
    | some v =>
      have hv := hop v hr
      simp only [Array.getElem?_modify]
      rw [if_neg (by omega)]
  definers_le := by
    have := hg.definers_le
    cases hr : op.result? <;> simpa [putAt_eq, hr] using this
  layout := by simpa only [putAt_eq] using hg.layout
  locals := by simpa only [putAt_eq] using hg.locals
  valid := by simpa only [putAt_eq] using hg.valid
  head j := (head?_putAt c k j mark op).trans (hg.head j)
  valueCount_le := by simpa only [putAt_eq] using hg.valueCount_le
  registerCount_le := by simpa only [putAt_eq] using hg.registerCount_le
  registers := by simpa only [putAt_eq] using hg.registers
  registers_size := by simpa only [putAt_eq] using hg.registers_size

namespace Emits

variable {k : BlockId} {mark : InstrId} {b : Body}

theorem addSlot (hm : mark < b.instrs.size) (s : Slot) : Emits k mark [] b (b.addSlot s) :=
  nil hm { Grows.refl b with
    slots := fun _ h => push_old b.slots s h
    slots_le := by simp [Body.addSlot] } rfl (fun _ => rfl) rfl

theorem addLink (hm : mark < b.instrs.size) (l : Link) : Emits k mark [] b (b.addLink l) :=
  nil hm (Grows.addLink b l) rfl (fun _ => rfl) rfl

theorem addRegister (hm : mark < b.instrs.size) (r : Register) :
    Emits k mark [] b
      { b with registers := b.registers.push r, registerCount := b.registerCount + 1 } :=
  nil hm { Grows.refl b with
    registerCount_le := Nat.le_succ _
    registers := by simp
    registers_size := by simp; omega } rfl (fun _ => rfl) rfl

theorem held_put {xs ys : List InstrId} (h : b.held k = xs ++ mark :: ys) (hx : mark ∉ xs)
    (op : Op) : (b.putAt k (some mark) op).held k = xs ++ b.instrs.size :: mark :: ys := by
  rw [held_putAt, if_pos rfl]
  cases hb : b.blocks[k]? with
  | none => simp [Body.held, hb] at h
  | some blk =>
    have hi : blk.instrs = xs ++ mark :: ys := by simpa [Body.held, hb] using h
    simp [hi, insertBefore_mark hx]

theorem put_after {c : Body} {op : Op} (hm : mark < b.instrs.size) (hg : Grows b c)
    (hi : c.instrs = b.instrs) (hh : ∀ j, c.held j = b.held j)
    (hs : op.result?.toList.map (·.serial) =
      List.range' b.definers.size (c.definers.size - b.definers.size))
    (hc : ∀ v, op.result? = some v → v.index < c.valueCount) :
    Emits k mark [op] b (c.putAt k (some mark) op) where
  toGrows := hg.putAt k (some mark) <| by
    intro v hv
    have hmem : v.serial ∈ List.range' b.definers.size (c.definers.size - b.definers.size) := by
      simp [← hs, hv]
    exact (List.mem_range'_1.mp hmem).1
  mark_lt := hm
  size := by simp [putAt_eq, hi]
  put i o h := by
    obtain ⟨rfl, rfl⟩ : i = 0 ∧ op = o := by cases i <;> simp_all
    simp [putAt_eq, hi]
  held xs ys h hx := by simp [held_put ((hh k).trans h) hx, hi]
  held_other j hj := by rw [held_putAt, if_neg hj, hh]
  serials := by
    have hsize : (c.putAt k (some mark) op).definers.size = c.definers.size := by
      cases hr : op.result? <;> simp [putAt_eq, hr]
    rw [hsize, ← hs]
    cases hr : op.result? <;> simp [hr]
  counted o ho v hv := by
    obtain rfl : o = op := by simpa using ho
    simpa only [putAt_eq] using hc v hv
  defined i o h v hv := by
    obtain ⟨rfl, rfl⟩ : i = 0 ∧ op = o := by cases i <;> simp_all
    have hlt : v.serial < c.definers.size := by
      have hmem : v.serial ∈ List.range' b.definers.size (c.definers.size - b.definers.size) := by
        simp [← hs, hv]
      rw [List.mem_range'_1] at hmem
      have := hg.definers_le
      omega
    simp only [putAt_eq, hv, Body.definer?, Array.getElem?_modify, hi]
    simp [hlt]

theorem effect (hm : mark < b.instrs.size) {op : Op} (hop : op.result? = none) :
    Emits k mark [op] b (b.putAt k (some mark) op) :=
  put_after hm (Grows.refl b) rfl (fun _ => rfl) (by simp [hop]) (by simp [hop])

theorem define (hm : mark < b.instrs.size) {op : Op} {n w : Int}
    (hop : op.result? = some (b.fresh n w)) :
    Emits k mark [op] b (b.addValue.putAt k (some mark) op) := by
  refine put_after hm (.addValue b) rfl (fun _ => rfl) ?_ ?_
  · simp [hop, Body.fresh, Body.addValue]
  · intro v hv
    obtain rfl : b.fresh n w = v := by simpa [hop] using hv
    exact Nat.lt_succ_self _

end Emits

theorem arrayDeref_run (parent : Handle) (index : Operand) (b : Body) :
    Body.arrayDeref parent index b = match arrayLink b.links parent index with
      | .ok link => (.ok (some b.links.size), b.addLink link)
      | .error e => (.error e, b) := by
  have hget : Body.arrayDeref parent index b = (match arrayLink b.links parent index with
    | .ok link => liftM (Body.newLink link)
    | .error e => throw e : ExceptT LinkError Edit Handle) b := rfl
  rw [hget]
  cases arrayLink b.links parent index <;> rfl

theorem structDeref_run (parent : Handle) (field : Int) (b : Body) :
    Body.structDeref parent field b = match structLink b.links parent field with
      | .ok link => (.ok (some b.links.size), b.addLink link)
      | .error e => (.error e, b) := by
  have hget : Body.structDeref parent field b = (match structLink b.links parent field with
    | .ok link => liftM (Body.newLink link)
    | .error e => throw e : ExceptT LinkError Edit Handle) b := rfl
  rw [hget]
  cases structLink b.links parent field <;> rfl

theorem arrayDeref_ok {parent h : Handle} {index : Operand} {b b' : Body}
    (hrun : Body.arrayDeref parent index b = (.ok h, b')) :
    ∃ link, arrayLink b.links parent index = .ok link ∧ h = some b.links.size ∧
      b' = b.addLink link := by
  rw [arrayDeref_run] at hrun
  split at hrun
  · rename_i link hl
    cases hrun
    exact ⟨link, hl, rfl, rfl⟩
  · cases hrun

theorem structDeref_ok {parent h : Handle} {field : Int} {b b' : Body}
    (hrun : Body.structDeref parent field b = (.ok h, b')) :
    ∃ link, structLink b.links parent field = .ok link ∧ h = some b.links.size ∧
      b' = b.addLink link := by
  rw [structDeref_run] at hrun
  split at hrun
  · rename_i link hl
    cases hrun
    exact ⟨link, hl, rfl, rfl⟩
  · cases hrun

structure SameTables (b b' : Body) : Prop where
  slots : b'.slots = b.slots
  links : b'.links = b.links
  registerCount : b'.registerCount = b.registerCount

namespace SameTables

variable {b b' b'' : Body}

theorem refl (b : Body) : SameTables b b := ⟨rfl, rfl, rfl⟩

theorem trans (h : SameTables b b') (h' : SameTables b' b'') : SameTables b b'' :=
  ⟨h'.slots.trans h.slots, h'.links.trans h.links, h'.registerCount.trans h.registerCount⟩

theorem putAt (b : Body) (k : BlockId) (mark : InstrId) (op : Op) :
    SameTables b (b.addValue.putAt k (some mark) op) := by
  rw [putAt_eq]
  exact ⟨rfl, rfl, rfl⟩

theorem site (h : SameTables b b') : b'.site = b.site := by
  funext o
  cases o <;> simp [Body.site, Body.slot, h.slots]

theorem target (h : SameTables b b') : b'.target = b.target := by
  funext d
  cases d <;> simp [Body.target, Body.slot, h.slots]

theorem hop (h : SameTables b b') : b'.hop = b.hop := by
  funext l
  simp only [Body.hop, h.site]

theorem action (h : SameTables b b') : b'.action = b.action := by
  have hops : b'.hops = b.hops := by
    funext n
    simp only [Body.hops, h.hop, h.links]
  funext op
  cases op <;> simp only [Body.action, h.site, h.target, hops]

end SameTables

theorem emits_aluInto {b : Body} {k : BlockId} {mark : InstrId} (hm : mark < b.instrs.size)
    (op : AluOp) (srcs : List Operand) (n w : Int) :
    ∃ b', (⟨some k, some mark⟩ : Cursor).aluInto op srcs n w b = (b.fresh n w, b') ∧
      Emits k mark [.alu op srcs (.value (b.fresh n w)) (fullMask n)] b b' ∧ SameTables b b' :=
  ⟨_, rfl, Emits.define hm rfl, SameTables.putAt b k mark _⟩

theorem emits_imm {b : Body} {k : BlockId} {mark : InstrId} (hm : mark < b.instrs.size)
    (n w : Int) :
    ∃ b', (⟨some k, some mark⟩ : Cursor).imm n w b = (b.fresh 1 w, b') ∧
      Emits k mark [.const (b.fresh 1 w) [Cursor.word n]] b b' ∧ SameTables b b' :=
  ⟨_, rfl, Emits.define hm rfl, SameTables.putAt b k mark _⟩

theorem emits_load {b : Body} {k : BlockId} {mark : InstrId} (hm : mark < b.instrs.size)
    (h : Handle) (n w : Int) :
    ∃ b', (⟨some k, some mark⟩ : Cursor).load h n w b = (b.fresh n w, b') ∧
      Emits k mark [.load h (.value (b.fresh n w)) n] b b' ∧ SameTables b b' :=
  ⟨_, rfl, Emits.define hm rfl, SameTables.putAt b k mark _⟩

theorem emits_store {b : Body} {k : BlockId} {mark : InstrId} (hm : mark < b.instrs.size)
    (h : Handle) (v : Operand) (mask : UInt8) :
    ∃ b', (⟨some k, some mark⟩ : Cursor).store h v mask b = ((), b') ∧
      Emits k mark [.store h v mask] b b' ∧ SameTables b b' := by
  refine ⟨b.putAt k (some mark) (.store h v mask), rfl, Emits.effect hm rfl, ?_⟩
  rw [putAt_eq]
  exact ⟨rfl, rfl, rfl⟩

end ShaderIR
