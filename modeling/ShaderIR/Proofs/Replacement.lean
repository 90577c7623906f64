import ShaderIR.Proofs.Confinement
import ShaderIR.Proofs.Form

/-!
# Replacing an instruction

A pass replaces an instruction in three moves: it emits other instructions in front of it, redirects
the reads of the value it defined, and takes it out of its block. What this does to the actions of
the body is said once, in `Replaced`, and the form of the body is kept by every such step.
-/

set_option autoImplicit false

namespace ShaderIR

theorem getElem?_foldl_modify {α : Type} {f : α → α} (hf : ∀ x, f (f x) = f x) (ids : List Nat)
    (xs : Array α) (i : Nat) :
    (ids.foldl (fun xs id => xs.modify id f) xs)[i]? =
      if i ∈ ids then xs[i]?.map f else xs[i]? := by
  induction ids generalizing xs with
  | nil => simp
  | cons id ids ih =>
    rw [List.foldl_cons, ih, Array.getElem?_modify]
    by_cases hi : id = i
    · subst hi
      cases xs[id]? <;> simp [hf]
    · simp [hi, Ne.symm hi]

theorem Value.replace_replace (old new v : Value) :
    Value.replace old new (Value.replace old new v) = Value.replace old new v := by
  unfold Value.replace
  split <;> simp_all

theorem Value.replace_of_ne {old new v : Value} (h : v ≠ old) : Value.replace old new v = v :=
  if_neg h

theorem Value.replace_old (old new : Value) : Value.replace old new old = new :=
  if_pos rfl

theorem Slot.replace_replace (old new : Value) (s : Slot) :
    Slot.replace old new (Slot.replace old new s) = Slot.replace old new s := by
  cases h : s.indirect <;> simp [Slot.replace, h, Value.replace_replace]

theorem Operand.replace_replace (old new : Value) (o : Operand) :
    Operand.replace old new (Operand.replace old new o) = Operand.replace old new o := by
  cases o <;> simp [Operand.replace, Value.replace_replace]

theorem Op.replace_replace (old new : Value) (op : Op) :
    Op.replace old new (Op.replace old new op) = Op.replace old new op := by
  cases op <;> simp [Op.replace, Operand.replace_replace]

theorem Op.slots_replace (old new : Value) (op : Op) : (op.replace old new).slots = op.slots := by
  cases op <;>
    simp [Op.replace, Op.slots, Op.srcs, Op.slotDest?, List.filterMap_map, List.filterMap_cons,
      Operand.slot?_replace]

theorem Op.derefs_replace (old new : Value) (op : Op) :
    (op.replace old new).derefs = op.derefs := by
  cases op <;> rfl

section

variable {b b' : Body} {old new : Value}

theorem site_replace {o : Operand}
    (h : ∀ s ∈ o.slot?, b'.slot s = (b.slot s).replace old new) :
    b'.site (o.replace old new) = (b.site o).map (Value.replace old new) := by
  cases o with
  | slot s => simp [Operand.replace, Body.site, Site.map, Site.rename, h s rfl]; rfl
  | _ => rfl

theorem target_replace {d : Dest} (h : ∀ s ∈ d.slot?, b'.slot s = (b.slot s).replace old new) :
    b'.target d = (b.target d).rename (Value.replace old new) id := by
  cases d with
  | slot s => simp [Body.target, Site.rename, h s rfl]; rfl
  | _ => rfl

theorem sites_replace {os : List Operand}
    (h : ∀ s ∈ os.filterMap Operand.slot?, b'.slot s = (b.slot s).replace old new) :
    (os.map (Operand.replace old new)).map b'.site =
      (os.map b.site).map (Site.map (Value.replace old new)) := by
  simp only [List.map_map]
  apply List.map_congr_left
  intro o ho
  exact site_replace fun s hs => h s (List.mem_filterMap.mpr ⟨o, ho, hs⟩)

theorem hop_replace {l : Link} (h : ∀ s ∈ l.slot?, b'.slot s = (b.slot s).replace old new) :
    b'.hop (l.replace old new) = (b.hop l).map (Value.replace old new) := by
  cases hk : l.kind with
  | array index =>
    have := @site_replace b b' old new index (by simpa [Link.slot?, hk] using h)
    simp [Body.hop, Hop.map, Link.replace_kind, hk, this]
  | _ => simp [Body.hop, Hop.map, Link.replace_kind, hk]

variable (hlinks : b'.links = b.links.map (Link.replace old new))
  (hindex : ∀ l ∈ b.links, ∀ s ∈ l.slot?, b'.slot s = (b.slot s).replace old new)

include hlinks hindex

theorem hops_replace (h : Handle) :
    b'.hops h = (b.hops h).map (Hop.map (Value.replace old new)) := by
  rw [Body.hops, Body.hops, hlinks, chain_map _ (Link.replace_parent old new), List.map_map,
    List.map_map]
  apply List.map_congr_left
  intro l hl
  exact hop_replace (hindex l (mem_of_mem_chain hl))

theorem action_replace {op : Op}
    (hs : ∀ s ∈ op.slots, b'.slot s = (b.slot s).replace old new) :
    b'.action (op.replace old new) = (b.action op).mapUses (Value.replace old new) := by
  simp only [Op.slots, List.mem_append] at hs
  cases op with
  | alu op srcs dest mask =>
    have hsrcs := @sites_replace b b' old new srcs fun s h => hs s (.inl h)
    have hdest := target_replace (d := dest) fun s h =>
      hs s (.inr (by simpa [Op.slotDest?] using h))
    simp only [Op.replace, Body.action, hsrcs, hdest]
    rfl
  | const v values => rfl
  | load h dest n =>
    have hdest := target_replace (d := dest) fun s h =>
      hs s (.inr (by simpa [Op.slotDest?] using h))
    simp only [Op.replace, Body.action, hops_replace hlinks hindex, hdest]
    rfl
  | store h v mask =>
    have hv := site_replace (o := v) fun s h => hs s (.inl (by simpa [Op.srcs] using h))
    simp only [Op.replace, Body.action, hops_replace hlinks hindex, hv]
    rfl
  | copy d s =>
    simp only [Op.replace, Body.action, hops_replace hlinks hindex]
    rfl
  | intrinsic name srcs dest =>
    have hsrcs := @sites_replace b b' old new srcs fun s h => hs s (.inl h)
    have hdest : dest.map b'.target =
        (dest.map b.target).map (Site.rename (Value.replace old new) id) := by
      cases dest with
      | none => rfl
      | some d =>
        simp [target_replace (d := d) fun s h => hs s (.inr (by simpa [Op.slotDest?] using h))]
    simp only [Op.replace, Body.action, hsrcs, hdest]
    rfl

end

structure Redirects (f : Value → Value) (b b' : Body) : Prop where
  layout : b'.layout = b.layout
  locals : b'.locals = b.locals
  valid : b'.valid = b.valid
  registers : b'.registers = b.registers
  blocks : b'.blocks = b.blocks
  other : ∀ id, id ∉ b.placedInstrs → b'.instrs[id]? = b.instrs[id]?
  block : ∀ id : InstrId, b'.instrs[id]?.bind (·.block) = b.instrs[id]?.bind (·.block)
  size : b'.instrs.size = b.instrs.size
  definers : b'.definers = b.definers
  valueCount : b'.valueCount = b.valueCount
  registerCount : b'.registerCount = b.registerCount
  slots_size : b'.slots.size = b.slots.size
  links : b'.links = b.links ∨ ∃ old new, b'.links = b.links.map (Link.replace old new)
  const : ∀ id v xs, b'.op? id = some (.const v xs) ↔ b.op? id = some (.const v xs)
  op : ∀ id ∈ b.placedInstrs, ∀ op ∈ b.op? id, ∃ op', b'.op? id = some op' ∧
    op'.slots = op.slots ∧ op'.derefs = op.derefs ∧ b'.action op' = (b.action op).mapUses f

theorem Redirects.held {f : Value → Value} {b b' : Body} (h : Redirects f b b') (k : BlockId) :
    b'.held k = b.held k := by
  rw [Body.held, Body.held, h.blocks]

theorem Redirects.refl (b : Body) : Redirects id b b where
  layout := rfl
  locals := rfl
  valid := rfl
  registers := rfl
  blocks := rfl
  other _ _ := rfl
  block _ := rfl
  size := rfl
  definers := rfl
  valueCount := rfl
  registerCount := rfl
  slots_size := rfl
  links := .inl rfl
  const _ _ _ := Iff.rfl
  op _ _ op hop := ⟨op, hop, rfl, rfl, (Action.rename_id _).symm⟩

theorem size_foldl_modify {α : Type} (f : α → α) (ids : List Nat) (xs : Array α) :
    (ids.foldl (fun xs id => xs.modify id f) xs).size = xs.size := by
  induction ids generalizing xs with
  | nil => rfl
  | cons id ids ih => simp [ih]

theorem Op.replace_eq_const {old new v : Value} {xs : List UInt64} {op : Op} :
    op.replace old new = .const v xs ↔ op = .const v xs := by
  cases op <;> simp [Op.replace]

theorem getElem?_instrs_replaceUses (old new : Value) (b : Body) (id : InstrId) :
    (Body.replaceUses old new b).2.instrs[id]? =
      if id ∈ b.placedInstrs then b.instrs[id]?.map fun i => { i with op := i.op.replace old new }
      else b.instrs[id]? :=
  getElem?_foldl_modify (fun i => by simp [Op.replace_replace]) b.placedInstrs b.instrs id

theorem getElem?_slots_replaceUses (old new : Value) (b : Body) (s : SlotId) :
    (Body.replaceUses old new b).2.slots[s]? =
      if s ∈ b.namedSlots then b.slots[s]?.map (Slot.replace old new) else b.slots[s]? :=
  getElem?_foldl_modify (Slot.replace_replace old new) b.namedSlots b.slots s

theorem redirects_replaceUses (old new : Value) (b : Body) :
    Redirects (Value.replace old new) b (Body.replaceUses old new b).2 := by
  have hinstr := getElem?_instrs_replaceUses old new b
  have hslot : ∀ s ∈ b.namedSlots,
      (Body.replaceUses old new b).2.slot s = (b.slot s).replace old new := by
    intro s hs
    rw [Body.slot, Body.slot, getElem?_slots_replaceUses, if_pos hs]
    cases b.slots[s]? <;> rfl
  have hindex : ∀ l ∈ b.links, ∀ s ∈ l.slot?,
      (Body.replaceUses old new b).2.slot s = (b.slot s).replace old new := by
    intro l hl s hs
    refine hslot s (List.mem_append_right _ (List.mem_filterMap.mpr ⟨l, ?_, hs⟩))
    exact Array.mem_toList_iff.mpr hl
  refine ⟨rfl, rfl, rfl, rfl, rfl, ?_, ?_, size_foldl_modify _ _ _, rfl, rfl, rfl,
    size_foldl_modify _ _ _, .inr ⟨old, new, rfl⟩, ?_, ?_⟩
  · intro id hid
    rw [hinstr, if_neg hid]
  · intro id
    rw [hinstr]
    split
    · cases b.instrs[id]? <;> rfl
    · rfl
  · intro id v xs
    simp only [Body.op?, hinstr]
    split
    · cases b.instrs[id]? <;> simp [Op.replace_eq_const]
    · rfl
  · intro id hid op hop
    refine ⟨op.replace old new, ?_, Op.slots_replace old new op, Op.derefs_replace old new op, ?_⟩
    · simp only [Body.op?, hinstr, if_pos hid, Option.map_map]
      cases hi : b.instrs[id]? <;> simp_all [Body.op?]
    · refine action_replace rfl hindex fun s hs => hslot s (List.mem_append_left _ ?_)
      exact List.mem_flatMap.mpr ⟨op, List.mem_filterMap.mpr ⟨id, hid, hop⟩, hs⟩

section

variable {b : Body} {k : BlockId} {id : InstrId}

theorem remove_eq (h : id ∈ b.held k) :
    (Body.remove id k b).2 =
      { b with
        instrs := b.instrs.modify id fun i => { i with block := none }
        blocks := b.blocks.modify k fun blk => { blk with instrs := blk.instrs.erase id } } := by
  cases hb : b.blocks[k]? with
  | none => simp [Body.held, hb] at h
  | some blk =>
    have hmem : id ∈ blk.instrs := by simpa [Body.held, hb] using h
    simp [Body.remove, modify, modifyGet, MonadStateOf.modifyGet, StateT.modifyGet, pure, hb, hmem,
      Body.setBlock]

theorem held_remove (h : id ∈ b.held k) (j : BlockId) :
    (Body.remove id k b).2.held j = if j = k then (b.held k).erase id else b.held j := by
  rw [remove_eq h]
  simp only [Body.held, Array.getElem?_modify]
  by_cases hj : j = k
  · subst hj
    cases b.blocks[j]? <;> simp
  · simp [hj, Ne.symm hj]

theorem head?_remove (h : id ∈ b.held k) (j : BlockId) :
    (Body.remove id k b).2.head? j = b.head? j := by
  rw [remove_eq h]
  simp only [Body.head?, Array.getElem?_modify]
  by_cases hj : k = j
  · subst hj
    cases b.blocks[k]? <;> simp
  · simp [hj]

theorem op?_remove (h : id ∈ b.held k) (x : InstrId) :
    (Body.remove id k b).2.op? x = b.op? x := by
  rw [remove_eq h]
  simp only [Body.op?, Array.getElem?_modify]
  split
  · cases b.instrs[x]? <;> rfl
  · rfl

theorem action_remove (h : id ∈ b.held k) (op : Op) :
    (Body.remove id k b).2.action op = b.action op := by
  rw [remove_eq h]
  rfl

theorem block_remove (h : id ∈ b.held k) {x : InstrId} (hx : x ≠ id) :
    (Body.remove id k b).2.instrs[x]? = b.instrs[x]? := by
  rw [remove_eq h]
  simp [Array.getElem?_modify, Ne.symm hx]

end

def expandAt (id : InstrId) (news xs : List InstrId) : List InstrId :=
  xs.flatMap fun x => if x = id then news else [x]

theorem expandAt_of_not_mem {id : InstrId} (news : List InstrId) {xs : List InstrId}
    (h : id ∉ xs) : expandAt id news xs = xs := by
  induction xs with
  | nil => rfl
  | cons x xs ih =>
    simp only [List.mem_cons, not_or] at h
    simp only [expandAt, List.flatMap_cons, if_neg (Ne.symm h.1), List.singleton_append]
    exact congrArg _ (ih h.2)

theorem expandAt_append (id : InstrId) (news xs ys : List InstrId) :
    expandAt id news (xs ++ ys) = expandAt id news xs ++ expandAt id news ys :=
  List.flatMap_append

theorem mem_expandAt {id y : InstrId} {news xs : List InstrId} :
    y ∈ expandAt id news xs ↔ (id ∈ xs ∧ y ∈ news) ∨ (y ∈ xs ∧ y ≠ id) := by
  simp only [expandAt, List.mem_flatMap]
  constructor
  · rintro ⟨x, hx, hy⟩
    split at hy
    · rename_i heq
      exact .inl ⟨heq ▸ hx, hy⟩
    · rename_i hne
      obtain rfl : y = x := by simpa using hy
      exact .inr ⟨hx, hne⟩
  · rintro (⟨hid, hy⟩ | ⟨hy, hne⟩)
    · exact ⟨id, hid, by simpa using hy⟩
    · exact ⟨y, hy, by simp [hne]⟩

theorem nodup_expandAt {id : InstrId} {news xs : List InstrId} (hx : xs.Nodup) (hn : news.Nodup)
    (hd : ∀ y ∈ news, y ∈ xs → y = id) : (expandAt id news xs).Nodup := by
  rw [expandAt, List.nodup_flatMap]
  refine ⟨fun x _ => by split <;> simp [hn], ?_⟩
  refine List.Pairwise.imp_of_mem ?_ hx
  intro x y hxm hym hne z hzx hzy
  simp only at hzx hzy
  split at hzx <;> split at hzy
  · simp_all
  · obtain rfl : z = y := by simpa using hzy
    have := hd z hzx hym
    simp_all
  · obtain rfl : z = x := by simpa using hzx
    have := hd z hzy hxm
    simp_all
  · simp_all

theorem expandAt_flatMap (id : InstrId) (news : List InstrId) (ks : List BlockId)
    (held : BlockId → List InstrId) :
    expandAt id news (ks.flatMap held) = ks.flatMap fun k => expandAt id news (held k) := by
  simp [expandAt, List.flatMap_assoc]

/-- Replacing an entry that stands for itself changes what stands for it. -/
theorem expandAt_update {ids : InstrId → List InstrId} {id : InstrId} {news xs : List InstrId}
    (hid : ids id = [id]) (hother : ∀ x ∈ xs, x ≠ id → id ∉ ids x) :
    expandAt id news (xs.flatMap ids) = xs.flatMap (Function.update ids id news) := by
  rw [expandAt_flatMap]
  apply List.flatMap_congr
  intro x hmem
  by_cases hx : x = id
  · rw [hx, Function.update_self, hid]
    simp [expandAt]
  · rw [Function.update_of_ne hx, expandAt_of_not_mem _ (hother x hmem hx)]

theorem erase_eq_expandAt {id : InstrId} {xs : List InstrId} (h : xs.Nodup) :
    xs.erase id = expandAt id [] xs := by
  induction xs with
  | nil => rfl
  | cons x xs ih =>
    obtain ⟨hx, hxs⟩ := List.nodup_cons.mp h
    by_cases hid : x = id
    · subst hid
      rw [List.erase_cons_head, show x :: xs = [x] ++ xs from rfl, expandAt_append,
        expandAt_of_not_mem _ hx]
      simp [expandAt]
    · rw [List.erase_cons_tail (by simpa using hid), ih hxs]
      simp [expandAt, hid]

theorem expandAt_expandAt {id : InstrId} {news xs : List InstrId} (h : id ∉ news) :
    expandAt id [] (expandAt id (news ++ [id]) xs) = expandAt id news xs := by
  have hlast : expandAt id [] (news ++ [id]) = news := by
    rw [expandAt_append, expandAt_of_not_mem _ h]
    simp [expandAt]
  induction xs with
  | nil => rfl
  | cons x xs ih =>
    rw [show x :: xs = [x] ++ xs from rfl, expandAt_append, expandAt_append, expandAt_append, ih]
    congr 1
    by_cases hx : x = id
    · simp only [expandAt, List.flatMap_cons, List.flatMap_nil, List.append_nil, if_pos hx]
      exact hlast
    · simp [expandAt, hx]

theorem placedInstrs_expandAt {b b' : Body} {id : InstrId} {news : List InstrId}
    (hl : b'.layout = b.layout)
    (hh : ∀ j ∈ b.layout, b'.held j = expandAt id news (b.held j)) :
    b'.placedInstrs = expandAt id news b.placedInstrs := by
  rw [Body.placedInstrs_eq, Body.placedInstrs_eq, expandAt_flatMap, hl]
  exact List.flatMap_congr fun j hj => hh j (Array.mem_toList_iff.mp hj)

inductive Successor (a : Action) (acts : List Action) : (Value → Value) → Prop
  | none (h : a.result? = none) : Successor a acts id
  | value {old new : Value} {x : Action} (h : a.result? = some old) (hx : acts.getLast? = some x)
      (hr : x.result? = some new) (hb : new.bits = old.bits) :
      Successor a acts (Value.replace old new)

/-- The instruction `id` of block `k`, whose action was `a`, gave way to instructions with the
actions `acts`, and all reads went through `f`. -/
structure Replaced (b b' : Body) (k : BlockId) (id : InstrId) (a : Action) (acts : List Action)
    (f : Value → Value) : Prop where
  block : k ∈ b.layout
  holds : id ∈ b.held k
  target : b.action? id = some a
  layout : b'.layout = b.layout
  valid : b'.valid = b.valid
  head : ∀ j, b'.head? j = b.head? j
  confined : Confined b b'
  held : ∀ j ∈ b.layout, b'.held j = expandAt id (List.range' b.instrs.size acts.length) (b.held j)
  kept : ∀ x ∈ b.placedInstrs, x ≠ id → b'.action? x = (b.action? x).map (Action.mapUses f)
  added : ∀ i x, acts[i]? = some x → b'.action? (b.instrs.size + i) = some (x.mapUses f)
  const : ∀ x < b.instrs.size, ∀ v xs,
    b'.op? x = some (.const v xs) ↔ b.op? x = some (.const v xs)
  size : b'.instrs.size = b.instrs.size + acts.length
  definers_le : b.definers.size ≤ b'.definers.size
  valueCount_le : b.valueCount ≤ b'.valueCount
  definer : ∀ v, v.serial < b.definers.size → b'.definer? v = b.definer? v
  defined : ∀ i x, acts[i]? = some x → ∀ v ∈ x.result?, b'.definer? v = some (b.instrs.size + i)
  serials : (acts.filterMap Action.result?).map (·.serial) =
    List.range' b.definers.size (b'.definers.size - b.definers.size)
  counted : ∀ x ∈ acts, ∀ v ∈ x.result?, v.index < b'.valueCount
  covered : Covered (· ∈ a.uses) acts
  successor : Successor a acts f
  laid : b'.Laid

section

variable {b c d : Body} {k : BlockId} {id : InstrId} {a : Action} {ops : List Op}
  {f : Value → Value}

theorem Action.Made.mapUses {x : Action} (h : x.Made b) (hf : ∀ v, v.serial < b.definers.size →
    (f v).serial < b.definers.size) : (x.mapUses f).Made b := by
  refine ⟨?_, by simpa [Action.mapUses, Action.registers_rename] using h.registers⟩
  intro v hv
  simp only [Action.values, Action.mapUses, Action.uses_rename, Action.result?_rename,
    Option.map_id, List.mem_append, List.mem_map] at hv
  rcases hv with ⟨u, hu, rfl⟩ | hv
  · exact hf u (h.values u (by simp [Action.values, hu]))
  · exact h.values v (List.mem_append_right _ hv)

theorem Emits.held_eq (hl : b.Laid) (hk : k ∈ b.layout) (hid : id ∈ b.held k)
    (he : Emits k id ops b c) {j : BlockId} (hj : j ∈ b.layout) :
    c.held j = expandAt id (List.range' b.instrs.size ops.length ++ [id]) (b.held j) := by
  by_cases hjk : j = k
  · subst hjk
    obtain ⟨xs, ys, hxy⟩ := List.append_of_mem hid
    have hnodup := hl.nodup_held hj
    rw [hxy, List.nodup_append] at hnodup
    have hxs : id ∉ xs := fun h => hnodup.2.2 id h id (by simp) rfl
    have hys : id ∉ ys := (List.nodup_cons.mp hnodup.2.1).1
    rw [he.held xs ys hxy hxs, hxy, expandAt_append, expandAt_of_not_mem _ hxs,
      show id :: ys = [id] ++ ys from rfl, expandAt_append, expandAt_of_not_mem _ hys]
    simp [expandAt]
  · rw [he.held_other j hjk, expandAt_of_not_mem]
    exact fun h => hjk (hl.block_unique hj hk h hid)

theorem Emits.recorded (hl : b.Laid) (he : Emits k id ops b c) (x : InstrId)
    (hx : some x ∈ c.definers) : x < c.instrs.size := by
  obtain ⟨n, hn⟩ := Array.mem_iff_getElem?.mp hx
  rw [he.size]
  by_cases hlt : n < b.definers.size
  · rw [he.definers n hlt] at hn
    exact Nat.lt_add_right _ (hl.recorded x (Array.mem_of_getElem? hn))
  · have hsize : n < c.definers.size := (Array.getElem?_eq_some_iff.mp hn).1
    have hmem : n ∈ (ops.filterMap Op.result?).map (·.serial) := by
      rw [he.serials, List.mem_range'_1]
      omega
    obtain ⟨v, hv, rfl⟩ := List.mem_map.mp hmem
    obtain ⟨op, hop, hres⟩ := List.mem_filterMap.mp hv
    obtain ⟨i, hi⟩ := List.mem_iff_getElem?.mp hop
    have hdef := he.defined i op hi v hres
    simp only [Body.definer?, hn, Option.join_some, Option.some.injEq] at hdef
    rw [hdef]
    exact Nat.add_lt_add_left (List.getElem?_eq_some_iff.mp hi).1 _

/-- Operations that read what an action reads and what they compute have values of the body. -/
theorem Emits.values_made (he : Emits k id ops b c) (ha : a.Made c)
    (hcov : Covered (· ∈ a.uses) (ops.map c.action)) {op : Op} (hop : op ∈ ops) {v : Value}
    (hv : v ∈ (c.action op).values) : v.serial < c.definers.size := by
  have hres : ∀ x ∈ ops.map c.action, ∀ u, x.result? = some u → u.serial < c.definers.size := by
    intro x hx u hu
    obtain ⟨o, ho, rfl⟩ := List.mem_map.mp hx
    exact (he.result_ge ho (by rwa [Body.result?_action] at hu)).2
  have hmem : c.action op ∈ ops.map c.action := List.mem_map_of_mem hop
  rcases List.mem_append.mp hv with hv | hv
  · rcases hcov.known hmem hv with hu | ⟨x, hx, hu⟩
    · exact ha.values v (List.mem_append_left _ hu)
    · exact hres x hx v hu
  · exact hres _ hmem v (by simpa using hv)

theorem Emits.mem_placedInstrs (hl : b.Laid) (hk : k ∈ b.layout) (hid : id ∈ b.held k)
    (he : Emits k id ops b c) {x : InstrId} : x ∈ c.placedInstrs ↔
      x ∈ b.placedInstrs ∨ ∃ i op, ops[i]? = some op ∧ x = b.instrs.size + i := by
  have hmark : id ∈ b.placedInstrs := Body.mem_placedInstrs.mpr ⟨k, hk, hid⟩
  rw [placedInstrs_expandAt he.layout fun j hj => he.held_eq hl hk hid hj, mem_expandAt]
  constructor
  · rintro (⟨-, hx⟩ | ⟨hx, -⟩)
    · rcases List.mem_append.mp hx with hx | hx
      · exact .inr (exists_of_mem_range' hx)
      · exact .inl (List.mem_singleton.mp hx ▸ hmark)
    · exact .inl hx
  · rintro (hx | ⟨i, op, hop, rfl⟩)
    · by_cases hxid : x = id
      · exact .inl ⟨hmark, by simp [hxid]⟩
      · exact .inr ⟨hx, hxid⟩
    · have hi : i < ops.length := (List.getElem?_eq_some_iff.mp hop).1
      exact .inl ⟨hmark, by simp [hi]⟩

theorem Emits.op?_new (he : Emits k id ops b c) {i : Nat} {op : Op} (h : ops[i]? = some op) :
    c.op? (b.instrs.size + i) = some op := by
  simp [Body.op?, he.put i op h]

/-- Emitting operations that name what exists keeps the body well-formed. -/
theorem Emits.laid (hl : b.Laid) (hk : k ∈ b.layout) (hid : id ∈ b.held k)
    (he : Emits k id ops b c) (hn : ∀ op ∈ ops, op.Named c)
    (hm : ∀ op ∈ ops, (c.action op).Made c) (hc : c.Rooted) : c.Laid := by
  have hheld := fun j hj => he.held_eq hl hk hid (j := j) hj
  have hplaced := placedInstrs_expandAt he.layout hheld
  -- An instruction of the new body is an old one, or one of those emitted.
  have hcases : ∀ x ∈ c.placedInstrs, x ∈ b.placedInstrs ∨
      ∃ op ∈ ops, c.op? x = some op := by
    intro x hx
    rcases (he.mem_placedInstrs hl hk hid).mp hx with hx | ⟨i, op, hop, rfl⟩
    · exact .inl hx
    · exact .inr ⟨op, List.mem_of_getElem? hop, he.op?_new hop⟩
  refine ⟨hc, ?_, ?_, ?_, ?_, he.recorded hl⟩
  · rw [hplaced]
    refine nodup_expandAt hl.once ?_ ?_
    · rw [List.nodup_append]
      refine ⟨List.nodup_range', by simp, ?_⟩
      rintro x hx y hy rfl
      obtain rfl : x = id := by simpa using hy
      exact absurd he.mark_lt (Nat.not_lt.mpr (List.mem_range'_1.mp hx).1)
    · intro x hx hxb
      rcases List.mem_append.mp hx with hx | hx
      · exact absurd (hl.lt_size hxb) (Nat.not_lt.mpr (List.mem_range'_1.mp hx).1)
      · simpa using hx
  · intro j hj x hx
    rw [he.layout] at hj
    rw [hheld j hj, mem_expandAt] at hx
    rcases hx with ⟨hidj, hx⟩ | ⟨hx, -⟩
    · obtain rfl := hl.block_unique hj hk hidj hid
      rcases List.mem_append.mp hx with hx | hx
      · obtain ⟨i, op, hop, rfl⟩ := exists_of_mem_range' hx
        simp [he.put i op hop]
      · obtain rfl : x = id := by simpa using hx
        rw [he.instrs x he.mark_lt]
        exact hl.home j hj x hid
    · rw [he.instrs x (hl.lt_size (Body.mem_placedInstrs.mpr ⟨j, hj, hx⟩))]
      exact hl.home j hj x hx
  · intro x hx op hop
    rcases hcases x hx with hx | ⟨o, ho, hxo⟩
    · rw [he.toGrows.op? (hl.lt_size hx)] at hop
      exact he.toGrows.named (hl.named x hx op hop)
    · obtain rfl : o = op := by simpa [hxo] using hop
      exact hn o ho
  · intro x hx y hy
    rcases hcases x hx with hx | ⟨o, ho, hxo⟩
    · rw [he.toGrows.action? hl hx] at hy
      exact he.toGrows.made (hl.made x hx y hy)
    · obtain rfl : c.action o = y := by simpa [Body.action?, hxo] using hy
      exact hm o ho

theorem Redirects.placedInstrs (hr : Redirects f b c) : c.placedInstrs = b.placedInstrs := by
  rw [Body.placedInstrs_eq, Body.placedInstrs_eq, hr.layout]
  exact List.flatMap_congr fun j _ => hr.held j

theorem Redirects.action? (hr : Redirects f b c) {x : InstrId} (hx : x ∈ b.placedInstrs)
    {y : Action} (hy : b.action? x = some y) : c.action? x = some (y.mapUses f) := by
  obtain ⟨op, hop, rfl⟩ := Option.map_eq_some_iff.mp hy
  obtain ⟨op', hop', -, -, hact⟩ := hr.op x hx op hop
  simp [Body.action?, hop', hact]

theorem Redirects.laid (hl : b.Laid) (hr : Redirects f b c)
    (hf : ∀ v, v.serial < b.definers.size → (f v).serial < b.definers.size) : c.Laid := by
  have hplaced := hr.placedInstrs
  have hsize : c.links.size = b.links.size := by
    rcases hr.links with h | ⟨old, new, h⟩ <;> simp [h]
  refine ⟨⟨?_, ?_⟩, hplaced ▸ hl.once, ?_, ?_, ?_, by
    rw [hr.definers, hr.size]; exact hl.recorded⟩
  · intro l hlm s hs
    rw [hr.slots_size]
    rcases hr.links with h | ⟨old, new, h⟩
    · exact hl.indices l (h ▸ hlm) s hs
    · rw [h, Array.mem_map] at hlm
      obtain ⟨l', hl', rfl⟩ := hlm
      exact hl.indices l' hl' s (by rwa [Link.slot?_replace] at hs)
  · rcases hr.links with h | ⟨old, new, h⟩
    · exact h ▸ hl.descending
    · intro n l hlm p hp
      rw [h, Array.getElem?_map, Option.map_eq_some_iff] at hlm
      obtain ⟨l', hl', rfl⟩ := hlm
      exact hl.descending n l' hl' p (by rwa [Link.replace_parent] at hp)
  · intro j hj x hx
    rw [hr.block]
    exact hl.home j (hr.layout ▸ hj) x (hr.held j ▸ hx)
  · intro x hx op hop
    rw [hplaced] at hx
    obtain ⟨y, hy⟩ := hl.exists_action hx
    obtain ⟨o, ho, -⟩ := Option.map_eq_some_iff.mp hy
    obtain ⟨o', ho', hs, hd, -⟩ := hr.op x hx o ho
    obtain rfl : o' = op := by simpa [ho'] using hop
    have hnamed := hl.named x hx o ho
    exact ⟨by rw [hs, hr.slots_size]; exact hnamed.slots, by rw [hd, hsize]; exact hnamed.derefs⟩
  · intro x hx y hy
    rw [hplaced] at hx
    obtain ⟨z, hz⟩ := hl.exists_action hx
    obtain rfl : z.mapUses f = y := by simpa [hr.action? hx hz] using hy
    have hmade := (hl.made x hx z hz).mapUses hf
    exact ⟨by rw [hr.definers]; exact hmade.values, by rw [hr.registerCount]; exact hmade.registers⟩

theorem held_remove_eq (hl : b.Laid) (hk : k ∈ b.layout) (hid : id ∈ b.held k) {j : BlockId}
    (hj : j ∈ b.layout) : (Body.remove id k b).2.held j = expandAt id [] (b.held j) := by
  rw [held_remove hid]
  split
  · rename_i heq
    rw [heq, erase_eq_expandAt (hl.nodup_held hk)]
  · rename_i hne
    exact (expandAt_of_not_mem _ fun h => hne (hl.block_unique hj hk h hid)).symm

theorem remove_laid (hl : b.Laid) (hk : k ∈ b.layout) (hid : id ∈ b.held k) :
    (Body.remove id k b).2.Laid := by
  have hlayout : (Body.remove id k b).2.layout = b.layout := by rw [remove_eq hid]
  have hheld := fun j hj => held_remove_eq hl hk hid (j := j) hj
  have hplaced := placedInstrs_expandAt hlayout hheld
  have hold : ∀ x ∈ (Body.remove id k b).2.placedInstrs, x ∈ b.placedInstrs ∧ x ≠ id := by
    intro x hx
    rw [hplaced, mem_expandAt] at hx
    simpa using hx
  refine ⟨⟨?_, ?_⟩, ?_, ?_, ?_, ?_, ?_⟩
  · rw [remove_eq hid]
    exact hl.indices
  · rw [remove_eq hid]
    exact hl.descending
  · rw [hplaced]
    exact nodup_expandAt hl.once (by simp) (by simp)
  · intro j hj x hx
    rw [hlayout] at hj
    rw [hheld j hj, mem_expandAt] at hx
    obtain ⟨hx, hne⟩ : x ∈ b.held j ∧ x ≠ id := by simpa using hx
    rw [block_remove hid hne]
    exact hl.home j hj x hx
  · intro x hx op hop
    rw [op?_remove hid] at hop
    have hnamed := hl.named x (hold x hx).1 op hop
    rw [remove_eq hid]
    exact ⟨hnamed.slots, hnamed.derefs⟩
  · intro x hx y hy
    have hmade := hl.made x (hold x hx).1 y (by
      simpa [Body.action?, op?_remove hid, action_remove hid] using hy)
    rw [remove_eq hid]
    exact ⟨hmade.values, hmade.registers⟩
  · rw [remove_eq hid]
    simpa using hl.recorded

theorem Redirects.head (hr : Redirects f b c) (j : BlockId) : c.head? j = b.head? j := by
  rw [Body.head?, Body.head?, hr.blocks]

/-- Emitting, redirecting and taking out change nothing outside the function. -/
theorem Emits.confined (hl : b.Laid) (hk : k ∈ b.layout) (hid : id ∈ b.held k)
    (he : Emits k id ops b c) (hr : Redirects f c d) (hidd : id ∈ d.held k)
    (hplaced : ∀ x ∈ (Body.remove id k d).2.placedInstrs, x ∈ b.placedInstrs ∨
      b.instrs.size ≤ x) : Confined b (Body.remove id k d).2 := by
  have hhead : ∀ j, d.head? j = b.head? j := fun j => (hr.head j).trans (he.head j)
  have hother : ∀ x ∉ b.placedInstrs, x < b.instrs.size → x ∉ c.placedInstrs := by
    intro x hx hlt hmem
    rcases (he.mem_placedInstrs hl hk hid).mp hmem with hmem | ⟨i, op, -, rfl⟩
    · exact hx hmem
    · exact absurd hlt (Nat.not_lt.mpr (Nat.le_add_right _ _))
  constructor
  · rw [remove_eq hidd]
    exact hr.layout.trans he.layout
  · rw [remove_eq hidd]
    exact hr.locals.trans he.locals
  · intro j
    exact Body.label_of_head ((head?_remove hidd j).trans (hhead j))
  · intro j hj
    have hjk : j ≠ k := fun h => hj (h ▸ hk)
    apply Body.block_ext ((head?_remove hidd j).trans (hhead j))
    rw [held_remove hidd, if_neg hjk, hr.held, he.held_other j hjk]
  · intro x hlt hx
    have hne : x ≠ id := by
      rintro rfl
      exact hx (Body.mem_placedInstrs.mpr ⟨k, hk, hid⟩)
    rw [block_remove hidd hne, hr.other x (hother x hx hlt), he.instrs x hlt]
  · rw [remove_eq hidd]
    simpa [hr.size] using he.instrs_le
  · intro n hn
    rw [remove_eq hidd]
    simpa only [hr.definers] using he.definers n hn
  · rw [remove_eq hidd]
    simpa only [hr.definers] using he.definers_le
  · rw [remove_eq hidd]
    simpa only [hr.registerCount] using he.registerCount_le
  · rw [remove_eq hidd]
    simpa only [hr.registers] using he.registers
  · rw [remove_eq hidd]
    simpa only [hr.registers, hr.registerCount] using he.registers_size
  · exact hplaced

theorem Emits.successor_lt (he : Emits k id ops b c) (hs : Successor a (ops.map c.action) f)
    {v : Value} (hv : v.serial < c.definers.size) : (f v).serial < c.definers.size := by
  cases hs with
  | none => exact hv
  | value _ hx hres _ =>
    obtain ⟨op, hop, rfl⟩ := List.mem_map.mp (List.mem_of_getLast? hx)
    rw [Body.result?_action] at hres
    unfold Value.replace
    split
    · exact (he.result_ge hop hres).2
    · exact hv

/-- Emitting, redirecting and taking out make a step. -/
theorem Emits.replaced (hl : b.Laid) (hk : k ∈ b.layout) (hid : id ∈ b.held k)
    (ha : b.action? id = some a) (he : Emits k id ops b c) (hc : c.Laid) (hr : Redirects f c d)
    (hcov : Covered (· ∈ a.uses) (ops.map c.action)) (hs : Successor a (ops.map c.action) f) :
    Replaced b (Body.remove id k d).2 k id a (ops.map c.action) f := by
  have hd : d.Laid := hr.laid hc fun v hv => he.successor_lt hs hv
  have hkd : k ∈ d.layout := by rwa [hr.layout, he.layout]
  have hold : ∀ x ∈ b.placedInstrs, x ∈ c.placedInstrs := fun x hx =>
    (he.mem_placedInstrs hl hk hid).mpr (.inl hx)
  have hnew : ∀ i op, ops[i]? = some op → b.instrs.size + i ∈ c.placedInstrs := fun i op hop =>
    (he.mem_placedInstrs hl hk hid).mpr (.inr ⟨i, op, hop, rfl⟩)
  have hidd : id ∈ d.held k := by
    rw [hr.held, he.held_eq hl hk hid hk, mem_expandAt]
    exact .inl ⟨hid, by simp⟩
  have hdefiners : (Body.remove id k d).2.definers = c.definers := by
    rw [remove_eq hidd]
    exact hr.definers
  have hact : ∀ x, (Body.remove id k d).2.action? x = d.action? x := fun x => by
    rw [Body.action?, Body.action?, op?_remove hidd, funext (action_remove hidd)]
  have hlayout : (Body.remove id k d).2.layout = b.layout := by
    rw [remove_eq hidd]
    exact hr.layout.trans he.layout
  have hheld : ∀ j ∈ b.layout, (Body.remove id k d).2.held j =
      expandAt id (List.range' b.instrs.size (ops.map c.action).length) (b.held j) := by
    intro j hj
    have hjd : j ∈ d.layout := by rwa [hr.layout, he.layout]
    rw [held_remove_eq hd hkd hidd hjd, hr.held, he.held_eq hl hk hid hj, List.length_map]
    apply expandAt_expandAt
    rw [List.mem_range'_1]
    exact fun h => absurd he.mark_lt (Nat.not_lt.mpr h.1)
  have hplaced : ∀ x ∈ (Body.remove id k d).2.placedInstrs, x ∈ b.placedInstrs ∨
      b.instrs.size ≤ x := by
    intro x hx
    rw [placedInstrs_expandAt hlayout hheld, mem_expandAt] at hx
    rcases hx with ⟨-, hx⟩ | ⟨hx, -⟩
    · exact .inr (List.mem_range'_1.mp hx).1
    · exact .inl hx
  refine
    { block := hk, holds := hid, target := ha, covered := hcov, successor := hs
      laid := remove_laid hd hkd hidd
      layout := hlayout
      valid := by rw [remove_eq hidd]; exact hr.valid.trans he.valid
      head := fun j => (head?_remove hidd j).trans ((hr.head j).trans (he.head j))
      confined := he.confined hl hk hid hr hidd hplaced
      held := hheld, kept := ?_, added := ?_, const := ?_
      size := by rw [remove_eq hidd]; simp [hr.size, he.size]
      definers_le := by rw [hdefiners]; exact he.definers_le
      valueCount_le := by rw [remove_eq hidd]; simp only [hr.valueCount, he.valueCount_le]
      definer := ?_, defined := ?_, serials := ?_, counted := ?_ }
  · intro x hx hne
    obtain ⟨y, hy⟩ := hl.exists_action hx
    rw [hact, hr.action? (hold x hx) ((he.toGrows.action? hl hx).trans hy), hy]
    rfl
  · intro i x hx
    rw [List.getElem?_map, Option.map_eq_some_iff] at hx
    obtain ⟨op, hop, rfl⟩ := hx
    have hi : c.action? (b.instrs.size + i) = some (c.action op) := by
      simp [Body.action?, he.op?_new hop]
    rw [hact, hr.action? (hnew i op hop) hi]
  · intro x hx v xs
    rw [op?_remove hidd, hr.const, he.toGrows.op? hx]
  · intro v hv
    simp only [Body.definer?, hdefiners]
    exact he.toGrows.definer? hv
  · intro i x hx v hv
    rw [List.getElem?_map, Option.map_eq_some_iff] at hx
    obtain ⟨op, hop, rfl⟩ := hx
    simp only [Body.definer?, hdefiners]
    exact he.defined i op hop v (by rwa [Option.mem_def, Body.result?_action] at hv)
  · rw [hdefiners, ← he.serials, List.filterMap_map]
    congr 2
    exact funext c.result?_action
  · intro x hx v hv
    obtain ⟨op, hop, rfl⟩ := List.mem_map.mp hx
    rw [remove_eq hidd]
    simp only [hr.valueCount]
    exact he.counted op hop v (by rwa [Option.mem_def, Body.result?_action] at hv)

end

namespace Replaced

variable {b b' : Body} {k : BlockId} {id : InstrId} {a : Action} {acts : List Action}
  {f : Value → Value} (h : Replaced b b' k id a acts f)

include h

theorem placedInstrs : b'.placedInstrs =
    expandAt id (List.range' b.instrs.size acts.length) b.placedInstrs :=
  placedInstrs_expandAt h.layout h.held

theorem next (j : BlockId) : b'.next j = b.next j := Body.next_of_head (h.head j)

theorem isPath_iff (path : List BlockId) : b'.IsPath path ↔ b.IsPath path := by
  simp [Body.IsPath, h.layout, h.next]

theorem fresh {x : Action} (hx : x ∈ acts) {v : Value} (hv : x.result? = some v) :
    b.definers.size ≤ v.serial ∧ v.serial < b'.definers.size := by
  have hmem : v.serial ∈ (acts.filterMap Action.result?).map (·.serial) :=
    List.mem_map.mpr ⟨v, List.mem_filterMap.mpr ⟨x, hx, hv⟩, rfl⟩
  rw [h.serials, List.mem_range'_1] at hmem
  have := h.definers_le
  omega

theorem cases_placed {x : InstrId} (hx : x ∈ b'.placedInstrs) :
    (∃ i y, acts[i]? = some y ∧ x = b.instrs.size + i) ∨ (x ∈ b.placedInstrs ∧ x ≠ id) := by
  rw [h.placedInstrs, mem_expandAt] at hx
  exact hx.imp_left fun hx => exists_of_mem_range' hx.2

theorem f_new {x : Action} (hl : b.Laid) (hx : x ∈ acts) {v : Value} (hv : x.result? = some v) :
    f v = v := by
  cases h.successor with
  | none => rfl
  | value hold _ _ _ =>
    apply Value.replace_of_ne
    rintro rfl
    have hplaced : id ∈ b.placedInstrs := Body.mem_placedInstrs.mpr ⟨k, h.block, h.holds⟩
    have hlt := (hl.made id hplaced a h.target).values v (by simp [Action.values, hold])
    exact absurd (h.fresh hx hv).1 (Nat.not_le.mpr hlt)

theorem f_kept (hs : b.Single) {x : InstrId} (hx : x ∈ b.placedInstrs) (hne : x ≠ id) {y : Action}
    (hy : b.action? x = some y) {v : Value} (hv : y.result? = some v) : f v = v := by
  cases h.successor with
  | none => rfl
  | value hold _ _ _ =>
    apply Value.replace_of_ne
    rintro rfl
    have hplaced : id ∈ b.placedInstrs := Body.mem_placedInstrs.mpr ⟨k, h.block, h.holds⟩
    have hid := hs id hplaced a h.target v hold
    have hx' := hs x hx y hy v hv
    exact hne (by simpa [hid] using hx'.symm)

theorem f_counted {v : Value} (hv : v.index < b'.valueCount) : (f v).index < b'.valueCount := by
  cases h.successor with
  | none => exact hv
  | value _ hx hr _ =>
    unfold Value.replace
    split
    · exact h.counted _ (List.mem_of_getLast? hx) _ hr
    · exact hv

theorem single (hl : b.Laid) (hs : b.Single) : b'.Single := by
  intro x hx y hy v hv
  rcases h.cases_placed hx with ⟨i, z, hz, rfl⟩ | ⟨hx, hne⟩
  · obtain rfl : z.mapUses f = y := by simpa [h.added i z hz] using hy
    exact h.defined i z hz v (by simpa [Action.mapUses, Action.result?_rename] using hv)
  · obtain ⟨z, hz⟩ := hl.exists_action hx
    obtain rfl : z.mapUses f = y := by simpa [h.kept x hx hne, hz] using hy
    have hv' : z.result? = some v := by simpa [Action.mapUses, Action.result?_rename] using hv
    rw [h.definer v ((hl.made x hx z hz).values v (by simp [Action.values, hv']))]
    exact hs x hx z hz v hv'

/-- After the step the new actions stand for the replaced instruction. -/
theorem filterMap_expandAt {xs : List InstrId} (hxs : ∀ x ∈ xs, x ∈ b.placedInstrs) :
    (expandAt id (List.range' b.instrs.size acts.length) xs).filterMap b'.action? =
      xs.flatMap fun x => if x = id then acts.map (Action.mapUses f)
        else (b.action? x).toList.map (Action.mapUses f) := by
  induction xs with
  | nil => rfl
  | cons x xs ih =>
    rw [show x :: xs = [x] ++ xs from rfl, expandAt_append, List.filterMap_append,
      List.flatMap_append, ih fun y hy => hxs y (by simp [hy])]
    congr 1
    by_cases hx : x = id
    · simpa [expandAt, hx] using filterMap_range' h.added
    · have hkept := h.kept x (hxs x (by simp)) hx
      cases hy : b.action? x <;> simp [expandAt, hx, hkept, hy]

theorem along (path : List BlockId) (hp : ∀ j ∈ path, j ∈ b.layout) :
    b'.along path = (path.flatMap b.held).flatMap fun x =>
      if x = id then acts.map (Action.mapUses f)
      else (b.action? x).toList.map (Action.mapUses f) := by
  have hplaced : ∀ x ∈ path.flatMap b.held, x ∈ b.placedInstrs := by
    intro x hx
    obtain ⟨j, hj, hx⟩ := List.mem_flatMap.mp hx
    exact Body.mem_placedInstrs.mpr ⟨j, hp j hj, hx⟩
  rw [← h.filterMap_expandAt hplaced, expandAt_flatMap, List.filterMap_flatMap]
  exact List.flatMap_congr fun j hj => by rw [Body.actions, h.held j (hp j hj)]

/-- Along any sequence of instructions, what was defined before it was read still is. -/
theorem covered_along (hl : b.Laid) (hs : b.Single) {xs : List InstrId}
    (hxs : ∀ x ∈ xs, x ∈ b.placedInstrs) {K K' : Value → Prop} (hK : ∀ v, K v → K' (f v))
    (hc : Covered K (xs.filterMap b.action?)) :
    Covered K' (xs.flatMap fun x => if x = id then acts.map (Action.mapUses f)
      else (b.action? x).toList.map (Action.mapUses f)) := by
  induction xs generalizing K K' with
  | nil => trivial
  | cons x xs ih =>
    obtain ⟨y, hy⟩ := hl.exists_action (hxs x (by simp))
    have hxs' : ∀ z ∈ xs, z ∈ b.placedInstrs := fun z hz => hxs z (by simp [hz])
    rw [List.filterMap_cons_some hy] at hc
    rw [List.flatMap_cons, Covered.append_iff]
    by_cases hx : x = id
    · subst hx
      obtain rfl : a = y := by simpa [h.target] using hy
      rw [if_pos rfl]
      refine ⟨h.covered.mapUses (fun v hv => hK v (hc.1 v hv)) fun z hz v hv => h.f_new hl hz hv,
        ih hxs' ?_ hc.2⟩
      rintro v (hv | hv)
      · exact .inl (hK v hv)
      · cases h.successor with
        | none hn => simp [hn] at hv
        | value hold hz hr _ =>
          obtain rfl : _ = v := Option.some.inj (hold.symm.trans hv)
          refine .inr ⟨_, List.mem_map_of_mem (List.mem_of_getLast? hz), ?_⟩
          simp [Action.mapUses, Action.result?_rename, hr, Value.replace_old]
    · have hkept : ∀ v, y.result? = some v → f v = v := fun v hv =>
        h.f_kept hs (hxs x (by simp)) hx hy hv
      have hone : Covered K [y] := ⟨hc.1, trivial⟩
      rw [if_neg hx, hy]
      refine ⟨hone.mapUses hK (by simpa using hkept), ih hxs' ?_ hc.2⟩
      rintro v (hv | hv)
      · exact .inl (hK v hv)
      · rw [hkept v hv]
        exact .inr ⟨y.mapUses f, by simp, by simp [Action.mapUses, Action.result?_rename, hv]⟩

theorem ssa (hl : b.Laid) (hs : b.SSA) : b'.SSA := by
  refine ⟨h.single hl hs.single, ?_, ?_⟩
  · have hmap : ∀ {z : Action} {v : Value}, (∀ u ∈ z.values, u.index < b'.valueCount) →
        v ∈ (z.mapUses f).values → v.index < b'.valueCount := by
      intro z v hz hv
      simp only [Action.values, Action.mapUses, Action.uses_rename, Action.result?_rename,
        List.mem_append, List.mem_map] at hv
      rcases hv with ⟨u, hu, rfl⟩ | hv
      · exact h.f_counted (hz u (by simp [Action.values, hu]))
      · exact hz v (List.mem_append_right _ (by simpa using hv))
    have hold : ∀ x ∈ b.placedInstrs, ∀ z ∈ b.action? x, ∀ u ∈ z.values,
        u.index < b'.valueCount := fun x hx z hz u hu =>
      Nat.lt_of_lt_of_le (hs.counted x hx z hz u hu) h.valueCount_le
    intro x hx y hy v hv
    rcases h.cases_placed hx with ⟨i, z, hz, rfl⟩ | ⟨hx, hne⟩
    · obtain rfl : z.mapUses f = y := by simpa [h.added i z hz] using hy
      refine hmap ?_ hv
      intro u hu
      rcases List.mem_append.mp hu with hu | hu
      · rcases h.covered.known (List.mem_of_getElem? hz) hu with hu | ⟨w, hw, hr⟩
        · exact hold id (Body.mem_placedInstrs.mpr ⟨k, h.block, h.holds⟩) a h.target u
            (List.mem_append_left _ hu)
        · exact h.counted w hw u hr
      · exact h.counted z (List.mem_of_getElem? hz) u (by simpa using hu)
    · obtain ⟨z, hz⟩ := hl.exists_action hx
      obtain rfl : z.mapUses f = y := by simpa [h.kept x hx hne, hz] using hy
      exact hmap (hold x hx z hz) hv
  · intro path hp hhead
    rw [h.isPath_iff] at hp
    rw [h.along path hp.1]
    refine h.covered_along hl hs.single ?_ (fun v hv => hv) ?_
    · intro x hx
      obtain ⟨j, hj, hx⟩ := List.mem_flatMap.mp hx
      exact Body.mem_placedInstrs.mpr ⟨j, hp.1 j hj, hx⟩
    · rw [List.filterMap_flatMap]
      exact hs.covered path hp (by rw [hhead, h.layout])

end Replaced

end ShaderIR
