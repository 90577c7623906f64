import ShaderIR.Lowering.Basic
import ShaderIR.Proofs.Addressing
import ShaderIR.Proofs.Pass

/-!
# One step of lowering

Lowering leaves an instruction alone unless it loads from or stores to local memory. Such an access
gives way to address code and a move from or to the slot that the code finds.
-/

set_option autoImplicit false

namespace ShaderIR

open Lowering

namespace RegisterTable

def Made (t : RegisterTable) (b : Body) : Prop := ∀ e ∈ t.entries, e.reg.serial < b.registerCount

theorem find?_mem {links : Array Link} {hash : UInt32} {h : Handle} {r : Register}
    (entries : List TableEntry) (hf : find? links hash h entries = .ok (some r)) :
    ∃ e ∈ entries, e.reg = r := by
  induction entries with
  | nil => simp [find?] at hf
  | cons e rest ih =>
    simp only [find?] at hf
    have hrest : find? links hash h rest = .ok (some r) → ∃ e' ∈ e :: rest, e'.reg = r := by
      intro hf
      obtain ⟨e', he', hr⟩ := ih hf
      exact ⟨e', by simp [he'], hr⟩
    split at hf
    · cases hs : samePlace (chain links e.deref) (chain links h) with
      | error err => simp [hs, bind, Except.bind] at hf
      | ok same =>
        cases same with
        | true =>
          refine ⟨e, by simp, ?_⟩
          simpa [hs, bind, Except.bind, pure, Except.pure] using hf
        | false => exact hrest (by simpa [hs, bind, Except.bind] using hf)
    · exact hrest hf

/-- A lookup answers the register of an entry, or makes a register and an entry for it. -/
theorem lookupOrCreate_cases {t t' : RegisterTable} {b b' : Body} {h : Handle} {reg : Register}
    (hok : t.lookupOrCreate h b = .ok (reg, t', b')) :
    ((∃ e ∈ t.entries, e.reg = reg) ∧ t' = t ∧ b' = b) ∨
    (reg.serial = b.registerCount ∧ (∃ hash, t' = ⟨t.entries ++ [⟨hash, h, reg⟩]⟩) ∧
      b' = { b with registers := b.registers.push reg, registerCount := b.registerCount + 1 }) := by
  unfold lookupOrCreate at hok
  cases hh : hashChain (chain b.links h) with
  | error e => simp [hh, bind, Except.bind] at hok
  | ok hash =>
    simp only [hh, bind, Except.bind] at hok
    split at hok
    · cases hok
    · cases hf : find? b.links hash h t.entries with
      | error e => simp [hf] at hok
      | ok found =>
        simp only [hf] at hok
        cases found with
        | some r =>
          cases hok
          exact .inl ⟨find?_mem t.entries hf, rfl, rfl⟩
        | none =>
          simp only at hok
          split at hok
          · cases hok
            exact .inr ⟨rfl, ⟨hash, rfl⟩, rfl⟩
          · cases hok

theorem lookupOrCreate_made {t t' : RegisterTable} {b b' : Body} {h : Handle} {reg : Register}
    (ht : t.Made b) (hok : t.lookupOrCreate h b = .ok (reg, t', b')) :
    reg.serial < b'.registerCount ∧ t'.Made b' ∧
      t'.size + b.registerCount = t.size + b'.registerCount ∧ (b' = b ∨ b' =
      { b with registers := b.registers.push reg, registerCount := b.registerCount + 1 }) := by
  rcases lookupOrCreate_cases hok with ⟨⟨e, he, rfl⟩, rfl, rfl⟩ | ⟨hreg, ⟨hash, rfl⟩, rfl⟩
  · exact ⟨ht e he, ht, rfl, .inl rfl⟩
  · have hlt : reg.serial < b.registerCount + 1 := hreg ▸ Nat.lt_succ_self _
    refine ⟨hlt, ?_, ?_, .inr rfl⟩
    · intro e he
      rcases List.mem_append.mp he with he | he
      · exact Nat.lt_succ_of_lt (ht e he)
      · rw [List.mem_singleton.mp he]
        exact hlt
    · simp only [size, List.length_append, List.length_singleton]
      omega

end RegisterTable

theorem Grows.constant? {b b' : Body} (hg : Grows b b') (hl : b.Laid) {o : Operand}
    (ho : ∀ v ∈ o.value?, v.serial < b.definers.size) : b'.constant? o = b.constant? o := by
  cases o with
  | value v =>
    have hd := hg.definer? (ho v rfl)
    simp only [Body.constant?, hd]
    cases hid : b.definer? v with
    | none => rfl
    | some id => simp [hg.op? (hl.definer_lt hid)]
  | _ => rfl

theorem Grows.constant?_index {b c : Body} (hg : Grows b c) (hl : b.Laid) {h : Handle}
    (hv : ∀ v ∈ (b.hops h).flatMap Hop.uses, v.serial < b.definers.size) {l : Link}
    (hmem : l ∈ chain b.links h) {o : Operand} (ho : l.kind = .array o) :
    c.constant? o = b.known (b.site o) := by
  rw [← Body.constant?_eq]
  refine hg.constant? hl fun v hov => hv v ?_
  refine List.mem_flatMap.mpr ⟨b.hop l, List.mem_map_of_mem hmem, ?_⟩
  cases o <;> simp_all [Body.hop, Hop.uses, Body.site, Site.uses, Operand.value?]

structure Found (b b' : Body) (k : BlockId) (mark : InstrId) (h : Handle) (reg : Register)
    (ops : List Op) (slot : Slot) : Prop where
  emits : Emits k mark ops b b'
  slots : b'.slots = b.slots
  links : b'.links = b.links
  made : reg.serial < b'.registerCount
  locates : Locates b.known (b.hops h) reg (ops.map b.action) slot
  named : ∀ op ∈ ops, op.Named b

theorem slotOf_found {t t' : RegisterTable} {b b' : Body} {k : BlockId} {mark : InstrId}
    {h : Handle} {slot : Slot} (hl : b.Laid) (hm : mark < b.instrs.size) (ht : t.Made b)
    (hv : ∀ v ∈ (b.hops h).flatMap Hop.uses, v.serial < b.definers.size)
    (hrun : slotOf t ⟨some k, some mark⟩ h b = (.ok (slot, t'), b')) :
    ∃ reg b₁ ops, t.lookupOrCreate h b = .ok (reg, t', b₁) ∧
      b'.registerCount = b₁.registerCount ∧ Found b b' k mark h reg ops slot := by
  unfold slotOf at hrun
  cases hlook : t.lookupOrCreate h b with
  | error e =>
    rw [hlook] at hrun
    cases hrun
  | ok r =>
    obtain ⟨reg, t₁, b₁⟩ := r
    rw [hlook] at hrun
    simp only at hrun
    cases hlin : linearize ⟨some k, some mark⟩ h reg b₁ with
    | mk r c =>
      rw [hlin] at hrun
      cases r with
      | error e => cases hrun
      | ok slot₁ =>
        cases hrun
        obtain ⟨hreg, -, -, hb₁⟩ := RegisterTable.lookupOrCreate_made ht hlook
        have he₁ : Emits k mark [] b b₁ := by
          rcases hb₁ with rfl | rfl
          · exact .refl hm
          · exact .addRegister hm reg
        have htab : b₁.slots = b.slots ∧ b₁.links = b.links := by
          rcases hb₁ with rfl | rfl <;> exact ⟨rfl, rfl⟩
        obtain ⟨hsame, haction⟩ : b₁.site = b.site ∧ b₁.action = b.action := by
          rcases hb₁ with rfl | rfl <;> exact ⟨rfl, rfl⟩
        have hhops : b₁.hops h = b.hops h := by
          rcases hb₁ with rfl | rfl <;> rfl
        have hknown : ∀ c, Grows b₁ c → ∀ l ∈ chain b₁.links h, ∀ o, l.kind = .array o →
            c.constant? o = b.known (b₁.site o) := by
          intro c hc l hl' o ho
          rw [hsame]
          exact (he₁.toGrows.trans hc).constant?_index hl hv (htab.2 ▸ hl') ho
        obtain ⟨ops, he, hts, hloc, hnamed⟩ := emits_linearize
          (Nat.lt_of_lt_of_le hm he₁.instrs_le) hlin
          (fun l hl' => htab.1 ▸ hl.indices l (htab.2 ▸ mem_of_mem_chain hl')) hknown
        rw [hhops, haction] at hloc
        exact ⟨reg, b₁, ops, rfl, hts.registerCount,
          { emits := he₁.trans he
            slots := hts.slots.trans htab.1
            links := hts.links.trans htab.2
            made := by rw [hts.registerCount]; exact hreg
            locates := hloc
            named := fun op hop => (hnamed op hop).congr htab.1.symm htab.2.symm }⟩

inductive Finish (slot : Slot) : Action → Action → Prop
  | load {hops : List Hop} {n : Int} {old new : Value} (hb : new.bits = old.bits) :
      Finish slot (.load hops (.value old) n) (.alu .mov [.slot slot] (.value new) (fullMask n))
  | loadSlot {hops : List Hop} {n : Int} {dest : Site} (hd : dest.value? = none) :
      Finish slot (.load hops dest n) (.alu .mov [.slot slot] dest (fullMask n))
  | store {hops : List Hop} {v : Site} {mask : UInt8} :
      Finish slot (.store hops v mask) (.alu .mov [v] (.slot slot) mask)

theorem Finish.uses {slot : Slot} {a last : Action} (h : Finish slot a last) {v : Value}
    (hv : v ∈ last.uses) : v ∈ a.uses ∨ v ∈ slot.uses := by
  cases h with
  | load _ => exact .inr (by simpa [Site.uses] using hv)
  | loadSlot _ =>
    simp only [Action.uses, Action.srcs, Action.dest?, Action.chains, List.mem_append] at hv ⊢
    rcases hv with (hv | hv) | hv
    · exact .inr (by simpa [Site.uses] using hv)
    · exact .inl (.inl (.inr hv))
    · simp at hv
  | store =>
    simp only [Action.uses, Action.srcs, Action.dest?, Action.chains, List.mem_append] at hv ⊢
    rcases hv with (hv | hv) | hv
    · exact .inl (.inl (.inl hv))
    · exact .inr (by simpa [Site.addressUses] using hv)
    · simp at hv

theorem Finish.registers {slot : Slot} {a last : Action} (h : Finish slot a last) {r : Register}
    (hr : r ∈ last.registers) : r ∈ a.registers ∨ slot.reg = some r := by
  cases h with
  | load _ => exact .inr (by simpa [Site.registers] using hr)
  | loadSlot _ =>
    simp only [Action.registers, Action.srcs, Action.dest?, Action.chains, List.mem_append] at hr ⊢
    rcases hr with (hr | hr) | hr
    · exact .inr (by simpa [Site.registers] using hr)
    · exact .inl (.inl (.inr hr))
    · simp at hr
  | store =>
    simp only [Action.registers, Action.srcs, Action.dest?, Action.chains, List.mem_append] at hr ⊢
    rcases hr with (hr | hr) | hr
    · exact .inl (.inl (.inl hr))
    · exact .inr (by simpa [Site.registers] using hr)
    · simp at hr

section

variable {b c d : Body} {k : BlockId} {id : InstrId} {a last : Action} {hops : List Hop}
  {reg : Register} {code : List Action} {slot : Slot} {f : Value → Value}

theorem uses_of_chains (h : a.chains = [hops]) {v : Value} (hv : v ∈ hops.flatMap Hop.uses) :
    v ∈ a.uses := by
  simp only [Action.uses, h, List.mem_append]
  exact .inr (by simpa using hv)

theorem registers_of_chains (h : a.chains = [hops]) {r : Register}
    (hr : r ∈ hops.flatMap Hop.registers) : r ∈ a.registers := by
  simp only [Action.registers, h, List.mem_append]
  exact .inr (by simpa using hr)

/-- The address code and the move read what the access read and what they compute themselves. -/
theorem Locates.covered_access (hloc : Locates b.known hops reg code slot)
    (hfin : Finish slot a last) (hch : a.chains = [hops]) :
    Covered (· ∈ a.uses) (code ++ [last]) := by
  obtain ⟨hcode, hslot⟩ := hloc.covered (K := (· ∈ a.uses)) fun v hv => uses_of_chains hch hv
  refine Covered.append_iff.mpr ⟨hcode, ?_, trivial⟩
  intro v hv
  rcases hfin.uses hv with hv | hv
  · exact .inl hv
  · exact hslot v hv

/-- Address code and a move, put in the place of an access, make a step. -/
theorem Found.replaced {h : Handle} {ops : List Op} {op : Op} {b₂ : Body} (hl : b.Laid)
    (hk : k ∈ b.layout) (hid : id ∈ b.held k) (ha : b.action? id = some a)
    (hch : a.chains = [b.hops h]) (hf : Found b b₂ k id h reg ops slot) (hop : Emits k id [op] b₂ c)
    (hlinks : c.links = b₂.links) (hnamed : op.Named c) (hfin : Finish slot a (c.action op))
    (hr : Redirects f c d) (hs : Successor a (ops.map b.action ++ [c.action op]) f) :
    Replaced b (Body.remove id k d).2 k id a (ops.map b.action ++ [c.action op]) f := by
  have he := hf.emits.trans hop
  have hloc := hf.locates
  replace hlinks := hlinks.trans hf.links
  generalize hlast : c.action op = last at *
  have hacts : (ops ++ [op]).map c.action = ops.map b.action ++ [last] := by
    rw [List.map_append, List.map_singleton, hlast]
    congr 1
    exact List.map_congr_left fun o ho => he.toGrows.action hl.toRooted (hf.named o ho)
  have hcov := hloc.covered_access hfin hch
  have hplaced : id ∈ b.placedInstrs := Body.mem_placedInstrs.mpr ⟨k, hk, hid⟩
  have hmade := he.toGrows.made (hl.made id hplaced a ha)
  have hc : c.Laid := by
    refine he.laid hl hk hid ?_ ?_ ⟨?_, hlinks ▸ hl.descending⟩
    · intro o ho
      rcases List.mem_append.mp ho with ho | ho
      · exact he.toGrows.named (hf.named o ho)
      · exact List.mem_singleton.mp ho ▸ hnamed
    · intro o ho
      have hmem : c.action o ∈ ops.map b.action ++ [last] := hacts ▸ List.mem_map_of_mem ho
      constructor
      · exact fun v hv => he.values_made hmade (hacts ▸ hcov) ho hv
      · intro r hr
        rcases List.mem_append.mp hmem with hm | hm
        · exact hmade.registers r (registers_of_chains hch (hloc.registers hm r hr))
        · rw [List.mem_singleton.mp hm] at hr
          rcases hfin.registers hr with hr | hr
          · exact hmade.registers r hr
          · obtain rfl : reg = r := by simpa [hloc.reg_eq] using hr
            exact Nat.lt_of_lt_of_le hf.made hop.registerCount_le
    · rw [hlinks]
      exact fun l hl' s hs' => Nat.lt_of_lt_of_le (hl.indices l hl' s hs') he.slots_le
  rw [← hacts] at hs hcov ⊢
  exact he.replaced hl hk hid ha hc hr hcov hs

theorem removeFromBlock_run (h : b.instrs[id]?.bind (·.block) = some k) :
    (removeFromBlock id b).2 = (Body.remove id k b).2 := by
  simp only [removeFromBlock, state_bind, state_get, h]

end

def Action.tally : Action → LowerStats
  | .load _ _ _ => ⟨1, 0, 0⟩
  | .store _ _ _ => ⟨0, 1, 0⟩
  | _ => .zero

structure Lowers (s s' : Lowered) (k : BlockId) (id : InstrId) (h : Handle) (a : Action)
    (reg : Register) (code : List Action) (slot : Slot) (last : Action) (f : Value → Value) :
    Prop where
  replaced : Replaced s.body s'.body k id a (code ++ [last]) f
  chains : a.chains = [s.body.hops h]
  reaches : isLocal s.body.links h = true
  lookup : ∃ b, s.table.lookupOrCreate h s.body = .ok (reg, s'.table, b) ∧
    s'.body.registerCount = b.registerCount
  locates : Locates s.body.known (s.body.hops h) reg code slot
  finish : Finish slot a last
  links : s'.body.links = s.body.links ∨
    ∃ old new, s'.body.links = s.body.links.map (Link.replace old new)
  stats : s'.stats = s.stats.add a.tally

section

variable {b : Body} {k : BlockId} {id : InstrId} {slot : Slot}

theorem replaceLoad_value (n : Int) (old : Value) :
    replaceLoad ⟨some k, some id⟩ id (.value old) n slot b =
      removeFromBlock id (Body.replaceUses old (b.fresh n old.bits)
        ((b.addSlot slot).addValue.putAt k (some id) (.alu .mov [.slot b.slots.size]
          (.value (b.fresh n old.bits)) (fullMask n)))).2 := by
  have hcomm : b.addValue.addSlot slot = (b.addSlot slot).addValue := rfl
  simp only [replaceLoad, state_bind, Body.newValue_run, Body.newSlot_run, insert_run, hcomm]
  rfl

theorem replaceLoad_slot (n : Int) (target : SlotId) :
    replaceLoad ⟨some k, some id⟩ id (.slot target) n slot b =
      removeFromBlock id (((b.addSlot slot).addSlot ((b.addSlot slot).slot target)).putAt k
        (some id) (.alu .mov [.slot b.slots.size] (.slot (b.addSlot slot).slots.size)
          (fullMask n))) := by
  simp only [replaceLoad, state_bind, state_get, Body.newSlot_run, insert_run]

theorem replaceLoad_missing (n : Int) :
    replaceLoad ⟨some k, some id⟩ id .missing n slot b =
      removeFromBlock id ((b.addSlot slot).putAt k (some id)
        (.alu .mov [.slot b.slots.size] .missing (fullMask n))) := by
  simp only [replaceLoad, state_bind, Body.newSlot_run, insert_run]

theorem replaceStore_run (v : Operand) (mask : UInt8) :
    replaceStore ⟨some k, some id⟩ id v mask slot b =
      removeFromBlock id ((b.addSlot slot).putAt k (some id)
        (.alu .mov [v] (.slot b.slots.size) mask)) := by
  simp only [replaceStore, state_bind, Body.newSlot_run, insert_run]

theorem emits_move_value (hm : id < b.instrs.size) (slot : Slot) (n w : Int) :
    ∃ c, (b.addSlot slot).addValue.putAt k (some id) (.alu .mov [.slot b.slots.size]
        (.value (b.fresh n w)) (fullMask n)) = c ∧
      Emits k id [.alu .mov [.slot b.slots.size] (.value (b.fresh n w)) (fullMask n)] b c ∧
      c.slots = b.slots.push slot ∧ c.links = b.links ∧ c.registerCount = b.registerCount := by
  refine ⟨_, rfl, (Emits.addSlot hm slot).trans (Emits.define (b := b.addSlot slot) hm rfl), ?_⟩
  rw [putAt_eq]
  exact ⟨rfl, rfl, rfl⟩

theorem emits_move {c : Body} (hc : Emits k id [] b c) (op : Op) (hop : op.result? = none) :
    ∃ c', c.putAt k (some id) op = c' ∧ Emits k id [op] b c' ∧ c'.slots = c.slots ∧
      c'.links = c.links ∧ c'.registerCount = c.registerCount := by
  refine ⟨_, rfl, hc.trans (Emits.effect (Nat.lt_of_lt_of_le hc.mark_lt hc.instrs_le) hop), ?_⟩
  rw [putAt_eq]
  exact ⟨rfl, rfl, rfl⟩

theorem slot_push {c : Body} (h : c.slots = b.slots.push slot) : c.slot b.slots.size = slot := by
  simp [Body.slot, h]

end

def AccessFinished (b b' : Body) (made : Nat) (k : BlockId) (id : InstrId) (a : Action)
    (code : List Action) (slot : Slot) : Prop :=
  ∃ last f, Replaced b b' k id a (code ++ [last]) f ∧ Finish slot a last ∧
    b'.registerCount = made ∧
    (b'.links = b.links ∨ ∃ old new, b'.links = b.links.map (Link.replace old new))

namespace Found

variable {b b₂ c d : Body} {k : BlockId} {id : InstrId} {h : Handle} {reg : Register}
  {ops : List Op} {slot : Slot} {a : Action} {f : Value → Value}

theorem finished {op : Op} (hl : b.Laid) (hk : k ∈ b.layout) (hid : id ∈ b.held k)
    (ha : b.action? id = some a) (hch : a.chains = [b.hops h])
    (hf : Found b b₂ k id h reg ops slot) (hop : Emits k id [op] b₂ c)
    (hlinks : c.links = b₂.links) (hregs : c.registerCount = b₂.registerCount) (hnamed : op.Named c)
    (hfin : Finish slot a (c.action op)) (hr : Redirects f c d)
    (hs : Successor a (ops.map b.action ++ [c.action op]) f) :
    AccessFinished b (removeFromBlock id d).2 b₂.registerCount k id a (ops.map b.action) slot := by
  have hheld : id ∈ d.held k := by
    have he := hf.emits.trans hop
    rw [hr.held, he.held_eq hl hk hid hk, mem_expandAt]
    exact .inl ⟨hid, by simp⟩
  have hblock : d.instrs[id]?.bind (·.block) = some k := by
    rw [hr.block, (hf.emits.trans hop).instrs id (hf.emits.mark_lt)]
    exact hl.home k hk id hid
  rw [removeFromBlock_run hblock]
  refine ⟨_, f, hf.replaced hl hk hid ha hch hop hlinks hnamed hfin hr hs, hfin, ?_, ?_⟩
  · rw [remove_eq hheld]
    exact hr.registerCount.trans hregs
  · rw [remove_eq hheld]
    simpa only [hlinks, hf.links] using hr.links

theorem finished_load {dest : Dest} {n : Int} (hl : b.Laid) (hk : k ∈ b.layout)
    (hid : id ∈ b.held k) (ha : b.action? id = some (b.action (.load h dest n)))
    (hnamed : (Op.load h dest n).Named b) (hf : Found b b₂ k id h reg ops slot) :
    AccessFinished b (replaceLoad ⟨some k, some id⟩ id dest n slot b₂).2 b₂.registerCount k id
      (b.action (.load h dest n)) (ops.map b.action) slot := by
  have hm : id < b₂.instrs.size := Nat.lt_of_lt_of_le hf.emits.mark_lt hf.emits.instrs_le
  cases dest with
  | value old =>
    obtain ⟨c, hc, he, hslots, hlinks, hregs⟩ := emits_move_value (k := k) hm slot n old.bits
    rw [replaceLoad_value, hc]
    refine hf.finished hl hk hid ha rfl he hlinks hregs ?_ ?_
      (redirects_replaceUses old (b₂.fresh n old.bits) c) ?_
    · exact Op.Named.alu (by simp [Operand.slot?, hslots])
    · simp only [Body.action, List.map_cons, List.map_nil, Body.site, Body.target, slot_push hslots]
      exact .load rfl
    · exact .value rfl List.getLast?_concat rfl rfl
  | slot target =>
    have htarget : target < b₂.slots.size := by
      rw [hf.slots]
      exact hnamed.slots target (by simp [Op.slots, Op.srcs, Op.slotDest?, Dest.slot?])
    rw [replaceLoad_slot]
    obtain ⟨c, hc, he, hslots, hlinks, hregs⟩ := emits_move (k := k) ((Emits.addSlot hm slot).trans
        (Emits.addSlot (b := b₂.addSlot slot) hm ((b₂.addSlot slot).slot target)))
      (.alu .mov [.slot b₂.slots.size] (.slot (b₂.addSlot slot).slots.size) (fullMask n)) rfl
    rw [hc]
    have hslots' : c.slots = (b₂.addSlot slot).slots.push (b₂.slot target) := by
      rw [hslots, ← (Emits.addSlot hm slot (k := k)).toGrows.slot htarget]
      rfl
    have hsrc : c.slot b₂.slots.size = slot := by
      have hne : b₂.slots.size ≠ (b₂.addSlot slot).slots.size := by simp [Body.addSlot]
      rw [Body.slot, hslots', Array.getElem?_push, if_neg hne, Body.addSlot, Array.getElem?_push,
        if_pos rfl]
      rfl
    refine hf.finished hl hk hid ha rfl he hlinks hregs ?_ ?_ (.refl _) (.none rfl)
    · refine ⟨?_, by simp [Op.derefs]⟩
      have hsize : c.slots.size = b₂.slots.size + 1 + 1 := by simp [hslots', Body.addSlot]
      intro x hx
      rw [hsize]
      rcases (show x = b₂.slots.size ∨ x = b₂.slots.size + 1 by
        simpa [Op.slots, Op.srcs, Op.slotDest?, Dest.slot?, Operand.slot?, Body.addSlot] using hx)
        with rfl | rfl
      · exact Nat.lt_succ_of_lt (Nat.lt_succ_self _)
      · exact Nat.lt_succ_self _
    · have hdest : c.slot (b₂.addSlot slot).slots.size = b.slot target := by
        rw [slot_push hslots', Body.slot, Body.slot, hf.slots]
      simp only [Body.action, List.map_cons, List.map_nil, Body.site, Body.target, hsrc, hdest]
      exact .loadSlot rfl
  | missing =>
    rw [replaceLoad_missing]
    obtain ⟨c, hc, he, hslots, hlinks, hregs⟩ := emits_move (k := k) (Emits.addSlot hm slot)
      (.alu .mov [.slot b₂.slots.size] .missing (fullMask n)) rfl
    rw [hc]
    refine hf.finished hl hk hid ha rfl he hlinks hregs ?_ ?_ (.refl _) (.none rfl)
    · refine ⟨?_, by simp [Op.derefs]⟩
      simp [Op.slots, Op.srcs, Op.slotDest?, Dest.slot?, Operand.slot?, hslots, Body.addSlot]
    · simp only [Body.action, List.map_cons, List.map_nil, Body.site, Body.target, slot_push hslots]
      exact .loadSlot rfl

theorem finished_store {v : Operand} {mask : UInt8} (hl : b.Laid) (hk : k ∈ b.layout)
    (hid : id ∈ b.held k) (ha : b.action? id = some (b.action (.store h v mask)))
    (hnamed : (Op.store h v mask).Named b) (hf : Found b b₂ k id h reg ops slot) :
    AccessFinished b (replaceStore ⟨some k, some id⟩ id v mask slot b₂).2 b₂.registerCount k id
      (b.action (.store h v mask)) (ops.map b.action) slot := by
  have hm : id < b₂.instrs.size := Nat.lt_of_lt_of_le hf.emits.mark_lt hf.emits.instrs_le
  have hslot : ∀ s ∈ v.slot?, s < b.slots.size := fun s hs =>
    hnamed.slots s (List.mem_append_left _ (List.mem_filterMap.mpr ⟨v, by simp [Op.srcs], hs⟩))
  rw [replaceStore_run]
  obtain ⟨c, hc, he, hslots, hlinks, hregs⟩ := emits_move (k := k) (Emits.addSlot hm slot)
    (.alu .mov [v] (.slot b₂.slots.size) mask) rfl
  rw [hc]
  have hgrows : Grows b c := (hf.emits.trans he).toGrows
  refine hf.finished hl hk hid ha rfl he hlinks hregs ?_ ?_ (.refl _) (.none rfl)
  · refine ⟨?_, by simp [Op.derefs]⟩
    intro s hs
    simp only [Op.slots, Op.srcs, Op.slotDest?, Dest.slot?, Option.toList_some, List.mem_append,
      List.mem_filterMap, List.mem_singleton, exists_eq_left] at hs
    rcases hs with hs | rfl
    · exact Nat.lt_of_lt_of_le (hslot s hs) hgrows.slots_le
    · simp [hslots, Body.addSlot]
  · simp only [Body.action, List.map_cons, List.map_nil, Body.target, slot_push hslots,
      hgrows.site hslot]
    exact .store

end Found

/-- An access that succeeds is a step, provided that what finishes it is one. -/
theorem access_lowers {s : Lowered} {k : BlockId} {id : InstrId} {h : Handle} {a : Action}
    {done : LowerStats} {finish : Cursor → Slot → Edit Unit} (hl : s.body.Laid)
    (ht : s.table.Made s.body) (hk : k ∈ s.body.layout) (hid : id ∈ s.body.held k)
    (ha : s.body.action? id = some a) (hch : a.chains = [s.body.hops h])
    (hlocal : isLocal s.body.links h = true) (hdone : done = a.tally)
    (hfinish : ∀ {b₂ : Body} {reg : Register} {ops : List Op} {slot : Slot},
      Found s.body b₂ k id h reg ops slot →
      AccessFinished s.body (finish ⟨some k, some id⟩ slot b₂).2 b₂.registerCount k id a
        (ops.map s.body.action) slot)
    (hok : (s.access k id h done finish).error = none) :
    ∃ reg code slot last f,
      Lowers s (s.access k id h done finish) k id h a reg code slot last f := by
  have hplaced : id ∈ s.body.placedInstrs := Body.mem_placedInstrs.mpr ⟨k, hk, hid⟩
  have hmade := hl.made id hplaced a ha
  have hcursor := hl.beforeInstr hk hid
  unfold Lowered.access at hok ⊢
  simp only [hcursor] at hok ⊢
  cases hslot : slotOf s.table ⟨some k, some id⟩ h s.body with
  | mk r b₂ =>
    cases r with
    | error e => simp [hslot, Lowered.fail] at hok
    | ok r =>
      obtain ⟨slot, t'⟩ := r
      obtain ⟨reg, b₁, ops, hlook, hregs, hfound⟩ := slotOf_found hl (hl.lt_size hplaced) ht
        (fun v hv => hmade.values v (List.mem_append_left _ (uses_of_chains hch hv))) hslot
      obtain ⟨last, f, hrep, hfin, hcount, hlinks⟩ := hfinish hfound
      exact ⟨reg, ops.map s.body.action, slot, last, f, hrep, hch, hlocal,
        ⟨b₁, hlook, hcount.trans hregs⟩, hfound.locates, hfin, hlinks, hdone ▸ rfl⟩

/-- Lowering leaves an instruction that does not touch local memory, and replaces an access. -/
theorem instr_step {s : Lowered} {k : BlockId} {id : InstrId} (hl : s.body.Laid)
    (ht : s.table.Made s.body) (hk : k ∈ s.body.layout) (hid : id ∈ s.body.held k)
    (hok : (Lowered.instr k s id).error = none) :
    (Lowered.instr k s id = s ∧ ∀ a ∈ s.body.action? id, ∀ hops ∈ a.chains,
      localChain hops = false) ∨
    ∃ h a reg code slot last f, Lowers s (Lowered.instr k s id) k id h a reg code slot last f := by
  obtain ⟨body, table, stats, error⟩ := s
  simp only at hl ht hk hid
  obtain ⟨op, hop⟩ := hl.exists_op hk hid
  have hop' : body.op? id = some op := by simp [Body.op?, hop]
  have hact : body.action? id = some (body.action op) := by simp [Body.action?, hop']
  have hnamed := hl.named id (Body.mem_placedInstrs.mpr ⟨k, hk, hid⟩) op hop'
  cases error with
  | some e =>
    simp only [Lowered.instr] at hok
    cases hok
  | none =>
    cases op with
    | copy dst src =>
      left
      by_cases hlocal : (isLocal body.links dst || isLocal body.links src) = true
      · simp [Lowered.instr, hop', hlocal, Lowered.fail] at hok
      · simp only [Bool.not_eq_true, Bool.or_eq_false_iff] at hlocal
        simp [Lowered.instr, hop', hact, Body.action, Action.chains, localChain_hops, hlocal]
    | load h dest n =>
      by_cases hlocal : isLocal body.links h = true
      · simp only [Lowered.instr, hop', hlocal, if_true] at hok ⊢
        exact .inr ⟨h, _, access_lowers hl ht hk hid hact rfl hlocal rfl
          (fun hf => hf.finished_load hl hk hid hact hnamed) hok⟩
      · simp only [Bool.not_eq_true] at hlocal
        left
        simp [Lowered.instr, hop', hact, Body.action, Action.chains, localChain_hops, hlocal]
    | store h v mask =>
      by_cases hlocal : isLocal body.links h = true
      · simp only [Lowered.instr, hop', hlocal, if_true] at hok ⊢
        exact .inr ⟨h, _, access_lowers hl ht hk hid hact rfl hlocal rfl
          (fun hf => hf.finished_store hl hk hid hact hnamed) hok⟩
      · simp only [Bool.not_eq_true] at hlocal
        left
        simp [Lowered.instr, hop', hact, Body.action, Action.chains, localChain_hops, hlocal]
    | _ =>
      left
      simp [Lowered.instr, hop', hact, Body.action, Action.chains]

theorem Lowers.made {s s' : Lowered} {k : BlockId} {id : InstrId} {h : Handle} {a last : Action}
    {reg : Register} {code : List Action} {slot : Slot} {f : Value → Value}
    (hs : Lowers s s' k id h a reg code slot last f) (ht : s.table.Made s.body) :
    s'.table.Made s'.body := by
  obtain ⟨b, hlook, hcount⟩ := hs.lookup
  obtain ⟨-, hmade, -, -⟩ := RegisterTable.lookupOrCreate_made ht hlook
  intro e he
  rw [hcount]
  exact hmade e he

theorem Lowers.table_size {s s' : Lowered} {k : BlockId} {id : InstrId} {h : Handle}
    {a last : Action} {reg : Register} {code : List Action} {slot : Slot} {f : Value → Value}
    (hs : Lowers s s' k id h a reg code slot last f) (ht : s.table.Made s.body) :
    s'.table.size + s.body.registerCount = s.table.size + s'.body.registerCount := by
  obtain ⟨b, hlook, hcount⟩ := hs.lookup
  obtain ⟨-, -, hsize, -⟩ := RegisterTable.lookupOrCreate_made ht hlook
  rw [hcount]
  exact hsize

theorem lowered_block (s : Lowered) (k : BlockId) :
    s.block k = (s.body.held k).foldl (Lowered.instr k) s := by
  unfold Lowered.block Body.held
  cases s.body.blocks[k]? <;> rfl

theorem lowered_stuck {k : BlockId} {s : Lowered} {id : InstrId} (h : s.error ≠ none) :
    Lowered.instr k s id = s := by
  obtain ⟨e, he⟩ := Option.ne_none_iff_exists'.mp h
  unfold Lowered.instr
  simp [he]

def Body.lowerBlocks (b : Body) : Lowered :=
  b.layout.toList.foldl Lowered.block ⟨b, .empty, .zero, none⟩

def Body.dominated (b : Body) : Body := b.require ⟨false, true, false⟩

theorem lowerBlocks_eq (b : Body) : b.lowerBlocks = b.layout.toList.foldl
    (fun s k => (s.body.held k).foldl (Lowered.instr k) s) ⟨b, .empty, .zero, none⟩ := by
  rw [Body.lowerBlocks, funext fun s => funext (lowered_block s)]

theorem lowerLocals_error (b : Body) : b.lowerLocals.error = b.dominated.lowerBlocks.error := by
  unfold Body.lowerLocals Body.lowerBlocks Body.dominated
  dsimp only
  split <;> rfl

theorem lowerLocals_eq {b : Body} (hok : b.lowerLocals.error = none) :
    b.lowerLocals = { b.dominated.lowerBlocks with
      body := b.dominated.lowerBlocks.body.preserve Body.controlFlowAnalyses
      stats := { b.dominated.lowerBlocks.stats with
        registers := b.dominated.lowerBlocks.table.size } } := by
  rw [lowerLocals_error] at hok
  unfold Body.lowerLocals Body.lowerBlocks Body.dominated at *
  simp only [hok]

section

variable {b : Body} (I : List InstrId → Lowered → Prop)
  (F : List InstrId → BlockId → InstrId → Lowered → Prop)

/-- The walk keeps what every step of it keeps, unless a step fails: then it answers what that step
answered. -/
theorem lowerBlocks_rule (hl : b.Laid) (hI : I [] ⟨b, .empty, .zero, none⟩)
    (hskip : ∀ met id s, s.body.Laid → I met s → id ∈ b.placedInstrs → id ∉ met →
      (∀ a ∈ s.body.action? id, ∀ hops ∈ a.chains, localChain hops = false) → I (met ++ [id]) s)
    (hlower : ∀ met s s' k id h a reg code slot last f, s.body.Laid → s.table.Made s.body →
      I met s → id ∈ b.placedInstrs → id ∉ met → Lowers s s' k id h a reg code slot last f →
      I (met ++ [id]) s')
    (hfail : ∀ met s k id, s.body.Laid → s.error = none → I met s → k ∈ s.body.layout →
      id ∈ s.body.held k → (Lowered.instr k s id).error ≠ none → F met k id (Lowered.instr k s id))
    (hF : ∀ met k id s, F met k id s → s.error ≠ none) :
    (b.lowerBlocks.error = none ∧ b.lowerBlocks.body.Laid ∧ I b.placedInstrs b.lowerBlocks) ∨
    ∃ js k rest pre id post, b.layout.toList = js ++ k :: rest ∧ b.held k = pre ++ id :: post ∧
      F (js.flatMap b.held ++ pre) k id b.lowerBlocks := by
  have hstep : ∀ met k s id,
      (s.error = none ∧ s.body.Laid ∧ s.table.Made s.body ∧ I met s) → k ∈ s.body.layout →
      id ∈ s.body.held k → id ∈ b.placedInstrs → id ∉ met →
      ((Lowered.instr k s id).error = none ∧ (Lowered.instr k s id).body.Laid ∧
        (Lowered.instr k s id).table.Made (Lowered.instr k s id).body ∧
        I (met ++ [id]) (Lowered.instr k s id)) ∧
        Steps k id s.body (Lowered.instr k s id).body ∨ F met k id (Lowered.instr k s id) := by
    intro met k s id hs hk hid hall hmet
    obtain ⟨he, hl, ht, hI⟩ := hs
    by_cases hok : (Lowered.instr k s id).error = none
    · left
      rcases instr_step hl ht hk hid hok with ⟨heq, hnone⟩ | ⟨_, _, _, _, _, _, _, hlow⟩
      · rw [heq]
        exact ⟨⟨he, hl, ht, hskip met id s hl hI hall hmet hnone⟩, .refl k id s.body⟩
      · exact ⟨⟨hok, hlow.replaced.laid, hlow.made ht,
          hlower met s _ k id _ _ _ _ _ _ _ hl ht hI hall hmet hlow⟩, hlow.replaced.steps hl⟩
    · exact .inr (hfail met s k id hl he hI hk hid hok)
  have hwalk := foldl_layout Lowered.body Lowered.instr
    (fun met s => s.error = none ∧ s.body.Laid ∧ s.table.Made s.body ∧ I met s) F
    (fun met k id s j x h => by rwa [lowered_stuck (hF met k id s h)]) hstep
    (s := ⟨b, .empty, .zero, none⟩)
    ⟨rfl, hl, by simp [RegisterTable.Made, RegisterTable.empty], hI⟩ rfl hl.once
  rw [lowerBlocks_eq]
  exact hwalk.imp_left fun h => ⟨h.1, h.2.1, h.2.2.2⟩

end

/-- What every step of lowering keeps holds of the walk that succeeds. -/
theorem lowerBlocks_keeps {b : Body} (I : List InstrId → Lowered → Prop) (hl : b.Laid)
    (hI : I [] ⟨b, .empty, .zero, none⟩)
    (hskip : ∀ met id s, s.body.Laid → I met s → id ∈ b.placedInstrs → id ∉ met →
      (∀ a ∈ s.body.action? id, ∀ hops ∈ a.chains, localChain hops = false) → I (met ++ [id]) s)
    (hlower : ∀ met s s' k id h a reg code slot last f, s.body.Laid → s.table.Made s.body →
      I met s → id ∈ b.placedInstrs → id ∉ met → Lowers s s' k id h a reg code slot last f →
      I (met ++ [id]) s')
    (hok : b.lowerBlocks.error = none) :
    b.lowerBlocks.body.Laid ∧ I b.placedInstrs b.lowerBlocks := by
  rcases lowerBlocks_rule I (fun _ _ _ s => s.error ≠ none) hl hI hskip hlower
    (fun _ _ _ _ _ _ _ _ _ h => h) (fun _ _ _ _ h => h) with h | ⟨_, _, _, _, _, _, _, _, h⟩
  · exact h.2
  · exact absurd hok h

/-- What every step of lowering keeps holds of the code and the table after the pass. -/
theorem lowerLocals_rule {b : Body} (I : List InstrId → Body → RegisterTable → Prop)
    (hl : b.Laid) (hI : ∀ c, SameCode b c → I [] c .empty)
    (hskip : ∀ met id c t, c.Laid → I met c t → id ∈ b.placedInstrs → id ∉ met →
      (∀ a ∈ c.action? id, ∀ hops ∈ a.chains, localChain hops = false) → I (met ++ [id]) c t)
    (hlower : ∀ met s s' k id h a reg code slot last f, s.body.Laid → I met s.body s.table →
      id ∈ b.placedInstrs → id ∉ met → Lowers s s' k id h a reg code slot last f →
      I (met ++ [id]) s'.body s'.table)
    (hok : b.lowerLocals.error = none) :
    ∃ c, c.Laid ∧ I b.placedInstrs c b.lowerLocals.table ∧ SameCode c b.lowerLocals.body := by
  have hc : SameCode b b.dominated := .require b _
  rw [← hc.placedInstrs] at hskip hlower ⊢
  obtain ⟨hl', hI'⟩ := lowerBlocks_keeps (fun met s => I met s.body s.table) (hc.laid hl) (hI _ hc)
    (fun met id s hl hI => hskip met id s.body s.table hl hI)
    (fun met s s' k id h a reg code slot last f hl _ =>
      hlower met s s' k id h a reg code slot last f hl)
    (lowerLocals_error b ▸ hok)
  rw [lowerLocals_eq hok]
  exact ⟨_, hl', hI', .preserve _ _⟩

end ShaderIR
