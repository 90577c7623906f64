import ShaderIR.Lowering.Offset
import ShaderIR.Proofs.Replacement

/-!
# The code that computes a slot

The address code of a chain is described by a relation between the links of the chain and the
actions emitted for them, link by link as the address is built up. What the code reads and defines,
and later what it computes, follows from the relation by induction.
-/

set_option autoImplicit false

namespace ShaderIR

open Text

inductive Narrowed : Site → List Action → Value → Prop
  | plain {v : Value} (hv : v.bits = 32) : Narrowed (.value v) [] v
  | cut {v w : Value} {mask : UInt8} (hw : w.bits = 32) :
      Narrowed (.value v) [.alu .u2u32 [.value v] (.value w) mask] w
  | moved {x : Site} {v : Value} {mask : UInt8} (hv : v.bits = 32) :
      Narrowed x [.alu .mov [x] (.value v) mask] v
  | movedCut {sl : Slot} {r : Register} {v w : Value} {mask mask' : UInt8} (hr : sl.reg = some r)
      (hv : v.bits = r.bits) (hw : w.bits = 32) :
      Narrowed (.slot sl) [.alu .mov [.slot sl] (.value v) mask,
        .alu .u2u32 [.value v] (.value w) mask'] w

inductive Adds (sum : Value) (index : Site) (stride : Int) : List Action → Value → Prop
  | intro {code : List Action} {i n p total : Value} {mask mask' : UInt8}
      (hi : Narrowed index code i) (hn : n.bits = 32) (hp : p.bits = 32) (ht : total.bits = 32) :
      Adds sum index stride (code ++ [.const n [Cursor.word stride],
        .alu .imul [.value i, .value n] (.value p) mask,
        .alu .iadd [.value sum, .value p] (.value total) mask']) total

/-- Code that adds the indices of a chain to a slot, from the end of the chain, where `stride` slots
lie below the next index. Indices that `known` gives are added beforehand until the first index
that it does not give. -/
inductive AddressCode (known : Site → Option UInt64) :
    List Hop → Int → Slot → List Action → Slot → Prop
  | root (stride : Int) (slot : Slot) : AddressCode known [] stride slot [] slot
  | skip {hop : Hop} {rest : List Hop} {stride : Int} {slot slot' : Slot} {code : List Action}
      (hk : ∀ index, hop.kind ≠ .array index) (h : AddressCode known rest stride slot code slot') :
      AddressCode known (hop :: rest) stride slot code slot'
  | fold {hop : Hop} {rest : List Hop} {index : Site} {n : UInt64} {stride : Int}
      {slot slot' : Slot} {code : List Action} (hk : hop.kind = .array index)
      (hs : slot.indirect = none) (hn : known index = some n)
      (h : AddressCode known rest (wrap64 (stride * (hopsType rest).length))
        { slot with base := wrap64 (slot.base + (n.toNat % 0x100000000 : Nat) * stride) } code
        slot') :
      AddressCode known (hop :: rest) stride slot code slot'
  | start {hop : Hop} {rest : List Hop} {index : Site} {stride : Int} {z sum : Value}
      {slot slot' : Slot} {code code' : List Action} (hk : hop.kind = .array index)
      (hs : slot.indirect = none) (hz : z.bits = 32) (ha : Adds z index stride code sum)
      (h : AddressCode known rest (wrap64 (stride * (hopsType rest).length))
        { slot with base := 0, indirect := some sum } code' slot') :
      AddressCode known (hop :: rest) stride slot
        (.const z [Cursor.word slot.base] :: (code ++ code')) slot'
  | more {hop : Hop} {rest : List Hop} {index : Site} {stride : Int} {sum sum' : Value}
      {slot slot' : Slot} {code code' : List Action} (hk : hop.kind = .array index)
      (hs : slot.indirect = some sum) (hb : slot.base = 0) (ha : Adds sum index stride code sum')
      (h : AddressCode known rest (wrap64 (stride * (hopsType rest).length))
        { slot with indirect := some sum' } code' slot') :
      AddressCode known (hop :: rest) stride slot (code ++ code') slot'

def Locates (known : Site → Option UInt64) (hops : List Hop) (reg : Register)
    (code : List Action) (slot : Slot) : Prop :=
  -- a single slot is found without code
  if reg.arrayElems = 0 then code = [] ∧ slot = ⟨some reg, 0, none⟩
  else AddressCode known hops 1 ⟨some reg, 0, none⟩ code slot

section

variable {K : Value → Prop}

theorem Narrowed.covered {x : Site} {code : List Action} {i : Value} (h : Narrowed x code i)
    (hx : ∀ v ∈ x.uses, K v) :
    Covered K code ∧ (K i ∨ ∃ a ∈ code, a.result? = some i) := by
  cases h with
  | plain _ => exact ⟨trivial, .inl (hx _ (by simp [Site.uses]))⟩
  | cut _ => exact ⟨⟨by simpa using hx, trivial⟩, .inr (by simp)⟩
  | moved _ => exact ⟨⟨by simpa using hx, trivial⟩, .inr (by simp)⟩
  | movedCut _ _ _ =>
    exact ⟨⟨by simpa using hx, by simp [Site.uses], trivial⟩, .inr (by simp)⟩

theorem Adds.covered {sum total : Value} {x : Site} {stride : Int} {code : List Action}
    (h : Adds sum x stride code total) (hs : K sum) (hx : ∀ v ∈ x.uses, K v) :
    Covered K code ∧ ∃ a ∈ code, a.result? = some total := by
  obtain ⟨hi, hn, hp, ht⟩ := h
  obtain ⟨hcode, hres⟩ := hi.covered hx
  refine ⟨Covered.append_iff.mpr ⟨hcode, by simp, ?_, ?_, trivial⟩, _,
    List.mem_append_right _ (.tail _ (.tail _ (.head _))), rfl⟩
  · simpa [Site.uses] using .inl hres
  · simp [Site.uses, hs]

/-- Address code reads the indices of its chain, and leaves the address in a value it defined. -/
theorem AddressCode.covered {known : Site → Option UInt64} {hops : List Hop} {stride : Int}
    {slot slot' : Slot} {code : List Action} (h : AddressCode known hops stride slot code slot')
    (hh : ∀ v ∈ hops.flatMap Hop.uses, K v) (hs : ∀ v ∈ slot.uses, K v) :
    Covered K code ∧ ∀ v ∈ slot'.uses, K v ∨ ∃ a ∈ code, a.result? = some v := by
  induction h generalizing K with
  | root => exact ⟨trivial, fun v hv => .inl (hs v hv)⟩
  | skip _ _ ih => exact ih (fun v hv => hh v (List.mem_append_right _ hv)) hs
  | fold _ _ _ _ ih => exact ih (fun v hv => hh v (List.mem_append_right _ hv)) hs
  | @start _ _ index _ z sum _ _ code code' hk _ _ ha _ ih =>
    have hx : ∀ v ∈ index.uses, K v := fun v hv =>
      hh v (List.mem_append_left _ (by simpa [Hop.uses, hk] using hv))
    obtain ⟨hcode, hsum⟩ := ha.covered (K := fun v => K v ∨ z = v) (.inr rfl) fun v hv =>
      .inl (hx v hv)
    obtain ⟨hcode', hslot⟩ := ih (K := fun v => (K v ∨ z = v) ∨ ∃ a ∈ code, a.result? = some v)
      (fun v hv => .inl (.inl (hh v (List.mem_append_right _ hv))))
      (by simpa [Slot.uses] using .inr hsum)
    refine ⟨⟨by simp, ?_⟩, ?_⟩
    · simp only [Covered.append_iff, Action.result?_const, Option.some.injEq]
      exact ⟨hcode, hcode'⟩
    · intro v hv
      rcases hslot v hv with ((hK | rfl) | ⟨a, ha, hr⟩) | ⟨a, ha, hr⟩
      · exact .inl hK
      · exact .inr ⟨_, List.mem_cons_self, rfl⟩
      · exact .inr ⟨a, by simp [ha], hr⟩
      · exact .inr ⟨a, by simp [ha], hr⟩
  | @more _ _ index _ sum sum' slot _ code code' hk hsum _ ha _ ih =>
    have hx : ∀ v ∈ index.uses, K v := fun v hv =>
      hh v (List.mem_append_left _ (by simpa [Hop.uses, hk] using hv))
    obtain ⟨hcode, hsum'⟩ := ha.covered (hs sum (by simp [Slot.uses, hsum])) hx
    obtain ⟨hcode', hslot⟩ := ih (K := fun v => K v ∨ ∃ a ∈ code, a.result? = some v)
      (fun v hv => .inl (hh v (List.mem_append_right _ hv)))
      (by simpa [Slot.uses] using .inr hsum')
    refine ⟨Covered.append_iff.mpr ⟨hcode, hcode'⟩, ?_⟩
    intro v hv
    rcases hslot v hv with (hK | ⟨a, ha, hr⟩) | ⟨a, ha, hr⟩
    · exact .inl hK
    · exact .inr ⟨a, by simp [ha], hr⟩
    · exact .inr ⟨a, by simp [ha], hr⟩

end

theorem Narrowed.registers {x : Site} {code : List Action} {i : Value} (h : Narrowed x code i)
    {a : Action} (ha : a ∈ code) : ∀ r ∈ a.registers, r ∈ x.registers := by
  cases h with
  | plain _ => simp at ha
  | cut _ => simp_all
  | moved _ => simp_all
  | movedCut _ _ _ =>
    rcases List.mem_cons.mp ha with rfl | ha
    · simp
    · obtain rfl := List.mem_singleton.mp ha
      simp [Site.registers]

theorem Adds.registers {sum total : Value} {x : Site} {stride : Int} {code : List Action}
    (h : Adds sum x stride code total) {a : Action} (ha : a ∈ code) :
    ∀ r ∈ a.registers, r ∈ x.registers := by
  obtain ⟨hi, -, -, -⟩ := h
  rcases List.mem_append.mp ha with ha | ha
  · exact hi.registers ha
  · have : a.registers = [] := by
      simp only [List.mem_cons, List.not_mem_nil, or_false] at ha
      rcases ha with rfl | rfl | rfl <;> simp [Site.registers]
    simp [this]

theorem AddressCode.registers {known : Site → Option UInt64} {hops : List Hop} {stride : Int}
    {slot slot' : Slot} {code : List Action} (h : AddressCode known hops stride slot code slot')
    {a : Action} (ha : a ∈ code) : ∀ r ∈ a.registers, r ∈ hops.flatMap Hop.registers := by
  intro r hr
  induction h with
  | root => simp at ha
  | skip _ _ ih => exact List.mem_append_right _ (ih ha)
  | fold _ _ _ _ ih => exact List.mem_append_right _ (ih ha)
  | start hk _ _ hadd _ ih =>
    rcases List.mem_cons.mp ha with rfl | ha
    · simp at hr
    · rcases List.mem_append.mp ha with ha | ha
      · exact List.mem_append_left _ (by simpa [Hop.registers, hk] using hadd.registers ha r hr)
      · exact List.mem_append_right _ (ih ha)
  | more hk _ _ hadd _ ih =>
    rcases List.mem_append.mp ha with ha | ha
    · exact List.mem_append_left _ (by simpa [Hop.registers, hk] using hadd.registers ha r hr)
    · exact List.mem_append_right _ (ih ha)

theorem AddressCode.reg_eq {known : Site → Option UInt64} {hops : List Hop} {stride : Int}
    {slot slot' : Slot} {code : List Action} (h : AddressCode known hops stride slot code slot') :
    slot'.reg = slot.reg := by
  induction h with
  | root => rfl
  | skip _ _ ih => exact ih
  | fold _ _ _ _ ih => exact ih
  | start _ _ _ _ _ ih => exact ih
  | more _ _ _ _ _ ih => exact ih

namespace Locates

variable {known : Site → Option UInt64} {hops : List Hop} {reg : Register} {code : List Action}
  {slot : Slot}

theorem covered (h : Locates known hops reg code slot) {K : Value → Prop}
    (hh : ∀ v ∈ hops.flatMap Hop.uses, K v) :
    Covered K code ∧ ∀ v ∈ slot.uses, K v ∨ ∃ a ∈ code, a.result? = some v := by
  unfold Locates at h
  split at h
  · obtain ⟨rfl, rfl⟩ := h
    exact ⟨trivial, by simp [Slot.uses]⟩
  · exact AddressCode.covered h hh (by simp [Slot.uses])

theorem registers (h : Locates known hops reg code slot) {a : Action} (ha : a ∈ code) :
    ∀ r ∈ a.registers, r ∈ hops.flatMap Hop.registers := by
  unfold Locates at h
  split at h
  · simp [h.1] at ha
  · exact AddressCode.registers h ha

theorem reg_eq (h : Locates known hops reg code slot) : slot.reg = some reg := by
  unfold Locates at h
  split at h
  · rw [h.2]
  · exact AddressCode.reg_eq h

end Locates

section

variable {g : Value → Value} (hg : ∀ v, (g v).bits = v.bits)

include hg

theorem Narrowed.map {x : Site} {code : List Action} {i : Value} (h : Narrowed x code i) :
    Narrowed (x.map g) (code.map (Action.map g)) (g i) := by
  cases h with
  | plain hv => exact .plain ((hg _).trans hv)
  | cut hw => exact .cut ((hg _).trans hw)
  | moved hv => exact .moved ((hg _).trans hv)
  | @movedCut sl r v w mask mask' hr hv hw =>
    exact .movedCut (show (sl.map g).reg = some r from hr) ((hg _).trans hv) ((hg _).trans hw)

theorem Adds.map {sum total : Value} {x : Site} {stride : Int} {code : List Action}
    (h : Adds sum x stride code total) :
    Adds (g sum) (x.map g) stride (code.map (Action.map g)) (g total) := by
  obtain ⟨hi, hn, hp, ht⟩ := h
  rw [List.map_append]
  exact .intro (hi.map hg) ((hg _).trans hn) ((hg _).trans hp) ((hg _).trans ht)

/-- Address code stays address code under new names that keep the widths and what is known. -/
theorem AddressCode.map {known known' : Site → Option UInt64} {hops : List Hop} {stride : Int}
    {slot slot' : Slot} {code : List Action} (h : AddressCode known hops stride slot code slot')
    (hk : ∀ hop ∈ hops, ∀ x, hop.kind = .array x → ∀ n, known x = some n →
      known' (x.map g) = some n) :
    AddressCode known' (hops.map (Hop.map g)) stride (slot.map g) (code.map (Action.map g))
      (slot'.map g) := by
  have hkind : ∀ {hop : Hop} {x : Site}, hop.kind = .array x →
      (hop.map g).kind = .array (x.map g) := fun h => by simp [Hop.map, h]
  induction h with
  | root => exact .root _ _
  | @skip hop rest stride slot slot' code hn _ ih =>
    refine .skip (fun x hx => ?_) (ih fun hop hh => hk hop (.tail _ hh))
    cases hkd : hop.kind with
    | array y => exact hn y hkd
    | _ => simp [Hop.map, hkd] at hx
  | @fold hop rest x n stride slot slot' code hkd hs hn _ ih =>
    refine .fold (hkind hkd) (by simp [Slot.map, hs]) (hk hop (.head _) x hkd n hn) ?_
    rw [hopsType_map]
    exact ih fun hop hh => hk hop (.tail _ hh)
  | @start hop rest x stride z sum slot slot' code code' hkd hs hz ha _ ih =>
    rw [show (Action.const z [Cursor.word slot.base] :: (code ++ code')).map (Action.map g) =
      .const (g z) [Cursor.word slot.base] :: (code.map (Action.map g) ++ code'.map (Action.map g))
      by simp [Action.map, Action.rename]]
    refine @AddressCode.start known' _ _ _ stride _ _ (slot.map g) _ _ _ (hkind hkd)
      (by simp [Slot.map, hs]) ((hg z).trans hz) (ha.map hg) ?_
    rw [hopsType_map]
    exact ih fun hop hh => hk hop (.tail _ hh)
  | @more hop rest x stride sum sum' slot slot' code code' hkd hs hb ha _ ih =>
    rw [List.map_append]
    refine .more (hkind hkd) (show (slot.map g).indirect = some (g sum) by simp [Slot.map, hs]) hb
      (ha.map hg) ?_
    rw [hopsType_map]
    exact ih fun hop hh => hk hop (.tail _ hh)

theorem Locates.map {known known' : Site → Option UInt64} {hops : List Hop} {reg : Register}
    {code : List Action} {slot : Slot} (h : Locates known hops reg code slot)
    (hk : ∀ hop ∈ hops, ∀ x, hop.kind = .array x → ∀ n, known x = some n →
      known' (x.map g) = some n) :
    Locates known' (hops.map (Hop.map g)) reg (code.map (Action.map g)) (slot.map g) := by
  unfold Locates at h ⊢
  split at h
  · obtain ⟨rfl, rfl⟩ := h
    rw [if_pos ‹_›]
    exact ⟨rfl, rfl⟩
  · rw [if_neg ‹_›]
    exact AddressCode.map hg h hk

end

def Body.known (b : Body) : Site → Option UInt64
  | .value v => b.constant? (.value v)
  | _ => none

theorem Body.constant?_eq (b : Body) (o : Operand) : b.constant? o = b.known (b.site o) := by
  cases o <;> rfl

section

variable {b : Body} {k : BlockId} {mark : InstrId}

theorem emits_cut (hm : mark < b.instrs.size) (v : Value) :
    ∃ ops i b', (⟨some k, some mark⟩ : Cursor).u2u32 v b = (i, b') ∧ Emits k mark ops b b' ∧
      SameTables b b' ∧ i.bits = 32 ∧ ((v.bits = 32 ∧ ops = [] ∧ i = v) ∨
        (v.bits ≠ 32 ∧ ∃ mask, ops = [.alu .u2u32 [.value v] (.value i) mask])) := by
  by_cases hv : v.bits = 32
  · rw [Cursor.u2u32, if_pos hv]
    exact ⟨[], v, b, rfl, .refl hm, .refl b, hv, .inl ⟨hv, rfl, rfl⟩⟩
  · rw [Cursor.u2u32, if_neg hv]
    obtain ⟨b', hrun, he, ht⟩ := emits_aluInto hm .u2u32 [.value v] v.components 32
    exact ⟨_, _, b', hrun, he, ht, rfl, .inr ⟨hv, _, rfl⟩⟩

theorem emits_moved (hm : mark < b.instrs.size) {index : Operand} (w : Int)
    (hs : ∀ s ∈ index.slot?, s < b.slots.size)
    (hw : w = 32 ∨ ∃ sl r, b.site index = .slot sl ∧ sl.reg = some r ∧ w = r.bits) :
    ∃ ops i b', (⟨some k, some mark⟩ : Cursor).u2u32
        ((⟨some k, some mark⟩ : Cursor).mov index 1 w b).1
        ((⟨some k, some mark⟩ : Cursor).mov index 1 w b).2 = (i, b') ∧
      Emits k mark ops b b' ∧ SameTables b b' ∧ i.bits = 32 ∧
      Narrowed (b.site index) (ops.map b.action) i ∧ ∀ op ∈ ops, op.Named b := by
  obtain ⟨c, hrun, he, ht⟩ := emits_aluInto (k := k) hm .mov [index] 1 w
  obtain ⟨ops, i, b', hrun', he', ht', hi, hops⟩ :=
    emits_cut (k := k) (b := c) (Nat.lt_of_lt_of_le hm he.instrs_le) (b.fresh 1 w)
  have hnamed : (Op.alu .mov [index] (.value (b.fresh 1 w)) (fullMask 1)).Named b :=
    Op.Named.alu (by cases index <;> simp_all [Operand.slot?])
  refine ⟨_, i, b', by simp only [Cursor.mov, hrun, hrun'], he.trans he', ht.trans ht', hi, ?_, ?_⟩
  · rcases hops with ⟨hv, rfl, rfl⟩ | ⟨hv, mask, rfl⟩
    · exact .moved hv
    · rcases hw with rfl | ⟨sl, r, hsl, hr, rfl⟩
      · exact absurd rfl hv
      · rw [hsl]
        simp only [List.singleton_append, List.map_cons, List.map_nil, Body.action, hsl]
        exact .movedCut hr rfl hi
  · intro op hop
    rcases List.mem_append.mp hop with hop | hop
    · simpa [List.mem_singleton.mp hop] using hnamed
    · rcases hops with ⟨-, rfl, -⟩ | ⟨-, mask, rfl⟩
      · simp at hop
      · rw [List.mem_singleton.mp hop]
        exact Op.Named.alu (by simp [Operand.slot?])

theorem emits_narrow (hm : mark < b.instrs.size) {index : Operand}
    (hs : ∀ s ∈ index.slot?, s < b.slots.size) :
    ∃ ops i b', (⟨some k, some mark⟩ : Cursor).u2u32
        ((⟨some k, some mark⟩ : Cursor).valueOf index 1 b).1
        ((⟨some k, some mark⟩ : Cursor).valueOf index 1 b).2 = (i, b') ∧
      Emits k mark ops b b' ∧ SameTables b b' ∧ i.bits = 32 ∧
      Narrowed (b.site index) (ops.map b.action) i ∧ ∀ op ∈ ops, op.Named b := by
  cases index with
  | missing => exact emits_moved hm 32 hs (.inl rfl)
  | value v =>
    obtain ⟨ops, i, b', hrun, he, ht, hi, hops⟩ := emits_cut (k := k) hm v
    refine ⟨ops, i, b', hrun, he, ht, hi, ?_⟩
    rcases hops with ⟨hv, rfl, rfl⟩ | ⟨hv, mask, rfl⟩
    · exact ⟨.plain hv, by simp⟩
    · refine ⟨.cut hi, ?_⟩
      intro op hop
      rw [List.mem_singleton.mp hop]
      exact Op.Named.alu (by simp [Operand.slot?])
  | slot s =>
    refine emits_moved hm _ hs ?_
    cases hr : (b.slot s).reg with
    | none => exact .inl rfl
    | some r => exact .inr ⟨b.slot s, r, rfl, hr, rfl⟩

theorem accumulate_run (c : Cursor) (sum : Value) (index : Operand) (stride : Int) (b : Body) :
    Lowering.accumulate c sum index stride b =
      let r := c.valueOf index 1 b
      let i := c.u2u32 r.1 r.2
      let n := c.imm stride 32 i.2
      let p := c.imul i.1 n.1 n.2
      c.iadd sum p.1 p.2 := rfl

theorem emits_accumulate (hm : mark < b.instrs.size) {sum : Value} (hsum : sum.bits = 32)
    {index : Operand} (hs : ∀ s ∈ index.slot?, s < b.slots.size) (stride : Int) :
    ∃ ops total b', Lowering.accumulate ⟨some k, some mark⟩ sum index stride b = (total, b') ∧
      Emits k mark ops b b' ∧ SameTables b b' ∧ total.bits = 32 ∧
      Adds sum (b.site index) stride (ops.map b.action) total ∧ ∀ op ∈ ops, op.Named b := by
  obtain ⟨ops, i, c, hrun, he, ht, hi, hcode, hnamed⟩ := emits_narrow (k := k) hm hs
  have hmc : mark < c.instrs.size := Nat.lt_of_lt_of_le hm he.instrs_le
  obtain ⟨d, hrund, hed, htd⟩ := emits_imm (k := k) hmc stride 32
  have hmd : mark < d.instrs.size := Nat.lt_of_lt_of_le hmc hed.instrs_le
  obtain ⟨e, hrune, hee, hte⟩ := emits_aluInto (k := k) hmd .imul
    [.value i, .value (c.fresh 1 32)] i.components i.bits
  have hme : mark < e.instrs.size := Nat.lt_of_lt_of_le hmd hee.instrs_le
  obtain ⟨f, hrunf, hef, htf⟩ := emits_aluInto (k := k) hme .iadd
    [.value sum, .value (d.fresh i.components i.bits)] sum.components sum.bits
  refine ⟨_, e.fresh sum.components sum.bits, f, ?_, ((he.trans hed).trans hee).trans hef,
    ((ht.trans htd).trans hte).trans htf, hsum, ?_, ?_⟩
  · rw [accumulate_run]
    simp only [hrun, hrund]
    rw [show (⟨some k, some mark⟩ : Cursor).imul i (c.fresh 1 32) d = _ from hrune]
    exact hrunf
  · simp only [List.map_append, List.append_assoc]
    exact .intro (n := c.fresh 1 32) hcode rfl hi hsum
  · intro op hop
    simp only [List.mem_append, List.mem_singleton] at hop
    rcases hop with ((hop | rfl) | rfl) | rfl
    · exact hnamed op hop
    · exact Op.Named.const
    · exact Op.Named.alu (by simp [Operand.slot?])
    · exact Op.Named.alu (by simp [Operand.slot?])

theorem addIndex_run (c : Cursor) (slot : Slot) (index : Operand) (stride : Int) (b : Body) :
    Lowering.addIndex c slot index stride b =
      match slot.indirect, b.constant? index with
      | none, some k =>
        (.ok { slot with base := wrap64 (slot.base + (k.toNat % 0x100000000 : Nat) * stride) }, b)
      | none, none =>
        let z := c.imm slot.base 32 b
        let sum := Lowering.accumulate c z.1 index stride z.2
        (.ok { slot with base := 0, indirect := some sum.1 }, sum.2)
      | some sum, _ =>
        if slot.base = 0 then
          let sum := Lowering.accumulate c sum index stride b
          (.ok { slot with indirect := some sum.1 }, sum.2)
        else (.error (.unfoldedOffset slot.base), b) := by
  have hget : Lowering.addIndex c slot index stride b =
      (match slot.indirect, b.constant? index with
      | none, some k =>
        pure { slot with base := wrap64 (slot.base + (k.toNat % 0x100000000 : Nat) * stride) }
      | none, none => do
        let start ← c.imm slot.base 32
        let sum ← Lowering.accumulate c start index stride
        return { slot with base := 0, indirect := some sum }
      | some sum, _ => do
        if slot.base = 0 then
          let sum ← Lowering.accumulate c sum index stride
          return { slot with indirect := some sum }
        else throw (.unfoldedOffset slot.base) : Lowering.Step Slot) b := rfl
  rw [hget]
  cases slot.indirect with
  | none => cases b.constant? index <;> rfl
  | some sum =>
    by_cases h : slot.base = 0
    · simp only [h]
      rfl
    · simp only [h]
      rfl

/-- Adding an index emits the code for its step of the chain, whatever code adds the rest. -/
theorem emits_addIndex {known : Site → Option UInt64} (hm : mark < b.instrs.size) {index : Operand}
    {stride : Int} {slot slot₁ : Slot} {c : Body}
    (hrun : Lowering.addIndex ⟨some k, some mark⟩ slot index stride b = (.ok slot₁, c))
    (hslot : ∀ v ∈ slot.indirect, v.bits = 32) (hs : ∀ s ∈ index.slot?, s < b.slots.size)
    (hknown : b.constant? index = known (b.site index)) :
    ∃ ops, Emits k mark ops b c ∧ SameTables b c ∧ (∀ op ∈ ops, op.Named b) ∧
      (∀ v ∈ slot₁.indirect, v.bits = 32) ∧
      ∀ {hop : Hop} {rest : List Hop} {code : List Action} {slot' : Slot},
        hop.kind = .array (b.site index) →
        AddressCode known rest (wrap64 (stride * (hopsType rest).length)) slot₁ code slot' →
        AddressCode known (hop :: rest) stride slot (ops.map b.action ++ code) slot' := by
  rw [addIndex_run] at hrun
  obtain ⟨reg, base, indirect⟩ := slot
  cases indirect with
  | none =>
    cases hn : b.constant? index with
    | some n =>
      simp only [hn] at hrun
      cases hrun
      exact ⟨[], .refl hm, .refl b, by simp, by simp, fun hk hcode =>
        .fold hk rfl (hknown.symm.trans hn) hcode⟩
    | none =>
      simp only [hn] at hrun
      obtain ⟨d, hrund, hed, htd⟩ := emits_imm (k := k) hm base 32
      have hz : (b.fresh 1 32).bits = 32 := rfl
      obtain ⟨ops, total, e, hrune, hee, hte, htotal, hcode, hnamed⟩ := emits_accumulate (k := k)
        (Nat.lt_of_lt_of_le hm hed.instrs_le) hz (htd.slots ▸ hs) stride
      rw [hrund, hrune] at hrun
      cases hrun
      rw [htd.site, htd.action] at hcode
      refine ⟨_, hed.trans hee, htd.trans hte, ?_, by simpa using htotal, fun hk hrest => ?_⟩
      · intro op hop
        simp only [List.mem_append, List.mem_singleton] at hop
        rcases hop with rfl | hop
        · exact Op.Named.const
        · exact (hnamed op hop).congr htd.slots.symm htd.links.symm
      · simp only [List.map_cons, List.cons_append, List.nil_append]
        exact .start hk rfl hz hcode hrest
  | some sum =>
    obtain ⟨ops, total, e, hrune, hee, hte, htotal, hcode, hnamed⟩ :=
      emits_accumulate (k := k) hm (hslot sum rfl) hs stride
    by_cases hb : base = 0
    · simp only [hb, if_true, hrune] at hrun
      cases hrun
      refine ⟨ops, hee, hte, hnamed, by simpa using htotal, fun hk hrest => ?_⟩
      rw [hb]
      exact .more hk rfl rfl hcode hrest
    · simp only [hb, if_false] at hrun
      cases hrun

end

/-- Adding the indices of a chain emits address code for it. -/
theorem emits_addIndices {k : BlockId} {mark : InstrId} {known : Site → Option UInt64}
    (links : List Link) {stride : Int} {slot slot' : Slot} {b b' : Body}
    (hm : mark < b.instrs.size)
    (hrun : Lowering.addIndices ⟨some k, some mark⟩ links stride slot b = (.ok slot', b'))
    (hslot : ∀ v ∈ slot.indirect, v.bits = 32)
    (hs : ∀ l ∈ links, ∀ s ∈ l.slot?, s < b.slots.size)
    (hknown : ∀ c, Grows b c → ∀ l ∈ links, ∀ o, l.kind = .array o →
      c.constant? o = known (b.site o)) :
    ∃ ops, Emits k mark ops b b' ∧ SameTables b b' ∧
      AddressCode known (links.map b.hop) stride slot (ops.map b.action) slot' ∧
      ∀ op ∈ ops, op.Named b := by
  induction links generalizing stride slot b with
  | nil =>
    obtain ⟨rfl, rfl⟩ : slot = slot' ∧ b = b' := by
      rw [Lowering.addIndices] at hrun
      cases hrun
      exact ⟨rfl, rfl⟩
    exact ⟨[], .refl hm, .refl b, .root stride slot, by simp⟩
  | cons link rest ih =>
    have hs' : ∀ l ∈ rest, ∀ s ∈ l.slot?, s < b.slots.size := fun l hl => hs l (by simp [hl])
    cases hk : link.kind with
    | array index =>
      rw [Lowering.addIndices, hk] at hrun
      obtain ⟨slot₁, c, hadd, hrest⟩ := exceptT_ok hrun
      have hindex : ∀ s ∈ index.slot?, s < b.slots.size := by
        simpa [Link.slot?, hk] using hs link (by simp)
      obtain ⟨ops₁, he, ht, hnamed, hslot₁, hstep⟩ := emits_addIndex hm hadd hslot hindex
        (hknown b (.refl b) link (by simp) index hk)
      obtain ⟨ops, he', ht', hcode, hnamed'⟩ := ih (Nat.lt_of_lt_of_le hm he.instrs_le) hrest hslot₁
        (by rw [ht.slots]; exact hs')
        (fun d hd l hl o ho => by
          rw [ht.site]
          exact hknown d (he.toGrows.trans hd) l (by simp [hl]) o ho)
      rw [ht.hop, ht.action, ← hopsType_hop b] at hcode
      refine ⟨ops₁ ++ ops, he.trans he', ht.trans ht', ?_, ?_⟩
      · rw [List.map_append]
        exact hstep (by simp [Body.hop, hk]) hcode
      · intro op hop
        exact (List.mem_append.mp hop).elim (hnamed op) fun hop =>
          (hnamed' op hop).congr ht.slots.symm ht.links.symm
    | _ =>
      rw [Lowering.addIndices, hk] at hrun
      obtain ⟨ops, he, ht, hcode, hnamed⟩ := ih hm hrun hslot hs' fun c hc l hl =>
        hknown c hc l (by simp [hl])
      exact ⟨ops, he, ht, .skip (by simp [Body.hop, hk]) hcode, hnamed⟩

theorem emits_linearize {k : BlockId} {mark : InstrId} {known : Site → Option UInt64} {h : Handle}
    {reg : Register} {slot : Slot} {b b' : Body} (hm : mark < b.instrs.size)
    (hrun : Lowering.linearize ⟨some k, some mark⟩ h reg b = (.ok slot, b'))
    (hs : ∀ l ∈ chain b.links h, ∀ s ∈ l.slot?, s < b.slots.size)
    (hknown : ∀ c, Grows b c → ∀ l ∈ chain b.links h, ∀ o, l.kind = .array o →
      c.constant? o = known (b.site o)) :
    ∃ ops, Emits k mark ops b b' ∧ SameTables b b' ∧
      Locates known (b.hops h) reg (ops.map b.action) slot ∧ ∀ op ∈ ops, op.Named b := by
  unfold Lowering.linearize at hrun
  unfold Locates
  by_cases hz : reg.arrayElems = 0
  · simp only [hz, if_true] at hrun ⊢
    cases hrun
    exact ⟨[], .refl hm, .refl b, ⟨rfl, rfl⟩, by simp⟩
  · simp only [hz, if_false] at hrun ⊢
    exact emits_addIndices (chain b.links h) hm hrun (by simp) hs hknown

end ShaderIR
