import Mathlib.Data.List.Nodup
import ShaderIR.Proofs.Emission

/-!
# Well-formed bodies

What an instruction names exists, an instruction stands in one block, and what is made later is new.
In a body in SSA form every value has one definition, which is recorded for it, and on every path
from the entry it is defined before it is read.
-/

set_option autoImplicit false

namespace ShaderIR

structure Op.Named (b : Body) (op : Op) : Prop where
  slots : ∀ s ∈ op.slots, s < b.slots.size
  derefs : ∀ h ∈ op.derefs, ∀ n ∈ h, n < b.links.size

namespace Op.Named

variable {b : Body}

theorem congr {c : Body} {op : Op} (h : op.Named b) (hs : c.slots = b.slots)
    (hl : c.links = b.links) : op.Named c :=
  ⟨hs ▸ h.slots, hl ▸ h.derefs⟩

theorem alu {op : AluOp} {srcs : List Operand} {v : Value} {mask : UInt8}
    (h : ∀ s ∈ srcs.filterMap Operand.slot?, s < b.slots.size) :
    (Op.alu op srcs (.value v) mask).Named b :=
  ⟨by simpa [Op.slots, Op.srcs, Op.slotDest?, Dest.slot?] using h, by simp [Op.derefs]⟩

theorem const {v : Value} {values : List UInt64} : (Op.const v values).Named b :=
  ⟨by simp [Op.slots, Op.srcs, Op.slotDest?], by simp [Op.derefs]⟩

theorem load {h : Handle} {v : Value} {n : Int} (hh : ∀ x ∈ h, x < b.links.size) :
    (Op.load h (.value v) n).Named b :=
  ⟨by simp [Op.slots, Op.srcs, Op.slotDest?, Dest.slot?], by simpa [Op.derefs] using hh⟩

theorem store {h : Handle} {v : Value} {mask : UInt8} (hh : ∀ x ∈ h, x < b.links.size) :
    (Op.store h (.value v) mask).Named b :=
  ⟨by simp [Op.slots, Op.srcs, Op.slotDest?, Operand.slot?], by simpa [Op.derefs] using hh⟩

end Op.Named

structure Action.Made (b : Body) (a : Action) : Prop where
  values : ∀ v ∈ a.values, v.serial < b.definers.size
  registers : ∀ r ∈ a.registers, r.serial < b.registerCount

structure Body.Rooted (b : Body) : Prop where
  indices : ∀ l ∈ b.links, ∀ s ∈ l.slot?, s < b.slots.size
  descending : Descending b.links

structure Body.Laid (b : Body) : Prop extends b.Rooted where
  once : b.placedInstrs.Nodup
  home : ∀ k ∈ b.layout, ∀ id ∈ b.held k, b.instrs[id]?.bind (·.block) = some k
  named : ∀ id ∈ b.placedInstrs, ∀ op ∈ b.op? id, op.Named b
  made : ∀ id ∈ b.placedInstrs, ∀ a ∈ b.action? id, a.Made b
  recorded : ∀ id, some id ∈ b.definers → id < b.instrs.size

def Body.Single (b : Body) : Prop :=
  ∀ id ∈ b.placedInstrs, ∀ a ∈ b.action? id, ∀ v ∈ a.result?, b.definer? v = some id

def Covered : (Value → Prop) → List Action → Prop
  | _, [] => True
  | K, a :: acts => (∀ v ∈ a.uses, K v) ∧ Covered (fun v => K v ∨ a.result? = some v) acts

/-- The form that the passes keep: each value has one definition, which is recorded for it, is
numbered below the counter of the body and comes before every read on every path from the entry. -/
structure Body.SSA (b : Body) : Prop where
  single : b.Single
  counted : ∀ id ∈ b.placedInstrs, ∀ a ∈ b.action? id, ∀ v ∈ a.values, v.index < b.valueCount
  covered : ∀ path, b.IsPath path → path.head? = b.layout[0]? →
    Covered (fun _ => False) (b.along path)

instance (b : Body) (op : Op) : Decidable (op.Named b) :=
  decidable_of_iff ((∀ s ∈ op.slots, s < b.slots.size) ∧
    ∀ h ∈ op.derefs, ∀ n ∈ h, n < b.links.size) ⟨fun h => ⟨h.1, h.2⟩, fun h => ⟨h.slots, h.derefs⟩⟩

instance (b : Body) (a : Action) : Decidable (a.Made b) :=
  decidable_of_iff ((∀ v ∈ a.values, v.serial < b.definers.size) ∧
    ∀ r ∈ a.registers, r.serial < b.registerCount)
    ⟨fun h => ⟨h.1, h.2⟩, fun h => ⟨h.values, h.registers⟩⟩

instance (b : Body) : Decidable b.Laid :=
  decidable_of_iff
    ((∀ l ∈ b.links, ∀ s ∈ l.slot?, s < b.slots.size) ∧ Descending b.links ∧
      b.placedInstrs.Nodup ∧
      (∀ k ∈ b.layout, ∀ id ∈ b.held k, b.instrs[id]?.bind (·.block) = some k) ∧
      (∀ id ∈ b.placedInstrs, ∀ op ∈ b.op? id, op.Named b) ∧
      (∀ id ∈ b.placedInstrs, ∀ a ∈ b.action? id, a.Made b) ∧
      ∀ d ∈ b.definers, ∀ id ∈ d, id < b.instrs.size) <| by
    constructor
    · rintro ⟨hi, hd, ho, hh, hn, hm, hr⟩
      exact ⟨⟨hi, hd⟩, ho, hh, hn, hm, fun id hid => hr (some id) hid id rfl⟩
    · intro h
      refine ⟨h.indices, h.descending, h.once, h.home, h.named, h.made, ?_⟩
      rintro d hd id rfl
      exact h.recorded id hd

instance (b : Body) : Decidable b.Single :=
  inferInstanceAs (Decidable (∀ id ∈ b.placedInstrs, ∀ a ∈ b.action? id, ∀ v ∈ a.result?,
    b.definer? v = some id))

instance Covered.decidable : (K : Value → Prop) → [DecidablePred K] → (acts : List Action) →
    Decidable (Covered K acts)
  | _, _, [] => isTrue trivial
  | K, _, a :: acts =>
    have := Covered.decidable (fun v => K v ∨ a.result? = some v) acts
    inferInstanceAs (Decidable ((∀ v ∈ a.uses, K v) ∧ _))

namespace Body.Laid

variable {b : Body}

theorem exists_op (h : b.Laid) {k : BlockId} (hk : k ∈ b.layout) {id : InstrId}
    (hid : id ∈ b.held k) : ∃ op, b.instrs[id]? = some ⟨op, some k⟩ := by
  obtain ⟨i, hi, hb⟩ := Option.bind_eq_some_iff.mp (h.home k hk id hid)
  exact ⟨i.op, by rw [hi, ← hb]⟩

theorem beforeInstr (h : b.Laid) {k : BlockId} (hk : k ∈ b.layout) {id : InstrId}
    (hid : id ∈ b.held k) : Cursor.beforeInstr b id = ⟨some k, some id⟩ := by
  simp [Cursor.beforeInstr, h.home k hk id hid]

theorem lt_size (h : b.Laid) {id : InstrId} (hid : id ∈ b.placedInstrs) : id < b.instrs.size := by
  obtain ⟨k, hk, hid⟩ := mem_placedInstrs.mp hid
  obtain ⟨op, hop⟩ := h.exists_op hk hid
  exact (Array.getElem?_eq_some_iff.mp hop).1

theorem exists_action (h : b.Laid) {id : InstrId} (hid : id ∈ b.placedInstrs) :
    ∃ a, b.action? id = some a := by
  obtain ⟨k, hk, hid⟩ := mem_placedInstrs.mp hid
  obtain ⟨op, hop⟩ := h.exists_op hk hid
  exact ⟨b.action op, by simp [action?, op?, hop]⟩

theorem definer_lt (h : b.Laid) {v : Value} {id : InstrId} (hid : b.definer? v = some id) :
    id < b.instrs.size :=
  h.recorded id (Array.mem_of_getElem? (Option.join_eq_some_iff.mp hid))

theorem block_unique (h : b.Laid) {j k : BlockId} (hj : j ∈ b.layout) (hk : k ∈ b.layout)
    {id : InstrId} (hidj : id ∈ b.held j) (hidk : id ∈ b.held k) : j = k := by
  have := (h.home j hj id hidj).symm.trans (h.home k hk id hidk)
  simpa using this

theorem nodup_held (h : b.Laid) {k : BlockId} (hk : k ∈ b.layout) : (b.held k).Nodup := by
  have hn := h.once
  rw [placedInstrs_eq, List.nodup_flatMap] at hn
  exact hn.1 k (Array.mem_toList_iff.mpr hk)

end Body.Laid

namespace Grows

variable {b b' : Body} (hg : Grows b b')

include hg

theorem site {o : Operand} (h : ∀ s ∈ o.slot?, s < b.slots.size) : b'.site o = b.site o := by
  cases o with
  | slot s => simp [Body.site, hg.slot (h s rfl)]
  | _ => rfl

theorem target {d : Dest} (h : ∀ s ∈ d.slot?, s < b.slots.size) : b'.target d = b.target d := by
  cases d with
  | slot s => simp [Body.target, hg.slot (h s rfl)]
  | _ => rfl

theorem sites {os : List Operand} (h : ∀ s ∈ os.filterMap Operand.slot?, s < b.slots.size) :
    os.map b'.site = os.map b.site := by
  apply List.map_congr_left
  intro o ho
  exact hg.site fun s hs => h s (List.mem_filterMap.mpr ⟨o, ho, hs⟩)

theorem hop {l : Link} (h : ∀ s ∈ l.slot?, s < b.slots.size) : b'.hop l = b.hop l := by
  cases hk : l.kind with
  | array index => simp [Body.hop, hk, hg.site (o := index) (by simpa [Link.slot?, hk] using h)]
  | _ => simp [Body.hop, hk]

theorem hops (hl : b.Rooted) {h : Handle} (hh : ∀ n ∈ h, n < b.links.size) :
    b'.hops h = b.hops h := by
  cases h with
  | none => simp [Body.hops, chain]
  | some n =>
    rw [Body.hops, Body.hops, chain_extend hl.descending (hh n rfl) hg.links_le hg.links]
    apply List.map_congr_left
    intro l hmem
    exact hg.hop (hl.indices l (mem_of_mem_chain hmem))

/-- An operation that names what exists does the same after the tables grew. -/
theorem action (hl : b.Rooted) {op : Op} (ho : op.Named b) : b'.action op = b.action op := by
  have hs := ho.slots
  simp only [Op.slots, List.mem_append] at hs
  cases op with
  | alu op srcs dest mask =>
    have hsrcs : srcs.map b'.site = srcs.map b.site := hg.sites fun s h => hs s (.inl h)
    simp only [Body.action, hsrcs,
      hg.target (d := dest) fun s h => hs s (.inr (by simpa [Op.slotDest?] using h))]
  | const v values => rfl
  | load h dest n =>
    simp only [Body.action, hg.hops hl (ho.derefs h (by simp [Op.derefs])),
      hg.target (d := dest) fun s h => hs s (.inr (by simpa [Op.slotDest?] using h))]
  | store h v mask =>
    simp only [Body.action, hg.hops hl (ho.derefs h (by simp [Op.derefs])),
      hg.site (o := v) fun s h => hs s (.inl (by simpa [Op.srcs] using h))]
  | copy d s =>
    simp only [Body.action, hg.hops hl (ho.derefs d (by simp [Op.derefs])),
      hg.hops hl (ho.derefs s (by simp [Op.derefs]))]
  | intrinsic name srcs dest =>
    have hd : dest.map b'.target = dest.map b.target := by
      cases dest with
      | none => rfl
      | some d =>
        simp [hg.target (d := d) fun s h => hs s (.inr (by simpa [Op.slotDest?] using h))]
    have hsrcs : srcs.map b'.site = srcs.map b.site := hg.sites fun s h => hs s (.inl h)
    simp only [Body.action, hsrcs, hd]

theorem action? (hl : b.Laid) {id : InstrId} (hid : id ∈ b.placedInstrs) :
    b'.action? id = b.action? id := by
  rw [Body.action?, Body.action?, hg.op? (hl.lt_size hid)]
  cases ho : b.op? id with
  | none => rfl
  | some op => simp [hg.action hl.toRooted (hl.named id hid op ho)]

theorem named {op : Op} (ho : op.Named b) : op.Named b' :=
  ⟨fun s hs => Nat.lt_of_lt_of_le (ho.slots s hs) hg.slots_le,
    fun h hh n hn => Nat.lt_of_lt_of_le (ho.derefs h hh n hn) hg.links_le⟩

theorem made {a : Action} (ha : a.Made b) : a.Made b' :=
  ⟨fun v hv => Nat.lt_of_lt_of_le (ha.values v hv) hg.definers_le,
    fun r hr => Nat.lt_of_lt_of_le (ha.registers r hr) hg.registerCount_le⟩

end Grows

namespace Covered

variable {K K' : Value → Prop} {acts acts' : List Action}

@[simp] theorem nil : Covered K [] := trivial

theorem append_iff : Covered K (acts ++ acts') ↔
    Covered K acts ∧ Covered (fun v => K v ∨ ∃ a ∈ acts, a.result? = some v) acts' := by
  induction acts generalizing K with
  | nil => simp [Covered]
  | cons a acts ih =>
    simp only [List.cons_append, Covered, ih, List.mem_cons, exists_eq_or_imp, or_assoc, and_assoc]

theorem known (h : Covered K acts) {a : Action} (ha : a ∈ acts) {v : Value} (hv : v ∈ a.uses) :
    K v ∨ ∃ x ∈ acts, x.result? = some v := by
  induction acts generalizing K with
  | nil => simp at ha
  | cons x acts ih =>
    rcases List.mem_cons.mp ha with rfl | ha
    · exact .inl (h.1 v hv)
    · rcases ih h.2 ha with (hK | hx) | ⟨y, hy, hr⟩
      · exact .inl hK
      · exact .inr ⟨x, by simp, hx⟩
      · exact .inr ⟨y, by simp [hy], hr⟩

/-- Redirecting what is read keeps the order of definitions and reads. -/
theorem mapUses (h : Covered K acts) {f : Value → Value} (hK : ∀ v, K v → K' (f v))
    (hf : ∀ a ∈ acts, ∀ v, a.result? = some v → f v = v) :
    Covered K' (acts.map (Action.mapUses f)) := by
  induction acts generalizing K K' with
  | nil => trivial
  | cons a acts ih =>
    refine ⟨?_, ih h.2 ?_ fun x hx => hf x (by simp [hx])⟩
    · intro v hv
      rw [Action.mapUses, Action.uses_rename] at hv
      obtain ⟨u, hu, rfl⟩ := List.mem_map.mp hv
      exact hK u (h.1 u hu)
    · intro v hv
      rcases hv with hv | hv
      · exact .inl (hK v hv)
      · rw [hf a (by simp) v hv]
        exact .inr (by simp [Action.mapUses, Action.result?_rename, hv])

end Covered

end ShaderIR
