import Mathlib.Tactic.Linarith
import ShaderIR.CopySplitting
import ShaderIR.Proofs.Pass

/-!
# One step of splitting

A copy gives way to the loads and stores of its vectors and scalars. They come from a queue of
transfers between places of one type, which is worked off from its front: an array leaves a transfer
for each of its elements behind, a struct for each of its fields, and a vector or scalar is loaded
and stored.
-/

set_option autoImplicit false

namespace ShaderIR

open CopySplitting

def elementHops (hops : List Hop) (v : Value) : List Hop :=
  ⟨.array (.value v), (hopsType hops).elementType, hopsMode hops⟩ :: hops

def fieldHops (hops : List Hop) (f : Nat) : List Hop :=
  ⟨.struct f, (hopsType hops).fieldType f, hopsMode hops⟩ :: hops

structure Transfer where
  dst : List Hop
  src : List Hop

namespace Transfer

def type (t : Transfer) : Ty := hopsType t.dst

def element (t : Transfer) (v : Value) : Transfer := ⟨elementHops t.dst v, elementHops t.src v⟩

def field (t : Transfer) (f : Nat) : Transfer := ⟨fieldHops t.dst f, fieldHops t.src f⟩

structure Even (t : Transfer) : Prop where
  same : hopsType t.src = t.type
  complete : t.type.complete = true

theorem Even.element {t : Transfer} (h : t.Even) {elem : Ty} {n : Int} (ht : t.type = .array elem n)
    (v : Value) : (t.element v).Even := by
  have htype : (t.element v).type = t.type.elementType := rfl
  refine ⟨congrArg Ty.elementType h.same, ?_⟩
  have hcomplete := h.complete
  rw [ht] at hcomplete
  rw [htype, ht]
  exact hcomplete

theorem Even.field {t : Transfer} (h : t.Even) {name : String} {fields : List (String × Ty)}
    (ht : t.type = .struct name fields) {f : Nat} (hf : f < fields.length) : (t.field f).Even := by
  have htype : (t.field f).type = t.type.fieldType f := rfl
  refine ⟨congrArg (Ty.fieldType · f) h.same, ?_⟩
  have hcomplete := h.complete
  rw [ht] at hcomplete
  rw [htype, ht]
  exact Ty.complete_field hcomplete hf

end Transfer

def indexCode (vs : List Value) : List Action :=
  vs.zipIdx.map fun (v, i) => .const v [Cursor.word i]

inductive Unrolls : List Transfer → List Action → Prop
  | done : Unrolls [] []
  | array {t : Transfer} {queue : List Transfer} {elem : Ty} {n : Int} {vs : List Value}
      {code : List Action} (ht : t.type = .array elem n) (hv : vs.length = n.toNat)
      (hb : ∀ v ∈ vs, v.bits = 32) (h : Unrolls (queue ++ vs.map t.element) code) :
      Unrolls (t :: queue) (indexCode vs ++ code)
  | struct {t : Transfer} {queue : List Transfer} {name : String} {fields : List (String × Ty)}
      {code : List Action} (ht : t.type = .struct name fields)
      (h : Unrolls (queue ++ (List.range fields.length).map t.field) code) :
      Unrolls (t :: queue) code
  | leaf {t : Transfer} {queue : List Transfer} {v : Value} {code : List Action}
      (ht : t.type.isVectorOrScalar = true) (hv : v.bits = t.type.bits)
      (hn : v.components = t.type.components) (h : Unrolls queue code) :
      Unrolls (t :: queue) (.load t.src (.value v) t.type.components ::
        .store t.dst (.value v) (fullMask t.type.components) :: code)

theorem hopsType_hops (b : Body) (h : Handle) : hopsType (b.hops h) = derefType b.links h := by
  rw [Body.hops, hopsType_hop, headType_chain]

/-- A link that is added behind its parent leads on from the chain of its parent. -/
theorem Body.Rooted.addLink {b : Body} (hr : b.Rooted) {link : Link}
    (hp : ∀ p ∈ link.parent, p < b.links.size) (hs : ∀ s ∈ link.slot?, s < b.slots.size) :
    (b.addLink link).Rooted ∧
      (b.addLink link).hops (some b.links.size) = b.hop link :: b.hops link.parent := by
  have hd : Descending (b.addLink link).links := by
    intro n l hl p hp'
    simp only [Body.addLink, Array.getElem?_push] at hl
    split at hl
    · rename_i hn
      cases hl
      rw [hn]
      exact hp p hp'
    · exact hr.descending n l hl p hp'
  have hrooted : (b.addLink link).Rooted := by
    refine ⟨?_, hd⟩
    intro l hl
    simp only [Body.addLink, Array.mem_push] at hl
    rcases hl with hl | rfl
    · exact hr.indices l hl
    · exact hs
  have hlast : (b.addLink link).links[b.links.size]? = some link := by simp [Body.addLink]
  refine ⟨hrooted, ?_⟩
  rw [Body.hops, chain_some hd hlast, List.map_cons]
  exact congrArg _ ((Grows.addLink b link).hops hr hp)

structure EmitsLinks (k : BlockId) (mark : InstrId) (ops : List Op) (b b' : Body) : Prop
    extends Emits k mark ops b b' where
  rooted : b'.Rooted
  same_slots : b'.slots = b.slots
  same_registers : b'.registerCount = b.registerCount
  plain : PlainArena b.links → PlainArena b'.links

namespace EmitsLinks

variable {k : BlockId} {mark : InstrId} {ops ops' : List Op} {b b' b'' : Body}

theorem refl (hm : mark < b.instrs.size) (hr : b.Rooted) : EmitsLinks k mark [] b b :=
  ⟨.refl hm, hr, rfl, rfl, id⟩

theorem trans (h : EmitsLinks k mark ops b b') (h' : EmitsLinks k mark ops' b' b'') :
    EmitsLinks k mark (ops ++ ops') b b'' :=
  ⟨h.toEmits.trans h'.toEmits, h'.rooted, h'.same_slots.trans h.same_slots,
    h'.same_registers.trans h.same_registers, h'.plain ∘ h.plain⟩

theorem mark_lt' (h : EmitsLinks k mark ops b b') : mark < b'.instrs.size :=
  Nat.lt_of_lt_of_le h.mark_lt h.instrs_le

theorem ofTables {op : Op} (h : Emits k mark [op] b b') (ht : SameTables b b') (hr : b.Rooted) :
    EmitsLinks k mark [op] b b' :=
  ⟨h, ⟨by rw [ht.links, ht.slots]; exact hr.indices, by rw [ht.links]; exact hr.descending⟩,
    ht.slots, ht.registerCount, by rw [ht.links]; exact id⟩

theorem link (hm : mark < b.instrs.size) (hr : b.Rooted) {l : Link}
    (hp : ∀ p ∈ l.parent, p < b.links.size) (hs : ∀ s ∈ l.slot?, s < b.slots.size)
    (hplain : PlainArena b.links → PlainArena (b.links.push l)) :
    EmitsLinks k mark [] b (b.addLink l) :=
  ⟨.addLink hm l, (hr.addLink hp hs).1, rfl, rfl, hplain⟩

end EmitsLinks

theorem extend_ok {step : ExceptT LinkError Edit Handle} {b b' : Body} {h : Handle}
    (hrun : extend step b = (.ok h, b')) : step b = (.ok h, b') := by
  unfold extend at hrun
  split at hrun
  · rename_i hstep
    cases hrun
    exact hstep
  · cases hrun

theorem hopsMode_hops {b : Body} {n : Nat} {up : Link} (h : b.links[n]? = some up) :
    hopsType (b.hops (some n)) = up.type ∧ hopsMode (b.hops (some n)) = up.mode := by
  have hh := head?_chain b.links (some n)
  simp only [Option.bind_some, h] at hh
  cases hc : chain b.links (some n) with
  | nil => simp [hc] at hh
  | cons l rest =>
    obtain rfl : l = up := by simpa [hc] using hh
    simp [Body.hops, hc, hopsType, hopsMode, Body.hop]

section

variable {k : BlockId} {mark : InstrId} {b b' : Body}

theorem emitsLinks_element {parent h : Handle} {v : Value} (hm : mark < b.instrs.size)
    (hr : b.Rooted) (hrun : extend (Body.arrayDeref parent (.value v)) b = (.ok h, b')) :
    EmitsLinks k mark [] b b' ∧ b'.hops h = elementHops (b.hops parent) v ∧
      ∀ n ∈ h, n < b'.links.size := by
  obtain ⟨link, hl, rfl, rfl⟩ := arrayDeref_ok (extend_ok hrun)
  obtain ⟨n, up, rfl, hn, -, rfl⟩ := arrayLink_ok hl
  have hp : ∀ p ∈ (some n : Handle), p < b.links.size := by
    rintro p ⟨⟩
    exact (Array.getElem?_eq_some_iff.mp hn).1
  have hs : ∀ s ∈ (⟨.array (.value v), some n, up.type.elementType, up.mode⟩ : Link).slot?,
      s < b.slots.size := by
    simp [Link.slot?, Operand.slot?]
  obtain ⟨htype, hmode⟩ := hopsMode_hops hn
  refine ⟨.link hm hr hp hs fun h => h.array hl, ?_, by simp [Body.addLink]⟩
  rw [(hr.addLink hp hs).2, elementHops, htype, hmode]
  rfl

theorem emitsLinks_field {parent h : Handle} {f : Nat} (hm : mark < b.instrs.size)
    (hr : b.Rooted) (hrun : extend (Body.structDeref parent f) b = (.ok h, b')) :
    EmitsLinks k mark [] b b' ∧ b'.hops h = fieldHops (b.hops parent) f ∧
      ∀ n ∈ h, n < b'.links.size := by
  obtain ⟨link, hl, rfl, rfl⟩ := structDeref_ok (extend_ok hrun)
  obtain ⟨n, up, rfl, hn, -, rfl⟩ := structLink_ok hl
  have hp : ∀ p ∈ (some n : Handle), p < b.links.size := by
    rintro p ⟨⟩
    exact (Array.getElem?_eq_some_iff.mp hn).1
  have hs : ∀ s ∈ (⟨.struct f, some n, up.type.fieldType f, up.mode⟩ : Link).slot?,
      s < b.slots.size := by
    simp [Link.slot?]
  obtain ⟨htype, hmode⟩ := hopsMode_hops hn
  refine ⟨.link hm hr hp hs fun h => h.struct hl, ?_, by simp [Body.addLink]⟩
  rw [fieldHops, htype, hmode]
  exact (hr.addLink hp hs).2

end

structure Stands (b : Body) (p : Pending) (t : Transfer) : Prop where
  dst : b.hops p.dst = t.dst
  src : b.hops p.src = t.src
  dst_lt : ∀ n ∈ p.dst, n < b.links.size
  src_lt : ∀ n ∈ p.src, n < b.links.size
  type : p.type = t.type

theorem Stands.mono {b b' : Body} {p : Pending} {t : Transfer} (h : Stands b p t)
    (hr : b.Rooted) (hg : Grows b b') : Stands b' p t where
  dst := (hg.hops hr h.dst_lt).trans h.dst
  src := (hg.hops hr h.src_lt).trans h.src
  dst_lt n hn := Nat.lt_of_lt_of_le (h.dst_lt n hn) hg.links_le
  src_lt n hn := Nat.lt_of_lt_of_le (h.src_lt n hn) hg.links_le
  type := h.type

section

variable {k : BlockId} {mark : InstrId} {b b' : Body} {p q : Pending} {t : Transfer}

theorem emitsLinks_transfer_element {i : Nat} (hm : mark < b.instrs.size) (hr : b.Rooted)
    (hs : Stands b p t) (hrun : element ⟨some k, some mark⟩ p i b = (.ok q, b')) :
    ∃ v, v.bits = 32 ∧ EmitsLinks k mark [.const v [Cursor.word i]] b b' ∧
      Stands b' q (t.element v) := by
  obtain ⟨v, c, hv, hrun⟩ := exceptT_ok hrun
  obtain ⟨dst, d, hdst, hrun⟩ := exceptT_ok hrun
  obtain ⟨src, e, hsrc, hrun⟩ := exceptT_ok hrun
  obtain ⟨rfl, rfl⟩ := pure_ok hrun
  obtain ⟨c', himm, he, ht⟩ := emits_imm (k := k) hm i 32
  obtain ⟨rfl, rfl⟩ := Prod.mk.inj ((lift_ok hv).symm.trans himm)
  have hc : EmitsLinks k mark [.const (b.fresh 1 32) [Cursor.word i]] b c := .ofTables he ht hr
  obtain ⟨hd, hdhops, hdlt⟩ := emitsLinks_element (k := k) hc.mark_lt' hc.rooted hdst
  obtain ⟨hs', hshops, hslt⟩ := emitsLinks_element (k := k) hd.mark_lt' hd.rooted hsrc
  refine ⟨_, rfl, (hc.trans hd).trans hs', ?_⟩
  have hup := hs.mono hr hc.toGrows
  exact {
    dst := by rw [hs'.toGrows.hops hd.rooted hdlt, hdhops, hup.dst]; rfl
    src := by rw [hshops, (hup.mono hc.rooted hd.toGrows).src]; rfl
    dst_lt := fun n hn => Nat.lt_of_lt_of_le (hdlt n hn) hs'.links_le
    src_lt := hslt
    type := by rw [hs.type]; rfl }

theorem emitsLinks_transfer_field {f : Nat} (hm : mark < b.instrs.size) (hr : b.Rooted)
    (hs : Stands b p t) (hrun : field p f b = (.ok q, b')) :
    EmitsLinks k mark [] b b' ∧ Stands b' q (t.field f) := by
  obtain ⟨dst, d, hdst, hrun⟩ := exceptT_ok hrun
  obtain ⟨src, e, hsrc, hrun⟩ := exceptT_ok hrun
  obtain ⟨rfl, rfl⟩ := pure_ok hrun
  obtain ⟨hd, hdhops, hdlt⟩ := emitsLinks_field (k := k) hm hr hdst
  obtain ⟨hs', hshops, hslt⟩ := emitsLinks_field (k := k) hd.mark_lt' hd.rooted hsrc
  refine ⟨hd.trans hs', ?_⟩
  exact {
    dst := by rw [hs'.toGrows.hops hd.rooted hdlt, hdhops, hs.dst]; rfl
    src := by rw [hshops, (hs.mono hr hd.toGrows).src]; rfl
    dst_lt := fun n hn => Nat.lt_of_lt_of_le (hdlt n hn) hs'.links_le
    src_lt := hslt
    type := by rw [hs.type]; rfl }

structure Level (k : BlockId) (mark : InstrId) (b b' : Body) (ops : List Op) (qs : List Pending)
    (ts : List Transfer) : Prop extends EmitsLinks k mark ops b b' where
  stands : List.Forall₂ (Stands b') qs ts
  named : ∀ op ∈ ops, op.Named b'

theorem Level.cons {c : Body} {ops ops' : List Op} {qs : List Pending} {u : Transfer}
    {ts : List Transfer} (h : EmitsLinks k mark ops b c) (hq : Stands c q u)
    (hn : ∀ op ∈ ops, op.Named c) (h' : Level k mark c b' ops' qs ts) :
    Level k mark b b' (ops ++ ops') (q :: qs) (u :: ts) := by
  refine ⟨h.trans h'.toEmitsLinks, .cons (hq.mono h.rooted h'.toGrows) h'.stands, ?_⟩
  intro op hop
  rcases List.mem_append.mp hop with hop | hop
  · exact h'.toGrows.named (hn op hop)
  · exact h'.named op hop

theorem level_elements {s n : Nat} {qs : List Pending} (hm : mark < b.instrs.size) (hr : b.Rooted)
    (hs : Stands b p t)
    (hrun : (List.range' s n).mapM (element ⟨some k, some mark⟩ p) b = (.ok qs, b')) :
    ∃ vs : List Value, vs.length = n ∧ (∀ v ∈ vs, v.bits = 32) ∧
      Level k mark b b' ((vs.zipIdx s).map fun (v, i) => .const v [Cursor.word i]) qs
        (vs.map t.element) := by
  induction n generalizing s b qs with
  | zero =>
    obtain ⟨rfl, rfl⟩ := pure_ok (by simpa using hrun)
    exact ⟨[], rfl, by simp, .refl hm hr, .nil, by simp⟩
  | succ n ih =>
    rw [List.range'_succ, List.mapM_cons] at hrun
    obtain ⟨q, c, hq, hrun⟩ := exceptT_ok hrun
    obtain ⟨qs, d, hqs, hrun⟩ := exceptT_ok hrun
    obtain ⟨rfl, rfl⟩ := pure_ok hrun
    obtain ⟨v, hv, he, hst⟩ := emitsLinks_transfer_element hm hr hs hq
    obtain ⟨vs, hlen, hvs, hlevel⟩ := ih he.mark_lt' he.rooted (hs.mono hr he.toGrows) hqs
    refine ⟨v :: vs, by simp [hlen], by simpa using ⟨hv, hvs⟩, ?_⟩
    exact Level.cons he hst (by simp [Op.Named.const]) hlevel

theorem level_fields {s n : Nat} {qs : List Pending} (hm : mark < b.instrs.size) (hr : b.Rooted)
    (hs : Stands b p t) (hrun : (List.range' s n).mapM (field p) b = (.ok qs, b')) :
    Level k mark b b' [] qs ((List.range' s n).map t.field) := by
  induction n generalizing s b qs with
  | zero =>
    obtain ⟨rfl, rfl⟩ := pure_ok (by simpa using hrun)
    exact ⟨.refl hm hr, .nil, by simp⟩
  | succ n ih =>
    rw [List.range'_succ, List.mapM_cons] at hrun
    obtain ⟨q, c, hq, hrun⟩ := exceptT_ok hrun
    obtain ⟨qs, d, hqs, hrun⟩ := exceptT_ok hrun
    obtain ⟨rfl, rfl⟩ := pure_ok hrun
    obtain ⟨he, hst⟩ := emitsLinks_transfer_field (k := k) hm hr hs hq
    exact Level.cons he hst (by simp) (ih he.mark_lt' he.rooted (hs.mono hr he.toGrows) hqs)

theorem level_leaf (hm : mark < b.instrs.size) (hr : b.Rooted) (hs : Stands b p t)
    (hrun : leaf ⟨some k, some mark⟩ p b = (.ok (), b')) :
    ∃ v : Value, v.bits = t.type.bits ∧ v.components = t.type.components ∧ Level k mark b b'
      [.load p.src (.value v) t.type.components,
        .store p.dst (.value v) (fullMask t.type.components)] [] [] := by
  obtain ⟨v, c, hload, hstore⟩ := exceptT_ok hrun
  obtain ⟨c', hload', he, ht⟩ := emits_load (k := k) hm p.src p.type.components p.type.bits
  obtain ⟨rfl, rfl⟩ := Prod.mk.inj ((lift_ok hload).symm.trans hload')
  have hc := EmitsLinks.ofTables he ht hr
  obtain ⟨d, hstore', he', ht'⟩ := emits_store (k := k) hc.mark_lt' p.dst
    (.value (b.fresh p.type.components p.type.bits)) (fullMask p.type.components)
  obtain ⟨-, rfl⟩ := Prod.mk.inj ((lift_ok hstore).symm.trans hstore')
  have hd := hc.trans (.ofTables he' ht' hc.rooted)
  have hup := hs.mono hr hd.toGrows
  rw [hs.type] at hd
  refine ⟨_, rfl, rfl, hd, .nil, ?_⟩
  intro op hop
  simp only [List.mem_cons, List.not_mem_nil, or_false] at hop
  rcases hop with rfl | rfl
  · exact .load hup.src_lt
  · exact .store hup.dst_lt

end

theorem Ty.weight_pos (t : Ty) : 1 ≤ t.weight := by
  cases t <;> simp [Ty.weight]

def queueWeight (ts : List Transfer) : Nat := (ts.map (·.type.weight)).sum

theorem sum_fieldTypes (name : String) (fields : List (String × Ty)) :
    ((List.range fields.length).map fun i : Nat =>
      ((Ty.struct name fields).fieldType i).weight).sum =
      Ty.fieldsWeight fields := by
  induction fields with
  | nil => rfl
  | cons f fields ih =>
    rw [List.length_cons, List.range_succ_eq_map, List.map_cons, List.sum_cons, List.map_map,
      Ty.fieldsWeight, ← ih]
    rfl

theorem queueWeight_elements {t : Transfer} {elem : Ty} {n : Int} {vs : List Value}
    (ht : t.type = .array elem n) (hv : vs.length = n.toNat) :
    queueWeight (vs.map t.element) + 1 = t.type.weight := by
  have helem : ∀ v, (t.element v).type = elem := by
    intro v
    show (t.type.elementType) = elem
    rw [ht]
    rfl
  simp only [queueWeight, List.map_map, Function.comp_def, helem, ht, Ty.weight, ← hv]
  simp [Nat.add_comm]

theorem queueWeight_fields {t : Transfer} {name : String} {fields : List (String × Ty)}
    (ht : t.type = .struct name fields) :
    queueWeight ((List.range fields.length).map t.field) + 1 = t.type.weight := by
  have hfield : ∀ f : Nat, (t.field f).type = (Ty.struct name fields).fieldType f := by
    intro f
    rw [← ht]
    rfl
  simp only [queueWeight, List.map_map, Function.comp_def, hfield, sum_fieldTypes, ht, Ty.weight]
  exact Nat.add_comm _ _

section

variable {k : BlockId} {mark : InstrId} {b b' : Body} {p : Pending} {t : Transfer}

/-- One pending copy is worked off: it weighs one more than what it leaves, and code for what it
leaves completes the code for it. -/
structure Expansion (k : BlockId) (mark : InstrId) (b b' : Body) (t : Transfer) (ops : List Op)
    (qs : List Pending) (ts : List Transfer) : Prop extends Level k mark b b' ops qs ts where
  weight : queueWeight ts + 1 = t.type.weight
  unrolls : ∀ queue code, Unrolls (queue ++ ts) code →
    Unrolls (t :: queue) (ops.map b'.action ++ code)
  even : t.Even → ∀ u ∈ ts, u.Even

theorem expansion_leaf (hm : mark < b.instrs.size) (hr : b.Rooted) (hs : Stands b p t)
    (ht : t.type.isVectorOrScalar = true)
    (hrun : leaf ⟨some k, some mark⟩ p b = (.ok (), b')) :
    ∃ ops, Expansion k mark b b' t ops [] [] := by
  obtain ⟨v, hv, hn, hlevel⟩ := level_leaf hm hr hs hrun
  refine ⟨_, hlevel, ?_, fun queue code h => ?_, by simp⟩
  · cases htype : t.type <;> simp_all [Ty.isVectorOrScalar, Ty.weight, queueWeight]
  · have hup := hs.mono hr hlevel.toGrows
    have hcode := Unrolls.leaf ht hv hn (by simpa using h)
    rwa [← hup.src, ← hup.dst] at hcode

theorem expansion {qs : List Pending} (hm : mark < b.instrs.size) (hr : b.Rooted)
    (hs : Stands b p t) (hrun : expand ⟨some k, some mark⟩ p b = (.ok qs, b')) :
    ∃ ops ts, Expansion k mark b b' t ops qs ts := by
  unfold expand at hrun
  rw [hs.type] at hrun
  cases ht : t.type with
  | absent =>
    rw [ht] at hrun
    cases hrun
  | array elem n =>
    simp only [ht, List.range_eq_range'] at hrun
    obtain ⟨vs, hlen, hvs, hlevel⟩ := level_elements hm hr hs hrun
    refine ⟨_, _, hlevel, queueWeight_elements ht hlen, fun queue code h => ?_, fun h u hu => ?_⟩
    · simpa [indexCode, Body.action, Function.comp_def] using Unrolls.array ht hlen hvs h
    · obtain ⟨v, -, rfl⟩ := List.mem_map.mp hu
      exact h.element ht v
  | struct name fields =>
    simp only [ht, List.range_eq_range'] at hrun
    have hlevel := level_fields (k := k) hm hr hs hrun
    rw [← List.range_eq_range'] at hlevel
    refine ⟨_, _, hlevel, queueWeight_fields ht, fun queue code h => .struct ht h, fun h u hu => ?_⟩
    obtain ⟨f, hf, rfl⟩ := List.mem_map.mp hu
    exact h.field ht (List.mem_range.mp hf)
  | scalar base =>
    simp only [ht] at hrun
    obtain ⟨_, c, hl, hrun⟩ := exceptT_ok hrun
    obtain ⟨rfl, rfl⟩ := pure_ok hrun
    obtain ⟨ops, h⟩ := expansion_leaf hm hr hs (by simp [ht, Ty.isVectorOrScalar]) hl
    exact ⟨ops, [], h⟩
  | vector base n =>
    simp only [ht] at hrun
    obtain ⟨_, c, hl, hrun⟩ := exceptT_ok hrun
    obtain ⟨rfl, rfl⟩ := pure_ok hrun
    obtain ⟨ops, h⟩ := expansion_leaf hm hr hs (by simp [ht, Ty.isVectorOrScalar]) hl
    exact ⟨ops, [], h⟩

/-- The weight of the queue is fuel enough. -/
theorem drained {fuel : Nat} {qs : List Pending} {ts : List Transfer}
    (hm : mark < b.instrs.size) (hr : b.Rooted) (hs : List.Forall₂ (Stands b) qs ts)
    (hw : queueWeight ts ≤ fuel) (hrun : drain ⟨some k, some mark⟩ fuel qs b = (.ok (), b')) :
    ∃ ops, EmitsLinks k mark ops b b' ∧ (∀ op ∈ ops, op.Named b') ∧
      Unrolls ts (ops.map b'.action) := by
  induction fuel generalizing qs ts b with
  | zero =>
    cases hs with
    | nil =>
      obtain ⟨-, rfl⟩ := pure_ok hrun
      exact ⟨[], .refl hm hr, by simp, .done⟩
    | @cons _ t _ _ _ _ =>
      have := t.type.weight_pos
      simp [queueWeight] at hw
      omega
  | succ fuel ih =>
    cases hs with
    | nil =>
      obtain ⟨-, rfl⟩ := pure_ok hrun
      exact ⟨[], .refl hm hr, by simp, .done⟩
    | @cons q t qs ts hq hqs =>
      obtain ⟨more, c, hexp, hrun⟩ := exceptT_ok hrun
      obtain ⟨ops, us, he⟩ := expansion hm hr hq hexp
      have hqueue : List.Forall₂ (Stands c) (qs ++ more) (ts ++ us) :=
        List.rel_append (hqs.imp fun _ _ h => h.mono hr he.toGrows) he.stands
      have hweight : queueWeight (ts ++ us) ≤ fuel := by
        have := he.weight
        simp only [queueWeight, List.map_cons, List.sum_cons, List.map_append,
          List.sum_append] at hw this ⊢
        omega
      obtain ⟨ops', he', hn, hcode⟩ := ih he.mark_lt' he.rooted hqueue hweight hrun
      refine ⟨ops ++ ops', he.toEmitsLinks.trans he', ?_, ?_⟩
      · intro op hop
        rcases List.mem_append.mp hop with hop | hop
        · exact he'.toGrows.named (he.named op hop)
        · exact hn op hop
      · have hsame : ops.map b'.action = ops.map c.action :=
          List.map_congr_left fun op hop => he'.toGrows.action he.rooted (he.named op hop)
        rw [List.map_append, hsame]
        exact he.unrolls ts _ hcode

end

def Transfer.hops (t : Transfer) : List Hop := t.dst ++ t.src

theorem mem_uses_copy {dst src : List Hop} {hop : Hop} (h : hop ∈ (⟨dst, src⟩ : Transfer).hops)
    {v : Value} (hv : v ∈ hop.uses) : v ∈ (Action.copy dst src).uses := by
  simpa [Action.uses, Action.srcs, Action.dest?, Action.chains, or_and_right, exists_or]
    using (List.mem_append.mp h).imp (fun hh => ⟨hop, hh, hv⟩) fun hh => ⟨hop, hh, hv⟩

theorem mem_registers_copy {dst src : List Hop} {hop : Hop}
    (h : hop ∈ (⟨dst, src⟩ : Transfer).hops) {r : Register} (hr : r ∈ hop.registers) :
    r ∈ (Action.copy dst src).registers := by
  simpa [Action.registers, Action.srcs, Action.dest?, Action.chains, or_and_right, exists_or]
    using (List.mem_append.mp h).imp (fun hh => ⟨hop, hh, hr⟩) fun hh => ⟨hop, hh, hr⟩

theorem mem_hops_element {t : Transfer} {v : Value} {hop : Hop} (h : hop ∈ (t.element v).hops) :
    hop ∈ t.hops ∨ hop.uses = [v] ∧ hop.registers = [] := by
  simp only [Transfer.hops, Transfer.element, elementHops, List.mem_append, List.mem_cons] at h ⊢
  rcases h with (rfl | h) | rfl | h
  · exact .inr ⟨rfl, rfl⟩
  · exact .inl (.inl h)
  · exact .inr ⟨rfl, rfl⟩
  · exact .inl (.inr h)

theorem mem_hops_field {t : Transfer} {f : Nat} {hop : Hop} (h : hop ∈ (t.field f).hops) :
    hop ∈ t.hops ∨ hop.uses = [] ∧ hop.registers = [] := by
  simp only [Transfer.hops, Transfer.field, fieldHops, List.mem_append, List.mem_cons] at h ⊢
  rcases h with (rfl | h) | rfl | h
  · exact .inr ⟨rfl, rfl⟩
  · exact .inl (.inl h)
  · exact .inr ⟨rfl, rfl⟩
  · exact .inl (.inr h)

theorem mem_indexCode {a : Action} {vs : List Value} (h : a ∈ indexCode vs) :
    ∃ v ∈ vs, ∃ i : Nat, a = .const v [Cursor.word i] := by
  obtain ⟨⟨v, i⟩, hv, rfl⟩ := List.mem_map.mp h
  exact ⟨v, List.fst_mem_of_mem_zipIdx hv, i, rfl⟩

theorem exists_indexCode {v : Value} {vs : List Value} (h : v ∈ vs) :
    ∃ a ∈ indexCode vs, a.result? = some v := by
  obtain ⟨i, hi⟩ := List.mem_iff_getElem?.mp h
  exact ⟨.const v [Cursor.word i],
    List.mem_map.mpr ⟨(v, i), List.mem_zipIdx_iff_getElem?.mpr hi, rfl⟩, rfl⟩

theorem covered_indexCode (K : Value → Prop) (vs : List Value) : Covered K (indexCode vs) := by
  have hcov : ∀ (xs : List (Value × Nat)) (K : Value → Prop),
      Covered K (xs.map fun (v, i) => Action.const v [Cursor.word i]) := by
    intro xs
    induction xs with
    | nil => exact fun _ => trivial
    | cons x xs ih => exact fun K => ⟨by simp, ih _⟩
  exact hcov _ K

namespace Unrolls

variable {ts : List Transfer} {acts : List Action}

theorem covered {K : Value → Prop} (h : Unrolls ts acts)
    (hK : ∀ t ∈ ts, ∀ hop ∈ t.hops, ∀ v ∈ hop.uses, K v) : Covered K acts := by
  induction h generalizing K with
  | done => trivial
  | @array t queue elem n vs code ht hv hb h ih =>
    refine Covered.append_iff.mpr ⟨covered_indexCode K vs, ih ?_⟩
    intro u hu hop hh v hv
    rcases List.mem_append.mp hu with hu | hu
    · exact .inl (hK u (.tail _ hu) hop hh v hv)
    · obtain ⟨w, hw, rfl⟩ := List.mem_map.mp hu
      rcases mem_hops_element hh with hh | ⟨hw', -⟩
      · exact .inl (hK t (.head _) hop hh v hv)
      · obtain rfl : v = w := by simpa [hw'] using hv
        exact .inr (exists_indexCode hw)
  | @struct t queue name fields code ht h ih =>
    refine ih fun u hu hop hh v hv => ?_
    rcases List.mem_append.mp hu with hu | hu
    · exact hK u (.tail _ hu) hop hh v hv
    · obtain ⟨f, -, rfl⟩ := List.mem_map.mp hu
      rcases mem_hops_field hh with hh | ⟨hf, -⟩
      · exact hK t (.head _) hop hh v hv
      · simp [hf] at hv
  | @leaf t queue v code ht hv hn h ih =>
    refine ⟨?_, ?_, ih fun u hu hop hh v hv => .inl (.inl (hK u (.tail _ hu) hop hh v hv))⟩
    · intro u hu
      obtain ⟨hop, hh, hu⟩ : ∃ hop ∈ t.src, u ∈ hop.uses := by
        simpa [Action.uses, Action.srcs, Action.dest?, Action.chains, Site.addressUses] using hu
      exact hK t (.head _) hop (List.mem_append_right _ hh) u hu
    · intro u hu
      obtain rfl | ⟨hop, hh, hu⟩ : u = v ∨ ∃ hop ∈ t.dst, u ∈ hop.uses := by
        simpa [Action.uses, Action.srcs, Action.dest?, Action.chains, Site.uses] using hu
      · exact .inr rfl
      · exact .inl (hK t (.head _) hop (List.mem_append_left _ hh) u hu)

theorem registers (h : Unrolls ts acts) {a : Action} (ha : a ∈ acts) {r : Register}
    (hr : r ∈ a.registers) : ∃ t ∈ ts, ∃ hop ∈ t.hops, r ∈ hop.registers := by
  induction h with
  | done => simp at ha
  | @array t queue elem n vs code ht hv hb h ih =>
    rcases List.mem_append.mp ha with ha | ha
    · obtain ⟨v, -, i, rfl⟩ := mem_indexCode ha
      simp at hr
    · obtain ⟨u, hu, hop, hh, hr⟩ := ih ha
      rcases List.mem_append.mp hu with hu | hu
      · exact ⟨u, .tail _ hu, hop, hh, hr⟩
      · obtain ⟨w, -, rfl⟩ := List.mem_map.mp hu
        rcases mem_hops_element hh with hh | ⟨-, hn⟩
        · exact ⟨t, .head _, hop, hh, hr⟩
        · simp [hn] at hr
  | @struct t queue name fields code ht h ih =>
    obtain ⟨u, hu, hop, hh, hr⟩ := ih ha
    rcases List.mem_append.mp hu with hu | hu
    · exact ⟨u, .tail _ hu, hop, hh, hr⟩
    · obtain ⟨w, -, rfl⟩ := List.mem_map.mp hu
      rcases mem_hops_field hh with hh | ⟨-, hn⟩
      · exact ⟨t, .head _, hop, hh, hr⟩
      · simp [hn] at hr
  | @leaf t queue v code ht hv hn h ih =>
    rcases List.mem_cons.mp ha with rfl | ha
    · obtain ⟨hop, hh, hr⟩ : ∃ hop ∈ t.src, r ∈ hop.registers := by
        simpa [Action.registers, Action.srcs, Action.dest?, Action.chains, Site.registers] using hr
      exact ⟨t, .head _, hop, List.mem_append_right _ hh, hr⟩
    · rcases List.mem_cons.mp ha with rfl | ha
      · obtain ⟨hop, hh, hr⟩ : ∃ hop ∈ t.dst, r ∈ hop.registers := by
          simpa [Action.registers, Action.srcs, Action.dest?, Action.chains, Site.registers]
            using hr
        exact ⟨t, .head _, hop, List.mem_append_left _ hh, hr⟩
      · obtain ⟨u, hu, hop, hh, hr⟩ := ih ha
        exact ⟨u, .tail _ hu, hop, hh, hr⟩

end Unrolls

structure Splits (b b' : Body) (k : BlockId) (mark : InstrId) (dst src : List Hop)
    (acts : List Action) : Prop where
  replaced : Replaced b b' k mark (.copy dst src) acts id
  same : hopsType dst = hopsType src
  unrolls : Unrolls [⟨dst, src⟩] acts
  plain : PlainArena b.links → PlainArena b'.links

section

variable {b b' : Body} {k : BlockId} {mark : InstrId} {dst src : Handle}

/-- A copy between places of one type starts a queue, any other fails at once. -/
theorem split_eq (c : Cursor) (dst src : Handle) (b : Body) :
    split c dst src b = if derefType b.links dst = derefType b.links src then
        drain c (derefType b.links dst).weight [⟨dst, src, derefType b.links dst⟩] b
      else (.error (.mismatch (derefType b.links dst) (derefType b.links src)), b) := by
  have hget : split c dst src b =
      (if (derefType b.links dst).same (derefType b.links src) then
        drain c (derefType b.links dst).weight [⟨dst, src, derefType b.links dst⟩]
      else throw (.mismatch (derefType b.links dst) (derefType b.links src)) : Step Unit) b := rfl
  rw [hget]
  by_cases hs : derefType b.links dst = derefType b.links src
  · rw [if_pos hs, if_pos ((Ty.same_iff _ _).mpr hs)]
  · rw [if_neg hs, if_neg (fun h => hs ((Ty.same_iff _ _).mp h))]
    rfl

theorem split_run {c : Cursor} (hrun : split c dst src b = (.ok (), b')) :
    derefType b.links dst = derefType b.links src ∧
      drain c (derefType b.links dst).weight [⟨dst, src, derefType b.links dst⟩] b =
        (.ok (), b') := by
  rw [split_eq] at hrun
  split at hrun
  · rename_i hs
    exact ⟨hs, hrun⟩
  · cases hrun

/-- What splitting puts in front of a copy works off the queue of the copy. -/
theorem split_emits (hm : mark < b.instrs.size) (hr : b.Rooted)
    (hs : Stands b ⟨dst, src, derefType b.links dst⟩ ⟨b.hops dst, b.hops src⟩)
    (hrun : split ⟨some k, some mark⟩ dst src b = (.ok (), b')) :
    ∃ ops, EmitsLinks k mark ops b b' ∧ (∀ op ∈ ops, op.Named b') ∧
      Unrolls [⟨b.hops dst, b.hops src⟩] (ops.map b'.action) := by
  have hweight : queueWeight [⟨b.hops dst, b.hops src⟩] ≤ (derefType b.links dst).weight := by
    simp [queueWeight, Transfer.type, hopsType_hops]
  exact drained hm hr (.cons hs .nil) hweight (split_run hrun).2

theorem Stands.copy (hl : b.Laid) (hid : mark ∈ b.placedInstrs)
    (hop : b.op? mark = some (.copy dst src)) :
    Stands b ⟨dst, src, derefType b.links dst⟩ ⟨b.hops dst, b.hops src⟩ := by
  have hname := hl.named mark hid _ hop
  exact ⟨rfl, rfl, hname.derefs dst (by simp [Op.derefs]), hname.derefs src (by simp [Op.derefs]),
    (hopsType_hops b dst).symm⟩

theorem splits_of_split (hl : b.Laid) (hk : k ∈ b.layout) (hid : mark ∈ b.held k)
    (hop : b.op? mark = some (.copy dst src))
    (hrun : split ⟨some k, some mark⟩ dst src b = (.ok (), b')) :
    ∃ acts, Splits b (Body.remove mark k b').2 k mark (b.hops dst) (b.hops src) acts := by
  have hplaced : mark ∈ b.placedInstrs := Body.mem_placedInstrs.mpr ⟨k, hk, hid⟩
  obtain ⟨ops, he, hnamed, hcode⟩ := split_emits (hl.lt_size hplaced) hl.toRooted
    (.copy hl hplaced hop) hrun
  have ha : b.action? mark = some (.copy (b.hops dst) (b.hops src)) := by
    simp [Body.action?, hop, Body.action]
  have hmade := he.toGrows.made (hl.made mark hplaced _ ha)
  have hcov : Covered (· ∈ (Action.copy (b.hops dst) (b.hops src)).uses) (ops.map b'.action) :=
    hcode.covered fun t ht hop hh v hv => mem_uses_copy (List.mem_singleton.mp ht ▸ hh) hv
  have hlaid : b'.Laid := by
    refine he.laid hl hk hid hnamed (fun op hop => ⟨?_, ?_⟩) he.rooted
    · exact fun v hv => he.values_made hmade hcov hop hv
    · intro r hr
      obtain ⟨t, ht, hop, hh, hr⟩ := hcode.registers (List.mem_map_of_mem hop) hr
      exact hmade.registers r (mem_registers_copy (List.mem_singleton.mp ht ▸ hh) hr)
  have hheld : mark ∈ b'.held k := by
    rw [he.toEmits.held_eq hl hk hid hk, mem_expandAt]
    exact .inl ⟨hid, by simp⟩
  refine ⟨ops.map b'.action,
    he.toEmits.replaced hl hk hid ha hlaid (.refl b') hcov (.none rfl),
    by rw [hopsType_hops, hopsType_hops, (split_run hrun).1], hcode, ?_⟩
  rw [remove_eq hheld]
  exact he.plain

end

theorem Splits.action?_kept {b b' : Body} {k : BlockId} {mark : InstrId} {dst src : List Hop}
    {acts : List Action} (h : Splits b b' k mark dst src acts) {x : InstrId}
    (hx : x ∈ b.placedInstrs) (hne : x ≠ mark) : b'.action? x = b.action? x := by
  rw [h.replaced.kept x hx hne]
  cases b.action? x <;> simp [Action.mapUses, Action.rename_id]

/-- A step of splitting leaves an instruction that is no copy, and splits a copy. -/
theorem split_step {s : Split} {k : BlockId} {id : InstrId} (hl : s.body.Laid)
    (hk : k ∈ s.body.layout) (hid : id ∈ s.body.held k)
    (hok : (Split.instr k s id).error = none) :
    (Split.instr k s id = s ∧ ∀ dst src, s.body.action? id ≠ some (.copy dst src)) ∨
      ((Split.instr k s id).progress = true ∧
        ∃ dst src acts, Splits s.body (Split.instr k s id).body k id dst src acts) := by
  have hcursor := hl.beforeInstr hk hid
  unfold Split.instr at hok ⊢
  split at hok
  · rename_i dst src herror hop
    rw [hcursor] at hok ⊢
    split at hok
    · rename_i b hrun
      obtain ⟨acts, h⟩ := splits_of_split hl hk hid hop hrun
      exact .inr ⟨rfl, _, _, acts, h⟩
    · cases hok
  · rename_i hcopy
    refine .inl ⟨rfl, fun dst src ha => ?_⟩
    obtain ⟨op, hop, hact⟩ := Option.map_eq_some_iff.mp ha
    cases op with
    | copy d s => exact hcopy d s hok hop
    | _ => cases hact

theorem split_block (s : Split) (k : BlockId) :
    s.block k = (s.body.held k).foldl (Split.instr k) s := by
  unfold Split.block Body.held
  cases s.body.blocks[k]? <;> rfl

theorem split_stuck {k : BlockId} {s : Split} {id : InstrId} (h : s.error ≠ none) :
    Split.instr k s id = s := by
  obtain ⟨e, he⟩ := Option.ne_none_iff_exists'.mp h
  unfold Split.instr
  simp [he]

def Body.splitBlocks (b : Body) : Split :=
  b.layout.toList.foldl Split.block ⟨b, false, none⟩

theorem splitBlocks_eq (b : Body) : b.splitBlocks = b.layout.toList.foldl
    (fun s k => (s.body.held k).foldl (Split.instr k) s) ⟨b, false, none⟩ := by
  rw [Body.splitBlocks, funext fun s => funext (split_block s)]

theorem splitCopies_error (b : Body) : b.splitCopies.error = b.splitBlocks.error := by
  unfold Body.splitCopies Body.splitBlocks
  dsimp only
  split
  · split <;> rfl
  · rfl

theorem splitCopies_of_error {b : Body} (h : b.splitCopies.error ≠ none) :
    b.splitCopies = b.splitBlocks := by
  rw [splitCopies_error] at h
  obtain ⟨e, he⟩ := Option.ne_none_iff_exists'.mp h
  unfold Body.splitCopies Body.splitBlocks at *
  simp only [he]

theorem splitCopies_eq {b : Body} (hok : b.splitCopies.error = none) :
    b.splitCopies = if b.splitBlocks.progress then
        { b.splitBlocks with body := b.splitBlocks.body.preserve Body.controlFlowAnalyses }
      else b.splitBlocks := by
  rw [splitCopies_error] at hok
  unfold Body.splitCopies Body.splitBlocks at *
  simp only [hok]

theorem splitCopies_body {b : Body} (hok : b.splitCopies.error = none) :
    SameCode b.splitBlocks.body b.splitCopies.body := by
  rw [splitCopies_eq hok]
  split
  · exact .preserve _ _
  · exact .refl _

section

variable {b : Body} (I : List InstrId → Split → Prop)
  (F : List InstrId → BlockId → InstrId → Split → Prop)

/-- The walk keeps what every step of it keeps, unless a step fails: then it answers what that step
answered. -/
theorem splitBlocks_rule (hl : b.Laid) (hI : I [] ⟨b, false, none⟩)
    (hskip : ∀ met id s, s.body.Laid → I met s → id ∈ b.placedInstrs → id ∉ met →
      (∀ dst src, s.body.action? id ≠ some (.copy dst src)) → I (met ++ [id]) s)
    (hsplit : ∀ met s s' k id dst src acts, s.body.Laid → I met s → id ∈ b.placedInstrs →
      id ∉ met → s'.progress = true → Splits s.body s'.body k id dst src acts → I (met ++ [id]) s')
    (hfail : ∀ met s k id, s.body.Laid → s.error = none → I met s → k ∈ s.body.layout →
      id ∈ s.body.held k → (Split.instr k s id).error ≠ none → F met k id (Split.instr k s id))
    (hF : ∀ met k id s, F met k id s → s.error ≠ none) :
    (b.splitBlocks.error = none ∧ b.splitBlocks.body.Laid ∧ I b.placedInstrs b.splitBlocks) ∨
    ∃ js k rest pre id post, b.layout.toList = js ++ k :: rest ∧ b.held k = pre ++ id :: post ∧
      F (js.flatMap b.held ++ pre) k id b.splitBlocks := by
  have hstep : ∀ met k s id, (s.error = none ∧ s.body.Laid ∧ I met s) → k ∈ s.body.layout →
      id ∈ s.body.held k → id ∈ b.placedInstrs → id ∉ met →
      ((Split.instr k s id).error = none ∧ (Split.instr k s id).body.Laid ∧
        I (met ++ [id]) (Split.instr k s id)) ∧
        Steps k id s.body (Split.instr k s id).body ∨ F met k id (Split.instr k s id) := by
    intro met k s id hs hk hid hall hmet
    obtain ⟨he, hl, hI⟩ := hs
    by_cases hok : (Split.instr k s id).error = none
    · left
      rcases split_step hl hk hid hok with ⟨heq, hnone⟩ | ⟨hprog, _, _, _, hsp⟩
      · rw [heq]
        exact ⟨⟨he, hl, hskip met id s hl hI hall hmet hnone⟩, .refl k id s.body⟩
      · exact ⟨⟨hok, hsp.replaced.laid, hsplit met s _ k id _ _ _ hl hI hall hmet hprog hsp⟩,
          hsp.replaced.steps hl⟩
    · exact .inr (hfail met s k id hl he hI hk hid hok)
  have hwalk := foldl_layout Split.body Split.instr
    (fun met s => s.error = none ∧ s.body.Laid ∧ I met s) F
    (fun met k id s j x h => by rwa [split_stuck (hF met k id s h)]) hstep
    (s := ⟨b, false, none⟩) ⟨rfl, hl, hI⟩ rfl hl.once
  rw [splitBlocks_eq]
  exact hwalk

end

/-- What every step of splitting keeps holds of the walk that succeeds. -/
theorem splitBlocks_keeps {b : Body} (I : List InstrId → Split → Prop) (hl : b.Laid)
    (hI : I [] ⟨b, false, none⟩)
    (hskip : ∀ met id s, s.body.Laid → I met s → id ∈ b.placedInstrs → id ∉ met →
      (∀ dst src, s.body.action? id ≠ some (.copy dst src)) → I (met ++ [id]) s)
    (hsplit : ∀ met s s' k id dst src acts, s.body.Laid → I met s → id ∈ b.placedInstrs →
      id ∉ met → s'.progress = true → Splits s.body s'.body k id dst src acts → I (met ++ [id]) s')
    (hok : b.splitBlocks.error = none) :
    b.splitBlocks.body.Laid ∧ I b.placedInstrs b.splitBlocks := by
  rcases splitBlocks_rule I (fun _ _ _ s => s.error ≠ none) hl hI hskip hsplit
    (fun _ _ _ _ _ _ _ _ _ h => h) (fun _ _ _ _ h => h) with h | ⟨_, _, _, _, _, _, _, _, h⟩
  · exact h.2
  · exact absurd hok h

/-- What every split copy keeps holds of the code after the pass. -/
theorem splitCopies_rule {b : Body} (I : Body → Prop) (hl : b.Laid) (hI : I b)
    (hstep : ∀ c c' k id dst src acts, c.Laid → I c → Splits c c' k id dst src acts → I c')
    (hok : b.splitCopies.error = none) :
    ∃ c, c.Laid ∧ I c ∧ SameCode c b.splitCopies.body := by
  obtain ⟨hl', hI'⟩ := splitBlocks_keeps (fun _ s => I s.body) hl hI (fun _ _ _ _ hI _ _ _ => hI)
    (fun _ s s' k id dst src acts hl hI _ _ _ h => hstep s.body s'.body k id dst src acts hl hI h)
    (splitCopies_error b ▸ hok)
  exact ⟨_, hl', hI', splitCopies_body hok⟩

end ShaderIR
