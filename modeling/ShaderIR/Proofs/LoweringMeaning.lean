import ShaderIR.Proofs.LoweringTrace

/-!
# Lowering keeps the meaning of a function

A function and what lowering made of it run side by side along every path. The registers of the
table hold what local memory holds, place by place in row-major order; all else is the same. An
action that does not touch local memory keeps this, and so does an access that is in bounds against
its address code and its move.
-/

set_option autoImplicit false

namespace ShaderIR

open Lowering

variable {ε : Type}

/-- The states of a function and of its lowered form: the registers of the table stand for local
memory, and all that is not local is the same. -/
structure Matches (b : Body) (table : RegisterTable) (K : Value → Prop) (s t : State ε) : Prop
    extends Agree K (·.serial < b.registerCount) (·.mode ≠ .local) s t where
  locals : ∀ e ∈ table.entries, ∀ p : Place, p.var.mode = .local →
    p.turns = turns (chain b.links e.deref) → p.Exists → t.registers e.reg p.number = s.memory p

structure Assigned (b : Body) (table : RegisterTable) (s : State ε) (hops : List Hop)
    (e : TableEntry) (p : Place) : Prop where
  entry : e ∈ table.entries
  place : s.place? hops = some p
  mode : p.var.mode = .local
  turns : p.turns = turns (chain b.links e.deref)
  inside : p.Exists
  bits : e.reg.bits = (hopsType hops).bits

section

variable {b : Body} {table : RegisterTable} {K : Value → Prop} {s t : State ε} (m : Machine ε)

namespace Matches

theorem mono {K' : Value → Prop} (h : Matches b table K s t) (hK : ∀ v, K' v → K v) :
    Matches b table K' s t :=
  ⟨h.toAgree.mono hK (fun _ h => h) fun _ h => h, h.locals⟩

theorem exec (h : Matches b table K s t)
    (hlater : ∀ e ∈ table.entries, b.registerCount ≤ e.reg.serial) {a : Action} (ha : a.Made b)
    (hu : ∀ v ∈ a.uses, K v)
    (hmode : ∀ hops ∈ a.chains, ∀ p, s.place? hops = some p → p.var.mode ≠ .local) :
    Matches b table (fun v => K v ∨ a.result? = some v) (a.exec m s) (a.exec m t) := by
  refine ⟨h.toAgree.exec m hu ha.registers hmode, ?_⟩
  intro e he p hp hturns hex
  have hreg : e.reg ∉ a.registers := fun hr =>
    absurd (ha.registers e.reg hr) (Nat.not_lt.mpr (hlater e he))
  rw [registers_exec m t hreg, memory_exec m s]
  · exact h.locals e he p hp hturns hex
  · intro hops hh q hq hqp
    exact hmode hops hh q hq (hqp ▸ hp)

/-- Address code leaves all that counts as it is. -/
theorem computes (h : Matches b table K s t) {code : List Action} (hc : Computes m t code)
    (hK : ∀ v, K v → v ∉ results code) : Matches b table K s (execAll m t code) where
  toAgree := h.toAgree.trans (hc.mono hK (fun _ _ => trivial) fun _ _ => trivial)
  locals e he p hp hturns hex := by
    rw [hc.registers e.reg trivial]
    exact h.locals e he p hp hturns hex

theorem write (h : Matches b table K s t)
    (hlater : ∀ e ∈ table.entries, b.registerCount ≤ e.reg.serial) (mask : Nat → Bool) (x : Lanes)
    {d : Site} (hu : ∀ v ∈ d.addressUses, K v)
    (hr : ∀ r ∈ d.registers, r.serial < b.registerCount) :
    Matches b table (fun v => K v ∨ d.value? = some v) (s.write mask x d) (t.write mask x d) := by
  refine ⟨h.toAgree.write mask x hu hr, ?_⟩
  intro e he p hp hturns hex
  have hreg : e.reg ∉ d.registers := fun hr' => absurd (hr e.reg hr') (Nat.not_lt.mpr (hlater e he))
  rw [registers_write t hreg, memory_write]
  exact h.locals e he p hp hturns hex

theorem put {made : Nat} (h : Matches b table K s t) (hsound : table.Sound b.links made)
    (hlater : ∀ e ∈ table.entries, b.registerCount ≤ e.reg.serial) {hops : List Hop}
    {e : TableEntry} {p : Place} (hp : Assigned b table s hops e p) {slot : Slot}
    (hreg : slot.reg = some e.reg) (hslot : t.slotNumber slot = p.number) (mask : Nat → Bool)
    (x : Lanes) : Matches b table K (s.put hops mask x) (t.write mask x (.slot slot)) := by
  simp only [State.put, hp.place, State.write, hreg, hslot]
  refine ⟨⟨h.values, ?_, ?_, h.calls, h.outside⟩, ?_⟩
  · intro r hr
    have hne : r ≠ e.reg := by
      rintro rfl
      exact absurd hr (Nat.not_lt.mpr (hlater e hp.entry))
    simpa [hne] using h.registers r hr
  · intro q hq
    have hne : q ≠ p := by
      rintro rfl
      exact hq hp.mode
    simpa [hne] using h.memory q hq
  · intro d hd q hq hqturns hqex
    have hold := h.locals d hd q hq hqturns hqex
    by_cases hqp : q = p
    · -- One place has one entry.
      obtain rfl : d = e :=
        hsound.entry_eq_of_turns hd hp.entry (by rw [← hqturns, ← hp.turns, hqp])
      subst hqp
      simp [hold, hp.bits]
    · have hne : ¬ (d.reg = e.reg ∧ (q.number : Int) = p.number) := by
        rintro ⟨hdreg, hnum⟩
        obtain rfl := hsound.entry_eq_of_reg hd hp.entry hdreg
        exact hqp (Place.eq_of_number hqex hp.inside (hqturns.trans hp.turns.symm)
          (Int.ofNat_inj.mp hnum))
      simp only [if_neg hqp, if_neg hne]
      exact hold

/-- An access does to local memory what its move does to the slot of the place. -/
theorem finish {made : Nat} (h : Matches b table K s t) (hsound : table.Sound b.links made)
    (hlater : ∀ e ∈ table.entries, b.registerCount ≤ e.reg.serial) {hops : List Hop}
    {e : TableEntry} {p : Place} (hp : Assigned b table s hops e p) {slot : Slot}
    (hreg : slot.reg = some e.reg) (hslot : t.slotNumber slot = p.number) {a last : Action}
    (hfin : Finish slot a last) (hch : a.chains = [hops]) (hres : last.result? = a.result?)
    (ha : a.Made b) (hu : ∀ v ∈ a.uses, K v)
    (hn : ∀ sl n, a = .load hops (.slot sl) n → 0 ≤ n ∧ n ≤ 8) :
    Matches b table (fun v => K v ∨ a.result? = some v) (a.exec m s) (last.exec m t) := by
  have hread : t.read (.slot slot) = s.fetch hops := by
    have hlocal := h.locals e hp.entry p hp.mode hp.turns hp.inside
    simp only [State.read, hreg, hslot, State.fetch, hp.place, hp.bits, hlocal]
  cases hfin with
  | @load hops' n old new hb =>
    obtain rfl : hops' = hops := List.singleton_inj.mp hch
    obtain rfl : new = old := Option.some.inj hres
    rw [exec_move, hread, write_fullMask _ _ (by simp)]
    exact h.write hlater _ _ (d := .value new) (by simp [Site.addressUses])
      (by simp [Site.registers])
  | @loadSlot hops' n dest hd =>
    obtain rfl : hops' = hops := List.singleton_inj.mp hch
    -- The mask of the move has eight places, a load writes all of its components.
    rw [exec_move, hread, write_fullMask _ _ fun sl hsl => hn sl n (by rw [hsl])]
    exact h.write hlater _ _ (fun v hv => hu v (by simp [Action.uses, Action.dest?, hv]))
      fun r hr => ha.registers r (by simp [Action.registers, Action.dest?, hr])
  | @store hops' v mask =>
    obtain rfl : hops' = hops := List.singleton_inj.mp hch
    have hv : t.read v = s.read v := h.toAgree.read
      (fun u hu' => hu u (by simp [Action.uses, Action.srcs, hu']))
      fun r hr => ha.registers r (by simp [Action.registers, Action.srcs, hr])
    rw [exec_move, hv]
    exact (h.put hsound hlater hp hreg hslot _ _).mono fun v hv => hv.resolve_right (by
      simp [Action.result?, Action.dest?])

end Matches

def Body.Evaluated (b : Body) (K : Value → Prop) (s : State ε) : Prop :=
  ∀ v, K v → ∀ n, b.constant? (.value v) = some n → s.values v 0 = n.toNat % 2 ^ v.bits.toNat

def Link.index? (l : Link) : Option Value :=
  match l.kind with
  | .array (.value v) => some v
  | _ => none

def Body.IndicesFit (b : Body) : Prop :=
  ∀ l ∈ b.links, ∀ v ∈ l.index?, v.bits < 32 → ∀ n ∈ b.constant? (.value v),
    n.toNat < 2 ^ v.bits.toNat

instance (b : Body) : Decidable b.IndicesFit :=
  decidable_of_iff (∀ l ∈ b.links, ∀ v ∈ l.index?, v.bits < 32 →
    (b.constant? (.value v)).all fun n => n.toNat < 2 ^ v.bits.toNat) <| by
    simp [Body.IndicesFit, Option.all_eq_true]

theorem Body.Evaluated.exec (h : b.Evaluated K s) (hs : b.Single) {id : InstrId}
    (hid : id ∈ b.placedInstrs) {a : Action} (ha : b.action? id = some a) :
    b.Evaluated (fun v => K v ∨ a.result? = some v) (a.exec m s) := by
  intro v hv n hn
  by_cases hr : a.result? = some v
  · obtain ⟨x, w, xs, hx, hop, hhead⟩ := constant?_eq_some.mp hn
    obtain rfl : id = x := Option.some.inj ((hs id hid a ha v hr).symm.trans hx)
    obtain rfl : Action.const w xs = a := by simpa [Body.action?, hop, Body.action] using ha
    obtain rfl : w = v := by simpa using hr
    cases xs with
    | nil => simp at hhead
    | cons y ys =>
      obtain rfl : y = n := by simpa using hhead
      simp [Action.exec, State.define, fit]
  · rw [values_exec m s hr]
    exact h v (hv.resolve_right hr) n hn

/-- A constant index is what was added beforehand for it. -/
theorem Body.Evaluated.foresees (h : b.Evaluated K s) {x : Handle}
    (hfit : ∀ l ∈ chain b.links x, ∀ v ∈ l.index?, v.bits < 32 → ∀ n ∈ b.constant? (.value v),
      n.toNat < 2 ^ v.bits.toNat)
    (hu : ∀ v ∈ (b.hops x).flatMap Hop.uses, K v) : Foresees b.known s (b.hops x) := by
  intro hop hh y hk n hn
  cases y with
  | value v =>
    have hv : K v := hu v (List.mem_flatMap.mpr ⟨hop, hh, by simp [Hop.uses, hk, Site.uses]⟩)
    obtain ⟨l, hl, rfl⟩ := List.mem_map.mp hh
    have hindex : l.index? = some v := by
      cases hlk : l.kind with
      | array o =>
        simp only [Body.hop, hlk, HopKind.array.injEq] at hk
        cases o <;> simp_all [Body.site, Link.index?]
      | _ => simp [Body.hop, hlk] at hk
    have hvalue := h v hv n hn
    apply UInt32.toNat_inj.mp
    rw [State.read_value, indexOf, hvalue, UInt32.toNat_ofNat', UInt32.toNat_ofNat']
    by_cases hbits : v.bits < 32
    · rw [Nat.mod_eq_of_lt (hfit l hl v hindex hbits n hn)]
    · exact Nat.mod_mod_of_dvd _ (Nat.pow_dvd_pow 2 (by omega))
  | _ => simp [Body.known] at hn

end

/-- What lowering expects of a function: cast-free chains whose array lengths have a product of at
most 2 ^ 32 where they lead into local memory, and constant indices that fit into their bits. -/
structure Body.Lowerable (b : Body) : Prop where
  laid : b.Laid
  single : b.Single
  built : Built b.links
  castFree : ∀ l ∈ b.links, l.kind ≠ .cast
  indicesFit : b.IndicesFit
  span_le : ∀ n < b.links.size, isLocal b.links (some n) = true → span (b.hops (some n)) ≤ 2 ^ 32

def Action.fetched? : Action → Option Int
  | .load hops (.slot _) n => if localChain hops then some n else none
  | _ => none

def Body.NarrowLoads (b : Body) : Prop :=
  -- a write mask has eight places
  ∀ id ∈ b.placedInstrs, ∀ n ∈ (b.action? id).bind Action.fetched?, 0 ≤ n ∧ n ≤ 8

instance (b : Body) : Decidable b.NarrowLoads :=
  decidable_of_iff (∀ id ∈ b.placedInstrs,
    ((b.action? id).bind Action.fetched?).all fun n => 0 ≤ n ∧ n ≤ 8) <| by
    simp only [Body.NarrowLoads, Option.all_eq_true, decide_eq_true_eq, Option.mem_def]

def InBoundsAlong (m : Machine ε) : State ε → List Action → Prop
  | _, [] => True
  | s, a :: acts => (∀ hops ∈ a.chains, localChain hops = true → s.InBounds hops) ∧
      InBoundsAlong m (a.exec m s) acts

instance InBoundsAlong.decidable (m : Machine ε) : (s : State ε) → (acts : List Action) →
    Decidable (InBoundsAlong m s acts)
  | _, [] => isTrue trivial
  | s, a :: acts =>
    have := InBoundsAlong.decidable m (a.exec m s) acts
    inferInstanceAs (Decidable ((∀ hops ∈ a.chains, localChain hops = true → s.InBounds hops) ∧ _))

section

variable {b : Body} {table : RegisterTable} {K : Value → Prop} {s t : State ε} (m : Machine ε)

/-- A place has the turns of the chain that leads to it, and is local if the chain is. -/
theorem Body.Lowerable.place (hb : b.Lowerable) {h : Handle} {p : Place}
    (hp : s.place? (b.hops h) = some p) : Straight (b.hops h) ∧ p.turns = hopTurns (b.hops h) ∧
      (p.var.mode = .local ↔ localChain (b.hops h) = true) := by
  have hne : b.hops h ≠ [] := fun hnil => by simp [hnil, State.place?] at hp
  have hstraight := hb.built.straight hb.castFree hne
  obtain ⟨hturns, hmode⟩ := hstraight.turns_mode hp
  refine ⟨hstraight, hturns, ?_⟩
  rw [hmode]
  cases hops : b.hops h with
  | nil => exact absurd hops hne
  | cons hop rest => simp [hopsMode, localChain]

theorem Body.Lowerable.span_hops_le (hb : b.Lowerable) {h : Handle}
    (hlocal : localChain (b.hops h) = true) : span (b.hops h) ≤ 2 ^ 32 := by
  rw [localChain_hops] at hlocal
  cases h with
  | none => simp [isLocal] at hlocal
  | some n =>
    refine hb.span_le n ?_ hlocal
    by_contra hn
    simp [isLocal, Nat.not_lt.mp hn] at hlocal

/-- A local access in bounds leads to a place that exists, and numbers it. -/
theorem Body.Lowerable.exists_place (hb : b.Lowerable) {h : Handle}
    (hlocal : localChain (b.hops h) = true) (hin : s.InBounds (b.hops h)) :
    ∃ p, s.place? (b.hops h) = some p ∧ p.var.mode = .local ∧ p.turns = hopTurns (b.hops h) ∧
      p.Exists ∧ p.number = s.slotOf (b.hops h) := by
  have hne : b.hops h ≠ [] := fun hnil => by simp [hnil, localChain] at hlocal
  obtain ⟨p, hp, -⟩ := (hb.built.straight hb.castFree hne).place (s := s)
  obtain ⟨hstraight, hturns, hmode⟩ := hb.place hp
  obtain ⟨hreach, hnumber⟩ := hstraight.number hp hin
  exact ⟨p, hp, hmode.mpr hlocal, hturns, by simp [Place.Exists, hreach], hnumber⟩

/-- The code of an instruction does what the instruction does. -/
theorem Renders.exec {made : Nat} (hb : b.Lowerable) (hnarrow : b.NarrowLoads)
    (hsound : table.Sound b.links made)
    (hlater : ∀ e ∈ table.entries, b.registerCount ≤ e.reg.serial) {id : InstrId} {a : Action}
    {code : List Action} (hr : Renders b table a code) (hid : id ∈ b.placedInstrs)
    (ha : b.action? id = some a) (h : Matches b table K s t) (hev : b.Evaluated K s)
    (hK : ∀ v, K v → v.serial < b.definers.size) (hu : ∀ v ∈ a.uses, K v)
    (hin : ∀ hops ∈ a.chains, localChain hops = true → s.InBounds hops) :
    Matches b table (fun v => K v ∨ a.result? = some v) (a.exec m s) (execAll m t code) := by
  have hmade := hb.laid.made id hid a ha
  cases hr with
  | same hnone =>
    refine h.exec m hlater hmade hu fun hops hh p hp hmode => ?_
    obtain ⟨x, rfl⟩ := Body.exists_hops ha hh
    rw [(hb.place hp).2.2, hnone _ hh] at hmode
    cases hmode
  | @access hops e code slot last hch hlocal he hturns hbits helems hloc hfin hres hn hnew =>
    obtain ⟨x, rfl⟩ := Body.exists_hops ha (hch ▸ List.mem_singleton.mpr rfl)
    have huses : ∀ v ∈ (b.hops x).flatMap Hop.uses, K v := fun v hv => hu v (uses_of_chains hch hv)
    have hregs : ∀ r ∈ (b.hops x).flatMap Hop.registers, r.serial < b.registerCount := fun r hr =>
      hmade.registers r (registers_of_chains hch hr)
    have hbounds := hin _ (hch ▸ List.mem_singleton.mpr rfl) hlocal
    obtain ⟨p, hp, hmode, hpturns, hinside, hnumber⟩ := hb.exists_place hlocal hbounds
    obtain ⟨hbounds', hslotOf⟩ := h.toAgree.numbering (b.hops x) huses hregs
    have hspan := hb.span_hops_le hlocal
    have hforesees : Foresees b.known s (b.hops x) :=
      hev.foresees (fun l hl => hb.indicesFit l (mem_of_mem_chain hl)) huses
    have hold : ∀ v, K v → v ∉ results code := fun v hv hr =>
      absurd (hnew v hr) (Nat.not_le.mpr (hK v hv))
    obtain ⟨hcode, hslot⟩ := hloc.exec (m := m) (helems.trans (hbounds.reserved_eq hspan)) hspan
      (hbounds'.mpr hbounds) (hforesees.of_agree h.toAgree huses hregs) hn
      fun v hv => hold v (huses v hv)
    have hplace : Assigned b table s (b.hops x) e p :=
      ⟨he, hp, hmode, hpturns.trans hturns.symm, hinside, hbits⟩
    rw [execAll_append]
    refine (h.computes m hcode hold).finish m hsound hlater hplace hloc.reg_eq ?_ hfin hch hres
      hmade hu fun sl n hload => hnarrow id hid n (by simp [ha, hload, Action.fetched?, hlocal])
    rw [hslot, hslotOf, hnumber]

/-- Along any sequence of instructions, the code of the instructions does what they do. -/
theorem execAll_renders {made : Nat} (hb : b.Lowerable) (hnarrow : b.NarrowLoads)
    (hsound : table.Sound b.links made)
    (hlater : ∀ e ∈ table.entries, b.registerCount ≤ e.reg.serial)
    {code : InstrId → List Action}
    (hr : ∀ x ∈ b.placedInstrs, ∀ a ∈ b.action? x, Renders b table a (code x))
    (xs : List InstrId) (hxs : ∀ x ∈ xs, x ∈ b.placedInstrs) (h : Matches b table K s t)
    (hev : b.Evaluated K s) (hK : ∀ v, K v → v.serial < b.definers.size)
    (hc : Covered K (xs.filterMap b.action?)) (hin : InBoundsAlong m s (xs.filterMap b.action?)) :
    Matches b table (fun v => K v ∨ ∃ a ∈ xs.filterMap b.action?, a.result? = some v)
      (execAll m s (xs.filterMap b.action?)) (execAll m t (xs.flatMap code)) := by
  induction xs generalizing K s t with
  | nil => exact h.mono fun v hv => hv.resolve_right (by simp)
  | cons x xs ih =>
    obtain ⟨a, ha⟩ := hb.laid.exists_action (hxs x (.head _))
    rw [List.filterMap_cons_some ha] at hc hin ⊢
    rw [List.flatMap_cons, execAll_cons, execAll_append]
    have hstep := (hr x (hxs x (.head _)) a ha).exec m hb hnarrow hsound hlater (hxs x (.head _))
      ha h hev hK hc.1 hin.1
    have hmade := hb.laid.made x (hxs x (.head _)) a ha
    refine (ih (fun y hy => hxs y (.tail _ hy)) hstep (hev.exec m hb.single (hxs x (.head _)) ha)
      ?_ hc.2 hin.2).mono ?_
    · rintro v (hv | hv)
      · exact hK v hv
      · exact hmade.values v (by simp [Action.values, hv])
    · simp only [List.mem_cons, exists_eq_or_imp]
      exact fun v hv => or_assoc.mpr hv

/-- For every state of a function there is a state of its lowered form. -/
theorem exists_matches_of_sound {made : Nat} (hsound : table.Sound b.links made)
    (hlater : ∀ e ∈ table.entries, b.registerCount ≤ e.reg.serial) (s : State ε) :
    ∃ t, Matches b table (fun _ => False) s t := by
  classical
  let holds (r : Register) (n : Int) (p : Place) : Prop := p.var.mode = .local ∧ p.Exists ∧
    (p.number : Int) = n ∧ ∃ e ∈ table.entries, e.reg = r ∧ p.turns = turns (chain b.links e.deref)
  refine ⟨{ s with registers := fun r n =>
    if h : ∃ p, holds r n p then s.memory h.choose else s.registers r n }, ?_⟩
  refine ⟨⟨fun _ h => h.elim, ?_, fun _ _ => rfl, rfl, rfl⟩, ?_⟩
  · intro r hr
    funext n
    refine dif_neg ?_
    rintro ⟨p, -, -, -, e, he, rfl, -⟩
    exact absurd hr (Nat.not_lt.mpr (hlater e he))
  · intro e he p hp hturns hex
    have hsome : ∃ q, holds e.reg p.number q := ⟨p, hp, hex, rfl, e, he, rfl, hturns⟩
    -- Entry and number determine the place.
    obtain ⟨-, hqex, hnum, d, hd, hreg, hqturns⟩ := hsome.choose_spec
    obtain rfl := hsound.entry_eq_of_reg hd he hreg
    have hplace : hsome.choose = p :=
      Place.eq_of_number hqex hex (hqturns.trans hturns.symm) (Int.ofNat_inj.mp hnum)
    exact (dif_pos hsome).trans (congrArg s.memory hplace)

end

theorem Body.Lowerable.exists_matches {b : Body} (hb : b.Lowerable)
    (hok : b.lowerLocals.error = none) (s : State ε) :
    ∃ t, Matches b b.lowerLocals.table (fun _ => False) s t := by
  obtain ⟨c, π, ids, acts, htrace, -⟩ := lowerLocals_trace hb.laid hb.built hb.single hok
  exact exists_matches_of_sound (htrace.sound.congr fun h => (htrace.outline h).symm) htrace.later s

theorem Trace.along {b c : Body} {met : List InstrId} {t : RegisterTable} {π : Equiv.Perm Value}
    {ids : InstrId → List InstrId} {acts : InstrId → List Action}
    (h : Trace b met c t π ids acts) {path : List BlockId} (hp : ∀ j ∈ path, j ∈ b.layout) :
    c.along path = ((path.flatMap b.held).flatMap acts).map (Action.map π) := by
  rw [Body.along, List.flatMap_assoc, List.map_flatMap]
  refine List.flatMap_congr fun j hj => ?_
  rw [Body.actions, h.held j (hp j hj), List.filterMap_flatMap, List.map_flatMap]
  exact List.flatMap_congr fun x hx => h.code x (Body.mem_placedInstrs.mpr ⟨j, hp j hj, hx⟩)

/-- Lowering keeps the meaning of a function, if loads from local memory into registers have no more
components than a mask has places. Take a path on which values are defined before they are read, and
a state from which the local accesses on it are in bounds. From every state in which the registers
of the table stand for local memory, the lowered function takes the same path and ends with the
registers standing for local memory, with the same memory elsewhere, the same other registers and
the same calls of intrinsics. Every value comes out the same, those of local loads under the name
that took over from them. -/
theorem lowerLocals_preserves_runs (b : Body) (hb : b.Lowerable) (hnarrow : b.NarrowLoads)
    (hok : b.lowerLocals.error = none) :
    ∃ next : Value → Value,
      (∀ v, v.serial < b.definers.size → next v = v ∨ ∃ id ∈ b.placedInstrs, ∃ hops n,
        b.action? id = some (.load hops (.value v) n) ∧ localChain hops = true) ∧
      ∀ (ε : Type) (m : Machine ε) (path : List BlockId) (s : State ε), b.IsPath path →
        Covered (fun _ => False) (b.along path) → InBoundsAlong m s (b.along path) →
        b.lowerLocals.body.IsPath path ∧
        (∃ t, Matches b b.lowerLocals.table (fun _ => False) s t) ∧
        ∀ t, Matches b b.lowerLocals.table (fun _ => False) s t →
          Matches b b.lowerLocals.table (fun _ => False) (b.run m path s)
            (b.lowerLocals.body.run m path t) ∧
          ∀ a ∈ b.along path, ∀ v ∈ a.result?,
            (b.lowerLocals.body.run m path t).values (next v) = (b.run m path s).values v := by
  obtain ⟨c, π, ids, acts, htrace, hcode⟩ := lowerLocals_trace hb.laid hb.built hb.single hok
  have hsound : b.lowerLocals.table.Sound b.links c.registerCount :=
    htrace.sound.congr fun h => (htrace.outline h).symm
  refine ⟨π, htrace.moved, fun ε m path s hp hc hin => ⟨?_, ?_, fun t ht => ?_⟩⟩
  · rw [hcode.isPath_iff]
    simpa [Body.IsPath, htrace.layout, htrace.next] using hp
  · exact hb.exists_matches hok s
  have halong : b.along path = (path.flatMap b.held).filterMap b.action? := by
    rw [List.filterMap_flatMap]
    rfl
  have hrun : b.lowerLocals.body.run m path t =
      (execAll m (t.rename π.symm) ((path.flatMap b.held).flatMap acts)).rename π := by
    have hback : (t.rename π.symm).rename π = t := by simp [State.rename]
    rw [Body.run, hcode.along, htrace.along hp.1, ← execAll_rename π _ m htrace.bits, hback]
  rw [halong] at hc hin
  have hmatch := execAll_renders m hb hnarrow hsound htrace.later htrace.renders
    (path.flatMap b.held)
    (fun x hx => by
      obtain ⟨j, hj, hx⟩ := List.mem_flatMap.mp hx
      exact Body.mem_placedInstrs.mpr ⟨j, hp.1 j hj, hx⟩)
    (t := t.rename π.symm)
    ⟨⟨fun _ h => h.elim, ht.registers, ht.memory, ht.calls, ht.outside⟩, ht.locals⟩
    (fun _ h => h.elim) (fun _ h => h.elim) hc hin
  rw [← halong] at hmatch
  rw [hrun]
  refine ⟨⟨⟨fun _ h => h.elim, hmatch.registers, hmatch.memory, hmatch.calls, hmatch.outside⟩,
    hmatch.locals⟩, fun a ha v hv => ?_⟩
  simpa [State.rename, Body.run] using hmatch.values v (.inr ⟨a, ha, hv⟩)

def tabulated : Body :=
  let row : Ty := .array (.scalar .uint) 2
  let a : Variable := ⟨0, 0, "a", .array row 3, .local, none⟩
  let r : Register := ⟨0, 0, 2, 32, 0⟩
  let one : Value := ⟨0, 0, 1, 32⟩
  let two : Value := ⟨1, 1, 1, 16⟩
  let read : Value := ⟨2, 2, 1, 32⟩
  { links := #[varLink a, ⟨.array (.value two), some 0, row, .local⟩,
      ⟨.array (.slot 0), some 1, .scalar .uint, .local⟩,
      ⟨.array (.value one), some 1, .scalar .uint, .local⟩]
    slots := #[⟨some r, 0, none⟩]
    instrs := #[⟨.const one [1], some 0⟩, ⟨.const two [2], some 0⟩,
      ⟨.alu .mov [.value one] (.slot 0) 1, some 0⟩, ⟨.store (some 2) (.value two) 1, some 0⟩,
      -- `a[2][1]` goes to a value, and to the register that held the inner index of the store
      ⟨.load (some 3) (.value read) 1, some 0⟩, ⟨.load (some 3) (.slot 0) 1, some 0⟩,
      ⟨.intrinsic "emit" [.value read, .slot 0] none, some 0⟩]
    definers := #[some 0, some 1, some 4]
    blocks := #[⟨0, "loop", [0, 1, 2, 3, 4, 5, 6], [0], none, [], [], []⟩]
    layout := #[0]
    registers := #[r]
    registerCount := 1
    valueCount := 3 }

theorem tabulated_lowerable : tabulated.Lowerable where
  laid := by decide +kernel
  single := by decide +kernel
  built := by
    have h0 := Built.empty.var ⟨0, 0, "a", .array (.array (.scalar .uint) 2) 3, .local, none⟩
    have h1 := @Built.array _ (some 0) (.value ⟨1, 1, 1, 16⟩) _ h0 rfl
    have h2 := @Built.array _ (some 1) (.slot 0) _ h1 rfl
    exact @Built.array _ (some 1) (.value ⟨0, 0, 1, 32⟩) _ h2 rfl
  castFree := by decide +kernel
  indicesFit := by decide +kernel
  span_le := by decide +kernel

/-- After two rounds the element stands in slot 5 of its register. The register that was loaded
keeps the component outside of the load. -/
theorem tabulated_runs :
    let m : Machine Unit := ⟨fun _ _ o => (fun _ => 0, o), fun _ _ o => (fun _ => 0, o)⟩
    let s : State Unit := ⟨fun _ _ => 0, fun _ _ _ => 9, fun _ _ => 0, [], ()⟩
    ∃ t, Matches tabulated tabulated.lowerLocals.table (fun _ => False) s t ∧
      (tabulated.lowerLocals.body.run m [0, 0] t).calls = (tabulated.run m [0, 0] s).calls ∧
      (tabulated.run m [0, 0] s).calls.map (fun c => (c.1, c.2.map fun x => (x 0, x 1))) =
        [("emit", [(2, 0), (2, 9)]), ("emit", [(2, 0), (2, 9)])] ∧
      (tabulated.lowerLocals.body.run m [0, 0] t).registers ⟨0, 0, 2, 32, 0⟩ 0 0 = 2 ∧
      (tabulated.lowerLocals.body.run m [0, 0] t).registers ⟨0, 0, 2, 32, 0⟩ 0 1 = 9 ∧
      (tabulated.lowerLocals.body.run m [0, 0] t).registers ⟨1, 1, 1, 32, 6⟩ 5 0 = 2 := by
  intro m s
  obtain ⟨next, -, hruns⟩ := lowerLocals_preserves_runs tabulated tabulated_lowerable
    (by decide +kernel) (by decide +kernel)
  obtain ⟨-, ⟨t, ht⟩, hmatch⟩ := hruns Unit m [0, 0] s ⟨by decide +kernel, by decide +kernel⟩
    (by decide +kernel) (by decide +kernel)
  obtain ⟨hrun, -⟩ := hmatch t ht
  have hloaded := hrun.registers ⟨0, 0, 2, 32, 0⟩ (by decide)
  refine ⟨t, ht, hrun.calls, by decide +kernel, ?_, ?_, ?_⟩
  · rw [hloaded]
    decide +kernel
  · rw [hloaded]
    decide +kernel
  obtain ⟨e, he, hdest, hreg⟩ : ∃ e ∈ tabulated.lowerLocals.table.entries,
      e.deref = some 2 ∧ e.reg = ⟨1, 1, 1, 32, 6⟩ := by decide +kernel
  let p : Place :=
    ⟨⟨0, 0, "a", .array (.array (.scalar .uint) 2) 3, .local, none⟩, [.index 1, .index 2]⟩
  have hnumber : (p.number : Int) = 5 := by decide +kernel
  have hslot := hrun.locals e he p rfl (by rw [hdest]; decide +kernel) (by decide +kernel)
  rw [hreg, hnumber] at hslot
  refine (congrFun hslot 0).trans ?_
  decide +kernel

def widened : Body :=
  let x : Variable := ⟨0, 0, "x", .vector .uint 16, .local, none⟩
  let r : Register := ⟨0, 0, 16, 32, 0⟩
  { links := #[varLink x]
    slots := #[⟨some r, 0, none⟩]
    instrs := #[⟨.load (some 0) (.slot 0) 16, some 0⟩]
    blocks := #[⟨0, "b0", [0], [], none, [], [], []⟩]
    layout := #[0]
    registers := #[r]
    registerCount := 1 }

theorem widened_lowerable : widened.Lowerable where
  laid := by decide +kernel
  single := by decide +kernel
  built := Built.empty.var ⟨0, 0, "x", .vector .uint 16, .local, none⟩
  castFree := by decide +kernel
  indicesFit := by decide +kernel
  span_le := by decide +kernel

/-- Lowering succeeds on the load of sixteen components, and the move that takes its place writes
eight. -/
theorem widened_loses_components :
    let m : Machine Unit := ⟨fun _ _ o => (fun _ => 0, o), fun _ _ o => (fun _ => 0, o)⟩
    let s : State Unit := ⟨fun _ _ => 0, fun _ _ _ => 0, fun _ _ => 7, [], ()⟩
    widened.Lowerable ∧ widened.lowerLocals.error = none ∧ widened.IsPath [0] ∧
      Covered (fun _ => False) (widened.along [0]) ∧ InBoundsAlong m s (widened.along [0]) ∧
      (∀ i < 16, (widened.run m [0] s).registers ⟨0, 0, 16, 32, 0⟩ 0 i = 7) ∧
      (∃ t, Matches widened widened.lowerLocals.table (fun _ => False) s t) ∧
      ∀ t, Matches widened widened.lowerLocals.table (fun _ => False) s t →
        (widened.lowerLocals.body.run m [0] t).registers ⟨0, 0, 16, 32, 0⟩ 0 8 = 0 ∧
        ¬ Matches widened widened.lowerLocals.table (fun _ => False) (widened.run m [0] s)
          (widened.lowerLocals.body.run m [0] t) := by
  intro m s
  refine ⟨widened_lowerable, by decide +kernel, ⟨by decide +kernel, by decide +kernel⟩,
    by decide +kernel, by decide +kernel, by decide +kernel,
    widened_lowerable.exists_matches (by decide +kernel) s, fun t ht => ?_⟩
  have hcode : widened.lowerLocals.body.along [0] =
      [.alu .mov [.slot ⟨some ⟨1, 1, 16, 32, 0⟩, 0, none⟩]
        (.slot ⟨some ⟨0, 0, 16, 32, 0⟩, 0, none⟩) 255] := by decide +kernel
  have hkept : (widened.lowerLocals.body.run m [0] t).registers ⟨0, 0, 16, 32, 0⟩ 0 8 =
      t.registers ⟨0, 0, 16, 32, 0⟩ 0 8 := by
    rw [Body.run, hcode, execAll_cons, execAll_nil, exec_move]
    simp [State.write, State.slotNumber, blend, covers, Nat.testBit]
  have hold := congrFun (congrFun (ht.registers ⟨0, 0, 16, 32, 0⟩ (by decide)) 0) 8
  refine ⟨hkept.trans hold, fun hrun => ?_⟩
  have hsame := congrFun (congrFun (hrun.registers ⟨0, 0, 16, 32, 0⟩ (by decide)) 0) 8
  rw [hkept, hold] at hsame
  exact absurd hsame (by decide +kernel)

end ShaderIR
