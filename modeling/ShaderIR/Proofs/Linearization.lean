import Mathlib.Data.Int.ModEq
import ShaderIR.Proofs.LoweringMeaning
import ShaderIR.Proofs.PassFaults

/-!
# The slot of a chain as a sum of its indices

Address code sums up the indices of a chain, each times the product of the array lengths further in.
Whatever the indices are, the sum is right modulo 2 ^ 32, although part of it is computed
beforehand on 64 bits and the rest at run time on 32. In bounds it is the sum itself, and chains of
one identity share a slot exactly if their indices are the same.
-/

set_option autoImplicit false

namespace ShaderIR

open Text

/-- The sum of the indices, each times the product of the lengths further in. An index stands beside
the length of its array, the outermost first. -/
def rowMajor : List (UInt32 × Int) → Int
  | [] => 0
  | (i, _) :: rest => i.toNat * (rest.map Prod.snd).prod + rowMajor rest

def Within (xs : List (UInt32 × Int)) : Prop := ∀ x ∈ xs, (x.1.toNat : Int) < x.2

instance (xs : List (UInt32 × Int)) : Decidable (Within xs) :=
  inferInstanceAs (Decidable (∀ x ∈ xs, (x.1.toNat : Int) < x.2))

theorem rowMajor_concat (xs : List (UInt32 × Int)) (i : UInt32) (n : Int) :
    rowMajor (xs ++ [(i, n)]) = n * rowMajor xs + i.toNat := by
  induction xs with
  | nil => simp [rowMajor]
  | cons x xs ih =>
    simp only [List.cons_append, rowMajor, ih, List.map_append, List.prod_append, List.map_cons,
      List.map_nil, List.prod_singleton]
    ring

theorem Within.rowMajor_lt {xs : List (UInt32 × Int)} (h : Within xs) :
    0 ≤ rowMajor xs ∧ rowMajor xs < (xs.map Prod.snd).prod := by
  induction xs with
  | nil => simp [rowMajor]
  | cons x xs ih =>
    obtain ⟨i, n⟩ := x
    obtain ⟨hnonneg, hlt⟩ := ih fun x hx => h x (.tail _ hx)
    have hi : (i.toNat : Int) < n := h (i, n) (.head _)
    simp only [rowMajor, List.map_cons, List.prod_cons]
    generalize (xs.map Prod.snd).prod = p at hlt ⊢
    constructor
    · nlinarith
    · nlinarith

/-- In bounds the sum determines the indices. -/
theorem Within.eq_of_rowMajor {xs ys : List (UInt32 × Int)} (hx : Within xs) (hy : Within ys)
    (hlen : xs.map Prod.snd = ys.map Prod.snd) (h : rowMajor xs = rowMajor ys) : xs = ys := by
  induction xs generalizing ys with
  | nil => simpa using hlen.symm
  | cons x xs ih =>
    cases ys with
    | nil => simp at hlen
    | cons y ys =>
      obtain ⟨i, n⟩ := x
      obtain ⟨j, n'⟩ := y
      simp only [List.map_cons, List.cons.injEq] at hlen
      obtain ⟨rfl, hlen⟩ := hlen
      have hx' : Within xs := fun x hx' => hx x (.tail _ hx')
      have hy' : Within ys := fun y hy' => hy y (.tail _ hy')
      obtain ⟨hx0, hxlt⟩ := hx'.rowMajor_lt
      obtain ⟨hy0, hylt⟩ := hy'.rowMajor_lt
      simp only [rowMajor, hlen] at h hxlt
      generalize hp : (ys.map Prod.snd).prod = p at h hxlt hylt
      obtain ⟨p, rfl⟩ := Int.eq_ofNat_of_zero_le (show 0 ≤ p by omega)
      obtain ⟨r, hr⟩ := Int.eq_ofNat_of_zero_le hx0
      obtain ⟨q, hq⟩ := Int.eq_ofNat_of_zero_le hy0
      rw [hr, hq] at h
      have hdigits : r + p * i.toNat = q + p * j.toNat := by
        have hcast : (r : Int) + p * i.toNat = q + p * j.toNat := by linarith
        exact_mod_cast hcast
      obtain ⟨hrest, hij⟩ := Ty.eq_of_digits (by omega) (by omega) hdigits
      rw [UInt32.toNat_inj.mp hij, ih hx' hy' hlen (by rw [hr, hq, hrest])]

section

variable {ε : Type} {s t : State ε}

def State.coordinates (s : State ε) : List Hop → List (UInt32 × Int)
  | [] => []
  | hop :: rest =>
    match hop.kind with
    -- the chain is given from its end, its coordinates from the root
    | .array index => s.coordinates rest ++ [(indexOf (s.read index), (hopsType rest).length)]
    | _ => s.coordinates rest

theorem State.coordinates_array (s : State ε) {hop : Hop} {rest : List Hop} {index : Site}
    (hk : hop.kind = .array index) : s.coordinates (hop :: rest) =
      s.coordinates rest ++ [(indexOf (s.read index), (hopsType rest).length)] := by
  simp [State.coordinates, hk]

theorem State.coordinates_skip (s : State ε) {hop : Hop} {rest : List Hop}
    (hk : ∀ index, hop.kind ≠ .array index) :
    s.coordinates (hop :: rest) = s.coordinates rest := by
  cases hkd : hop.kind with
  | array index => exact absurd hkd (hk index)
  | _ => simp [State.coordinates, hkd]

/-- The bounds, the product of the lengths and the number of a chain are those of its
coordinates. -/
theorem State.coordinates_spec (s : State ε) (hops : List Hop) :
    (Within (s.coordinates hops) ↔ s.InBounds hops) ∧
      ((s.coordinates hops).map Prod.snd).prod = span hops ∧
      (s.InBounds hops → s.slotOf hops = rowMajor (s.coordinates hops)) := by
  induction hops with
  | nil => simp [State.coordinates, Within, State.InBounds, span, State.slotOf, rowMajor]
  | cons hop rest ih =>
    obtain ⟨hin, hprod, hnumber⟩ := ih
    cases hk : hop.kind with
    | array index =>
      rw [s.coordinates_array hk, rowMajor_concat]
      refine ⟨?_, ?_, ?_⟩
      · simp only [Within, List.mem_append, List.mem_singleton, or_imp, forall_and, forall_eq,
          State.InBounds, hk] at hin ⊢
        rw [hin, and_comm]
      · simp [span, hk, hprod, mul_comm]
      · rintro ⟨hlt, hrest⟩
        simp only [hk] at hlt
        have hlen : ((hopsType rest).length.toNat : Int) = (hopsType rest).length := by omega
        simp only [State.slotOf, hk]
        push_cast
        rw [hlen, hnumber hrest, add_comm]
    | _ => simpa [State.coordinates, State.InBounds, span, State.slotOf, hk] using
        ⟨hin, hprod, hnumber⟩

theorem Agree.coordinates {K : Value → Prop} {R : Register → Prop} {M : Variable → Prop}
    (h : Agree K R M s t) (hops : List Hop) (hu : ∀ v ∈ hops.flatMap Hop.uses, K v)
    (hr : ∀ r ∈ hops.flatMap Hop.registers, R r) : t.coordinates hops = s.coordinates hops := by
  induction hops with
  | nil => rfl
  | cons hop rest ih =>
    simp only [List.flatMap_cons, List.mem_append] at hu hr
    have hrest := ih (fun v hv => hu v (.inr hv)) fun r hr' => hr r (.inr hr')
    cases hk : hop.kind with
    | array index =>
      have hread : t.read index = s.read index :=
        h.read (fun v hv => hu v (.inl (by simpa [Hop.uses, hk] using hv)))
          fun r hr' => hr r (.inl (by simpa [Hop.registers, hk] using hr'))
      rw [t.coordinates_array hk, s.coordinates_array hk, hread, hrest]
    | _ => simpa [State.coordinates, hk] using hrest

theorem lengths_congr {b c : Body} {as bs : List Link}
    (h : as.map Link.outline = bs.map Link.outline) :
    (s.coordinates (as.map b.hop)).map Prod.snd = (t.coordinates (bs.map c.hop)).map Prod.snd := by
  induction as generalizing bs with
  | nil =>
    obtain rfl : bs = [] := by simpa using h.symm
    rfl
  | cons x as ih =>
    cases bs with
    | nil => simp at h
    | cons y bs =>
      simp only [List.map_cons, List.cons.injEq] at h
      have hrest := ih h.2
      have hhead := headType_congr h.2
      have hturn : x.kind.turn = y.kind.turn := congrArg Prod.fst h.1
      cases hx : x.kind <;> cases hy : y.kind <;>
        simp_all [State.coordinates, Body.hop, hopsType_hop]

end

theorem wrap64_modEq (n : Int) : wrap64 n ≡ n [ZMOD 2 ^ 32] := by
  have hwide : wrap64 n ≡ n [ZMOD 2 ^ 64] := Int.bmod_emod
  exact hwide.of_dvd (by norm_num)

theorem ofInt_modEq (i : Int) : ((UInt32.ofInt i).toNat : Int) ≡ i [ZMOD 2 ^ 32] := by
  simp only [UInt32.ofInt, UInt32.toNat_ofNat', Int.ModEq]
  omega

theorem add_mul_modEq (x y z : UInt32) :
    ((x + y * z).toNat : Int) ≡ x.toNat + y.toNat * z.toNat [ZMOD 2 ^ 32] := by
  rw [UInt32.toNat_add, UInt32.toNat_mul, Nat.add_mod_mod]
  push_cast
  exact Int.mod_modEq _ _

/-- An index and the sum further out, which counts from the next stride on, make up one sum. -/
theorem next_modEq {total slot acc stride i n rest : Int}
    (hslot : slot ≡ acc + i * stride [ZMOD 2 ^ 32])
    (htotal : total ≡ slot + wrap64 (stride * n) * rest [ZMOD 2 ^ 32]) :
    total ≡ acc + stride * (n * rest + i) [ZMOD 2 ^ 32] := by
  calc
    total ≡ slot + wrap64 (stride * n) * rest [ZMOD 2 ^ 32] := htotal
    _ ≡ acc + i * stride + stride * n * rest [ZMOD 2 ^ 32] :=
      hslot.add ((wrap64_modEq _).mul_right _)
    _ = acc + stride * (n * rest + i) := by ring

section

variable {ε : Type} {m : Machine ε} {s : State ε} {known : Site → Option UInt64} {hops : List Hop}
  {code : List Action}

/-- After an index was added to a sum, the rest of the chain and of its code are as before. -/
theorem Adds.onward {sum total : Value} {index : Site} {stride : Int} {code' : List Action}
    (h : Adds sum index stride code total) (hf : Foresees known s hops)
    (hn : (results (code ++ code')).Nodup) (hs : sum ∉ results (code ++ code'))
    (hi : ∀ v ∈ index.uses, v ∉ results (code ++ code'))
    (hh : ∀ v ∈ hops.flatMap Hop.uses, v ∉ results (code ++ code')) :
    ((indexOf ((execAll m s code).values total)).toNat : Int) ≡
        (indexOf (s.values sum)).toNat + (indexOf (s.read index)).toNat * stride [ZMOD 2 ^ 32] ∧
      (execAll m s code).coordinates hops = s.coordinates hops ∧
      Foresees known (execAll m s code) hops ∧ (results code').Nodup ∧ total ∉ results code' := by
  rw [results_append] at hn hs hi hh
  obtain ⟨hn₁, hn₂, hdisj⟩ := List.nodup_append.mp hn
  obtain ⟨hcode, htotal⟩ := h.exec (m := m) (s := s) hn₁ (fun hr => hs (List.mem_append_left _ hr))
    fun v hv hr => hi v hv (List.mem_append_left _ hr)
  have hkept : ∀ v ∈ hops.flatMap Hop.uses, v ∉ results code := fun v hv hr =>
    hh v hv (List.mem_append_left _ hr)
  refine ⟨?_, hcode.coordinates hops hkept fun _ _ => trivial,
    hf.of_agree hcode hkept fun _ _ => trivial, hn₂, ?_⟩
  · rw [htotal]
    exact (add_mul_modEq _ _ _).trans ((ofInt_modEq stride).mul_left _ |>.add_left _)
  · obtain ⟨-, hr⟩ := h.covered (K := fun _ => True) trivial fun _ _ => trivial
    exact fun hr' => hdisj total (mem_results.mpr hr) total hr' rfl

/-- An index added to a sum, and then the rest of the chain, make up the whole chain. -/
theorem Adds.then_modEq {hop : Hop} {sum total : Value} {index : Site} {stride : Int}
    {code' : List Action} {slot' : Slot} (h : Adds sum index stride code total)
    (hk : hop.kind = .array index) (hf : Foresees known s (hop :: hops))
    (hn : (results (code ++ code')).Nodup) (hs : sum ∉ results (code ++ code'))
    (hh : ∀ v ∈ (hop :: hops).flatMap Hop.uses, v ∉ results (code ++ code'))
    (hrest : ∀ {t : State ε}, Foresees known t hops → (results code').Nodup →
      (∀ v ∈ hops.flatMap Hop.uses, v ∉ results code') → total ∉ results code' →
      (execAll m t code').slotNumber slot' ≡ (indexOf (t.values total)).toNat +
        wrap64 (stride * (hopsType hops).length) * rowMajor (t.coordinates hops) [ZMOD 2 ^ 32]) :
    (execAll m s (code ++ code')).slotNumber slot' ≡
      (indexOf (s.values sum)).toNat + stride * rowMajor (s.coordinates (hop :: hops))
        [ZMOD 2 ^ 32] := by
  have hfrest : Foresees known s hops := fun hop hh => hf hop (.tail _ hh)
  obtain ⟨hsum, hcoords, hf', hn', htotal⟩ := h.onward (m := m) hfrest hn hs
    (fun v hv => hh v (List.mem_append_left _ (by simpa [Hop.uses, hk] using hv)))
    fun v hv => hh v (List.mem_append_right _ hv)
  have hnumber := hrest hf' hn'
    (fun v hv hr => hh v (List.mem_append_right _ hv)
      (by rw [results_append]; exact List.mem_append_right _ hr)) htotal
  rw [hcoords] at hnumber
  rw [s.coordinates_array hk, rowMajor_concat, execAll_append]
  exact next_modEq hsum hnumber

/-- Address code adds to a slot the sum of the indices, stride by stride. -/
theorem AddressCode.exec_modEq {stride : Int} {slot slot' : Slot}
    (h : AddressCode known hops stride slot code slot') (hf : Foresees known s hops)
    (hn : (results code).Nodup) (hh : ∀ v ∈ hops.flatMap Hop.uses, v ∉ results code)
    (hs : ∀ v ∈ slot.indirect, v ∉ results code) :
    (execAll m s code).slotNumber slot' ≡
      s.slotNumber slot + stride * rowMajor (s.coordinates hops) [ZMOD 2 ^ 32] := by
  induction h generalizing s with
  | root stride slot => simp [State.coordinates, rowMajor, execAll_nil]
  | @skip hop rest stride slot slot' code hk h ih =>
    rw [s.coordinates_skip hk]
    exact ih (fun hop hh => hf hop (.tail _ hh)) hn (fun v hv => hh v (List.mem_append_right _ hv))
      hs
  | @fold hop rest index n stride slot slot' code hk hsi hkn h ih =>
    rw [s.coordinates_array hk, rowMajor_concat]
    have hrest := ih (fun hop hh => hf hop (.tail _ hh)) hn
      (fun v hv => hh v (List.mem_append_right _ hv)) hs
    refine next_modEq ?_ hrest
    have hindex : (indexOf (s.read index)).toNat = n.toNat % 0x100000000 := by
      rw [hf hop (.head _) index hk n hkn, UInt32.toNat_ofNat']
    simp only [State.slotNumber, hsi, add_zero, hindex]
    exact wrap64_modEq _
  | @start hop rest index stride z sum slot slot' code code' hk hsi hz ha h ih =>
    -- The sum starts with what was added beforehand, cut to 32 bits.
    have hcons : results (.const z [Cursor.word slot.base] :: (code ++ code')) =
      z :: results (code ++ code') := rfl
    rw [hcons] at hn hh
    obtain ⟨hz', hn⟩ := List.nodup_cons.mp hn
    have hfirst : Computes m s [.const z [Cursor.word slot.base]] :=
      .cons (exec_word m s z _) rfl (.refl _)
    have hvalue :
        ((indexOf ((execAll m s [.const z [Cursor.word slot.base]]).values z)).toNat : Int) ≡
          slot.base [ZMOD 2 ^ 32] := by
      rw [execAll_cons, execAll_nil, exec_word, define_values, hz, indexOf_intWord]
      exact ofInt_modEq _
    have hkept : ∀ v ∈ (hop :: rest).flatMap Hop.uses,
        v ∉ results [.const z [Cursor.word slot.base]] := fun v hv hr =>
      hh v hv (by simpa [results] using .inl (List.mem_singleton.mp hr))
    have hf := hf.of_agree hfirst hkept fun _ _ => trivial
    rw [← hfirst.coordinates (hop :: rest) hkept fun _ _ => trivial]
    have hslot : s.slotNumber slot = slot.base := by simp [State.slotNumber, hsi]
    rw [hslot]
    refine .trans ?_ (hvalue.add_right _)
    exact ha.then_modEq hk hf hn hz' (fun v hv hr => hh v hv (.tail _ hr))
      fun {t} hf' hn' hh' hs' => by
        simpa [State.slotNumber] using ih (s := t) hf' hn' hh' (by rintro v ⟨⟩; exact hs')
  | @more hop rest index stride sum sum' slot slot' code code' hk hsi hb ha h ih =>
    have hslot : s.slotNumber slot = (indexOf (s.values sum)).toNat := by
      simp [State.slotNumber, hsi, hb]
    rw [hslot]
    exact ha.then_modEq hk hf hn (hs sum hsi) hh fun {t} hf' hn' hh' hs' => by
      simpa [State.slotNumber, hb] using ih (s := t) hf' hn' hh' (by rintro v ⟨⟩; exact hs')

end

def Body.emitted (b c : Body) : List InstrId :=
  List.range' b.instrs.size (c.instrs.size - b.instrs.size)

def Body.landing {ε : Type} (b : Body) (m : Machine ε) (mark : InstrId) (h : Handle)
    (reg : Register) (s : State ε) : Option (Option Register × Int) :=
  match Lowering.linearize (.beforeInstr b mark) h reg b with
  | (.ok slot, c) =>
    some (slot.reg, (execAll m s ((b.emitted c).filterMap c.action?)).slotNumber slot)
  | (.error _, _) => none

/-- The instruction stands in the body, the index values of the chain were made by it, and the
constants among them have been computed. Those of less than 32 bits fit into their bits. -/
structure Body.Addressable {ε : Type} (b : Body) (mark : InstrId) (h : Handle) (s : State ε) :
    Prop where
  placed : mark ∈ b.placedInstrs
  made : ∀ v ∈ (b.hops h).flatMap Hop.uses, v.serial < b.definers.size
  fits : ∀ l ∈ chain b.links h, ∀ v ∈ l.index?, v.bits < 32 → ∀ n ∈ b.constant? (.value v),
    n.toNat < 2 ^ v.bits.toNat
  evaluated : b.Evaluated (· ∈ (b.hops h).flatMap Hop.uses) s

instance {ε : Type} (b : Body) (mark : InstrId) (h : Handle) (s : State ε) :
    Decidable (b.Addressable mark h s) :=
  -- `Option.all` looks at the one constant there may be, where `∀ n` would run through all words.
  decidable_of_iff (mark ∈ b.placedInstrs ∧
    (∀ v ∈ (b.hops h).flatMap Hop.uses, v.serial < b.definers.size) ∧
    (∀ l ∈ chain b.links h, ∀ v ∈ l.index?, v.bits < 32 →
      (b.constant? (.value v)).all fun n => n.toNat < 2 ^ v.bits.toNat) ∧
    ∀ v ∈ (b.hops h).flatMap Hop.uses,
      (b.constant? (.value v)).all fun n => s.values v 0 = n.toNat % 2 ^ v.bits.toNat) <| by
    simp only [Option.all_eq_true, decide_eq_true_eq]
    exact ⟨fun ⟨hp, hm, hf, he⟩ => ⟨hp, hm, hf, he⟩,
      fun ha => ⟨ha.placed, ha.made, ha.fits, ha.evaluated⟩⟩

section

variable {ε : Type} {m : Machine ε} {s : State ε} {b c : Body} {k : BlockId} {mark : InstrId}
  {h : Handle} {reg : Register} {ops : List Op}

theorem Emits.emitted (he : Emits k mark ops b c) :
    b.emitted c = List.range' b.instrs.size ops.length := by
  rw [Body.emitted, he.size, Nat.add_sub_cancel_left]

theorem Emits.emitted_actions (he : Emits k mark ops b c) (ht : SameTables b c) :
    (b.emitted c).filterMap c.action? = ops.map b.action := by
  rw [he.emitted]
  refine filterMap_range' fun i op hop => ?_
  simp [Body.action?, he.op?_new hop, ht.action]

theorem Emits.results_fresh (he : Emits k mark ops b c) :
    (results (ops.map b.action)).Nodup ∧
      ∀ v ∈ results (ops.map b.action), b.definers.size ≤ v.serial := by
  have hresults : results (ops.map b.action) = ops.filterMap Op.result? := by
    simp [results, List.filterMap_map, Body.result?_action]
  rw [hresults]
  constructor
  · refine .of_map (·.serial) ?_
    rw [he.serials]
    exact List.nodup_range'
  · intro v hv
    obtain ⟨op, hop, hr⟩ := List.mem_filterMap.mp hv
    exact (he.result_ge hop hr).1

/-- The code of a chain is found for every register, and stands in front of the instruction. -/
theorem linearize_emits (hl : b.Laid) (hk : k ∈ b.layout) (hm : mark ∈ b.held k)
    (hv : ∀ v ∈ (b.hops h).flatMap Hop.uses, v.serial < b.definers.size) (reg : Register) :
    ∃ slot c ops, Lowering.linearize (.beforeInstr b mark) h reg b = (.ok slot, c) ∧
      Emits k mark ops b c ∧ SameTables b c ∧
      Locates b.known (b.hops h) reg (ops.map b.action) slot := by
  rw [hl.beforeInstr hk hm]
  obtain ⟨slot, c, hrun⟩ := succeeds_linearize (c := ⟨some k, some mark⟩) (b := b) h reg
  obtain ⟨ops, he, ht, hloc, -⟩ := emits_linearize
    (hl.lt_size (Body.mem_placedInstrs.mpr ⟨k, hk, hm⟩)) hrun
    (fun l hl' => hl.indices l (mem_of_mem_chain hl'))
    fun c hg l hl' o ho => hg.constant?_index hl hv hl' ho
  exact ⟨slot, c, ops, hrun, he, ht, hloc⟩

theorem Body.Addressable.landing (ha : b.Addressable mark h s) (hl : b.Laid) (m : Machine ε)
    (reg : Register) :
    ∃ code slot, b.landing m mark h reg s = some (some reg, (execAll m s code).slotNumber slot) ∧
      Locates b.known (b.hops h) reg code slot ∧ (results code).Nodup ∧
      ∀ v ∈ (b.hops h).flatMap Hop.uses, v ∉ results code := by
  obtain ⟨k, hk, hm⟩ := Body.mem_placedInstrs.mp ha.placed
  obtain ⟨slot, c, ops, hrun, he, ht, hloc⟩ := linearize_emits hl hk hm ha.made reg
  obtain ⟨hn, hfresh⟩ := he.results_fresh
  refine ⟨ops.map b.action, slot, ?_, hloc, hn, fun v hv hr => ?_⟩
  · simp only [Body.landing, hrun, he.emitted_actions ht, hloc.reg_eq]
  · exact absurd (ha.made v hv) (Nat.not_lt.mpr (hfresh v hr))

/-- The code leads to the row-major sum of the indices. -/
theorem Body.Addressable.landing_sum (ha : b.Addressable mark h s) (hl : b.Laid) (m : Machine ε)
    (helems : 0 < reg.arrayElems)
    (hsize : reg.arrayElems = RegisterTable.arraySize (chain b.links h)) :
    ∃ x, b.landing m mark h reg s = some (some reg, x) ∧
      x ≡ rowMajor (s.coordinates (b.hops h)) [ZMOD 2 ^ 32] ∧
      (((s.coordinates (b.hops h)).map Prod.snd).prod ≤ 2 ^ 32 →
        Within (s.coordinates (b.hops h)) →
        x = rowMajor (s.coordinates (b.hops h)) ∧ x < reg.arrayElems) := by
  obtain ⟨code, slot, hland, hloc, hn, hh⟩ := ha.landing hl m reg
  have hf : Foresees b.known s (b.hops h) := ha.evaluated.foresees ha.fits fun _ hv => hv
  refine ⟨_, hland, ?_, ?_⟩
  · rw [Locates, if_neg helems.ne'] at hloc
    simpa [State.slotNumber] using hloc.exec_modEq (m := m) hf hn hh (by simp)
  · intro hspan hwithin
    obtain ⟨hin, hprod, hnumber⟩ := s.coordinates_spec (b.hops h)
    have hlt := hwithin.rowMajor_lt.2
    rw [hprod] at hspan hlt
    replace hin := hin.mp hwithin
    have hreg : reg.arrayElems = if 1 < span (b.hops h) then span (b.hops h) else 0 := by
      rw [hsize, arraySize_eq_reserved b]
      exact hin.reserved_eq hspan
    obtain ⟨-, hslot⟩ := hloc.exec (m := m) hreg hspan hin hf hn hh
    rw [hslot, hnumber hin]
    refine ⟨rfl, ?_⟩
    split at hreg <;> omega

theorem Body.Laid.addRegister (hl : b.Laid) (reg : Register) :
    ({ b with registers := b.registers.push reg, registerCount := b.registerCount + 1 } :
      Body).Laid where
  indices := hl.indices
  descending := hl.descending
  once := hl.once
  home := hl.home
  named id hid op hop := (hl.named id hid op hop).congr rfl rfl
  made id hid a ha :=
    ⟨(hl.made id hid a ha).values,
      fun r hr => Nat.lt_succ_of_lt ((hl.made id hid a ha).registers r hr)⟩
  recorded := hl.recorded

theorem lookupOrCreate_shape {t t' : RegisterTable} {b₀ : Body} (hl : b₀.Laid)
    (hb : Built b₀.links) (ht : t.Sound b₀.links b₀.registerCount)
    (hlook : t.lookupOrCreate h b₀ = .ok (reg, t', b)) :
    b.Laid ∧ b.links = b₀.links ∧ (identity? (chain b.links h)).isSome ∧
      (headType (chain b.links h)).isVectorOrScalar = true ∧
      reg.arrayElems = RegisterTable.arraySize (chain b.links h) := by
  obtain ⟨hsound, hlinks⟩ := ht.lookup hb rfl hlook
  obtain ⟨⟨e, he, rfl, hturns⟩, hcase⟩ := RegisterTable.lookupOrCreate_ok hb rfl ht hlook
  have hout := hsound.outline_eq hb he hturns
  rw [hlinks, ← identity?_congr hturns, ← headType_congr hout, ← arraySize_congr hout]
  refine ⟨?_, rfl, hsound.identity he, hsound.leaf e he, (hsound.shape e he).2.2⟩
  rcases hcase with ⟨-, rfl⟩ | ⟨hash, -, -, -, -, -, rfl⟩
  · exact hl
  · exact hl.addRegister _

end

/-- The code that is put in front of an instruction for a chain leads to the row-major sum of the
indices, whether they are constants, values or registers. For all indices this holds modulo 2 ^ 32.
If the lengths have a product of at most 2 ^ 32 and the indices are in bounds, the sum is a slot of
the register, and two chains of one identity lead to one slot exactly if their indices are the
same. -/
theorem linearize_rowMajor {ε : Type} (m : Machine ε) {t t' : RegisterTable} {b₀ b : Body}
    {h : Handle} {reg : Register} (hl : b₀.Laid) (hb : Built b₀.links)
    (ht : t.Sound b₀.links b₀.registerCount) (hlook : t.lookupOrCreate h b₀ = .ok (reg, t', b))
    (helems : 0 < reg.arrayElems) {mark : InstrId} {s : State ε} (ha : b.Addressable mark h s) :
    (∃ slot c, Lowering.linearize (.beforeInstr b mark) h reg b = (.ok slot, c) ∧
      ∀ k pre post, k ∈ b.layout → b.held k = pre ++ mark :: post →
        c.held k = pre ++ b.emitted c ++ mark :: post) ∧
    (∃ x, b.landing m mark h reg s = some (some reg, x) ∧
      x ≡ rowMajor (s.coordinates (b.hops h)) [ZMOD 2 ^ 32] ∧
      (((s.coordinates (b.hops h)).map Prod.snd).prod ≤ 2 ^ 32 →
        Within (s.coordinates (b.hops h)) →
        x = rowMajor (s.coordinates (b.hops h)) ∧ x < reg.arrayElems)) ∧
    (((s.coordinates (b.hops h)).map Prod.snd).prod ≤ 2 ^ 32 → Within (s.coordinates (b.hops h)) →
      ∀ h', identity? (chain b.links h') = identity? (chain b.links h) →
        (headType (chain b.links h')).isVectorOrScalar = true →
        ∀ (mark' : InstrId) (s' : State ε), b.Addressable mark' h' s' →
          Within (s'.coordinates (b.hops h')) →
          (b.landing m mark h reg s = b.landing m mark' h' reg s' ↔
            (s.coordinates (b.hops h)).map Prod.fst =
              (s'.coordinates (b.hops h')).map Prod.fst)) := by
  obtain ⟨hl, hlinks, hid, hleaf, hsize⟩ := lookupOrCreate_shape hl hb ht hlook
  rw [← hlinks] at hb
  refine ⟨?_, ha.landing_sum hl m helems hsize, ?_⟩
  · obtain ⟨k, hk, hm⟩ := Body.mem_placedInstrs.mp ha.placed
    obtain ⟨slot, c, ops, hrun, he, -, -⟩ := linearize_emits hl hk hm ha.made reg
    refine ⟨slot, c, hrun, fun j pre post hj hheld => ?_⟩
    obtain rfl := hl.block_unique hj hk (by simp [hheld]) hm
    have hnodup := hl.nodup_held hk
    rw [hheld, List.nodup_append] at hnodup
    rw [he.emitted]
    exact he.held pre post hheld fun hpre => hnodup.2.2 mark hpre mark (.head _) rfl
  · intro hspan hwithin h' hid' hleaf' mark' s' ha' hwithin'
    have hturns := turns_eq_of_identity (hb.typed_chain h) (hb.typed_chain h') hleaf hleaf' hid
      hid'.symm
    have hout := outline_eq_of_turns (hb.typed_chain h) (hb.typed_chain h') hid hturns
    have hlen : (s.coordinates (b.hops h)).map Prod.snd =
        (s'.coordinates (b.hops h')).map Prod.snd := lengths_congr hout
    obtain ⟨x, hx, -, hexact⟩ := ha.landing_sum hl m helems hsize
    obtain ⟨y, hy, -, hexact'⟩ := ha'.landing_sum hl m helems (hsize.trans (arraySize_congr hout))
    rw [hx, hy, (hexact hspan hwithin).1, (hexact' (hlen ▸ hspan) hwithin').1]
    simp only [Option.some.injEq, Prod.mk.injEq, true_and]
    constructor
    · intro hsum
      rw [hwithin.eq_of_rowMajor hwithin' hlen hsum]
    · intro hindices
      rw [List.zip_of_prod hindices hlen, ← List.zip_of_prod rfl rfl]

/-- For the element `a[2][1]`, the inner index from a register or from a constant leads to slot 5 of
the same register. -/
theorem tabulated_landing :
    let m : Machine Unit := ⟨fun _ _ o => (fun _ => 0, o), fun _ _ o => (fun _ => 0, o)⟩
    let s : State Unit :=
      ⟨fun v _ => v.serial + 1, fun _ _ _ => 1, fun _ _ => 0, [], ()⟩
    let reg : Register := ⟨1, 1, 1, 32, 6⟩
    ∃ t b, RegisterTable.empty.lookupOrCreate (some 2) tabulated = .ok (reg, t, b) ∧
      s.coordinates (b.hops (some 2)) = [(2, 3), (1, 2)] ∧
      b.landing m 3 (some 2) reg s = some (some reg, 5) ∧
      b.landing m 3 (some 2) reg s = b.landing m 4 (some 3) reg s := by
  intro m s reg
  obtain ⟨t, b, hlook, hcoords, ha, ha', hid, hleaf, hindices, hwithin'⟩ :
      ∃ t b, RegisterTable.empty.lookupOrCreate (some 2) tabulated = .ok (reg, t, b) ∧
        s.coordinates (b.hops (some 2)) = [(2, 3), (1, 2)] ∧ b.Addressable 3 (some 2) s ∧
        b.Addressable 4 (some 3) s ∧
        identity? (chain b.links (some 3)) = identity? (chain b.links (some 2)) ∧
        (headType (chain b.links (some 3))).isVectorOrScalar = true ∧
        (s.coordinates (b.hops (some 2))).map Prod.fst =
          (s.coordinates (b.hops (some 3))).map Prod.fst ∧
        Within (s.coordinates (b.hops (some 3))) :=
    ⟨_, _, rfl, by decide +kernel⟩
  obtain ⟨-, ⟨x, hx, -, hsum⟩, hslot⟩ := linearize_rowMajor m tabulated_lowerable.laid
    tabulated_lowerable.built (.empty _ _) hlook (by decide) ha
  rw [hcoords] at hsum hslot hindices
  obtain ⟨rfl, -⟩ := hsum (by decide) (by decide)
  exact ⟨t, b, hlook, hcoords, hx, (hslot (by decide) (by decide) (some 3) hid hleaf 4 s ha'
    hwithin').mpr hindices⟩

end ShaderIR
