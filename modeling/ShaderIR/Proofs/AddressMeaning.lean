import Mathlib.Tactic.Ring
import ShaderIR.Proofs.Addressing
import ShaderIR.Proofs.RowMajor

/-!
# What address code computes

Address code works on 32 bits, which is enough for a chain whose array lengths have a product of at
most 2 ^ 32. When the indices of the chain are in bounds, and the constants that were added
beforehand are what the indices are, the slot that the code leaves is the row-major number of the
place at the end of the chain.
-/

set_option autoImplicit false

namespace ShaderIR

open Text

def results (code : List Action) : List Value := code.filterMap Action.result?

theorem results_append (code code' : List Action) :
    results (code ++ code') = results code ++ results code' :=
  List.filterMap_append

theorem mem_results {v : Value} {code : List Action} :
    v ∈ results code ↔ ∃ a ∈ code, a.result? = some v :=
  List.mem_filterMap

section

variable {ε : Type} (m : Machine ε) (s : State ε)

abbrev Computes (code : List Action) : Prop :=
  Agree (· ∉ results code) (fun _ => True) (fun _ => True) s (execAll m s code)

variable {m s}

theorem Computes.append {code code' : List Action} (h : Computes m s code)
    (h' : Computes m (execAll m s code) code') : Computes m s (code ++ code') := by
  unfold Computes at h h' ⊢
  rw [execAll_append, results_append]
  exact (h.mono (fun v hv hr => hv (List.mem_append_left _ hr)) (fun _ h => h) fun _ h => h).trans
    (h'.mono (fun v hv hr => hv (List.mem_append_right _ hr)) (fun _ h => h) fun _ h => h)

theorem Computes.cons {a : Action} {v : Value} {x : Lanes} {code : List Action}
    (h : a.exec m s = s.define v x) (hr : a.result? = some v)
    (h' : Computes m (s.define v x) code) : Computes m s (a :: code) := by
  have hfirst : Computes m s [a] := by
    unfold Computes
    rw [execAll_cons, execAll_nil, h]
    refine (agree_define s v x).mono (fun u hu => ?_) (fun _ h => h) fun _ h => h
    rintro rfl
    exact hu (by simp [results, hr])
  refine hfirst.append ?_
  rwa [execAll_cons, execAll_nil, h]

theorem Narrowed.exec {x : Site} {code : List Action} {i : Value} (h : Narrowed x code i) :
    Computes m s code ∧ indexOf ((execAll m s code).values i) = indexOf (s.read x) := by
  cases h with
  | plain hv => exact ⟨.refl s, rfl⟩
  | cut hw =>
    refine ⟨.cons (exec_u2u32 m s _ _ _) rfl (.refl _), ?_⟩
    rw [execAll_cons, execAll_nil, exec_u2u32, define_values, hw, indexOf_fit, indexOf_mod]
  | moved hv =>
    refine ⟨.cons (exec_mov m s _ _ _) rfl (.refl _), ?_⟩
    rw [execAll_cons, execAll_nil, exec_mov, define_values, hv, indexOf_fit]
  | @movedCut sl r v w mask mask' hr hv hw =>
    have hread : fit r.bits (s.read (.slot sl)) = s.read (.slot sl) := by
      simp [State.read, hr]
    refine ⟨.cons (exec_mov m s _ _ _) rfl (.cons (exec_u2u32 m _ _ _ _) rfl (.refl _)), ?_⟩
    rw [execAll_cons, execAll_cons, execAll_nil, exec_u2u32, define_values, hw, indexOf_fit,
      indexOf_mod, exec_mov, State.read, define_values, hv, hread]

theorem Adds.exec {sum total : Value} {x : Site} {stride : Int} {code : List Action}
    (h : Adds sum x stride code total) (hn : (results code).Nodup) (hs : sum ∉ results code)
    (hx : ∀ v ∈ x.uses, v ∉ results code) :
    Computes m s code ∧ indexOf ((execAll m s code).values total) =
      indexOf (s.values sum) + indexOf (s.read x) * UInt32.ofInt stride := by
  obtain @⟨code, i, n, p, total, mask, mask', hi, hnb, hp, ht⟩ := h
  obtain ⟨hcode, hindex⟩ := hi.exec (m := m) (s := s)
  generalize hs₁ : execAll m s code = s₁ at hindex
  have htail : results [.const n [Cursor.word stride],
      .alu .imul [.value i, .value n] (.value p) mask,
      .alu .iadd [.value sum, .value p] (.value total) mask'] = [n, p, total] := rfl
  rw [results_append, htail] at hn hs hx
  obtain ⟨-, -, hdisj⟩ := List.nodup_append.mp hn
  have hin : i ≠ n := by
    rintro rfl
    rcases (hi.covered (K := (· ∈ x.uses)) fun _ h => h).2 with hmem | hmem
    · exact hx i hmem (by simp)
    · exact hdisj i (mem_results.mpr hmem) i (by simp) rfl
  simp only [List.mem_append, List.mem_cons, List.not_mem_nil, or_false, not_or] at hs
  obtain ⟨hsum, hsn, hsp, -⟩ := hs
  refine ⟨hcode.append ?_, ?_⟩
  · exact .cons (exec_word m _ n stride) rfl (.cons (exec_imul m _ _ _ p mask) rfl
      (.cons (exec_iadd m _ _ _ total mask') rfl (.refl _)))
  · have hkept : s₁.values sum = s.values sum := hs₁ ▸ hcode.values sum hsum
    rw [execAll_append, hs₁]
    simp only [execAll_cons, execAll_nil, exec_word, exec_imul, exec_iadd]
    simp only [State.read_value]
    rw [define_values, ht, indexOf_fit, indexOf_add, define_values_of_ne _ hsp,
      define_values_of_ne _ hsn, hkept, define_values _ p, hp, indexOf_fit, indexOf_mul,
      define_values_of_ne _ hin, hindex, define_values, hnb, indexOf_intWord]

theorem Adds.exec_of_lt {sum total : Value} {x : Site} {k acc : Nat} {code : List Action}
    (h : Adds sum x k code total) (hn : (results code).Nodup) (hs : sum ∉ results code)
    (hx : ∀ v ∈ x.uses, v ∉ results code) (hacc : indexOf (s.values sum) = UInt32.ofNat acc)
    (hlt : acc + (indexOf (s.read x)).toNat * k < 2 ^ 32) :
    Computes m s code ∧ (indexOf ((execAll m s code).values total)).toNat =
      acc + (indexOf (s.read x)).toNat * k := by
  obtain ⟨hcode, hsum⟩ := h.exec (m := m) hn hs hx
  refine ⟨hcode, ?_⟩
  generalize hi : indexOf (s.read x) = i at hsum hlt ⊢
  rw [hsum, hacc, ofInt_natCast, UInt32.toNat_add, UInt32.toNat_mul, UInt32.toNat_ofNat',
    UInt32.toNat_ofNat', Nat.mul_mod_mod, Nat.mod_add_mod, Nat.add_mod_mod]
  exact Nat.mod_eq_of_lt hlt

end

def Foresees {ε : Type} (known : Site → Option UInt64) (s : State ε) (hops : List Hop) : Prop :=
  ∀ hop ∈ hops, ∀ x, hop.kind = .array x → ∀ n, known x = some n →
    indexOf (s.read x) = UInt32.ofNat n.toNat

section

variable {ε : Type} {m : Machine ε} {s : State ε} {known : Site → Option UInt64} {hops : List Hop}

theorem Foresees.of_agree {t : State ε} {K : Value → Prop} {R : Register → Prop}
    {M : Variable → Prop} (h : Foresees known s hops) (ha : Agree K R M s t)
    (hu : ∀ v ∈ hops.flatMap Hop.uses, K v) (hr : ∀ r ∈ hops.flatMap Hop.registers, R r) :
    Foresees known t hops := by
  intro hop hh x hk n hn
  rw [ha.read (x := x)]
  · exact h hop hh x hk n hn
  · exact fun v hv => hu v (List.mem_flatMap.mpr ⟨hop, hh, by simpa [Hop.uses, hk] using hv⟩)
  · exact fun r hv => hr r (List.mem_flatMap.mpr ⟨hop, hh, by simpa [Hop.registers, hk] using hv⟩)

theorem State.skip_eq (s : State ε) {hop : Hop} (rest : List Hop)
    (hk : ∀ index, hop.kind ≠ .array index) :
    span (hop :: rest) = span rest ∧ s.slotOf (hop :: rest) = s.slotOf rest := by
  cases hkd : hop.kind with
  | array x => exact absurd hkd (hk x)
  | _ => simp [span, State.slotOf, hkd]

/-- Below the stride and in bounds, an index leads to a slot below the next stride. -/
theorem State.InBounds.digit {hop : Hop} {rest : List Hop} {index : Site} {stride : Int} {acc : Nat}
    (hin : s.InBounds (hop :: rest)) (hk : hop.kind = .array index) (hlt : (acc : Int) < stride)
    (hspan : stride * span (hop :: rest) ≤ 2 ^ 32) :
    ((acc + (indexOf (s.read index)).toNat * stride.toNat : Nat) : Int) <
        wrap64 (stride * (hopsType rest).length) ∧
      wrap64 (stride * (hopsType rest).length) ≤ 2 ^ 32 ∧
      wrap64 (stride * (hopsType rest).length) * span rest ≤ 2 ^ 32 ∧
      acc + stride * s.slotOf (hop :: rest) =
        (acc + (indexOf (s.read index)).toNat * stride.toNat : Nat) +
          wrap64 (stride * (hopsType rest).length) * s.slotOf rest := by
  obtain ⟨hhop, hrest⟩ := hin
  have hpos := hrest.span_pos
  simp only [hk] at hhop
  simp only [span, State.slotOf, hk] at hspan ⊢
  generalize (indexOf (s.read index)).toNat = i at hhop ⊢
  generalize (hopsType rest).length = n at hhop hspan ⊢
  obtain ⟨k, rfl⟩ := Int.eq_ofNat_of_zero_le (show 0 ≤ stride by omega)
  obtain ⟨n, rfl⟩ := Int.eq_ofNat_of_zero_le (show 0 ≤ n by omega)
  have hkn : 0 ≤ (k : Int) * n := by positivity
  have hle : (k : Int) * n ≤ 2 ^ 32 := by nlinarith
  rw [wrap64_of_le hkn hle]
  refine ⟨?_, hle, by rwa [mul_assoc], ?_⟩
  · push_cast [Int.toNat_natCast]
    nlinarith
  · push_cast [Int.toNat_natCast]
    ring

/-- Adding an index to a sum leaves the rest of the chain as it was. -/
theorem Adds.exec_digit {hop : Hop} {rest : List Hop} {sum total : Value} {index : Site}
    {stride : Int} {code : List Action} (h : Adds sum index stride code total)
    (hk : hop.kind = .array index) {acc : Nat} (hacc : indexOf (s.values sum) = UInt32.ofNat acc)
    (hlt : (acc : Int) < stride) (hspan : stride * span (hop :: rest) ≤ 2 ^ 32)
    (hin : s.InBounds (hop :: rest)) (hn : (results code).Nodup) (hs : sum ∉ results code)
    (hh : ∀ v ∈ (hop :: rest).flatMap Hop.uses, v ∉ results code) :
    Computes m s code ∧ (indexOf ((execAll m s code).values total)).toNat =
        acc + (indexOf (s.read index)).toNat * stride.toNat ∧
      (execAll m s code).InBounds rest ∧ (execAll m s code).slotOf rest = s.slotOf rest := by
  obtain ⟨hlt', hle, -, -⟩ := hin.digit hk hlt hspan
  rw [← Int.toNat_of_nonneg (show 0 ≤ stride by omega)] at h
  obtain ⟨hcode, htotal⟩ := h.exec_of_lt (m := m) hn hs
    (fun v hv => hh v (List.mem_append_left _ (by simpa [Hop.uses, hk] using hv))) hacc (by omega)
  obtain ⟨hin', hslot⟩ := hcode.numbering rest
    (fun v hv => hh v (List.mem_append_right _ hv)) fun _ _ => trivial
  exact ⟨hcode, htotal, hin'.mpr hin.2, hslot⟩

section

variable {stride : Int} {slot slot' : Slot} {code : List Action} {acc : Nat}

/-- The code of a sum that is under way adds the number of the place to it, stride by stride. -/
theorem AddressCode.exec_sum (h : AddressCode known hops stride slot code slot') {sum : Value}
    (hsum : slot.indirect = some sum) (hbase : slot.base = 0)
    (hacc : indexOf (s.values sum) = UInt32.ofNat acc) (hlt : (acc : Int) < stride)
    (hspan : stride * span hops ≤ 2 ^ 32) (hin : s.InBounds hops) (hn : (results code).Nodup)
    (hh : ∀ v ∈ hops.flatMap Hop.uses, v ∉ results code) (hs : sum ∉ results code) :
    Computes m s code ∧
      (execAll m s code).slotNumber slot' = acc + stride * s.slotOf hops := by
  induction h generalizing s acc sum with
  | root stride slot =>
    refine ⟨.refl s, ?_⟩
    simp only [span, mul_one] at hspan
    have hsmall : (UInt32.ofNat acc).toNat = acc := Nat.mod_eq_of_lt (by omega)
    rw [← hacc] at hsmall
    simp [State.slotNumber, State.slotOf, hsum, hbase, hsmall]
  | @skip hop rest stride slot slot' code hk h ih =>
    obtain ⟨hspan', hslot⟩ := s.skip_eq rest hk
    rw [hslot]
    exact ih hsum hbase hacc hlt (hspan' ▸ hspan) hin.2 hn
      (fun v hv => hh v (List.mem_append_right _ hv)) hs
  | fold _ hsi _ _ _ => simp [hsum] at hsi
  | start _ hsi _ _ _ _ => simp [hsum] at hsi
  | @more hop rest index stride sum sum' slot slot' code code' hk hsi hb ha h ih =>
    obtain rfl := Option.some.inj (hsi.symm.trans hsum)
    rw [results_append] at hn hh hs
    obtain ⟨hn₁, hn₂, hdisj⟩ := List.nodup_append.mp hn
    obtain ⟨hcode, htotal, hin', hslot⟩ := ha.exec_digit (m := m) hk hacc hlt hspan hin hn₁
      (fun hr => hs (List.mem_append_left _ hr)) fun v hv hr => hh v hv (List.mem_append_left _ hr)
    obtain ⟨hlt', -, hspan', hstep⟩ := hin.digit hk hlt hspan
    have htotal' : sum' ∉ results code' := by
      obtain ⟨-, hr⟩ := ha.covered (K := fun _ => True) trivial fun _ _ => trivial
      exact fun hr' => hdisj sum' (mem_results.mpr hr) sum' hr' rfl
    obtain ⟨hcode', hnumber⟩ := ih rfl hb (by rw [← htotal, UInt32.ofNat_toNat]) hlt' hspan' hin'
      hn₂ (fun v hv hr => hh v (List.mem_append_right _ hv) (List.mem_append_right _ hr)) htotal'
    rw [execAll_append, hstep, hnumber, hslot]
    exact ⟨hcode.append hcode', rfl⟩

/-- Address code adds to a slot below the stride the number of the place, stride by stride. -/
theorem AddressCode.exec (h : AddressCode known hops stride slot code slot')
    (hsi : slot.indirect = none) (hacc : slot.base = acc) (hlt : (acc : Int) < stride)
    (hspan : stride * span hops ≤ 2 ^ 32) (hin : s.InBounds hops) (hf : Foresees known s hops)
    (hn : (results code).Nodup) (hh : ∀ v ∈ hops.flatMap Hop.uses, v ∉ results code) :
    Computes m s code ∧
      (execAll m s code).slotNumber slot' = acc + stride * s.slotOf hops := by
  induction h generalizing acc with
  | root stride slot => exact ⟨.refl s, by simp [State.slotNumber, State.slotOf, hsi, hacc]⟩
  | @skip hop rest stride slot slot' code hk h ih =>
    obtain ⟨hspan', hslot⟩ := s.skip_eq rest hk
    rw [hslot]
    exact ih hsi hacc hlt (hspan' ▸ hspan) hin.2 (fun hop hh => hf hop (.tail _ hh)) hn
      fun v hv => hh v (List.mem_append_right _ hv)
  | @fold hop rest index n stride slot slot' code hk hs hkn h ih =>
    obtain ⟨hlt', hle, hspan', hsum⟩ := hin.digit hk hlt hspan
    have hi := hf hop (.head _) index hk n hkn
    rw [hsum]
    refine ih hsi ?_ hlt' hspan' hin.2 (fun hop hh => hf hop (.tail _ hh)) hn
      fun v hv => hh v (List.mem_append_right _ hv)
    have hword : (indexOf (s.read index)).toNat = n.toNat % 0x100000000 := by
      rw [hi, UInt32.toNat_ofNat']
    rw [hword] at hlt' ⊢
    obtain ⟨k, rfl⟩ := Int.eq_ofNat_of_zero_le (show 0 ≤ stride by omega)
    rw [Int.toNat_natCast] at hlt' ⊢
    have hnext : slot.base + (n.toNat % 0x100000000 : Nat) * (k : Int) =
        (acc + n.toNat % 0x100000000 * k : Nat) := by
      rw [hacc]
      push_cast
      rfl
    exact hnext ▸ wrap64_of_le (by omega) (by omega)
  | @start hop rest index stride z sum slot slot' code code' hk hs hz ha h ih =>
    -- The sum starts with what was added beforehand; the rest is a sum under way.
    have hcons : results (.const z [Cursor.word slot.base] :: (code ++ code')) =
      z :: results (code ++ code') := rfl
    rw [hcons] at hn hh
    obtain ⟨hz', hn⟩ := List.nodup_cons.mp hn
    have hfirst : Computes m s [.const z [Cursor.word slot.base]] :=
      .cons (exec_word m s z _) rfl (.refl _)
    obtain ⟨hin', hslot⟩ := hfirst.numbering (hop :: rest)
      (fun v hv hr => hh v hv (by simpa [results] using .inl (List.mem_singleton.mp hr)))
      fun _ _ => trivial
    have hvalue : indexOf ((execAll m s [.const z [Cursor.word slot.base]]).values z) =
        UInt32.ofNat acc := by
      rw [execAll_cons, execAll_nil, exec_word, define_values, hz, hacc, indexOf_word]
    have hsum : AddressCode known (hop :: rest) stride { slot with base := 0, indirect := some z }
        (code ++ code') slot' := .more hk rfl rfl ha h
    obtain ⟨hcode, hnumber⟩ := hsum.exec_sum (m := m) rfl rfl hvalue hlt hspan (hin'.mpr hin) hn
      (fun v hv hr => hh v hv (.tail _ hr)) hz'
    rw [hslot] at hnumber
    exact ⟨hfirst.append hcode, hnumber⟩
  | more _ hs _ _ _ _ => simp [hs] at hsi

end

/-- The code of a chain leaves the number of its place in the slot. -/
theorem Locates.exec {reg : Register} {code : List Action} {slot : Slot}
    (h : Locates known hops reg code slot)
    (hreg : reg.arrayElems = if 1 < span hops then span hops else 0) (hspan : span hops ≤ 2 ^ 32)
    (hin : s.InBounds hops) (hf : Foresees known s hops) (hn : (results code).Nodup)
    (hh : ∀ v ∈ hops.flatMap Hop.uses, v ∉ results code) :
    Computes m s code ∧ (execAll m s code).slotNumber slot = s.slotOf hops := by
  unfold Locates at h
  split at h
  next hzero =>
    obtain ⟨rfl, rfl⟩ := h
    have hlt := hin.slotOf_lt
    refine ⟨.refl s, ?_⟩
    simp only [State.slotNumber]
    split at hreg <;> omega
  next =>
    obtain ⟨hcode, hnumber⟩ := h.exec (m := m) rfl (Int.natCast_zero).symm (by simp)
      (by simpa using hspan) hin hf hn hh
    exact ⟨hcode, by simpa using hnumber⟩

end

end ShaderIR
