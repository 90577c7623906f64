import ShaderIR.Proofs.AddressMeaning
import ShaderIR.Proofs.LoweringStep
import ShaderIR.Proofs.RegisterTable

/-!
# What a lowered body does for each instruction

While lowering goes on, every instruction of the body it started from stands for a list of
instructions. Up to new names for the values of local loads, this list is the instruction itself or,
once a local access was met, address code and a move. The new names of all steps make up one
permutation of the values.
-/

set_option autoImplicit false

namespace ShaderIR

open Lowering

structure Filed (b c : Body) (t : RegisterTable) : Prop where
  built : Built c.links
  outline : ∀ h, (chain c.links h).map Link.outline = (chain b.links h).map Link.outline
  sound : t.Sound c.links c.registerCount
  registerCount_le : b.registerCount ≤ c.registerCount
  later : ∀ e ∈ t.entries, b.registerCount ≤ e.reg.serial

theorem Filed.start {b c : Body} (hb : Built b.links) (h : SameCode b c) : Filed b c .empty where
  built := h.links ▸ hb
  outline _ := by rw [h.links]
  sound := .empty _ _
  registerCount_le := Nat.le_of_eq h.registerCount.symm
  later := by simp [RegisterTable.empty]

theorem outline_replace (old new : Value) (links : Array Link) (h : Handle) :
    (chain (links.map (Link.replace old new)) h).map Link.outline =
      (chain links h).map Link.outline := by
  rw [chain_map _ (Link.replace_parent old new), List.map_map]
  refine List.map_congr_left fun l _ => ?_
  cases hk : l.kind <;> simp [Link.outline, Link.replace_kind, hk]

section

variable {b : Body} {s s' : Lowered} {k : BlockId} {id : InstrId} {h : Handle} {a last : Action}
  {reg : Register} {code : List Action} {slot : Slot} {f : Value → Value}

theorem Lowers.filed (hs : Lowers s s' k id h a reg code slot last f)
    (hf : Filed b s.body s.table) : Filed b s'.body s'.table := by
  obtain ⟨c, hlook, hcount⟩ := hs.lookup
  obtain ⟨hsound, -⟩ := hf.sound.lookup hf.built rfl hlook
  rw [← hcount] at hsound
  have hlater : s.body.registerCount ≤ s'.body.registerCount ∧
      ∀ e ∈ s'.table.entries, b.registerCount ≤ e.reg.serial := by
    obtain ⟨-, ⟨ht, rfl⟩ | ⟨hash, -, hentries, -, -, hreg, rfl⟩⟩ :=
      RegisterTable.lookupOrCreate_ok hf.built rfl hf.sound hlook
    · exact ⟨Nat.le_of_eq hcount.symm, ht ▸ hf.later⟩
    · refine ⟨hcount ▸ Nat.le_succ _, fun e he => ?_⟩
      rw [hentries] at he
      rcases List.mem_append.mp he with he | he
      · exact hf.later e he
      · rw [List.mem_singleton.mp he, hreg]
        exact hf.registerCount_le
  have hle := hf.registerCount_le.trans hlater.1
  rcases hs.links with hlinks | ⟨old, new, hlinks⟩
  · exact ⟨hlinks ▸ hf.built, hlinks ▸ hf.outline, hlinks ▸ hsound, hle, hlater.2⟩
  · have hout := outline_replace old new s.body.links
    rw [← hlinks] at hout
    exact ⟨hlinks ▸ hf.built.replace old new, fun x => (hout x).trans (hf.outline x),
      hsound.congr hout, hle, hlater.2⟩

/-- The register of an access belongs to an entry whose chain takes the same turns, and has room for
what the chain may lead to. -/
theorem Lowers.entry (hs : Lowers s s' k id h a reg code slot last f)
    (hf : Filed b s.body s.table) :
    (∀ e ∈ s.table.entries, e ∈ s'.table.entries) ∧
    ∃ e ∈ s'.table.entries, e.reg = reg ∧
      turns (chain b.links e.deref) = hopTurns (s.body.hops h) ∧
      e.reg.bits = (hopsType (s.body.hops h)).bits ∧
      e.reg.arrayElems = reserved (s.body.hops h) := by
  obtain ⟨c, hlook, -⟩ := hs.lookup
  obtain ⟨hsound, -⟩ := hf.sound.lookup hf.built rfl hlook
  obtain ⟨⟨e, he, hreg, hturns⟩, hcase⟩ :=
    RegisterTable.lookupOrCreate_ok hf.built rfl hf.sound hlook
  have hout := hsound.outline_eq hf.built he hturns
  obtain ⟨-, hbits, helems⟩ := hsound.shape e he
  refine ⟨?_, e, he, hreg, ?_, ?_, ?_⟩
  · rcases hcase with ⟨ht, -⟩ | ⟨hash, -, hentries, -⟩
    · exact fun e he => ht ▸ he
    · exact fun e he => hentries ▸ List.mem_append_left _ he
  · rw [← turns_congr (hf.outline e.deref), hturns, Body.hops, hopTurns_hop]
  · rw [hbits, headType_congr hout, Body.hops, hopsType_hop]
  · rw [helems, arraySize_congr hout, Body.hops, ← arraySize_eq_reserved]

structure Swaps (c c' : Body) (a last : Action) (code : List Action) (f : Value → Value)
    (σ : Equiv.Perm Value) : Prop where
  bits : ∀ v, (σ v).bits = v.bits
  made : ∀ v, v.serial < c.definers.size → σ v = f v
  other : ∀ v, v.serial < c.definers.size → a.result? ≠ some v → σ v = v
  late : ∀ v, c'.definers.size ≤ v.serial → σ v = v
  code : ∀ v ∈ results code, σ v = v ∧ f v = v
  last : last.result? = a.result?.map σ

theorem Lowers.nodup_results (hs : Lowers s s' k id h a reg code slot last f) :
    (results (code ++ [last])).Nodup := by
  refine .of_map (·.serial) ?_
  rw [results, hs.replaced.serials]
  exact List.nodup_range'

theorem Lowers.fresh (hs : Lowers s s' k id h a reg code slot last f) {v : Value}
    (hv : v ∈ results code) : s.body.definers.size ≤ v.serial := by
  obtain ⟨x, hx, hr⟩ := mem_results.mp hv
  exact (hs.replaced.fresh (List.mem_append_left _ hx) hr).1

theorem Lowers.swaps (hs : Lowers s s' k id h a reg code slot last f) (hl : s.body.Laid) :
    ∃ σ, Swaps s.body s'.body a last code f σ := by
  have hrep := hs.replaced
  have hcode : ∀ v ∈ results code, f v = v := by
    intro v hv
    obtain ⟨x, hx, hr⟩ := mem_results.mp hv
    exact hrep.f_new hl (List.mem_append_left _ hx) hr
  cases hrep.successor with
  | none hn =>
    refine ⟨.refl Value, fun _ => rfl, fun _ _ => rfl, fun _ _ _ => rfl, fun _ _ => rfl,
      fun _ _ => ⟨rfl, rfl⟩, ?_⟩
    rw [hn]
    cases hs.finish with
    | load _ => simp [Action.result?, Action.dest?, Site.value?] at hn
    | loadSlot hd => exact hd
    | store => rfl
  | @value old new x hold hx hr hb =>
    obtain rfl : last = x := by simpa using hx
    have hold' : old.serial < s.body.definers.size :=
      (hl.made id (Body.mem_placedInstrs.mpr ⟨k, hrep.block, hrep.holds⟩) a hrep.target).values old
        (by simp [Action.values, hold])
    have hnew := hrep.fresh (List.mem_append_right _ (List.mem_singleton.mpr rfl)) hr
    have hne : ∀ v ∈ results code, v ≠ new := by
      have hnodup := hs.nodup_results
      rw [results_append] at hnodup
      exact fun v hv => (List.nodup_append.mp hnodup).2.2 v hv new (by simp [results, hr])
    refine ⟨Equiv.swap old new, ?_, ?_, ?_, ?_, ?_, ?_⟩
    · intro v
      rw [Equiv.swap_apply_def]
      split
      · simp_all
      · split <;> simp_all
    · intro v hv
      have hvn : v ≠ new := by
        rintro rfl
        omega
      rw [Equiv.swap_apply_def, Value.replace, if_neg hvn]
    · intro v hv hres
      refine Equiv.swap_apply_of_ne_of_ne ?_ ?_
      · rintro rfl
        exact hres hold
      · rintro rfl
        omega
    · intro v hv
      refine Equiv.swap_apply_of_ne_of_ne ?_ ?_
      · rintro rfl
        have := hrep.definers_le
        omega
      · rintro rfl
        omega
    · intro v hv
      refine ⟨Equiv.swap_apply_of_ne_of_ne ?_ (hne v hv), hcode v hv⟩
      rintro rfl
      exact absurd (hs.fresh hv) (Nat.not_le.mpr hold')
    · rw [hr, hold, Option.map_some, Equiv.swap_apply_left]

/-- Renaming an action by a step does what redirecting its reads does. -/
theorem Swaps.mapUses {c c' : Body} {σ : Equiv.Perm Value} (h : Swaps c c' a last code f σ)
    {x : Action} (hu : ∀ v ∈ x.uses, v.serial < c.definers.size ∨ v ∈ results code)
    (r : Value → Value) (hr : ∀ v, x.result? = some v → r v = v) : x.mapUses f = x.rename σ r := by
  refine Action.rename_congr (fun v hv => ?_) fun v hv => (hr v hv).symm
  rcases hu v hv with hv | hv
  · exact (h.made v hv).symm
  · rw [(h.code v hv).1, (h.code v hv).2]

/-- The names that the values of `b` have in `c`. Only the values of local loads have new ones, and
what is known of a value under its name was known of it before. -/
structure Renamed (b c : Body) (π : Equiv.Perm Value) : Prop where
  bits : ∀ v, (π v).bits = v.bits
  definers_le : b.definers.size ≤ c.definers.size
  late : ∀ v, c.definers.size ≤ v.serial → π v = v
  moved : ∀ v, v.serial < b.definers.size → π v = v ∨ ∃ id ∈ b.placedInstrs, ∃ hops n,
    b.action? id = some (.load hops (.value v) n) ∧ localChain hops = true
  known : ∀ v, v.serial < b.definers.size → ∀ n, c.constant? (.value (π v)) = some n →
    b.constant? (.value v) = some n

theorem Renamed.made {c : Body} {π : Equiv.Perm Value} (h : Renamed b c π) {v : Value}
    (hv : v.serial < b.definers.size) : (π v).serial < c.definers.size := by
  by_contra hlt
  have hfix : π v = v := π.injective (h.late (π v) (Nat.not_lt.mp hlt))
  rw [hfix] at hlt
  exact hlt (Nat.lt_of_lt_of_le hv h.definers_le)

theorem constant?_eq_some {c : Body} {v : Value} {n : UInt64} :
    c.constant? (.value v) = some n ↔ ∃ x w xs, c.definer? v = some x ∧
      c.op? x = some (.const w xs) ∧ xs.head? = some n := by
  simp only [Body.constant?]
  constructor
  · intro h
    split at h
    · rename_i w xs hop
      obtain ⟨x, hx, hop⟩ := Option.bind_eq_some_iff.mp hop
      exact ⟨x, w, xs, hx, hop, h⟩
    · cases h
  · rintro ⟨x, w, xs, hx, hop, h⟩
    simp [hx, hop, h]

theorem Lowers.known (hs : Lowers s s' k id h a reg code slot last f) (hl : s.body.Laid) {v : Value}
    (hv : v.serial < s.body.definers.size) {n : UInt64}
    (hn : s'.body.constant? (.value v) = some n) : s.body.constant? (.value v) = some n := by
  obtain ⟨x, w, xs, hx, hop, hn⟩ := constant?_eq_some.mp hn
  rw [hs.replaced.definer v hv] at hx
  rw [hs.replaced.const x (hl.definer_lt hx)] at hop
  exact constant?_eq_some.mpr ⟨x, w, xs, hx, hop, hn⟩

theorem Lowers.unknown (hs : Lowers s s' k id h a reg code slot last f) {v : Value}
    (hv : last.result? = some v) : s'.body.constant? (.value v) = none := by
  have hlast : (code ++ [last])[code.length]? = some last := by simp
  have hdef := hs.replaced.defined _ last hlast v hv
  have hadd := hs.replaced.added _ last hlast
  by_contra hn
  obtain ⟨n, hn⟩ := Option.ne_none_iff_exists'.mp hn
  obtain ⟨x, w, xs, hx, hop, -⟩ := constant?_eq_some.mp hn
  obtain rfl := Option.some.inj (hdef.symm.trans hx)
  rw [Body.action?, hop] at hadd
  cases hs.finish <;> simp [Body.action, Action.mapUses, Action.rename] at hadd

theorem Finish.rename {g r r' : Value → Value} (hr : ∀ v, (r v).bits = v.bits)
    (hr' : ∀ v, (r' v).bits = v.bits) (hf : Finish slot a last) :
    Finish (slot.map g) (a.rename g r) (last.rename g r') := by
  cases hf with
  | load hb => exact .load (by rw [hr', hb, hr])
  | @loadSlot hops n dest hd =>
    cases dest with
    | value v => simp [Site.value?] at hd
    | missing => exact .loadSlot rfl
    | slot sl => exact .loadSlot rfl
  | store => exact .store

theorem Finish.load_of_result (hf : Finish slot a last) {v : Value} (hv : a.result? = some v) :
    ∃ hops n, a = .load hops (.value v) n := by
  cases hf with
  | @load hops n old _ _ =>
    obtain rfl : old = v := by simpa [Action.result?, Action.dest?, Site.value?] using hv
    exact ⟨hops, n, rfl⟩
  | loadSlot hd => simp [Action.result?, Action.dest?, hd] at hv
  | store => simp [Action.result?, Action.dest?] at hv

theorem Action.map_symm (π : Equiv.Perm Value) (x : Action) :
    (x.map π).rename π.symm π.symm = x := by
  rw [Action.map, Action.rename_rename, Equiv.symm_comp_self, Action.rename_id]

theorem Renamed.step {π σ : Equiv.Perm Value} (hr : Renamed b s.body π) (hl : s.body.Laid)
    (hs : Lowers s s' k id h a reg code slot last f) (hσ : Swaps s.body s'.body a last code f σ)
    (hid : id ∈ b.placedInstrs) {o : Action} (ho : b.action? id = some o) (ha : a = o.map π) :
    Renamed b s'.body (π.trans σ) := by
  have hle := hs.replaced.definers_le
  -- The value of the access is the one that changes its name.
  have hold : ∀ v, a.result? = some (π v) → o.result? = some v := by
    intro v hv
    rw [ha, Action.map, Action.result?_rename] at hv
    obtain ⟨u, hu, huv⟩ := Option.map_eq_some_iff.mp hv
    rw [hu, π.injective huv]
  refine ⟨fun v => (hσ.bits _).trans (hr.bits v), hr.definers_le.trans hle, ?_, ?_, ?_⟩
  · intro v hv
    rw [Equiv.trans_apply, hr.late v (hle.trans hv), hσ.late v hv]
  · intro v hv
    by_cases hres : a.result? = some (π v)
    · have hsymm : ∀ v, (π.symm v).bits = v.bits := fun v => by
        rw [← hr.bits, Equiv.apply_symm_apply]
      have hfin := hs.finish.rename (g := π.symm) hsymm hsymm
      rw [ha, Action.map_symm] at hfin
      obtain ⟨hops, n, rfl⟩ := hfin.load_of_result (hold v hres)
      have hch : [hops.map (Hop.map π)] = [s.body.hops h] := by rw [← hs.chains, ha]; rfl
      refine .inr ⟨id, hid, hops, n, ho, ?_⟩
      rw [← localChain_map π, List.singleton_inj.mp hch, localChain_hops, hs.reaches]
    · rw [Equiv.trans_apply, hσ.other _ (hr.made hv) hres]
      exact hr.moved v hv
  · intro v hv n hn
    rw [Equiv.trans_apply] at hn
    by_cases hres : a.result? = some (π v)
    · have hlast : last.result? = some (σ (π v)) := by rw [hσ.last, hres, Option.map_some]
      rw [hs.unknown hlast] at hn
      cases hn
    · rw [hσ.other _ (hr.made hv) hres] at hn
      exact hr.known v hv n (hs.known hl (hr.made hv) hn)

inductive Renders (b : Body) (t : RegisterTable) (o : Action) : List Action → Prop
  | same (h : ∀ hops ∈ o.chains, localChain hops = false) : Renders b t o [o]
  | access {hops : List Hop} {e : TableEntry} {code : List Action} {slot : Slot} {last : Action}
      (hch : o.chains = [hops]) (hlocal : localChain hops = true) (he : e ∈ t.entries)
      (hturns : turns (chain b.links e.deref) = hopTurns hops)
      (hbits : e.reg.bits = (hopsType hops).bits) (helems : e.reg.arrayElems = reserved hops)
      (hloc : Locates b.known hops e.reg code slot) (hfin : Finish slot o last)
      (hres : last.result? = o.result?) (hn : (results code).Nodup)
      (hnew : ∀ v ∈ results code, b.definers.size ≤ v.serial) : Renders b t o (code ++ [last])

theorem Renders.mono {t t' : RegisterTable} {o : Action} {acts : List Action}
    (h : Renders b t o acts) (ht : ∀ e ∈ t.entries, e ∈ t'.entries) : Renders b t' o acts := by
  cases h with
  | same h => exact .same h
  | access hch hlocal he hturns hbits helems hloc hfin hres hn hnew =>
    exact .access hch hlocal (ht _ he) hturns hbits helems hloc hfin hres hn hnew

theorem results_map (g : Value → Value) (code : List Action) :
    results (code.map (Action.map g)) = (results code).map g := by
  simp only [results, List.filterMap_map, List.map_filterMap]
  exact List.filterMap_congr fun x _ => Action.result?_rename g g x

theorem Hop.kind_of_map {g : Value → Value} {hop : Hop} {x : Site}
    (hk : (hop.map g).kind = .array x) : ∃ y, hop.kind = .array y ∧ y.map g = x := by
  cases hkd : hop.kind with
  | array y =>
    refine ⟨y, rfl, ?_⟩
    simpa [Hop.map, hkd] using hk
  | _ => simp [Hop.map, hkd] at hk

/-- What a step puts in the place of an access, under the names that the values had before. -/
theorem Lowers.renders (hs : Lowers s s' k id h a reg code slot last f)
    (hf : Filed b s.body s.table) {π σ : Equiv.Perm Value} (hr : Renamed b s.body π)
    (hσ : Swaps s.body s'.body a last code f σ) {o : Action} (ho : o.Made b) (ha : a = o.map π) :
    Renders b s'.table o
      (code.map (Action.map π.symm) ++ [last.rename π.symm (π.trans σ).symm]) := by
  have hbits : ∀ v, (π.symm v).bits = v.bits := fun v => by
    rw [← hr.bits, Equiv.apply_symm_apply]
  have hbits' : ∀ v, ((π.trans σ).symm v).bits = v.bits := fun v => by
    rw [Equiv.symm_trans_apply, hbits, ← hσ.bits, Equiv.apply_symm_apply]
  have hchains := hs.chains
  rw [ha, Action.map, Action.chains_rename, List.map_eq_singleton_iff] at hchains
  obtain ⟨hops, hch, hhops⟩ := hchains
  have hback : (s.body.hops h).map (Hop.map π.symm) = hops := by
    rw [← hhops, List.map_map]
    refine (List.map_congr_left fun hop _ => ?_).trans (List.map_id' hops)
    rw [Function.comp_apply, Hop.map_map, Equiv.symm_comp_self, Hop.map_id]
  obtain ⟨-, e, he, rfl, hturns, hebits, helems⟩ := hs.entry hf
  rw [← hhops, hopTurns_map] at hturns
  rw [← hhops, hopsType_map] at hebits
  rw [← hhops, reserved_map] at helems
  have hresults : results (code.map (Action.map π.symm)) = results code := by
    rw [results_map]
    refine (List.map_congr_left fun v hv => ?_).trans (List.map_id' _)
    rw [Equiv.symm_apply_eq, hr.late v (hs.fresh hv)]
  refine .access hch ?_ he hturns hebits helems (?_ : Locates _ _ _ _ (slot.map π.symm)) ?_ ?_ ?_ ?_
  · rw [← localChain_map π, hhops, localChain_hops, hs.reaches]
  · rw [← hback]
    refine hs.locates.map hbits fun hop hh x hk n hn => ?_
    rw [← hhops] at hh
    obtain ⟨hop, hmem, rfl⟩ := List.mem_map.mp hh
    obtain ⟨y, hy, rfl⟩ := Hop.kind_of_map hk
    cases y with
    | value v =>
      have hv : v ∈ hops.flatMap Hop.uses :=
        List.mem_flatMap.mpr ⟨hop, hmem, by simp [Hop.uses, hy, Site.uses]⟩
      have := hr.known v (ho.values v (List.mem_append_left _ (uses_of_chains hch hv))) n hn
      simpa [Site.map, Site.rename, Body.known] using this
    | _ => simp [Site.map, Site.rename, Body.known] at hn
  · have hfin := hs.finish.rename (g := π.symm) hbits hbits'
    rwa [ha, Action.map_symm] at hfin
  · rw [Action.result?_rename, hσ.last, ha, Action.map, Action.result?_rename]
    cases o.result? <;> simp
  · rw [hresults]
    have := hs.nodup_results
    rw [results_append] at this
    exact (List.nodup_append.mp this).1
  · rw [hresults]
    exact fun v hv => hr.definers_le.trans (hs.fresh hv)

/-- What is left of each instruction of `b` after the instructions in `met` were met: `ids` are the
instructions that stand for it, `acts` what they do under the names that the values have in `b`. -/
structure Trace (b : Body) (met : List InstrId) (c : Body) (t : RegisterTable)
    (π : Equiv.Perm Value) (ids : InstrId → List InstrId) (acts : InstrId → List Action) : Prop
    extends Filed b c t, Renamed b c π where
  single : c.Single
  layout : c.layout = b.layout
  next : ∀ j, c.next j = b.next j
  size_le : b.instrs.size ≤ c.instrs.size
  held : ∀ j ∈ b.layout, c.held j = (b.held j).flatMap ids
  new : ∀ x, ∀ y ∈ ids x, y = x ∨ b.instrs.size ≤ y
  code : ∀ x ∈ b.placedInstrs, (ids x).filterMap c.action? = (acts x).map (Action.map π)
  unmet : ∀ x, x ∉ met → ids x = [x] ∧ acts x = (b.action? x).toList
  renders : ∀ x ∈ met, ∀ o ∈ b.action? x, Renders b t o (acts x)

namespace Trace

variable {c : Body} {t : RegisterTable} {met : List InstrId} {π : Equiv.Perm Value}
  {ids : InstrId → List InstrId} {acts : InstrId → List Action}

theorem start (hb : Built b.links) (hs : b.Single) (h : SameCode b c) :
    Trace b [] c .empty (.refl Value) (fun x => [x]) fun x => (b.action? x).toList where
  toFiled := .start hb h
  bits _ := rfl
  definers_le := Nat.le_of_eq (by rw [h.definers])
  late _ _ := rfl
  moved _ _ := .inl rfl
  known v _ n hn := by
    have hop : c.op? = b.op? := funext fun x => by simp [Body.op?, h.instrs]
    simpa [Body.constant?, Body.definer?, h.definers, hop] using hn
  single := h.single hs
  layout := h.layout
  next := h.next
  size_le := Nat.le_of_eq (by rw [h.instrs])
  held j _ := by rw [h.held, List.flatMap_singleton']
  new x y hy := .inl (List.mem_singleton.mp hy)
  code x _ := by
    have hid : Action.map (Equiv.refl Value) = fun x => x := funext Action.rename_id
    rw [h.action?, hid, List.map_id']
    cases hx : b.action? x <;> simp [hx]
  unmet _ _ := ⟨rfl, rfl⟩
  renders := by simp

theorem unmet_action (h : Trace b met c t π ids acts) (hl : b.Laid) (hid : id ∈ b.placedInstrs)
    (hmet : id ∉ met) : ∃ o, b.action? id = some o ∧ c.action? id = some (o.map π) ∧
      ids id = [id] ∧ acts id = [o] := by
  obtain ⟨o, ho⟩ := hl.exists_action hid
  obtain ⟨hids, hacts⟩ := h.unmet id hmet
  have hcode := h.code id hid
  rw [hids, hacts, ho] at hcode
  refine ⟨o, ho, ?_, hids, by rw [hacts, ho]; rfl⟩
  cases hc : c.action? id with
  | none => simp [hc] at hcode
  | some z => simpa [hc] using hcode

theorem skip (h : Trace b met c t π ids acts) (hl : b.Laid) (hid : id ∈ b.placedInstrs)
    (hmet : id ∉ met) (hnone : ∀ x ∈ c.action? id, ∀ hops ∈ x.chains, localChain hops = false) :
    Trace b (met ++ [id]) c t π ids acts := by
  obtain ⟨o, ho, hc, -, hacts⟩ := h.unmet_action hl hid hmet
  refine { h with
    unmet := fun x hx => h.unmet x fun hm => hx (List.mem_append_left _ hm)
    renders := fun x hx => ?_ }
  rcases List.mem_append.mp hx with hx | hx
  · exact h.renders x hx
  · obtain rfl := List.mem_singleton.mp hx
    intro o' ho'
    obtain rfl : o = o' := Option.some.inj (ho.symm.trans ho')
    rw [hacts]
    refine .same fun hops hh => ?_
    rw [← localChain_map π]
    refine hnone _ hc _ ?_
    rw [Action.map, Action.chains_rename]
    exact List.mem_map_of_mem hh

theorem mem_placedInstrs (h : Trace b met c t π ids acts) {x y : InstrId}
    (hx : x ∈ b.placedInstrs) (hy : y ∈ ids x) : y ∈ c.placedInstrs := by
  obtain ⟨j, hj, hx⟩ := Body.mem_placedInstrs.mp hx
  refine Body.mem_placedInstrs.mpr ⟨j, h.layout ▸ hj, ?_⟩
  rw [h.held j hj]
  exact List.mem_flatMap.mpr ⟨x, hx, hy⟩

end Trace

/-- What a step adds reads what the access read and what the address code defined. -/
theorem Lowers.reads (hs : Lowers s s' k id h a reg code slot last f) {x : Action}
    (hx : x ∈ code ++ [last]) {v : Value} (hv : v ∈ x.uses) : v ∈ a.uses ∨ v ∈ results code := by
  obtain ⟨hcode, hlast, -⟩ := Covered.append_iff.mp hs.replaced.covered
  rcases List.mem_append.mp hx with hx | hx
  · exact (hcode.known hx hv).imp_right mem_results.mpr
  · rw [List.mem_singleton.mp hx] at hv
    exact (hlast v hv).imp_right mem_results.mpr

section

variable {π σ : Equiv.Perm Value}

theorem Action.rename_trans (x : Action) (r : Value → Value) :
    (x.rename π.symm r).rename (π.trans σ) (π.trans σ) = x.rename σ (π.trans σ ∘ r) := by
  rw [Action.rename_rename]
  congr 1
  funext v
  simp

theorem Lowers.mapUses_new (hs : Lowers s s' k id h a reg code slot last f) (hl : s.body.Laid)
    (hσ : Swaps s.body s'.body a last code f σ) :
    (code ++ [last]).map (Action.mapUses f) =
      (code.map (Action.map π.symm) ++ [last.rename π.symm (π.trans σ).symm]).map
        (Action.map (π.trans σ)) := by
  have hmade := (hl.made id (Body.mem_placedInstrs.mpr ⟨k, hs.replaced.block, hs.replaced.holds⟩) a
    hs.replaced.target).values
  have huses : ∀ x ∈ code ++ [last], ∀ v ∈ x.uses,
      v.serial < s.body.definers.size ∨ v ∈ results code := fun x hx v hv =>
    (hs.reads hx hv).imp_left fun hv => hmade v (List.mem_append_left _ hv)
  rw [List.map_append, List.map_append, List.map_map, List.map_singleton, List.map_singleton]
  congr 1
  · refine List.map_congr_left fun x hx => ?_
    rw [hσ.mapUses (huses x (List.mem_append_left _ hx)) (π.trans σ ∘ π.symm) fun v hv => ?_]
    · exact (x.rename_trans _).symm
    · simpa using (hσ.code v (mem_results.mpr ⟨x, hx, hv⟩)).1
  · rw [hσ.mapUses (huses last (by simp)) (π.trans σ ∘ (π.trans σ).symm) fun v _ => by simp]
    congr 1
    exact (last.rename_trans _).symm

theorem Lowers.mapUses_kept (hs : Lowers s s' k id h a reg code slot last f) (hl : s.body.Laid)
    (hsingle : s.body.Single) (hσ : Swaps s.body s'.body a last code f σ) {y : InstrId}
    (hy : y ∈ s.body.placedInstrs) (hne : y ≠ id) {z : Action} (hz : s.body.action? y = some z) :
    z.mapUses f = z.map σ := by
  have hmade := (hl.made y hy z hz).values
  refine hσ.mapUses (fun v hv => .inl (hmade v (List.mem_append_left _ hv))) σ fun v hv => ?_
  rw [hσ.made v (hmade v (by simp [Action.values, hv]))]
  exact hs.replaced.f_kept hsingle hy hne hz hv

end

/-- A step puts its code in the place of the instruction it meets and renames the rest. -/
theorem Trace.lower {met : List InstrId} {π : Equiv.Perm Value} {ids : InstrId → List InstrId}
    {acts : InstrId → List Action} (ht : Trace b met s.body s.table π ids acts) (hb : b.Laid)
    (hl : s.body.Laid) (hid : id ∈ b.placedInstrs) (hmet : id ∉ met)
    (hs : Lowers s s' k id h a reg code slot last f) :
    ∃ π' ids' acts', Trace b (met ++ [id]) s'.body s'.table π' ids' acts' := by
  obtain ⟨o, ho, hc, hids, hacts⟩ := ht.unmet_action hb hid hmet
  obtain ⟨σ, hσ⟩ := hs.swaps hl
  have ha : a = o.map π := Option.some.inj (hs.replaced.target.symm.trans hc)
  have hother : ∀ x, x ≠ id → ∀ y ∈ ids x, y ≠ id := by
    rintro x hx y hy rfl
    rcases ht.new x y hy with rfl | hy
    · exact hx rfl
    · exact absurd (hb.lt_size hid) (Nat.not_lt.mpr hy)
  refine ⟨π.trans σ,
    Function.update ids id (List.range' s.body.instrs.size (code ++ [last]).length),
    Function.update acts id
      (code.map (Action.map π.symm) ++ [last.rename π.symm (π.trans σ).symm]),
    { toFiled := hs.filed ht.toFiled
      toRenamed := ht.toRenamed.step hl hs hσ hid ho ha
      single := hs.replaced.single hl ht.single
      layout := hs.replaced.layout.trans ht.layout
      next := fun j => (hs.replaced.next j).trans (ht.next j)
      size_le := ht.size_le.trans (by rw [hs.replaced.size]; exact Nat.le_add_right _ _)
      held := ?_
      new := ?_
      code := ?_
      unmet := ?_
      renders := ?_ }⟩
  · intro j hj
    rw [hs.replaced.held j (ht.layout ▸ hj), ht.held j hj]
    exact expandAt_update hids fun x _ hx hmem => hother x hx id hmem rfl
  · intro x y hy
    by_cases hx : x = id
    · rw [hx, Function.update_self, List.mem_range'_1] at hy
      exact .inr (ht.size_le.trans hy.1)
    · rw [Function.update_of_ne hx] at hy
      exact ht.new x y hy
  · intro x hx
    by_cases hxid : x = id
    · rw [hxid, Function.update_self, Function.update_self, filterMap_range' hs.replaced.added]
      exact hs.mapUses_new hl hσ
    · rw [Function.update_of_ne hxid, Function.update_of_ne hxid]
      have hkept : (ids x).filterMap s'.body.action? =
          ((ids x).filterMap s.body.action?).map (Action.map σ) := by
        rw [List.map_filterMap]
        refine List.filterMap_congr fun y hy => ?_
        have hy' := ht.mem_placedInstrs hx hy
        have hne := hother x hxid y hy
        obtain ⟨z, hz⟩ := hl.exists_action hy'
        rw [hs.replaced.kept y hy' hne, hz, Option.map_some, Option.map_some,
          hs.mapUses_kept hl ht.single hσ hy' hne hz]
      rw [hkept, ht.code x hx, List.map_map]
      refine List.map_congr_left fun z _ => ?_
      exact Action.rename_rename σ σ z π π
  · intro x hx
    have hne : x ≠ id := fun h => hx (by simp [h])
    rw [Function.update_of_ne hne, Function.update_of_ne hne]
    exact ht.unmet x fun hm => hx (List.mem_append_left _ hm)
  · intro x hx o' ho'
    by_cases hxid : x = id
    · rw [hxid, ho] at ho'
      obtain rfl : o = o' := Option.some.inj ho'
      rw [hxid, Function.update_self]
      exact hs.renders ht.toFiled ht.toRenamed hσ (hb.made id hid o ho) ha
    · rw [Function.update_of_ne hxid]
      have hx : x ∈ met := by simpa [hxid] using hx
      exact (ht.renders x hx o' ho').mono (hs.entry ht.toFiled).1

/-- Every instruction of a body is rendered by the lowered body. -/
theorem lowerLocals_trace (hb : b.Laid) (hlinks : Built b.links) (hsingle : b.Single)
    (hok : b.lowerLocals.error = none) :
    ∃ c π ids acts, Trace b b.placedInstrs c b.lowerLocals.table π ids acts ∧
      SameCode c b.lowerLocals.body := by
  obtain ⟨c, -, ⟨π, ids, acts, ht⟩, hcode⟩ := lowerLocals_rule
    (fun met c t => ∃ π ids acts, Trace b met c t π ids acts) hb
    (fun c hc => ⟨_, _, _, .start hlinks hsingle hc⟩)
    (fun met id c t _ ⟨π, ids, acts, ht⟩ hid hmet hnone =>
      ⟨π, ids, acts, ht.skip hb hid hmet hnone⟩)
    (fun met s s' k id h a reg code slot last f hl ⟨π, ids, acts, ht⟩ hid hmet hs =>
      ht.lower hb hl hid hmet hs) hok
  exact ⟨c, π, ids, acts, ht, hcode⟩

end

end ShaderIR
