import ShaderIR.Printer
import ShaderIR.Proofs.RegisterSizes

/-!
# Loops along chains

What is done with a chain is done in a loop that follows the parent handles up to the root, with
nothing that counts its rounds. Here the loops stand as such, one round at a time. In an arena where
every link stands behind its parent each of them ends, after at most as many rounds as there are
links, and gives the answer that the chain as a list gives.
-/

set_option autoImplicit false

namespace ShaderIR

open Lowering Text

inductive Round (κ ρ : Type) where
  | next (k : κ)
  | stop (r : ρ)

namespace Round

variable {κ μ ρ : Type}

def map (g : κ → μ) : Round κ ρ → Round μ ρ
  | next k => next (g k)
  | stop r => stop r

def answer (f : κ → ρ) : Round κ ρ → ρ
  | next k => f k
  | stop r => r

end Round

/-- The loop goes on `n` times and ends. Where a handle leads out of the arena it does neither. -/
inductive Halts {κ ρ : Type} (step : κ → Option (Round κ ρ)) : κ → Nat → ρ → Prop
  | stop {k : κ} {r : ρ} (h : step k = some (.stop r)) : Halts step k 0 r
  | next {k k' : κ} {n : Nat} {r : ρ} (h : step k = some (.next k')) (he : Halts step k' n r) :
      Halts step k (n + 1) r

def HaltsWithin {κ ρ : Type} (bound : Nat) (step : κ → Option (Round κ ρ)) (k : κ) (r : ρ) : Prop :=
  ∃ n ≤ bound, Halts step k n r

section

variable {σ ρ : Type} {links : Array Link}

def chainLoop (links : Array Link) (visit : σ → Link → Ty → Round σ ρ) (done : σ → ρ) :
    Handle × σ → Option (Round (Handle × σ) ρ)
  | (none, s) => some (.stop (done s))
  | (some h, s) => links[h]?.map fun link =>
    (visit s link (derefType links link.parent)).map fun s => (link.parent, s)

theorem Descending.parent_lt_size (hd : Descending links) {i : Nat} {link : Link}
    (hl : links[i]? = some link) : ∀ p ∈ link.parent, p < links.size := fun p hp =>
  (hd i link hl p hp).trans (Array.getElem?_eq_some_iff.mp hl).1

/-- Induction along the way from a handle to the root. -/
@[elab_as_elim]
theorem Descending.walk_induction (hd : Descending links) {motive : Handle → Prop}
    (root : motive none)
    (step : ∀ i link, links[i]? = some link → motive link.parent → motive (some i))
    {h : Handle} (hh : ∀ i ∈ h, i < links.size) : motive h := by
  cases h with
  | none => exact root
  | some i =>
    induction i using Nat.strongRecOn with
    | _ i ih =>
      obtain ⟨link, hl⟩ : ∃ link, links[i]? = some link := ⟨_, Array.getElem?_eq_getElem (hh i rfl)⟩
      refine step i link hl ?_
      cases hp : link.parent with
      | none => exact root
      | some p => exact ih p (hd i link hl p hp) (hp ▸ hd.parent_lt_size hl)

theorem length_chain_le (links : Array Link) (h : Handle) :
    (chain links h).length ≤ links.size := by
  rw [chain]
  generalize links.size = n
  induction n generalizing h with
  | zero => simp [chainFrom]
  | succ n ih =>
    cases h with
    | none => simp
    | some h =>
      cases hl : links[h]? with
      | none => simp [chainFrom, hl]
      | some link => simpa [chainFrom, hl] using ih link.parent

/-- A function on chains that does with a link what a round does is what the loop computes. -/
theorem Descending.haltsWithin_chainLoop (hd : Descending links) {visit : σ → Link → Ty → Round σ ρ}
    {done : σ → ρ} {f : σ → List Link → ρ} (hnil : ∀ s, f s [] = done s)
    (hcons : ∀ s link rest,
      f s (link :: rest) = (visit s link (headType rest)).answer fun s => f s rest)
    {h : Handle} (hh : ∀ i ∈ h, i < links.size) (s : σ) :
    HaltsWithin links.size (chainLoop links visit done) (h, s) (f s (chain links h)) := by
  suffices hend : ∀ s, ∃ n ≤ (chain links h).length,
      Halts (chainLoop links visit done) (h, s) n (f s (chain links h)) by
    obtain ⟨n, hn, hend⟩ := hend s
    exact ⟨n, hn.trans (length_chain_le links h), hend⟩
  refine hd.walk_induction ?_ ?_ hh
  · intro s
    rw [chain, chainFrom_none, hnil]
    exact ⟨0, Nat.le_refl _, .stop rfl⟩
  · intro i link hl ih s
    rw [chain_some hd hl, hcons, headType_chain]
    cases hv : visit s link (derefType links link.parent) with
    | next t =>
      obtain ⟨n, hn, hend⟩ := ih t
      exact ⟨n + 1, Nat.succ_le_succ hn, .next (by simp [chainLoop, hl, hv, Round.map]) hend⟩
    | stop r => exact ⟨0, Nat.zero_le _, .stop (by simp [chainLoop, hl, hv, Round.map, Round.answer])⟩

end

def rootLoop (links : Array Link) :
    Handle × Unit → Option (Round (Handle × Unit) (Option Variable)) :=
  chainLoop links
    (fun _ link _ => match link.kind with
      | .var v => .stop (some v)
      | .cast => .stop none
      | _ => .next ())
    fun _ => none

def hashLoop (links : Array Link) :
    Handle × UInt32 → Option (Round (Handle × UInt32) (Except LowerError UInt32)) :=
  chainLoop links
    (fun hash link _ => match link.kind with
      | .var v => .stop (.ok (hashWord hash (UInt64.ofInt v.id)))
      | .array _ => .next hash
      | .struct field => .next (hashWord hash (UInt64.ofNat field))
      | .cast => .stop (.error (.unexpectedLink link.kind.name)))
    fun _ => .error .noVariable

def slotsFor (n : Int) : Int := if 1 < n then n else 0

def sizeLoop (links : Array Link) : Handle × Int → Option (Round (Handle × Int) Int) :=
  chainLoop links
    (fun size link up => match link.kind with
      | .array _ => .next (wrap64 (size * up.length))
      | _ => .next size)
    fun size => slotsFor (wrap64 size)

def slotLoop (links : Array Link) (c : Cursor) :
    Handle × Int × Slot × Body →
      Option (Round (Handle × Int × Slot × Body) (Except LowerError Slot × Body)) :=
  chainLoop links
    -- the slots below the next index, the slot so far and the body with the code so far
    (fun (stride, slot, b) link up => match link.kind with
      | .array index =>
        match addIndex c slot index stride b with
        | (.ok slot, b) => .next (wrap64 (stride * up.length), slot, b)
        | (.error e, b) => .stop (.error e, b)
      | _ => .next (stride, slot, b))
    fun (_, slot, b) => (.ok slot, b)

def usesLoop (links : Array Link) (slotOf : SlotId → Slot) :
    Handle × List Value → Option (Round (Handle × List Value) (List Value)) :=
  chainLoop links (fun seen link _ => .next (seen ++ link.kind.uses slotOf)) id

def textLoop (b : Body) : Handle × List String → Option (Round (Handle × List String) String) :=
  chainLoop b.links (fun parts link up => .next (b.renderLink link up :: parts))
    fun parts => "&" ++ String.join parts

def compareLinks (a b : Link) : Round Unit (Except LowerError Bool) :=
  match a.kind, b.kind with
  | .var v, .var w => .stop (.ok (v = w))
  | .array _, .array _ => .next ()
  | .struct f, .struct g => if f = g then .next () else .stop (.ok false)
  | .cast, .cast => .stop (.error (.unexpectedLink a.kind.name))
  | _, _ => .stop (.ok false)

def compareLoop (links : Array Link) :
    Handle × Handle → Option (Round (Handle × Handle) (Except LowerError Bool))
  | (none, none) => some (.stop (.error .noVariable))
  | (none, some _) | (some _, none) => some (.stop (.ok false))
  | (some h, some k) => do
    let a ← links[h]?
    let b ← links[k]?
    return (compareLinks a b).map fun _ => (a.parent, b.parent)

theorem samePlace_cons (a b : Link) (as bs : List Link) :
    samePlace (a :: as) (b :: bs) = (compareLinks a b).answer fun _ => samePlace as bs := by
  rcases a with ⟨ka, pa, ta, ma⟩
  rcases b with ⟨kb, pb, tb, mb⟩
  cases ka <;> cases kb <;> try rfl
  case struct.struct f g =>
    simp only [samePlace, compareLinks]
    split <;> rfl

theorem Descending.haltsWithin_compare {links : Array Link} (hd : Descending links) {h k : Handle}
    (hh : ∀ i ∈ h, i < links.size) (hk : ∀ i ∈ k, i < links.size) :
    HaltsWithin links.size (compareLoop links) (h, k)
      (samePlace (chain links h) (chain links k)) := by
  suffices hend : ∀ k : Handle, (∀ i ∈ k, i < links.size) → ∃ n ≤ (chain links h).length,
      Halts (compareLoop links) (h, k) n (samePlace (chain links h) (chain links k)) by
    obtain ⟨n, hn, hend⟩ := hend k hk
    exact ⟨n, hn.trans (length_chain_le links h), hend⟩
  refine hd.walk_induction ?_ ?_ hh
  · rintro (_ | j) hk
    · rw [chain, chainFrom_none]
      exact ⟨0, Nat.le_refl _, .stop rfl⟩
    · obtain ⟨b, hb⟩ : ∃ b, links[j]? = some b := ⟨_, Array.getElem?_eq_getElem (hk j rfl)⟩
      rw [chain, chainFrom_none, chain_some hd hb]
      exact ⟨0, Nat.le_refl _, .stop rfl⟩
  · rintro i a ha ih (_ | j) hk
    · rw [chain_some hd ha, chain, chain, chainFrom_none]
      exact ⟨0, Nat.zero_le _, .stop rfl⟩
    · obtain ⟨b, hb⟩ : ∃ b, links[j]? = some b := ⟨_, Array.getElem?_eq_getElem (hk j rfl)⟩
      rw [chain_some hd ha, chain_some hd hb, samePlace_cons]
      cases hv : compareLinks a b with
      | next u =>
        obtain ⟨n, hn, hend⟩ := ih _ (hd.parent_lt_size hb)
        exact ⟨n + 1, Nat.succ_le_succ hn,
          .next (by simp [compareLoop, ha, hb, hv, Round.map]) hend⟩
      | stop r =>
        exact ⟨0, Nat.zero_le _,
          .stop (by simp [compareLoop, ha, hb, hv, Round.map, Round.answer])⟩

structure LoopsHalt (b : Body) (h : Handle) : Prop where
  root : HaltsWithin b.links.size (rootLoop b.links) (h, ()) (rootVariable? (chain b.links h))
  hash : HaltsWithin b.links.size (hashLoop b.links) (h, hashStart) (hashChain (chain b.links h))
  comparison : ∀ k : Handle, (∀ i ∈ k, i < b.links.size) →
    HaltsWithin b.links.size (compareLoop b.links) (h, k)
      (samePlace (chain b.links h) (chain b.links k))
  size : HaltsWithin b.links.size (sizeLoop b.links) (h, 1)
    (RegisterTable.arraySize (chain b.links h))
  slot : ∀ (c : Cursor) (reg : Register), reg.arrayElems ≠ 0 →
    HaltsWithin b.links.size (slotLoop b.links c) (h, 1, ⟨some reg, 0, none⟩, b)
      ((linearize c h reg).run b)
  uses : HaltsWithin b.links.size (usesLoop b.links b.slot) (h, [])
    ((chain b.links h).flatMap (·.kind.uses b.slot))
  text : HaltsWithin b.links.size (textLoop b) (h, []) (b.renderDeref h)

namespace Descending

variable {b : Body} {h : Handle}

theorem haltsWithin_root (hd : Descending b.links) (hh : ∀ i ∈ h, i < b.links.size) :
    HaltsWithin b.links.size (rootLoop b.links) (h, ()) (rootVariable? (chain b.links h)) := by
  refine hd.haltsWithin_chainLoop (f := fun _ => rootVariable?) (fun _ => rfl) ?_ hh ()
  rintro _ ⟨kind, _⟩ rest
  cases kind <;> rfl

theorem haltsWithin_hash (hd : Descending b.links) (hh : ∀ i ∈ h, i < b.links.size) :
    HaltsWithin b.links.size (hashLoop b.links) (h, hashStart) (hashChain (chain b.links h)) := by
  refine hd.haltsWithin_chainLoop (f := hashFrom) (fun _ => rfl) ?_ hh hashStart
  rintro _ ⟨kind, _⟩ rest
  cases kind <;> rfl

/-- The loop multiplies from the end of the chain and the function from its root. -/
theorem haltsWithin_size (hd : Descending b.links) (hh : ∀ i ∈ h, i < b.links.size) :
    HaltsWithin b.links.size (sizeLoop b.links) (h, 1)
      (RegisterTable.arraySize (chain b.links h)) := by
  have hsize : RegisterTable.arraySize (chain b.links h) =
      slotsFor (wrap64 (1 * RegisterTable.elemCount (chain b.links h))) := by
    rw [one_mul, RegisterTable.elemCount_eq, wrap64, wrap64, Int.bmod_bmod, ← wrap64,
      ← RegisterTable.elemCount_eq, slotsFor, RegisterTable.arraySize]
  rw [hsize]
  refine hd.haltsWithin_chainLoop (f := fun size links => slotsFor (wrap64 (size *
    RegisterTable.elemCount links))) (fun size => ?_) ?_ hh 1
  · rw [RegisterTable.elemCount, mul_one]
  · rintro size ⟨kind, _⟩ rest
    cases kind with
    | array index =>
      simp only [RegisterTable.elemCount, Round.answer, wrap64, Int.mul_bmod_bmod,
        Int.bmod_mul_bmod, Int.mul_assoc]
    | _ => rfl

theorem haltsWithin_slot (hd : Descending b.links) (hh : ∀ i ∈ h, i < b.links.size) (c : Cursor)
    {reg : Register} (hreg : reg.arrayElems ≠ 0) :
    HaltsWithin b.links.size (slotLoop b.links c) (h, 1, ⟨some reg, 0, none⟩, b)
      ((linearize c h reg).run b) := by
  have hrun : (linearize c h reg).run b =
      addIndices c (chain b.links h) 1 ⟨some reg, 0, none⟩ b := by
    simp only [linearize, hreg, if_false]
    rfl
  rw [hrun]
  refine hd.haltsWithin_chainLoop
    (f := fun (stride, slot, b) links => addIndices c links stride slot b) (fun _ => rfl) ?_ hh (1, ⟨some reg, 0, none⟩, b)
  rintro ⟨stride, slot, b⟩ ⟨kind, _⟩ rest
  cases kind with
  | array index =>
    simp only [addIndices, exceptT_bind]
    rcases addIndex c slot index stride b with ⟨e | slot', b'⟩ <;> rfl
  | _ => rfl

theorem haltsWithin_uses (hd : Descending b.links) (hh : ∀ i ∈ h, i < b.links.size) :
    HaltsWithin b.links.size (usesLoop b.links b.slot) (h, [])
      ((chain b.links h).flatMap (·.kind.uses b.slot)) := by
  refine hd.haltsWithin_chainLoop (f := fun seen links => seen ++ links.flatMap (·.kind.uses b.slot))
    (fun seen => ?_) (fun seen link rest => ?_) hh []
  · rw [List.flatMap_nil, List.append_nil, id]
  · rw [List.flatMap_cons, ← List.append_assoc]
    rfl

theorem haltsWithin_text (hd : Descending b.links) (hh : ∀ i ∈ h, i < b.links.size) :
    HaltsWithin b.links.size (textLoop b) (h, []) (b.renderDeref h) := by
  have hempty : b.renderDeref h = "&" ++ (b.renderLinks (chain b.links h) ++ String.join []) := by
    rw [String.join_nil, String.append_empty, Body.renderDeref]
  rw [hempty]
  refine hd.haltsWithin_chainLoop (f := fun parts links => "&" ++ (b.renderLinks links ++
    String.join parts)) (fun parts => ?_) (fun parts link rest => ?_) hh []
  · rw [Body.renderLinks, String.empty_append]
  · simp only [Body.renderLinks, Round.answer, String.join_cons, String.append_assoc]

theorem loopsHalt (hd : Descending b.links) (hh : ∀ i ∈ h, i < b.links.size) : LoopsHalt b h where
  root := hd.haltsWithin_root hh
  hash := hd.haltsWithin_hash hh
  comparison := fun _ hk => hd.haltsWithin_compare hh hk
  size := hd.haltsWithin_size hh
  slot := fun c _ hreg => hd.haltsWithin_slot hh c hreg
  uses := hd.haltsWithin_uses hh
  text := hd.haltsWithin_text hh

end Descending

end ShaderIR
