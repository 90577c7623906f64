import ShaderIR.Proofs.ChainLoops

/-!
# Arenas under calls

An arena starts empty. Calls of the link constructors fill it, each with a parent that an earlier
call returned, and uses are redirected in between. A call that fails changes nothing, and every
other call leaves links that stand behind their parents and fit them. All that the loops along
chains and the question for local storage rely on follows from that.
-/

set_option autoImplicit false

namespace ShaderIR

inductive ArenaCall where
  | var (v : Variable)
  | array (parent : Nat) (index : Operand)
  | struct (parent : Nat) (field : Int)
  | cast (parent : Handle) (type : Ty) (mode : Mode)
  | replaceUses (old new : Value)

namespace ArenaCall

def parent : ArenaCall → Handle
  | array p _ | struct p _ => some p
  | cast p _ _ => p
  | var _ | replaceUses _ _ => none

def perform : ArenaCall → ExceptT LinkError Edit Handle
  | var v => Body.varDeref v
  | array p index => Body.arrayDeref (some p) index
  | struct p field => Body.structDeref (some p) field
  | cast p type mode => Body.castDeref p type mode
  | replaceUses old new => do
    Body.replaceUses old new
    return none

def returned : Except LinkError Handle → List Nat
  | .ok h => h.toList
  | .error _ => []

/-- A call fails and changes nothing, adds a link or redirects uses. -/
theorem perform_cases (call : ArenaCall) (b : Body) :
    (∃ e, call.perform b = (.error e, b)) ∨
    (∃ link, call.perform b = (.ok (some b.links.size), b.addLink link) ∧
      (Built b.links → (∀ p ∈ call.parent, p < b.links.size) → Built (b.links.push link))) ∨
    ∃ old new c, call.perform b = (.ok none, c) ∧ c.links = b.links.map (Link.replace old new) := by
  cases call with
  | var v => exact .inr (.inl ⟨varLink v, rfl, fun hb _ => hb.var v⟩)
  | cast p type mode =>
    exact .inr (.inl ⟨castLink p type mode, rfl, fun hb hp => hb.cast p type mode hp⟩)
  | array p index =>
    cases hl : arrayLink b.links (some p) index with
    | error e => exact .inl ⟨e, by rw [perform, arrayDeref_run, hl]⟩
    | ok link =>
      exact .inr (.inl ⟨link, by rw [perform, arrayDeref_run, hl], fun hb _ => hb.array hl⟩)
  | struct p field =>
    cases hl : structLink b.links (some p) field with
    | error e => exact .inl ⟨e, by rw [perform, structDeref_run, hl]⟩
    | ok link =>
      exact .inr (.inl ⟨link, by rw [perform, structDeref_run, hl], fun hb _ => hb.struct hl⟩)
  | replaceUses old new => exact .inr (.inr ⟨old, new, _, rfl, rfl⟩)

theorem perform_error {call : ArenaCall} {b c : Body} {e : LinkError}
    (h : call.perform b = (.error e, c)) : c = b := by
  rcases call.perform_cases b with ⟨e', hrun⟩ | ⟨link, hrun, -⟩ | ⟨old, new, c', hrun, -⟩
  · rw [hrun] at h
    cases h
    rfl
  · rw [hrun] at h
    cases h
  · rw [hrun] at h
    cases h

/-- One call: the arena stays well built, and handles from before and the one returned are in it. -/
theorem perform_built {call : ArenaCall} {b c : Body} {r : Except LinkError Handle}
    (hb : Built b.links) (hp : ∀ p ∈ call.parent, p < b.links.size) (h : call.perform b = (r, c)) :
    Built c.links ∧ b.links.size ≤ c.links.size ∧ ∀ i ∈ returned r, i < c.links.size := by
  rcases call.perform_cases b with ⟨e, hrun⟩ | ⟨link, hrun, hpush⟩ | ⟨old, new, c', hrun, hlinks⟩
  · rw [hrun] at h
    cases h
    exact ⟨hb, Nat.le_refl _, by simp [returned]⟩
  · rw [hrun] at h
    cases h
    exact ⟨hpush hb hp, by simp [Body.addLink], by simp [returned, Body.addLink]⟩
  · rw [hrun] at h
    cases h
    rw [hlinks]
    exact ⟨hb.replace old new, by simp, by simp [returned]⟩

end ArenaCall

inductive ArenaRun (start : Body) : List Nat → Body → Prop
  | start : ArenaRun start [] start
  | call {known : List Nat} {b c : Body} {r : Except LinkError Handle}
      (hrun : ArenaRun start known b) (call : ArenaCall) (hp : ∀ p ∈ call.parent, p ∈ known)
      (hc : call.perform b = (r, c)) : ArenaRun start (known ++ ArenaCall.returned r) c

theorem ArenaRun.built {start b : Body} {known : List Nat} (hs : start.links = #[])
    (hrun : ArenaRun start known b) : Built b.links ∧ ∀ i ∈ known, i < b.links.size := by
  induction hrun with
  | start =>
    rw [hs]
    exact ⟨.empty, by simp⟩
  | call _ call hp hc ih =>
    obtain ⟨hb, hknown⟩ := ih
    obtain ⟨hb', hsize, hnew⟩ := ArenaCall.perform_built hb (fun p h => hknown p (hp p h)) hc
    refine ⟨hb', fun i hi => ?_⟩
    rcases List.mem_append.mp hi with hi | hi
    · exact (hknown i hi).trans_le hsize
    · exact hnew i hi

theorem Typed.mode_eq {link : Link} {rest : List Link} (h : Typed (link :: rest))
    (hcast : ∀ l ∈ link :: rest, l.kind ≠ .cast) :
    ∃ v, rootVariable? (link :: rest) = some v ∧ ∀ l ∈ link :: rest, l.mode = v.mode := by
  induction rest generalizing link with
  | nil =>
    obtain ⟨v, hroot, hmode, -⟩ := h.exists_root hcast
    exact ⟨v, hroot, by simpa using hmode⟩
  | cons up rest ih =>
    obtain ⟨v, hroot, hmode, -⟩ := h.exists_root hcast
    obtain ⟨w, hroot', hmodes⟩ := ih h.2 fun l hl => hcast l (.tail _ hl)
    have hsame : rootVariable? (link :: up :: rest) = rootVariable? (up :: rest) := by
      cases hk : link.kind with
      | var u => simp [Typed, hk] at h
      | cast => exact absurd hk (hcast link (.head _))
      | _ => rw [rootVariable?, hk]
    have hvar : w = v := Option.some.inj (hroot'.symm.trans (hsame.symm.trans hroot))
    refine ⟨v, hroot, fun l hl => ?_⟩
    rcases List.mem_cons.mp hl with rfl | hl
    · exact hmode
    · exact hvar ▸ hmodes l hl

structure SoundArena (b : Body) : Prop where
  descending : Descending b.links
  /-- An element or a field has its type from the link it is a part of. -/
  fits : ∀ (h : Nat) (link : Link), b.links[h]? = some link → link.Fits b.links h
  /-- Without casts the mode is that of the variable, so the end of the chain tells whether the
  variable is local. -/
  mode : ∀ h < b.links.size, (∀ l ∈ chain b.links (some h), l.kind ≠ .cast) →
    ∃ v, rootVariable? (chain b.links (some h)) = some v ∧
      (∀ l ∈ chain b.links (some h), l.mode = v.mode) ∧
      (isLocal b.links (some h) = true ↔ v.mode = .local)
  loops : ∀ h : Handle, (∀ i ∈ h, i < b.links.size) → LoopsHalt b h

theorem Built.soundArena {b : Body} (hb : Built b.links) : SoundArena b where
  descending := hb.descending
  fits := hb.fits
  mode := by
    intro h hh hcast
    have hl : b.links[h]? = some b.links[h] := Array.getElem?_eq_getElem hh
    have htyped := hb.typed_chain (some h)
    rw [chain_some hb.descending hl] at htyped hcast ⊢
    obtain ⟨v, hroot, hmodes⟩ := htyped.mode_eq hcast
    refine ⟨v, hroot, hmodes, ?_⟩
    rw [isLocal, Option.bind_some, hl, ← hmodes _ (.head _)]
    exact beq_iff_eq
  loops := fun _ hh => hb.descending.loopsHalt hh

/-- Whatever is called, the arena is sound, the handles returned stay in it, and a call that fails
leaves everything as it was. -/
theorem arenaRun_sound {start b : Body} {known : List Nat} (hs : start.links = #[])
    (hrun : ArenaRun start known b) :
    SoundArena b ∧ (∀ i ∈ known, i < b.links.size) ∧
      ∀ (call : ArenaCall) (e : LinkError) (c : Body), call.perform b = (.error e, c) → c = b :=
  ⟨(hrun.built hs).1.soundArena, (hrun.built hs).2, fun _ _ _ h => ArenaCall.perform_error h⟩

/-- A chain `&light.w[i]` with an index that is redirected, an index into a number that is refused,
and two casts, one of them from nothing. -/
theorem light_arena :
    let light : Variable :=
      ⟨0, 0, "light", .struct "Light" [("w", .array (.scalar .float) 3)], .local, none⟩
    ∃ known b, ArenaRun {} known b ∧ known = [0, 1, 2, 3, 4] ∧ SoundArena b ∧
      rootVariable? (chain b.links (some 2)) = some light ∧ isLocal b.links (some 2) = true ∧
      isLocal b.links (some 3) = false ∧ LoopsHalt b (some 2) ∧
      b.renderDeref (some 2) = "&light.w[ssa_1]" := by
  intro light
  have h0 : ArenaRun {} [] {} := .start
  have h1 := h0.call (.var light) (by decide) rfl
  have h2 := h1.call (.struct 0 0) (by decide) rfl
  have h3 := h2.call (.array 1 (.value ⟨0, 0, 1, 32⟩)) (by decide) rfl
  have h4 := h3.call (.array 2 (.value ⟨0, 0, 1, 32⟩)) (by decide) rfl
  have h5 := h4.call (.cast (some 2) (.scalar .uint) .shaderIn) (by decide) rfl
  have h6 := h5.call (.cast none (.scalar .uint) .shaderIn) (by decide) rfl
  have h7 := h6.call (.replaceUses ⟨0, 0, 1, 32⟩ ⟨1, 1, 1, 32⟩) (by decide) rfl
  obtain ⟨hsound, hknown, -⟩ := arenaRun_sound rfl h7
  have hloops := hsound.loops (some 2) (by rintro _ ⟨⟩; exact hknown 2 (by decide))
  exact ⟨_, _, h7, rfl, hsound, by decide +kernel, by decide +kernel, by decide +kernel, hloops,
    by decide +kernel⟩

end ShaderIR
