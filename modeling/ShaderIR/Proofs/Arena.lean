import ShaderIR.Uses

/-!
# Arenas and the chains in them

An arena grows by the link constructors, and its array indices change when uses are redirected.
Every link of such an arena stands behind its parent and takes its type and mode from it. So the
walk from a link to its root ends inside the arena, later links do not change it, and the links it
meets fit each other.
-/

set_option autoImplicit false

namespace ShaderIR

inductive Built : Array Link → Prop
  | empty : Built #[]
  | var {links : Array Link} (hb : Built links) (v : Variable) : Built (links.push (varLink v))
  | cast {links : Array Link} (hb : Built links) (parent : Handle) (type : Ty) (mode : Mode)
      (hp : ∀ p ∈ parent, p < links.size) : Built (links.push (castLink parent type mode))
  | array {links : Array Link} {parent : Handle} {index : Operand} {link : Link}
      (hb : Built links) (hl : arrayLink links parent index = .ok link) : Built (links.push link)
  | struct {links : Array Link} {parent : Handle} {field : Int} {link : Link}
      (hb : Built links) (hl : structLink links parent field = .ok link) : Built (links.push link)
  | replace {links : Array Link} (hb : Built links) (old new : Value) :
      Built (links.map (Link.replace old new))

def Link.Fits (links : Array Link) (h : Nat) (link : Link) : Prop :=
  match link.kind with
  | .var v => link.parent = none ∧ link.type = v.type ∧ link.mode = v.mode
  | .array _ => ∃ p up, link.parent = some p ∧ p < h ∧ links[p]? = some up ∧
      link.type = up.type.elementType ∧ link.type ≠ .absent ∧ link.mode = up.mode
  | .struct f => ∃ p up, link.parent = some p ∧ p < h ∧ links[p]? = some up ∧
      link.type = up.type.fieldType f ∧ link.type ≠ .absent ∧ link.mode = up.mode
  | .cast => ∀ p ∈ link.parent, p < h

theorem Link.Fits.parent_lt {links : Array Link} {h p : Nat} {link : Link}
    (hf : link.Fits links h) (hp : link.parent = some p) : p < h := by
  cases hk : link.kind with
  | var v =>
    simp only [Link.Fits, hk] at hf
    simp [hf.1] at hp
  | array index =>
    simp only [Link.Fits, hk] at hf
    obtain ⟨q, up, hq, hlt, -⟩ := hf
    rw [hq] at hp
    cases hp
    exact hlt
  | struct f =>
    simp only [Link.Fits, hk] at hf
    obtain ⟨q, up, hq, hlt, -⟩ := hf
    rw [hq] at hp
    cases hp
    exact hlt
  | cast =>
    simp only [Link.Fits, hk] at hf
    exact hf p hp

theorem Link.Fits.mono {links more : Array Link} {h : Nat} {link : Link}
    (hf : link.Fits links h) (hm : ∀ p < h, more[p]? = links[p]?) : link.Fits more h := by
  cases hk : link.kind with
  | var v => simpa only [Link.Fits, hk] using hf
  | cast => simpa only [Link.Fits, hk] using hf
  | array index =>
    simp only [Link.Fits, hk] at hf ⊢
    obtain ⟨p, up, hp, hlt, hu, rest⟩ := hf
    exact ⟨p, up, hp, hlt, by rw [hm p hlt, hu], rest⟩
  | struct f =>
    simp only [Link.Fits, hk] at hf ⊢
    obtain ⟨p, up, hp, hlt, hu, rest⟩ := hf
    exact ⟨p, up, hp, hlt, by rw [hm p hlt, hu], rest⟩

@[simp] theorem Link.replace_parent (old new : Value) (l : Link) :
    (l.replace old new).parent = l.parent := by
  unfold Link.replace
  split <;> rfl

@[simp] theorem Link.replace_type (old new : Value) (l : Link) :
    (l.replace old new).type = l.type := by
  unfold Link.replace
  split <;> rfl

@[simp] theorem Link.replace_mode (old new : Value) (l : Link) :
    (l.replace old new).mode = l.mode := by
  unfold Link.replace
  split <;> rfl

theorem Link.replace_kind (old new : Value) (l : Link) :
    (l.replace old new).kind = match l.kind with
      | .array index => .array (index.replace old new)
      | k => k := by
  cases hk : l.kind <;> simp only [Link.replace, hk]

theorem Operand.slot?_replace (old new : Value) (o : Operand) :
    (o.replace old new).slot? = o.slot? := by
  cases o <;> rfl

theorem Link.slot?_replace (old new : Value) (l : Link) : (l.replace old new).slot? = l.slot? := by
  cases hk : l.kind <;> simp [Link.slot?, Link.replace_kind, hk, Operand.slot?_replace]

theorem Link.Fits.replace {links : Array Link} {h : Nat} {link : Link} (old new : Value)
    (hf : link.Fits links h) :
    (link.replace old new).Fits (links.map (Link.replace old new)) h := by
  cases hk : link.kind with
  | var v => simpa [Link.Fits, Link.replace_kind, hk] using hf
  | cast => simpa [Link.Fits, Link.replace_kind, hk] using hf
  | array index =>
    simp only [Link.Fits, hk, Link.replace_kind, Link.replace_parent, Link.replace_type,
      Link.replace_mode] at hf ⊢
    obtain ⟨p, up, hp, hlt, hu, rest⟩ := hf
    exact ⟨p, up.replace old new, hp, hlt, by simp [hu], by simpa using rest⟩
  | struct f =>
    simp only [Link.Fits, hk, Link.replace_kind, Link.replace_parent, Link.replace_type,
      Link.replace_mode] at hf ⊢
    obtain ⟨p, up, hp, hlt, hu, rest⟩ := hf
    exact ⟨p, up.replace old new, hp, hlt, by simp [hu], by simpa using rest⟩

/-- What the link constructors take from the parent. -/
theorem arrayLink_ok {links : Array Link} {parent : Handle} {index : Operand} {link : Link}
    (h : arrayLink links parent index = .ok link) :
    ∃ n up, parent = some n ∧ links[n]? = some up ∧ up.type.elementType ≠ .absent ∧
      link = ⟨.array index, parent, up.type.elementType, up.mode⟩ := by
  unfold arrayLink at h
  split at h
  · cases h
  · rename_i up hup
    split at h
    · cases h
    · rename_i hne
      cases h
      obtain ⟨n, rfl, hn⟩ := Option.bind_eq_some_iff.mp hup
      exact ⟨n, up, rfl, hn, hne, rfl⟩

theorem structLink_ok {links : Array Link} {parent : Handle} {field : Int} {link : Link}
    (h : structLink links parent field = .ok link) :
    ∃ n up, parent = some n ∧ links[n]? = some up ∧ up.type.fieldType field ≠ .absent ∧
      link = ⟨.struct field.toNat, parent, up.type.fieldType field, up.mode⟩ := by
  unfold structLink at h
  split at h
  · cases h
  · rename_i up hup
    split at h
    · cases h
    · rename_i hne
      cases h
      obtain ⟨n, rfl, hn⟩ := Option.bind_eq_some_iff.mp hup
      exact ⟨n, up, rfl, hn, hne, rfl⟩

theorem arrayLink_fits {links : Array Link} {parent : Handle} {index : Operand} {link : Link}
    (hl : arrayLink links parent index = .ok link) : link.Fits links links.size := by
  obtain ⟨p, up, rfl, hp, hne, rfl⟩ := arrayLink_ok hl
  exact ⟨p, up, rfl, (Array.getElem?_eq_some_iff.mp hp).1, hp, rfl, hne, rfl⟩

theorem structLink_fits {links : Array Link} {parent : Handle} {field : Int} {link : Link}
    (hl : structLink links parent field = .ok link) : link.Fits links links.size := by
  obtain ⟨p, up, rfl, hp, hne, rfl⟩ := structLink_ok hl
  have hf : up.type.fieldType field = up.type.fieldType field.toNat := by
    cases field with
    | ofNat f => rfl
    | negSucc f =>
      refine absurd ?_ hne
      cases up.type <;> rfl
  exact ⟨p, up, rfl, (Array.getElem?_eq_some_iff.mp hp).1, hp, hf, hne, rfl⟩

/-- One constructor keeps what fits and adds a link that fits. -/
theorem push_fits {links : Array Link} {link : Link}
    (hold : ∀ (h : Nat) (l : Link), links[h]? = some l → l.Fits links h)
    (hnew : link.Fits links links.size) (h : Nat) (l : Link) (hl : (links.push link)[h]? = some l) :
    l.Fits (links.push link) h := by
  have hsame : ∀ p < links.size, (links.push link)[p]? = links[p]? := fun p hp => by
    simp [Array.getElem?_push, show p ≠ links.size by omega]
  rw [Array.getElem?_push] at hl
  split at hl
  · rename_i heq
    cases hl
    subst heq
    exact hnew.mono hsame
  · have hlt : h < links.size := (Array.getElem?_eq_some_iff.mp hl).1
    exact (hold h l hl).mono fun p hp => hsame p (by omega)

theorem Built.fits {links : Array Link} (hb : Built links) :
    ∀ (h : Nat) (link : Link), links[h]? = some link → link.Fits links h := by
  induction hb with
  | empty => simp
  | var _ v ih => exact push_fits ih ⟨rfl, rfl, rfl⟩
  | cast _ parent type mode hp ih => exact push_fits ih hp
  | array _ hl ih => exact push_fits ih (arrayLink_fits hl)
  | struct _ hl ih => exact push_fits ih (structLink_fits hl)
  | replace _ old new ih =>
    intro h link hl
    simp only [Array.getElem?_map, Option.map_eq_some_iff] at hl
    obtain ⟨l, hl, rfl⟩ := hl
    exact (ih h l hl).replace old new

def Descending (links : Array Link) : Prop :=
  ∀ (h : Nat) (link : Link), links[h]? = some link → ∀ p, link.parent = some p → p < h

instance (links : Array Link) : Decidable (Descending links) :=
  decidable_of_iff (∀ h < links.size, ∀ link ∈ links[h]?, ∀ p ∈ link.parent, p < h) <| by
    constructor
    · intro hd h link hl p hp
      exact hd h (Array.getElem?_eq_some_iff.mp hl).1 link hl p hp
    · intro hd h _ link hl p hp
      exact hd h link hl p hp

theorem Built.descending {links : Array Link} (hb : Built links) : Descending links :=
  fun h link hl _ hp => (hb.fits h link hl).parent_lt hp

@[simp] theorem chainFrom_none (links : Array Link) (n : Nat) : chainFrom links n none = [] := by
  cases n <;> rfl

/-- A walk with room for every position up to its start does not depend on the room. -/
theorem chainFrom_stable {links more : Array Link} (hd : Descending links) (h : Nat) :
    ∀ n m, h < n → h < m → (∀ p ≤ h, more[p]? = links[p]?) →
      chainFrom more m (some h) = chainFrom links n (some h) := by
  induction h using Nat.strongRecOn with
  | _ h ih =>
    intro n m hn hm hsame
    obtain ⟨n, rfl⟩ := Nat.exists_eq_succ_of_ne_zero (by omega : n ≠ 0)
    obtain ⟨m, rfl⟩ := Nat.exists_eq_succ_of_ne_zero (by omega : m ≠ 0)
    simp only [chainFrom, hsame h (Nat.le_refl h)]
    cases hl : links[h]? with
    | none => rfl
    | some link =>
      cases hp : link.parent with
      | none => simp [hp]
      | some p =>
        have hlt := hd h link hl p hp
        simp only [hp]
        rw [ih p hlt n m (by omega) (by omega) fun q hq => hsame q (by omega)]

theorem chain_some {links : Array Link} (hd : Descending links) {h : Nat} {link : Link}
    (hl : links[h]? = some link) :
    chain links (some h) = link :: chain links link.parent := by
  have hlt : h < links.size := (Array.getElem?_eq_some_iff.mp hl).1
  have hstep : chain links (some h) = link :: chainFrom links (links.size - 1) link.parent := by
    rw [chain, show links.size = links.size - 1 + 1 by omega]
    simp only [chainFrom, hl]
    simp
  rw [hstep]
  cases hp : link.parent with
  | none => simp [chain]
  | some p =>
    have hlt' := hd h link hl p hp
    rw [chain, chainFrom_stable hd p links.size (links.size - 1) (by omega) (by omega)
      fun _ _ => rfl]

theorem chain_extend {links more : Array Link} (hd : Descending links) {h : Nat}
    (hh : h < links.size) (hsize : links.size ≤ more.size)
    (hsame : ∀ p < links.size, more[p]? = links[p]?) :
    chain more (some h) = chain links (some h) :=
  chainFrom_stable hd h links.size more.size hh (by omega) fun p hp => hsame p (by omega)

theorem chainFrom_map (f : Link → Link) (hf : ∀ l, (f l).parent = l.parent)
    (links : Array Link) (n : Nat) (h : Handle) :
    chainFrom (links.map f) n h = (chainFrom links n h).map f := by
  induction n generalizing h with
  | zero => rfl
  | succ n ih =>
    cases h with
    | none => rfl
    | some h =>
      simp only [chainFrom, Array.getElem?_map]
      cases links[h]? with
      | none => rfl
      | some link => simp [hf, ih]

theorem chain_map (f : Link → Link) (hf : ∀ l, (f l).parent = l.parent)
    (links : Array Link) (h : Handle) : chain (links.map f) h = (chain links h).map f := by
  simp [chain, chainFrom_map f hf]

theorem mem_of_mem_chainFrom {links : Array Link} {n : Nat} {h : Handle} {l : Link}
    (hl : l ∈ chainFrom links n h) : l ∈ links := by
  induction n generalizing h with
  | zero => simp [chainFrom] at hl
  | succ n ih =>
    cases h with
    | none => simp at hl
    | some h =>
      simp only [chainFrom] at hl
      split at hl
      · simp at hl
      · rename_i link hlink
        rcases List.mem_cons.mp hl with rfl | hl
        · exact Array.mem_of_getElem? hlink
        · exact ih hl

theorem mem_of_mem_chain {links : Array Link} {h : Handle} {l : Link}
    (hl : l ∈ chain links h) : l ∈ links :=
  mem_of_mem_chainFrom hl

theorem head?_chain (links : Array Link) (h : Handle) :
    (chain links h).head? = h.bind (links[·]?) := by
  cases h with
  | none => simp [chain]
  | some h =>
    cases hl : links[h]? with
    | none =>
      cases hs : links.size with
      | zero => simp [chain, hs, chainFrom]
      | succ n => simp [chain, hs, chainFrom, hl]
    | some link =>
      have hlt : h < links.size := (Array.getElem?_eq_some_iff.mp hl).1
      rw [chain, show links.size = links.size - 1 + 1 by omega]
      simp only [chainFrom, hl]
      simp [hl]

@[simp] theorem headType_nil : headType [] = .absent := rfl

@[simp] theorem headType_cons (link : Link) (rest : List Link) :
    headType (link :: rest) = link.type := rfl

theorem headType_chain (links : Array Link) (h : Handle) :
    headType (chain links h) = derefType links h := by
  have hh := head?_chain links h
  unfold derefType
  cases hc : chain links h with
  | nil => simp [← hh, hc]
  | cons link rest => simp [← hh, hc]

def Typed : List Link → Prop
  | [] => True
  | link :: rest =>
    (match link.kind with
      | .var v => rest = [] ∧ link.type = v.type ∧ link.mode = v.mode
      | .array _ => link.type = (headType rest).elementType ∧ link.type ≠ .absent ∧
          rest.head?.map Link.mode = some link.mode
      | .struct f => link.type = (headType rest).fieldType f ∧ link.type ≠ .absent ∧
          rest.head?.map Link.mode = some link.mode
      | .cast => True) ∧ Typed rest

/-- A link that fits its parent fits the chain from there. -/
theorem Link.Fits.typed {links : Array Link} {n : Nat} {link : Link} {rest : List Link}
    (hf : link.Fits links n) (hhead : rest.head? = link.parent.bind (links[·]?))
    (ht : Typed rest) : Typed (link :: rest) := by
  refine ⟨?_, ht⟩
  have hup : ∀ p up, link.parent = some p → links[p]? = some up →
      headType rest = up.type ∧ rest.head?.map Link.mode = some up.mode := by
    intro p up hp hu
    rw [hp, Option.bind_some, hu] at hhead
    obtain ⟨tail, rfl⟩ := List.head?_eq_some_iff.mp hhead
    exact ⟨rfl, rfl⟩
  cases hk : link.kind with
  | var v =>
    simp only [Link.Fits, hk] at hf
    rw [hf.1, Option.bind_none, List.head?_eq_none_iff] at hhead
    exact ⟨hhead, hf.2⟩
  | array index =>
    simp only [Link.Fits, hk] at hf
    obtain ⟨p, up, hp, -, hu, ht, hne, hm⟩ := hf
    obtain ⟨htype, hmode⟩ := hup p up hp hu
    exact ⟨by rw [htype, ht], hne, by rw [hmode, hm]⟩
  | struct f =>
    simp only [Link.Fits, hk] at hf
    obtain ⟨p, up, hp, -, hu, ht, hne, hm⟩ := hf
    obtain ⟨htype, hmode⟩ := hup p up hp hu
    exact ⟨by rw [htype, ht], hne, by rw [hmode, hm]⟩
  | cast => trivial

theorem Built.typed_chain {links : Array Link} (hb : Built links) (h : Handle) :
    Typed (chain links h) := by
  cases h with
  | none => simp [chain, Typed]
  | some h =>
    induction h using Nat.strongRecOn with
    | _ h ih =>
      cases hl : links[h]? with
      | none =>
        have hh := head?_chain links (some h)
        simp only [Option.bind_some, hl, List.head?_eq_none_iff] at hh
        simp [hh, Typed]
      | some link =>
        have hfit := hb.fits h link hl
        rw [chain_some hb.descending hl]
        refine hfit.typed (head?_chain links link.parent) ?_
        cases hp : link.parent with
        | none => simp [chain, Typed]
        | some p => exact ih p (hfit.parent_lt hp)

/-- A chain without casts leads to a variable, whose mode is that of every link. -/
theorem Typed.exists_root {link : Link} {rest : List Link} (h : Typed (link :: rest))
    (hcast : ∀ l ∈ link :: rest, l.kind ≠ .cast) :
    ∃ v, rootVariable? (link :: rest) = some v ∧ link.mode = v.mode ∧
      ∃ l ∈ link :: rest, l.kind = .var v := by
  induction rest generalizing link with
  | nil =>
    cases hk : link.kind with
    | var v =>
      simp only [Typed, hk] at h
      exact ⟨v, by simp [rootVariable?, hk], h.1.2.2, link, .head _, hk⟩
    | array index => simp [Typed, hk] at h
    | struct f => simp [Typed, hk] at h
    | cast => exact absurd hk (hcast link (.head _))
  | cons up rest ih =>
    obtain ⟨v, hroot, hmode, l, hl, hlk⟩ := ih h.2 fun l hl => hcast l (.tail _ hl)
    cases hk : link.kind with
    | var w => simp [Typed, hk] at h
    | array index =>
      simp only [Typed, hk, List.head?_cons, Option.map_some, Option.some.injEq] at h
      have hup : up.mode = link.mode := h.1.2.2
      exact ⟨v, by rw [rootVariable?, hk, hroot], hup ▸ hmode, l, .tail _ hl, hlk⟩
    | struct f =>
      simp only [Typed, hk, List.head?_cons, Option.map_some, Option.some.injEq] at h
      have hup : up.mode = link.mode := h.1.2.2
      exact ⟨v, by rw [rootVariable?, hk, hroot], hup ▸ hmode, l, .tail _ hl, hlk⟩
    | cast => exact absurd hk (hcast link (.head _))

theorem Built.exists_root {links : Array Link} (hb : Built links)
    (hcast : ∀ l ∈ links, l.kind ≠ .cast) {n : Nat} {l : Link} (hl : links[n]? = some l) :
    ∃ v, rootVariable? (chain links (some n)) = some v ∧ l.mode = v.mode ∧
      ∃ r ∈ links, r.kind = .var v := by
  have hchain := chain_some hb.descending hl
  have htyped := hb.typed_chain (some n)
  rw [hchain] at htyped
  have hmem : ∀ r ∈ l :: chain links l.parent, r ∈ links := fun r hr => mem_of_mem_chain (hchain ▸ hr)
  obtain ⟨v, hroot, hmode, r, hr, hv⟩ := htyped.exists_root fun r hr => hcast r (hmem r hr)
  exact ⟨v, hchain ▸ hroot, hmode, r, hmem r hr, hv⟩

mutual

def Ty.complete : Ty → Bool
  | .absent => false
  | .scalar _ | .vector _ _ => true
  | .array t _ => t.complete
  | .struct _ fs => Ty.fieldsComplete fs

def Ty.fieldsComplete : List (String × Ty) → Bool
  | [] => true
  | (_, t) :: fs => t.complete && Ty.fieldsComplete fs

end

theorem Ty.complete_of_mem {fs : List (String × Ty)} (h : Ty.fieldsComplete fs = true)
    {f : String × Ty} (hf : f ∈ fs) : f.2.complete = true := by
  induction fs with
  | nil => simp at hf
  | cons g fs ih =>
    simp only [Ty.fieldsComplete, Bool.and_eq_true] at h
    rcases List.mem_cons.mp hf with rfl | hf
    · exact h.1
    · exact ih h.2 hf

theorem Ty.complete_elementType {t : Ty} (h : t.complete = true) (hne : t.elementType ≠ .absent) :
    t.elementType.complete = true := by
  cases t with
  | array t n => exact h
  | _ => exact absurd rfl hne

theorem Ty.complete_fieldType {t : Ty} {i : Int} (h : t.complete = true)
    (hne : t.fieldType i ≠ .absent) : (t.fieldType i).complete = true := by
  cases t with
  | struct name fs =>
    cases i with
    | ofNat i =>
      simp only [Ty.fieldType] at hne ⊢
      cases hf : fs[i]? with
      | none => simp [hf] at hne
      | some f => exact Ty.complete_of_mem h (List.mem_of_getElem? hf)
    | negSucc i => exact absurd rfl hne
  | _ => exact absurd rfl hne

theorem Ty.complete_field {name : String} {fields : List (String × Ty)} {f : Nat}
    (h : (Ty.struct name fields).complete = true) (hf : f < fields.length) :
    ((Ty.struct name fields).fieldType f).complete = true := by
  have hget : (Ty.struct name fields).fieldType f = (fields.get ⟨f, hf⟩).2 := by
    simp [Ty.fieldType, hf]
  rw [hget]
  exact Ty.complete_of_mem h (List.get_mem _ _)

theorem Typed.complete {link : Link} {rest : List Link} (h : Typed (link :: rest))
    (hcast : ∀ l ∈ link :: rest, l.kind ≠ .cast)
    (hvar : ∀ l ∈ link :: rest, ∀ v, l.kind = .var v → v.type.complete = true) :
    link.type.complete = true := by
  induction rest generalizing link with
  | nil =>
    cases hk : link.kind with
    | var v =>
      simp only [Typed, hk] at h
      rw [h.1.2.1]
      exact hvar link (.head _) v hk
    | array index => simp [Typed, hk] at h
    | struct f => simp [Typed, hk] at h
    | cast => exact absurd hk (hcast link (.head _))
  | cons up rest ih =>
    have hup := ih h.2 (fun l hl => hcast l (.tail _ hl)) fun l hl => hvar l (.tail _ hl)
    cases hk : link.kind with
    | var w => simp [Typed, hk] at h
    | array index =>
      simp only [Typed, hk, headType_cons] at h
      obtain ⟨⟨htype, hne, -⟩, -⟩ := h
      rw [htype] at hne ⊢
      exact Ty.complete_elementType hup hne
    | struct f =>
      simp only [Typed, hk, headType_cons] at h
      obtain ⟨⟨htype, hne, -⟩, -⟩ := h
      rw [htype] at hne ⊢
      exact Ty.complete_fieldType hup hne
    | cast => exact absurd hk (hcast link (.head _))

structure PlainArena (links : Array Link) : Prop where
  built : Built links
  castless : ∀ l ∈ links, l.kind ≠ .cast
  slotless : ∀ l ∈ links, l.slot? = none
  complete : ∀ l ∈ links, l.type.complete = true

namespace PlainArena

variable {links : Array Link}

theorem push (h : PlainArena links) {l : Link} (hbuilt : Built (links.push l))
    (hcast : l.kind ≠ .cast) (hslot : l.slot? = none) (hcomplete : l.type.complete = true) :
    PlainArena (links.push l) := by
  refine ⟨hbuilt, ?_, ?_, ?_⟩
  · intro x hx
    rcases Array.mem_push.mp hx with hx | rfl
    · exact h.castless x hx
    · exact hcast
  · intro x hx
    rcases Array.mem_push.mp hx with hx | rfl
    · exact h.slotless x hx
    · exact hslot
  · intro x hx
    rcases Array.mem_push.mp hx with hx | rfl
    · exact h.complete x hx
    · exact hcomplete

theorem array (h : PlainArena links) {parent : Handle} {v : Value} {l : Link}
    (hl : arrayLink links parent (.value v) = .ok l) : PlainArena (links.push l) := by
  obtain ⟨n, up, rfl, hn, hne, rfl⟩ := arrayLink_ok hl
  exact h.push (h.built.array hl) (by simp) rfl
    (Ty.complete_elementType (h.complete up (Array.mem_of_getElem? hn)) hne)

theorem struct (h : PlainArena links) {parent : Handle} {field : Int} {l : Link}
    (hl : structLink links parent field = .ok l) : PlainArena (links.push l) := by
  obtain ⟨n, up, rfl, hn, hne, rfl⟩ := structLink_ok hl
  exact h.push (h.built.struct hl) (by simp) rfl
    (Ty.complete_fieldType (h.complete up (Array.mem_of_getElem? hn)) hne)

theorem complete_derefType (h : PlainArena links) {n : Nat} (hn : n < links.size) :
    (derefType links (some n)).complete = true := by
  have hlink : links[n]? = some links[n] := Array.getElem?_eq_getElem hn
  simp only [derefType, Option.bind_some, hlink]
  exact h.complete _ (Array.getElem_mem hn)

theorem isLocal_iff (h : PlainArena links) {x : Handle} {v : Variable}
    (hv : rootVariable? (chain links x) = some v) : isLocal links x = true ↔ v.mode = .local := by
  have hhead := head?_chain links x
  cases hl : x.bind (links[·]?) with
  | none =>
    rw [hl, List.head?_eq_none_iff] at hhead
    rw [hhead] at hv
    cases hv
  | some l =>
    obtain ⟨n, rfl, hn⟩ := Option.bind_eq_some_iff.mp hl
    obtain ⟨w, hw, hmode, -⟩ := h.built.exists_root h.castless hn
    obtain rfl : w = v := Option.some.inj (hw.symm.trans hv)
    simp [isLocal, hn, hmode]

theorem replace (h : PlainArena links) (old new : Value) :
    PlainArena (links.map (Link.replace old new)) := by
  refine ⟨h.built.replace old new, ?_, ?_, ?_⟩
  · intro x hx
    obtain ⟨l, hl, rfl⟩ := Array.mem_map.mp hx
    have hcast := h.castless l hl
    rw [Link.replace_kind]
    cases hk : l.kind <;> simp_all
  · intro x hx
    obtain ⟨l, hl, rfl⟩ := Array.mem_map.mp hx
    rw [Link.slot?_replace]
    exact h.slotless l hl
  · intro x hx
    obtain ⟨l, hl, rfl⟩ := Array.mem_map.mp hx
    rw [Link.replace_type]
    exact h.complete l hl

end PlainArena

end ShaderIR
