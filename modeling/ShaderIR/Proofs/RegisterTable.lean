import Mathlib.Data.List.Dedup
import Mathlib.Data.List.Perm.Basic
import ShaderIR.Proofs.Identity

/-!
# One register for each identity

The table of a function is filled by a sequence of lookups. Whatever hashes collide, an entry is
found exactly when its chain takes the same turns, and for chains that end at a vector or scalar
this is equality of identities. So the entries, the registers made and the identities looked up with
success correspond one to one.
-/

set_option autoImplicit false

namespace ShaderIR

open Lowering

namespace RegisterTable

/-- The entries stand for distinct identities and distinct registers, and each holds what its chain
asks for. `made` is how many registers there are. -/
structure Sound (links : Array Link) (made : Nat) (t : RegisterTable) : Prop where
  hash : ∀ e ∈ t.entries, hashChain (chain links e.deref) = .ok e.hash
  leaf : ∀ e ∈ t.entries, (headType (chain links e.deref)).isVectorOrScalar = true
  shape : ∀ e ∈ t.entries, e.reg.components = (headType (chain links e.deref)).components ∧
    e.reg.bits = (headType (chain links e.deref)).bits ∧
    e.reg.arrayElems = arraySize (chain links e.deref)
  serial : ∀ e ∈ t.entries, e.reg.serial < made
  registers : (t.entries.map (·.reg.serial)).Nodup
  identities : (t.entries.map fun e => identity? (chain links e.deref)).Nodup

theorem Sound.empty (links : Array Link) (made : Nat) : Sound links made .empty := by
  constructor <;> simp [RegisterTable.empty]

theorem Sound.identity {links : Array Link} {made : Nat} {t : RegisterTable}
    (ht : t.Sound links made) {e : TableEntry} (he : e ∈ t.entries) :
    (identity? (chain links e.deref)).isSome :=
  identity?_of_hashFrom (ht.hash e he)

/-- A chain that takes the turns of an entry has the types of its chain. -/
theorem Sound.outline_eq {links : Array Link} {made : Nat} {t : RegisterTable}
    (ht : t.Sound links made) (hb : Built links) {e : TableEntry} (he : e ∈ t.entries) {h : Handle}
    (hturns : turns (chain links e.deref) = turns (chain links h)) :
    (chain links e.deref).map Link.outline = (chain links h).map Link.outline :=
  outline_eq_of_turns (hb.typed_chain _) (hb.typed_chain _) (ht.identity he) hturns

/-- The search returns the first entry whose chain takes the same turns. Other entries of the same
hash are passed over. -/
theorem find?_eq {links : Array Link} (hb : Built links) {h : Handle} {hash : UInt32}
    (hh : hashChain (chain links h) = .ok hash) (entries : List TableEntry)
    (he : ∀ e ∈ entries, hashChain (chain links e.deref) = .ok e.hash) :
    find? links hash h entries = .ok ((entries.find? fun e =>
      turns (chain links e.deref) = turns (chain links h)).map (·.reg)) := by
  induction entries with
  | nil => rfl
  | cons e rest ih =>
    have hrest := ih fun e' he' => he e' (by simp [he'])
    have hhash := he e (by simp)
    have hsame := samePlace_eq (hb.typed_chain e.deref) (hb.typed_chain h)
      (identity?_of_hashFrom hhash) (identity?_of_hashFrom hh)
    by_cases hturns : turns (chain links e.deref) = turns (chain links h)
    · -- equal turns mean equal identities, which have one hash
      obtain ⟨⟨v, fs⟩, hid⟩ := Option.isSome_iff_exists.mp (identity?_of_hashFrom hh)
      have hid' := (identity?_congr hturns).trans hid
      have : e.hash = hash := by
        rw [hashChain, hashFrom_of_identity hid'] at hhash
        rw [hashChain, hashFrom_of_identity hid] at hh
        exact Except.ok.inj (hhash.symm.trans hh)
      simp [find?, this, hsame, hturns, bind, Except.bind, pure, Except.pure]
    · by_cases hk : e.hash = hash
      · simp [find?, hk, hsame, hturns, bind, Except.bind, hrest]
      · simp [find?, hk, hturns, hrest]

/-- The table after a lookup, the body after it, and the entry that answers it. -/
theorem lookupOrCreate_ok {links : Array Link} (hb : Built links) {t t' : RegisterTable}
    {b b' : Body} {h : Handle} {reg : Register} (hl : b.links = links)
    (ht : t.Sound links b.registerCount)
    (hok : t.lookupOrCreate h b = .ok (reg, t', b')) :
    (∃ e ∈ t'.entries, e.reg = reg ∧
      turns (chain links e.deref) = turns (chain links h)) ∧
    ((t' = t ∧ b' = b) ∨
      (∃ hash, hashChain (chain links h) = .ok hash ∧
        t'.entries = t.entries ++ [⟨hash, h, reg⟩] ∧
        (headType (chain links h)).isVectorOrScalar = true ∧
        (∀ e ∈ t.entries, turns (chain links e.deref) ≠ turns (chain links h)) ∧
        reg = ⟨b.registerCount, b.registers.size, (headType (chain links h)).components,
          (headType (chain links h)).bits, arraySize (chain links h)⟩ ∧
        b' = { b with
          registers := b.registers.push reg
          registerCount := b.registerCount + 1 })) := by
  subst hl
  unfold lookupOrCreate at hok
  cases hh : hashChain (chain b.links h) with
  | error e => simp [hh, bind, Except.bind] at hok
  | ok hash =>
    simp only [hh, bind, Except.bind] at hok
    split at hok
    · cases hok
    · rw [find?_eq hb hh t.entries ht.hash] at hok
      cases hf : t.entries.find? fun e =>
          turns (chain b.links e.deref) = turns (chain b.links h) with
      | some e =>
        simp only [hf, Option.map_some, pure, Except.pure, Except.ok.injEq, Prod.mk.injEq] at hok
        obtain ⟨rfl, rfl, rfl⟩ := hok
        refine ⟨⟨e, List.mem_of_find?_eq_some hf, rfl, ?_⟩, .inl ⟨rfl, rfl⟩⟩
        simpa using List.find?_some hf
      | none =>
        simp only [hf, Option.map_none] at hok
        split at hok
        · rename_i hleaf
          cases hok
          refine ⟨⟨⟨hash, h, _⟩, by simp, rfl, rfl⟩, .inr ⟨hash, rfl, rfl, hleaf, ?_, rfl, rfl⟩⟩
          simpa using hf
        · cases hok

theorem Sound.lookup {links : Array Link} (hb : Built links) {t t' : RegisterTable}
    {b b' : Body} {h : Handle} {reg : Register} (hl : b.links = links)
    (ht : t.Sound links b.registerCount)
    (hok : t.lookupOrCreate h b = .ok (reg, t', b')) :
    t'.Sound links b'.registerCount ∧ b'.links = links := by
  obtain ⟨-, ⟨rfl, rfl⟩ | ⟨hash, hh, hentries, hleaf, hother, rfl, rfl⟩⟩ :=
    lookupOrCreate_ok hb hl ht hok
  · exact ⟨ht, hl⟩
  refine ⟨?_, hl⟩
  constructor
  · intro e he
    simp only [hentries, List.mem_append, List.mem_singleton] at he
    rcases he with he | rfl
    · exact ht.hash e he
    · exact hh
  · intro e he
    simp only [hentries, List.mem_append, List.mem_singleton] at he
    rcases he with he | rfl
    · exact ht.leaf e he
    · exact hleaf
  · intro e he
    simp only [hentries, List.mem_append, List.mem_singleton] at he
    rcases he with he | rfl
    · exact ht.shape e he
    · exact ⟨rfl, rfl, rfl⟩
  · intro e he
    simp only [hentries, List.mem_append, List.mem_singleton] at he
    rcases he with he | rfl
    · exact Nat.lt_succ_of_lt (ht.serial e he)
    · exact Nat.lt_succ_self _
  · rw [hentries, List.map_append, List.nodup_append]
    refine ⟨ht.registers, by simp, ?_⟩
    intro s hs s' hs'
    obtain ⟨e, he, rfl⟩ := List.mem_map.mp hs
    simp only [List.map_cons, List.map_nil, List.mem_singleton] at hs'
    rw [hs']
    exact Nat.ne_of_lt (ht.serial e he)
  · rw [hentries, List.map_append, List.nodup_append]
    refine ⟨ht.identities, by simp, ?_⟩
    intro i hi i' hi'
    obtain ⟨e, he, rfl⟩ := List.mem_map.mp hi
    simp only [List.map_cons, List.map_nil, List.mem_singleton] at hi'
    rw [hi']
    -- both chains end at a vector or scalar, so equal identities would mean equal turns
    intro heq
    exact hother e he (turns_eq_of_identity (hb.typed_chain _) (hb.typed_chain _)
      (ht.leaf e he) hleaf (ht.identity he) heq)

theorem Sound.entry_eq_of_reg {links : Array Link} {made : Nat} {t : RegisterTable}
    (ht : t.Sound links made) {d e : TableEntry} (hd : d ∈ t.entries) (he : e ∈ t.entries)
    (h : d.reg = e.reg) : d = e :=
  List.inj_on_of_nodup_map ht.registers hd he (by rw [h])

theorem Sound.entry_eq_of_turns {links : Array Link} {made : Nat} {t : RegisterTable}
    (ht : t.Sound links made) {d e : TableEntry} (hd : d ∈ t.entries) (he : e ∈ t.entries)
    (h : turns (chain links d.deref) = turns (chain links e.deref)) : d = e :=
  List.inj_on_of_nodup_map ht.identities hd he (identity?_congr h)

theorem Sound.congr {links links' : Array Link} {made : Nat} {t : RegisterTable}
    (ht : t.Sound links made)
    (h : ∀ x, (chain links' x).map Link.outline = (chain links x).map Link.outline) :
    t.Sound links' made := by
  have hid : ∀ x, identity? (chain links' x) = identity? (chain links x) := fun x =>
    identity?_congr (turns_congr (h x))
  refine ⟨?_, ?_, ?_, ht.serial, ht.registers, ?_⟩
  · intro e he
    obtain ⟨⟨v, fs⟩, hv⟩ := Option.isSome_iff_exists.mp (ht.identity he)
    rw [← ht.hash e he, hashChain, hashChain, hashFrom_of_identity hv,
      hashFrom_of_identity ((hid e.deref).trans hv)]
  · intro e he
    rw [headType_congr (h e.deref)]
    exact ht.leaf e he
  · intro e he
    rw [headType_congr (h e.deref), arraySize_congr (h e.deref)]
    exact ht.shape e he
  · simpa only [hid] using ht.identities

/-- The answers of a sequence of lookups, each beside its handle, with the table and the body after
it. A lookup that fails hands on the table and the body it was given. -/
def lookups (t : RegisterTable) (b : Body) :
    List Handle → List (Handle × Except LowerError Register) × RegisterTable × Body
  | [] => ([], t, b)
  | h :: hs =>
    match t.lookupOrCreate h b with
    | .ok (reg, t', b') =>
      let r := lookups t' b' hs
      ((h, .ok reg) :: r.1, r.2)
    | .error e =>
      let r := lookups t b hs
      ((h, .error e) :: r.1, r.2)

theorem lookups_handles (t : RegisterTable) (b : Body) (hs : List Handle) :
    (lookups t b hs).1.map Prod.fst = hs := by
  induction hs generalizing t b with
  | nil => rfl
  | cons h hs ih =>
    unfold lookups
    split <;> simp [ih]

theorem lookups_append (t : RegisterTable) (b : Body) (hs more : List Handle) :
    lookups t b (hs ++ more) =
      let r := lookups t b hs
      let r' := lookups r.2.1 r.2.2 more
      (r.1 ++ r'.1, r'.2) := by
  induction hs generalizing t b with
  | nil => rfl
  | cons h hs ih =>
    simp only [List.cons_append, lookups]
    split <;> simp [ih]

/-- The entries that a sequence of lookups adds: each has its register appended to the body and
answers a lookup of its own chain, and every successful lookup is answered by an entry that takes
the same turns. -/
theorem lookups_entries {links : Array Link} (hb : Built links) (hs : List Handle)
    {t : RegisterTable} {b : Body} (hl : b.links = links) (ht : t.Sound links b.registerCount) :
    let r := lookups t b hs
    r.2.1.Sound links r.2.2.registerCount ∧
    (∀ h reg, (h, .ok reg) ∈ r.1 → ∃ e ∈ r.2.1.entries, e.reg = reg ∧
      turns (chain links e.deref) = turns (chain links h)) ∧
    ∃ new, r.2.1.entries = t.entries ++ new ∧
      r.2.2.registers.toList = b.registers.toList ++ new.map (·.reg) ∧
      ∀ e ∈ new, (e.deref, .ok e.reg) ∈ r.1 := by
  induction hs generalizing t b with
  | nil => exact ⟨ht, by simp [lookups], [], by simp [lookups]⟩
  | cons h hs ih =>
    cases hstep : t.lookupOrCreate h b with
    | error e =>
      obtain ⟨hsound, hfound, new, hnew, hregs, hans⟩ := ih hl ht
      simp only [lookups, hstep]
      refine ⟨hsound, ?_, new, hnew, hregs, ?_⟩
      · intro h' reg hmem
        rcases List.mem_cons.mp hmem with heq | hmem
        · simp at heq
        · exact hfound h' reg hmem
      · exact fun e he => List.mem_cons_of_mem _ (hans e he)
    | ok res =>
      obtain ⟨reg, t', b'⟩ := res
      obtain ⟨⟨e₀, he₀, hreg₀, hturns₀⟩, hcase⟩ := lookupOrCreate_ok hb hl ht hstep
      obtain ⟨ht', hl'⟩ := ht.lookup hb hl hstep
      obtain ⟨hsound, hfound, new, hnew, hregs, hans⟩ := ih hl' ht'
      simp only [lookups, hstep]
      refine ⟨hsound, ?_, ?_⟩
      · intro h' reg' hmem
        rcases List.mem_cons.mp hmem with heq | hmem
        · cases heq
          exact ⟨e₀, by rw [hnew]; exact List.mem_append_left _ he₀, hreg₀, hturns₀⟩
        · exact hfound h' reg' hmem
      · rcases hcase with ⟨rfl, rfl⟩ | ⟨hash, -, hentries, -, -, -, hb'⟩
        · exact ⟨new, hnew, hregs, fun e he => List.mem_cons_of_mem _ (hans e he)⟩
        · refine ⟨⟨hash, h, reg⟩ :: new, by simp [hnew, hentries], ?_, ?_⟩
          · rw [hregs, hb']
            simp
          · intro e he
            rcases List.mem_cons.mp he with rfl | he
            · simp
            · exact List.mem_cons_of_mem _ (hans e he)

def foundIdentities (links : Array Link) (answers : List (Handle × Except LowerError Register)) :
    List (Option (Variable × List Nat)) :=
  answers.filterMap fun a => a.2.toOption.map fun _ => identity? (chain links a.1)

theorem mem_foundIdentities {links : Array Link}
    {answers : List (Handle × Except LowerError Register)} {i : Option (Variable × List Nat)} :
    i ∈ foundIdentities links answers ↔
      ∃ h reg, (h, .ok reg) ∈ answers ∧ identity? (chain links h) = i := by
  constructor
  · intro hi
    obtain ⟨⟨h, a⟩, hmem, ha⟩ := List.mem_filterMap.mp hi
    cases a with
    | error e => simp [Except.toOption] at ha
    | ok reg => exact ⟨h, reg, hmem, by simpa [Except.toOption] using ha⟩
  · rintro ⟨h, reg, hmem, rfl⟩
    exact List.mem_filterMap.mpr ⟨_, hmem, by simp [Except.toOption]⟩

/-- In every sequence of lookups that starts with an empty table, two successful lookups share a
register exactly when their chains have one identity; the register has the shape that the chain at
hand asks for; the table, the identities found and the registers made are equally many; and a lookup
that fails changes nothing. -/
theorem lookups_one_register_per_identity (b : Body) (hb : Built b.links) (hs : List Handle) :
    let r := lookups .empty b hs
    r.1.map Prod.fst = hs ∧
    (∀ h reg h' reg', (h, .ok reg) ∈ r.1 → (h', .ok reg') ∈ r.1 →
      (reg = reg' ↔ identity? (chain b.links h) = identity? (chain b.links h'))) ∧
    (∀ h reg, (h, .ok reg) ∈ r.1 → (identity? (chain b.links h)).isSome ∧
      reg.components = (derefType b.links h).components ∧
      reg.bits = (derefType b.links h).bits ∧
      reg.arrayElems = arraySize (chain b.links h)) ∧
    r.2.1.size = (foundIdentities b.links r.1).dedup.length ∧
    r.2.2.registers.toList = b.registers.toList ++ r.2.1.entries.map (·.reg) ∧
    ∀ earlier h e, earlier ++ [h] <+: hs →
      (lookups .empty b (earlier ++ [h])).1.getLast? = some (h, .error e) →
      (lookups .empty b (earlier ++ [h])).2 = (lookups .empty b earlier).2 := by
  intro r
  obtain ⟨hsound, hfound, new, hnew, hregs, hans⟩ :=
    lookups_entries hb hs rfl (Sound.empty b.links b.registerCount)
  have hentries : r.2.1.entries = new := hnew
  -- the entry that answers a successful lookup agrees with its chain in all that the table stores
  have hshape : ∀ h reg, (h, .ok reg) ∈ r.1 → ∃ e ∈ r.2.1.entries, e.reg = reg ∧
      turns (chain b.links e.deref) = turns (chain b.links h) ∧
      (chain b.links e.deref).map Link.outline = (chain b.links h).map Link.outline := by
    intro h reg hmem
    obtain ⟨e, he, hreg, hturns⟩ := hfound h reg hmem
    exact ⟨e, he, hreg, hturns, outline_eq_of_turns (hb.typed_chain _) (hb.typed_chain _)
      (hsound.identity he) hturns⟩
  refine ⟨lookups_handles _ _ hs, ?_, ?_, ?_, ?_, ?_⟩
  · intro h reg h' reg' hmem hmem'
    obtain ⟨e, he, rfl, hturns, hout⟩ := hshape h reg hmem
    obtain ⟨e', he', rfl, hturns', hout'⟩ := hshape h' reg' hmem'
    constructor
    · intro hreg
      rw [← identity?_congr hturns, ← identity?_congr hturns', hsound.entry_eq_of_reg he he' hreg]
    · intro hid
      rw [← identity?_congr hturns, ← identity?_congr hturns'] at hid
      rw [List.inj_on_of_nodup_map hsound.identities he he' hid]
  · intro h reg hmem
    obtain ⟨e, he, rfl, hturns, hout⟩ := hshape h reg hmem
    obtain ⟨hc, hbits, helems⟩ := hsound.shape e he
    rw [← headType_chain, ← identity?_congr hturns, ← headType_congr hout, ← arraySize_congr hout]
    exact ⟨hsound.identity he, hc, hbits, helems⟩
  · have hperm : (r.2.1.entries.map fun e => identity? (chain b.links e.deref)).Perm
        (foundIdentities b.links r.1).dedup := by
      rw [List.perm_ext_iff_of_nodup hsound.identities (List.nodup_dedup _)]
      intro i
      rw [List.mem_dedup, mem_foundIdentities, List.mem_map]
      constructor
      · rintro ⟨e, he, rfl⟩
        exact ⟨e.deref, e.reg, hans e (hentries ▸ he), rfl⟩
      · rintro ⟨h, reg, hmem, rfl⟩
        obtain ⟨e, he, -, hturns, -⟩ := hshape h reg hmem
        exact ⟨e, he, identity?_congr hturns⟩
    simpa [RegisterTable.size] using hperm.length_eq
  · rw [hentries]
    exact hregs
  · intro earlier h e _ hlast
    rw [lookups_append] at hlast ⊢
    simp only [lookups] at hlast ⊢
    split at hlast
    · simp at hlast
    · rfl

def collidingLinks : Array Link :=
  let t : Ty := .array (.struct "S" [("x", .scalar .float), ("y", .vec4)]) 3
  let v : Variable := ⟨0, 7, "a", t, .local, none⟩
  let w : Variable := ⟨1, 7, "b", t, .local, none⟩
  let s : Ty := .struct "S" [("x", .scalar .float), ("y", .vec4)]
  -- the numbers of the variables are equal, so all their chains collide
  #[varLink v, ⟨.array (.value ⟨0, 0, 1, 32⟩), some 0, s, .local⟩,
    ⟨.struct 0, some 1, .scalar .float, .local⟩, ⟨.array (.value ⟨1, 1, 1, 32⟩), some 0, s, .local⟩,
    ⟨.struct 0, some 3, .scalar .float, .local⟩, ⟨.struct 1, some 3, .vec4, .local⟩,
    varLink w, ⟨.array (.value ⟨0, 0, 1, 32⟩), some 6, s, .local⟩,
    ⟨.struct 0, some 7, .scalar .float, .local⟩, castLink (some 8) .vec4 .local]

theorem collidingLinks_built : Built collidingLinks := by
  have h0 := Built.empty.var
    ⟨0, 7, "a", .array (.struct "S" [("x", .scalar .float), ("y", .vec4)]) 3, .local, none⟩
  have h1 := @Built.array _ (some 0) (.value ⟨0, 0, 1, 32⟩) _ h0 rfl
  have h2 := @Built.struct _ (some 1) 0 _ h1 rfl
  have h3 := @Built.array _ (some 0) (.value ⟨1, 1, 1, 32⟩) _ h2 rfl
  have h4 := @Built.struct _ (some 3) 0 _ h3 rfl
  have h5 := @Built.struct _ (some 3) 1 _ h4 rfl
  have h6 := h5.var ⟨1, 7, "b", .array (.struct "S" [("x", .scalar .float), ("y", .vec4)]) 3,
    .local, none⟩
  have h7 := @Built.array _ (some 6) (.value ⟨0, 0, 1, 32⟩) _ h6 rfl
  have h8 := @Built.struct _ (some 7) 0 _ h7 rfl
  exact h8.cast (some 8) .vec4 .local (by simp)

/-- The fields at two indices share a register, the field of the other variable has one of its own
though its hash is the same, and the whole array and the cast are refused. -/
theorem colliding_lookups :
    let b : Body := { links := collidingLinks }
    let hs : List Handle := [some 2, some 4, some 5, some 8, some 0, some 9]
    Built b.links ∧
    hashChain (chain b.links (some 2)) = hashChain (chain b.links (some 8)) ∧
    (lookups .empty b hs).1.map (fun a => a.2.toOption.map (·.serial)) =
      [some 0, some 0, some 1, some 2, none, none] ∧
    (lookups .empty b hs).2.1.size =
      (foundIdentities b.links (lookups .empty b hs).1).dedup.length := by
  intro b hs
  refine ⟨collidingLinks_built, by decide +kernel, by decide +kernel, ?_⟩
  exact (lookups_one_register_per_identity b collidingLinks_built hs).2.2.2.1

end RegisterTable

end ShaderIR
