import ShaderIR.Description.Loader
import ShaderIR.Proofs.Assembly

/-!
# Loading instructions

While the instructions of a block are read, the body stays assembled and every name stands for a
value that is defined. What the loader puts in front of an instruction, constants for the integers
among its operands and the links of its chains, keeps this too, so each part of an instruction finds
the body as the next part needs it.
-/

set_option autoImplicit false

namespace ShaderIR.Loading

def Scope.variables (s : Scope) : List Variable := s.locals.map Prod.snd ++ s.globals.map Prod.snd

theorem Scope.mem_variables {s : Scope} {name : String} {v : Variable}
    (h : s.variable? name = some v) : v ∈ s.variables := by
  rcases Option.or_eq_some_iff.mp h with h | ⟨-, h⟩
  · exact List.mem_append_left _ (List.mem_map_of_mem (mem_of_lookup h))
  · exact List.mem_append_right _ (List.mem_map_of_mem (mem_of_lookup h))

structure Filling (base : Store) (vars : List Variable) (k : BlockId) (s : Building) : Prop where
  body : Assembled base vars s.body
  opened : s.body.Open k
  values : ∀ x ∈ s.values, s.body.Defines base.instrs.size s.body.instrs.size x.2

structure Advances (base : Store) (vars : List Variable) (k : BlockId) (s s' : Building) : Prop
    extends Filling base vars k s' where
  grows : Grows s.body s'.body
  blocks : ∀ j, j ≠ k → s'.body.blocks[j]? = s.body.blocks[j]?

section

variable {base : Store} {vars : List Variable} {k : BlockId} {s s' s'' : Building}

theorem Advances.refl (h : Filling base vars k s) : Advances base vars k s s :=
  ⟨h, .refl s.body, fun _ _ => rfl⟩

theorem Advances.trans (h : Advances base vars k s s') (h' : Advances base vars k s' s'') :
    Advances base vars k s s'' :=
  ⟨h'.toFilling, h.grows.trans h'.grows, fun j hj => (h'.blocks j hj).trans (h.blocks j hj)⟩

theorem Filling.addLink {l : Link} (hs : Filling base vars k s)
    (hbuilt : Built (s.body.links.push l)) (hcast : l.kind ≠ .cast)
    (hroot : ∀ v, l.kind = .var v → v ∈ vars)
    (hindex : ∀ o, l.kind = .array o →
      s.body.Ready base.instrs.size s.body.instrs.size o) :
    Advances base vars k s { s with body := s.body.addLink l } := by
  have hg := Grows.addLink s.body l
  refine ⟨⟨hs.body.addLink hbuilt hcast hroot hindex, ?_, ?_⟩, hg, fun _ _ => rfl⟩
  · exact ⟨hs.opened.sorted, hs.opened.mem, hs.opened.lt_size, hs.opened.behind⟩
  · intro x hx
    exact (hs.values x hx).grows hg (Nat.le_refl _)

theorem Filling.put {c : Body} {op : Op} (hs : Filling base vars k s) (hc : Prepared s.body op c)
    (hop : op.Grounded s.body base.instrs.size s.body.instrs.size) :
    Advances base vars k s { s with body := c.putAt k none op } ∧
      ∀ v, op.result? = some v →
        (c.putAt k none op).Defines base.instrs.size (c.putAt k none op).instrs.size v := by
  have hg := hc.grows k
  have hsize : (c.putAt k none op).instrs.size = s.body.instrs.size + 1 := by simp [hc.instrs]
  refine ⟨⟨⟨hs.body.put hs.opened hc hop, hc.opened hs.opened, ?_⟩, hg, fun j => hc.blocks⟩, ?_⟩
  · intro x hx
    exact (hs.values x hx).grows hg hg.instrs_le
  · intro v hv
    refine ⟨s.body.instrs.size, hs.body.first_le, by omega, ?_⟩
    rw [Body.defined?, hc.op?_last]
    exact hv

theorem Filling.grounded {op : Op} (hs : Filling base vars k s)
    (hsrcs : ∀ o ∈ op.srcs, s.body.Ready base.instrs.size s.body.instrs.size o)
    (hslot : op.slotDest? = none) (hderefs : ∀ h ∈ op.derefs, ∃ n < s.body.links.size, h = some n)
    (hload : ∀ h dest n, op = .load h dest n → Loads (derefType s.body.links h) dest n) :
    op.Grounded s.body base.instrs.size s.body.instrs.size :=
  ⟨hsrcs, hslot, hderefs, fun _ _ l hl => hs.body.indices l (mem_of_mem_chain hl), hload⟩

theorem Filling.const (hs : Filling base vars k s) (values : List UInt64) (bits : Int) :
    Advances base vars k s { s with body := ((Cursor.atEnd k).const values bits s.body).2 } ∧
      let b := ((Cursor.atEnd k).const values bits s.body).2
      b.Defines base.instrs.size b.instrs.size ((Cursor.atEnd k).const values bits s.body).1 := by
  have hc : Prepared s.body (.const (s.body.fresh values.length bits) values) s.body.addValue :=
    .define values.length bits rfl
  obtain ⟨hadv, hdef⟩ := hs.put hc
    (hs.grounded (by simp [Op.srcs]) rfl (by simp [Op.derefs]) (by simp))
  exact ⟨hadv, hdef _ rfl⟩

theorem define_cases {name : String} {v : Value} (h : define name v s = .ok ((), s')) :
    s'.body = s.body ∧ ∀ x ∈ s'.values, x ∈ s.values ∨ x.2 = v := by
  unfold define at h
  split at h
  · cases h
    exact ⟨rfl, fun x hx => .inl hx⟩
  · obtain ⟨s₁, s₂, hget, h⟩ := stateT_ok h
    cases hget
    split at h
    · cases h
    · cases h
      refine ⟨rfl, fun x hx => ?_⟩
      rcases List.mem_cons.mp hx with rfl | hx
      · exact .inr rfl
      · exact .inl hx

theorem Filling.name {v : Value} (hs : Filling base vars k s)
    (hv : s.body.Defines base.instrs.size s.body.instrs.size v) (hb : s'.body = s.body)
    (hvalues : ∀ x ∈ s'.values, x ∈ s.values ∨ x.2 = v) : Advances base vars k s s' := by
  refine ⟨⟨hb ▸ hs.body, hb ▸ hs.opened, ?_⟩, hb ▸ .refl s.body, fun _ _ => by rw [hb]⟩
  intro x hx
  rw [hb]
  rcases hvalues x hx with hx | rfl
  · exact hs.values x hx
  · exact hv

theorem define_ok {name : String} {v : Value} (hs : Filling base vars k s)
    (hv : s.body.Defines base.instrs.size s.body.instrs.size v)
    (h : define name v s = .ok ((), s')) : Advances base vars k s s' := by
  obtain ⟨hb, hvalues⟩ := define_cases h
  exact hs.name hv hb hvalues

theorem operand_ok {name : String} {v : Value} (hs : Filling base vars k s)
    (h : operand (.atEnd k) name s = .ok (v, s')) :
    Advances base vars k s s' ∧ s'.body.Defines base.instrs.size s'.body.instrs.size v := by
  unfold operand at h
  split at h
  · rename_i w hw
    cases h
    exact ⟨.refl hs, hs.values _ (mem_of_lookup hw)⟩
  · split at h
    · rename_i n hn
      cases h
      exact hs.const [Cursor.word n] 32
    · cases h

theorem value_ok {name : String} {v : Value} (hs : Filling base vars k s)
    (h : value (.atEnd k) name s = .ok (v, s')) :
    Advances base vars k s s' ∧ s'.body.Defines base.instrs.size s'.body.instrs.size v :=
  operand_ok hs (mapError_eq_ok_iff.mp h)

theorem values_ok {names : List String} {vs : List Value} (hs : Filling base vars k s)
    (h : names.mapM (value (.atEnd k)) s = .ok (vs, s')) :
    Advances base vars k s s' ∧
      ∀ o ∈ vs.map Operand.value, s'.body.Ready base.instrs.size s'.body.instrs.size o := by
  induction names generalizing s vs with
  | nil =>
    cases h
    exact ⟨.refl hs, by simp⟩
  | cons name names ih =>
    rw [List.mapM_cons] at h
    obtain ⟨v, s₁, hv, h⟩ := stateT_ok h
    obtain ⟨ws, s₂, hws, h⟩ := stateT_ok h
    cases h
    obtain ⟨hadv, hdef⟩ := value_ok hs hv
    obtain ⟨hadv', hready⟩ := ih hadv.toFilling hws
    refine ⟨hadv.trans hadv', ?_⟩
    intro o ho
    rcases List.mem_cons.mp ho with rfl | ho
    · exact ⟨v, rfl, hdef.grows hadv'.grows hadv'.grows.instrs_le⟩
    · exact hready o ho

theorem extend_ok {e : ExceptT LinkError Edit Handle} {x : Handle}
    (h : extend e s = .ok (x, s')) : ∃ b, e s.body = (.ok x, b) ∧ s' = { s with body := b } := by
  unfold extend at h
  split at h
  · rename_i y b hrun
    cases h
    exact ⟨b, hrun, rfl⟩
  · cases h

theorem pathLink_ok {x y : Handle} {l : PathLink} (hs : Filling base vars k s)
    (h : pathLink (.atEnd k) x l s = .ok (y, s')) :
    Advances base vars k s s' ∧ ∃ n < s'.body.links.size, y = some n := by
  cases l with
  | index text =>
    obtain ⟨v, s₁, hv, h⟩ := stateT_ok h
    obtain ⟨hadv, hdef⟩ := operand_ok hs (mapError_eq_ok_iff.mp hv)
    obtain ⟨b, hrun, rfl⟩ := extend_ok h
    obtain ⟨link, hlink, rfl, rfl⟩ := arrayDeref_ok hrun
    obtain ⟨n, up, -, -, -, hkind⟩ := arrayLink_ok hlink
    have hadd := hadv.toFilling.addLink (hadv.body.built.array hlink) (by simp [hkind])
      (by simp [hkind]) (fun o ho => ⟨v, by simpa [hkind] using ho.symm, hdef⟩)
    exact ⟨hadv.trans hadd, s₁.body.links.size, by simp [Body.addLink], rfl⟩
  | field name =>
    obtain ⟨s₁, s₂, hget, h⟩ := stateT_ok h
    cases hget
    cases hfield : (derefType s.body.links x).fieldIndex name with
    | none =>
      simp only [hfield] at h
      cases h
    | some i =>
      simp only [hfield] at h
      obtain ⟨b, hrun, rfl⟩ := extend_ok h
      obtain ⟨link, hlink, rfl, rfl⟩ := structDeref_ok hrun
      obtain ⟨n, up, -, -, -, hkind⟩ := structLink_ok hlink
      have hadd := hs.addLink (hs.body.built.struct hlink) (by simp [hkind]) (by simp [hkind])
        (by simp [hkind])
      exact ⟨hadd, s.body.links.size, by simp [Body.addLink], rfl⟩

theorem pathLinks_ok {x y : Handle} {ls : List PathLink} (hs : Filling base vars k s)
    (hx : ∃ n < s.body.links.size, x = some n) (h : pathLinks (.atEnd k) x ls s = .ok (y, s')) :
    Advances base vars k s s' ∧ ∃ n < s'.body.links.size, y = some n := by
  induction ls generalizing s x with
  | nil =>
    cases h
    exact ⟨.refl hs, hx⟩
  | cons l ls ih =>
    obtain ⟨z, s₁, hz, h⟩ := stateT_ok h
    obtain ⟨hadv, hn⟩ := pathLink_ok hs hz
    obtain ⟨hadv', hn'⟩ := ih hadv.toFilling hn h
    exact ⟨hadv.trans hadv', hn'⟩

theorem derefPath_ok {scope : Scope} {p : Path} {x : Handle}
    (hs : Filling base scope.variables k s)
    (h : derefPath scope (.atEnd k) p s = .ok (x, s')) :
    Advances base scope.variables k s s' ∧ ∃ n < s'.body.links.size, x = some n := by
  unfold derefPath at h
  split at h
  · cases h
  · split at h
    · cases h
    · rename_i v hv
      obtain ⟨y, s₁, hy, h⟩ := stateT_ok h
      cases hy
      have hadd := hs.addLink (hs.body.built.var v) (by simp [varLink])
        (fun w hw => by
          obtain rfl : v = w := by simpa [varLink] using hw
          exact Scope.mem_variables hv)
        (by simp [varLink])
      obtain ⟨z, s₂, hz, h⟩ := stateT_ok h
      obtain ⟨hadv, hn⟩ := pathLinks_ok hadd.toFilling
        ⟨s.body.links.size, by simp [Body.addLink], rfl⟩ hz
      cases hfault : p.fault with
      | some e =>
        simp only [hfault] at h
        cases h
      | none =>
        simp only [hfault] at h
        cases h
        exact ⟨hadd.trans hadv, hn⟩

theorem deref_ok {scope : Scope} {text : String} {x : Handle}
    (hs : Filling base scope.variables k s) (h : deref scope (.atEnd k) text s = .ok (x, s')) :
    Advances base scope.variables k s s' ∧ ∃ n < s'.body.links.size, x = some n :=
  derefPath_ok hs (mapError_eq_ok_iff.mp h)

/-- An instruction that defines a value, which gets a name afterwards. -/
theorem define_put_ok {name : String} {c : Body} {op : Op} {v : Value}
    (hs : Filling base vars k s) (hc : Prepared s.body op c) (hv : op.result? = some v)
    (hop : op.Grounded s.body base.instrs.size s.body.instrs.size)
    (h : define name v { s with body := c.putAt k none op } = .ok ((), s')) :
    Advances base vars k s s' := by
  obtain ⟨hadv, hdef⟩ := hs.put hc hop
  exact hadv.trans (define_ok hadv.toFilling (hdef v hv) h)

theorem load_ok {name : String} {x : Handle} (hs : Filling base vars k s)
    (hx : ∃ n < s.body.links.size, x = some n)
    (hleaf : (derefType s.body.links x).isVectorOrScalar = true)
    (h : (do define name (← edit ((Cursor.atEnd k).load x (derefType s.body.links x).components
      (derefType s.body.links x).bits)) : Build Unit) s = .ok ((), s')) :
    Advances base vars k s s' := by
  generalize ht : derefType s.body.links x = t at h hleaf
  obtain ⟨v, s₁, hv, h⟩ := stateT_ok h
  cases hv
  have hc : Prepared s.body (.load x (.value (s.body.fresh t.components t.bits)) t.components)
      s.body.addValue := .define t.components t.bits rfl
  refine define_put_ok hs hc rfl ?_ h
  apply hs.grounded (by simp [Op.srcs]) rfl (by simpa [Op.derefs] using hx)
  intro y dest n heq
  cases heq
  rw [ht]
  exact ⟨hleaf, rfl, _, rfl, rfl, rfl⟩

theorem alu_ok {name : String} {names : List String} {op : AluOp} (hs : Filling base vars k s)
    (h : (do
      let srcs ← names.mapM (value (.atEnd k))
      define name (← edit ((Cursor.atEnd k).alu op (srcs.map .value))) : Build Unit) s =
        .ok ((), s')) : Advances base vars k s s' := by
  obtain ⟨vs, s₁, hvs, h⟩ := stateT_ok h
  obtain ⟨hadv, hready⟩ := values_ok hs hvs
  obtain ⟨v, s₂, hv, h⟩ := stateT_ok h
  cases hv
  refine hadv.trans (define_put_ok hadv.toFilling (.define _ _ rfl) rfl ?_ h)
  exact hadv.toFilling.grounded hready rfl (by simp [Op.derefs]) (by simp)

theorem store_ok {x : Handle} {v : Value} {mask : UInt8} (hs : Filling base vars k s)
    (hx : ∃ n < s.body.links.size, x = some n)
    (hv : s.body.Defines base.instrs.size s.body.instrs.size v) :
    Advances base vars k s
      { s with body := ((Cursor.atEnd k).store x (.value v) mask s.body).2 } := by
  have hc : Prepared s.body (.store x (.value v) mask) s.body := .effect rfl
  refine (hs.put hc (hs.grounded ?_ rfl (by simpa [Op.derefs] using hx) (by simp))).1
  intro o ho
  exact ⟨v, by simpa [Op.srcs] using ho, hv⟩

theorem copy_ok {x y : Handle} (hs : Filling base vars k s)
    (hx : ∃ n < s.body.links.size, x = some n) (hy : ∃ n < s.body.links.size, y = some n) :
    Advances base vars k s { s with body := s.body.putAt k none (.copy x y) } := by
  have hc : Prepared s.body (.copy x y) s.body := .effect rfl
  refine (hs.put hc (hs.grounded (by simp [Op.srcs]) rfl ?_ (by simp))).1
  intro z hz
  rcases List.mem_cons.mp hz with rfl | hz
  · exact hx
  · rw [List.mem_singleton.mp hz]
    exact hy

theorem intrinsic_ok {name result : String} {names : List String} {n w : Int}
    (hs : Filling base vars k s)
    (h : (do
      let srcs ← names.mapM (value (.atEnd k))
      let dest ←
        if result = "" then pure none
        else do
          let v ← edit (Body.newValue n w)
          define result v
          pure (some (Dest.value v))
      let _ ← edit ((Cursor.atEnd k).insert (.intrinsic name (srcs.map .value) dest)) :
        Build Unit) s = .ok ((), s')) : Advances base vars k s s' := by
  obtain ⟨vs, s₁, hvs, h⟩ := stateT_ok h
  obtain ⟨hadv, hready⟩ := values_ok hs hvs
  have hground : ∀ dest : Option Dest, dest.bind Dest.slot? = none →
      (Op.intrinsic name (vs.map .value) dest).Grounded s₁.body base.instrs.size
        s₁.body.instrs.size :=
    fun dest hdest => hadv.toFilling.grounded hready hdest (by simp [Op.derefs]) (by simp)
  by_cases hresult : result = ""
  · simp only [if_pos hresult] at h
    cases h
    exact hadv.trans (hadv.toFilling.put (.effect rfl) (hground none rfl)).1
  · simp only [if_neg hresult] at h
    obtain ⟨v, s₂, hv, h⟩ := stateT_ok h
    cases hv
    obtain ⟨u, s₃, hu, h⟩ := stateT_ok h
    -- the name is given before the instruction is placed
    obtain ⟨hb, hvalues⟩ := define_cases hu
    cases h
    obtain ⟨hput, hdef⟩ := hadv.toFilling.put
      (.define n w rfl) (hground (some (.value (s₁.body.fresh n w))) rfl)
    refine (hadv.trans hput).trans (hput.toFilling.name (hdef _ rfl) ?_ hvalues)
    simp only [hb]
    rfl

end

section

variable {base : Store} {scope : Scope} {k : BlockId} {s s' : Building}

/-- An instruction of any kind keeps the function assembled. -/
theorem instr_ok {d : InstrDecl} (hs : Filling base scope.variables k s)
    (h : instr scope (.atEnd k) d s = .ok ((), s')) : Advances base scope.variables k s s' := by
  generalize hm : instr scope (.atEnd k) d = m at h
  unfold instr at hm
  dsimp only at hm
  split at hm
  · -- const
    split at hm
    · subst hm
      cases h
    · subst hm
      obtain ⟨v, s₁, hv, h⟩ := stateT_ok h
      cases hv
      obtain ⟨hadv, hdef⟩ := hs.const d.values (if d.bits = 0 then 32 else d.bits)
      exact hadv.trans (define_ok hadv.toFilling hdef h)
  · -- load
    subst hm
    obtain ⟨x, s₁, hx, h⟩ := stateT_ok h
    obtain ⟨hadv, hn⟩ := deref_ok hs hx
    obtain ⟨s₂, s₃, hget, h⟩ := stateT_ok h
    cases hget
    by_cases hleaf : (derefType s₁.body.links x).isVectorOrScalar = true
    · simp only [hleaf] at h
      exact hadv.trans (load_ok hadv.toFilling hn hleaf h)
    · simp only [hleaf] at h
      cases h
  · -- store
    subst hm
    obtain ⟨x, s₁, hx, h⟩ := stateT_ok h
    obtain ⟨hadv, n, hn, rfl⟩ := deref_ok hs hx
    obtain ⟨v, s₂, hv, h⟩ := stateT_ok h
    obtain ⟨hadv', hdef⟩ := value_ok hadv.toFilling hv
    cases h
    have hn' : n < s₂.body.links.size := Nat.lt_of_lt_of_le hn hadv'.grows.links_le
    exact (hadv.trans hadv').trans (store_ok hadv'.toFilling ⟨n, hn', rfl⟩ hdef)
  · -- copy
    subst hm
    obtain ⟨x, s₁, hx, h⟩ := stateT_ok h
    obtain ⟨hadv, n, hn, rfl⟩ := deref_ok hs hx
    obtain ⟨y, s₂, hy, h⟩ := stateT_ok h
    obtain ⟨hadv', hm⟩ := deref_ok hadv.toFilling hy
    cases h
    have hn' : n < s₂.body.links.size := Nat.lt_of_lt_of_le hn hadv'.grows.links_le
    exact (hadv.trans hadv').trans (copy_ok hadv'.toFilling ⟨n, hn', rfl⟩ hm)
  · -- alu
    split at hm
    · subst hm
      cases h
    · split at hm
      · subst hm
        cases h
      · subst hm
        exact alu_ok hs h
  · -- intrinsic
    split at hm
    · subst hm
      cases h
    · subst hm
      exact intrinsic_ok hs h
  · subst hm
    cases h

theorem instrs_ok {block : String} {position : Nat} {ds : List InstrDecl}
    (hs : Filling base scope.variables k s)
    (h : instrs scope (.atEnd k) block position ds s = .ok ((), s')) :
    Advances base scope.variables k s s' := by
  induction ds generalizing s position with
  | nil =>
    cases h
    exact .refl hs
  | cons d ds ih =>
    obtain ⟨u, s₁, hd, h⟩ := stateT_ok h
    have hadv := instr_ok hs (mapError_eq_ok_iff.mp hd)
    exact hadv.trans (ih hadv.toFilling h)

end

end ShaderIR.Loading
