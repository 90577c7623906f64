import Mathlib.Data.List.Shortlex
import ShaderIR.Proofs.PassFaults

/-!
# Leaves of a copy

The parts of an array are its elements, those of a struct its fields, and a path of part numbers
leads to a leaf if a vector or scalar stands at its end. Splitting a copy makes one load and one
store for each leaf of the copied type. They come level by level: shorter paths first, paths of one
length by the first number that differs. Both reach the leaf by the same links. A copy whose two
types differ is refused before anything is done, and the pass ends there.
-/

set_option autoImplicit false

namespace ShaderIR

open CopySplitting

namespace Ty

def child? : Ty → Nat → Option Ty
  | array t n, i => if (i : Int) < n then some t else none
  | struct _ fs, i => fs[i]?.map Prod.snd
  | _, _ => none

def atPath? (t : Ty) (path : List Nat) : Option Ty := path.foldlM child? t

def leafAt? (t : Ty) (path : List Nat) : Option Ty :=
  (t.atPath? path).filter (·.isVectorOrScalar)

def arity : Ty → Nat
  | array _ n => n.toNat
  | struct _ fs => fs.length
  | _ => 0

theorem lt_arity_of_child? {t u : Ty} {i : Nat} (h : t.child? i = some u) : i < t.arity := by
  cases t with
  | array t n =>
    have hi : (i : Int) < n ∧ t = u := by simpa [child?] using h
    simp only [arity]
    omega
  | struct name fs =>
    obtain ⟨f, hf, -⟩ := Option.map_eq_some_iff.mp h
    exact (List.getElem?_eq_some_iff.mp hf).1
  | _ => cases h

theorem atPath?_append (t : Ty) (p q : List Nat) :
    t.atPath? (p ++ q) = (t.atPath? p).bind (·.atPath? q) := by
  simp only [atPath?, List.foldlM_append]
  rfl

theorem atPath?_concat {t u : Ty} {p : List Nat} (h : t.atPath? p = some u) (i : Nat) :
    t.atPath? (p ++ [i]) = u.child? i := by
  rw [atPath?_append, h]
  exact bind_pure (u.child? i)

theorem leafAt?_eq_some {t u : Ty} {p : List Nat} :
    t.leafAt? p = some u ↔ t.atPath? p = some u ∧ u.isVectorOrScalar = true := by
  rw [leafAt?, Option.filter_eq_some_iff]

end Ty

def branches (path : List Nat) (n : Nat) : List (List Nat) := (List.range n).map (path ++ [·])

section

variable {t u : Ty} {p o : List Nat}

theorem exists_branch (hu : t.atPath? p = some u) (hinner : u.isVectorOrScalar = false)
    (ho : (t.leafAt? o).isSome) (hp : p <+: o) : ∃ q ∈ branches p u.arity, q <+: o := by
  obtain ⟨leaf, hleaf⟩ := Option.isSome_iff_exists.mp ho
  obtain ⟨hat, hshape⟩ := Ty.leafAt?_eq_some.mp hleaf
  obtain ⟨rest, rfl⟩ := hp
  cases rest with
  | nil =>
    obtain rfl : u = leaf := by simpa [hu] using hat
    simp [hinner] at hshape
  | cons i rest =>
    rw [List.append_cons, Ty.atPath?_append, Ty.atPath?_concat hu] at hat
    obtain ⟨w, hw, -⟩ := Option.bind_eq_some_iff.mp hat
    refine ⟨p ++ [i], List.mem_map_of_mem (List.mem_range.mpr (Ty.lt_arity_of_child? hw)), ?_⟩
    exact ⟨rest, by simp⟩

theorem eq_of_below_leaf (hu : t.leafAt? p = some u) (ho : (t.leafAt? o).isSome) (hp : p <+: o) :
    o = p := by
  obtain ⟨hat, hshape⟩ := Ty.leafAt?_eq_some.mp hu
  obtain ⟨leaf, hleaf⟩ := Option.isSome_iff_exists.mp ho
  obtain ⟨rest, rfl⟩ := hp
  cases rest with
  | nil => exact List.append_nil p
  | cons i rest =>
    have hnone : u.child? i = none := by cases u <;> simp_all [Ty.child?, Ty.isVectorOrScalar]
    have habove := (Ty.leafAt?_eq_some.mp hleaf).1
    rw [List.append_cons, Ty.atPath?_append, Ty.atPath?_concat hat, hnone] at habove
    cases habove

end

abbrev LevelLT (p q : List Nat) : Prop := List.Shortlex (· < ·) p q

theorem LevelLT.concat {p q : List Nat} (h : LevelLT p q) (i j : Nat) :
    LevelLT (p ++ [i]) (q ++ [j]) := by
  rcases List.shortlex_def.mp h with hlen | ⟨hlen, hlex⟩
  · exact .of_length_lt (by simpa using hlen)
  · refine .of_lex (by simpa using hlen) ?_
    clear h
    induction hlex with
    | nil => simp at hlen
    | cons h ih => exact .cons (ih (by simpa using hlen))
    | rel h => exact .rel h

theorem LevelLT.below {p q o : List Nat} (h : LevelLT p q) (ho : q <+: o) : LevelLT p o := by
  obtain ⟨rest, rfl⟩ := ho
  exact h.append_right rest

/-- A queue of places in level order. It spans two levels at most: what lies below its places comes
behind all of them. -/
structure LevelQueue (ps : List (List Nat)) : Prop where
  ordered : ps.Pairwise LevelLT
  spans : ∀ p ∈ ps, ∀ q ∈ ps, ∀ i, LevelLT q (p ++ [i])

namespace LevelQueue

variable {p : List Nat} {ps : List (List Nat)}

theorem root : LevelQueue [[]] := by
  refine ⟨List.pairwise_singleton _ _, ?_⟩
  intro p hp q hq i
  rw [List.mem_singleton.mp hp, List.mem_singleton.mp hq]
  exact .of_length_lt (by simp)

theorem tail (h : LevelQueue (p :: ps)) : LevelQueue ps :=
  ⟨(List.pairwise_cons.mp h.ordered).2, fun q hq r hr => h.spans q (.tail _ hq) r (.tail _ hr)⟩

theorem length_le (h : LevelQueue (p :: ps)) {q : List Nat} (hq : q ∈ p :: ps) :
    q.length ≤ p.length + 1 := by
  rcases List.shortlex_def.mp (h.spans p (.head _) q hq 0) with hlt | ⟨heq, -⟩
  · simpa using hlt.le
  · simpa using heq.le

theorem branch (h : LevelQueue (p :: ps)) (n : Nat) : LevelQueue (ps ++ branches p n) := by
  obtain ⟨hfirst, hordered⟩ := List.pairwise_cons.mp h.ordered
  have hbranches : (branches p n).Pairwise LevelLT := by
    refine List.pairwise_lt_range.map _ fun i j hij => ?_
    exact List.Shortlex.append_left (by simpa using hij) p
  constructor
  · refine List.pairwise_append.mpr ⟨hordered, hbranches, ?_⟩
    intro q hq r hr
    obtain ⟨i, -, rfl⟩ := List.mem_map.mp hr
    exact h.spans p (.head _) q (.tail _ hq) i
  · intro q hq r hr j
    rcases List.mem_append.mp hq with hq | hq
    · rcases List.mem_append.mp hr with hr | hr
      · exact h.spans q (.tail _ hq) r (.tail _ hr) j
      · -- what lies below the first place comes before what lies below the others
        obtain ⟨i, -, rfl⟩ := List.mem_map.mp hr
        exact (hfirst q hq).concat i j
    · obtain ⟨i, -, rfl⟩ := List.mem_map.mp hq
      apply List.Shortlex.of_length_lt
      have hr : r.length ≤ p.length + 1 := by
        rcases List.mem_append.mp hr with hr | hr
        · exact h.length_le (.tail _ hr)
        · obtain ⟨i', -, rfl⟩ := List.mem_map.mp hr
          simp
      simp only [List.length_append, List.length_singleton]
      omega

end LevelQueue

inductive Descent where
  | element (index : Value)
  | field (f : Nat)

def Descent.Takes (code : List Action) (i : Nat) : Descent → Prop
  | element v => v.bits = 32 ∧ .const v [Cursor.word i] ∈ code
  | field f => f = i

namespace Transfer

def descend (t : Transfer) : Descent → Transfer
  | .element v => t.element v
  | .field f => t.field f

def follow (t : Transfer) (steps : List Descent) : Transfer := steps.foldl descend t

end Transfer

structure PartTransfer (code : List Action) (copy : Transfer) (path : List Nat) (t : Transfer) :
    Prop where
  steps : ∃ steps, List.Forall₂ (Descent.Takes code) path steps ∧ t = copy.follow steps
  type : copy.type.atPath? path = some t.type
  even : t.Even

section

variable {code : List Action} {copy t : Transfer} {path : List Nat}

theorem PartTransfer.descend (h : PartTransfer code copy path t) {i : Nat} {d : Descent}
    (hd : d.Takes code i) (hchild : t.type.child? i = some (t.descend d).type)
    (he : (t.descend d).Even) : PartTransfer code copy (path ++ [i]) (t.descend d) := by
  obtain ⟨steps, hsteps, rfl⟩ := h.steps
  refine ⟨⟨steps ++ [d], List.rel_append hsteps (.cons hd .nil), ?_⟩, ?_, he⟩
  · simp [Transfer.follow]
  · rw [Ty.atPath?_concat h.type, hchild]

theorem PartTransfer.elements (h : PartTransfer code copy path t) {elem : Ty} {n : Int}
    {vs : List Value} (ht : t.type = .array elem n) (hv : vs.length = n.toNat)
    (hb : ∀ v ∈ vs, v.bits = 32) (hcode : ∀ a ∈ indexCode vs, a ∈ code) :
    List.Forall₂ (PartTransfer code copy) (branches path n.toNat) (vs.map t.element) := by
  have hpaths : branches path n.toNat = vs.zipIdx.map fun x => path ++ [x.2] := by
    rw [branches, ← hv, List.range_eq_range', ← List.zipIdx_map_snd, List.map_map]
    rfl
  have hparts : vs.map t.element = vs.zipIdx.map fun x => t.element x.1 := by
    have hmap := List.map_map (f := Prod.fst) (g := t.element) (l := vs.zipIdx)
    rwa [List.zipIdx_map_fst] at hmap
  rw [hpaths, hparts, List.forall₂_map_left_iff, List.forall₂_map_right_iff, List.forall₂_same]
  rintro ⟨v, i⟩ hmem
  have hi : i < n.toNat := by
    have := List.snd_lt_of_mem_zipIdx hmem
    omega
  have htakes : (Descent.element v).Takes code i :=
    ⟨hb v (List.fst_mem_of_mem_zipIdx hmem), hcode _ (List.mem_map_of_mem hmem)⟩
  refine h.descend htakes ?_ (h.even.element ht v)
  have htype : (t.element v).type = t.type.elementType := rfl
  show t.type.child? i = some (t.element v).type
  rw [htype, ht, Ty.child?, if_pos (by omega)]
  rfl

theorem PartTransfer.fields (h : PartTransfer code copy path t) {name : String}
    {fields : List (String × Ty)} (ht : t.type = .struct name fields) :
    List.Forall₂ (PartTransfer code copy) (branches path fields.length)
      ((List.range fields.length).map t.field) := by
  rw [branches, List.forall₂_map_left_iff, List.forall₂_map_right_iff, List.forall₂_same]
  intro f hf
  rw [List.mem_range] at hf
  have htakes : (Descent.field f).Takes code f := rfl
  refine h.descend htakes ?_ (h.even.field ht hf)
  have htype : (t.field f).type = t.type.fieldType f := rfl
  show t.type.child? f = some (t.field f).type
  rw [htype, ht]
  simp only [Ty.child?, Ty.fieldType, List.getElem?_eq_getElem hf]
  rfl

end

def Action.isConst : Action → Bool
  | const _ _ => true
  | _ => false

inductive CopiesLeaf (code : List Action) (copy : Transfer) (path : List Nat) :
    Action × Action → Prop
  | intro {leaf : Ty} {steps : List Descent} {v : Value}
      (hleaf : copy.type.leafAt? path = some leaf)
      (hsteps : List.Forall₂ (Descent.Takes code) path steps)
      (hdst : hopsType (copy.follow steps).dst = leaf)
      (hsrc : hopsType (copy.follow steps).src = leaf)
      (hn : v.components = leaf.components) (hb : v.bits = leaf.bits) :
      CopiesLeaf code copy path
        (.load (copy.follow steps).src (.value v) leaf.components,
          .store (copy.follow steps).dst (.value v) (fullMask leaf.components))

/-- The code makes a copy leaf by leaf. Besides the loads and stores it holds the indices of array
elements only. -/
structure LeafByLeaf (copy : Transfer) (code : List Action) (paths : List (List Nat))
    (pairs : List (Action × Action)) : Prop where
  ordered : paths.Pairwise LevelLT
  leaves : ∀ path, path ∈ paths ↔ (copy.type.leafAt? path).isSome
  copies : List.Forall₂ (CopiesLeaf code copy) paths pairs
  accesses : code.filter (!·.isConst) = pairs.flatMap fun pair => [pair.1, pair.2]
  indices : ∀ v words, .const v words ∈ code → v.bits = 32 ∧ ∃ i : Nat, words = [Cursor.word i]

theorem Unrolls.index_of_const {ts : List Transfer} {code : List Action} (h : Unrolls ts code)
    {v : Value} {words : List UInt64} (hc : .const v words ∈ code) :
    v.bits = 32 ∧ ∃ i : Nat, words = [Cursor.word i] := by
  induction h with
  | done => cases hc
  | @array t queue elem n vs code ht hv hb h ih =>
    rcases List.mem_append.mp hc with hc | hc
    · obtain ⟨w, hw, i, heq⟩ := mem_indexCode hc
      obtain ⟨rfl, rfl⟩ : v = w ∧ words = [Cursor.word i] := by simpa using heq
      exact ⟨hb v hw, i, rfl⟩
    · exact ih hc
  | struct ht h ih => exact ih hc
  | leaf ht hv hn h ih => exact ih (by simpa using hc)

structure LeavesBelow (all : List Action) (copy : Transfer) (ps : List (List Nat))
    (code : List Action) (paths : List (List Nat)) (pairs : List (Action × Action)) : Prop where
  ordered : paths.Pairwise LevelLT
  leaves : ∀ path, path ∈ paths ↔ (∃ p ∈ ps, p <+: path) ∧ (copy.type.leafAt? path).isSome
  copies : List.Forall₂ (CopiesLeaf all copy) paths pairs
  accesses : code.filter (!·.isConst) = pairs.flatMap fun pair => [pair.1, pair.2]

namespace LeavesBelow

variable {all code : List Action} {copy t : Transfer} {p : List Nat} {ps paths : List (List Nat)}
  {pairs : List (Action × Action)}

theorem indices (h : LeavesBelow all copy ps code paths pairs) (vs : List Value) :
    LeavesBelow all copy ps (indexCode vs ++ code) paths pairs := by
  refine ⟨h.ordered, h.leaves, h.copies, ?_⟩
  have hindices : (indexCode vs).filter (!·.isConst) = [] := by
    apply List.filter_eq_nil_iff.mpr
    intro a ha
    obtain ⟨v, -, i, rfl⟩ := mem_indexCode ha
    simp [Action.isConst]
  rw [List.filter_append, hindices, List.nil_append, h.accesses]

theorem branch {u : Ty} (hu : copy.type.atPath? p = some u) (hinner : u.isVectorOrScalar = false)
    (h : LeavesBelow all copy (ps ++ branches p u.arity) code paths pairs) :
    LeavesBelow all copy (p :: ps) code paths pairs := by
  refine ⟨h.ordered, fun path => ?_, h.copies, h.accesses⟩
  rw [h.leaves]
  refine and_congr_left fun hleaf => ⟨?_, ?_⟩
  · rintro ⟨q, hq, hbelow⟩
    rcases List.mem_append.mp hq with hq | hq
    · exact ⟨q, .tail _ hq, hbelow⟩
    · obtain ⟨i, -, rfl⟩ := List.mem_map.mp hq
      exact ⟨p, .head _, (List.prefix_append p [i]).trans hbelow⟩
  · rintro ⟨q, hq, hbelow⟩
    rcases List.mem_cons.mp hq with rfl | hq
    · obtain ⟨r, hr, hbelow⟩ := exists_branch hu hinner hleaf hbelow
      exact ⟨r, List.mem_append_right _ hr, hbelow⟩
    · exact ⟨q, List.mem_append_left _ hq, hbelow⟩

/-- A leaf at the front of the queue comes before all others. -/
theorem leaf (hq : LevelQueue (p :: ps)) (hp : PartTransfer all copy p t) {v : Value}
    (ht : t.type.isVectorOrScalar = true) (hn : v.components = t.type.components)
    (hb : v.bits = t.type.bits) (h : LeavesBelow all copy ps code paths pairs) :
    LeavesBelow all copy (p :: ps) (.load t.src (.value v) t.type.components ::
        .store t.dst (.value v) (fullMask t.type.components) :: code) (p :: paths)
      ((.load t.src (.value v) t.type.components,
        .store t.dst (.value v) (fullMask t.type.components)) :: pairs) := by
  have hleaf : copy.type.leafAt? p = some t.type := Ty.leafAt?_eq_some.mpr ⟨hp.type, ht⟩
  obtain ⟨steps, hsteps, rfl⟩ := hp.steps
  refine ⟨.cons ?_ h.ordered, fun path => ?_,
    .cons (.intro hleaf hsteps rfl hp.even.same hn hb) h.copies, ?_⟩
  · -- the others lie below places that stand behind this one in the queue
    intro path hpath
    obtain ⟨⟨q, hmem, hbelow⟩, -⟩ := (h.leaves path).mp hpath
    exact ((List.pairwise_cons.mp hq.ordered).1 q hmem).below hbelow
  · rw [List.mem_cons, h.leaves]
    constructor
    · rintro (rfl | ⟨⟨q, hmem, hbelow⟩, hsome⟩)
      · exact ⟨⟨path, .head _, List.prefix_refl _⟩, by rw [hleaf]; rfl⟩
      · exact ⟨⟨q, .tail _ hmem, hbelow⟩, hsome⟩
    · rintro ⟨⟨q, hmem, hbelow⟩, hsome⟩
      rcases List.mem_cons.mp hmem with rfl | hmem
      · exact .inl (eq_of_below_leaf hleaf hsome hbelow)
      · exact .inr ⟨⟨q, hmem, hbelow⟩, hsome⟩
  · rw [List.flatMap_cons, ← h.accesses]
    rfl

end LeavesBelow

/-- Code that works off a queue in level order copies the leaves below the queue in level order. -/
theorem Unrolls.leavesBelow {all : List Action} {copy : Transfer} {ts : List Transfer}
    {code : List Action} (h : Unrolls ts code) (hall : ∀ a ∈ code, a ∈ all)
    {ps : List (List Nat)} (hq : LevelQueue ps) (hps : List.Forall₂ (PartTransfer all copy) ps ts) :
    ∃ paths pairs, LeavesBelow all copy ps code paths pairs := by
  induction h generalizing ps with
  | done =>
    cases hps
    exact ⟨[], [], .nil, by simp, .nil, rfl⟩
  | @array t queue elem n vs code ht hv hb h ih =>
    cases hps with
    | @cons p _ ps _ hp hps =>
      have hparts := hp.elements ht hv hb fun a ha => hall a (List.mem_append_left _ ha)
      obtain ⟨paths, pairs, hcode⟩ := ih (fun a ha => hall a (List.mem_append_right _ ha))
        (hq.branch n.toNat) (List.rel_append hps hparts)
      have hbelow := LeavesBelow.branch (u := .array elem n) (ht ▸ hp.type) rfl hcode
      exact ⟨paths, pairs, hbelow.indices vs⟩
  | @struct t queue name fields code ht h ih =>
    cases hps with
    | @cons p _ ps _ hp hps =>
      obtain ⟨paths, pairs, hcode⟩ :=
        ih hall (hq.branch fields.length) (List.rel_append hps (hp.fields ht))
      exact ⟨paths, pairs, .branch (u := .struct name fields) (ht ▸ hp.type) rfl hcode⟩
  | @leaf t queue v code ht hv hn h ih =>
    cases hps with
    | @cons p _ ps _ hp hps =>
      obtain ⟨paths, pairs, hcode⟩ := ih (fun a ha => hall a (.tail _ (.tail _ ha))) hq.tail hps
      exact ⟨p :: paths, _ :: pairs, .leaf hq hp ht hn hv hcode⟩

theorem Unrolls.leafByLeaf {copy : Transfer} {code : List Action} (h : Unrolls [copy] code)
    (he : copy.Even) : ∃ paths pairs, LeafByLeaf copy code paths pairs := by
  obtain ⟨paths, pairs, hcode⟩ :=
    h.leavesBelow (fun _ ha => ha) .root (.cons ⟨⟨[], .nil, rfl⟩, rfl, he⟩ .nil)
  refine ⟨paths, pairs, hcode.ordered, fun path => ?_, hcode.copies, hcode.accesses,
    fun v words => h.index_of_const⟩
  rw [hcode.leaves]
  simp

/-- A copy between places of one type, of which nothing is missing, is made leaf by leaf. -/
theorem split_leafByLeaf {b : Body} {k : BlockId} {mark : InstrId} {dst src : Handle}
    (hm : mark < b.instrs.size) (hr : b.Rooted)
    (hsame : derefType b.links dst = derefType b.links src)
    (hcomplete : (derefType b.links dst).complete = true) :
    ∃ b' ops paths pairs, split ⟨some k, some mark⟩ dst src b = (.ok (), b') ∧
      EmitsLinks k mark ops b b' ∧
      LeafByLeaf ⟨b.hops dst, b.hops src⟩ (ops.map b'.action) paths pairs := by
  obtain ⟨_, b', hrun⟩ := succeeds_split (k := k) hm hr hsame hcomplete
  obtain ⟨ops, hextends, -, hunrolls⟩ := split_emits hm hr (.of_complete hsame hcomplete) hrun
  obtain ⟨paths, pairs, h⟩ := hunrolls.leafByLeaf (.of_complete hsame hcomplete)
  exact ⟨b', ops, paths, pairs, hrun, hextends, h⟩

structure Body.Ahead (b : Body) (met : List InstrId) (c : Body) : Prop where
  layout : c.layout = b.layout
  head : ∀ j, c.head? j = b.head? j
  held : ∃ ids : InstrId → List InstrId, (∀ x, x ∉ met → ids x = [x]) ∧
    ∀ j ∈ b.layout, c.held j = (b.held j).flatMap ids
  kept : ∀ x ∈ b.placedInstrs, x ∉ met → c.action? x = b.action? x

namespace Body.Ahead

variable {b c c' : Body} {met : List InstrId} {id : InstrId}

theorem start (b : Body) : b.Ahead [] b :=
  ⟨rfl, fun _ => rfl, ⟨fun x => [x], fun _ _ => rfl, fun _ _ => (List.flatMap_singleton' _).symm⟩,
    fun _ _ _ => rfl⟩

theorem held_append (h : b.Ahead met c) {k : BlockId} (hk : k ∈ b.layout) {xs ys : List InstrId}
    (heq : b.held k = xs ++ ys) (hys : ∀ y ∈ ys, y ∉ met) :
    ∃ front, c.held k = front ++ ys ∧ (xs = [] → front = []) := by
  obtain ⟨ids, hids, hheld⟩ := h.held
  refine ⟨xs.flatMap ids, ?_, by rintro rfl; rfl⟩
  rw [hheld k hk, heq, List.flatMap_append, List.flatMap_congr fun y hy => hids y (hys y hy),
    List.flatMap_singleton']

theorem mem_placedInstrs (h : b.Ahead met c) {x : InstrId} (hx : x ∈ b.placedInstrs)
    (hmet : x ∉ met) : x ∈ c.placedInstrs := by
  obtain ⟨k, hk, hx⟩ := Body.mem_placedInstrs.mp hx
  obtain ⟨ids, hids, hheld⟩ := h.held
  refine Body.mem_placedInstrs.mpr ⟨k, h.layout ▸ hk, ?_⟩
  rw [hheld k hk]
  exact List.mem_flatMap.mpr ⟨x, hx, by simp [hids x hmet]⟩

theorem skip (h : b.Ahead met c) (id : InstrId) : b.Ahead (met ++ [id]) c := by
  have hmet : ∀ x, x ∉ met ++ [id] → x ∉ met := fun x hx hmet => hx (List.mem_append_left _ hmet)
  obtain ⟨ids, hids, hheld⟩ := h.held
  exact ⟨h.layout, h.head, ⟨ids, fun x hx => hids x (hmet x hx), hheld⟩,
    fun x hx hn => h.kept x hx (hmet x hn)⟩

theorem split (h : b.Ahead met c) {k : BlockId} {dst src : List Hop} {acts : List Action}
    (hs : Splits c c' k id dst src acts) : b.Ahead (met ++ [id]) c' := by
  have hskip := h.skip id
  have hne : ∀ x, x ∉ met ++ [id] → x ≠ id := fun x hx heq => hx (by simp [heq])
  obtain ⟨ids, hids, hheld⟩ := hskip.held
  refine ⟨hs.replaced.layout.trans h.layout, fun j => (hs.replaced.head j).trans (h.head j), ?_, ?_⟩
  · refine ⟨fun x => expandAt id (List.range' c.instrs.size acts.length) (ids x), ?_, ?_⟩
    · intro x hx
      show expandAt id _ (ids x) = [x]
      rw [hids x hx, expandAt_of_not_mem]
      simpa using (hne x hx).symm
    · intro j hj
      rw [hs.replaced.held j (h.layout ▸ hj), hheld j hj, expandAt_flatMap]
  · intro x hx hmet
    rw [hs.action?_kept (hskip.mem_placedInstrs hx hmet) (hne x hmet), hskip.kept x hx hmet]

end Body.Ahead

structure Split.Leaves (s : Split) (b : Body) (k : BlockId) (later : List InstrId)
    (rest : List BlockId) : Prop where
  layout : s.body.layout = b.layout
  block : ∃ front, s.body.held k = front ++ later
  blocks : ∀ j ∈ rest, s.body.held j = b.held j
  actions : ∀ x ∈ later ++ rest.flatMap b.held, s.body.action? x = b.action? x

/-- A list is parted at the same entry if the entry of neither way stands in front of the other. -/
theorem first_eq {α : Type} {xs ys xs' ys' : List α} {x y : α}
    (h : xs ++ x :: ys = xs' ++ y :: ys') (hx : x ∉ xs') (hy : y ∉ xs) : xs = xs' ∧ x = y := by
  rcases List.append_eq_append_iff.mp h with ⟨zs, rfl, hz⟩ | ⟨zs, rfl, hz⟩
  · cases zs with
    | nil => exact ⟨(List.append_nil xs).symm, by simpa using congrArg List.head? hz⟩
    | cons z zs =>
      obtain rfl : x = z := by simpa using congrArg List.head? hz
      exact absurd (by simp) hx
  · cases zs with
    | nil => exact ⟨List.append_nil xs', by simpa using (congrArg List.head? hz).symm⟩
    | cons z zs =>
      obtain rfl : y = z := by simpa using congrArg List.head? hz
      exact absurd (by simp) hy

section

variable {b : Body} {js rest : List BlockId} {k : BlockId} {pre post : List InstrId} {id : InstrId}

theorem placedInstrs_split (hlayout : b.layout.toList = js ++ k :: rest)
    (hheld : b.held k = pre ++ id :: post) :
    b.placedInstrs = (js.flatMap b.held ++ pre) ++ id :: (post ++ rest.flatMap b.held) := by
  rw [Body.placedInstrs_eq, hlayout]
  simp [hheld]

theorem Body.Ahead.leaves {s : Split} (hl : b.Laid)
    (h : b.Ahead (js.flatMap b.held ++ pre) s.body) (hlayout : b.layout.toList = js ++ k :: rest)
    (hheld : b.held k = pre ++ id :: post) : s.Leaves b k (id :: post) rest := by
  have hplaced := placedInstrs_split hlayout hheld
  have hnodup := hl.once
  rw [hplaced] at hnodup
  have hlater : ∀ x ∈ id :: post ++ rest.flatMap b.held, x ∉ js.flatMap b.held ++ pre :=
    fun x hx hmet => (List.nodup_append.mp hnodup).2.2 x hmet x (by simpa using hx) rfl
  have hmem : ∀ j ∈ k :: rest, j ∈ b.layout := fun j hj =>
    Array.mem_toList_iff.mp (hlayout ▸ List.mem_append_right _ hj)
  refine ⟨h.layout, ?_, ?_, ?_⟩
  · obtain ⟨front, hfront, -⟩ := h.held_append (hmem k (.head _)) hheld
      fun x hx => hlater x (List.mem_append_left _ hx)
    exact ⟨front, hfront⟩
  · intro j hj
    obtain ⟨front, hfront, hnil⟩ := h.held_append (hmem j (.tail _ hj)) (List.nil_append _).symm
      fun x hx => hlater x (List.mem_append_right _ (List.mem_flatMap.mpr ⟨j, hj, hx⟩))
    rw [hfront, hnil rfl, List.nil_append]
  · intro x hx
    apply h.kept x _ (hlater x hx)
    rw [hplaced]
    exact List.mem_append_right _ (by simpa using hx)

/-- A pass over a copy between places of different types fails there or before. -/
theorem splitBlocks_fails (hl : b.Laid) (hid : id ∈ b.placedInstrs) {dst src : List Hop}
    (hcopy : b.action? id = some (.copy dst src)) (hne : hopsType dst ≠ hopsType src) :
    ∃ js k rest pre x post, b.layout.toList = js ++ k :: rest ∧ b.held k = pre ++ x :: post ∧
      id ∉ js.flatMap b.held ++ pre ∧ b.splitBlocks.error ≠ none ∧
      ∃ s : Split, b.splitBlocks = Split.instr k s x ∧ s.error = none ∧ s.body.Laid ∧
        k ∈ s.body.layout ∧ x ∈ s.body.held k ∧ b.Ahead (js.flatMap b.held ++ pre) s.body := by
  have hwalk := splitBlocks_rule (fun met s => id ∉ met ∧ b.Ahead met s.body)
    (fun met k x r => id ∉ met ∧ r.error ≠ none ∧ ∃ s : Split, r = Split.instr k s x ∧
      s.error = none ∧ s.body.Laid ∧ k ∈ s.body.layout ∧ x ∈ s.body.held k ∧ b.Ahead met s.body)
    hl ⟨by simp, .start b⟩ ?_ ?_ ?_ ?_
  · rcases hwalk with ⟨-, -, hmet, -⟩ | hfail
    · exact absurd hid hmet
    · exact hfail
  · -- the copy is not passed over
    rintro met x s - ⟨hmet, hahead⟩ - - hnone
    refine ⟨?_, hahead.skip x⟩
    rw [List.mem_append, List.mem_singleton]
    rintro (h | rfl)
    · exact hmet h
    · exact hnone dst src ((hahead.kept id hid hmet).trans hcopy)
  · -- nor is it split
    rintro met s s' k x d c acts - ⟨hmet, hahead⟩ - - - hs
    refine ⟨?_, hahead.split hs⟩
    rw [List.mem_append, List.mem_singleton]
    rintro (h | rfl)
    · exact hmet h
    · have htarget := hs.replaced.target
      rw [hahead.kept id hid hmet, hcopy] at htarget
      obtain ⟨rfl, rfl⟩ : dst = d ∧ src = c := by simpa using htarget
      exact hne hs.same
  · rintro met s k x hl' hnone ⟨hmet, hahead⟩ hk hx herror
    exact ⟨hmet, herror, s, rfl, hnone, hl', hk, hx, hahead⟩
  · exact fun _ _ _ _ h => h.2.1

/-- The pass stops at the first copy that cannot be split. -/
theorem splitCopies_stops (hl : b.Laid) (hlayout : b.layout.toList = js ++ k :: rest)
    (hheld : b.held k = pre ++ id :: post) {dst src : List Hop}
    (hcopy : b.action? id = some (.copy dst src)) (hne : hopsType dst ≠ hopsType src)
    (hbefore : ∀ x ∈ js.flatMap b.held ++ pre, ∀ a ∈ b.action? x, a.Splittable) :
    b.splitCopies.error =
        some ⟨none, b.blockIndex k, .mismatch (hopsType dst) (hopsType src)⟩ ∧
      b.splitCopies.Leaves b k (id :: post) rest := by
  have hplaced := placedInstrs_split hlayout hheld
  obtain ⟨js', j, rest', pre', x, post', hlayout', hheld', hmet, herror, s, heq, hnone, hl', hj, hx,
    hahead⟩ := splitBlocks_fails hl (by simp [hplaced]) hcopy hne
  have hplaced' := placedInstrs_split hlayout' hheld'
  have haction : s.body.action? x = b.action? x := by
    have hnodup := hl.once
    rw [hplaced'] at hnodup
    apply hahead.kept x (by simp [hplaced'])
    exact fun h => (List.nodup_append.mp hnodup).2.2 x h x (.head _) rfl
  have hlate : x ∉ js.flatMap b.held ++ pre := by
    intro hmem
    obtain ⟨a, ha⟩ := hl'.exists_action (Body.mem_placedInstrs.mpr ⟨j, hj, hx⟩)
    apply herror
    rw [heq]
    exact split_passes hl' hnone hj hx ha (hbefore x hmem a (haction ▸ ha))
  -- so the step that failed is the one at the copy
  obtain ⟨hbehind, rfl⟩ := first_eq (hplaced'.symm.trans hplaced) hlate hmet
  have hxj : x ∈ b.held j := by simp [hheld']
  have hxk : x ∈ b.held k := by simp [hheld]
  obtain rfl : j = k := hl.block_unique (hahead.layout ▸ hj)
    (Array.mem_toList_iff.mp (by simp [hlayout])) hxj hxk
  rw [split_stops j hnone (haction.trans hcopy) hne, Body.index_of_head (hahead.head j)] at heq
  rw [splitCopies_of_error (by rw [splitCopies_error]; exact herror), heq]
  rw [hbehind] at hahead
  exact ⟨rfl, hahead.leaves hl hlayout hheld⟩

end

def bundled : Body :=
  let bundle : Ty := .array (.struct "S" [("x", .scalar .float), ("y", .array .vec4 2)]) 2
  let a : Variable := ⟨0, 0, "a", bundle, .local, none⟩
  let c : Variable := ⟨1, 1, "c", bundle, .local, none⟩
  let x : Variable := ⟨2, 2, "x", .scalar .float, .local, none⟩
  let z : Variable := ⟨3, 3, "z", .scalar .int, .local, none⟩
  { links := #[varLink a, varLink c, varLink x, varLink z]
    -- the copy from an integer to a float has one that could be split behind it
    instrs := #[⟨.copy (some 0) (some 1), some 0⟩, ⟨.copy (some 2) (some 3), some 1⟩,
      ⟨.copy (some 1) (some 0), some 1⟩, ⟨.intrinsic "emit" [] none, some 2⟩]
    blocks := #[⟨0, "entry", [0], [1], none, [], [], []⟩,
      ⟨1, "next", [1, 2], [2], none, [], [], []⟩, ⟨2, "exit", [3], [], none, [], [], []⟩]
    layout := #[0, 1, 2] }

end ShaderIR
