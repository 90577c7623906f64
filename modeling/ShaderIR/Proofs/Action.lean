import Mathlib.Data.List.Chain
import ShaderIR.Proofs.Arena

/-!
# What an instruction does

An instruction names its register slots and deref chains by number. Here it is seen with these
looked up, as an action that stands for itself. Two bodies whose instructions are the same actions
behave the same, whatever numbers they use. Values can be renamed in an action, in all places or
only where they are read.
-/

set_option autoImplicit false

namespace ShaderIR

inductive Site where
  | missing
  | value (v : Value)
  | slot (s : Slot)
  deriving DecidableEq

inductive HopKind where
  | var (v : Variable)
  | array (index : Site)
  | struct (field : Nat)
  | cast
  deriving DecidableEq

structure Hop where
  kind : HopKind
  type : Ty
  mode : Mode
  deriving DecidableEq

inductive Action where
  | alu (op : AluOp) (srcs : List Site) (dest : Site) (mask : UInt8)
  | const (result : Value) (values : List UInt64)
  | load (hops : List Hop) (dest : Site) (components : Int)
  | store (hops : List Hop) (value : Site) (mask : UInt8)
  | copy (dst src : List Hop)
  | intrinsic (name : String) (srcs : List Site) (dest : Option Site)
  deriving DecidableEq

namespace Site

def uses : Site → List Value
  | missing => []
  | value v => [v]
  | slot s => s.uses

def addressUses : Site → List Value
  | slot s => s.uses
  | _ => []

def value? : Site → Option Value
  | value v => some v
  | _ => none

def registers : Site → List Register
  | slot s => s.reg.toList
  | _ => []

end Site

def Hop.uses (h : Hop) : List Value :=
  match h.kind with
  | .array index => index.uses
  | _ => []

def Hop.registers (h : Hop) : List Register :=
  match h.kind with
  | .array index => index.registers
  | _ => []

namespace Action

def srcs : Action → List Site
  | alu _ ss _ _ | intrinsic _ ss _ => ss
  | store _ v _ => [v]
  | const _ _ | load _ _ _ | copy _ _ => []

def dest? : Action → Option Site
  | alu _ _ d _ | load _ d _ => some d
  | const v _ => some (.value v)
  | intrinsic _ _ d => d
  | store _ _ _ | copy _ _ => none

def chains : Action → List (List Hop)
  | load h _ _ | store h _ _ => [h]
  | copy d s => [d, s]
  | alu _ _ _ _ | const _ _ | intrinsic _ _ _ => []

def uses (a : Action) : List Value :=
  a.srcs.flatMap Site.uses ++ a.dest?.toList.flatMap Site.addressUses ++
    a.chains.flatMap fun hops => hops.flatMap Hop.uses

def result? (a : Action) : Option Value := a.dest?.bind Site.value?

def values (a : Action) : List Value := a.uses ++ a.result?.toList

def registers (a : Action) : List Register :=
  a.srcs.flatMap Site.registers ++ a.dest?.toList.flatMap Site.registers ++
    a.chains.flatMap fun hops => hops.flatMap Hop.registers

@[simp] theorem uses_const (v : Value) (values : List UInt64) : (const v values).uses = [] := rfl

@[simp] theorem result?_const (v : Value) (values : List UInt64) :
    (const v values).result? = some v := rfl

@[simp] theorem registers_const (v : Value) (values : List UInt64) :
    (const v values).registers = [] := rfl

@[simp] theorem uses_alu (op : AluOp) (ss : List Site) (v : Value) (mask : UInt8) :
    (alu op ss (.value v) mask).uses = ss.flatMap Site.uses := by
  simp [uses, srcs, dest?, chains, Site.addressUses]

@[simp] theorem result?_alu (op : AluOp) (ss : List Site) (v : Value) (mask : UInt8) :
    (alu op ss (.value v) mask).result? = some v := rfl

@[simp] theorem registers_alu (op : AluOp) (ss : List Site) (v : Value) (mask : UInt8) :
    (alu op ss (.value v) mask).registers = ss.flatMap Site.registers := by
  simp [registers, srcs, dest?, chains, Site.registers]

end Action

def Slot.map (f : Value → Value) (s : Slot) : Slot := { s with indirect := s.indirect.map f }

namespace Site

def rename (f r : Value → Value) : Site → Site
  | missing => missing
  | value v => value (r v)
  | slot s => slot (s.map f)

def map (f : Value → Value) : Site → Site := rename f f

end Site

def Hop.map (f : Value → Value) (h : Hop) : Hop :=
  match h.kind with
  | .array index => { h with kind := .array (index.map f) }
  | _ => h

namespace Action

def rename (f r : Value → Value) : Action → Action
  | alu op ss d mask => alu op (ss.map (Site.map f)) (d.rename f r) mask
  | const v values => const (r v) values
  | load hops d n => load (hops.map (Hop.map f)) (d.rename f r) n
  | store hops v mask => store (hops.map (Hop.map f)) (v.map f) mask
  | copy d s => copy (d.map (Hop.map f)) (s.map (Hop.map f))
  | intrinsic name ss d => intrinsic name (ss.map (Site.map f)) (d.map (Site.rename f r))

def map (f : Value → Value) : Action → Action := rename f f

def mapUses (f : Value → Value) : Action → Action := rename f id

end Action

section Renaming

variable (f r : Value → Value)

@[simp] theorem Slot.uses_map (s : Slot) : (s.map f).uses = s.uses.map f := by
  cases h : s.indirect <;> simp [Slot.map, Slot.uses, h]

theorem Slot.map_congr {s : Slot} {f g : Value → Value} (h : ∀ v ∈ s.uses, f v = g v) :
    s.map f = s.map g := by
  cases hi : s.indirect with
  | none => simp [Slot.map, hi]
  | some v => simp [Slot.map, hi, h v (by simp [Slot.uses, hi])]

theorem Slot.map_map (g : Value → Value) (s : Slot) : (s.map g).map f = s.map (f ∘ g) := by
  simp [Slot.map, Option.map_map]

theorem Site.uses_map (s : Site) : (s.map f).uses = s.uses.map f := by
  cases s <;> simp [Site.map, Site.rename, Site.uses]

theorem Site.addressUses_rename (s : Site) :
    (s.rename f r).addressUses = s.addressUses.map f := by
  cases s <;> simp [Site.rename, Site.addressUses]

theorem Site.value?_rename (s : Site) : (s.rename f r).value? = s.value?.map r := by
  cases s <;> simp [Site.rename, Site.value?]

theorem Site.registers_rename (s : Site) : (s.rename f r).registers = s.registers := by
  cases s <;> rfl

theorem Site.rename_rename (g q : Value → Value) (s : Site) :
    (s.rename g q).rename f r = s.rename (f ∘ g) (r ∘ q) := by
  cases s <;> simp [Site.rename, Slot.map_map]

theorem Site.rename_congr {s : Site} {f g r q : Value → Value}
    (h : ∀ v ∈ s.addressUses, f v = g v) (hr : ∀ v, s.value? = some v → r v = q v) :
    s.rename f r = s.rename g q := by
  cases s with
  | missing => rfl
  | value v => simp [Site.rename, hr v rfl]
  | slot s => simp [Site.rename, Slot.map_congr h]

theorem Site.map_congr {s : Site} {f g : Value → Value} (h : ∀ v ∈ s.uses, f v = g v) :
    s.map f = s.map g := by
  cases s with
  | missing => rfl
  | value v => simp [Site.map, Site.rename, h v (by simp [Site.uses])]
  | slot s => simp [Site.map, Site.rename, Slot.map_congr h]

theorem Site.rename_id (s : Site) : s.rename id id = s := by
  cases s <;> simp [Site.rename, Slot.map]

theorem Hop.uses_map (h : Hop) : (h.map f).uses = h.uses.map f := by
  cases hk : h.kind <;> simp [Hop.map, Hop.uses, hk, Site.uses_map]

theorem Hop.registers_map (h : Hop) : (h.map f).registers = h.registers := by
  cases hk : h.kind <;> simp [Hop.map, Hop.registers, hk, Site.map, Site.registers_rename]

@[simp] theorem Hop.type_map (h : Hop) : (h.map f).type = h.type := by
  cases hk : h.kind <;> simp [Hop.map, hk]

@[simp] theorem Hop.mode_map (h : Hop) : (h.map f).mode = h.mode := by
  cases hk : h.kind <;> simp [Hop.map, hk]

theorem Hop.map_map (g : Value → Value) (h : Hop) : (h.map g).map f = h.map (f ∘ g) := by
  cases hk : h.kind <;> simp [Hop.map, hk, Site.map, Site.rename_rename]

theorem Hop.map_congr {h : Hop} {f g : Value → Value} (hv : ∀ v ∈ h.uses, f v = g v) :
    h.map f = h.map g := by
  cases hk : h.kind with
  | array index =>
    have : index.map f = index.map g := Site.map_congr (by simpa [Hop.uses, hk] using hv)
    simp [Hop.map, hk, this]
  | _ => simp [Hop.map, hk]

theorem Hop.map_id (h : Hop) : h.map id = h := by
  obtain ⟨kind, type, mode⟩ := h
  cases kind <;> simp [Hop.map, Site.map, Site.rename_id]

variable (a : Action)

theorem Action.srcs_rename : (a.rename f r).srcs = a.srcs.map (Site.map f) := by
  cases a <;> simp [Action.rename, Action.srcs]

theorem Action.dest?_rename : (a.rename f r).dest? = a.dest?.map (Site.rename f r) := by
  cases a <;> simp [Action.rename, Action.dest?, Site.rename]

theorem Action.chains_rename : (a.rename f r).chains = a.chains.map (List.map (Hop.map f)) := by
  cases a <;> simp [Action.rename, Action.chains]

theorem Action.uses_rename : (a.rename f r).uses = a.uses.map f := by
  simp only [Action.uses, Action.srcs_rename, Action.dest?_rename, Action.chains_rename,
    Option.toList_map, List.flatMap_map, List.map_append, List.map_flatMap, Site.uses_map,
    Site.addressUses_rename, Hop.uses_map]

theorem Action.result?_rename : (a.rename f r).result? = a.result?.map r := by
  cases h : a.dest? <;> simp [Action.result?, Action.dest?_rename, h, Site.value?_rename]

theorem Action.registers_rename : (a.rename f r).registers = a.registers := by
  simp only [Action.registers, Action.srcs_rename, Action.dest?_rename, Action.chains_rename,
    Option.toList_map, List.flatMap_map, Site.map, Site.registers_rename, Hop.registers_map]

theorem Action.rename_rename (g q : Value → Value) :
    (a.rename g q).rename f r = a.rename (f ∘ g) (r ∘ q) := by
  cases a <;>
    simp [Action.rename, Site.map, Site.rename_rename, Function.comp_def, Hop.map_map]

theorem Action.rename_id : a.rename id id = a := by
  have hs : Site.map id = id := funext Site.rename_id
  have hr : Site.rename id id = id := funext Site.rename_id
  have hh : Hop.map id = id := funext Hop.map_id
  cases a <;> simp [Action.rename, hs, hr, hh]

theorem Action.rename_congr {a : Action} {f g r q : Value → Value} (h : ∀ v ∈ a.uses, f v = g v)
    (hr : ∀ v, a.result? = some v → r v = q v) : a.rename f r = a.rename g q := by
  have hsrcs : a.srcs.map (Site.map f) = a.srcs.map (Site.map g) := by
    apply List.map_congr_left
    intro s hs
    exact Site.map_congr fun v hv => h v (by
      simp only [Action.uses, List.mem_append, List.mem_flatMap]
      exact .inl (.inl ⟨s, hs, hv⟩))
  have hdest : a.dest?.map (Site.rename f r) = a.dest?.map (Site.rename g q) := by
    cases hd : a.dest? with
    | none => rfl
    | some d =>
      simp only [Option.map_some, Option.some.injEq]
      exact Site.rename_congr (fun v hv => h v (by simp [Action.uses, hd, hv]))
        fun v hv => hr v (by simp [Action.result?, hd, hv])
  have hchains : a.chains.map (List.map (Hop.map f)) = a.chains.map (List.map (Hop.map g)) := by
    apply List.map_congr_left
    intro hops hh
    apply List.map_congr_left
    intro hop hmem
    exact Hop.map_congr fun v hv => h v (by
      simp only [Action.uses, List.mem_append, List.mem_flatMap]
      exact .inr ⟨hops, hh, hop, hmem, hv⟩)
  cases a <;> simp_all [Action.rename, Action.srcs, Action.dest?, Action.chains, Site.rename]

end Renaming

namespace Body

def site (b : Body) : Operand → Site
  | .missing => .missing
  | .value v => .value v
  | .slot s => .slot (b.slot s)

def target (b : Body) : Dest → Site
  | .missing => .missing
  | .value v => .value v
  | .slot s => .slot (b.slot s)

def hop (b : Body) (l : Link) : Hop :=
  ⟨match l.kind with
    | .var v => .var v
    | .array index => .array (b.site index)
    | .struct f => .struct f
    | .cast => .cast, l.type, l.mode⟩

def hops (b : Body) (h : Handle) : List Hop := (chain b.links h).map b.hop

def action (b : Body) : Op → Action
  | .alu op srcs dest mask => .alu op (srcs.map b.site) (b.target dest) mask
  | .const v values => .const v values
  | .load h dest n => .load (b.hops h) (b.target dest) n
  | .store h v mask => .store (b.hops h) (b.site v) mask
  | .copy d s => .copy (b.hops d) (b.hops s)
  | .intrinsic name srcs dest => .intrinsic name (srcs.map b.site) (dest.map b.target)

def action? (b : Body) (id : InstrId) : Option Action := (b.op? id).map b.action

def held (b : Body) (k : BlockId) : List InstrId := (b.blocks[k]?.map (·.instrs)).getD []

def next (b : Body) (k : BlockId) : List BlockId := (b.blocks[k]?.map (·.succs)).getD []

def head? (b : Body) (k : BlockId) : Option Block :=
  b.blocks[k]?.map fun blk => { blk with instrs := [] }

def actions (b : Body) (k : BlockId) : List Action := (b.held k).filterMap b.action?

def along (b : Body) (path : List BlockId) : List Action := path.flatMap b.actions

def IsPath (b : Body) (path : List BlockId) : Prop :=
  (∀ k ∈ path, k ∈ b.layout) ∧ path.IsChain fun j k => k ∈ b.next j

theorem next_of_head {b b' : Body} {k : BlockId} (h : b'.head? k = b.head? k) :
    b'.next k = b.next k := by
  have hsuccs := congrArg (Option.map Block.succs) h
  simp only [head?, Option.map_map, Function.comp_def] at hsuccs
  rw [next, next, hsuccs]

theorem block_ext {b b' : Body} {k : BlockId} (h : b'.head? k = b.head? k)
    (hh : b'.held k = b.held k) : b'.blocks[k]? = b.blocks[k]? := by
  unfold head? at h
  unfold held at hh
  cases hb : b.blocks[k]? with
  | none => simpa [hb] using h
  | some blk =>
    obtain ⟨blk', hb', heq⟩ := Option.map_eq_some_iff.mp (h.trans (congrArg _ hb))
    obtain ⟨index, name, instrs, succs, idom, children, liveIn, liveOut⟩ := blk
    obtain ⟨index', name', instrs', succs', idom', children', liveIn', liveOut'⟩ := blk'
    simp_all

theorem uses_site (b : Body) (o : Operand) : (b.site o).uses = o.uses b.slot := by
  cases o <;> rfl

theorem uses_hop (b : Body) (l : Link) : (b.hop l).uses = l.kind.uses b.slot := by
  cases hk : l.kind <;> simp [hop, Hop.uses, hk, LinkKind.uses, uses_site]

/-- An action reads the values that count as uses of its instruction. -/
theorem uses_action (b : Body) (op : Op) : (b.action op).uses = b.uses op := by
  have hsrcs : ∀ srcs : List Operand,
      (srcs.map b.site).flatMap Site.uses = srcs.flatMap (Operand.uses b.slot) := fun srcs => by
    simp [List.flatMap_map, uses_site]
  have hhops : ∀ h, (b.hops h).flatMap Hop.uses =
      (chain b.links h).flatMap (·.kind.uses b.slot) := fun h => by
    simp [hops, List.flatMap_map, uses_hop]
  have hdest : ∀ d : Dest, (b.target d).addressUses =
      (d.slot?.map fun s => (b.slot s).uses).getD [] := fun d => by
    cases d <;> rfl
  cases op with
  | alu op srcs dest mask =>
    simp [action, Action.uses, Action.srcs, Action.dest?, Action.chains, Body.uses, Op.uses,
      Op.srcs, Op.slotDest?, Op.derefs, hsrcs, hdest]
  | const v values => rfl
  | load h dest n =>
    simp [action, Action.uses, Action.srcs, Action.dest?, Action.chains, Body.uses, Op.uses,
      Op.srcs, Op.slotDest?, Op.derefs, hhops, hdest]
  | store h v mask =>
    simp [action, Action.uses, Action.srcs, Action.dest?, Action.chains, Body.uses, Op.uses,
      Op.srcs, Op.slotDest?, Op.derefs, hhops, uses_site]
  | copy d s =>
    simp [action, Action.uses, Action.srcs, Action.dest?, Action.chains, Body.uses, Op.uses,
      Op.srcs, Op.slotDest?, Op.derefs, hhops]
  | intrinsic name srcs dest =>
    cases dest <;> simp [action, Action.uses, Action.srcs, Action.dest?, Action.chains, Body.uses,
      Op.uses, Op.srcs, Op.slotDest?, Op.derefs, hsrcs, hdest]

theorem result?_action (b : Body) (op : Op) : (b.action op).result? = op.result? := by
  have hdest : ∀ d : Dest, (b.target d).value? = d.value? := fun d => by
    cases d <;> rfl
  cases op with
  | intrinsic name srcs dest =>
    cases dest <;> simp [action, Action.result?, Action.dest?, Op.result?, hdest]
  | const v values => rfl
  | _ => simp [action, Action.result?, Action.dest?, Op.result?, hdest]

theorem chains_action (b : Body) (op : Op) : (b.action op).chains = op.derefs.map b.hops := by
  cases op <;> rfl

theorem exists_hops {b : Body} {id : InstrId} {a : Action} (ha : b.action? id = some a)
    {hops : List Hop} (hh : hops ∈ a.chains) : ∃ h, b.hops h = hops := by
  obtain ⟨op, -, rfl⟩ := Option.map_eq_some_iff.mp ha
  rw [chains_action] at hh
  obtain ⟨h, -, hh⟩ := List.mem_map.mp hh
  exact ⟨h, hh⟩

theorem placedInstrs_eq (b : Body) : b.placedInstrs = b.layout.toList.flatMap b.held := by
  simp only [placedInstrs, orderedBlocks]
  induction b.layout.toList with
  | nil => rfl
  | cons k ks ih => cases h : b.blocks[k]? <;> simp [h, held, ih]

theorem mem_placedInstrs {b : Body} {id : InstrId} :
    id ∈ b.placedInstrs ↔ ∃ k ∈ b.layout, id ∈ b.held k := by
  simp [placedInstrs_eq]

end Body

def localChain : List Hop → Bool
  | [] => false
  | hop :: _ => hop.mode == .local

def hopsType : List Hop → Ty
  | [] => .absent
  | hop :: _ => hop.type

def hopsMode (hops : List Hop) : Mode := (hops.head?.map Hop.mode).getD .local

theorem hopsType_map (f : Value → Value) (hops : List Hop) :
    hopsType (hops.map (Hop.map f)) = hopsType hops := by
  cases hops <;> simp [hopsType]

theorem hopsType_hop (b : Body) (links : List Link) :
    hopsType (links.map b.hop) = headType links := by
  cases links <;> rfl

theorem localChain_map (f : Value → Value) (hops : List Hop) :
    localChain (hops.map (Hop.map f)) = localChain hops := by
  cases hops <;> simp [localChain]

theorem localChain_hops (b : Body) (h : Handle) :
    localChain (b.hops h) = isLocal b.links h := by
  have hh := head?_chain b.links h
  unfold isLocal Body.hops
  cases hc : chain b.links h with
  | nil => simp [← hh, hc, localChain]
  | cons link rest => simp [← hh, hc, localChain, Body.hop]

end ShaderIR
