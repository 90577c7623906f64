import Mathlib.Logic.Equiv.Basic
import Mathlib.Tactic.Linarith
import ShaderIR.Builder
import ShaderIR.Proofs.Action

/-!
# Running a function

A state holds the values, the register slots and the memory of the variables. Memory is addressed by
a variable, the fields and the concrete indices that lead to a vector or scalar in it. Moves,
additions, products, narrowings and constants work on the bits of their components, at the width of
what they write. Every other arithmetic operation and every intrinsic is an arbitrary function of
its operands and of a state outside of the function, which a machine supplies. A function runs along
a sequence of its blocks.

Two facts carry over to whole runs: states that agree where an action looks agree after it, and
renaming the values of an action and of the state before it renames the state after it.
-/

set_option autoImplicit false

namespace ShaderIR

abbrev Lanes := Nat → Nat

def fit (bits : Int) (x : Lanes) : Lanes := fun i => x i % 2 ^ bits.toNat

@[simp] theorem fit_fit (bits : Int) (x : Lanes) : fit bits (fit bits x) = fit bits x := by
  funext i
  simp [fit]

def blend (mask : Nat → Bool) (x old : Lanes) : Lanes := fun i => if mask i then x i else old i

def covers (mask : UInt8) (i : Nat) : Bool := mask.toNat.testBit i

theorem covers_fullMask {n : Int} (h0 : 0 ≤ n) (h8 : n ≤ 8) :
    covers (fullMask n) = fun i : Nat => decide ((i : Int) < n) := by
  funext i
  obtain ⟨k, rfl⟩ := Int.eq_ofNat_of_zero_le h0
  have hmasks : ∀ k ≤ 8, (fullMask (k : Nat)).toNat = 2 ^ k - 1 := by decide
  rw [covers, hmasks k (by omega), Nat.testBit_two_pow_sub_one]
  simp

def indexOf (x : Lanes) : UInt32 := UInt32.ofNat (x 0)

inductive Sel where
  | field (f : Nat)
  | index (i : UInt32)
  deriving DecidableEq

structure Place where
  var : Variable
  path : List Sel
  deriving DecidableEq

structure State (ε : Type) where
  values : Value → Lanes
  registers : Register → Int → Lanes
  memory : Place → Lanes
  /-- The intrinsics called so far with their operands. -/
  calls : List (String × List Lanes)
  outside : ε

structure Machine (ε : Type) where
  alu : AluOp → List Lanes → ε → Lanes × ε
  intrinsic : String → List Lanes → ε → Lanes × ε

def argument (xs : List Lanes) (n : Nat) : Lanes := xs.getD n fun _ => 0

def Machine.compute {ε : Type} (m : Machine ε) : AluOp → List Lanes → ε → Lanes × ε
  | .mov, xs, o => (argument xs 0, o)
  | .iadd, xs, o => (fun i => argument xs 0 i + argument xs 1 i, o)
  | .imul, xs, o => (fun i => argument xs 0 i * argument xs 1 i, o)
  | .u2u32, xs, o => (fun i => argument xs 0 i % 2 ^ 32, o)
  | op, xs, o => m.alu op xs o

namespace Ty

def inside : Ty → Sel → Option Ty
  | array t n, .index i => if (i.toNat : Int) < n then some t else none
  | struct _ fs, .field f => fs[f]?.map Prod.snd
  | _, _ => none

def reach (t : Ty) : List Sel → Option Ty
  | [] => some t
  | x :: path => (reach t path).bind (·.inside x)

def leaf? (t : Ty) (path : List Sel) : Option Ty := (t.reach path).filter (·.isVectorOrScalar)

end Ty

def stepsFrom (outer path : List Sel) : Option (List Sel) :=
  -- paths have their last step first
  if path.drop (path.length - outer.length) = outer then
    some (path.take (path.length - outer.length))
  else none

theorem stepsFrom_eq_some {outer path x : List Sel} :
    stepsFrom outer path = some x ↔ path = x ++ outer := by
  unfold stepsFrom
  constructor
  · intro h
    split at h
    · rename_i hd
      cases h
      conv_lhs => rw [← List.take_append_drop (path.length - outer.length) path, hd]
    · cases h
  · rintro rfl
    simp

namespace State

variable {ε : Type}

def slotNumber (s : State ε) (sl : Slot) : Int :=
  sl.base + match sl.indirect with
    | none => 0
    | some v => ((indexOf (s.values v)).toNat : Int)

def read (s : State ε) : Site → Lanes
  | .missing => fun _ => 0
  | .value v => s.values v
  | .slot sl =>
    match sl.reg with
    | none => fun _ => 0
    | some r => fit r.bits (s.registers r (s.slotNumber sl))

theorem read_value (s : State ε) (v : Value) : s.read (.value v) = s.values v := rfl

def place? (s : State ε) : List Hop → Option Place
  | [] => none
  | hop :: rest =>
    match hop.kind with
    | .var v => some ⟨v, []⟩
    | .array index =>
      (s.place? rest).map fun p => ⟨p.var, .index (indexOf (s.read index)) :: p.path⟩
    | .struct f => (s.place? rest).map fun p => ⟨p.var, .field f :: p.path⟩
    | .cast => none

def fetch (s : State ε) (hops : List Hop) : Lanes :=
  match s.place? hops with
  | none => fun _ => 0
  | some p => fit (hopsType hops).bits (s.memory p)

def define (s : State ε) (v : Value) (x : Lanes) : State ε :=
  { s with values := fun u => if u = v then fit v.bits x else s.values u }

/-- Writes to a destination. A value is defined whole; a register slot keeps the components outside
the mask. -/
def write (s : State ε) (mask : Nat → Bool) (x : Lanes) : Site → State ε
  | .missing => s
  | .value v => s.define v x
  | .slot sl =>
    match sl.reg with
    | none => s
    | some r =>
      { s with registers := fun q n =>
          if q = r ∧ n = s.slotNumber sl then blend mask (fit r.bits x) (s.registers q n)
          else s.registers q n }

def put (s : State ε) (hops : List Hop) (mask : Nat → Bool) (x : Lanes) : State ε :=
  match s.place? hops with
  | none => s
  | some p =>
    { s with memory := fun q =>
        if q = p then blend mask (fit (hopsType hops).bits x) (s.memory q) else s.memory q }

/-- Memory after all vectors and scalars of a type were copied from one place to another at once. -/
def copied (memory : Place → Lanes) (type : Ty) (dst src : Place) (p : Place) : Lanes :=
  if p.var = dst.var then
    match stepsFrom dst.path p.path with
    | none => memory p
    | some x =>
      match type.leaf? x with
      | none => memory p
      | some t => blend (fun i => (i : Int) < t.components)
          (fit t.bits (memory ⟨src.var, x ++ src.path⟩)) (memory p)
  else memory p

def copy (s : State ε) (dst src : List Hop) : State ε :=
  match s.place? dst, s.place? src with
  | some d, some c => { s with memory := copied s.memory (hopsType dst) d c }
  | _, _ => s

def call (s : State ε) (name : String) (args : List Lanes) (outside : ε) : State ε :=
  { s with calls := s.calls ++ [(name, args)], outside }

end State

def Action.exec {ε : Type} (m : Machine ε) (s : State ε) : Action → State ε
  | .alu op srcs dest mask =>
    let r := m.compute op (srcs.map s.read) s.outside
    { s with outside := r.2 }.write (covers mask) r.1 dest
  | .const v values => s.define v fun i => (values.getD i 0).toNat
  | .load hops dest n => s.write (fun i => (i : Int) < n) (s.fetch hops) dest
  | .store hops v mask => s.put hops (covers mask) (s.read v)
  | .copy dst src => s.copy dst src
  | .intrinsic name srcs dest =>
    let args := srcs.map s.read
    let r := m.intrinsic name args s.outside
    (s.call name args r.2).write (fun _ => true) r.1 (dest.getD .missing)

def execAll {ε : Type} (m : Machine ε) (s : State ε) (acts : List Action) : State ε :=
  acts.foldl (fun s a => a.exec m s) s

def Body.run {ε : Type} (m : Machine ε) (b : Body) (path : List BlockId) (s : State ε) : State ε :=
  execAll m s (b.along path)

section

variable {ε : Type} (m : Machine ε)

@[simp] theorem execAll_nil (s : State ε) : execAll m s [] = s := rfl

@[simp] theorem execAll_cons (s : State ε) (a : Action) (acts : List Action) :
    execAll m s (a :: acts) = execAll m (a.exec m s) acts := rfl

theorem execAll_append (s : State ε) (as bs : List Action) :
    execAll m s (as ++ bs) = execAll m (execAll m s as) bs :=
  List.foldl_append

end

structure Agree {ε : Type} (K : Value → Prop) (R : Register → Prop) (M : Variable → Prop)
    (s t : State ε) : Prop where
  values : ∀ v, K v → t.values v = s.values v
  registers : ∀ r, R r → t.registers r = s.registers r
  memory : ∀ p : Place, M p.var → t.memory p = s.memory p
  calls : t.calls = s.calls
  outside : t.outside = s.outside

namespace Agree

variable {ε : Type} {K : Value → Prop} {R : Register → Prop} {M : Variable → Prop}
  {s t : State ε}

theorem refl (s : State ε) : Agree K R M s s :=
  ⟨fun _ _ => rfl, fun _ _ => rfl, fun _ _ => rfl, rfl, rfl⟩

theorem trans {u : State ε} (h : Agree K R M s t) (h' : Agree K R M t u) : Agree K R M s u where
  values v hv := (h'.values v hv).trans (h.values v hv)
  registers r hr := (h'.registers r hr).trans (h.registers r hr)
  memory p hp := (h'.memory p hp).trans (h.memory p hp)
  calls := h'.calls.trans h.calls
  outside := h'.outside.trans h.outside

theorem mono {K' : Value → Prop} {R' : Register → Prop} {M' : Variable → Prop}
    (h : Agree K R M s t) (hK : ∀ v, K' v → K v) (hR : ∀ r, R' r → R r) (hM : ∀ x, M' x → M x) :
    Agree K' R' M' s t where
  values v hv := h.values v (hK v hv)
  registers r hr := h.registers r (hR r hr)
  memory p hp := h.memory p (hM p.var hp)
  calls := h.calls
  outside := h.outside

theorem slotNumber (h : Agree K R M s t) {sl : Slot} (hu : ∀ v ∈ sl.uses, K v) :
    t.slotNumber sl = s.slotNumber sl := by
  unfold State.slotNumber
  cases hi : sl.indirect with
  | none => rfl
  | some v => simp [h.values v (hu v (by simp [Slot.uses, hi]))]

theorem read (h : Agree K R M s t) {x : Site} (hu : ∀ v ∈ x.uses, K v)
    (hr : ∀ r ∈ x.registers, R r) : t.read x = s.read x := by
  cases x with
  | missing => rfl
  | value v => exact h.values v (hu v (by simp [Site.uses]))
  | slot sl =>
    cases hreg : sl.reg with
    | none => simp [State.read, hreg]
    | some r =>
      simp only [State.read, hreg]
      rw [h.slotNumber hu, h.registers r (hr r (by simp [Site.registers, hreg]))]

theorem reads (h : Agree K R M s t) {xs : List Site} (hu : ∀ v ∈ xs.flatMap Site.uses, K v)
    (hr : ∀ r ∈ xs.flatMap Site.registers, R r) : xs.map t.read = xs.map s.read := by
  apply List.map_congr_left
  intro x hx
  exact h.read (fun v hv => hu v (List.mem_flatMap.mpr ⟨x, hx, hv⟩))
    fun r hr' => hr r (List.mem_flatMap.mpr ⟨x, hx, hr'⟩)

theorem place? (h : Agree K R M s t) {hops : List Hop} (hu : ∀ v ∈ hops.flatMap Hop.uses, K v)
    (hr : ∀ r ∈ hops.flatMap Hop.registers, R r) : t.place? hops = s.place? hops := by
  induction hops with
  | nil => rfl
  | cons hop rest ih =>
    simp only [List.flatMap_cons, List.mem_append] at hu hr
    have hrest := ih (fun v hv => hu v (.inr hv)) fun r hr' => hr r (.inr hr')
    cases hk : hop.kind with
    | array index =>
      have hread : t.read index = s.read index :=
        h.read (fun v hv => hu v (.inl (by simpa [Hop.uses, hk] using hv)))
          fun r hr' => hr r (.inl (by simpa [Hop.registers, hk] using hr'))
      simp [State.place?, hk, hrest, hread]
    | _ => simp [State.place?, hk, hrest]

theorem fetch (h : Agree K R M s t) {hops : List Hop} (hu : ∀ v ∈ hops.flatMap Hop.uses, K v)
    (hr : ∀ r ∈ hops.flatMap Hop.registers, R r)
    (hm : ∀ p, s.place? hops = some p → M p.var) : t.fetch hops = s.fetch hops := by
  unfold State.fetch
  rw [h.place? hu hr]
  cases hp : s.place? hops with
  | none => rfl
  | some p => simp [h.memory p (hm p hp)]

theorem withOutside (h : Agree K R M s t) (o : ε) :
    Agree K R M { s with outside := o } { t with outside := o } :=
  ⟨h.values, h.registers, h.memory, h.calls, rfl⟩

theorem call (h : Agree K R M s t) (name : String) (args : List Lanes) (o : ε) :
    Agree K R M (s.call name args o) (t.call name args o) :=
  ⟨h.values, h.registers, h.memory, by simp [State.call, h.calls], rfl⟩

theorem write (h : Agree K R M s t) (mask : Nat → Bool) (x : Lanes) {d : Site}
    (hu : ∀ v ∈ d.addressUses, K v) (hr : ∀ r ∈ d.registers, R r) :
    Agree (fun v => K v ∨ d.value? = some v) R M (s.write mask x d) (t.write mask x d) := by
  cases d with
  | missing => exact ⟨fun v hv => h.values v (by simpa [Site.value?] using hv), h.registers,
      h.memory, h.calls, h.outside⟩
  | value u =>
    refine ⟨?_, h.registers, h.memory, h.calls, h.outside⟩
    intro v hv
    by_cases huv : v = u
    · simp [State.write, State.define, huv]
    · have hK : K v := by
        rcases hv with hv | hv
        · exact hv
        · exact absurd (by simpa [Site.value?] using hv.symm) huv
      simp [State.write, State.define, huv, h.values v hK]
  | slot sl =>
    cases hreg : sl.reg with
    | none =>
      simp only [State.write, hreg]
      exact ⟨fun v hv => h.values v (by simpa [Site.value?] using hv), h.registers, h.memory,
        h.calls, h.outside⟩
    | some r =>
      simp only [State.write, hreg]
      refine ⟨fun v hv => h.values v (by simpa [Site.value?] using hv), ?_, h.memory, h.calls,
        h.outside⟩
      intro q hq
      simp only [h.slotNumber hu, h.registers q hq]

theorem put (h : Agree K R M s t) (mask : Nat → Bool) (x : Lanes) {hops : List Hop}
    (hu : ∀ v ∈ hops.flatMap Hop.uses, K v) (hr : ∀ r ∈ hops.flatMap Hop.registers, R r) :
    Agree K R M (s.put hops mask x) (t.put hops mask x) := by
  unfold State.put
  rw [h.place? hu hr]
  cases s.place? hops with
  | none => exact h
  | some p =>
    refine ⟨h.values, h.registers, ?_, h.calls, h.outside⟩
    intro q hq
    simp only [h.memory q hq]

theorem copy (h : Agree K R M s t) {dst src : List Hop}
    (hud : ∀ v ∈ dst.flatMap Hop.uses, K v) (hrd : ∀ r ∈ dst.flatMap Hop.registers, R r)
    (hus : ∀ v ∈ src.flatMap Hop.uses, K v) (hrs : ∀ r ∈ src.flatMap Hop.registers, R r)
    (hm : ∀ p, s.place? src = some p → M p.var) :
    Agree K R M (s.copy dst src) (t.copy dst src) := by
  unfold State.copy
  rw [h.place? hud hrd, h.place? hus hrs]
  cases s.place? dst with
  | none => exact h
  | some d =>
    cases hp : s.place? src with
    | none => exact h
    | some c =>
      refine ⟨h.values, h.registers, ?_, h.calls, h.outside⟩
      intro p hpv
      have hsrc : ∀ x, t.memory ⟨c.var, x⟩ = s.memory ⟨c.var, x⟩ := fun x => h.memory _ (hm c hp)
      simp only [State.copied, hsrc, h.memory p hpv]

/-- An action whose reads the states agree on keeps the agreement and adds its result to it. -/
theorem exec (m : Machine ε) (h : Agree K R M s t) {a : Action} (hu : ∀ v ∈ a.uses, K v)
    (hr : ∀ r ∈ a.registers, R r)
    (hm : ∀ hops ∈ a.chains, ∀ p, s.place? hops = some p → M p.var) :
    Agree (fun v => K v ∨ a.result? = some v) R M (a.exec m s) (a.exec m t) := by
  have widen : ∀ {s t : State ε}, Agree K R M s t → a.result? = none →
      Agree (fun v => K v ∨ a.result? = some v) R M s t := fun h hn =>
    ⟨fun v hv => h.values v (by simpa [hn] using hv), h.registers, h.memory, h.calls, h.outside⟩
  cases a with
  | alu op srcs dest mask =>
    simp only [Action.uses, Action.srcs, Action.dest?, Action.chains, Option.toList_some,
      List.flatMap_singleton, List.flatMap_nil, List.append_nil, List.mem_append] at hu
    simp only [Action.registers, Action.srcs, Action.dest?, Action.chains, Option.toList_some,
      List.flatMap_singleton, List.flatMap_nil, List.append_nil, List.mem_append] at hr
    simp only [Action.exec]
    rw [h.reads (fun v hv => hu v (.inl hv)) fun r hv => hr r (.inl hv), h.outside]
    exact (h.withOutside _).write _ _ (fun v hv => hu v (.inr hv)) fun r hv => hr r (.inr hv)
  | const v values =>
    exact h.write (fun _ => true) _ (d := .value v) (by simp [Site.addressUses])
      (by simp [Site.registers])
  | load hops dest n =>
    simp only [Action.uses, Action.srcs, Action.dest?, Action.chains, Option.toList_some,
      List.flatMap_singleton, List.flatMap_nil, List.nil_append, List.mem_append] at hu
    simp only [Action.registers, Action.srcs, Action.dest?, Action.chains, Option.toList_some,
      List.flatMap_singleton, List.flatMap_nil, List.nil_append, List.mem_append] at hr
    simp only [Action.exec]
    rw [h.fetch (fun v hv => hu v (.inr hv)) (fun r hv => hr r (.inr hv))
      (hm hops (by simp [Action.chains]))]
    exact h.write _ _ (fun v hv => hu v (.inl hv)) fun r hv => hr r (.inl hv)
  | store hops x mask =>
    simp only [Action.uses, Action.srcs, Action.dest?, Action.chains, Option.toList_none,
      List.flatMap_singleton, List.flatMap_nil, List.append_nil, List.mem_append] at hu
    simp only [Action.registers, Action.srcs, Action.dest?, Action.chains, Option.toList_none,
      List.flatMap_singleton, List.flatMap_nil, List.append_nil, List.mem_append] at hr
    simp only [Action.exec]
    rw [h.read (fun v hv => hu v (.inl hv)) fun r hv => hr r (.inl hv)]
    exact widen (h.put _ _ (fun v hv => hu v (.inr hv)) fun r hv => hr r (.inr hv)) rfl
  | copy dst src =>
    simp only [Action.uses, Action.srcs, Action.dest?, Action.chains, Option.toList_none,
      List.flatMap_cons, List.flatMap_nil, List.append_nil, List.nil_append, List.mem_append] at hu
    simp only [Action.registers, Action.srcs, Action.dest?, Action.chains, Option.toList_none,
      List.flatMap_cons, List.flatMap_nil, List.append_nil, List.nil_append, List.mem_append] at hr
    exact widen (h.copy (fun v hv => hu v (.inl hv)) (fun r hv => hr r (.inl hv))
      (fun v hv => hu v (.inr hv)) (fun r hv => hr r (.inr hv))
      (hm src (by simp [Action.chains]))) rfl
  | intrinsic name srcs dest =>
    simp only [Action.uses, Action.srcs, Action.dest?, Action.chains, List.flatMap_nil,
      List.append_nil, List.mem_append] at hu
    simp only [Action.registers, Action.srcs, Action.dest?, Action.chains, List.flatMap_nil,
      List.append_nil, List.mem_append] at hr
    simp only [Action.exec]
    rw [h.reads (fun v hv => hu v (.inl hv)) fun r hv => hr r (.inl hv), h.outside]
    cases dest with
    | none => exact widen (h.call _ _ _) rfl
    | some d =>
      exact (h.call _ _ _).write _ _ (fun v hv => hu v (.inr (by simpa using hv)))
        fun r hv => hr r (.inr (by simpa using hv))

end Agree

theorem agree_define {ε : Type} (s : State ε) (v : Value) (x : Lanes) :
    Agree (· ≠ v) (fun _ => True) (fun _ => True) s (s.define v x) :=
  ⟨fun u hu => by simp [State.define, hu], fun _ _ => rfl, fun _ _ => rfl, rfl, rfl⟩

theorem agree_put {ε : Type} (s : State ε) (hops : List Hop) (mask : Nat → Bool) (x : Lanes) :
    Agree (fun _ => True) (fun _ => True) (fun _ => False) s (s.put hops mask x) := by
  unfold State.put
  cases s.place? hops with
  | none => exact .refl s
  | some p => exact ⟨fun _ _ => rfl, fun _ _ => rfl, fun _ h => h.elim, rfl, rfl⟩

theorem ofInt_natCast (i : Nat) : UInt32.ofInt i = UInt32.ofNat i := by
  apply UInt32.toNat_inj.mp
  simp only [UInt32.ofInt, UInt32.toNat_ofNat']
  omega

theorem indexOf_intWord (i : Int) :
    indexOf (fit 32 fun j => (([Cursor.word i].getD j 0)).toNat) = UInt32.ofInt i := by
  have hword : ((Cursor.word i).toNat : Int) = i % 2 ^ 64 := by
    simp only [Cursor.word, UInt64.ofInt, UInt64.toNat_ofNat']
    omega
  apply UInt32.toNat_inj.mp
  simp only [indexOf, fit, List.getD_cons_zero, UInt32.toNat_ofNat', UInt32.ofInt,
    show Int.toNat 32 = 32 from rfl]
  omega

theorem indexOf_word (i : Nat) :
    indexOf (fit 32 fun j => (([Cursor.word i].getD j 0)).toNat) = UInt32.ofNat i := by
  rw [indexOf_intWord, ofInt_natCast]

theorem indexOf_add (x y : Lanes) : indexOf (fun i => x i + y i) = indexOf x + indexOf y :=
  UInt32.ofNat_add _ _

theorem indexOf_mul (x y : Lanes) : indexOf (fun i => x i * y i) = indexOf x * indexOf y :=
  UInt32.ofNat_mul _ _

theorem indexOf_fit (x : Lanes) : indexOf (fit 32 x) = indexOf x := by
  apply UInt32.toNat_inj.mp
  simp [indexOf, fit]

theorem indexOf_mod (x : Lanes) : indexOf (fun i => x i % 2 ^ 32) = indexOf x := by
  apply UInt32.toNat_inj.mp
  simp [indexOf]

section

variable {ε : Type} (m : Machine ε) (s : State ε) (x y : Site) (v : Value) (mask : UInt8)

theorem exec_move (d : Site) :
    (Action.alu .mov [x] d mask).exec m s = s.write (covers mask) (s.read x) d := rfl

/-- A load and a move with the full mask write the same, as long as the mask has a place for every
component. -/
theorem write_fullMask {n : Int} {d : Site} (z : Lanes)
    (h : ∀ sl, d = .slot sl → 0 ≤ n ∧ n ≤ 8) :
    s.write (covers (fullMask n)) z d = s.write (fun i => (i : Int) < n) z d := by
  cases d with
  | slot sl => rw [covers_fullMask (h sl rfl).1 (h sl rfl).2]
  | _ => rfl

theorem exec_mov : (Action.alu .mov [x] (.value v) mask).exec m s = s.define v (s.read x) := rfl

theorem exec_u2u32 : (Action.alu .u2u32 [x] (.value v) mask).exec m s =
    s.define v fun i => s.read x i % 2 ^ 32 := rfl

theorem exec_imul : (Action.alu .imul [x, y] (.value v) mask).exec m s =
    s.define v fun i => s.read x i * s.read y i := rfl

theorem exec_iadd : (Action.alu .iadd [x, y] (.value v) mask).exec m s =
    s.define v fun i => s.read x i + s.read y i := rfl

theorem exec_word (n : Int) : (Action.const v [Cursor.word n]).exec m s =
    s.define v fun j => ([Cursor.word n].getD j 0).toNat := rfl

theorem define_values (z : Lanes) : (s.define v z).values v = fit v.bits z := by
  simp [State.define]

theorem define_values_of_ne {u v : Value} (h : u ≠ v) (z : Lanes) :
    (s.define v z).values u = s.values u := by
  simp [State.define, h]

end

section

variable {ε : Type} (m : Machine ε) (s : State ε)

theorem values_write {mask : Nat → Bool} {x : Lanes} {d : Site} {v : Value}
    (h : d.value? ≠ some v) : (s.write mask x d).values v = s.values v := by
  cases d with
  | missing => rfl
  | value u =>
    have hne : v ≠ u := fun hvu => h (by rw [hvu]; rfl)
    simp [State.write, State.define, hne]
  | slot sl => cases hreg : sl.reg <;> simp [State.write, hreg]

theorem registers_write {mask : Nat → Bool} {x : Lanes} {d : Site} {r : Register}
    (h : r ∉ d.registers) : (s.write mask x d).registers r = s.registers r := by
  cases d with
  | missing => rfl
  | value u => rfl
  | slot sl =>
    cases hreg : sl.reg with
    | none => simp [State.write, hreg]
    | some q =>
      have hne : r ≠ q := fun hrq => h (by simp [Site.registers, hreg, hrq])
      simp [State.write, hreg, hne]

theorem memory_write (mask : Nat → Bool) (x : Lanes) (d : Site) :
    (s.write mask x d).memory = s.memory := by
  cases d with
  | missing => rfl
  | value u => rfl
  | slot sl => cases hreg : sl.reg <;> simp [State.write, hreg]

theorem values_exec {a : Action} {v : Value} (h : a.result? ≠ some v) :
    (a.exec m s).values v = s.values v := by
  cases a with
  | alu op srcs dest mask => exact values_write _ h
  | const u values => exact define_values_of_ne s (fun hvu => h (by rw [hvu]; rfl)) _
  | load hops dest n => exact values_write s h
  | store hops x mask =>
    simp only [Action.exec, State.put]
    cases s.place? hops <;> rfl
  | copy dst src =>
    simp only [Action.exec, State.copy]
    cases s.place? dst <;> cases s.place? src <;> rfl
  | intrinsic name srcs dest =>
    cases dest with
    | none => rfl
    | some d => exact values_write (s.call _ _ _) h

theorem registers_exec {a : Action} {r : Register} (h : r ∉ a.registers) :
    (a.exec m s).registers r = s.registers r := by
  have hdest : ∀ d, a.dest? = some d → r ∉ d.registers := fun d hd hr =>
    h (by simp [Action.registers, hd, hr])
  cases a with
  | alu op srcs dest mask => exact registers_write _ (hdest dest rfl)
  | const u values => rfl
  | load hops dest n => exact registers_write s (hdest dest rfl)
  | store hops x mask =>
    simp only [Action.exec, State.put]
    cases s.place? hops <;> rfl
  | copy dst src =>
    simp only [Action.exec, State.copy]
    cases s.place? dst <;> cases s.place? src <;> rfl
  | intrinsic name srcs dest =>
    cases dest with
    | none => rfl
    | some d => exact registers_write (s.call _ _ _) (hdest d rfl)

theorem memory_exec {a : Action} {p : Place}
    (h : ∀ hops ∈ a.chains, ∀ q, s.place? hops = some q → q.var ≠ p.var) :
    (a.exec m s).memory p = s.memory p := by
  cases a with
  | alu op srcs dest mask => exact congrFun (memory_write _ _ _ dest) p
  | const u values => rfl
  | load hops dest n => exact congrFun (memory_write s _ _ dest) p
  | store hops x mask =>
    simp only [Action.exec, State.put]
    cases hq : s.place? hops with
    | none => rfl
    | some q =>
      have hne : p ≠ q := fun hpq => h hops (by simp [Action.chains]) q hq (by rw [hpq])
      simp [hne]
  | copy dst src =>
    simp only [Action.exec, State.copy]
    cases hd : s.place? dst with
    | none => rfl
    | some d =>
      have hne := h dst (by simp [Action.chains]) d hd
      cases s.place? src <;> simp [State.copied, Ne.symm hne]
  | intrinsic name srcs dest =>
    cases dest with
    | none => rfl
    | some d => exact congrFun (memory_write (s.call _ _ _) _ _ d) p

end

def State.rename {ε : Type} (π : Equiv.Perm Value) (s : State ε) : State ε :=
  { s with values := fun v => s.values (π.symm v) }

section Renaming

variable {ε : Type} (π : Equiv.Perm Value) (s : State ε)

theorem slotNumber_rename (sl : Slot) :
    (s.rename π).slotNumber (sl.map π) = s.slotNumber sl := by
  cases h : sl.indirect <;> simp [State.slotNumber, State.rename, Slot.map, h]

theorem read_rename (x : Site) : (s.rename π).read (x.map π) = s.read x := by
  cases x with
  | missing => rfl
  | value v => simp [State.read, Site.map, Site.rename, State.rename]
  | slot sl =>
    have hn := slotNumber_rename π s sl
    cases h : sl.reg with
    | none => simp [State.read, Site.map, Site.rename, Slot.map, h]
    | some r =>
      simp only [State.read, Site.map, Site.rename, hn]
      simp [Slot.map, h, State.rename]

theorem place?_rename (hops : List Hop) :
    (s.rename π).place? (hops.map (Hop.map π)) = s.place? hops := by
  induction hops with
  | nil => rfl
  | cons hop rest ih =>
    cases hk : hop.kind <;> simp [State.place?, Hop.map, hk, ih, read_rename]

theorem write_rename (hbits : ∀ v, (π v).bits = v.bits) (mask : Nat → Bool) (x : Lanes)
    (d : Site) : (s.rename π).write mask x (d.map π) = (s.write mask x d).rename π := by
  cases d with
  | missing => rfl
  | value v =>
    simp only [State.write, State.define, Site.map, Site.rename, State.rename, hbits]
    congr 1
    funext u
    simp only [Equiv.symm_apply_eq]
  | slot sl =>
    have hn := slotNumber_rename π s sl
    cases h : sl.reg with
    | none => simp [State.write, Site.map, Site.rename, Slot.map, h]
    | some r =>
      simp only [State.write, Site.map, Site.rename, hn]
      simp [Slot.map, h, State.rename]

/-- Renaming the values of an action and of the state before it renames the state after it. -/
theorem exec_rename (m : Machine ε) (hbits : ∀ v, (π v).bits = v.bits) (a : Action) :
    (a.map π).exec m (s.rename π) = (a.exec m s).rename π := by
  have hreads : ∀ xs : List Site, (xs.map (Site.map π)).map (s.rename π).read = xs.map s.read :=
    fun xs => by simp [read_rename]
  cases a with
  | alu op srcs dest mask =>
    simp only [Action.map, Action.rename, Action.exec, hreads]
    exact write_rename π { s with outside := (m.compute op (srcs.map s.read) s.outside).2 } hbits _
      _ dest
  | const v values => exact write_rename π s hbits (fun _ => true) _ (.value v)
  | load hops dest n =>
    have hf : (s.rename π).fetch (hops.map (Hop.map π)) = s.fetch hops := by
      unfold State.fetch
      rw [place?_rename, hopsType_map]
      rfl
    simp only [Action.map, Action.rename, Action.exec, hf]
    exact write_rename π s hbits _ _ dest
  | store hops x mask =>
    simp only [Action.map, Action.rename, Action.exec, read_rename, State.put, place?_rename,
      hopsType_map]
    cases s.place? hops <;> rfl
  | copy dst src =>
    simp only [Action.map, Action.rename, Action.exec, State.copy, place?_rename, hopsType_map]
    cases s.place? dst <;> cases s.place? src <;> rfl
  | intrinsic name srcs dest =>
    simp only [Action.map, Action.rename, Action.exec, hreads]
    cases dest with
    | none => rfl
    | some d => exact write_rename π (s.call name (srcs.map s.read) _) hbits _ _ d

theorem execAll_rename (m : Machine ε) (hbits : ∀ v, (π v).bits = v.bits) (acts : List Action) :
    execAll m (s.rename π) (acts.map (Action.map π)) = (execAll m s acts).rename π := by
  induction acts generalizing s with
  | nil => rfl
  | cons a acts ih => simp [exec_rename π s m hbits, ih]

end Renaming

end ShaderIR
