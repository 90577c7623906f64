import ShaderIR.Analysis.Dominance
import ShaderIR.Uses

/-!
# Liveness

A value is live into a block when some path from the start of the block reads it before defining
it. What has been found is handed backwards along the edges. A node that waits in a queue takes over
the values that are live into its successors. When this makes more values live into the node itself,
the nodes with an edge to it have to wait once more.
-/

set_option autoImplicit false

namespace ShaderIR

/-- What a run of instructions defines, and what it reads before defining it. -/
structure LocalUses where
  defs : List Value
  reads : List Value
  deriving DecidableEq, Inhabited

namespace LocalUses

def read (u : LocalUses) (v : Value) : LocalUses :=
  if u.defs.contains v then u else { u with reads := u.reads.insert v }

def define (u : LocalUses) : Option Value → LocalUses
  | some v => { u with defs := u.defs.insert v }
  | none => u

def step (uses : Op → List Value) (u : LocalUses) (op : Op) : LocalUses :=
  ((uses op).foldl read u).define op.result?

def ofOps (uses : Op → List Value) (ops : List Op) : LocalUses :=
  ops.foldl (step uses) ⟨[], []⟩

end LocalUses

structure LiveSets where
  ins : Array (List Value)
  outs : Array (List Value)
  /-- Whether the node that is looked at has more values live into it than before. -/
  grew : Bool

namespace LiveSets

def into (s : LiveSets) (i : Nat) : List Value := s.ins[i]?.getD []

def outOf (s : LiveSets) (i : Nat) : List Value := s.outs[i]?.getD []

/-- Takes a value that is live into a successor of node `i` over to `i`, which defines `defs`. -/
def absorb (defs : List Value) (i : Nat) (s : LiveSets) (v : Value) : LiveSets :=
  if (s.outOf i).contains v then s
  else if defs.contains v || (s.into i).contains v then
    { s with outs := s.outs.modify i (v :: ·) }
  else ⟨s.ins.modify i (v :: ·), s.outs.modify i (v :: ·), true⟩

def gather (g : Graph) (defs : List Value) (i : Nat) (s : LiveSets) : LiveSets :=
  (g.succs i).foldl (fun s j => (s.into j).foldl (absorb defs i) s) { s with grew := false }

end LiveSets

structure Worklist where
  sets : LiveSets
  queue : List Nat
  queued : Array Bool

namespace Worklist

def enqueue (w : Worklist) (i : Nat) : Worklist :=
  if w.queued[i]? = some false then
    { w with queue := w.queue ++ [i], queued := w.queued.setIfInBounds i true }
  else w

def step (g : Graph) (uses : Array LocalUses) (w : Worklist) : Worklist :=
  match w.queue with
  | [] => w
  | i :: queue =>
    let sets := w.sets.gather g (uses[i]?.getD default).defs i
    let w : Worklist := ⟨sets, queue, w.queued.setIfInBounds i false⟩
    if sets.grew then (g.preds i).foldl enqueue w else w

def drain (g : Graph) (uses : Array LocalUses) : Nat → Worklist → Worklist
  | 0, w => w
  | fuel + 1, w => if w.queue.isEmpty then w else drain g uses fuel (w.step g uses)

def start (uses : Array LocalUses) : Worklist :=
  -- every node waits, the last one in front
  ⟨⟨uses.map (·.reads), uses.map fun _ => [], false⟩, (List.range uses.size).reverse,
    uses.map fun _ => true⟩

def readCount (uses : Array LocalUses) : Nat := (uses.toList.flatMap (·.reads)).length

/-- The queue run empty. The sets of `n` nodes can grow `n * readCount` times, and each time `n`
nodes at most have to wait again, so the queue is empty when the fuel is used up. -/
def solve (g : Graph) (uses : Array LocalUses) : Worklist :=
  drain g uses ((uses.size + 1) * (uses.size * readCount uses + 1)) (start uses)

end Worklist

namespace Body

def localUses (b : Body) : Array LocalUses :=
  b.orderedBlocks.toArray.map fun blk => .ofOps b.uses (b.blockOps blk)

def byIndex (vs : List Value) : List Value :=
  vs.mergeSort fun a b => a.index ≤ b.index

def liveness (b : Body) : Worklist := .solve b.flow b.localUses

def computeLiveness (b : Body) : Body :=
  let sets := b.liveness.sets
  b.mapBlocks fun i blk =>
    { blk with
      liveIn := byIndex (sets.into i)
      liveOut := byIndex (sets.outOf i) }

end Body

end ShaderIR
