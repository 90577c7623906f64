/-!
# Reachability

A flow graph has nodes `0 … size - 1` and a list of successors for each of them. The search below
keeps the nodes it has met and the nodes it still has to look at. Every step either drops a node
that was met before or meets a new one, so nodes and edges together bound the search.
-/

set_option autoImplicit false

namespace ShaderIR

structure Graph where
  size : Nat
  succs : Nat → List Nat

namespace Graph

def explore (next : Nat → List Nat) : Nat → List Nat → List Nat → List Nat
  | 0, _, seen => seen
  | _ + 1, [], seen => seen
  | fuel + 1, v :: todo, seen =>
    if seen.contains v then explore next fuel todo seen
    else explore next fuel (next v ++ todo) (v :: seen)

def edgeCount (g : Graph) : Nat :=
  (List.range g.size).foldl (fun n v => n + (g.succs v).length) 0

/-- The nodes on paths from `start` that never enter a node of `closed`. -/
def reachAvoiding (g : Graph) (closed : Nat → Bool) (start : Nat) : List Nat :=
  if closed start then []
  else explore (fun v => (g.succs v).filter fun w => !closed w) (1 + g.size + g.edgeCount) [start] []

def reach (g : Graph) (start : Nat) : List Nat :=
  g.reachAvoiding (fun _ => false) start

def preds (g : Graph) (v : Nat) : List Nat :=
  (List.range g.size).filter fun u => (g.succs u).contains v

def flags (size : Nat) (nodes : List Nat) : Array Bool :=
  nodes.foldl (fun acc v => acc.setIfInBounds v true) (Array.replicate size false)

end Graph

end ShaderIR
