import ShaderIR.Analysis.Graph
import ShaderIR.Body

/-!
# Dominance

A node dominates another when every path from the entry to the other passes through it, which is
so exactly when the other cannot be reached once the node is closed. The strict dominators of a
node form a chain under dominance, and its immediate dominator is the last of them.
-/

set_option autoImplicit false

namespace ShaderIR

namespace Graph

def cuts (g : Graph) (entry : Nat) : Array (Array Bool) :=
  (Array.range g.size).map fun d => flags g.size (g.reachAvoiding (· == d) entry)

def dominatesBy (cuts : Array (Array Bool)) (d b : Nat) : Bool :=
  match cuts[d]? with
  | some cut => cut[b]? == some false
  | none => false

/-- Every strict dominator of `b` other than `d` dominates `d`. -/
def isLastOf (cuts : Array (Array Bool)) (strict : List Nat) (d : Nat) : Bool :=
  strict.all fun e => e == d || dominatesBy cuts e d

def idoms (g : Graph) (entry : Nat) : Array (Option Nat) :=
  let table := g.cuts entry
  let met := flags g.size (g.reach entry)
  (Array.range g.size).map fun b =>
    if met[b]? == some true then
      let strict := (List.range g.size).filter fun d =>
        d != b && met[d]? == some true && dominatesBy table d b
      strict.find? (isLastOf table strict)
    else none

end Graph

namespace Body

def flow (b : Body) : Graph :=
  let indexOf (id : BlockId) : Option Nat := b.blocks[id]?.map (·.index)
  let table := b.orderedBlocks.foldl
    (fun acc blk => acc.setIfInBounds blk.index (blk.succs.filterMap indexOf))
    (Array.replicate b.layout.size ([] : List Nat))
  ⟨b.layout.size, fun v => table[v]?.getD []⟩

def indexBlocks (b : Body) : Body :=
  b.mapBlocks fun i blk => { blk with index := i }

def childrenOf (idoms : Array (Option Nat)) (i : Nat) : List Nat :=
  (List.range idoms.size).filter fun j => idoms[j]? == some (some i)

def computeDominance (b : Body) : Body :=
  let entry := match b.layout[0]? with
    | some id => b.blockIndex id
    | none => 0
  let byIndex := b.flow.idoms entry
  let parents := b.layout.mapIdx fun i id =>
    if i = 0 then none else byIndex[b.blockIndex id]?.join
  b.mapBlocks fun i blk =>
    { blk with
      idom := parents[i]?.join.bind (b.layout[·]?)
      domChildren := (childrenOf parents i).filterMap (b.layout[·]?) }

/-- Walks the dominator tree from the blocks on the stack. Every block has one place in the tree,
so their number bounds the walk. -/
def preorderFrom (b : Body) : Nat → List BlockId → List BlockId
  | 0, _ => []
  | _ + 1, [] => []
  | fuel + 1, id :: stack =>
    let children := match b.blocks[id]? with
      | some blk => blk.domChildren
      | none => []
    id :: preorderFrom b fuel (children ++ stack)

def dominancePreorder (b : Body) : List BlockId :=
  preorderFrom b b.layout.size b.layout[0]?.toList

end Body

end ShaderIR
