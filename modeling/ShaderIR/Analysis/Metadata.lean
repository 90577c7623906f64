import ShaderIR.Analysis.Liveness

/-!
# Keeping analyses

What an analysis found stays on the blocks until it is computed again. A pass asks for what it
needs, and says at its end what it has kept intact; everything else stops being valid.
-/

set_option autoImplicit false

namespace ShaderIR.Body

def ensureIndex (b : Body) : Body :=
  if b.valid.index then b
  else let b := b.indexBlocks; { b with valid := { b.valid with index := true } }

def ensureDominance (b : Body) : Body :=
  let b := b.computeDominance
  { b with valid := { b.valid with dominance := true } }

def ensureLiveness (b : Body) : Body :=
  let b := b.computeLiveness
  { b with valid := { b.valid with liveness := true } }

def require (wanted : Analyses) (b : Body) : Body :=
  let missing := wanted.diff b.valid
  -- every analysis needs the block numbers
  let b := if missing = .none then b else b.ensureIndex
  let b := if missing.dominance then b.ensureDominance else b
  if missing.liveness then b.ensureLiveness else b

def preserve (kept : Analyses) (b : Body) : Body :=
  { b with valid := b.valid.inter kept }

/-- What a pass keeps that only changes the instructions inside the blocks. -/
def controlFlowAnalyses : Analyses := ⟨true, true, false⟩

end ShaderIR.Body
