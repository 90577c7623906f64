import ShaderIR.Body

/-!
# Uses of values

An instruction uses the values among its operands, the values that address register slots it reads
or writes, and the indices along the deref chains it goes through. Replacing one value by another
touches exactly those places.
-/

set_option autoImplicit false

namespace ShaderIR

def Slot.uses (s : Slot) : List Value := s.indirect.toList

def Operand.uses (slotOf : SlotId → Slot) : Operand → List Value
  | missing => []
  | value v => [v]
  | slot s => (slotOf s).uses

def LinkKind.uses (slotOf : SlotId → Slot) : LinkKind → List Value
  | array index => index.uses slotOf
  | _ => []

def Op.uses (slotOf : SlotId → Slot) (links : Array Link) (op : Op) : List Value :=
  op.srcs.flatMap (Operand.uses slotOf) ++ (op.slotDest?.map fun s => (slotOf s).uses).getD [] ++
    op.derefs.flatMap fun h => (chain links h).flatMap (·.kind.uses slotOf)

def Body.uses (b : Body) (op : Op) : List Value := op.uses b.slot b.links

def Value.replace (old new v : Value) : Value := if v = old then new else v

def Slot.replace (old new : Value) (s : Slot) : Slot :=
  { s with indirect := s.indirect.map (Value.replace old new) }

def Operand.replace (old new : Value) : Operand → Operand
  | missing => missing
  | value v => value (Value.replace old new v)
  | slot s => slot s

def Op.replace (old new : Value) : Op → Op
  | alu op srcs dest mask => alu op (srcs.map (Operand.replace old new)) dest mask
  | const v values => const v values
  | load h dest n => load h dest n
  | store h v mask => store h (v.replace old new) mask
  | copy d s => copy d s
  | intrinsic name srcs dest => intrinsic name (srcs.map (Operand.replace old new)) dest

def Link.replace (old new : Value) (l : Link) : Link :=
  match l.kind with
  | .array index => { l with kind := .array (index.replace old new) }
  | _ => l

def Link.slot? (l : Link) : Option SlotId :=
  match l.kind with
  | .array index => index.slot?
  | _ => none

namespace Body

def placedInstrs (b : Body) : List InstrId := b.orderedBlocks.flatMap (·.instrs)

def namedSlots (b : Body) : List SlotId :=
  (b.placedInstrs.filterMap b.op?).flatMap Op.slots ++ b.links.toList.filterMap Link.slot?

/-- Redirects every use of `old` to `new`, in the instructions of the blocks, in the arena of deref
links and in the slots that these name. -/
def replaceUses (old new : Value) : Edit Unit :=
  modify fun b =>
    { b with
      instrs := b.placedInstrs.foldl
        (fun is id => is.modify id fun i => { i with op := i.op.replace old new }) b.instrs
      slots := b.namedSlots.foldl (fun ss id => ss.modify id (Slot.replace old new)) b.slots
      links := b.links.map (Link.replace old new) }

end Body

end ShaderIR
