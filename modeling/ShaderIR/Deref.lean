import ShaderIR.Instr

/-!
# Deref chains

A place in memory is named by a chain of links: a variable, then array elements, struct fields and
casts below it. The links of a function live in one arena. Each link points at its parent, which
stands earlier in the arena, so a chain is read off from its end towards its root.
-/

set_option autoImplicit false

namespace ShaderIR

inductive LinkKind where
  | var (v : Variable)
  | array (index : Operand)
  | struct (field : Nat)
  | cast
  deriving DecidableEq, Inhabited

namespace LinkKind

def name : LinkKind → String
  | var _ => "var"
  | array _ => "array"
  | struct _ => "struct"
  | cast => "cast"

def nameOfNumber : Int → String
  | 0 => "var"
  | 1 => "array"
  | 2 => "struct"
  | 3 => "cast"
  | _ => "?"

end LinkKind

structure Link where
  kind : LinkKind
  parent : Handle
  type : Ty
  mode : Mode
  deriving DecidableEq, Inhabited

inductive LinkError where
  | notArray (type : Ty)
  | noField (type : Ty) (field : Int)
  deriving DecidableEq

/-- The links from `h` up to the root. A chain never has more links than its arena, which bounds
the walk. -/
def chainFrom (links : Array Link) : Nat → Handle → List Link
  | 0, _ => []
  | _ + 1, none => []
  | bound + 1, some h =>
    match links[h]? with
    | none => []
    | some link => link :: chainFrom links bound link.parent

def chain (links : Array Link) (h : Handle) : List Link :=
  chainFrom links links.size h

def rootVariable? : List Link → Option Variable
  | [] => none
  | link :: rest =>
    match link.kind with
    | .var v => some v
    | .cast => none
    | .array _ | .struct _ => rootVariable? rest

def headType : List Link → Ty
  | [] => .absent
  | link :: _ => link.type

def isLocal (links : Array Link) (h : Handle) : Bool :=
  match h.bind (links[·]?) with
  | some link => link.mode == .local
  | none => false

def derefType (links : Array Link) (h : Handle) : Ty :=
  match h.bind (links[·]?) with
  | some link => link.type
  | none => .absent

def varLink (v : Variable) : Link :=
  ⟨.var v, none, v.type, v.mode⟩

def castLink (parent : Handle) (type : Ty) (mode : Mode) : Link :=
  ⟨.cast, parent, type, mode⟩

def arrayLink (links : Array Link) (parent : Handle) (index : Operand) : Except LinkError Link :=
  match parent.bind (links[·]?) with
  | none => .error (.notArray .absent)
  | some p =>
    if p.type.elementType = .absent then .error (.notArray p.type)
    else .ok ⟨.array index, parent, p.type.elementType, p.mode⟩

def structLink (links : Array Link) (parent : Handle) (field : Int) : Except LinkError Link :=
  match parent.bind (links[·]?) with
  | none => .error (.noField .absent field)
  | some p =>
    if p.type.fieldType field = .absent then .error (.noField p.type field)
    else .ok ⟨.struct field.toNat, parent, p.type.fieldType field, p.mode⟩

end ShaderIR
