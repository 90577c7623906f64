/-!
# Shader types

A type is a scalar, a vector, an array or a struct. `absent` stands where no type is known: the
element of something that is no array, or the field of something that has no such field. Lengths
and component counts are the signed 64-bit integers that descriptions may state, so they are kept
as `Int` and no constructor checks them.
-/

set_option autoImplicit false

namespace ShaderIR

/-- What one component holds. `other` is a number beyond the known bases. -/
inductive Base where
  | float
  | double
  | int
  | uint
  | int64
  | uint64
  | bool
  | other (number : Nat)
  deriving DecidableEq, Repr, Inhabited

namespace Base

def ofNumber : Nat → Base
  | 0 => float
  | 1 => double
  | 2 => int
  | 3 => uint
  | 4 => int64
  | 5 => uint64
  | 6 => bool
  | n => other n

def name : Base → String
  | float => "float"
  | double => "double"
  | int => "int"
  | uint => "uint"
  | int64 => "int64"
  | uint64 => "uint64"
  | bool => "bool"
  | other _ => "?"

def vectorStem : Base → String
  | float => "vec"
  | double => "dvec"
  | int => "ivec"
  | uint => "uvec"
  | int64 => "i64vec"
  | uint64 => "u64vec"
  | bool => "bvec"
  | other _ => "?vec"

def bits : Base → Int
  | double | int64 | uint64 => 64
  | bool => 1
  | _ => 32

end Base

inductive Ty where
  | absent
  | scalar (base : Base)
  | vector (base : Base) (components : Int)
  | array (elem : Ty) (length : Int)
  | struct (name : String) (fields : List (String × Ty))
  deriving Inhabited

namespace Ty

mutual

def same : Ty → Ty → Bool
  | absent, absent => true
  | scalar a, scalar b => a == b
  | vector a n, vector b m => a == b && n == m
  | array a n, array b m => n == m && same a b
  | struct a fs, struct b gs => a == b && sameFields fs gs
  | _, _ => false

def sameFields : List (String × Ty) → List (String × Ty) → Bool
  | [], [] => true
  | (a, t) :: fs, (b, u) :: gs => a == b && same t u && sameFields fs gs
  | _, _ => false

end

mutual

theorem eq_of_same : (a b : Ty) → same a b = true → a = b
  | absent, b, h => by cases b <;> simp_all [same]
  | scalar _, b, h => by cases b <;> simp_all [same]
  | vector _ _, b, h => by cases b <;> simp_all [same]
  | array t _, b, h => by
    cases b with
    | array u _ =>
      simp only [same, Bool.and_eq_true, beq_iff_eq] at h
      rw [h.1, eq_of_same t u h.2]
    | _ => simp [same] at h
  | struct _ fs, b, h => by
    cases b with
    | struct _ gs =>
      simp only [same, Bool.and_eq_true, beq_iff_eq] at h
      rw [h.1, eq_of_sameFields fs gs h.2]
    | _ => simp [same] at h

theorem eq_of_sameFields : (fs gs : List (String × Ty)) → sameFields fs gs = true → fs = gs
  | [], gs, h => by cases gs <;> simp_all [sameFields]
  | (_, t) :: fs, gs, h => by
    cases gs with
    | nil => simp [sameFields] at h
    | cons g gs =>
      simp only [sameFields, Bool.and_eq_true, beq_iff_eq] at h
      rw [h.1.1, eq_of_same t g.2 h.1.2, eq_of_sameFields fs gs h.2]

end

mutual

theorem same_refl : (a : Ty) → same a a = true
  | absent => rfl
  | scalar _ => by simp [same]
  | vector _ _ => by simp [same]
  | array t _ => by simp [same, same_refl t]
  | struct _ fs => by simp [same, sameFields_refl fs]

theorem sameFields_refl : (fs : List (String × Ty)) → sameFields fs fs = true
  | [] => rfl
  | (_, t) :: fs => by simp [sameFields, same_refl t, sameFields_refl fs]

end

theorem same_iff (a b : Ty) : same a b = true ↔ a = b :=
  ⟨eq_of_same a b, fun h => h ▸ same_refl a⟩

instance : DecidableEq Ty := fun a b =>
  decidable_of_iff (same a b = true) (same_iff a b)

def vec (base : Base) (n : Int) : Ty :=
  if n = 1 then scalar base else vector base n

def vec4 : Ty := vector .float 4

def isVectorOrScalar : Ty → Bool
  | scalar _ | vector _ _ => true
  | _ => false

def components : Ty → Int
  | scalar _ => 1
  | vector _ n => n
  | _ => 0

def bits : Ty → Int
  | scalar b | vector b _ => b.bits
  | _ => 0

def length : Ty → Int
  | array _ n | vector _ n => n
  | struct _ fs => fs.length
  | _ => 0

def elementType : Ty → Ty
  | array t _ => t
  | _ => absent

def fieldType : Ty → Int → Ty
  | struct _ fs, .ofNat i => (fs[i]?.map Prod.snd).getD absent
  | _, _ => absent

def fieldIndex : Ty → String → Option Nat
  | struct _ fs, name => fs.findIdx? (·.1 == name)
  | _, _ => none

end Ty

end ShaderIR
