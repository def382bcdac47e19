import TypeAlgebra.Constraint
import TypeAlgebra.Integer

/-! Types and their forms. A type is a number, under which a form is registered that tells what the type
means. Two forms with the same key are forms of the same type. -/
namespace TypeAlgebra

structure Ty where
  index : Nat
  deriving DecidableEq

namespace Ty

instance : Ord Ty := ⟨fun a b => compare a.index b.index⟩

def int : Ty := ⟨0⟩
def str : Ty := ⟨1⟩
def error : Ty := ⟨2⟩

end Ty

inductive Primitive where
  | int
  | str
  deriving DecidableEq

namespace Primitive

def name : Primitive → String
  | .int => "int"
  | .str => "str"

/-- Whether the text is one of the primitive's, before any constraint. -/
def accepts (text : String) : Primitive → Bool
  | .int => (Integer.ofText? text).isSome
  | .str => true

end Primitive

/-- A type as a tree of alternatives: a leaf is no sum, a node is a sum and knows its two sides. -/
inductive Variants where
  | leaf (ty : Ty)
  | node (ty : Ty) (left right : Variants)
  deriving DecidableEq

namespace Variants

def ty : Variants → Ty
  | .leaf ty => ty
  | .node ty _ _ => ty

/-- The union of two sets of types, each in ascending order. -/
def unite (a b : List Ty) : List Ty := a.foldr (Sorted.insert id) b

/-- The leaves as a set, in ascending order. -/
def leaves : Variants → List Ty
  | .leaf ty => [ty]
  | .node _ left right => unite left.leaves right.leaves

end Variants

inductive Form where
  | primitive (base : Primitive) (constraints : List Constraint)
  | sum (name : String) (left right : Variants)
  | product (name : String) (fields : List (String × Ty))
  /-- Argument types in call order, then the result type. -/
  | function (name : String) (signature : List Ty)
  | failure

namespace Form

/-- What makes a type the type it is. -/
inductive Key where
  | refined (base : Primitive) (constraints : List Constraint.Key)
  /-- Neither order nor nesting of the alternatives matters, only which leaves there are. -/
  | sum (leaves : List Ty)
  | product (name : String) (fields : List (String × Ty))
  | function (signature : List Ty)
  | failure
  deriving DecidableEq

def name : Form → String
  | .primitive base _ => base.name
  | .sum name _ _ => name
  | .product name _ => name
  | .function name _ => name
  | .failure => "error"

def constraints : Form → List Constraint
  | .primitive _ constraints => constraints
  | _ => []

/-- The name, marked with a star where constraints narrow the type. -/
def display (form : Form) : String :=
  if form.constraints.isEmpty then form.name else form.name ++ "*"

def base? : Form → Option Primitive
  | .primitive base _ => some base
  | _ => none

def fields? : Form → Option (List (String × Ty))
  | .product _ fields => some fields
  | _ => none

def signature? : Form → Option (List Ty)
  | .function _ signature => some signature
  | _ => none

/-- Whether the text meets all constraints. -/
def admits (form : Form) (text : String) : Bool :=
  form.constraints.all (·.holds text)

def key : Form → Key
  | .primitive base constraints => .refined base (constraints.map (·.key))
  | .sum _ left right => .sum (Variants.unite left.leaves right.leaves)
  | .product name fields => .product name fields
  | .function _ signature => .function signature
  | .failure => .failure

end Form
end TypeAlgebra
