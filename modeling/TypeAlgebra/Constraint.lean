import TypeAlgebra.Failure
import TypeAlgebra.Sorted

/-! Constraints on text. A constraint is known by its key: a predicate by the key it was given, a length
or a terminator by itself. -/
namespace TypeAlgebra

structure Predicate where
  key : String
  test : String → Bool

namespace Predicate

def equals (text : String) : Predicate := ⟨s!"equals={text}", fun candidate => candidate = text⟩

/-- Whether `part` stands somewhere in `whole`. -/
def occurs (part : List Char) : List Char → Bool
  | [] => part.isEmpty
  | c :: rest => part.isPrefixOf (c :: rest) || occurs part rest

def contains (text : String) : Predicate :=
  ⟨s!"contains={text}", fun candidate => occurs text.toList candidate.toList⟩

end Predicate

inductive Constraint where
  | predicate (p : Predicate)
  /-- The text has exactly this many characters. -/
  | sizeEq (size : Nat)
  /-- The text stops before this character, so it does not hold it. -/
  | endsOn (terminator : Char)

namespace Constraint

inductive Key where
  | predicate (key : String)
  | sizeEq (size : Nat)
  | endsOn (terminator : Char)
  deriving DecidableEq

namespace Key

def rank : Key → Nat
  | .predicate _ => 0
  | .sizeEq _ => 1
  | .endsOn _ => 2

/-- Predicates come first, then lengths, then terminators. -/
instance : Ord Key where
  compare
    | .predicate a, .predicate b => compare a b
    | .sizeEq a, .sizeEq b => compare a b
    | .endsOn a, .endsOn b => compare a b
    | a, b => compare a.rank b.rank

end Key

def key : Constraint → Key
  | .predicate p => .predicate p.key
  | .sizeEq size => .sizeEq size
  | .endsOn terminator => .endsOn terminator

def holds (text : String) : Constraint → Bool
  | .predicate p => p.test text
  | .sizeEq size => text.length = size
  | .endsOn terminator => !text.toList.contains terminator

end Constraint

/-- What one step of refinement asks for, each part at most once. -/
structure Refinement where
  predicate : Option Predicate := none
  sizeEq : Option Nat := none
  endsOn : Option Char := none

def Refinement.constraints (r : Refinement) : List Constraint :=
  (r.predicate.map .predicate).toList ++ (r.sizeEq.map .sizeEq).toList ++
    (r.endsOn.map .endsOn).toList

end TypeAlgebra
