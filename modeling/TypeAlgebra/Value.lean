import TypeAlgebra.Policy
import TypeAlgebra.Registry

/-! Values that know their type. A function value holds the arguments it was given so far, and a
lambda whose body is data, so that values can be compared, weighed and shown. -/
namespace TypeAlgebra

inductive Side where
  | inl
  | inr
  deriving DecidableEq

def Side.text : Side → String
  | .inl => "inl"
  | .inr => "inr"

inductive Operator where
  | add
  | subtract
  | multiply
  | divide
  deriving DecidableEq

def Operator.symbol : Operator → String
  | .add => "+"
  | .subtract => "-"
  | .multiply => "*"
  | .divide => "/"

mutual

inductive Value where
  | int (ty : Ty) (n : Int)
  | str (ty : Ty) (text : String)
  | record (ty : Ty) (fields : List (String × Value))
  /-- A value of one side of a sum, viewed as a value of the sum. -/
  | injection (ty : Ty) (side : Side) (inner : Value)
  | closure (ty : Ty) (lambda : Lambda) (applied : List Value)
  | failure (e : Failure)

/-- A function as it was made: its serial number tells it from all others of the session. -/
structure Lambda where
  serial : Nat
  name : String
  /-- Argument types in call order, then the result type. -/
  signature : List Ty
  body : Body

/-- What a function does once it has all its arguments. -/
inductive Body where
  /-- Gives back one of the arguments. -/
  | argument (index : Nat)
  /-- Gives a value known when the function was made. -/
  | constant (value : Value)
  /-- Fails under the policy in force. -/
  | report (failure : Failure)
  /-- Fails, whatever the policy. -/
  | raise (failure : Failure)
  /-- Views the first argument as a value of a type. -/
  | cast (ty : Ty)
  /-- Combines all arguments by an operator, from the left. -/
  | fold (operator : Operator)
  /-- Joins the texts of the arguments. -/
  | concat
  /-- Gives a field of the first argument. -/
  | field (attr : String)
  /-- Hands all arguments to another function. -/
  | delegate (function : Value)
  /-- Changes the policy and gives back the first argument. -/
  | setPolicy (policy : Policy)
  /-- Hands the argument to the first function whose domain it belongs to. -/
  | dispatch (leftDomain : Ty) (left : Value) (rightDomain : Ty) (right : Value) (domain : Ty)
  /-- Hands the fields of the record given to another function. -/
  | spread (function : Value)

end

namespace Value

def ty : Value → Ty
  | .int ty _ => ty
  | .str ty _ => ty
  | .record ty _ => ty
  | .injection ty _ _ => ty
  | .closure ty _ _ => ty
  | .failure _ => .error

/-- The value without its injections. -/
def leaf : Value → Value
  | .injection _ _ inner => inner.leaf
  | value => value

def failure? : Value → Option Failure
  | .failure e => some e
  | _ => none

def isFailure (value : Value) : Bool := value.failure?.isSome

def lambda? : Value → Option Lambda
  | .closure _ lambda _ => some lambda
  | _ => none

def fields? : Value → Option (List (String × Value))
  | .record _ fields => some fields
  | _ => none

def field? (value : Value) (attr : String) : Option Value :=
  value.fields?.bind (·.lookup attr)

mutual

/-- Whether two values are the same; lambdas are compared by their serial numbers. -/
def same : Value → Value → Bool
  | .int ty m, .int ty' n => ty = ty' && m = n
  | .str ty s, .str ty' t => ty = ty' && s = t
  | .record ty fs, .record ty' gs => ty = ty' && sameFields fs gs
  | .injection ty side t, .injection ty' side' u => ty = ty' && side = side' && same t u
  | .closure ty f ts, .closure ty' g us => ty = ty' && f.serial = g.serial && sameAll ts us
  | .failure e, .failure e' => e = e'
  | _, _ => false

def sameFields : List (String × Value) → List (String × Value) → Bool
  | [], [] => true
  | f :: fs, g :: gs => sameField f g && sameFields fs gs
  | _, _ => false

def sameField : String × Value → String × Value → Bool
  | (name, t), (name', u) => name = name' && same t u

def sameAll : List Value → List Value → Bool
  | [], [] => true
  | t :: ts, u :: us => same t u && sameAll ts us
  | _, _ => false

end

mutual

/-- The value and the name of its type. -/
def display (r : Registry) : Value → String
  | .int ty n => s!"{Integer.text n} : {r.name ty}"
  | .str ty text => s!"{text} : {r.name ty}"
  | .record ty fields => "[" ++ ", ".intercalate (displayFields r fields) ++ s!"] : {r.name ty}"
  | .injection ty side inner => s!"{side.text}({inner.display r}) : {r.name ty}"
  | .closure ty lambda [] => s!"{lambda.name} : {r.name ty}"
  | .closure ty lambda _ => s!"klambda<{lambda.name}> : {r.name ty}"
  | .failure e => s!"{e.message} : {r.name .error}"

def displayFields (r : Registry) : List (String × Value) → List String
  | [] => []
  | field :: rest => displayField r field :: displayFields r rest

def displayField (r : Registry) : String × Value → String
  | (_, value) => value.display r

end

end Value
end TypeAlgebra
