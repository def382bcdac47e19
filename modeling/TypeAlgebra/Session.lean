import TypeAlgebra.Arithmetic
import TypeAlgebra.Formation

/-! A session: a registry of types and the settings it is used under. Operations that make types or
functions, or run functions, give a result and the session after it; others only read the session. -/
namespace TypeAlgebra

/-- Hands a result over as the policy says: a failure is raised, or passed on as a value. -/
def Policy.handOver : Policy → Except Failure Value → Except Failure Value
  | .pass, .error failure => .ok (.failure failure)
  | _, result => result

structure Session where
  registry : Registry
  policy : Policy
  /-- The character around the field names of a layout. -/
  marker : Char
  /-- How many lambdas the session has made. -/
  lambdas : Nat

abbrev Outcome (α : Type) := Except Failure α × Session

/-- Goes on with a result, in the session after it. -/
def Outcome.andThen {α β : Type} (outcome : Outcome α) (next : α → Session → Outcome β) : Outcome β :=
  match outcome with
  | (.error failure, s) => (.error failure, s)
  | (.ok a, s) => next a s

namespace Session

def start (policy : Policy) (marker : Char) : Session :=
  { registry := .initial, policy, marker, lambdas := 0 }

/-- Fails under the policy in force. -/
def report (s : Session) (failure : Failure) : Except Failure Value :=
  s.policy.handOver (.error failure)

theorem isFailure_of_report {s : Session} {failure : Failure} {value : Value} (h : s.report failure = .ok value) :
    value.isFailure := by
  unfold report Policy.handOver at h
  split at h
  · cases h; rfl
  · contradiction

/-- Keeps the registry that an operation made, if it made one. -/
def adopt {α : Type} (s : Session) : Except Failure (α × Registry) → Outcome α
  | .ok (a, registry) => (.ok a, { s with registry })
  | .error failure => (.error failure, s)

def refine (s : Session) (ty : Ty) (refinement : Refinement) : Outcome Ty :=
  s.adopt (s.registry.refine ty refinement)

def union (s : Session) (a b : Ty) : Outcome Ty := s.adopt (.ok (s.registry.union a b))

def product (s : Session) (fields : List (String × Ty)) : Outcome Ty :=
  s.adopt (s.registry.product fields)

def namedProduct (s : Session) (name : String) (fields : List (String × Ty)) : Outcome Ty :=
  s.adopt (s.registry.namedProduct name fields)

def functionType (s : Session) (signature : List Ty) : Outcome Ty :=
  s.adopt (.ok (s.registry.functionType signature))

def declare (s : Session) (name : String) (ty : Ty) : Outcome Unit :=
  s.adopt ((s.registry.declare name ty).map fun registry => ((), registry))

def make (s : Session) (ty : Ty) (source : Source) : Except Failure Value :=
  s.policy.handOver (s.registry.make ty source)

def record (s : Session) (ty : Ty) (fields : List (String × Value)) : Except Failure Value :=
  s.policy.handOver (s.registry.record ty fields)

def field (s : Session) (value : Value) (attr : String) : Except Failure Value :=
  s.policy.handOver (s.registry.field value attr)

def operate (s : Session) (op : Operator) (a b : Value) : Except Failure Value :=
  s.policy.handOver (s.registry.operate op a b)

end Session
end TypeAlgebra
