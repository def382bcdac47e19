import TypeAlgebra.Application

/-! Functions made from functions: one that dispatches over the sum of two domains, and one that takes a
record in place of its fields. -/
namespace TypeAlgebra.Session

/-- Domain and result type of a function that takes one more argument. -/
def oneArgument (s : Session) (function : Value) : Except Failure (Ty × Ty) :=
  match function.lambda?, s.registry.signature? function.ty with
  | none, _ => .error (.invalidCombination "cannot 'or' tokens of non-function types")
  | some _, some [domain, result] => .ok (domain, result)
  | some _, _ => .error (.invalidCombination "cannot 'or' curried-functions")

/-- Why two functions of one argument can't be combined. -/
def conflict? (s : Session) (a b : Ty × Ty) : Option String :=
  if a.2 ≠ b.2 then some "cannot 'or' functions with differing return types"
  else if a.1 = b.1 then some "cannot 'or' functions defined over the same domain"
  else if (s.registry.leaves a.1).any (· ∈ s.registry.leaves b.1) then
    some "cannot 'or' functions with overlapping domains"
  else none

def lambdaName (function : Value) : String :=
  match function.lambda? with
  | some lambda => lambda.name
  | none => "?"

/-- The domains of two functions and their common result type, if they can be combined. -/
def combinable (s : Session) (a b : Value) : Except Failure (Ty × Ty × Ty) :=
  match s.oneArgument a, s.oneArgument b with
  | .error failure, _ => .error failure
  | _, .error failure => .error failure
  | .ok left, .ok right =>
    match s.conflict? left right with
    | some reason => .error (.invalidCombination reason)
    | none => .ok (left.1, right.1, left.2)

/-- The function over the sum of two domains that does what the function of the argument's domain does. -/
def either (s : Session) (a b : Value) : Outcome Value :=
  match s.combinable a b with
  | .error failure => (s.report failure, s)
  | .ok (left, right, result) =>
    let (domain, registry) := s.registry.union left right
    let (value, s) := { s with registry }.makeLambda s!"{lambdaName a} | {lambdaName b}"
      [domain, result] (.dispatch left a right b domain)
    (.ok value, s)

/-- The product over a function's arguments, and its result type. -/
def recordDomain (s : Session) (function : Value) : Except Failure (Ty × Ty) :=
  match function.lambda?, s.registry.signature? function.ty with
  | some _, some (first :: rest) =>
    let domain := (first :: rest).dropLast
    match s.registry.productOf? domain with
    | some product => .ok (product, rest.getLastD first)
    | none =>
      let names := ", ".intercalate (domain.map s.registry.name)
      .error (.invalidArgument "a product type declared over the function's arguments" s!"[{names}]")
  | _, _ => .error (.uncallable (function.display s.registry))

/-- The function that takes a record of the earliest product over a function's arguments. -/
def overRecord (s : Session) (function : Value) : Outcome Value :=
  match s.recordDomain function with
  | .error failure => (s.report failure, s)
  | .ok (product, result) =>
    let (value, s) := s.makeLambda s!"ind<{lambdaName function}>" [product, result]
      (.spread function)
    (.ok value, s)

end TypeAlgebra.Session
