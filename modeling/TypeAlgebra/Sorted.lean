/-! Lists kept in strictly ascending order of a key. -/
namespace TypeAlgebra.Sorted

variable {α κ : Type} [Ord κ]

/-- Adds an element; one with the same key that is already there stays. -/
def insert (key : α → κ) (a : α) : List α → List α
  | [] => [a]
  | b :: rest =>
    match compare (key a) (key b) with
    | .lt => a :: b :: rest
    | .eq => b :: rest
    | .gt => b :: insert key a rest

/-- Binds a key to a value in place of the value it had. -/
def put {β : Type} (k : κ) (value : β) : List (κ × β) → List (κ × β)
  | [] => [(k, value)]
  | (j, other) :: rest =>
    match compare k j with
    | .lt => (k, value) :: (j, other) :: rest
    | .eq => (k, value) :: rest
    | .gt => (j, other) :: put k value rest

end TypeAlgebra.Sorted
