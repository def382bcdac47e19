import TypeAlgebra.Value

/-! Viewing a value as a value of another type. A value is of its own type; an injected one is also of
the type of each value inside it, and of every sum that has its leaf. -/
namespace TypeAlgebra

/-- Wraps a leaf in the injections that lead to it, by the left side where both have it. -/
def Value.wrap (leaf : Value) : Variants → Option Value
  | .leaf ty => if leaf.ty = ty then some leaf else none
  | .node ty left right =>
    if leaf.ty = ty then some leaf
    else if leaf.ty ∈ left.leaves then (leaf.wrap left).map (.injection ty .inl)
    else if leaf.ty ∈ right.leaves then (leaf.wrap right).map (.injection ty .inr)
    else none

namespace Registry

/-- The value as one of the type, if it is one. -/
def view (r : Registry) (ty : Ty) : Value → Option Value
  | .injection own side inner =>
    if own = ty then some (.injection own side inner)
    else (r.view ty inner).or (inner.leaf.wrap (r.variants ty))
  | value => if value.ty = ty then some value else none

def belongs (r : Registry) (value : Value) (ty : Ty) : Bool := (r.view ty value).isSome

end Registry
end TypeAlgebra
