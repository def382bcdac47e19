import TypeAlgebra.Construction

/-! Operators on values. They work on the leaves of their operands and forget refinements. -/
namespace TypeAlgebra

/-- The exact result, where it is an integer of 64 bits; a quotient is cut toward zero. -/
def Operator.onInts (op : Operator) (x y : Int) : Except Failure Int :=
  if op = .divide ∧ y = 0 then .error (.invalidArgument "a non-zero divisor" "0")
  else
    let result := match op with
      | .add => x + y
      | .subtract => x - y
      | .multiply => x * y
      | .divide => x.tdiv y
    if Integer.InRange result then .ok result
    else .error (.invalidArgument "a result that fits in an int"
      s!"{Integer.text x} {op.symbol} {Integer.text y}")

namespace Registry

/-- Applies an operator. A failure among the operands comes out again, the left one first. -/
def operate (r : Registry) (op : Operator) (a b : Value) : Except Failure Value :=
  match a.failure?.or b.failure? with
  | some failure => .error failure
  | none =>
    match op, a.leaf, b.leaf with
    | op, .int _ x, .int _ y => (op.onInts x y).map (.int .int)
    | .add, .str _ x, .str _ y => .ok (.str .str (x ++ y))
    | op, left, right =>
      .error (.unsupportedOperands op.symbol (r.name left.ty) (r.name right.ty))

end Registry
end TypeAlgebra
