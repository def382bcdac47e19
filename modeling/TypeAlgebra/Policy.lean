import TypeAlgebra.Failure

/-! What a session does with a failure: raise it, or pass it on as a value. -/
namespace TypeAlgebra

inductive Policy where
  | raise
  | pass
  deriving DecidableEq

namespace Policy

def text : Policy → String
  | .raise => "raise"
  | .pass => "pass"

def ofText (text : String) : Except Failure Policy :=
  if text = "raise" then .ok .raise
  else if text = "pass" then .ok .pass
  else .error (.invalidArgument "error policy `raise` or `pass`" s!"`{text}`")

end Policy
end TypeAlgebra
