import TypeAlgebra.Text.Quoted

/-! Causes of failure, and the sentence that reports each. -/
namespace TypeAlgebra

inductive Failure where
  | typeMismatch (expected got : String)
  | invalidArgument (expected got : String)
  | unsupportedOperands (op left right : String)
  | expectedValue (got : String)
  | invalidCombination (reason : String)
  | undefinedAttribute (attr ty : String)
  | uncallable (display : String)
  | alreadyDefined (name : String)
  | literalMismatch (expected got : Char) (offset : Nat)
  | unknownField (name : String)
  | unterminatedField (text : String)
  | missingField (name : String)
  | unexpectedEnd (awaited : String)
  deriving DecidableEq

def Failure.message : Failure → String
  | .typeMismatch expected got => s!"type mismatch: expected <{expected}> but got <{got}>"
  | .invalidArgument expected got => s!"expected argument of {expected} but got {got}"
  | .unsupportedOperands op left right =>
    s!"unsupported operand types: cannot '{op}' <{left}> with <{right}>"
  | .expectedValue got => s!"expected token of a type, but got {got}"
  | .invalidCombination reason => s!"invalid 'or' usage: {reason}"
  | .undefinedAttribute attr ty =>
    s!"invalid attribute: product type <{ty}> has no attribute '{attr}'"
  | .uncallable display => s!"<{display}> is not callable"
  | .alreadyDefined name => s!"named type `{name}` is already defined"
  | .literalMismatch expected got offset =>
    let wanted := Text.quotedChar expected
    let found := Text.quotedChar got
    s!"failed to match text delimiter: expected {wanted} but got {found} at offset {offset}"
  | .unknownField name => s!"unknown field name `{name}` in format string"
  | .unterminatedField text => s!"unterminated field `{text}` in format string"
  | .missingField name => s!"format string has no slot for field `{name}`"
  | .unexpectedEnd awaited => s!"unexpected end of input while matching {awaited}"

end TypeAlgebra
