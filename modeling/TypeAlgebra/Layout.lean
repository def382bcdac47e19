import TypeAlgebra.Construction

/-! How a record is laid out in text: literal text with slots in it. In writing, a slot is the name of a
field between two markers; read for a product, it has the type of its field. -/
namespace TypeAlgebra

inductive Segment where
  /-- Text that must stand there as it is. -/
  | literal (text : List Char)
  /-- The text of a field. -/
  | slot (name : String) (ty : Ty)
  deriving DecidableEq

namespace Segment

def slotName? : Segment → Option String
  | .slot name _ => some name
  | .literal _ => none

def isSlot (segment : Segment) : Bool := segment.slotName?.isSome

/-- What a message calls the segment. -/
def described : Segment → String
  | .literal text => "literal " ++ Text.between '\x22' text
  | .slot name _ => s!"field '{name}'"

end Segment

structure Layout where
  product : Ty
  segments : List Segment

namespace Layout

/-- The stretches of text before, between and after the markers. -/
def pieces (marker : Char) : List Char → List (List Char)
  | [] => [[]]
  | c :: rest =>
    if c = marker then [] :: pieces marker rest
    else match pieces marker rest with
      | [] => [[c]]
      | piece :: others => (c :: piece) :: others

/-- Whether each alternative is a primitive type. -/
def readable (r : Registry) : Variants → Bool
  | .leaf ty => (r.get ty).base?.isSome
  | .node _ left right => readable r left && readable r right

/-- The slot of a field that has texts. -/
def slot (r : Registry) (fields : List (String × Ty)) (name : String) : Except Failure Segment :=
  match fields.lookup name with
  | none => .error (.unknownField name)
  | some ty =>
    if readable r (r.variants ty) then .ok (.slot name ty)
    else .error (.invalidArgument s!"a text type for field '{name}'" s!"<{r.name ty}>")

def literal (text : List Char) : List Segment :=
  if text = [] then [] else [.literal text]

/-- The segments of pieces that are literals and field names in turn, a name before another literal. -/
def ofPieces (r : Registry) (fields : List (String × Ty)) :
    List (List Char) → Except Failure (List Segment)
  | [] => .ok []
  | [text] => .ok (literal text)
  | [_, name] => .error (.unterminatedField (String.ofList name))
  | text :: name :: rest =>
    match slot r fields (String.ofList name) with
    | .error failure => .error failure
    | .ok segment => (ofPieces r fields rest).map fun others => literal text ++ segment :: others

/-- Reads the layout written in a text. It needs a slot for every field of the product. -/
def ofText (r : Registry) (marker : Char) (product : Ty) (text : String) : Except Failure Layout :=
  match r.fields? product with
  | none => .error (.invalidArgument "a product type to parse into" s!"<{r.name product}>")
  | some fields =>
    match ofPieces r fields (pieces marker text.toList) with
    | .error failure => .error failure
    | .ok [] => .error (.invalidArgument "a non-empty format" (Text.quoted text))
    | .ok segments =>
      match fields.find? fun (name, _) => some name ∉ segments.map (·.slotName?) with
      | some (name, _) => .error (.missingField name)
      | none => .ok { product, segments }

end Layout
end TypeAlgebra
