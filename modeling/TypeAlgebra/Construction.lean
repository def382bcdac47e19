import TypeAlgebra.View

/-! Making values: from a text, from a value of another type, from named fields. -/
namespace TypeAlgebra

/-- What a value is made from. -/
inductive Source where
  | text (text : String)
  | value (value : Value)
  | fields (fields : List (String × Source))

/-- The text of a number, from which its value is made. -/
def Source.ofInt (n : Int) : Source := .text (Integer.text n)

namespace Registry

/-- Whether the text is one of a type without alternatives. -/
def acceptsLeaf (r : Registry) (ty : Ty) (text : String) : Bool :=
  match r.get ty with
  | .primitive base constraints => base.accepts text && constraints.all (·.holds text)
  | _ => false

def acceptsAny (r : Registry) (text : String) : Variants → Bool
  | .leaf ty => r.acceptsLeaf ty text
  | .node _ left right => r.acceptsAny text left || r.acceptsAny text right

/-- Whether the text is one of the type. Only primitive types and sums of them have texts. -/
def accepts (r : Registry) (ty : Ty) (text : String) : Bool := r.acceptsAny text (r.variants ty)

/-- The value of a type without alternatives that a text is. -/
def readLeaf? (r : Registry) (ty : Ty) (text : String) : Option Value :=
  match r.get ty with
  | .primitive .int constraints =>
    if constraints.all (·.holds text) then (Integer.ofText? text).map (.int ty) else none
  | .primitive .str constraints =>
    if constraints.all (·.holds text) then some (.str ty text) else none
  | _ => none

/-- The value that a text is, by the left side of a sum where both sides have the text. -/
def readAny? (r : Registry) (text : String) : Variants → Option Value
  | .leaf ty => r.readLeaf? ty text
  | .node ty left right =>
    ((r.readAny? text left).map (.injection ty .inl)).or
      ((r.readAny? text right).map (.injection ty .inr))

def read? (r : Registry) (ty : Ty) (text : String) : Option Value := r.readAny? text (r.variants ty)

theorem isSome_readLeaf? (r : Registry) (ty : Ty) (text : String) :
    (r.readLeaf? ty text).isSome = r.acceptsLeaf ty text := by
  unfold readLeaf? acceptsLeaf
  cases r.get ty with
  | primitive base constraints =>
    cases base <;> dsimp only <;> cases constraints.all (·.holds text) <;> simp [Primitive.accepts]
  | sum | product | function | failure => rfl

/-- The texts that can be read are those that are accepted. -/
theorem isSome_readAny? (r : Registry) (text : String) (v : Variants) :
    (r.readAny? text v).isSome = r.acceptsAny text v := by
  induction v with
  | leaf ty => exact r.isSome_readLeaf? ty text
  | node ty left right ihl ihr => simp [readAny?, acceptsAny, Option.isSome_or, ihl, ihr]

theorem isSome_read? (r : Registry) (ty : Ty) (text : String) :
    (r.read? ty text).isSome = r.accepts ty text := r.isSome_readAny? text (r.variants ty)

/-- The value of one field of a record, as one of the type declared for it. -/
def fieldValue (r : Registry) (name : String) (ty : Ty) : Option Source → Except Failure Value
  | some (.value value) =>
    match r.view ty value with
    | some viewed => .ok viewed
    | none => .error (.typeMismatch s!"{r.name ty} for field '{name}'" (r.name value.ty))
  | some (.text text) => .error (.expectedValue s!"text {Text.quoted text}")
  | some (.fields _) => .error (.expectedValue "a field map")
  | none => .error (.typeMismatch s!"{r.name ty} for field '{name}'" "nothing")

/-- The fields in declared order, or the first failure among them. Others that were given are ignored. -/
def recordFields (r : Registry) (given : List (String × Source)) :
    List (String × Ty) → Except Failure (List (String × Value))
  | [] => .ok []
  | (name, ty) :: rest =>
    match r.fieldValue name ty (given.lookup name) with
    | .error failure => .error failure
    | .ok value => (r.recordFields given rest).map ((name, value) :: ·)

/-- Views a value as one of the type, reads a text as one, or makes a record of fields. -/
def make (r : Registry) (ty : Ty) : Source → Except Failure Value
  | .value value =>
    match r.view ty value with
    | some viewed => .ok viewed
    | none => .error (.typeMismatch (r.name ty) (r.name value.ty))
  | .text text =>
    match r.get ty with
    | .primitive .. | .sum .. =>
      match r.read? ty text with
      | some value => .ok value
      | none => .error (.typeMismatch (r.name ty) (Text.quoted text))
    | .product .. => .error (.invalidArgument "a field map" "text")
    | .function .. | .failure => .error (.invalidArgument s!"text for <{r.name ty}>" "text")
  | .fields given =>
    match r.get ty with
    | .product _ declared => (r.recordFields given declared).map (.record ty)
    | _ => .error (.invalidArgument s!"text for <{r.name ty}>" "a field map")

/-- The record of the values given; a name given twice counts as given last. -/
def record (r : Registry) (ty : Ty) (fields : List (String × Value)) : Except Failure Value :=
  r.make ty (.fields (fields.reverse.map fun (name, value) => (name, .value value)))

/-- The field of a record under a name. -/
def field (r : Registry) (value : Value) (attr : String) : Except Failure Value :=
  match value.field? attr with
  | some field => .ok field
  | none => .error (.undefinedAttribute attr (r.name value.ty))

end Registry
end TypeAlgebra
