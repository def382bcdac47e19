import TypeAlgebra.Session

/-! Operations that ask the policy wherever a failure arises, and go on with what they are handed. A failure that is
passed on is a value like any other from there on. -/
namespace TypeAlgebra.Session

/-- Reads a text as a value of a type, by the left side of a sum where this accepts it. -/
def readAtOnce (s : Session) (text : String) : Variants → Except Failure Value
  | .leaf ty =>
    match s.registry.get ty with
    | .primitive .. =>
      match s.registry.readLeaf? ty text with
      | some value => .ok value
      | none => s.report (.typeMismatch (s.registry.name ty) (Text.quoted text))
    | .product .. => s.report (.invalidArgument "a field map" "text")
    | .sum .. | .function .. | .failure =>
      s.report (.invalidArgument s!"text for <{s.registry.name ty}>" "text")
  | .node ty left right =>
    if s.registry.acceptsAny text left then (s.readAtOnce text left).map (.injection ty .inl)
    else if s.registry.acceptsAny text right then (s.readAtOnce text right).map (.injection ty .inr)
    else s.report (.typeMismatch (s.registry.name ty) (Text.quoted text))

/-- Fills the fields that are left, up to the first that is not given a value of its type. -/
def fillAtOnce (s : Session) (ty : Ty) (given : List (String × Source)) (filled : List (String × Value)) :
    List (String × Ty) → Except Failure Value
  | [] => .ok (.record ty filled)
  | (name, slot) :: rest =>
    let expected := s!"{s.registry.name slot} for field '{name}'"
    match given.lookup name with
    | some (.value value) =>
      match s.registry.view slot value with
      | some viewed => s.fillAtOnce ty given (filled ++ [(name, viewed)]) rest
      | none => s.report (.typeMismatch expected (s.registry.name value.ty))
    | some (.text text) => s.report (.expectedValue s!"text {Text.quoted text}")
    | some (.fields _) => s.report (.expectedValue "a field map")
    | none => s.report (.typeMismatch expected "nothing")

def makeAtOnce (s : Session) (ty : Ty) : Source → Except Failure Value
  | .value value =>
    match s.registry.view ty value with
    | some viewed => .ok viewed
    | none => s.report (.typeMismatch (s.registry.name ty) (s.registry.name value.ty))
  | .text text => s.readAtOnce text (s.registry.variants ty)
  | .fields given =>
    match s.registry.get ty with
    | .product _ declared => s.fillAtOnce ty given [] declared
    | _ => s.report (.invalidArgument s!"text for <{s.registry.name ty}>" "a field map")

def recordAtOnce (s : Session) (ty : Ty) (fields : List (String × Value)) : Except Failure Value :=
  s.makeAtOnce ty (.fields (fields.reverse.map fun (name, value) => (name, .value value)))

def fieldAtOnce (s : Session) (value : Value) (attr : String) : Except Failure Value :=
  match value.field? attr with
  | some field => .ok field
  | none => s.report (.undefinedAttribute attr (s.registry.name value.ty))

def operateOnInts (s : Session) (op : Operator) (x y : Int) : Except Failure Value :=
  let result := match op with
    | .add => x + y
    | .subtract => x - y
    | .multiply => x * y
    | .divide => x.tdiv y
  if op = .divide ∧ y = 0 then s.report (.invalidArgument "a non-zero divisor" "0")
  else if Integer.InRange result then .ok (.int .int result)
  else s.report (.invalidArgument "a result that fits in an int"
    s!"{Integer.text x} {op.symbol} {Integer.text y}")

def operateAtOnce (s : Session) (op : Operator) (a b : Value) : Except Failure Value :=
  match a.failure?.or b.failure? with
  | some failure => s.report failure
  | none =>
    match op, a.leaf, b.leaf with
    | op, .int _ x, .int _ y => s.operateOnInts op x y
    | .add, .str _ x, .str _ y => .ok (.str .str (x ++ y))
    | op, left, right =>
      s.report (.unsupportedOperands op.symbol (s.registry.name left.ty) (s.registry.name right.ty))

end TypeAlgebra.Session
