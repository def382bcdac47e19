import TypeAlgebra.Registry

/-! How types are formed from types: refinement, union, product and function signature. Forming a type
that is there already gives that type and registers nothing. -/
namespace TypeAlgebra.Registry

/-- Narrows a primitive type by further constraints; one whose key is there already changes nothing. -/
def refine (r : Registry) (ty : Ty) (refinement : Refinement) : Except Failure (Ty × Registry) :=
  match refinement.constraints with
  | [] => .ok (ty, r)
  | added =>
    match r.get ty with
    | .primitive base constraints =>
      .ok (r.intern (.primitive base
        (added.foldl (fun all c => Sorted.insert (·.key) c all) constraints)))
    | other => .error (.invalidArgument "a primitive type to refine" s!"<{other.display}>")

/-- The sum of two types. A union with a single leaf is that leaf. -/
def union (r : Registry) (a b : Ty) : Ty × Registry :=
  match Variants.unite (r.leaves a) (r.leaves b) with
  | [_] => (a, r)
  | _ =>
    let sum := Form.sum s!"{r.name a} | {r.name b}" (r.variants a) (r.variants b)
    r.internAs (.sum (Variants.unite (r.leaves a) (r.leaves b))) sum
      (by rw [← r.leaves_variants, ← r.leaves_variants]; rfl)

/-- The first name that stood in the list before. -/
def firstRepeated? (seen : List String) : List String → Option String
  | [] => none
  | name :: rest => if name ∈ seen then some name else firstRepeated? (name :: seen) rest

/-- Why the fields make no product: two of them have one name. -/
def repeated? (fields : List (String × Ty)) : Option Failure :=
  (firstRepeated? [] (fields.map (·.1))).map fun name =>
    .invalidArgument "unique field names" s!"`{name}` twice"

/-- The product of the fields, called by the names of their types. -/
def product (r : Registry) (fields : List (String × Ty)) : Except Failure (Ty × Registry) :=
  match repeated? fields with
  | some failure => .error failure
  | none => .ok (r.intern (.product (" & ".intercalate (fields.map fun (_, ty) => r.name ty)) fields))

/-- The product of the fields under a name, which it also declares. -/
def namedProduct (r : Registry) (name : String) (fields : List (String × Ty)) :
    Except Failure (Ty × Registry) :=
  match repeated? fields, r.lookup name with
  | some failure, _ => .error failure
  | none, some bound =>
    if r.find? (.product name fields) = some bound then .ok (bound, r)
    else .error (.alreadyDefined name)
  | none, none =>
    let (ty, r) := r.intern (.product name fields)
    (r.declare name ty).map fun r => (ty, r)

def functionType (r : Registry) (signature : List Ty) : Ty × Registry :=
  r.intern (.function (" -> ".intercalate (signature.map r.name)) signature)

/-- The first product whose fields have exactly these types, in order. -/
def productOf? (r : Registry) (types : List Ty) : Option Ty :=
  (r.forms.findIdx? fun form => form.fields?.map (·.map (·.2)) = some types).map Ty.mk

end TypeAlgebra.Registry
