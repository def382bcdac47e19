import TypeAlgebra.Blueprint
import TypeAlgebra.Stream

/-! What a blueprint sets up: a session, with the record type and the layout. Types are built in the order
of their names, each after the types that it refers to. -/
namespace TypeAlgebra

/-- What is wrong with a blueprint. -/
inductive Flaw where
  | builtIn (name : String)
  | unknown (name : String)
  | circular (name : String)
  /-- The declaration is neither a refinement of a base nor a union of two types or more. -/
  | malformed (name : String)
  | failed (failure : Failure)
  deriving DecidableEq

def Flaw.message : Flaw → String
  | .builtIn name => s!"The type '{name}' is built in and can't be redefined"
  | .unknown name => s!"Unknown type '{name}'"
  | .circular name => s!"The type '{name}' is defined in terms of itself"
  | .malformed name =>
    s!"The type '{name}' needs either a `base` to refine or a `union` of two or more types"
  | .failed failure => failure.message

namespace Declaration

def narrows (d : Declaration) : Bool :=
  d.sizeEq.isSome || d.endsOn.isSome || d.equals.isSome || d.contains.isSome

/-- The refinements of a base, to be made one after the other. -/
def refinements (d : Declaration) : List Refinement :=
  [{ sizeEq := d.sizeEq, endsOn := d.endsOn, predicate := d.equals.map .equals },
    { predicate := d.contains.map .contains }]

end Declaration

structure Setup where
  session : Session
  record : Ty
  layout : Layout

namespace Setup

abbrev Built (α : Type) := Except Flaw (α × Registry)

def refineAll (r : Registry) (ty : Ty) : List Refinement → Built Ty
  | [] => .ok (ty, r)
  | refinement :: rest =>
    match r.refine ty refinement with
    | .error failure => .error (.failed failure)
    | .ok (ty, r) => refineAll r ty rest

/-- Builds types one after the other and unites them with the one at hand. -/
def uniteAll (resolve : Registry → String → Built Ty) (r : Registry) (ty : Ty) :
    List String → Built Ty
  | [] => .ok (ty, r)
  | member :: rest =>
    match resolve r member with
    | .error flaw => .error flaw
    | .ok (other, r) =>
      let (ty, r) := r.union ty other
      uniteAll resolve r ty rest

/-- Builds the type that a declaration tells of. -/
def declaredType (resolve : Registry → String → Built Ty) (r : Registry) (name : String)
    (d : Declaration) : Built Ty :=
  match d.base, d.union with
  | some base, none =>
    match resolve r base with
    | .error flaw => .error flaw
    | .ok (ty, r) => refineAll r ty d.refinements
  | none, some (first :: second :: rest) =>
    if d.narrows then .error (.malformed name)
    else match resolve r first with
      | .error flaw => .error flaw
      | .ok (ty, r) => uniteAll resolve r ty (second :: rest)
  | _, _ => .error (.malformed name)

/-- The declarations that are not being built. -/
def pending (types : List (String × Declaration)) (resolving : List String) :
    List (String × Declaration) :=
  types.filter fun declared => declared.1 ∉ resolving

theorem pending_shorter {types : List (String × Declaration)} {resolving : List String} {name : String}
    {d : Declaration} (hdeclared : types.lookup name = some d) (hname : name ∉ resolving) :
    (pending types (name :: resolving)).length < (pending types resolving).length := by
  have hsub : pending types (name :: resolving) =
      (pending types resolving).filter fun declared => declared.1 ≠ name := by
    simp only [pending, List.filter_filter, List.mem_cons, not_or]
    congr 1
    funext declared
    simp
  obtain ⟨front, back, hsplit, -⟩ := List.lookup_eq_some_iff.mp hdeclared
  rw [hsub]
  refine List.length_filter_lt_length_iff_exists.mpr ⟨(name, d), ?_, by simp⟩
  simp [pending, hsplit, hname]

/-- Finds the type of a name, or builds it and declares it. `resolving` are the names being built, each for
the sake of the next: one that is met again is circular, so they are ever more of those declared. -/
def resolveIn (types : List (String × Declaration)) (resolving : List String) (r : Registry)
    (name : String) : Built Ty :=
  match r.lookup name with
  | some ty => .ok (ty, r)
  | none =>
    match _hdeclared : types.lookup name with
    | none => .error (.unknown name)
    | some d =>
      if _hname : name ∈ resolving then .error (.circular name)
      else match declaredType (fun r other => resolveIn types (name :: resolving) r other) r name d with
        | .error flaw => .error flaw
        | .ok (ty, r) =>
          match r.declare name ty with
          | .error failure => .error (.failed failure)
          | .ok r => .ok (ty, r)
termination_by (pending types resolving).length
decreasing_by exact pending_shorter _hdeclared _hname

def resolve (types : List (String × Declaration)) : Registry → String → Built Ty := resolveIn types []

/-- Resolves names in order. -/
def resolveAll (types : List (String × Declaration)) (r : Registry) : List String → Built (List Ty)
  | [] => .ok ([], r)
  | name :: rest =>
    match resolve types r name with
    | .error flaw => .error flaw
    | .ok (ty, r) => (resolveAll types r rest).map fun (tys, r) => (ty :: tys, r)

/-- The session that the settings of a blueprint ask for; a policy given here counts in place of its own. -/
def settings (b : Blueprint) (policy : Option Policy) : Except Flaw Session :=
  let marker := b.marker.getD '$'
  match b.policy.map Policy.ofText with
  | some (.error failure) => .error (.failed failure)
  | some (.ok own) => .ok (.start (policy.getD own) marker)
  | none => .ok (.start (policy.getD .raise) marker)

/-- Builds all declared types. None of them may have the name of a type that is there already. -/
def declared (b : Blueprint) (r : Registry) : Built (List Ty) :=
  let names := b.types.map (·.1)
  match names.find? fun name => (r.lookup name).isSome with
  | some name => .error (.builtIn name)
  | none => resolveAll b.types r names

/-- Builds all declared types, then those of the fields. -/
def types (b : Blueprint) (r : Registry) : Built (List Ty) :=
  match declared b r with
  | .error flaw => .error flaw
  | .ok (_, r) => resolveAll b.types r (b.fields.map (·.2))

/-- Sets up what a blueprint declares. -/
def ofBlueprint (b : Blueprint) (policy : Option Policy) : Except Flaw Setup :=
  match settings b policy with
  | .error flaw => .error flaw
  | .ok s =>
    match types b s.registry with
    | .error flaw => .error flaw
    | .ok (tys, r) =>
      match r.namedProduct b.record ((b.fields.map (·.1)).zip tys) with
      | .error failure => .error (.failed failure)
      | .ok (record, registry) =>
        let session := { s with registry }
        match session.layout record b.layout with
        | .error failure => .error (.failed failure)
        | .ok layout => .ok { session, record, layout }

end Setup
end TypeAlgebra
