import TypeAlgebra.File
import TypeAlgebra.Report
import TypeAlgebra.Setup

/-! Checking a schema document: its types, its record and its layout, or what is wrong with it. -/
namespace TypeAlgebra

/-- Reads a blueprint from a file. -/
def Blueprint.ofFile (files : Opener) (path : String) : Except String Blueprint :=
  let text : Except String String := match files path with
    | .error e => .error e.text
    | .ok file => file.text
  match text with
  | .error reason => .error s!"The schema '{path}' could not be read: {reason}"
  | .ok text =>
    match Blueprint.ofText? text with
    | some blueprint => .ok blueprint
    | none => .error "Could not parse the schema:"

namespace Report

def constraintText : Constraint → String
  | .predicate p => p.key
  | .sizeEq size => s!"size={size}"
  | .endsOn terminator => s!"ends_on={Text.quotedChar terminator}"

/-- The fields of a product; of another type its name, and what narrows it. -/
def definition (r : Registry) (ty : Ty) : String :=
  match r.get ty with
  | .product _ fields =>
    "\x7b" ++ ", ".intercalate (fields.map fun (name, ty) => s!"{name}: {r.name ty}") ++ "\x7d"
  | form =>
    if form.constraints.isEmpty then form.display
    else s!"{form.display} where " ++ ", ".intercalate (form.constraints.map constraintText)

def definitionLine (r : Registry) (name : String) (ty : Ty) : String :=
  s!"{Notice.aligned name} = {definition r ty}"

def segmentLine (r : Registry) : Segment → String
  | .literal text => Notice.aligned "literal" ++ " " ++ Text.between '\x22' text
  | .slot name ty => Notice.aligned "slot" ++ s!" {name} : {r.name ty}"

/-- The declared types by name, the record, and the segments of the layout. -/
def setupLines (b : Blueprint) (setup : Setup) : List String :=
  let r := setup.session.registry
  let types := b.types.filterMap fun (name, _) => (r.lookup name).map (definitionLine r name)
  types ++ [definitionLine r b.record setup.record] ++ setup.layout.segments.map (segmentLine r)

def ofSchema (files : Opener) (path : String) : Report :=
  after [.notice .info s!"Checking '{path}'"] <|
    bind (Blueprint.ofFile files path) fun blueprint =>
    bind ((Setup.ofBlueprint blueprint none).mapError (·.message)) fun setup =>
      ⟨(setupLines blueprint setup).map .output ++
        [.notice .success s!"'{path}' is a valid schema"], none⟩

end Report
end TypeAlgebra
