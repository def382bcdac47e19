import TypeAlgebra.Toml.Reader
import TypeAlgebra.Sorted

/-! What a schema document declares: named types, one record type made of them, and the layout in which
the records are written. -/
namespace TypeAlgebra

/-- A named type as declared: a refinement of a base, or a union of types. -/
structure Declaration where
  base : Option String := none
  union : Option (List String) := none
  sizeEq : Option Nat := none
  endsOn : Option Char := none
  equals : Option String := none
  contains : Option String := none
  deriving DecidableEq

structure Blueprint where
  policy : Option String := none
  marker : Option Char := none
  /-- In ascending order of names. -/
  types : List (String × Declaration) := []
  record : String
  /-- The layout as written. -/
  layout : String
  fields : List (String × String)
  deriving DecidableEq

namespace Blueprint
open Toml (Node Entries)

def string? : Node → Option String
  | .string text => some text
  | _ => none

def char? : Node → Option Char
  | .string text => match text.toList with
    | [c] => some c
    | _ => none
  | _ => none

def nat? : Node → Option Nat
  | .integer n => n.toNat?
  | _ => none

def list? {α : Type} (item? : Node → Option α) : Node → Option (List α)
  | .array items => items.mapM item?
  | _ => none

/-- An entry that may be missing. -/
def optional {α : Type} (entry : Option Node) (value? : Node → Option α) : Option (Option α) :=
  match entry with
  | none => some none
  | some value => (value? value).map some

/-- The values under the keys expected. There may be no others and no key twice. -/
def entriesOf (keys : List String) (entries : Entries) : Option (List (Option Node)) :=
  if entries.all (·.1 ∈ keys) && (entries.map (·.1)).eraseDups.length = entries.length then
    some (keys.map fun key => entries.lookup key)
  else none

/-- The members of a table, which may also be written as an array of them all in order. -/
def members? (keys : List String) : Node → Option (List (Option Node))
  | .table _ entries => entriesOf keys entries
  | .array items => if items.length = keys.length then some (items.map some) else none
  | _ => none

def declaration? (value : Node) : Option Declaration := do
  match ← members? ["base", "union", "size_eq", "ends_on", "equals", "contains"] value with
  | [base, union, sizeEq, endsOn, equals, contains] =>
    return {
      base := ← optional base string?
      union := ← optional union (list? string?)
      sizeEq := ← optional sizeEq nat?
      endsOn := ← optional endsOn char?
      equals := ← optional equals string?
      contains := ← optional contains string? }
  | _ => none

/-- Two texts under two keys, both needed. -/
def texts? (first second : String) (value : Node) : Option (String × String) := do
  match ← members? [first, second] value with
  | [some a, some b] => return (← string? a, ← string? b)
  | _ => none

def settings? (value : Node) : Option (Option String × Option Char) := do
  match ← members? ["policy", "marker"] value with
  | [policy, marker] => return (← optional policy string?, ← optional marker char?)
  | _ => none

/-- The declarations by name. The last one under a name counts. -/
def declarations? : Node → Option (List (String × Declaration))
  | .table _ entries => entries.foldlM (fun all (name, value) =>
      (declaration? value).map fun declaration => Sorted.put name declaration all) []
  | _ => none

def ofEntries? (entries : Entries) : Option Blueprint := do
  match ← entriesOf ["config", "types", "record", "fields"] entries with
  | [config, types, some record, some fields] =>
    let (policy, marker) := (← optional config settings?).getD (none, none)
    let (record, layout) ← texts? "name" "format" record
    return {
      policy, marker, record, layout
      types := (← optional types declarations?).getD []
      fields := ← list? (texts? "name" "type") fields }
  | _ => none

/-- Reads a blueprint from the text of a schema document. -/
def ofText? (text : String) : Option Blueprint := (Toml.read text).bind ofEntries?

end Blueprint
end TypeAlgebra
