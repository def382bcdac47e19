/-! The nodes of a configuration document. Tables keep their entries in the order in which they were met,
repeated keys included, so that whoever reads them decides what a repetition means. -/
namespace TypeAlgebra.Toml

inductive Node where
  | string (text : String)
  | integer (n : Int)
  | array (items : List Node)
  /-- A table is open while it was only written through dotted keys. -/
  | table (isOpen : Bool) (entries : List (String × Node))

abbrev Entries := List (String × Node)

/-- A table of the document under its header; an array header begins a new item each time. -/
structure Section where
  path : List String
  isItem : Bool
  entries : Entries

/-- Adds a value under a dotted key. Only tables written by dotted keys can be added to. -/
def addDotted (path : List String) (value : Node) (entries : Entries) : Option Entries :=
  match path with
  | [] => none
  | [key] => some (entries ++ [(key, value)])
  | key :: rest =>
    let (before, found) := entries.span fun (other, _) => other ≠ key
    match found with
    | [] => do
      let inner ← addDotted rest value []
      return entries ++ [(key, .table true inner)]
    | (_, .table true inner) :: after => do
      let inner ← addDotted rest value inner
      return before ++ (key, .table true inner) :: after
    | _ => none

mutual

/-- The entries of the tables that share a header, in so many steps. A header may stand once. -/
def tableWithin : Nat → List Section → Option Entries
  | 0, _ => none
  | _ + 1, [] => some []
  | steps + 1, s :: rest =>
    match s.path with
    | [] =>
      if s.isItem || rest.any (·.path.isEmpty) then none
      else (tableWithin steps rest).map (s.entries ++ ·)
    | key :: _ => do
      let (mine, others) := (s :: rest).partition (·.path.head? = some key)
      let value ← childWithin steps (mine.map fun s => { s with path := s.path.tail })
      let following ← tableWithin steps others
      return (key, value) :: following

def childWithin : Nat → List Section → Option Node
  | 0, _ => none
  | _ + 1, [] => none
  | steps + 1, s :: rest =>
    if s.path.isEmpty && s.isItem then (itemsWithin steps (s :: rest)).map .array
    else (tableWithin steps (s :: rest)).map (.table false)

/-- One item for each array header, with the tables up to the next. -/
def itemsWithin : Nat → List Section → Option (List Node)
  | 0, _ => none
  | _ + 1, [] => some []
  | steps + 1, s :: rest => do
    let (inside, next) := rest.span fun other => !(other.path.isEmpty && other.isItem)
    let item ← tableWithin steps ({ s with isItem := false } :: inside)
    let following ← itemsWithin steps next
    return .table false item :: following

end

/-- The entries of a whole document. -/
def assemble (sections : List Section) : Option Entries :=
  tableWithin (4 * ((sections.flatMap (·.path)).length + sections.length) + 4) sections

end TypeAlgebra.Toml
