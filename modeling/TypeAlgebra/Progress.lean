import TypeAlgebra.Layout

/-! Matching text against the segments of a layout, one character at a time. A literal takes exactly its
own characters. A slot takes characters until they are a text of its type that the next character would
not continue. -/
namespace TypeAlgebra

structure Progress where
  layout : List Segment
  /-- The segments still to match; of a literal at the front, what is left of it. -/
  todo : List Segment
  /-- The text of the slot at the front so far. -/
  candidate : String
  /-- The fields matched so far, by name. -/
  fields : List (String × Value)

/-- What one character comes to. -/
inductive Move where
  | pending (progress : Progress)
  | complete (fields : List (String × Value))
  | mismatch (expected : Char)

namespace Progress

def start (layout : List Segment) : Progress := { layout, todo := layout, candidate := "", fields := [] }

def restart (p : Progress) : Progress := start p.layout

def atSlot (p : Progress) : Bool := p.todo.head?.any (·.isSlot)

/-- Whether part of a record is matched. -/
def begun (p : Progress) : Bool := p.todo ≠ p.layout || p.candidate ≠ ""

/-- What the text should go on with. -/
def awaited (p : Progress) : String := (p.todo.head?.map (·.described)).getD "nothing"

/-- Goes on to the next segment. -/
def advance (p : Progress) : Move :=
  match p.todo.tail with
  | [] => .complete p.fields
  | todo => .pending { p with todo, candidate := "" }

/-- Keeps the value of a field. If the field has another slot, its value there will count. -/
def commit (p : Progress) (name : String) (value : Value) : Progress :=
  { p with fields := Sorted.put name value p.fields }

/-- Takes one character, seeing the one after it, if there is one. -/
def step (r : Registry) (p : Progress) (c : Char) (next : Option Char) : Move :=
  match p.todo with
  | [] => .complete p.fields
  | .literal [] :: _ => p.advance
  | .literal (expected :: text) :: rest =>
    if c ≠ expected then .mismatch expected
    else if text = [] then p.advance
    else .pending { p with todo := .literal text :: rest }
  | .slot name ty :: _ =>
    let candidate := p.candidate.push c
    if next.any fun d => r.accepts ty (candidate.push d) then .pending { p with candidate }
    else match r.read? ty candidate with
      | none => .pending { p with candidate }
      | some value => (p.commit name value).advance

/-- Matches one record from the front of the text and gives what follows it; characters are counted from
`offset`. -/
def run (r : Registry) (p : Progress) (offset : Nat) :
    List Char → Except Failure (List (String × Value) × List Char)
  | [] => .error (.unexpectedEnd p.awaited)
  | c :: rest =>
    match p.step r c rest.head? with
    | .mismatch expected => .error (.literalMismatch expected c offset)
    | .complete fields => .ok (fields, rest)
    | .pending p => p.run r (offset + 1) rest

end Progress

/-- The record at the front of the text. What follows it is ignored. -/
def Layout.readRecord (r : Registry) (layout : Layout) (text : String) : Except Failure Value :=
  match (Progress.start layout.segments).run r 0 text.toList with
  | .error failure => .error failure
  | .ok (fields, _) => r.record layout.product fields

end TypeAlgebra
