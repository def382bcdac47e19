import TypeAlgebra.HandOver
import TypeAlgebra.Layout

/-! Matching text against the segments of a layout by a place in it: the number of a segment and, in a literal, of a
byte. It comes to what matching by the segments that are left comes to. -/
namespace TypeAlgebra

/-- A place in a layout, and what was kept on the way there. -/
structure Cursor where
  /-- How many segments are behind. -/
  index : Nat
  /-- How many bytes of a literal are behind. -/
  position : Nat
  /-- The text of a slot so far. -/
  candidate : String
  /-- The fields matched so far, by name. -/
  fields : List (String × Value)

namespace Cursor

def start : Cursor := { index := 0, position := 0, candidate := "", fields := [] }

/-- The characters of a text from a byte on, where a character begins. -/
def fromByte : Nat → List Char → List Char
  | 0, text => text
  | _ + 1, [] => []
  | n + 1, c :: rest => fromByte (n + 1 - c.utf8Size) rest

def atSlot (segments : List Segment) (cursor : Cursor) : Bool := segments[cursor.index]?.any (·.isSlot)

/-- Whether part of a record is matched. -/
def begun (cursor : Cursor) : Bool := cursor.index > 0 || cursor.position > 0 || cursor.candidate ≠ ""

/-- What the text should go on with. -/
def awaited (segments : List Segment) (cursor : Cursor) : String :=
  match segments[cursor.index]? with
  | some (.literal text) => s!"literal {Text.quoted (.ofList (fromByte cursor.position text))}"
  | some (.slot name _) => s!"field '{name}'"
  | none => "nothing"

/-- Goes on to the next segment, and behind the last one back to the start, with the fields of a whole record. -/
def advance (segments : List Segment) (cursor : Cursor) :
    Except Failure (Option (List (String × Value))) × Cursor :=
  let cursor := { cursor with index := cursor.index + 1, position := 0, candidate := "" }
  if cursor.index < segments.length then (.ok none, cursor) else (.ok (some cursor.fields), .start)

/-- Takes one character, seeing the one after it. Where the type of a slot accepts what was taken and would not accept
more, a value is made of it. -/
def step (s : Session) (segments : List Segment) (cursor : Cursor) (c : Char) (next : Option Char) (offset : Nat) :
    Except Failure (Option (List (String × Value))) × Cursor :=
  match segments[cursor.index]? with
  | some (.literal text) =>
    match (fromByte cursor.position text).head? with
    | some expected =>
      if expected = c then
        let cursor := { cursor with position := cursor.position + c.utf8Size }
        if cursor.position = (String.ofList text).utf8ByteSize then cursor.advance segments
        else (.ok none, cursor)
      else (.error (.literalMismatch expected c offset), cursor)
    | none => cursor.advance segments
  | some (.slot name ty) =>
    let cursor := { cursor with candidate := cursor.candidate.push c }
    if s.registry.accepts ty cursor.candidate then
      if next.all fun d => !s.registry.accepts ty (cursor.candidate.push d) then
        match s.makeAtOnce ty (.text cursor.candidate) with
        | .error failure => (.error failure, cursor)
        | .ok value =>
          ({ cursor with fields := Sorted.put name value cursor.fields } : Cursor).advance segments
      else (.ok none, cursor)
    else (.ok none, cursor)
  | none => cursor.advance segments

/-- Matches one record from the front of the text; characters are counted from `offset`. -/
def read (s : Session) (layout : Layout) (cursor : Cursor) (offset : Nat) : List Char → Except Failure Value
  | [] => s.report (.unexpectedEnd (cursor.awaited layout.segments))
  | c :: rest =>
    match cursor.step s layout.segments c rest.head? offset with
    | (.ok none, cursor) => cursor.read s layout (offset + 1) rest
    | (.ok (some fields), _) => s.recordAtOnce layout.product fields
    | (.error failure, _) => s.report failure

end Cursor

/-- The record at the front of the text, with every failure on the way handed over where it arises. -/
def Session.readRecordAtOnce (s : Session) (layout : Layout) (text : String) : Except Failure Value :=
  Cursor.start.read s layout 0 text.toList

end TypeAlgebra
