import TypeAlgebra.Cursor

/-! Reading records from a text that comes in chunks, with a place in the layout, and with every failure handed over
where it arises. A failure that is passed on is one of the records. -/
namespace TypeAlgebra

/-- What was taken in of a text so far. -/
structure Intake where
  layout : Layout
  cursor : Cursor
  held : Option Char
  /-- How many characters were matched since the start. -/
  consumed : Nat
  records : List Value

namespace Intake

def start (layout : Layout) : Intake := { layout, cursor := .start, held := none, consumed := 0, records := [] }

def add (intake : Intake) (value : Value) : Intake := { intake with records := intake.records ++ [value] }

/-- Hands a failure over, in the place of a record. -/
def handOver (s : Session) (intake : Intake) (failure : Failure) : Except Failure Unit × Intake :=
  match s.report failure with
  | .ok value => (.ok (), intake.add value)
  | .error failure => (.error failure, intake)

/-- Matches one character, and says whether to go on. -/
def take (s : Session) (intake : Intake) (c : Char) (next : Option Char) : Except Failure Bool × Intake :=
  let (result, cursor) := intake.cursor.step s intake.layout.segments c next intake.consumed
  let intake := { intake with consumed := intake.consumed + 1, cursor }
  match result with
  | .ok none => (.ok true, intake)
  | .ok (some fields) =>
    match s.recordAtOnce intake.layout.product fields with
    | .ok record => (.ok true, intake.add record)
    | .error failure => (.error failure, intake)
  | .error failure =>
    match ({ intake with cursor := .start } : Intake).handOver s failure with
    | (.ok (), intake) => (.ok false, intake)
    | (.error failure, intake) => (.error failure, intake)

def takeAll (s : Session) (intake : Intake) : List Char → Except Failure Unit × Intake
  | [] => (.ok (), intake)
  | c :: rest =>
    if rest.isEmpty && intake.cursor.atSlot intake.layout.segments then (.ok (), { intake with held := some c })
    else match intake.take s c rest.head? with
      | (.ok true, intake) => intake.takeAll s rest
      | (.ok false, intake) => (.ok (), intake)
      | (.error failure, intake) => (.error failure, intake)

/-- Takes one more chunk in, after the character that was held back. -/
def push (s : Session) (intake : Intake) (chunk : String) : Except Failure Unit × Intake :=
  { intake with held := none }.takeAll s (intake.held.toList ++ chunk.toList)

/-- Matches the character held back, with nothing after it. -/
def flush (s : Session) (intake : Intake) : Except Failure Bool × Intake :=
  match intake.held with
  | some c => { intake with held := none }.take s c none
  | none => (.ok true, intake)

/-- Ends the text. A record in progress is then a failure. -/
def close (s : Session) (intake : Intake) : Except Failure Unit × Intake :=
  match intake.flush s with
  | (.error failure, intake) => (.error failure, intake)
  | (.ok _, intake) =>
    if intake.cursor.begun then
      ({ intake with cursor := .start } : Intake).handOver s
        (.unexpectedEnd (intake.cursor.awaited intake.layout.segments))
    else (.ok (), intake)

end Intake
end TypeAlgebra
