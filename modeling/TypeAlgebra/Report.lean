import TypeAlgebra.Notice

/-! What a command prints: lines of output, and notices beside them. -/
namespace TypeAlgebra

inductive Line where
  | output (text : String)
  | notice (notice : Notice) (message : String)
  deriving DecidableEq

/-- All that a command printed, and the message it failed with, if it did. -/
structure Report where
  lines : List Line
  failure : Option String

namespace Report

def withEnds (lines : List String) : String := String.join (lines.map (· ++ "\n"))

/-- The failure comes last. -/
def allLines (report : Report) : List Line :=
  report.lines ++ (report.failure.map (Line.notice .fatal)).toList

def stdout (report : Report) : String :=
  withEnds (report.allLines.filterMap fun
    | .output text => some text
    | .notice .. => none)

def stderr (report : Report) : String :=
  withEnds (report.allLines.flatMap fun
    | .output _ => []
    | .notice notice message => notice.lines message)

def exitCode (report : Report) : Nat := if report.failure.isSome then 1 else 0

/-- Puts lines before those of a report. -/
def after (lines : List Line) (report : Report) : Report :=
  { report with lines := lines ++ report.lines }

def failed (message : String) : Report := ⟨[], some message⟩

/-- Goes on with a value, or fails with the message in its place. -/
def bind {α : Type} (result : Except String α) (next : α → Report) : Report :=
  match result with
  | .ok a => next a
  | .error message => failed message

end Report

end TypeAlgebra
