import TypeAlgebra.CommandLine
import TypeAlgebra.Report.Inspection

/-! Reading a file line by line: its records are printed as they are completed, failures that were passed on
become warnings, and a summary counts both. A limit ends the run once so many were printed. -/
namespace TypeAlgebra

/-- How many values were printed, and of which kind. -/
structure Count where
  records : Nat := 0
  failures : Nat := 0

namespace Count

def total (count : Count) : Nat := count.records + count.failures

def reached (count : Count) (limit : Option Nat) : Bool := limit.any (· ≤ count.total)

def add (count : Count) (value : Value) : Count :=
  if value.isFailure then { count with failures := count.failures + 1 }
  else { count with records := count.records + 1 }

def summary (count : Count) : Line :=
  .notice (if count.failures > 0 then .warning else .success)
    s!"{count.records} records parsed, {count.failures} failed"

end Count

/-- A run over a file: the stream of records, how many were printed, and the lines printed. -/
structure Run where
  stream : Stream
  count : Count
  lines : List Line

namespace Run

def start (layout : Layout) : Run := ⟨.start layout, {}, []⟩

def valueLine (r : Registry) (value : Value) : Line :=
  match value.failure? with
  | some failure => .notice .warning failure.message
  | none => .output (value.display r)

/-- The values that a limit leaves to print. -/
def due (run : Run) (limit : Option Nat) : List Value :=
  let fresh := run.stream.records.drop run.count.total
  match limit with
  | none => fresh
  | some limit => fresh.take (limit - run.count.total)

/-- Prints what was completed since the last time. -/
def print (run : Run) (r : Registry) (limit : Option Nat) : Run :=
  let due := run.due limit
  { run with count := due.foldl .add run.count, lines := run.lines ++ due.map (valueLine r) }

/-- Takes lines until the limit is reached, or something goes wrong. -/
def follow (s : Session) (limit : Option Nat) (run : Run) (number : Nat) :
    List (Except String String) → Run × Option String
  | [] => (run, none)
  | .error reason :: _ => (run, some s!"The input could not be read: {reason}")
  | .ok line :: rest =>
    match s.push run.stream line with
    | (_, some failure) => (run, some s!"line {number}: {failure.message}")
    | (stream, none) =>
      let run := { run with stream }.print s.registry limit
      if run.count.reached limit then (run, none) else follow s limit run (number + 1) rest

/-- Ends the file, unless the limit is reached. -/
def close (s : Session) (limit : Option Nat) (run : Run) : Run × Option String :=
  if run.count.reached limit then (run, none)
  else match s.close run.stream with
    | (_, some failure) => (run, some s!"end of input: {failure.message}")
    | (stream, none) => ({ run with stream }.print s.registry limit, none)

/-- The whole run over the lines of a file. -/
def overLines (s : Session) (layout : Layout) (limit : Option Nat)
    (lines : List (Except String String)) : Report :=
  match follow s limit (start layout) 1 lines with
  | (run, some message) => ⟨run.lines, some message⟩
  | (run, none) =>
    match run.close s limit with
    | (run, some message) => ⟨run.lines, some message⟩
    | (run, none) => ⟨run.lines ++ [run.count.summary], none⟩

end Run

namespace Report

def ofRecords (files : Opener) (path input : String) (policy : Option Policy) (limit : Option Nat) :
    Report :=
  bind (Blueprint.ofFile files path) fun blueprint =>
  bind ((Setup.ofBlueprint blueprint policy).mapError (·.message)) fun setup =>
    match files input with
    | .error e => failed s!"The input '{input}' could not be opened: {e.text}"
    | .ok file => Run.overLines setup.session setup.layout limit file.lines

/-- Runs a command on the files it names. -/
def ofCommand (files : Opener) : Command → Report
  | .check path => ofSchema files path
  | .parse path input policy limit => ofRecords files path input policy limit

end Report
end TypeAlgebra
