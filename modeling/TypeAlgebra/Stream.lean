import TypeAlgebra.Progress
import TypeAlgebra.Session

/-! Reading records from a text that comes in chunks. Where a chunk ends inside a slot its last character
is held back, until the next chunk tells whether the slot goes on. -/
namespace TypeAlgebra

structure Stream where
  layout : Layout
  progress : Progress
  held : Option Char
  /-- How many characters were matched since the start. -/
  consumed : Nat
  records : List Value

namespace Stream

def start (layout : Layout) : Stream :=
  { layout, progress := .start layout.segments, held := none, consumed := 0, records := [] }

def restart (st : Stream) : Stream := start st.layout

/-- Matches one character, seeing the one after it. A failure drops the record in progress. -/
def take (r : Registry) (st : Stream) (c : Char) (next : Option Char) : Stream × Option Failure :=
  let after := { st with consumed := st.consumed + 1, progress := st.progress.restart }
  match st.progress.step r c next with
  | .pending progress => ({ after with progress }, none)
  | .mismatch expected => (after, some (.literalMismatch expected c st.consumed))
  | .complete fields =>
    match r.record st.layout.product fields with
    | .ok record => ({ after with records := st.records ++ [record] }, none)
    | .error failure => (after, some failure)

/-- Matches a chunk. A failure skips the rest of it. -/
def takeAll (r : Registry) (st : Stream) : List Char → Stream × Option Failure
  | [] => (st, none)
  | c :: rest =>
    if rest.isEmpty && st.progress.atSlot then ({ st with held := some c }, none)
    else match st.take r c rest.head? with
      | (st, some failure) => (st, some failure)
      | (st, none) => st.takeAll r rest

/-- Matches one more chunk, after the character that was held back. -/
def push (r : Registry) (st : Stream) (chunk : String) : Stream × Option Failure :=
  { st with held := none }.takeAll r (st.held.toList ++ chunk.toList)

/-- Matches the character held back, with nothing after it. -/
def flush (r : Registry) (st : Stream) : Stream × Option Failure :=
  match st.held with
  | some c => { st with held := none }.take r c none
  | none => (st, none)

/-- Ends the text. A record in progress is then a failure. -/
def close (r : Registry) (st : Stream) : Stream × Option Failure :=
  match st.flush r with
  | (st, some failure) => (st, some failure)
  | (st, none) =>
    if st.progress.begun then
      ({ st with progress := st.progress.restart }, some (.unexpectedEnd st.progress.awaited))
    else (st, none)

/-- Raises a failure, or passes it on among the records. -/
def handOver (policy : Policy) : Stream × Option Failure → Stream × Option Failure
  | (st, some failure) =>
    match policy with
    | .raise => (st, some failure)
    | .pass => ({ st with records := st.records ++ [.failure failure] }, none)
  | (st, none) => (st, none)

end Stream

namespace Session

/-- Reads a layout. What is wrong with it is raised under either policy. -/
def layout (s : Session) (product : Ty) (text : String) : Except Failure Layout :=
  Layout.ofText s.registry s.marker product text

def readRecord (s : Session) (layout : Layout) (text : String) : Except Failure Value :=
  s.policy.handOver (layout.readRecord s.registry text)

def push (s : Session) (st : Stream) (chunk : String) : Stream × Option Failure :=
  Stream.handOver s.policy (st.push s.registry chunk)

def close (s : Session) (st : Stream) : Stream × Option Failure :=
  Stream.handOver s.policy (st.close s.registry)

end Session
end TypeAlgebra
