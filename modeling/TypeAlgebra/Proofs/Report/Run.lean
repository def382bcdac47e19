import TypeAlgebra.Proofs.Stream.Lines
import TypeAlgebra.Proofs.Stream.Records
import TypeAlgebra.Report.Records

/-! Runs over the lines of a file. Streams only add to their records, and a run prints what they add, so that it has
always printed all that its stream has, up to the limit where there is one. -/
namespace TypeAlgebra

namespace Stream

/-- Where failures are passed on, pushing and closing go on with a stream that has all records it had. -/
theorem handOver_pass (result : Stream × Option Failure) :
    handOver .pass result = ((handOver .pass result).1, none) := by
  obtain ⟨st, failure⟩ := result
  cases failure <;> rfl

end Stream

namespace Count

@[simp] theorem total_foldl (values : List Value) (count : Count) :
    (values.foldl add count).total = count.total + values.length := by
  induction values generalizing count with
  | nil => rfl
  | cons value rest ih =>
    have hadd : (count.add value).total = count.total + 1 := by
      unfold add total
      split <;> simp only <;> omega
    rw [List.foldl_cons, ih, hadd, List.length_cons]
    omega

end Count

namespace Run

variable {s : Session} {st next : Stream} {r : Registry}

/-- The values that a limit leaves of a list: the first ones. -/
def allowed (limit : Option Nat) (values : List Value) : List Value :=
  match limit with
  | none => values
  | some limit => values.take limit

/-- The run that has printed all that the limit allows of what its stream has. -/
def shown (limit : Option Nat) (r : Registry) (st : Stream) : Run :=
  ⟨st, (allowed limit st.records).foldl .add {}, (allowed limit st.records).map (valueLine r)⟩

theorem total_shown (limit : Option Nat) (r : Registry) (st : Stream) :
    (shown limit r st).count.total = (allowed limit st.records).length := by
  rw [shown, Count.total_foldl]
  exact Nat.zero_add _

/-- Of what a stream adds, what is due is what the limit allows beyond what it has allowed before. -/
theorem allowed_append (limit : Option Nat) (h : st.records <+: next.records) :
    allowed limit next.records =
      allowed limit st.records ++ ({ shown limit r st with stream := next } : Run).due limit := by
  obtain ⟨fresh, hfresh⟩ := h
  have htotal := total_shown limit r st
  unfold due
  dsimp only
  rw [htotal, ← hfresh]
  cases limit with
  | none => simp only [allowed, List.drop_left]
  | some limit =>
    simp only [allowed, List.length_take]
    rcases Nat.le_total limit st.records.length with hle | hle
    · rw [Nat.min_eq_left hle, Nat.sub_self, List.take_zero, List.append_nil, List.take_append_of_le_length hle]
    · rw [Nat.min_eq_right hle, List.drop_left, List.take_append, List.take_of_length_le hle]

theorem print_shown (limit : Option Nat) (h : st.records <+: next.records) :
    ({ shown limit r st with stream := next } : Run).print r limit = shown limit r next := by
  have hallowed := allowed_append (r := r) limit h
  unfold print
  generalize ({ shown limit r st with stream := next } : Run).due limit = due at hallowed
  simp only [shown, hallowed, List.foldl_append, List.map_append]

/-- The run that has printed all that its stream has. -/
def upTo (r : Registry) (st : Stream) : Run := ⟨st, st.records.foldl .add {}, st.records.map (valueLine r)⟩

theorem records_sessionPush (s : Session) (st : Stream) (chunk : String) :
    st.records <+: (s.push st chunk).1.records :=
  ((Stream.adds_push s.registry st chunk).toGrows.trans (Stream.grows_handOver s.policy _)).records

theorem records_sessionClose (s : Session) (st : Stream) : st.records <+: (s.close st).1.records :=
  (((Stream.adds_flush s.registry st).trans (Stream.adds_close s.registry st)).toGrows.trans
    (Stream.grows_handOver s.policy _)).records

theorem records_feed (s : Session) (st : Stream) (lines : List String) : st.records <+: (s.feed st lines).records := by
  induction lines generalizing st with
  | nil => exact List.prefix_rfl
  | cons line rest ih => exact (records_sessionPush s st line).trans (ih (s.push st line).1)

/-- A line that does not fail is taken, and what it completes is printed up to the limit. -/
theorem follow_shown (limit : Option Nat) {line : String} (hpush : s.push st line = (next, none)) (number : Nat)
    (rest : List (Except String String)) :
    follow s limit (shown limit s.registry st) number (.ok line :: rest) =
      if (shown limit s.registry next).count.reached limit then (shown limit s.registry next, none)
      else follow s limit (shown limit s.registry next) (number + 1) rest := by
  have hrecords := records_sessionPush s st line
  have hstream : (shown limit s.registry st).stream = st := rfl
  rw [hpush] at hrecords
  rw [follow, hstream, hpush]
  dsimp only
  rw [print_shown limit hrecords]

theorem follow_cons {line : String} (hpush : s.push st line = (next, none)) (number : Nat)
    (rest : List (Except String String)) :
    follow s none (upTo s.registry st) number (.ok line :: rest) =
      follow s none (upTo s.registry next) (number + 1) rest :=
  (follow_shown none hpush number rest).trans (if_neg (by simp [Count.reached]))

/-- A failure that is raised ends the run before anything more is printed. -/
theorem follow_failed {line : String} {failure : Failure} (hpush : s.push st line = (next, some failure))
    (number : Nat) (rest : List (Except String String)) :
    follow s none (upTo s.registry st) number (.ok line :: rest) =
      (upTo s.registry st, some s!"line {number}: {failure.message}") := by
  have hstream : (upTo s.registry st).stream = st := rfl
  rw [follow, hstream, hpush]

theorem close_shown (limit : Option Nat) (hopen : ¬ (shown limit s.registry st).count.reached limit)
    (hclose : s.close st = (next, none)) :
    (shown limit s.registry st).close s limit = (shown limit s.registry next, none) := by
  have hrecords := records_sessionClose s st
  have hstream : (shown limit s.registry st).stream = st := rfl
  rw [hclose] at hrecords
  rw [close, if_neg hopen, hstream, hclose]
  dsimp only
  rw [print_shown limit hrecords]

theorem close_upTo (hclose : s.close st = (next, none)) :
    (upTo s.registry st).close s none = (upTo s.registry next, none) :=
  close_shown none (by simp [Count.reached]) hclose

theorem close_failed {failure : Failure} (hclose : s.close st = (next, some failure)) :
    (upTo s.registry st).close s none = (upTo s.registry st, some s!"end of input: {failure.message}") := by
  have hstream : (upTo s.registry st).stream = st := rfl
  rw [close, hstream, hclose]
  exact if_neg (by simp [Count.reached])

/-- The report on a run over lines that failed, or is still to be ended. -/
def conclude (s : Session) : Run × Option String → Report
  | (run, some message) => ⟨run.lines, some message⟩
  | (run, none) =>
    match run.close s none with
    | (run, some message) => ⟨run.lines, some message⟩
    | (run, none) => ⟨run.lines ++ [run.count.summary], none⟩

theorem overLines_eq_conclude (s : Session) (layout : Layout) (lines : List (Except String String)) :
    overLines s layout none lines = conclude s (follow s none (upTo s.registry (.start layout)) 1 lines) := rfl

/-- The report on a run that has come to the end of the file. -/
def finished (r : Registry) (values : List Value) : Report :=
  ⟨values.map (valueLine r) ++ [(values.foldl Count.add {}).summary], none⟩

section Pass

variable (hs : s.policy = .pass)
include hs

theorem push_pass (st : Stream) (line : String) : s.push st line = ((s.push st line).1, none) := by
  unfold Session.push
  rw [hs]
  exact Stream.handOver_pass _

theorem close_pass (st : Stream) : s.close st = ((s.close st).1, none) := by
  unfold Session.close
  rw [hs]
  exact Stream.handOver_pass _

theorem follow_pass (st : Stream) (number : Nat) (lines : List String) :
    follow s none (upTo s.registry st) number (lines.map .ok) = (upTo s.registry (s.feed st lines), none) := by
  induction lines generalizing st number with
  | nil => rfl
  | cons line rest ih =>
    rw [List.map_cons, follow_cons (push_pass hs st line), ih]
    rfl

/-- A run that passes failures on prints all values that its stream comes to. -/
theorem conclude_pass (st : Stream) (number : Nat) (lines : List String) :
    conclude s (follow s none (upTo s.registry st) number (lines.map .ok)) =
      finished s.registry (s.close (s.feed st lines)).1.records := by
  rw [follow_pass hs, conclude, close_upTo (close_pass hs _)]
  rfl

end Pass

end Run
end TypeAlgebra
