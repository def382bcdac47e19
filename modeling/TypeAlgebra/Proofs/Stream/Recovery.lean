import TypeAlgebra.Proofs.Stream.Iteration
import TypeAlgebra.Proofs.Stream.Records

/-! What streams are after a failure, and after the end of a text: nothing is left over of the record in progress, and
they go on as they would from the start. What was matched before makes a difference only to where the new records
stand, and to the places of mismatches. -/
namespace TypeAlgebra

/-- The value with the place of a failure moved on. -/
def Value.shift (n : Nat) : Value → Value
  | .failure e => .failure (e.shift n)
  | value => value

theorem Value.shift_of_failure? {value : Value} (h : value.failure? = none) (n : Nat) : value.shift n = value := by
  cases value with
  | failure e => contradiction
  | int | str | record | injection | closure => rfl

namespace Registry

variable {r : Registry} {failure : Failure}

/-- A value is not refused for its place in a text. -/
theorem shift_of_fieldValue {name : String} {ty : Ty} {given : Option Source}
    (h : r.fieldValue name ty given = .error failure) (n : Nat) : failure.shift n = failure := by
  unfold fieldValue at h
  split at h
  · split at h
    · contradiction
    · cases h; rfl
  all_goals cases h; rfl

theorem shift_of_recordFields {given : List (String × Source)} {declared : List (String × Ty)}
    (h : r.recordFields given declared = .error failure) (n : Nat) : failure.shift n = failure := by
  induction declared with
  | nil => contradiction
  | cons field rest ih =>
    obtain ⟨name, ty⟩ := field
    unfold recordFields at h
    cases hvalue : r.fieldValue name ty (given.lookup name) with
    | error refused =>
      rw [hvalue] at h
      cases h
      exact shift_of_fieldValue hvalue n
    | ok value =>
      rw [hvalue] at h
      cases hrest : r.recordFields given rest with
      | error refused => rw [hrest] at h; cases h; exact ih hrest
      | ok values => rw [hrest] at h; contradiction

theorem shift_of_make {ty : Ty} {given : List (String × Source)} (h : r.make ty (.fields given) = .error failure)
    (n : Nat) : failure.shift n = failure := by
  unfold make at h
  dsimp only at h
  split at h
  · rename_i declared _
    cases hfields : r.recordFields given declared with
    | error refused => rw [hfields] at h; cases h; exact shift_of_recordFields hfields n
    | ok found => rw [hfields] at h; contradiction
  · cases h; rfl

theorem shift_of_record {ty : Ty} {fields : List (String × Value)} (h : r.record ty fields = .error failure) (n : Nat) :
    failure.shift n = failure := shift_of_make h n

end Registry

/-- What a program may do with a stream, short of starting it anew. -/
inductive Call where
  | push (chunk : String)
  | close

def Session.serve (s : Session) (st : Stream) : Call → Stream × Option Failure
  | .push chunk => s.push st chunk
  | .close => s.close st

namespace Stream

/-- Serves calls one after the other, each with the registry and the policy of its time, and tells for each what
was raised. -/
def serveAll (st : Stream) : List (Session × Call) → Stream × List (Option Failure)
  | [] => (st, [])
  | (s, call) :: rest =>
    let (st', failure) := s.serve st call
    let (last, failures) := st'.serveAll rest
    (last, failure :: failures)

/-- The stream with records before its own, and characters before those it has matched. -/
def after (records : List Value) (consumed : Nat) (st : Stream) : Stream :=
  { st with consumed := consumed + st.consumed, records := records ++ st.records.map (·.shift consumed) }

section Simulation

variable (records : List Value) (n : Nat)

/-- What a stream comes to, with what was there before it. -/
def resultAfter (result : Stream × Option Failure) : Stream × Option Failure :=
  (result.1.after records n, result.2.map (·.shift n))

theorem take_after (r : Registry) (st : Stream) (c : Char) (next : Option Char) :
    (st.after records n).take r c next = resultAfter records n (st.take r c next) := by
  have hprogress : (st.after records n).progress = st.progress := rfl
  have hproduct : (st.after records n).layout.product = st.layout.product := rfl
  unfold take
  rw [hprogress, hproduct]
  cases st.progress.step r c next with
  | pending q => rfl
  | mismatch expected => rfl
  | complete fields =>
    dsimp only
    cases hrecord : r.record st.layout.product fields with
    | error failure => simp [resultAfter, after, Registry.shift_of_record hrecord n, Nat.add_assoc]
    | ok record =>
      have hkept := Value.shift_of_failure? (Registry.failure?_of_record hrecord) n
      simp [resultAfter, after, hkept, Nat.add_assoc]

theorem takeAll_after (r : Registry) (st : Stream) (cs : List Char) :
    (st.after records n).takeAll r cs = resultAfter records n (st.takeAll r cs) := by
  induction cs generalizing st with
  | nil => rfl
  | cons c cs ih =>
    by_cases hlast : cs = [] ∧ st.progress.atSlot
    · obtain ⟨rfl, hslot⟩ := hlast
      have hslot' : (st.after records n).progress.atSlot := hslot
      rw [takeAll_hold hslot, takeAll_hold hslot']
      rfl
    · have hlast' : ¬ (cs = [] ∧ (st.after records n).progress.atSlot) := hlast
      rw [takeAll_cons hlast, takeAll_cons hlast', take_after]
      cases st.take r c cs.head? with
      | mk st' failure =>
        cases failure with
        | some failure => rfl
        | none => exact ih st'

theorem push_after (r : Registry) (st : Stream) (chunk : String) :
    (st.after records n).push r chunk = resultAfter records n (st.push r chunk) :=
  takeAll_after records n r { st with held := none } _

theorem flush_after (r : Registry) (st : Stream) :
    (st.after records n).flush r = resultAfter records n (st.flush r) := by
  have hheld : (st.after records n).held = st.held := rfl
  unfold flush
  rw [hheld]
  cases st.held with
  | none => rfl
  | some c => exact take_after records n r { st with held := none } c none

theorem close_after (r : Registry) (st : Stream) :
    (st.after records n).close r = resultAfter records n (st.close r) := by
  unfold close
  rw [flush_after]
  cases st.flush r with
  | mk flushed failure =>
    cases failure with
    | some failure => rfl
    | none =>
      have hprogress : (flushed.after records n).progress = flushed.progress := rfl
      simp only [resultAfter, Option.map_none, hprogress]
      split <;> rfl

theorem handOver_after (policy : Policy) (result : Stream × Option Failure) :
    handOver policy (resultAfter records n result) = resultAfter records n (handOver policy result) := by
  obtain ⟨st, failure⟩ := result
  cases failure with
  | none => rfl
  | some failure =>
    cases policy with
    | raise => rfl
    | pass => simp [handOver, resultAfter, after, Value.shift]

theorem serve_after (s : Session) (st : Stream) (call : Call) :
    s.serve (st.after records n) call = resultAfter records n (s.serve st call) := by
  cases call with
  | push chunk => rw [Session.serve, Session.push, push_after, handOver_after]; rfl
  | close => rw [Session.serve, Session.close, close_after, handOver_after]; rfl

/-- What a stream does does not depend on what was there before it. -/
theorem serveAll_after (st : Stream) (calls : List (Session × Call)) :
    (st.after records n).serveAll calls =
      ((st.serveAll calls).1.after records n, (st.serveAll calls).2.map (·.map (·.shift n))) := by
  induction calls generalizing st with
  | nil => rfl
  | cons call rest ih =>
    obtain ⟨s, call⟩ := call
    simp only [serveAll, serve_after, resultAfter, ih, List.map_cons]

end Simulation

variable {r : Registry} {st : Stream}

/-- Nothing is left over, and all that follows is as it would be from the start, but behind the records there are, and
with the places of mismatches moved on by the characters that were matched. -/
structure Resumes (st : Stream) : Prop where
  idle : st.Idle
  serveAll : ∀ calls, st.serveAll calls =
    (((start st.layout).serveAll calls).1.after st.records st.consumed,
      ((start st.layout).serveAll calls).2.map (·.map (·.shift st.consumed)))

theorem Idle.resumes (h : st.Idle) : st.Resumes := by
  have hst : (start st.layout).after st.records st.consumed = st := by
    obtain ⟨layout, progress, held, consumed, records⟩ := st
    obtain ⟨rfl, rfl⟩ : held = none ∧ progress = .start layout.segments := ⟨h.held, h.progress⟩
    simp [start, after]
  refine ⟨h, fun calls => ?_⟩
  have hcalls := serveAll_after st.records st.consumed (start st.layout) calls
  rwa [hst] at hcalls

theorem Idle.handOver {policy : Policy} {result : Stream × Option Failure} (h : result.1.Idle) :
    (handOver policy result).1.Idle := by
  obtain ⟨records, heq⟩ := handOver_eq policy result
  rw [heq]
  exact ⟨h.held, h.progress⟩

/-- What a stream comes to where a chunk fails, and where the text ends. -/
structure Recovers (s : Session) (st : Stream) : Prop where
  /-- A failure is raised, or passed on among the records. -/
  failed : ∀ chunk, (s.push st chunk).2.isSome ∨
      (∃ value ∈ (s.push st chunk).1.records.drop st.records.length, value.isFailure) →
    (s.push st chunk).1.Resumes
  closed : (s.close st).1.Resumes
  /-- Records that any part of the chunk completes are kept. -/
  pushKept : ∀ front back, st.Grows (st.push s.registry front).1 ∧
    (st.push s.registry front).1.Grows (s.push st (front ++ back)).1
  /-- So is the record that the character held back completes. -/
  closeKept : st.Grows (st.flush s.registry).1 ∧ (st.flush s.registry).1.Grows (s.close st).1
  again : ∀ s' : Session, s'.close (s.close st).1 = ((s.close st).1, none)

/-- Every stream recovers from its failures, and from the end of its text. -/
theorem Reachable.recovers {s : Session} (h : Reachable s st) : st.Recovers s := by
  obtain ⟨hsound, hsteady⟩ := h.sound
  obtain ⟨-, hclosed, -⟩ := hsound.close hsteady
  have hidle : (s.close st).1.Idle := hclosed.handOver
  constructor
  case failed =>
    intro chunk hfailed
    have hfed := hsound.push chunk
    cases hpush : st.push s.registry chunk with
    | mk pushed failure =>
      rw [hpush] at hfed
      cases failure with
      | some failure =>
        have hpushed : (s.push st chunk).1.Idle := by
          rw [Session.push, hpush]
          exact (hfed.failed failure rfl).2.handOver
        exact hpushed.resumes
      | none =>
        -- a chunk that does not fail raises nothing, and adds no failure
        have hsession : s.push st chunk = (pushed, none) := by rw [Session.push, hpush, handOver]
        have hadds := adds_push s.registry st chunk
        rw [hsession] at hfailed
        rw [hpush] at hadds
        obtain hraised | ⟨value, hvalue, hfailure⟩ := hfailed
        · contradiction
        · rw [Value.isFailure, hadds.fresh value hvalue] at hfailure
          contradiction
  case closed => exact hidle.resumes
  case pushKept =>
    refine fun front back => ⟨(adds_push s.registry st front).toGrows, .trans ?_ (grows_handOver s.policy _)⟩
    rw [push_append]
    cases st.push s.registry front with
    | mk pushed failure =>
      cases failure with
      | some failure => exact .refl pushed
      | none => exact (adds_push s.registry pushed back).toGrows
  case closeKept =>
    exact ⟨(adds_flush s.registry st).toGrows, (adds_close s.registry st).toGrows.trans (grows_handOver s.policy _)⟩
  case again =>
    intro s'
    rw [Session.close, hidle.close, handOver]

/-- The second entry fails in the chunk that completes the first, and what follows it is read from the start: there the
second character is a mismatch again, and it is the tenth of the text. -/
theorem Reachable.recovers_entries :
    let s := Layout.entrySession .raise
    let st : Stream := (s.push (.start Layout.entryLayout) "1,a;07").1
    let failed := s.push st "2;"
    failed.2 = some (.literalMismatch ',' ';' 7) ∧ failed.1.records.length = 1 ∧ failed.1.Resumes ∧
      (failed.1.serveAll [(s, .push "1;"), (s, .close)]).2 = [some (.literalMismatch ',' ';' 9), none] := by
  have hstart : Reachable (Layout.entrySession .raise) (.start Layout.entryLayout) :=
    .start Layout.known_entryLayout
  have hresumes := (recovers (hstart.push "1,a;07")).failed "2;" (.inl rfl)
  refine ⟨rfl, rfl, hresumes, ?_⟩
  rw [hresumes.serveAll]
  rfl

end Stream
end TypeAlgebra
