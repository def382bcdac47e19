import TypeAlgebra.Intake
import TypeAlgebra.Proofs.Layout.Cursor
import TypeAlgebra.Proofs.Policy.Passing
import TypeAlgebra.Proofs.Stream.Reachable

/-! Reading with every failure handed over where it arises. Under either policy it does the same up to the first
failure, which is raised or is the last of the records. It comes to what reading comes to that matches by the segments
that are left and asks the policy at the end. -/
namespace TypeAlgebra

variable {s : Session} {layout : Layout}

namespace Cursor

variable {p : Cursor} {text : List Char}

/-- What a slot takes is a text of its type, of which a value is made under either policy. -/
theorem step_under (policy : Policy) (segments : List Segment) (c : Char) (next : Option Char) (offset : Nat) :
    p.step (s.under policy) segments c next offset = p.step s segments c next offset := by
  unfold step
  rcases segments[p.index]? with _ | ⟨text⟩ | ⟨name, ty⟩
  · rfl
  · rfl
  · dsimp only
    by_cases haccepts : s.registry.accepts ty (p.candidate.push c)
    · have haccepts' : (s.under policy).registry.accepts ty (p.candidate.push c) := haccepts
      obtain ⟨value, hread⟩ := s.registry.read?_of_accepts haccepts
      have hread' : (s.under policy).registry.read? ty (p.candidate.push c) = some value := hread
      rw [if_pos haccepts, if_pos haccepts', Session.makeAtOnce_of_read? hread, Session.makeAtOnce_of_read? hread']
      rfl
    · have haccepts' : ¬ (s.under policy).registry.accepts ty (p.candidate.push c) := haccepts
      rw [if_neg haccepts, if_neg haccepts']

theorem read_neutral (layout : Layout) (p : Cursor) (offset : Nat) (cs : List Char) :
    PolicyNeutral fun s => (p.read s layout offset cs, s) := by
  induction cs generalizing p offset with
  | nil => exact fun s hs => .report hs _
  | cons c cs ih =>
    intro s hs
    simp only [read, step_under]
    rcases p.step s layout.segments c cs.head? offset with ⟨result, q⟩
    match result with
    | .error failure => exact .report hs failure
    | .ok none => exact ih q (offset + 1) s hs
    | .ok (some fields) => exact Session.recordAtOnce_neutral layout.product fields s hs

/-- A record is read as by the segments that are left. -/
theorem Place.read_eq (h : p.Place layout.segments text) (hknown : layout.Known s.registry) (offset : Nat)
    (cs : List Char) : p.read s layout offset cs =
      s.policy.handOver (match (p.progress layout.segments).run s.registry offset cs with
        | .error failure => .error failure
        | .ok (fields, _) => s.registry.record layout.product fields) := by
  obtain ⟨declared, hfits⟩ := hknown.fits
  induction cs generalizing p text offset with
  | nil =>
    rw [read, Progress.run, awaited_progress]
    rfl
  | cons c cs ih =>
    have hmoves := (h.consumes s c cs.head? offset).moves
    generalize hstep : p.step s layout.segments c cs.head? offset = result at hmoves
    generalize hmove : (p.progress layout.segments).step s.registry c cs.head? = move at hmoves
    rw [read, Progress.run, hstep, hmove]
    cases hmoves with
    | pending q => exact ih (h.step hfits.solid hstep) (offset + 1)
    | complete fields => exact Session.recordAtOnce_eq s layout.product fields
    | mismatch expected => rfl

end Cursor

theorem Session.readRecordAtOnce_eq (h : layout.Known s.registry) (text : String) :
    s.readRecordAtOnce layout text = s.readRecord layout text := by
  obtain ⟨declared, hfits⟩ := h.fits
  have hplace : Cursor.start.Place layout.segments [] := Cursor.place_start hfits.solid hfits.nonempty
  rw [readRecordAtOnce, hplace.read_eq h, Cursor.progress_start]
  rfl

namespace Intake

/-- The stream that matches by the segments that are left. -/
def stream (intake : Intake) : Stream where
  layout := intake.layout
  progress := intake.cursor.progress intake.layout.segments
  held := intake.held
  consumed := intake.consumed
  records := intake.records

@[simp] theorem stream_start (layout : Layout) : (start layout).stream = .start layout := by
  simp [stream, start, Stream.start]

/-- The stream after reading, and the failure that was raised. -/
def told : Except Failure Unit × Intake → Stream × Option Failure
  | (.ok (), intake) => (intake.stream, none)
  | (.error failure, intake) => (intake.stream, some failure)

/-- The second reading is the first with its failure, if there is one, among the records. -/
structure Passes (raised passed : Except Failure Unit × Intake) : Prop where
  done : raised.1 = .ok () → passed = raised
  failed : ∀ failure, raised.1 = .error failure → passed = (.ok (), raised.2.add (.failure failure))

/-- The cursor stands in a layout that is known. -/
structure Sound (r : Registry) (intake : Intake) : Prop where
  known : intake.layout.Known r
  place : ∃ text, intake.cursor.Place intake.layout.segments text

/-- What taking text in comes to under either policy, beside what it comes to for the stream. It gives `go`, or
`stop` where a failure was passed on. -/
inductive Comes {α : Type} (s : Session) (go stop : α) (act : Session → Except Failure α × Intake) :
    Stream × Option Failure → Prop
  | done {after : Intake} (same : ∀ policy, act (s.under policy) = (.ok go, after)) (sound : after.Sound s.registry) :
      Comes s go stop act (after.stream, none)
  /-- Nothing is left in progress. -/
  | failed {after : Intake} {failure : Failure} (raised : act (s.under .raise) = (.error failure, after))
      (passed : act (s.under .pass) = (.ok stop, after.add (.failure failure))) (sound : after.Sound s.registry)
      (fresh : after.cursor = .start) : Comes s go stop act (after.stream, some failure)

variable {intake : Intake} {result : Stream × Option Failure}

theorem sound_start (h : layout.Known s.registry) : (start layout).Sound s.registry := by
  obtain ⟨declared, hfits⟩ := h.fits
  exact ⟨h, [], Cursor.place_start hfits.solid hfits.nonempty⟩

/-- The intake with the record in progress dropped. -/
def dropped (intake : Intake) : Intake := { intake with cursor := .start }

/-- The intake with one more character counted. -/
def counted (intake : Intake) : Intake := { intake with consumed := intake.consumed + 1 }

theorem Sound.dropped (h : intake.Sound s.registry) : intake.dropped.Sound s.registry :=
  ⟨h.known, (sound_start h.known).place⟩

theorem Sound.counted (h : intake.Sound s.registry) : intake.counted.Sound s.registry := ⟨h.known, h.place⟩

@[simp] theorem handOver_raise (intake : Intake) (s : Session) (failure : Failure) :
    intake.handOver (s.under .raise) failure = (.error failure, intake) := rfl

@[simp] theorem handOver_pass (intake : Intake) (s : Session) (failure : Failure) :
    intake.handOver (s.under .pass) failure = (.ok (), intake.add (.failure failure)) := rfl

section Take

variable {r : Registry} {c : Char} {next : Option Char}

theorem stream_take_pending {q : Cursor}
    (h : intake.stream.progress.step r c next = .pending (q.progress intake.layout.segments)) :
    intake.stream.take r c next = (({ intake.counted with cursor := q } : Intake).stream, none) := by
  rw [Stream.take, h]
  rfl

theorem stream_take_complete {fields : List (String × Value)} {record : Value}
    (h : intake.stream.progress.step r c next = .complete fields)
    (hmade : r.record intake.layout.product fields = .ok record) :
    intake.stream.take r c next = ((intake.counted.dropped.add record).stream, none) := by
  replace hmade : r.record intake.stream.layout.product fields = .ok record := hmade
  rw [Stream.take, h]
  dsimp only
  rw [hmade]
  simp [dropped, counted, stream, add]

theorem stream_take_mismatch {expected : Char} (h : intake.stream.progress.step r c next = .mismatch expected) :
    intake.stream.take r c next =
      (intake.counted.dropped.stream, some (.literalMismatch expected c intake.consumed)) := by
  rw [Stream.take, h]
  simp [dropped, counted, stream]

/-- Of one character the policy is only asked at a mismatch. -/
theorem Sound.take (h : intake.Sound s.registry) (c : Char) (next : Option Char) :
    Comes s true false (intake.take · c next) (intake.stream.take s.registry c next) := by
  obtain ⟨text, hplace⟩ := h.place
  obtain ⟨declared, hfits⟩ := h.known.fits
  have hmoves := (hplace.consumes s c next intake.consumed).moves
  generalize hstep : intake.cursor.step s intake.layout.segments c next intake.consumed = result at hmoves
  generalize hmove : (intake.cursor.progress intake.layout.segments).step s.registry c next = move at hmoves
  have hunder (policy : Policy) :
      intake.cursor.step (s.under policy) intake.layout.segments c next intake.consumed = result :=
    (Cursor.step_under policy _ _ _ _).trans hstep
  cases hmoves with
  | pending q =>
    rw [stream_take_pending hmove]
    refine .done (fun policy => ?_) ⟨h.known, _, hplace.step hfits.solid hstep⟩
    rw [Intake.take, hunder]
    rfl
  | complete fields =>
    -- There is a value for each field, so that the record can be made under either policy.
    obtain ⟨record, hmade⟩ := (hplace.complete hstep).1.exists_record hfits
    have hrecord (policy : Policy) : (s.under policy).recordAtOnce intake.layout.product fields = .ok record := by
      rw [Session.recordAtOnce_eq, Session.record, Session.registry_under, hmade]
      exact Session.handOver_ok policy record
    rw [stream_take_complete hmove hmade]
    refine .done (fun policy => ?_) ⟨h.known, h.dropped.place⟩
    rw [Intake.take, hunder]
    dsimp only
    rw [hrecord]
    rfl
  | mismatch expected =>
    rw [stream_take_mismatch hmove]
    refine .failed ?_ ?_ h.counted.dropped rfl
    · rw [Intake.take, hunder]
      rfl
    · rw [Intake.take, hunder]
      rfl

end Take

theorem Comes.congr {α : Type} {go stop : α} {act act' : Session → Except Failure α × Intake}
    (h : Comes s go stop act result) (heq : ∀ policy, act' (s.under policy) = act (s.under policy)) :
    Comes s go stop act' result := by
  cases h with
  | done same sound => exact .done (fun policy => (heq policy).trans (same policy)) sound
  | failed raised passed sound fresh =>
    exact .failed ((heq .raise).trans raised) ((heq .pass).trans passed) sound fresh

theorem Sound.takeAll (h : intake.Sound s.registry) (cs : List Char) :
    Comes s () () (intake.takeAll · cs) (intake.stream.takeAll s.registry cs) := by
  induction cs generalizing intake with
  | nil => exact .done (fun _ => rfl) h
  | cons c rest ih =>
    have hslot : intake.stream.progress.atSlot = intake.cursor.atSlot intake.layout.segments :=
      Cursor.atSlot_progress _ _
    have htake := h.take c rest.head?
    generalize htaken : intake.stream.take s.registry c rest.head? = taken at htake
    rw [Stream.takeAll, hslot, htaken]
    cases hlast : rest.isEmpty && intake.cursor.atSlot intake.layout.segments with
    | true =>
      have hsame (policy : Policy) :
          intake.takeAll (s.under policy) (c :: rest) = (.ok (), { intake with held := some c }) := by
        rw [Intake.takeAll, hlast, if_pos rfl]
      have hdone : Comes s () () (intake.takeAll · (c :: rest))
          (({ intake with held := some c } : Intake).stream, none) := .done hsame ⟨h.known, h.place⟩
      rw [if_pos rfl]
      exact hdone
    | false =>
      rw [if_neg Bool.false_ne_true]
      cases htake with
      | done same sound =>
        refine (ih sound).congr fun policy => ?_
        rw [Intake.takeAll, hlast, if_neg Bool.false_ne_true, same]
      | failed raised passed sound fresh =>
        refine .failed ?_ ?_ sound fresh
        · rw [Intake.takeAll, hlast, if_neg Bool.false_ne_true, raised]
        · rw [Intake.takeAll, hlast, if_neg Bool.false_ne_true, passed]

theorem Sound.push (h : intake.Sound s.registry) (chunk : String) :
    Comes s () () (intake.push · chunk) (intake.stream.push s.registry chunk) := by
  have hempty : ({ intake with held := none } : Intake).Sound s.registry := ⟨h.known, h.place⟩
  exact hempty.takeAll _

theorem Sound.flush (h : intake.Sound s.registry) :
    Comes s true false intake.flush (intake.stream.flush s.registry) := by
  have hheld : intake.stream.held = intake.held := rfl
  cases hchar : intake.held with
  | none =>
    rw [Stream.flush, hheld, hchar]
    exact .done (fun policy => by rw [Intake.flush, hchar]) h
  | some c =>
    have hempty : ({ intake with held := none } : Intake).Sound s.registry := ⟨h.known, h.place⟩
    rw [Stream.flush, hheld, hchar]
    exact (hempty.take c none).congr fun policy => by rw [Intake.flush, hchar]

/-- A failure of the character held back leaves nothing in progress, so that there is no second one. -/
theorem Sound.close (h : intake.Sound s.registry) :
    Comes s () () intake.close (intake.stream.close s.registry) := by
  have hflush := h.flush
  generalize hflushed : intake.stream.flush s.registry = flushed at hflush
  rw [Stream.close, hflushed]
  cases hflush with
  | @done after same sound =>
    obtain ⟨text, hplace⟩ := sound.place
    have hbegun : after.stream.progress.begun = after.cursor.begun := hplace.begun_progress
    dsimp only
    rw [hbegun]
    cases hcursor : after.cursor.begun with
    | false =>
      rw [if_neg Bool.false_ne_true]
      exact .done (fun policy => by simp [Intake.close, same, hcursor]) sound
    | true =>
      rw [if_pos rfl]
      have hstream : (({ after.stream with progress := after.stream.progress.restart } : Stream),
          some (Failure.unexpectedEnd after.stream.progress.awaited)) =
          (after.dropped.stream, some (.unexpectedEnd (after.cursor.awaited after.layout.segments))) := by
        simp [stream, Intake.dropped]
      rw [hstream]
      refine .failed ?_ ?_ sound.dropped rfl
      · simp [Intake.close, same, hcursor, Intake.dropped]
      · simp [Intake.close, same, hcursor, Intake.dropped]
  | @failed after failure raised passed sound fresh =>
    refine .failed ?_ ?_ sound fresh
    · rw [Intake.close, raised]
    · have hbegun : (after.add (.failure failure)).cursor.begun = false := by
        rw [add, fresh]
        rfl
      rw [Intake.close, passed]
      dsimp only
      rw [hbegun]
      rfl

section Outcomes

variable {act : Session → Except Failure Unit × Intake}

/-- What reading comes to under the policy of the session, beside what it comes to for the stream. -/
inductive Ends (s : Session) : Except Failure Unit × Intake → Stream × Option Failure → Prop
  | done {after : Intake} (sound : after.Sound s.registry) : Ends s (.ok (), after) (after.stream, none)
  | raised {after : Intake} {failure : Failure} (policy : s.policy = .raise) (sound : after.Sound s.registry) :
      Ends s (.error failure, after) (after.stream, some failure)
  | passed {after : Intake} {failure : Failure} (policy : s.policy = .pass) (sound : after.Sound s.registry) :
      Ends s (.ok (), after.add (.failure failure)) (after.stream, some failure)

theorem Comes.ends (h : Comes s () () act result) : Ends s (act s) result := by
  have hs : s.under s.policy = s := rfl
  cases h with
  | done same sound =>
    rw [← hs, same]
    exact .done sound
  | failed raised passed sound fresh =>
    cases hpolicy : s.policy with
    | raise =>
      rw [← hs, hpolicy, raised]
      exact .raised rfl sound
    | pass =>
      rw [← hs, hpolicy, passed]
      exact .passed rfl sound

variable {read : Except Failure Unit × Intake}

theorem Ends.sound (h : Ends s read result) : read.2.Sound s.registry := by
  cases h with
  | done sound => exact sound
  | raised policy sound => exact sound
  | passed policy sound => exact ⟨sound.known, sound.place⟩

/-- Handing a failure over where it arises comes to handing it over at the end. -/
theorem Ends.told_eq (h : Ends s read result) : told read = Stream.handOver s.policy result := by
  cases h with
  | done sound => rfl
  | raised policy sound =>
    rw [policy]
    rfl
  | passed policy sound =>
    rw [policy]
    rfl

theorem Ends.snd_eq_some {failure : Failure} (h : Ends s read result) (hraised : read.1 = .error failure) :
    result.2 = some failure := by
  cases h with
  | done sound => contradiction
  | raised policy sound =>
    cases hraised
    rfl
  | passed policy sound => contradiction

/-- Where failures are passed on, reading goes on. -/
theorem Ends.fst_eq_ok (h : Ends s read result) (hs : s.policy = .pass) : read.1 = .ok () := by
  cases h with
  | done sound => rfl
  | raised policy sound => cases hs.symm.trans policy
  | passed policy sound => rfl

theorem Comes.passes (h : Comes s () () act result) (hs : s.policy = .raise) :
    Passes (act s) (act (s.under .pass)) := by
  have hsame : s.under .raise = s := by rw [← hs]; rfl
  cases h with
  | done same sound =>
    rw [← hsame, same]
    exact ⟨fun _ => same .pass, nofun⟩
  | failed raised passed sound fresh =>
    rw [hsame] at raised
    rw [raised]
    refine ⟨nofun, fun failure heq => ?_⟩
    cases heq
    exact passed

theorem fst_told (result : Except Failure Unit × Intake) : (told result).1 = result.2.stream := by
  obtain ⟨_ | _, _⟩ := result <;> rfl

end Outcomes

/-- What there can be of a text taken in. Between calls the registry may grow, and the policy change. -/
inductive Reachable : Session → Intake → Prop
  | start {s : Session} {layout : Layout} (known : layout.Known s.registry) : Reachable s (.start layout)
  | push {s : Session} {intake : Intake} (chunk : String) (h : Reachable s intake) :
      Reachable s (intake.push s chunk).2
  | close {s : Session} {intake : Intake} (h : Reachable s intake) : Reachable s (intake.close s).2
  | later {s s' : Session} {intake : Intake} (leads : s.registry.Leads s'.registry) (h : Reachable s intake) :
      Reachable s' intake

namespace Reachable

theorem sound (h : intake.Reachable s) : intake.Sound s.registry := by
  induction h with
  | start known => exact sound_start known
  | push chunk h ih => exact (ih.push chunk).ends.sound
  | close h ih => exact ih.close.ends.sound
  | later leads h ih => exact ⟨ih.known.leads leads, ih.place⟩

theorem push_stream (h : intake.Reachable s) (chunk : String) :
    told (intake.push s chunk) = s.push intake.stream chunk := (h.sound.push chunk).ends.told_eq

theorem close_stream (h : intake.Reachable s) : told (intake.close s) = s.close intake.stream :=
  h.sound.close.ends.told_eq

/-- What it comes to is a stream that reading makes. -/
theorem stream (h : intake.Reachable s) : Stream.Reachable s intake.stream := by
  induction h with
  | start known =>
    rw [stream_start]
    exact .start known
  | push chunk h ih =>
    rw [← fst_told, h.push_stream]
    exact ih.push chunk
  | close h ih =>
    rw [← fst_told, h.close_stream]
    exact ih.close
  | later leads h ih => exact ih.later leads

/-- A record that is complete can be made, so that only a mismatch is raised. -/
theorem mismatch_of_push (h : intake.Reachable s) {chunk : String} {failure : Failure}
    (hraised : (intake.push s chunk).1 = .error failure) :
    ∃ expected got offset, failure = .literalMismatch expected got offset := by
  have hfailure := (h.sound.push chunk).ends.snd_eq_some hraised
  exact ((h.stream.sound.1.push chunk).failed failure hfailure).1

end Reachable
end Intake

/-- All streams that reading makes are got by a cursor. -/
theorem Stream.Reachable.exists_intake {st : Stream} (h : st.Reachable s) :
    ∃ intake : Intake, intake.Reachable s ∧ intake.stream = st := by
  induction h with
  | start known => exact ⟨_, .start known, Intake.stream_start _⟩
  | restart h ih =>
    obtain ⟨intake, hintake, rfl⟩ := ih
    exact ⟨_, .start hintake.sound.known, Intake.stream_start _⟩
  | push chunk h ih =>
    obtain ⟨intake, hintake, rfl⟩ := ih
    exact ⟨_, .push chunk hintake, by rw [← Intake.fst_told, hintake.push_stream]⟩
  | close h ih =>
    obtain ⟨intake, hintake, rfl⟩ := ih
    exact ⟨_, .close hintake, by rw [← Intake.fst_told, hintake.close_stream]⟩
  | later leads h ih =>
    obtain ⟨intake, hintake, rfl⟩ := ih
    exact ⟨_, .later leads hintake, rfl⟩

end TypeAlgebra
