import TypeAlgebra.Proofs.Stream.Chunks

/-! Reading a text as a stream comes to reading one record after the other from what is left of it. The held
back character, the end of the text and the borders between records make no difference. -/
namespace TypeAlgebra

/-- The failure with its place in the text moved on. -/
def Failure.shift (n : Nat) : Failure → Failure
  | .literalMismatch expected got offset => .literalMismatch expected got (n + offset)
  | failure => failure

@[simp] theorem Failure.shift_zero (failure : Failure) : failure.shift 0 = failure := by
  cases failure <;> simp [shift]

@[simp] theorem Failure.shift_shift (m n : Nat) (failure : Failure) :
    (failure.shift n).shift m = failure.shift (m + n) := by
  cases failure <;> simp [shift, Nat.add_assoc]

namespace Progress

variable {r : Registry} {p : Progress}

/-- Counting from a later offset changes nothing but the place of a failure. -/
theorem run_shift (m n : Nat) (cs : List Char) :
    p.run r (m + n) cs = (p.run r n cs).mapError (·.shift m) := by
  induction cs generalizing p n with
  | nil => rfl
  | cons c cs ih =>
    unfold run
    cases p.step r c cs.head? with
    | pending q => exact ih (n + 1)
    | complete fields => rfl
    | mismatch expected => rfl

theorem run_shorter {n : Nat} {cs rest : List Char} {fields : List (String × Value)}
    (h : p.run r n cs = .ok (fields, rest)) : rest.length < cs.length := by
  induction cs generalizing p n with
  | nil => contradiction
  | cons c cs ih =>
    unfold run at h
    cases hstep : p.step r c cs.head? with
    | pending q =>
      rw [hstep] at h
      exact Nat.lt_succ_of_lt (ih h)
    | complete fields' =>
      rw [hstep] at h
      cases h
      exact Nat.lt_succ_self _
    | mismatch expected => rw [hstep] at h; contradiction

end Progress

/-- Reads one record after the other from the front of what is left, up to a failure. The place of a failure
is counted from the start of the whole text. -/
def Layout.iterate (r : Registry) (layout : Layout) (input : List Char) : List Value × Option Failure :=
  if input = [] then ([], none)
  else match _hrun : (Progress.start layout.segments).run r 0 input with
    | .error failure => ([], some failure)
    | .ok (fields, rest) =>
      match r.record layout.product fields with
      | .error failure => ([], some failure)
      | .ok record =>
        let (records, failure?) := iterate r layout rest
        (record :: records, failure?.map (·.shift (input.length - rest.length)))
termination_by input.length
decreasing_by exact Progress.run_shorter _hrun

namespace Layout

variable {r : Registry} {layout : Layout} {input : List Char}

theorem iterate_nil : iterate r layout [] = ([], none) := by
  rw [iterate]
  rfl

theorem iterate_error (hinput : input ≠ []) {failure : Failure}
    (hrun : (Progress.start layout.segments).run r 0 input = .error failure) :
    iterate r layout input = ([], some failure) := by
  rw [iterate, if_neg hinput]
  split
  · rename_i heq; rw [hrun] at heq; cases heq; rfl
  · rename_i heq; rw [hrun] at heq; contradiction

theorem iterate_ok {fields : List (String × Value)} {rest : List Char} {record : Value}
    (hrun : (Progress.start layout.segments).run r 0 input = .ok (fields, rest))
    (hrecord : r.record layout.product fields = .ok record) :
    iterate r layout input = (record :: (iterate r layout rest).1,
      (iterate r layout rest).2.map (·.shift (input.length - rest.length))) := by
  have hinput : input ≠ [] := by
    rintro rfl
    contradiction
  rw [iterate, if_neg hinput]
  split
  · rename_i heq; rw [hrun] at heq; contradiction
  · rename_i heq
    rw [hrun] at heq
    cases heq
    simp only [hrecord]

end Layout

namespace Stream

/-- Matches a text and ends it. -/
def drain (r : Registry) (st : Stream) (cs : List Char) : Stream × Option Failure :=
  match st.takeAll r cs with
  | (st, some failure) => (st, some failure)
  | (st, none) => st.close r

variable {r : Registry} {st : Stream}

theorem close_of_held (hheld : st.held = none) : st.close r =
    if st.progress.begun then
      ({ st with progress := st.progress.restart }, some (.unexpectedEnd st.progress.awaited))
    else (st, none) := by
  simp only [close, flush, hheld]

theorem Idle.close (h : st.Idle) : st.close r = (st, none) := by
  have hbegun : st.progress.begun = false := by simp [h.progress, Progress.begun, Progress.start]
  rw [close_of_held h.held, hbegun]
  rfl

/-- Where the whole text is there, each character sees the one behind it. -/
theorem drain_cons (hheld : st.held = none) (c : Char) (rest : List Char) :
    st.drain r (c :: rest) =
      match st.take r c rest.head? with
      | (st', some failure) => (st', some failure)
      | (st', none) => st'.drain r rest := by
  unfold drain
  by_cases hlast : rest = [] ∧ st.progress.atSlot
  · -- the last character is held back first, and taken where the text ends
    obtain ⟨rfl, hslot⟩ := hlast
    have hflush : ({ st with held := some c } : Stream).flush r = st.take r c none := by
      simp only [flush, eq_of_held hheld]
    have hkept := (take_held r st c none).trans hheld
    rw [takeAll_hold hslot, List.head?_nil]
    dsimp only
    rw [close, hflush]
    cases htake : st.take r c none with
    | mk st' failure =>
      rw [htake] at hkept
      cases failure with
      | some failure => rfl
      | none => exact (close_of_held hkept).symm
  · rw [takeAll_cons hlast]
    cases st.take r c rest.head? with
    | mk st' failure => cases failure <;> rfl

/-- Matching a text to the end is matching the record in progress, and what follows it from the start. -/
theorem drain_eq (h : st.Sound r) (hheld : st.held = none) {cs : List Char}
    (hopen : cs ≠ [] ∨ st.progress.begun) :
    match st.progress.run r st.consumed cs with
    | .error failure => (st.drain r cs).2 = some failure ∧ (st.drain r cs).1.records = st.records
    | .ok (fields, rest) => ∃ record, r.record st.layout.product fields = .ok record ∧
        st.drain r cs = ({ st with
          progress := .start st.layout.segments
          consumed := st.consumed + (cs.length - rest.length)
          records := st.records ++ [record] } : Stream).drain r rest := by
  induction cs generalizing st with
  | nil =>
    have hbegun : st.progress.begun := by simpa using hopen
    have hclose := close_of_held (r := r) hheld
    rw [hbegun] at hclose
    simp [Progress.run, drain, takeAll, hclose]
  | cons c cs ih =>
    rw [drain_cons hheld]
    have ht := h.take c cs.head?
    unfold Progress.run
    generalize htake : st.take r c cs.head? = result at ht
    cases ht with
    | @pending q step begun sound =>
      rw [step]
      dsimp only
      have hnext := @ih { st with consumed := st.consumed + 1, progress := q } ⟨h.known, sound⟩ hheld
        (.inr begun)
      dsimp only at hnext
      cases hrun : q.run r (st.consumed + 1) cs with
      | error failure =>
        rw [hrun] at hnext
        exact hnext
      | ok done =>
        obtain ⟨fields, rest⟩ := done
        rw [hrun] at hnext
        obtain ⟨record, hrecord, hdrain⟩ := hnext
        refine ⟨record, hrecord, hdrain.trans ?_⟩
        have hshorter := Progress.run_shorter hrun
        have hconsumed : st.consumed + 1 + (cs.length - rest.length) =
            st.consumed + ((c :: cs).length - rest.length) := by
          rw [List.length_cons]; omega
        rw [hconsumed]
    | @complete fields record step made =>
      rw [step]
      refine ⟨record, made, ?_⟩
      simp [dropped]
    | @mismatch expected step =>
      rw [step]
      exact ⟨rfl, rfl⟩

/-- Matching a text to the end is reading one record after the other from it. -/
theorem drain_iterate (h : st.Sound r) (hidle : st.Idle) (cs : List Char) :
    (st.drain r cs).2 = (st.layout.iterate r cs).2.map (·.shift st.consumed) ∧
      (st.drain r cs).1.records = st.records ++ (st.layout.iterate r cs).1 := by
  induction hlength : cs.length using Nat.strongRecOn generalizing st cs with
  | ind length ih =>
    by_cases hcs : cs = []
    · subst hcs
      simp [drain, takeAll, hidle.close, Layout.iterate_nil]
    · have hdrain := drain_eq h hidle.held (.inl hcs)
      rw [hidle.progress] at hdrain
      have hshift := Progress.run_shift (p := .start st.layout.segments) (r := r) st.consumed 0 cs
      rw [Nat.add_zero] at hshift
      rw [hshift] at hdrain
      cases hrun : (Progress.start st.layout.segments).run r 0 cs with
      | error failure =>
        rw [hrun] at hdrain
        dsimp only [Except.mapError] at hdrain
        simpa [Layout.iterate_error hcs hrun] using hdrain
      | ok done =>
        obtain ⟨fields, rest⟩ := done
        rw [hrun] at hdrain
        dsimp only [Except.mapError] at hdrain
        obtain ⟨record, hrecord, hdrain⟩ := hdrain
        have hshorter := Progress.run_shorter hrun
        -- what is left is read by the stream that stands at the start again
        obtain ⟨hfailure, hrecords⟩ := @ih rest.length (by omega)
          { st with
            progress := .start st.layout.segments
            consumed := st.consumed + (cs.length - rest.length)
            records := st.records ++ [record] }
          ⟨h.known, (sound_start h.known).progress⟩ ⟨hidle.held, rfl⟩ rest rfl
        rw [hdrain, Layout.iterate_ok hrun hrecord, hfailure, hrecords]
        constructor
        · rw [Option.map_map]
          congr 1
          funext failure
          exact (Failure.shift_shift _ _ failure).symm
        · simp

theorem drain_push (hheld : st.held = none) (text : String) :
    st.drain r text.toList =
      match st.push r text with
      | (st', some failure) => (st', some failure)
      | (st', none) => st'.close r := by
  rw [push, hheld, eq_of_held hheld]
  rfl

/-- A chunk that is the whole text fails and leaves nothing over, or it is matched and then ended. -/
theorem push_close_cases (h : st.Sound r) (hheld : st.held = none) (text : String) :
    (∃ pushed expected got offset, st.push r text = (pushed, some (.literalMismatch expected got offset)) ∧
      pushed.Idle ∧ st.drain r text.toList = (pushed, some (.literalMismatch expected got offset))) ∨
    ∃ pushed closed onClose, st.push r text = (pushed, none) ∧ pushed.close r = (closed, onClose) ∧
      (∀ failure, onClose = some failure → ∃ awaited, failure = .unexpectedEnd awaited) ∧
      st.drain r text.toList = (closed, onClose) := by
  have hfed := h.push text
  rw [drain_push hheld]
  cases hpush : st.push r text with
  | mk pushed failure =>
    rw [hpush] at hfed
    cases failure with
    | some failure =>
      obtain ⟨⟨expected, got, offset, rfl⟩, hidle⟩ := hfed.failed failure rfl
      exact .inl ⟨pushed, expected, got, offset, rfl, hidle, rfl⟩
    | none =>
      obtain ⟨-, -, hend⟩ := hfed.sound.close hfed.steady
      exact .inr ⟨pushed, _, _, rfl, rfl, fun failure hf => ⟨_, hend failure hf⟩, rfl⟩

end Stream

/-- Read as one chunk the text gives the one failure, and where it ends the other, and the records are these.
A failure that is passed on stands behind the records there are by then. -/
def Session.ReadsAs (s : Session) (st : Stream) (text : String) (onPush onClose : Option Failure)
    (records : List Value) : Prop :=
  ∃ pushed closed : Stream, st.push s.registry text = (pushed, onPush) ∧
    pushed.close s.registry = (closed, onClose) ∧ closed.records = records ∧
    match s.policy with
    | .raise => s.push st text = (pushed, onPush) ∧ s.close pushed = (closed, onClose)
    | .pass => ∃ pushed' closed' : Stream,
        s.push st text = (pushed', none) ∧ s.close pushed' = (closed', none) ∧
        pushed'.records = pushed.records ++ (onPush.map .failure).toList ∧
        closed'.records = records ++ ((onPush.or onClose).map .failure).toList

namespace Stream

variable {s : Session} {st pushed closed : Stream} {text : String}

/-- A chunk that fails leaves nothing for the end of the text to fail by. -/
theorem readsAs_of_failed {failure : Failure} (hpush : st.push s.registry text = (pushed, some failure))
    (hidle : pushed.Idle) : s.ReadsAs st text (some failure) none pushed.records := by
  refine ⟨pushed, pushed, hpush, hidle.close, rfl, ?_⟩
  cases hpolicy : s.policy with
  | raise => exact ⟨by simp [Session.push, hpush, hpolicy, handOver],
      by simp [Session.close, hidle.close, handOver]⟩
  | pass =>
    let passed : Stream := { pushed with records := pushed.records ++ [.failure failure] }
    have hpassed : passed.Idle := ⟨hidle.held, hidle.progress⟩
    refine ⟨passed, passed, ?_, ?_, rfl, rfl⟩
    · simp [Session.push, hpush, hpolicy, handOver, passed]
    · rw [Session.close, hpassed.close, handOver]

theorem readsAs_of_pushed {onClose : Option Failure} (hpush : st.push s.registry text = (pushed, none))
    (hclose : pushed.close s.registry = (closed, onClose)) :
    s.ReadsAs st text none onClose closed.records := by
  refine ⟨pushed, closed, hpush, hclose, rfl, ?_⟩
  have hkept : s.push st text = (pushed, none) := by simp [Session.push, hpush, handOver]
  cases hpolicy : s.policy with
  | raise => exact ⟨hkept, by cases onClose <;> simp [Session.close, hclose, hpolicy, handOver]⟩
  | pass =>
    refine ⟨pushed, (handOver .pass (closed, onClose)).1, hkept, ?_, by simp, ?_⟩ <;>
      cases onClose <;> simp [Session.close, hclose, hpolicy, handOver]

/-- From the start, a text read as a chunk and ended gives the records that reading one record after the other
gives. Where that comes to a mismatch the chunk fails with it, and where it comes to the end of the text
inside a record, ending the text does; otherwise nothing fails. -/
theorem push_close_iterate (h : Reachable s st) (text : String) :
    match st.layout.iterate s.registry text.toList with
    | (records, none) => s.ReadsAs st.restart text none none records
    | (records, some (.literalMismatch expected got offset)) =>
      s.ReadsAs st.restart text (some (.literalMismatch expected got offset)) none records
    | (records, some (.unexpectedEnd awaited)) =>
      s.ReadsAs st.restart text none (some (.unexpectedEnd awaited)) records
    | (_, some _) => False := by
  obtain ⟨hsound, -⟩ := h.restart.sound
  obtain ⟨hfailure, hrecords⟩ := drain_iterate hsound ⟨rfl, rfl⟩ text.toList
  have hlayout : st.restart.layout = st.layout := rfl
  have hconsumed : st.restart.consumed = 0 := rfl
  have hbefore : st.restart.records = [] := rfl
  rw [hlayout, hconsumed] at hfailure
  rw [hlayout, hbefore, List.nil_append] at hrecords
  generalize st.layout.iterate s.registry text.toList = iterated at hfailure hrecords
  obtain ⟨records, ending⟩ := iterated
  simp only [Failure.shift_zero, Option.map_id'] at hfailure hrecords
  rcases push_close_cases hsound rfl text with
    ⟨pushed, expected, got, offset, hpush, hidle, hdrain⟩ | ⟨pushed, closed, onClose, hpush, hclose, hend, hdrain⟩
  · rw [hdrain] at hfailure hrecords
    subst hfailure hrecords
    exact readsAs_of_failed hpush hidle
  · rw [hdrain] at hfailure hrecords
    subst hfailure hrecords
    cases onClose with
    | none => exact readsAs_of_pushed hpush hclose
    | some failure =>
      obtain ⟨awaited, rfl⟩ := hend failure rfl
      exact readsAs_of_pushed hpush hclose

/-- The text ends inside the second entry. -/
theorem push_close_iterate_entries :
    (Layout.entrySession .pass).ReadsAs (.start Layout.entryLayout) "12,a;073," none
      (some (.unexpectedEnd "field 'text'"))
      [.record ⟨5⟩ [("n", .int .int 12), ("text", .str ⟨3⟩ "a"), ("code", .int ⟨4⟩ 7)]] := by
  have hstart : Reachable (Layout.entrySession .pass) (.start Layout.entryLayout) :=
    .start Layout.known_entryLayout
  have hrun : (Progress.start Layout.entryLayout.segments).run Layout.entryRegistry 0 "12,a;073,".toList =
      .ok ([("code", .int ⟨4⟩ 7), ("n", .int .int 12), ("text", .str ⟨3⟩ "a")], ['3', ',']) := rfl
  have hend : Layout.iterate Layout.entryRegistry Layout.entryLayout ['3', ','] =
      ([], some (.unexpectedEnd "field 'text'")) := Layout.iterate_error (by decide) rfl
  have hiterate : Layout.iterate Layout.entryRegistry Layout.entryLayout "12,a;073,".toList =
      ([.record ⟨5⟩ [("n", .int .int 12), ("text", .str ⟨3⟩ "a"), ("code", .int ⟨4⟩ 7)]],
        some (.unexpectedEnd "field 'text'")) := by
    rw [Layout.iterate_ok hrun rfl, hend]
    rfl
  have hreads := push_close_iterate hstart "12,a;073,"
  have hlayout : (Stream.start Layout.entryLayout).layout = Layout.entryLayout := rfl
  have hregistry : (Layout.entrySession .pass).registry = Layout.entryRegistry := rfl
  rw [hlayout, hregistry, hiterate] at hreads
  exact hreads

end Stream
end TypeAlgebra
