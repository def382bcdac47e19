import TypeAlgebra.Proofs.File
import TypeAlgebra.Proofs.Layout.Line
import TypeAlgebra.Proofs.Stream.Iteration

/-! Reading a text line by line where each record is a line. Lines that hold a record, or that differ from a literal,
are told of one by one. The first line that ends inside a record takes all that follow with it. -/
namespace TypeAlgebra

/-- What lines come to one by one, after so many characters matched. -/
def Layout.readLines (r : Registry) (layout : Layout) (consumed : Nat) : List String → List Value
  | [] => []
  | line :: rest =>
    match layout.readRecord r line with
    | .ok record => record :: readLines r layout (consumed + line.length) rest
    | .error (.literalMismatch expected got offset) =>
      .failure (.literalMismatch expected got (consumed + offset)) ::
        readLines r layout (consumed + (offset + 1)) rest
    | .error failure => [.failure failure]

namespace Layout

variable {r : Registry} {layout : Layout} {text : String}

theorem readRecord_error {failure : Failure}
    (hrun : (Progress.start layout.segments).run r 0 text.toList = .error failure) :
    layout.readRecord r text = .error failure := by
  rw [readRecord, hrun]

theorem readRecord_matched {fields : List (String × Value)} {rest : List Char}
    (hrun : (Progress.start layout.segments).run r 0 text.toList = .ok (fields, rest)) :
    layout.readRecord r text = r.record layout.product fields := by
  rw [readRecord, hrun]

end Layout

/-- The stream after lines one by one, under the policy in force. -/
def Session.feed (s : Session) (st : Stream) (lines : List String) : Stream :=
  lines.foldl (fun st line => (s.push st line).1) st

namespace Progress

variable {r : Registry} {p : Progress}

/-- Matching fails by a mismatch, or where the text ends. -/
theorem run_failure {n : Nat} {cs : List Char} {failure : Failure} (h : p.run r n cs = .error failure) :
    (∃ expected got offset, failure = .literalMismatch expected got offset) ∨ ∃ awaited, failure = .unexpectedEnd awaited := by
  induction cs generalizing p n with
  | nil => cases h; exact .inr ⟨p.awaited, rfl⟩
  | cons c cs ih =>
    rw [run] at h
    cases hstep : p.step r c cs.head? with
    | pending q => rw [hstep] at h; exact ih h
    | complete fields => rw [hstep] at h; contradiction
    | mismatch expected => rw [hstep] at h; cases h; exact .inl ⟨expected, c, n, rfl⟩

end Progress

namespace Stream

variable {r : Registry} {st : Stream} {cs : List Char}

/-- What reading a record from a text comes to, and what matching does that goes on from the start. -/
inductive Begins (r : Registry) (st : Stream) (cs : List Char) : Prop
  | record {fields : List (String × Value)} {rest : List Char} {record : Value}
      (run : st.progress.run r st.consumed cs = .ok (fields, rest))
      (made : r.record st.layout.product fields = .ok record)
      (read : st.layout.readRecord r (.ofList cs) = .ok record) : Begins r st cs
  | mismatch {expected got : Char} {offset : Nat}
      (run : st.progress.run r st.consumed cs = .error (.literalMismatch expected got (st.consumed + offset)))
      (read : st.layout.readRecord r (.ofList cs) = .error (.literalMismatch expected got offset)) : Begins r st cs
  | inside {awaited : String} (run : st.progress.run r st.consumed cs = .error (.unexpectedEnd awaited))
      (read : st.layout.readRecord r (.ofList cs) = .error (.unexpectedEnd awaited)) : Begins r st cs

theorem Sound.begins (h : st.Sound r) (hidle : st.Idle) (cs : List Char) : Begins r st cs := by
  obtain ⟨declared, hfits⟩ := h.known.fits
  have hshift := Progress.run_shift (p := .start st.layout.segments) (r := r) st.consumed 0 cs
  rw [Nat.add_zero, ← hidle.progress] at hshift
  have hstart (result : Except Failure (List (String × Value) × List Char))
      (hrun : st.progress.run r 0 cs = result) :
      (Progress.start st.layout.segments).run r 0 (String.ofList cs).toList = result := by
    rw [String.toList_ofList, ← hidle.progress, hrun]
  cases hrun : st.progress.run r 0 cs with
  | error failure =>
    have hread := Layout.readRecord_error (hstart _ hrun)
    rw [hrun] at hshift
    rcases Progress.run_failure hrun with ⟨expected, got, offset, rfl⟩ | ⟨awaited, rfl⟩
    · exact .mismatch hshift hread
    · exact .inside hshift hread
  | ok matched =>
    obtain ⟨fields, rest⟩ := matched
    rw [hrun] at hshift
    obtain ⟨done, hprogress⟩ := h.progress
    have hcommitted := Progress.run_sound hprogress hrun
    obtain ⟨record, hmade⟩ := hcommitted.exists_record hfits
    exact .record hshift hmade ((Layout.readRecord_matched (hstart _ hrun)).trans hmade)

theorem push_ofList (hheld : st.held = none) : st.push r (.ofList cs) = st.takeAll r cs := by
  rw [push, hheld, eq_of_held hheld, String.toList_ofList]
  rfl

/-- The stream at the start again, with a value more. -/
def settled (st : Stream) (consumed : Nat) (value : Value) : Stream :=
  { st with progress := .start st.layout.segments, consumed, records := st.records ++ [value] }

theorem Sound.settled (h : st.Sound r) (consumed : Nat) (value : Value) : (st.settled consumed value).Sound r :=
  ⟨h.known, (sound_start h.known).progress⟩

theorem Idle.settled (h : st.Idle) (consumed : Nat) (value : Value) : (st.settled consumed value).Idle :=
  ⟨h.held, rfl⟩

/-- A mismatch drops the record in progress and the rest of the chunk. -/
theorem takeAll_mismatch (h : st.Sound r) (hheld : st.held = none) {expected got : Char} {offset : Nat}
    (hrun : st.progress.run r st.consumed cs = .error (.literalMismatch expected got offset)) :
    st.takeAll r cs = ({ st with progress := .start st.layout.segments, consumed := offset + 1 },
      some (.literalMismatch expected got offset)) := by
  induction cs generalizing st with
  | nil => cases hrun
  | cons c cs ih =>
    rw [Progress.run] at hrun
    by_cases hlast : cs = [] ∧ st.progress.atSlot
    · -- the last character inside a slot is no mismatch
      obtain ⟨rfl, hslot⟩ := hlast
      cases hstep : st.progress.step r c [].head? with
      | pending q => rw [hstep] at hrun; cases hrun
      | complete fields => rw [hstep] at hrun; cases hrun
      | mismatch other => exact (Progress.step_ne_mismatch hslot c _ other hstep).elim
    · have ht := h.take c cs.head?
      rw [takeAll_cons hlast]
      generalize st.take r c cs.head? = result at ht
      cases ht with
      | @pending q step begun sound =>
        rw [step] at hrun
        exact @ih { st with consumed := st.consumed + 1, progress := q } ⟨h.known, sound⟩ hheld hrun
      | complete step made => rw [step] at hrun; contradiction
      | mismatch step =>
        rw [step] at hrun
        cases hrun
        rfl

/-- A line that holds a record is taken whole. -/
theorem takeAll_line (hone : st.layout.OneLine r) (h : st.Sound r) (hheld : st.held = none) {line : List Char}
    (hline : '\n' ∉ line) {fields : List (String × Value)} {rest : List Char} {record : Value}
    (hrun : st.progress.run r st.consumed (line ++ ['\n']) = .ok (fields, rest))
    (hmade : r.record st.layout.product fields = .ok record) :
    st.takeAll r (line ++ ['\n']) = (st.settled (st.consumed + (line ++ ['\n']).length) record, none) := by
  obtain ⟨done, hprogress⟩ := h.progress
  induction line generalizing st done with
  | nil =>
    have hslot : ¬ st.progress.atSlot := by
      intro hslot
      have hopen := Progress.run_of_atSlot hone hprogress hslot st.consumed []
      rw [List.nil_append, hopen] at hrun
      contradiction
    have ht := h.take '\n' none
    rw [List.nil_append] at hrun ⊢
    rw [takeAll_cons fun hlast => hslot hlast.2, List.head?_nil]
    rw [Progress.run, List.head?_nil] at hrun
    generalize st.take r '\n' none = result at ht
    cases ht with
    | pending step begun sound => rw [step] at hrun; contradiction
    | complete step made =>
      rw [step] at hrun
      cases hrun
      rw [hmade] at made
      cases made
      rfl
    | mismatch step => rw [step] at hrun; contradiction
  | cons c line ih =>
    simp only [List.mem_cons, not_or] at hline
    have ht := h.take c (line ++ ['\n']).head?
    rw [List.cons_append, takeAll_cons (by simp)]
    rw [List.cons_append, Progress.run] at hrun
    generalize st.take r c (line ++ ['\n']).head? = result at ht
    cases ht with
    | @pending q step begun sound =>
      rw [step] at hrun
      obtain ⟨done', hq⟩ := sound
      have hrest := @ih { st with consumed := st.consumed + 1, progress := q } hone ⟨h.known, done', hq⟩ hheld hline.2
        hrun hmade done' hq
      have hlength : st.consumed + 1 + (line ++ ['\n']).length = st.consumed + (c :: (line ++ ['\n'])).length := by
        rw [List.length_cons]
        omega
      rw [← hlength]
      exact hrest
    | complete step made => exact (hline.1 (Progress.eq_of_complete hone hprogress step).1.symm).elim
    | mismatch step => rw [step] at hrun; contradiction

/-- A text that ends inside a record fails only when it is ended. -/
theorem push_inside (h : st.Sound r) (hidle : st.Idle) (hcs : cs ≠ []) {awaited : String}
    (hrun : st.progress.run r st.consumed cs = .error (.unexpectedEnd awaited)) :
    ∃ pushed closed : Stream, st.push r (.ofList cs) = (pushed, none) ∧
      pushed.close r = (closed, some (.unexpectedEnd awaited)) ∧ closed.records = st.records := by
  have hdrain := drain_eq h hidle.held (.inl hcs)
  rw [hrun] at hdrain
  obtain ⟨hfailure, hrecords⟩ := hdrain
  rcases push_close_cases h hidle.held (.ofList cs) with
    ⟨pushed, expected, got, offset, -, -, heq⟩ | ⟨pushed, closed, onClose, hpush, hclose, -, heq⟩
  · rw [String.toList_ofList] at heq
    rw [heq] at hfailure
    cases hfailure
  · rw [String.toList_ofList] at heq
    rw [heq] at hfailure hrecords
    cases hfailure
    exact ⟨pushed, closed, hpush, hclose, hrecords⟩

section Pass

variable {s : Session} (hs : s.policy = .pass)

/-- Lines that do not fail together do not fail one by one. -/
theorem feed_of_pushed (h : st.Sound s.registry) (hsteady : st.Steady) {lines : List String} {final : Stream}
    (hpush : st.push s.registry (String.join lines) = (final, none)) : s.feed st lines = final := by
  induction lines generalizing st with
  | nil =>
    rw [String.join_nil, push_empty hsteady] at hpush
    cases hpush
    rfl
  | cons line rest ih =>
    rw [String.join_cons, push_append] at hpush
    have hfed := h.push line
    cases hline : st.push s.registry line with
    | mk fed failure =>
      rw [hline] at hpush hfed
      cases failure with
      | some failure => cases hpush
      | none =>
        have hkept : s.push st line = (fed, none) := by rw [Session.push, hline, handOver]
        rw [Session.feed, List.foldl_cons, hkept]
        exact ih hfed.sound hfed.steady hpush

include hs

theorem push_mismatch (h : st.Sound s.registry) (hidle : st.Idle) {expected got : Char} {offset : Nat}
    (hrun : st.progress.run s.registry st.consumed cs = .error (.literalMismatch expected got offset)) :
    s.push st (.ofList cs) = (st.settled (offset + 1) (.failure (.literalMismatch expected got offset)), none) := by
  rw [Session.push, push_ofList hidle.held, takeAll_mismatch h hidle.held hrun, hs]
  rfl

theorem close_passed {closed : Stream} {failure : Failure} (hclose : st.close s.registry = (closed, some failure)) :
    s.close st = ({ closed with records := closed.records ++ [.failure failure] }, none) := by
  rw [Session.close, hclose, hs, handOver]

/-- Lines that end inside a record when they are taken together come to that failure, and to nothing else. -/
theorem close_feed_inside (h : st.Sound s.registry) (hidle : st.Idle) {lines : List String} {awaited : String}
    (hne : String.join lines ≠ "")
    (hrun : st.progress.run s.registry st.consumed (String.join lines).toList = .error (.unexpectedEnd awaited)) :
    (s.close (s.feed st lines)).1.records = st.records ++ [.failure (.unexpectedEnd awaited)] := by
  obtain ⟨pushed, closed, hpush, hclose, hrecords⟩ := push_inside h hidle (String.toList_eq_nil_iff.not.mpr hne) hrun
  rw [String.ofList_toList] at hpush
  rw [feed_of_pushed h hidle.steady hpush, close_passed hs hclose, hrecords]

/-- The lines of a text give what they come to one by one. -/
theorem close_feed (hone : st.layout.OneLine s.registry) (h : st.Sound s.registry) (hidle : st.Idle)
    {lines : List (List Char)} (hlined : File.Lined lines) :
    (s.close (s.feed st (lines.map .ofList))).1.records =
      st.records ++ st.layout.readLines s.registry st.consumed (lines.map .ofList) := by
  induction hlined generalizing st with
  | nil =>
    rw [List.map_nil, Session.feed, List.foldl_nil, Session.close, hidle.close, handOver, Layout.readLines,
      List.append_nil]
  | @last line nonempty hline =>
    obtain ⟨done, hprogress⟩ := h.progress
    rw [List.map_singleton, Layout.readLines]
    cases h.begins hidle line with
    | record run => exact (Progress.run_ne_ok hone hprogress hline _ _ run).elim
    | @mismatch expected got offset run read =>
      have hnext := (hidle.settled (st.consumed + offset + 1)
        (.failure (.literalMismatch expected got (st.consumed + offset)))).close (r := s.registry)
      rw [read, Session.feed, List.foldl_cons, List.foldl_nil, push_mismatch hs h hidle run, Session.close, hnext,
        handOver]
      rfl
    | @inside awaited run read =>
      have hrun : st.progress.run s.registry st.consumed (String.join [String.ofList line]).toList =
          .error (.unexpectedEnd awaited) := by simpa using run
      rw [read, close_feed_inside hs h hidle (by simpa using nonempty) hrun]
  | @cons line rest hline hrest ih =>
    obtain ⟨done, hprogress⟩ := h.progress
    rw [List.map_cons, Layout.readLines]
    cases h.begins hidle (line ++ ['\n']) with
    | @record fields matched record run made read =>
      have hpush : s.push st (.ofList (line ++ ['\n'])) =
          (st.settled (st.consumed + (line ++ ['\n']).length) record, none) := by
        rw [Session.push, push_ofList hidle.held, takeAll_line hone h hidle.held hline run made, handOver]
      rw [read, Session.feed, List.foldl_cons, hpush, ← Session.feed]
      rw [@ih (st.settled _ record) hone (h.settled _ _) (hidle.settled _ _), String.length_ofList]
      exact List.append_assoc ..
    | @mismatch expected got offset run read =>
      rw [read, Session.feed, List.foldl_cons, push_mismatch hs h hidle run, ← Session.feed]
      rw [@ih (st.settled _ _) hone (h.settled _ _) (hidle.settled _ _)]
      exact List.append_assoc ..
    | @inside awaited run read =>
      have hjoin : (String.join (String.ofList (line ++ ['\n']) :: rest.map .ofList)).toList =
          line ++ '\n' :: (String.join (rest.map .ofList)).toList := by simp
      have hrun : st.progress.run s.registry st.consumed
          (String.join (String.ofList (line ++ ['\n']) :: rest.map .ofList)).toList = .error (.unexpectedEnd awaited) := by
        rw [hjoin, Progress.run_line hone hprogress hline, run]
        rfl
      have hne : String.join (String.ofList (line ++ ['\n']) :: rest.map .ofList) ≠ "" := by
        intro hempty
        rw [hempty] at hjoin
        simp at hjoin
      rw [read, close_feed_inside hs h hidle hne hrun]

end Pass

end Stream

namespace Layout

variable {r : Registry} {layout : Layout}

/-- On its own the line ends inside a record. -/
def EndsInside (r : Registry) (layout : Layout) (line : String) : Prop :=
  ∃ awaited, layout.readRecord r line = .error (.unexpectedEnd awaited)

instance (r : Registry) (layout : Layout) (line : String) : Decidable (layout.EndsInside r line) :=
  decidable_of_iff ((match layout.readRecord r line with
    | .error (.unexpectedEnd _) => true
    | _ => false) = true) (by unfold EndsInside; split <;> simp_all)

/-- Lines that do not end inside a record come to one value each, whatever follows them. -/
theorem readLines_append (h : layout.Known r) {before : List String} (hbefore : ∀ line ∈ before, ¬ layout.EndsInside r line)
    (consumed : Nat) : ∃ values later, values.length = before.length ∧
      ∀ rest, layout.readLines r consumed (before ++ rest) = values ++ layout.readLines r later rest := by
  induction before generalizing consumed with
  | nil => exact ⟨[], consumed, rfl, fun rest => rfl⟩
  | cons line before ih =>
    rw [List.forall_mem_cons] at hbefore
    have hidle : (Stream.start layout).Idle := ⟨rfl, rfl⟩
    have hbegins := (Stream.sound_start h).begins hidle line.toList
    have hline : String.ofList line.toList = line := String.ofList_toList
    cases hbegins with
    | @record fields rest record run made read =>
      rw [hline] at read
      obtain ⟨values, later, hlength, hrest⟩ := ih hbefore.2 (consumed + line.length)
      refine ⟨record :: values, later, by simp [hlength], fun rest => ?_⟩
      have hread : layout.readRecord r line = .ok record := read
      rw [List.cons_append, readLines, hread]
      exact congrArg (record :: ·) (hrest rest)
    | @mismatch expected got offset run read =>
      rw [hline] at read
      obtain ⟨values, later, hlength, hrest⟩ := ih hbefore.2 (consumed + (offset + 1))
      refine ⟨.failure (.literalMismatch expected got (consumed + offset)) :: values, later, by simp [hlength],
        fun rest => ?_⟩
      have hread : layout.readRecord r line = .error (.literalMismatch expected got offset) := read
      rw [List.cons_append, readLines, hread]
      exact congrArg (_ :: ·) (hrest rest)
    | @inside awaited run read =>
      rw [hline] at read
      exact (hbefore.1 ⟨awaited, read⟩).elim

end Layout
end TypeAlgebra
