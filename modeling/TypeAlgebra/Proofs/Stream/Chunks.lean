import TypeAlgebra.Proofs.Stream.Reachable

/-! Where a text is cut into chunks makes no difference. A character held back at the end of a chunk is taken
at the front of the next, so that it sees the character after it as it would without the cut. -/
namespace TypeAlgebra

/-- Matches chunks one after the other, up to the first that fails. -/
def Stream.pushAll (r : Registry) (st : Stream) : List String → Stream × Option Failure
  | [] => (st, none)
  | chunk :: rest =>
    match st.push r chunk with
    | (st, some failure) => (st, some failure)
    | (st, none) => st.pushAll r rest

/-- Matches chunks under the policy in force, up to the first that fails. -/
def Session.pushAll (s : Session) (st : Stream) : List String → Stream × Option Failure
  | [] => (st, none)
  | chunk :: rest =>
    match (st.push s.registry chunk).2 with
    | some _ => s.push st chunk
    | none => s.pushAll (s.push st chunk).1 rest

namespace Stream

variable {r : Registry} {st : Stream}

theorem take_of_not_atSlot (hslot : st.progress.atSlot = false) (c : Char) (next next' : Option Char) :
    st.take r c next = st.take r c next' := by
  unfold take
  rw [Progress.step_of_not_atSlot hslot c next next']

theorem take_held (r : Registry) (st : Stream) (c : Char) (next : Option Char) :
    (st.take r c next).1.held = st.held := by
  unfold take
  split
  · rfl
  · rfl
  · split <;> rfl

theorem eq_of_held (hheld : st.held = none) : ({ st with held := none } : Stream) = st := by rw [← hheld]

/-- The last character of a chunk is held back inside a slot. -/
theorem takeAll_hold (hslot : st.progress.atSlot) (c : Char) :
    st.takeAll r [c] = ({ st with held := some c }, none) := by
  simp [takeAll, hslot]

theorem takeAll_cons {c : Char} {rest : List Char} (h : ¬ (rest = [] ∧ st.progress.atSlot)) :
    st.takeAll r (c :: rest) =
      match st.take r c rest.head? with
      | (st', some failure) => (st', some failure)
      | (st', none) => st'.takeAll r rest := by
  have hlast : ¬ (rest.isEmpty && st.progress.atSlot) := by simpa using h
  rw [takeAll]
  exact if_neg hlast

/-- A text in two parts: the second is taken after what the first held back. -/
theorem takeAll_append (hheld : st.held = none) (front back : List Char) :
    st.takeAll r (front ++ back) =
      match st.takeAll r front with
      | (st', some failure) => (st', some failure)
      | (st', none) => ({ st' with held := none }).takeAll r (st'.held.toList ++ back) := by
  induction front generalizing st with
  | nil => simp only [takeAll, hheld, List.nil_append, Option.toList_none, eq_of_held]
  | cons c rest ih =>
    by_cases hlast : rest = [] ∧ st.progress.atSlot
    · -- the cut is right behind a character inside a slot
      obtain ⟨rfl, hslot⟩ := hlast
      simp only [takeAll_hold hslot, eq_of_held hheld, Option.toList_some]
    · have hnext : st.take r c (rest ++ back).head? = st.take r c rest.head? := by
        cases rest with
        | nil => exact take_of_not_atSlot (by simpa using hlast) c _ _
        | cons d rest => rfl
      have hlast' : ¬ (rest ++ back = [] ∧ st.progress.atSlot) := by
        rintro ⟨hnil, hslot⟩
        exact hlast ⟨(List.append_eq_nil_iff.mp hnil).1, hslot⟩
      rw [List.cons_append, takeAll_cons hlast, takeAll_cons hlast', hnext]
      have hkept := (take_held r st c rest.head?).trans hheld
      cases htake : st.take r c rest.head? with
      | mk st' failure =>
        rw [htake] at hkept
        cases failure with
        | some failure => rfl
        | none => exact ih hkept

theorem push_append (chunk rest : String) :
    st.push r (chunk ++ rest) =
      match st.push r chunk with
      | (st', some failure) => (st', some failure)
      | (st', none) => st'.push r rest := by
  unfold push
  rw [String.toList_append, ← List.append_assoc, takeAll_append rfl]

/-- A stream that holds a character back only inside a slot has nothing to do where nothing is added. -/
theorem push_empty (h : st.Steady) : st.push r "" = (st, none) := by
  obtain ⟨layout, progress, held, consumed, records⟩ := st
  cases held with
  | none => rfl
  | some c =>
    have hslot : progress.atSlot := h rfl
    simp [push, takeAll, hslot]

theorem pushAll_eq (h : st.Steady) (hsound : st.Sound r) (chunks : List String) :
    st.pushAll r chunks = st.push r (String.join chunks) := by
  induction chunks generalizing st with
  | nil => rw [String.join_nil, push_empty h, pushAll]
  | cons chunk rest ih =>
    rw [String.join_cons, push_append, pushAll]
    have hfed := hsound.push chunk
    cases hpush : st.push r chunk with
    | mk st' failure =>
      rw [hpush] at hfed
      cases failure with
      | some failure => rfl
      | none => exact ih hfed.steady hfed.sound

/-- Where a chunk fails, those before it did not. -/
theorem pushAll_failed {chunks : List String} {final : Stream} {failure : Failure}
    (h : st.pushAll r chunks = (final, some failure)) :
    ∃ before chunk after fed, chunks = before ++ chunk :: after ∧
      st.pushAll r before = (fed, none) ∧ fed.push r chunk = (final, some failure) := by
  induction chunks generalizing st with
  | nil => simp [pushAll] at h
  | cons chunk rest ih =>
    unfold pushAll at h
    cases hpush : st.push r chunk with
    | mk st' reason =>
      rw [hpush] at h
      cases reason with
      | some reason =>
        exact ⟨[], chunk, rest, st, rfl, rfl, hpush.trans h⟩
      | none =>
        obtain ⟨before, failing, after, fed, rfl, hbefore, hfailing⟩ := ih h
        refine ⟨chunk :: before, failing, after, fed, rfl, ?_, hfailing⟩
        rw [pushAll, hpush]
        exact hbefore

end Stream

/-- The policy is asked once, for the chunk that fails. -/
theorem Session.pushAll_eq (s : Session) (st : Stream) (chunks : List String) :
    s.pushAll st chunks = Stream.handOver s.policy (st.pushAll s.registry chunks) := by
  induction chunks generalizing st with
  | nil => rfl
  | cons chunk rest ih =>
    unfold Session.pushAll Stream.pushAll Session.push
    cases hpush : st.push s.registry chunk with
    | mk st' failure =>
      cases failure with
      | some failure => rfl
      | none => exact ih st'

/-- Reading a text chunk by chunk comes to what reading it at once comes to: the same stream, and the same
failure, which is a mismatch, at the first chunk that fails. -/
theorem Stream.push_join {s : Session} {st : Stream} (h : Reachable s st) (chunks : List String) :
    s.pushAll st chunks = s.push st (String.join chunks) ∧
    st.pushAll s.registry chunks = st.push s.registry (String.join chunks) ∧
    ∀ whole failure, st.push s.registry (String.join chunks) = (whole, some failure) →
      (∃ expected got offset, failure = .literalMismatch expected got offset) ∧
      ∃ before chunk after fed, chunks = before ++ chunk :: after ∧
        st.pushAll s.registry before = (fed, none) ∧
        fed.push s.registry chunk = (whole, some failure) := by
  obtain ⟨hsound, hsteady⟩ := h.sound
  have hjoin := pushAll_eq hsteady hsound chunks
  refine ⟨?_, hjoin, ?_⟩
  · rw [Session.pushAll_eq, hjoin]
    rfl
  · intro whole failure hfail
    have hfed := hsound.push (String.join chunks)
    rw [hfail] at hfed
    exact ⟨(hfed.failed failure rfl).1, pushAll_failed (hjoin.trans hfail)⟩

/-- The second entry fails in the third chunk, where its first character is held back from the chunk before. -/
theorem Stream.push_join_entries :
    let s := Layout.entrySession .raise
    let st := (s.push (.start Layout.entryLayout) "1").1
    let chunks := ["", "2,a;073", "x", "4"]
    s.pushAll st chunks = s.push st (String.join chunks) ∧
      ∃ before chunk after fed failed, chunks = before ++ chunk :: after ∧
        st.pushAll s.registry before = (fed, none) ∧
        fed.push s.registry chunk = (failed, some (.literalMismatch ',' 'x' 8)) := by
  have hstart : Reachable (Layout.entrySession .raise) (.start Layout.entryLayout) :=
    .start Layout.known_entryLayout
  obtain ⟨hsession, -, hfailure⟩ := push_join (hstart.push "1") ["", "2,a;073", "x", "4"]
  obtain ⟨-, before, chunk, after, fed, hchunks, hbefore, hchunk⟩ :=
    hfailure _ (.literalMismatch ',' 'x' 8) rfl
  exact ⟨hsession, before, chunk, after, fed, _, hchunks, hbefore, hchunk⟩

end TypeAlgebra
