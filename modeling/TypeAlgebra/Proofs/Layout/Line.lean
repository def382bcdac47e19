import TypeAlgebra.Proofs.Layout.Progress

/-! Layouts of one line: they end in a line feed, and have no other. A record of such a layout takes a line as far
as it goes, and a line that ends inside a record leaves matching in a slot that no text gets it out of. -/
namespace TypeAlgebra

namespace Layout

variable {r : Registry} {segments done : List Segment}

/-- The segments end in a line feed and have no other. -/
def EndsLine (segments : List Segment) : Prop :=
  ∃ front text, segments = front ++ [.literal (text ++ ['\n'])] ∧ '\n' ∉ text ∧
    ∀ {other}, .literal other ∈ front → '\n' ∉ other

/-- A line feed stands at the end of the layout and nowhere else, and in no text of a slot. -/
structure OneLine (r : Registry) (layout : Layout) : Prop where
  known : layout.Known r
  ends : EndsLine layout.segments
  slots : ∀ {name ty}, .slot name ty ∈ layout.segments → ∀ {text : String}, '\n' ∈ text.toList → ¬ r.accepts ty text

/-- The format ends in a line feed, and so does its last piece. -/
theorem pieces_ends {marker : Char} (hmarker : marker ≠ '\n') {format : List Char} (h : '\n' ∉ format) :
    ∃ before last, pieces marker (format ++ ['\n']) = before ++ [last ++ ['\n']] ∧ '\n' ∉ last ∧
      ∀ piece ∈ before, '\n' ∉ piece := by
  induction format with
  | nil => exact ⟨[], [], by simp [pieces, Ne.symm hmarker], by simp, by simp⟩
  | cons c rest ih =>
    simp only [List.mem_cons, not_or] at h
    obtain ⟨before, last, hpieces, hlast, hbefore⟩ := ih h.2
    rw [List.cons_append, pieces, hpieces]
    split
    · exact ⟨[] :: before, last, rfl, hlast, by simpa using hbefore⟩
    · cases before with
      | nil => exact ⟨[], c :: last, rfl, by simp [h.1, hlast], by simp⟩
      | cons piece others =>
        rw [List.forall_mem_cons] at hbefore
        exact ⟨(c :: piece) :: others, last, rfl, hlast,
          List.forall_mem_cons.mpr ⟨by simp [h.1, hbefore.1], hbefore.2⟩⟩

theorem not_mem_of_mem_literal {text other : List Char} (h : '\n' ∉ text) (hmem : .literal other ∈ literal text) :
    '\n' ∉ other := by
  unfold literal at hmem
  split at hmem
  · contradiction
  · cases List.mem_singleton.mp hmem
    exact h

theorem ofPieces_ends {fields : List (String × Ty)} {pieces before : List (List Char)} {last : List Char}
    (hpieces : pieces = before ++ [last ++ ['\n']]) (hlast : '\n' ∉ last) (hbefore : ∀ piece ∈ before, '\n' ∉ piece)
    (h : ofPieces r fields pieces = .ok segments) : EndsLine segments := by
  fun_induction ofPieces r fields pieces generalizing before segments with
  | case1 => simp at hpieces
  | case2 text =>
    obtain rfl : text = last ++ ['\n'] := by
      have hsingle : [] ++ [text] = before ++ [last ++ ['\n']] := hpieces
      exact List.singleton_inj.mp (List.append_inj' hsingle rfl).2
    cases h
    exact ⟨[], last, by simp [literal], hlast, by simp⟩
  | case3 => contradiction
  | case4 => contradiction
  | case5 text name rest hrest segment hslot ih =>
    -- what follows the name holds the end of the line
    obtain ⟨after, rfl, hafter⟩ : ∃ after, before = text :: name :: after ∧ rest = after ++ [last ++ ['\n']] := by
      rcases before with _ | ⟨first, _ | ⟨second, after⟩⟩
      · simp at hpieces
      · exact absurd (by simpa using congrArg (List.drop 2) hpieces) hrest
      · cases hpieces
        exact ⟨after, rfl, rfl⟩
    obtain ⟨ty, rfl, -⟩ := slot_eq_ok hslot
    obtain ⟨others, hothers, rfl⟩ := eq_ok_of_map h
    simp only [List.forall_mem_cons] at hbefore
    obtain ⟨front, ending, rfl, hending, hfront⟩ := ih hafter hbefore.2.2 hothers
    refine ⟨literal text ++ .slot (String.ofList name) ty :: front, ending, by simp, hending, ?_⟩
    intro other hother
    rcases List.mem_append.mp hother with hother | hother
    · exact not_mem_of_mem_literal hbefore.1 hother
    · exact hfront (by simpa using hother)

/-- A format that ends in a line feed and has no other is that of a layout of one line. -/
theorem endsLine_of_ofText {marker : Char} {product : Ty} {text : String} {layout : Layout} {format : List Char}
    (h : ofText r marker product text = .ok layout) (htext : text.toList = format ++ ['\n']) (hformat : '\n' ∉ format) :
    EndsLine layout.segments := by
  unfold ofText at h
  split at h
  · contradiction
  rename_i fields hfields
  split at h
  · contradiction
  · contradiction
  rename_i segments hne hpieces
  split at h
  · contradiction
  cases h
  rw [htext] at hpieces
  by_cases hmarker : marker = '\n'
  · -- a marker at the very end leaves a field open
    subst hmarker
    rw [pieces_append hformat] at hpieces
    contradiction
  · obtain ⟨before, last, hends, hlast, hbefore⟩ := pieces_ends hmarker hformat
    exact ofPieces_ends hends hlast hbefore hpieces

/-- A line feed comes last in a text if it is nowhere before. -/
theorem eq_iff_of_append {pre text tail : List Char} {c : Char} (h : pre ++ c :: tail = text ++ ['\n'])
    (htext : '\n' ∉ text) : c = '\n' ↔ tail = [] := by
  rcases tail.eq_nil_or_concat with rfl | ⟨tail, last, rfl⟩
  · obtain ⟨-, hc⟩ := List.append_inj' h rfl
    simpa using hc
  · have hfront : pre ++ c :: tail = text := by
      rw [List.concat_eq_append, ← List.cons_append, ← List.append_assoc] at h
      exact (List.append_inj' h rfl).1
    have hc : c ≠ '\n' := by
      rintro rfl
      exact htext (by rw [← hfront]; simp)
    simp [hc]

/-- Where a literal is left to match, a line feed is next if and only if nothing else is left. -/
theorem EndsLine.next (h : EndsLine segments) {segment : Segment} {rest : List Segment} {c : Char} {tail : List Char}
    (hsegments : segments = done ++ segment :: rest) (hleft : segment.Left (.literal (c :: tail))) :
    c = '\n' ↔ tail = [] ∧ rest = [] := by
  obtain ⟨front, text, rfl, htext, hfront⟩ := h
  obtain ⟨pre, rfl⟩ : ∃ pre, segment = .literal (pre ++ c :: tail) := by
    cases hleft with
    | whole => exact ⟨[], rfl⟩
    | part => exact ⟨_, rfl⟩
  rcases rest.eq_nil_or_concat with rfl | ⟨rest, last, rfl⟩
  · obtain ⟨-, hlast⟩ := List.append_inj' hsegments rfl
    simpa using eq_iff_of_append (by simpa using hlast.symm) htext
  · have hmem : .literal (pre ++ c :: tail) ∈ front := by
      rw [List.concat_eq_append, ← List.cons_append, ← List.append_assoc] at hsegments
      rw [(List.append_inj' hsegments rfl).1]
      simp
    have hc : c ≠ '\n' := by
      rintro rfl
      exact hfront hmem (by simp)
    simp [hc]

/-- A slot is never the last of the segments. -/
theorem EndsLine.rest_ne_nil (h : EndsLine segments) {name : String} {ty : Ty} {rest : List Segment}
    (hsegments : segments = done ++ .slot name ty :: rest) : rest ≠ [] := by
  rintro rfl
  obtain ⟨front, text, rfl, -, -⟩ := h
  obtain ⟨-, hlast⟩ := List.append_inj' hsegments rfl
  cases hlast

end Layout

namespace Progress

variable {r : Registry} {layout : Layout} {p q : Progress} {done : List Segment} {c : Char}
  {next : Option Char}

theorem tail_of_complete {fields : List (String × Value)} (h : p.advance = .complete fields) : p.todo.tail = [] := by
  unfold advance at h
  split at h
  · assumption
  · contradiction

/-- Matching comes to the end of the layout with a line feed, outside a slot. -/
theorem eq_of_complete (hone : layout.OneLine r) (h : p.Sound layout.segments done)
    {fields : List (String × Value)} (hstep : p.step r c next = .complete fields) : c = '\n' ∧ p.atSlot = false := by
  obtain ⟨declared, hfits⟩ := hone.known.fits
  obtain ⟨-, ⟨segment, left, rest, hsegments, htodo, hleft⟩, -, -⟩ := h
  unfold step at hstep
  rw [htodo] at hstep
  cases left with
  | literal text =>
    cases text with
    | nil =>
      cases hleft with
      | whole => exact (hfits.solid (by rw [hsegments]; simp)).elim
      | part hpre hpost => contradiction
    | cons expected tail =>
      refine ⟨?_, by simp [atSlot, htodo, Segment.isSlot, Segment.slotName?]⟩
      dsimp only at hstep
      split at hstep
      · contradiction
      rename_i hc
      split at hstep
      · rename_i htail
        rw [Decidable.not_not] at hc
        subst hc
        rw [hone.ends.next hsegments hleft]
        refine ⟨htail, ?_⟩
        simpa [htodo] using tail_of_complete hstep
      · contradiction
  | slot name ty =>
    cases hleft
    have hrest := hone.ends.rest_ne_nil hsegments
    dsimp only at hstep
    split at hstep
    · contradiction
    split at hstep
    · contradiction
    · have htail := tail_of_complete hstep
      rw [commit, htodo] at htail
      exact (hrest htail).elim

/-- Outside a slot a line feed ends the record, or does not match. -/
theorem atSlot_of_pending (hone : layout.OneLine r) (h : p.Sound layout.segments done)
    (hstep : p.step r '\n' next = .pending q) : p.atSlot := by
  obtain ⟨declared, hfits⟩ := hone.known.fits
  obtain ⟨-, ⟨segment, left, rest, hsegments, htodo, hleft⟩, -, -⟩ := h
  cases left with
  | slot => simp [atSlot, htodo, Segment.isSlot, Segment.slotName?]
  | literal text =>
    unfold step at hstep
    rw [htodo] at hstep
    cases text with
    | nil =>
      cases hleft with
      | whole => exact (hfits.solid (by rw [hsegments]; simp)).elim
      | part hpre hpost => contradiction
    | cons expected tail =>
      dsimp only at hstep
      split at hstep
      · contradiction
      rename_i hc
      rw [Decidable.not_not] at hc
      obtain ⟨rfl, rfl⟩ := (hone.ends.next hsegments hleft).mp hc.symm
      simp [advance, htodo] at hstep

section Stuck

variable {name : String} {ty : Ty} {rest : List Segment} (htodo : p.todo = .slot name ty :: rest)
  (hrefused : ∀ {text : String}, '\n' ∈ text.toList → ¬ r.accepts ty text)
include htodo hrefused

/-- With a line feed in it, what a slot has taken is no text of its type, however it goes on. -/
theorem step_stuck (hpush : '\n' ∈ (p.candidate.push c).toList) :
    p.step r c next = .pending { p with candidate := p.candidate.push c } := by
  have hnext : (next.any fun d => r.accepts ty ((p.candidate.push c).push d)) = false := by
    cases next with
    | none => rfl
    | some d =>
      have hlonger : '\n' ∈ ((p.candidate.push c).push d).toList := by
        rw [String.toList_push]
        exact List.mem_append_left _ hpush
      simpa using hrefused hlonger
  have hread : r.read? ty (p.candidate.push c) = none := by
    have haccepts := hrefused hpush
    rwa [← r.isSome_read?, Bool.not_eq_true, Option.isSome_eq_false_iff, Option.isNone_iff_eq_none] at haccepts
  rw [step, htodo]
  simp only [hnext, hread]
  rfl

theorem run_stuck (hcandidate : '\n' ∈ p.candidate.toList) (n : Nat) (cs : List Char) :
    p.run r n cs = .error (.unexpectedEnd p.awaited) := by
  induction cs generalizing p n with
  | nil => rfl
  | cons c cs ih =>
    have hpush : '\n' ∈ (p.candidate.push c).toList := by
      rw [String.toList_push]
      exact List.mem_append_left _ hcandidate
    rw [run, step_stuck htodo hrefused hpush]
    exact ih (p := { p with candidate := p.candidate.push c }) htodo hpush (n + 1)

end Stuck

/-- A slot that comes to the end of the line is waited for in vain. -/
theorem run_of_atSlot (hone : layout.OneLine r) (h : p.Sound layout.segments done) (hslot : p.atSlot) (n : Nat)
    (after : List Char) : p.run r n ('\n' :: after) = .error (.unexpectedEnd p.awaited) := by
  obtain ⟨-, ⟨segment, left, rest, hsegments, htodo, hleft⟩, -, -⟩ := h
  cases left with
  | literal text => simp [atSlot, htodo, Segment.isSlot, Segment.slotName?] at hslot
  | slot name ty =>
    cases hleft
    have hmem : .slot name ty ∈ layout.segments := by rw [hsegments]; simp
    have hpush : '\n' ∈ (p.candidate.push '\n').toList := by simp
    rw [run, step_stuck htodo (hone.slots hmem) hpush]
    exact run_stuck (p := { p with candidate := p.candidate.push '\n' }) htodo (hone.slots hmem) hpush (n + 1) after

/-- What a line comes to does not depend on what follows it. -/
theorem run_line (hone : layout.OneLine r) (h : p.Sound layout.segments done) {line : List Char} (hline : '\n' ∉ line)
    (n : Nat) (after : List Char) :
    p.run r n (line ++ '\n' :: after) = (p.run r n (line ++ ['\n'])).map fun matched => (matched.1, after) := by
  induction line generalizing p done n with
  | nil =>
    rw [List.nil_append, List.nil_append]
    by_cases hslot : p.atSlot
    · rw [run_of_atSlot hone h hslot, run_of_atSlot hone h hslot]
      rfl
    · have hnext := step_of_not_atSlot (r := r) (Bool.eq_false_iff.mpr hslot) '\n' after.head? none
      rw [run, run, hnext, List.head?_nil]
      cases hstep : p.step r '\n' none with
      | pending q => exact (hslot (atSlot_of_pending hone h hstep)).elim
      | complete fields => rfl
      | mismatch expected => rfl
  | cons c line ih =>
    simp only [List.mem_cons, not_or] at hline
    have hhead : (line ++ '\n' :: after).head? = (line ++ ['\n']).head? := by cases line <;> rfl
    have hsound := step_sound (r := r) h c (line ++ ['\n']).head?
    rw [List.cons_append, List.cons_append, run, run, hhead]
    cases hstep : p.step r c (line ++ ['\n']).head? with
    | pending q =>
      rw [hstep] at hsound
      obtain ⟨-, done', hq⟩ := hsound
      exact ih hq hline.2 (n + 1)
    | complete fields => exact (hline.1 (eq_of_complete hone h hstep).1.symm).elim
    | mismatch expected => rfl

/-- Without a line feed no record is complete. -/
theorem run_ne_ok (hone : layout.OneLine r) (h : p.Sound layout.segments done) {cs : List Char} (hcs : '\n' ∉ cs)
    (n : Nat) (matched : List (String × Value) × List Char) : p.run r n cs ≠ .ok matched := by
  induction cs generalizing p done n with
  | nil => nofun
  | cons c cs ih =>
    simp only [List.mem_cons, not_or] at hcs
    have hsound := step_sound (r := r) h c cs.head?
    rw [run]
    cases hstep : p.step r c cs.head? with
    | pending q =>
      rw [hstep] at hsound
      obtain ⟨-, done', hq⟩ := hsound
      exact ih hq hcs.2 (n + 1)
    | complete fields => exact (hcs.1 (eq_of_complete hone h hstep).1.symm).elim
    | mismatch expected => nofun

end Progress
end TypeAlgebra
