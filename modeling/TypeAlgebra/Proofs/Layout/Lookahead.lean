import TypeAlgebra.Proofs.Layout.Line
import TypeAlgebra.Proofs.Layout.Reading

/-! Reading a record sees one character more than the record takes, and a mismatch none after the character that
differs. What follows makes no difference. Behind a literal at the end of the layout not even the next character does. -/
namespace TypeAlgebra

/-- Where a list begins as another does, up to one element behind a front, it goes on after the front as that one. -/
theorem exists_append_of_take_eq {α : Type} {front rest list : List α}
    (h : list.take (front.length + 1) = (front ++ rest).take (front.length + 1)) :
    ∃ rest', list = front ++ rest' ∧ rest'.head? = rest.head? := by
  induction front generalizing list with
  | nil =>
    refine ⟨list, rfl, ?_⟩
    have hhead := congrArg List.head? h
    simpa [List.head?_take] using hhead
  | cons a front ih =>
    cases list with
    | nil => simp at h
    | cons b list =>
      simp only [List.length_cons, List.cons_append, List.take_succ_cons, List.cons.injEq] at h
      obtain ⟨rest', rfl, hhead⟩ := ih h.2
      exact ⟨rest', by rw [h.1]; rfl, hhead⟩

/-- Different failures are reported differently. -/
theorem Session.report_inj {s : Session} {failure failure' : Failure} (h : s.report failure = s.report failure') :
    failure = failure' := by
  unfold report Policy.handOver at h
  cases hpolicy : s.policy with
  | raise => simpa [hpolicy] using h
  | pass => simpa [hpolicy] using h

namespace Progress

variable {r : Registry} {segments done : List Segment} {p : Progress} {n : Nat} {cs rest : List Char}
  {fields : List (String × Value)}

/-- At the end of a layout that ends in a literal, matching is not in a slot. -/
theorem not_atSlot_of_complete (h : p.Sound segments done) {ending : List Char}
    (hending : segments.getLast? = some (.literal ending)) {c : Char} {next : Option Char}
    (hstep : p.step r c next = .complete fields) : p.atSlot = false := by
  obtain ⟨-, ⟨segment, left, rest, hsegments, htodo, hleft⟩, -, -⟩ := h
  cases left with
  | literal text => simp [atSlot, htodo, Segment.isSlot, Segment.slotName?]
  | slot name ty =>
    cases hleft
    -- a slot ends the layout only where it comes last
    obtain rfl : rest = [] := by
      rw [step, htodo] at hstep
      dsimp only at hstep
      split at hstep
      · contradiction
      split at hstep
      · contradiction
      · have htail := tail_of_complete hstep
        rwa [commit, htodo] at htail
    rw [hsegments, List.getLast?_concat] at hending
    cases hending

/-- Matching that comes to an end does the same whatever else follows, if the next character is the same, or the last
segment a literal. -/
theorem run_complete (h : p.Sound segments done) (hrun : p.run r n cs = .ok (fields, rest)) :
    ∃ front, front ≠ [] ∧ cs = front ++ rest ∧ ∀ rest',
      (rest'.head? = rest.head? ∨ ∃ ending, segments.getLast? = some (.literal ending)) →
        p.run r n (front ++ rest') = .ok (fields, rest') := by
  induction cs generalizing p done n with
  | nil => contradiction
  | cons c cs ih =>
    have hsound := step_sound (r := r) h c cs.head?
    rw [run] at hrun
    cases hstep : p.step r c cs.head? with
    | pending q =>
      rw [hstep] at hrun hsound
      obtain ⟨-, done', hq⟩ := hsound
      obtain ⟨front, hfront, rfl, hsame⟩ := ih hq hrun
      refine ⟨c :: front, by simp, rfl, fun rest' hrest => ?_⟩
      have hhead : (front ++ rest').head? = (front ++ rest).head? := by
        rw [List.head?_append_of_ne_nil _ hfront, List.head?_append_of_ne_nil _ hfront]
      rw [List.cons_append, run, hhead, hstep]
      exact hsame rest' hrest
    | complete found =>
      rw [hstep] at hrun
      cases hrun
      refine ⟨[c], by simp, rfl, fun rest' hrest => ?_⟩
      have hsame : p.step r c rest'.head? = .complete fields := by
        rcases hrest with hhead | ⟨ending, hending⟩
        · rw [hhead, hstep]
        · rw [step_of_not_atSlot (not_atSlot_of_complete h hending hstep) c rest'.head? rest.head?, hstep]
      rw [List.singleton_append, run, hsame]
    | mismatch expected =>
      rw [hstep] at hrun
      contradiction

/-- A mismatch is the same whatever follows the character that differs. -/
theorem run_mismatch {expected got : Char} {offset : Nat}
    (hrun : p.run r n cs = .error (.literalMismatch expected got offset)) :
    ∃ front rest, cs = front ++ got :: rest ∧ offset = n + front.length ∧
      ∀ rest', p.run r n (front ++ got :: rest') = .error (.literalMismatch expected got offset) := by
  induction cs generalizing p n with
  | nil => cases hrun
  | cons c cs ih =>
    rw [run] at hrun
    cases hstep : p.step r c cs.head? with
    | pending q =>
      rw [hstep] at hrun
      obtain ⟨front, rest, rfl, hoffset, hsame⟩ := ih hrun
      refine ⟨c :: front, rest, rfl, by rw [hoffset, List.length_cons]; omega, fun rest' => ?_⟩
      have hhead : (front ++ got :: rest').head? = (front ++ got :: rest).head? := by cases front <;> rfl
      rw [List.cons_append, run, hhead, hstep]
      exact hsame rest'
    | complete found =>
      rw [hstep] at hrun
      contradiction
    | mismatch other =>
      rw [hstep] at hrun
      cases hrun
      have hslot : p.atSlot = false := Bool.eq_false_iff.mpr fun hslot => step_ne_mismatch hslot _ _ _ hstep
      refine ⟨[], cs, rfl, rfl, fun rest' => ?_⟩
      rw [List.nil_append, run, step_of_not_atSlot hslot got rest'.head? cs.head?, hstep]

end Progress

namespace Layout

/-- How many characters the record at the front of the text takes, if there is one. -/
def taken? (r : Registry) (layout : Layout) (text : String) : Option Nat :=
  match (Progress.start layout.segments).run r 0 text.toList with
  | .error _ => none
  | .ok (_, rest) => some (text.toList.length - rest.length)

/-- How far reading looks. -/
structure Lookahead (s : Session) (layout : Layout) : Prop where
  /-- Either there is a record, which takes some of the text, or a failure is reported. -/
  either : ∀ text, (∃ n record, layout.taken? s.registry text = some n ∧ n ≤ text.toList.length ∧
      s.readRecord layout text = .ok record ∧ record.isFailure = false) ∨
    layout.taken? s.registry text = none ∧ ∃ failure, s.readRecord layout text = s.report failure
  /-- The record is the same in every text that goes on for one more character as this one, or ends as this one. -/
  record : ∀ {text text' n}, layout.taken? s.registry text = some n →
    text'.toList.take (n + 1) = text.toList.take (n + 1) →
      layout.taken? s.registry text' = some n ∧ s.readRecord layout text' = s.readRecord layout text
  /-- A mismatch is the same in every text that is the same up to the character that differs. -/
  mismatch : ∀ {text expected got offset},
    s.readRecord layout text = s.report (.literalMismatch expected got offset) → text.toList[offset]? = some got ∧
      ∀ text', text'.toList.take (offset + 1) = text.toList.take (offset + 1) →
        s.readRecord layout text' = s.report (.literalMismatch expected got offset)
  /-- With a literal at the end of the layout, the record is the same whatever is added to the text. -/
  literal : ∀ {ending}, layout.segments.getLast? = some (.literal ending) →
    ∀ {text n}, layout.taken? s.registry text = some n → ∀ more,
      layout.taken? s.registry (text ++ more) = some n ∧
        s.readRecord layout (text ++ more) = s.readRecord layout text

variable {s : Session} {layout : Layout} {text text' : String} {fields : List (String × Value)} {rest rest' : List Char}

/-- What matching comes to from the front of a text, and what reading a record makes of it. -/
inductive Matched (s : Session) (layout : Layout) (text : String) : Prop
  | record {fields : List (String × Value)} {rest : List Char} {record : Value}
      (run : (Progress.start layout.segments).run s.registry 0 text.toList = .ok (fields, rest))
      (read : s.readRecord layout text = .ok record) (sound : record.isFailure = false) : Matched s layout text
  | failure {failure : Failure}
      (run : (Progress.start layout.segments).run s.registry 0 text.toList = .error failure)
      (read : s.readRecord layout text = s.report failure) : Matched s layout text

theorem readRecord_of_failed {failure : Failure}
    (hrun : (Progress.start layout.segments).run s.registry 0 text.toList = .error failure) :
    s.readRecord layout text = s.report failure := by
  rw [Session.readRecord, readRecord, hrun]
  rfl

theorem Known.matched (h : layout.Known s.registry) (text : String) : Matched s layout text := by
  obtain ⟨declared, hfits⟩ := h.fits
  cases hrun : (Progress.start layout.segments).run s.registry 0 text.toList with
  | error failure => exact .failure hrun (readRecord_of_failed hrun)
  | ok matched =>
    obtain ⟨fields, rest⟩ := matched
    have hcommitted := Progress.run_sound (Progress.sound_start hfits.nonempty) hrun
    obtain ⟨record, hrecord⟩ := hcommitted.exists_record hfits
    have hsound : record.isFailure = false := by
      rw [Value.isFailure, Registry.failure?_of_record hrecord]
      rfl
    exact .record hrun (readRecord_of_run hrun hrecord) hsound

/-- The record is made of the fields, whatever follows it. -/
theorem readRecord_congr (hrun : (Progress.start layout.segments).run s.registry 0 text.toList = .ok (fields, rest))
    (hrun' : (Progress.start layout.segments).run s.registry 0 text'.toList = .ok (fields, rest')) :
    s.readRecord layout text' = s.readRecord layout text := by
  rw [Session.readRecord, Session.readRecord, readRecord, readRecord, hrun, hrun']

/-- A record that was read begins every text that the same characters begin, as far as reading looks. -/
theorem Known.taken (h : layout.Known s.registry) {n : Nat} (htaken : layout.taken? s.registry text = some n) :
    ∃ front rest, text.toList = front ++ rest ∧ front.length = n ∧ ∀ {text' : String} {rest' : List Char},
      text'.toList = front ++ rest' →
      (rest'.head? = rest.head? ∨ ∃ ending, layout.segments.getLast? = some (.literal ending)) →
        layout.taken? s.registry text' = some n ∧ s.readRecord layout text' = s.readRecord layout text := by
  obtain ⟨declared, hfits⟩ := h.fits
  unfold taken? at htaken ⊢
  cases hrun : (Progress.start layout.segments).run s.registry 0 text.toList with
  | error failure =>
    rw [hrun] at htaken
    contradiction
  | ok matched =>
    obtain ⟨fields, rest⟩ := matched
    rw [hrun] at htaken
    obtain ⟨front, -, htext, hsame⟩ := Progress.run_complete (Progress.sound_start hfits.nonempty) hrun
    have hlength (rest' : List Char) : (front ++ rest').length - rest'.length = front.length := by simp
    cases htaken
    rw [htext, hlength]
    refine ⟨front, rest, rfl, rfl, fun {text' rest'} htext' hrest => ?_⟩
    have hrun' := hsame rest' hrest
    rw [← htext'] at hrun'
    refine ⟨?_, readRecord_congr hrun hrun'⟩
    rw [hrun', htext']
    exact congrArg some (hlength rest')

/-- Of the text behind a record one character counts, behind a mismatch none. -/
theorem Known.lookahead (h : layout.Known s.registry) : layout.Lookahead s := by
  constructor
  case either =>
    intro text
    cases h.matched text with
    | @record fields rest record run read sound =>
      exact .inl ⟨text.toList.length - rest.length, record, by rw [taken?, run], Nat.sub_le .., read, sound⟩
    | @failure failure run read => exact .inr ⟨by rw [taken?, run], failure, read⟩
  case record =>
    intro text text' n htaken heq
    obtain ⟨front, rest, htext, rfl, hsame⟩ := h.taken htaken
    rw [htext] at heq
    obtain ⟨rest', htext', hhead⟩ := exists_append_of_take_eq heq
    exact hsame htext' (.inl hhead)
  case mismatch =>
    intro text expected got offset hread
    cases h.matched text with
    | record run read sound =>
      rw [Session.isFailure_of_report (hread.symm.trans read)] at sound
      contradiction
    | @failure failure run read =>
      obtain rfl : failure = .literalMismatch expected got offset := Session.report_inj (read.symm.trans hread)
      obtain ⟨front, rest, htext, hoffset, hsame⟩ := Progress.run_mismatch run
      rw [Nat.zero_add] at hoffset
      subst hoffset
      rw [htext]
      refine ⟨by simp, fun text' heq => ?_⟩
      obtain ⟨behind, htext', hhead⟩ := exists_append_of_take_eq heq
      obtain ⟨rest', rfl⟩ := List.head?_eq_some_iff.mp hhead
      have hrun := hsame rest'
      rw [← htext'] at hrun
      exact readRecord_of_failed hrun
  case literal =>
    intro ending hending text n htaken more
    obtain ⟨front, rest, htext, -, hsame⟩ := h.taken htaken
    have hmore : (text ++ more).toList = front ++ (rest ++ more.toList) := by
      rw [String.toList_append, htext, List.append_assoc]
    exact hsame hmore (.inr ⟨ending, hending⟩)

/-- An entry on a line. -/
def entryLine : Layout := ⟨⟨5⟩, entryLayout.segments ++ [.literal ['\n']]⟩

theorem known_entryLine : entryLine.Known entryRegistry :=
  ⟨entryRegistry, '$', ⟨5⟩, "$n$,$text$;$code$\n", reachable_entryRegistry, .refl, rfl⟩

/-- An entry is read up to the end of its line, whatever comes next, or up to the character that differs. -/
theorem lookahead_entryLine :
    let s := entrySession .pass
    s.readRecord entryLine ("1,a;07\n" ++ "2;b") = s.readRecord entryLine "1,a;07\n" ∧
      s.readRecord entryLine "2;b" = .ok (.failure (.literalMismatch ',' ';' 1)) := by
  have holds : entryLine.Lookahead (entrySession .pass) := Known.lookahead known_entryLine
  have hmismatch : (entrySession .pass).readRecord entryLine "2;" =
      (entrySession .pass).report (.literalMismatch ',' ';' 1) := rfl
  exact ⟨(holds.literal rfl rfl "2;b").2, (holds.mismatch hmismatch).2 "2;b" rfl⟩

end Layout
end TypeAlgebra
