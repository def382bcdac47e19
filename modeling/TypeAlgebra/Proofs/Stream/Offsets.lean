import Mathlib.Data.List.Induction
import TypeAlgebra.Proofs.Stream.Chunks
import TypeAlgebra.Proofs.Stream.Records

/-! Where in its text a stream tells mismatches. It counts the characters that it has matched, and those it held back.
What a failing chunk has behind the character that differs is skipped, and is not counted. -/
namespace TypeAlgebra.Stream

/-- The failures that a call reports, raised or passed on among the new records. -/
def reports (st : Stream) (result : Stream × Option Failure) : List Failure :=
  result.2.toList ++ (result.1.records.drop st.records.length).filterMap (·.failure?)

/-- A chunk that begins like this fails, and does so at the character. -/
structure FailsAt (r : Registry) (st : Stream) (front : List Char) (got : Char) : Prop where
  before : (st.push r (.ofList front)).2 = none
  fails : (st.push r (.ofList (front ++ [got]))).2.isSome

/-- The text in all chunks since the stream was started, and how many characters of it were skipped. -/
inductive Since : Session → Stream → List Char → Nat → Prop
  | start {s : Session} {layout : Layout} (known : layout.Known s.registry) : Since s (.start layout) [] 0
  | restart {s : Session} {st : Stream} {text : List Char} {skipped : Nat} (h : Since s st text skipped) :
      Since s st.restart [] 0
  | push {s : Session} {st : Stream} {text : List Char} {skipped : Nat} {chunk : String} (h : Since s st text skipped)
      (passes : (st.push s.registry chunk).2 = none) : Since s (s.push st chunk).1 (text ++ chunk.toList) skipped
  /-- What a chunk has behind the character at which it fails is skipped. -/
  | failed {s : Session} {st : Stream} {text front : List Char} {skipped : Nat} {got : Char} (back : List Char)
      (h : Since s st text skipped) (fails : st.FailsAt s.registry front got) :
      Since s (s.push st (.ofList (front ++ got :: back))).1 (text ++ (front ++ got :: back)) (skipped + back.length)
  | close {s : Session} {st : Stream} {text : List Char} {skipped : Nat} (h : Since s st text skipped) :
      Since s (s.close st).1 text skipped
  | later {s s' : Session} {st : Stream} {text : List Char} {skipped : Nat} (leads : s.registry.Leads s'.registry)
      (h : Since s st text skipped) : Since s' st text skipped

/-- How a stream places what it reports, after a text with so many characters skipped. -/
structure Places (s : Session) (st : Stream) (text : List Char) (skipped : Nat) : Prop where
  /-- A chunk that does not fail reports nothing. -/
  passed : ∀ {chunk}, (st.push s.registry chunk).2 = none → st.reports (s.push st chunk) = []
  /-- One that fails does so at one of its characters, and reports a mismatch there. -/
  failed : ∀ {chunk}, (st.push s.registry chunk).2.isSome → ∃ front got back expected offset,
    chunk = .ofList (front ++ got :: back) ∧ st.FailsAt s.registry front got ∧
      st.reports (s.push st chunk) = [.literalMismatch expected got offset] ∧
      offset + skipped = text.length + front.length
  /-- The end of the text is no mismatch. -/
  closed : ∀ e ∈ st.reports (s.close st), ∃ awaited, e = .unexpectedEnd awaited

variable {r : Registry} {s : Session} {st : Stream} {text front : List Char} {skipped : Nat} {got : Char}

/-- How many characters the stream has matched or holds back. -/
def count (st : Stream) : Nat := st.consumed + st.held.toList.length

theorem take_consumed (r : Registry) (st : Stream) (c : Char) (next : Option Char) :
    (st.take r c next).1.consumed = st.consumed + 1 := by
  unfold take
  split
  · rfl
  · rfl
  · split <;> rfl

theorem takeAll_count (hheld : st.held = none) {cs : List Char} (h : (st.takeAll r cs).2 = none) :
    (st.takeAll r cs).1.count = st.consumed + cs.length := by
  induction cs generalizing st with
  | nil => simp [takeAll, count, hheld]
  | cons c cs ih =>
    by_cases hlast : cs = [] ∧ st.progress.atSlot
    · obtain ⟨rfl, hslot⟩ := hlast
      rw [takeAll_hold hslot]
      rfl
    · have hconsumed := take_consumed r st c cs.head?
      have hkept := (take_held r st c cs.head?).trans hheld
      rw [takeAll_cons hlast] at h ⊢
      cases htake : st.take r c cs.head? with
      | mk taken failure =>
        rw [htake] at h hconsumed hkept
        cases failure with
        | some failure => contradiction
        | none =>
          dsimp only at h hconsumed hkept ⊢
          rw [ih hkept h, hconsumed, List.length_cons]
          omega

/-- A chunk that does not fail counts as a whole. -/
theorem push_count {chunk : String} (h : (st.push r chunk).2 = none) :
    (st.push r chunk).1.count = st.count + chunk.toList.length := by
  unfold push at h ⊢
  rw [takeAll_count rfl h, List.length_append, count, Nat.add_assoc]

theorem close_count (r : Registry) (st : Stream) : (st.close r).1.count = st.count := by
  have hflush : (st.flush r).1.count = st.count := by
    unfold flush
    cases hheld : st.held with
    | none => rfl
    | some c =>
      dsimp only
      rw [count, take_held, take_consumed, count, hheld]
      rfl
  rw [← hflush]
  unfold close
  cases st.flush r with
  | mk flushed failure =>
    cases failure with
    | some failure => rfl
    | none =>
      dsimp only
      split <;> rfl

theorem handOver_count (policy : Policy) (result : Stream × Option Failure) :
    (handOver policy result).1.count = result.1.count := by
  obtain ⟨records, heq⟩ := handOver_eq policy result
  rw [heq]
  rfl

/-- What a stream comes to at the character where it fails. -/
structure Mismatched (st : Stream) (got : Char) (result : Stream × Option Failure) : Prop where
  failure : ∃ expected, result.2 = some (.literalMismatch expected got st.count)
  count : result.1.count = st.count + 1

theorem Sound.mismatched_single (h : st.Sound r) (hheld : st.held = none) (hfails : (st.takeAll r [got]).2.isSome) :
    st.Mismatched got (st.takeAll r [got]) := by
  have hcount : st.count = st.consumed := by rw [count, hheld]; rfl
  by_cases hslot : st.progress.atSlot
  · rw [takeAll_hold hslot] at hfails
    contradiction
  · have ht := h.take got none
    have htaken : st.takeAll r [got] = st.take r got none := by
      rw [takeAll_cons fun hlast => hslot hlast.2, List.head?_nil]
      cases st.take r got none with
      | mk taken failure => cases failure <;> rfl
    rw [htaken] at hfails ⊢
    generalize st.take r got none = result at ht hfails
    cases ht with
    | pending | complete => contradiction
    | @mismatch expected step =>
      refine ⟨⟨expected, by rw [hcount]⟩, ?_⟩
      rw [hcount, count, Stream.dropped, hheld]
      rfl

/-- A stream that fails at one more character tells it by the characters so far. -/
theorem Sound.mismatched (h : st.Sound r) (hsteady : st.Steady) (hfails : (st.push r (.ofList [got])).2.isSome) :
    st.Mismatched got (st.push r (.ofList [got])) := by
  have hempty : ({ st with held := none } : Stream).Sound r := ⟨h.known, h.progress⟩
  cases hheld : st.held with
  | none =>
    have hpush : st.push r (.ofList [got]) = st.takeAll r [got] := by
      rw [Stream.push, hheld, eq_of_held hheld, String.toList_ofList]
      rfl
    rw [hpush] at hfails ⊢
    exact h.mismatched_single hheld hfails
  | some c =>
    -- the character that was held back is taken first, and inside a slot it does not fail
    have hslot : st.progress.atSlot := hsteady (by rw [hheld]; rfl)
    have ht := hempty.take c (some got)
    have hnone := ht.eq_none hslot
    have hconsumed := take_consumed r { st with held := none } c (some got)
    have hpush : st.push r (.ofList [got]) = ({ st with held := none }.take r c (some got)).1.takeAll r [got] := by
      rw [Stream.push, hheld, String.toList_ofList, Option.toList_some, List.singleton_append,
        takeAll_cons (by simp), List.head?_cons]
      cases htake : Stream.take r { st with held := none } c (some got) with
      | mk taken failure =>
        rw [htake] at hnone
        cases hnone
        rfl
    rw [hpush] at hfails ⊢
    obtain ⟨⟨expected, hfailure⟩, hcount⟩ := (ht.sound hempty).mismatched_single ht.held hfails
    have hcounted : ({ st with held := none }.take r c (some got)).1.count = st.count := by
      rw [count, ht.held, hconsumed, count, hheld]
      rfl
    rw [hcounted] at hfailure hcount
    exact ⟨⟨expected, hfailure⟩, hcount⟩

/-- A chunk that fails does so at one of its characters. -/
theorem exists_failsAt (hsteady : st.Steady) {chunk : String} (h : (st.push r chunk).2.isSome) :
    ∃ front got back, chunk = .ofList (front ++ got :: back) ∧ st.FailsAt r front got := by
  obtain ⟨cs, rfl⟩ : ∃ cs, chunk = .ofList cs := ⟨chunk.toList, String.ofList_toList.symm⟩
  induction cs using List.reverseRecOn with
  | nil =>
    have hempty := push_empty (r := r) hsteady
    rw [String.ofList_nil, hempty] at h
    contradiction
  | append_singleton cs c ih =>
    cases hbefore : (st.push r (.ofList cs)).2 with
    | none => exact ⟨cs, c, [], rfl, hbefore, h⟩
    | some failure =>
      obtain ⟨front, got, back, hcs, hfails⟩ := ih (by rw [hbefore]; rfl)
      obtain rfl := String.ofList_injective hcs
      exact ⟨front, got, back ++ [c], by simp, hfails⟩

theorem Sound.failsAt (h : st.Sound r) (hfails : st.FailsAt r front got) (back : List Char) :
    ∃ expected failed, st.push r (.ofList (front ++ got :: back)) =
        (failed, some (.literalMismatch expected got (st.count + front.length))) ∧
      failed.count = st.count + front.length + 1 := by
  obtain ⟨hbefore, hsingle⟩ := hfails
  have hfed := h.push (.ofList front)
  have hcount := push_count hbefore
  rw [String.toList_ofList] at hcount
  cases hfront : st.push r (.ofList front) with
  | mk fed failure =>
    rw [hfront] at hbefore hfed hcount
    cases hbefore
    have hpush (cs : List Char) : st.push r (.ofList (front ++ cs)) = fed.push r (.ofList cs) := by
      rw [String.ofList_append, push_append, hfront]
    rw [hpush] at hsingle
    obtain ⟨⟨expected, hfailure⟩, hfailed⟩ := hfed.sound.mismatched hfed.steady hsingle
    have hbehind : fed.push r (.ofList (got :: back)) = fed.push r (.ofList [got]) := by
      rw [← List.singleton_append, String.ofList_append, push_append]
      cases hgot : fed.push r (.ofList [got]) with
      | mk failed failure =>
        rw [hgot] at hfailure
        cases hfailure
        rfl
    rw [hcount] at hfailure hfailed
    refine ⟨expected, (fed.push r (.ofList [got])).1, ?_, hfailed⟩
    rw [hpush, hbehind, ← hfailure]

/-- Of what was handed over the failure is reported, and nothing besides. -/
theorem reports_handOver {policy : Policy} {result : Stream × Option Failure} (h : st.Adds result.1) :
    st.reports (handOver policy result) = result.2.toList := by
  have hfresh : (result.1.records.drop st.records.length).filterMap (·.failure?) = [] :=
    List.filterMap_eq_nil_iff.mpr h.fresh
  obtain ⟨next, failure⟩ := result
  cases failure with
  | none => rw [handOver, reports, hfresh, List.append_nil]
  | some failure =>
    cases policy with
    | raise => rw [handOver, reports, hfresh, List.append_nil]
    | pass =>
      rw [handOver, reports, List.drop_append_of_le_length h.records.length_le, List.filterMap_append, hfresh]
      rfl

namespace Since

theorem reachable (h : Since s st text skipped) : Reachable s st := by
  induction h with
  | start known => exact .start known
  | restart h ih => exact .restart ih
  | push h passes ih => exact .push _ ih
  | failed back h fails ih => exact .push _ ih
  | close h ih => exact .close ih
  | later leads h ih => exact .later leads ih

/-- What was not skipped was matched, or is held back. -/
theorem count_eq (h : Since s st text skipped) : st.count + skipped = text.length := by
  induction h with
  | start known => rfl
  | restart h ih => rfl
  | push h passes ih =>
    rw [Session.push, handOver_count, push_count passes, List.length_append]
    omega
  | failed back h fails ih =>
    obtain ⟨expected, failed, hpush, hfailed⟩ := h.reachable.sound.1.failsAt fails back
    rw [Session.push, handOver_count, hpush, hfailed]
    simp only [List.length_append, List.length_cons]
    omega
  | close h ih => rwa [Session.close, handOver_count, close_count]
  | later leads h ih => exact ih

end Since

/-- Every stream there can be has come of a text. -/
theorem Reachable.since (h : Reachable s st) : ∃ text skipped, Since s st text skipped := by
  induction h with
  | start known => exact ⟨[], 0, .start known⟩
  | restart h ih =>
    obtain ⟨text, skipped, hsince⟩ := ih
    exact ⟨[], 0, hsince.restart⟩
  | @push s st chunk h ih =>
    obtain ⟨text, skipped, hsince⟩ := ih
    cases hpush : (st.push s.registry chunk).2 with
    | none => exact ⟨_, _, hsince.push hpush⟩
    | some failure =>
      obtain ⟨front, got, back, rfl, hfails⟩ := exists_failsAt h.sound.2 (by rw [hpush]; rfl)
      exact ⟨_, _, hsince.failed back hfails⟩
  | close h ih =>
    obtain ⟨text, skipped, hsince⟩ := ih
    exact ⟨text, skipped, hsince.close⟩
  | later leads h ih =>
    obtain ⟨text, skipped, hsince⟩ := ih
    exact ⟨text, skipped, hsince.later leads⟩

/-- A mismatch is told by the characters before it since the start, but for those that were skipped. -/
theorem Since.places (h : Since s st text skipped) : st.Places s text skipped := by
  obtain ⟨hsound, hsteady⟩ := h.reachable.sound
  constructor
  case passed =>
    intro chunk hpasses
    rw [Session.push, reports_handOver (adds_push s.registry st chunk), hpasses]
    rfl
  case failed =>
    intro chunk hfails
    obtain ⟨front, got, back, rfl, hfailsAt⟩ := exists_failsAt hsteady hfails
    obtain ⟨expected, failed, hpush, -⟩ := hsound.failsAt hfailsAt back
    refine ⟨front, got, back, expected, st.count + front.length, rfl, hfailsAt, ?_, ?_⟩
    · rw [Session.push, reports_handOver (adds_push s.registry st _), hpush]
      rfl
    · have hcount := h.count_eq
      omega
  case closed =>
    intro e he
    obtain ⟨-, -, hunexpected⟩ := hsound.close hsteady
    rw [Session.close, reports_handOver ((adds_flush s.registry st).trans (adds_close s.registry st)),
      Option.mem_toList] at he
    exact ⟨_, hunexpected e he⟩

/-- Of the first chunk two characters are skipped. -/
theorem Since.skipping (policy : Policy) :
    Since (Layout.entrySession policy) ((Layout.entrySession policy).push (.start Layout.entryLayout) "1;zz").1
      ['1', ';', 'z', 'z'] 2 := by
  have hstart : Since (Layout.entrySession policy) (.start Layout.entryLayout) [] 0 := .start Layout.known_entryLayout
  exact @failed _ _ _ ['1'] _ ';' ['z', 'z'] hstart ⟨rfl, rfl⟩

/-- The sixth character fails, and is told as the one after three. -/
theorem Since.places_skipping :
    let s := Layout.entrySession .pass
    let st := (s.push (.start Layout.entryLayout) "1;zz").1
    st.Places s ['1', ';', 'z', 'z'] 2 ∧ st.reports (s.push st "2;") = [.literalMismatch ',' ';' 3] := by
  exact ⟨(skipping .pass).places, rfl⟩

/-- Where some characters were skipped a mismatch is not told by its place in the text. -/
theorem Since.offset_ne_position :
    ¬ ∀ (s : Session) (st : Stream) (text front back : List Char) (skipped offset : Nat) (expected got : Char),
      Since s st text skipped → st.FailsAt s.registry front got →
        st.reports (s.push st (.ofList (front ++ got :: back))) = [.literalMismatch expected got offset] →
          offset = text.length + front.length := by
  intro holds
  have heq := holds (Layout.entrySession .raise) _ _ ['2'] [] _ 3 ',' ';' (skipping .raise) ⟨rfl, rfl⟩ rfl
  exact absurd heq (by decide)

end TypeAlgebra.Stream
