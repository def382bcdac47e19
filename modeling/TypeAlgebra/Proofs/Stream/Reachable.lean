import TypeAlgebra.Proofs.Layout.Progress
import TypeAlgebra.Stream

/-! The streams there can be, and what holds of all of them: matching stands inside the layout, and a character
is held back only inside a slot. Such a stream never fails but by a mismatch, or where the text ends. -/
namespace TypeAlgebra.Stream

/-- The streams that reading makes of a layout. Between calls the registry may grow, and the policy change. -/
inductive Reachable : Session → Stream → Prop
  | start {s : Session} {layout : Layout} (known : layout.Known s.registry) : Reachable s (.start layout)
  | restart {s : Session} {st : Stream} (h : Reachable s st) : Reachable s st.restart
  | push {s : Session} {st : Stream} (chunk : String) (h : Reachable s st) :
      Reachable s (s.push st chunk).1
  | close {s : Session} {st : Stream} (h : Reachable s st) : Reachable s (s.close st).1
  | later {s s' : Session} {st : Stream} (leads : s.registry.Leads s'.registry) (h : Reachable s st) :
      Reachable s' st

structure Sound (r : Registry) (st : Stream) : Prop where
  known : st.layout.Known r
  progress : ∃ done, st.progress.Sound st.layout.segments done

/-- A character is held back only inside a slot. -/
def Steady (st : Stream) : Prop := st.held.isSome → st.progress.atSlot

variable {r : Registry} {st : Stream}

theorem sound_start {layout : Layout} (h : layout.Known r) : (start layout).Sound r := by
  obtain ⟨fields, hfits⟩ := h.fits
  exact ⟨h, [], Progress.sound_start hfits.nonempty⟩

theorem Sound.restart_progress (h : st.Sound r) : st.progress.restart = .start st.layout.segments := by
  obtain ⟨done, hprogress⟩ := h.progress
  rw [Progress.restart, hprogress.layout_eq]

/-- Nothing is in progress, and nothing held back. -/
structure Idle (st : Stream) : Prop where
  held : st.held = none
  progress : st.progress = .start st.layout.segments

/-- The stream after one more character, with the record in progress dropped. -/
def dropped (st : Stream) : Stream :=
  { st with consumed := st.consumed + 1, progress := .start st.layout.segments }

theorem Sound.dropped (h : st.Sound r) : st.dropped.Sound r :=
  ⟨h.known, (sound_start h.known).progress⟩

/-- What one more character may come to. -/
inductive Taken (r : Registry) (st : Stream) (c : Char) (next : Option Char) : Stream × Option Failure → Prop
  | pending {q : Progress} (step : st.progress.step r c next = .pending q) (begun : q.begun)
      (sound : ∃ done, q.Sound st.layout.segments done) :
      Taken r st c next ({ st with consumed := st.consumed + 1, progress := q }, none)
  | complete {fields : List (String × Value)} {record : Value}
      (step : st.progress.step r c next = .complete fields)
      (made : r.record st.layout.product fields = .ok record) :
      Taken r st c next ({ st.dropped with records := st.records ++ [record] }, none)
  | mismatch {expected : Char} (step : st.progress.step r c next = .mismatch expected) :
      Taken r st c next (st.dropped, some (.literalMismatch expected c st.consumed))

theorem Sound.take (h : st.Sound r) (c : Char) (next : Option Char) :
    Taken r st c next (st.take r c next) := by
  obtain ⟨done, hprogress⟩ := h.progress
  obtain ⟨declared, hfits⟩ := h.known.fits
  have hstep := Progress.step_sound (r := r) hprogress c next
  unfold Stream.take
  rw [h.restart_progress]
  cases hmove : st.progress.step r c next with
  | pending q =>
    rw [hmove] at hstep
    exact .pending hmove hstep.1 hstep.2
  | complete fields =>
    rw [hmove] at hstep
    obtain ⟨record, hmade⟩ := Committed.exists_record hstep hfits
    simp only [hmade]
    exact .complete hmove hmade
  | mismatch expected => exact .mismatch hmove

section
variable {c : Char} {next : Option Char} {result : Stream × Option Failure}

theorem Taken.sound (h : st.Sound r) (ht : Taken r st c next result) : result.1.Sound r := by
  cases ht with
  | pending step begun sound => exact ⟨h.known, sound⟩
  | complete step made => exact ⟨h.known, h.dropped.progress⟩
  | mismatch step => exact h.dropped

theorem Taken.held (ht : Taken r st c next result) : result.1.held = st.held := by
  cases ht <;> rfl

theorem Taken.failure {failure : Failure} (ht : Taken r st c next result) (hf : result.2 = some failure) :
    (∃ expected, failure = .literalMismatch expected c st.consumed) ∧
      result.1.progress = .start result.1.layout.segments := by
  cases ht with
  | pending step begun sound => contradiction
  | complete step made => contradiction
  | @mismatch expected step => cases hf; exact ⟨⟨expected, rfl⟩, rfl⟩

/-- Inside a slot no character fails. -/
theorem Taken.eq_none (ht : Taken r st c next result) (hslot : st.progress.atSlot) : result.2 = none := by
  cases ht with
  | pending step begun sound => rfl
  | complete step made => rfl
  | mismatch step => exact absurd step (Progress.step_ne_mismatch hslot c next _)

end

/-- What is true after a chunk: a sound stream, and where it failed a mismatch with nothing left over. -/
structure Fed (r : Registry) (result : Stream × Option Failure) : Prop where
  sound : result.1.Sound r
  steady : result.1.Steady
  failed : ∀ failure, result.2 = some failure →
    (∃ expected got offset, failure = .literalMismatch expected got offset) ∧ result.1.Idle

theorem Sound.takeAll (h : st.Sound r) (hheld : st.held = none) (cs : List Char) :
    Fed r (st.takeAll r cs) := by
  induction cs generalizing st with
  | nil => exact ⟨h, by simp [Steady, Stream.takeAll, hheld], by simp [Stream.takeAll]⟩
  | cons c rest ih =>
    unfold Stream.takeAll
    split
    · rename_i hlast
      rw [Bool.and_eq_true] at hlast
      exact ⟨⟨h.known, h.progress⟩, fun _ => hlast.2, by simp⟩
    · have ht := h.take c rest.head?
      split
      · rename_i st' failure heq
        rw [heq] at ht
        obtain ⟨⟨expected, rfl⟩, hprogress⟩ := ht.failure rfl
        have hkept : st'.held = none := ht.held.trans hheld
        refine ⟨ht.sound h, by simp [Steady, hkept], ?_⟩
        rintro failure hf
        cases hf
        exact ⟨⟨expected, c, st.consumed, rfl⟩, hkept, hprogress⟩
      · rename_i st' heq
        rw [heq] at ht
        exact ih (ht.sound h) (ht.held.trans hheld)

theorem Sound.push (h : st.Sound r) (chunk : String) : Fed r (st.push r chunk) := by
  have hempty : ({ st with held := none } : Stream).Sound r := ⟨h.known, h.progress⟩
  exact hempty.takeAll rfl _

theorem Sound.flush (h : st.Sound r) (hsteady : st.Steady) :
    (st.flush r).1.Sound r ∧ (st.flush r).1.held = none ∧ (st.flush r).2 = none := by
  unfold Stream.flush
  cases hheld : st.held with
  | none => exact ⟨h, hheld, rfl⟩
  | some c =>
    have hempty : ({ st with held := none } : Stream).Sound r := ⟨h.known, h.progress⟩
    have ht := hempty.take c none
    have hslot : st.progress.atSlot := hsteady (by rw [hheld]; rfl)
    exact ⟨ht.sound hempty, ht.held, ht.eq_none hslot⟩

/-- Ending the text leaves nothing over, and fails only by that. -/
theorem Sound.close (h : st.Sound r) (hsteady : st.Steady) :
    (st.close r).1.Sound r ∧ (st.close r).1.Idle ∧
      ∀ failure, (st.close r).2 = some failure → failure = .unexpectedEnd (st.flush r).1.progress.awaited := by
  obtain ⟨hflush, hheld, hnone⟩ := h.flush hsteady
  unfold Stream.close
  cases hresult : st.flush r with
  | mk flushed failure =>
    rw [hresult] at hflush hheld hnone
    dsimp only at hflush hheld hnone
    subst hnone
    dsimp only
    split
    · refine ⟨⟨hflush.known, ?_⟩, ⟨hheld, hflush.restart_progress⟩, by simp [eq_comm]⟩
      rw [hflush.restart_progress]
      exact (sound_start hflush.known).progress
    · rename_i hbegun
      obtain ⟨done, hprogress⟩ := hflush.progress
      exact ⟨hflush, ⟨hheld, hprogress.eq_start (by simpa using hbegun)⟩, by simp⟩

theorem Idle.steady (h : st.Idle) : st.Steady := by simp [Steady, h.held]

/-- Handing a failure over changes nothing but the records. -/
theorem handOver_eq (policy : Policy) (result : Stream × Option Failure) :
    ∃ records, (handOver policy result).1 = { result.1 with records } := by
  obtain ⟨st, failure⟩ := result
  cases failure with
  | none => exact ⟨st.records, rfl⟩
  | some failure =>
    cases policy with
    | raise => exact ⟨st.records, rfl⟩
    | pass => exact ⟨st.records ++ [.failure failure], rfl⟩

theorem Sound.handOver {policy : Policy} {result : Stream × Option Failure} (h : result.1.Sound r) :
    (handOver policy result).1.Sound r := by
  obtain ⟨records, heq⟩ := handOver_eq policy result
  rw [heq]
  exact ⟨h.known, h.progress⟩

theorem Steady.handOver {policy : Policy} {result : Stream × Option Failure} (h : result.1.Steady) :
    (handOver policy result).1.Steady := by
  obtain ⟨records, heq⟩ := handOver_eq policy result
  rw [heq]
  exact h

/-- Every stream there can be is sound, and holds a character back only inside a slot. -/
theorem Reachable.sound {s : Session} (h : Reachable s st) : st.Sound s.registry ∧ st.Steady := by
  induction h with
  | start known => exact ⟨sound_start known, by simp [Steady, Stream.start]⟩
  | restart h ih => exact ⟨sound_start ih.1.known, by simp [Steady, Stream.restart, Stream.start]⟩
  | push chunk h ih =>
    have hfed := ih.1.push chunk
    exact ⟨hfed.sound.handOver, hfed.steady.handOver⟩
  | close h ih =>
    obtain ⟨hsound, hidle, -⟩ := ih.1.close ih.2
    exact ⟨hsound.handOver, hidle.steady.handOver⟩
  | later leads h ih => exact ⟨⟨ih.1.known.leads leads, ih.1.progress⟩, ih.2⟩

end TypeAlgebra.Stream
