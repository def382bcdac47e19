import TypeAlgebra.Proofs.Construction.Sound
import TypeAlgebra.Stream

/-! What is read by a layout is sound: the records of a stream, and the fields of the one in progress. -/
namespace TypeAlgebra

/-- The values of the fields there are after one more character. -/
def Move.values : Move → List Value
  | .pending p => p.fields.map (·.2)
  | .complete fields => fields.map (·.2)
  | .mismatch _ => []

/-- All values that a stream has made and not dropped. -/
def Stream.values (st : Stream) : List Value := st.records ++ st.progress.fields.map (·.2)

/-- The values of a stream are sound. -/
structure Stream.Typed (r : Registry) (st : Stream) : Prop where
  records : ∀ value ∈ st.records, value.Sound r
  fields : ∀ value ∈ st.progress.fields.map (·.2), value.Sound r

namespace Progress

variable {r : Registry} {p : Progress}

theorem advance_values (p : Progress) : p.advance.values = p.fields.map (·.2) := by
  unfold advance
  split <;> rfl

theorem commit_values {name : String} {value other : Value}
    (h : other ∈ (p.commit name value).fields.map (·.2)) : other = value ∨ other ∈ p.fields.map (·.2) := by
  obtain ⟨field, hfield, rfl⟩ := List.mem_map.mp h
  exact (Sorted.mem_put hfield).imp (congrArg Prod.snd) List.mem_map_of_mem

/-- One more character adds no values but sound ones. -/
theorem step_values (hr : r.Coherent) (h : ∀ value ∈ p.fields.map (·.2), value.Sound r) (c : Char)
    (next : Option Char) : ∀ value ∈ (p.step r c next).values, value.Sound r := by
  unfold step
  split
  · exact h
  · rwa [advance_values]
  · split
    · nofun
    split
    · rwa [advance_values]
    · exact h
  · rename_i name ty _ _
    dsimp only
    split
    · exact h
    split
    · exact h
    · rename_i value hread
      rw [advance_values]
      intro other hother
      rcases commit_values hother with rfl | hother
      · exact Registry.read?_sound hr hread
      · exact h other hother

/-- The fields matched from a text have sound values. -/
theorem run_values (hr : r.Coherent) {offset : Nat} {cs rest : List Char} {fields : List (String × Value)}
    (h : ∀ value ∈ p.fields.map (·.2), value.Sound r) (hrun : p.run r offset cs = .ok (fields, rest)) :
    ∀ value ∈ fields.map (·.2), value.Sound r := by
  induction cs generalizing p offset with
  | nil => contradiction
  | cons c cs ih =>
    have hstep := step_values hr h c cs.head?
    rw [run] at hrun
    cases hmove : p.step r c cs.head? with
    | mismatch expected => rw [hmove] at hrun; contradiction
    | complete all =>
      rw [hmove] at hrun hstep
      cases hrun
      exact hstep
    | pending q =>
      rw [hmove] at hrun hstep
      exact ih hstep hrun

end Progress

theorem Layout.readRecord_sound {r : Registry} (hr : r.Coherent) {layout : Layout} {text : String} {value : Value}
    (h : layout.readRecord r text = .ok value) : value.Sound r := by
  unfold readRecord at h
  split at h
  · contradiction
  · rename_i fields rest hrun
    refine Registry.record_sound hr ?_ h
    intro field hfield
    exact Progress.run_values hr (p := .start layout.segments) nofun hrun field.2 (List.mem_map_of_mem hfield)

theorem Session.readRecord_sound {s : Session} (hs : s.registry.Coherent) {layout : Layout} {text : String}
    {value : Value} (h : s.readRecord layout text = .ok value) : value.Sound s.registry :=
  Policy.handOver_sound hs (Layout.readRecord_sound hs) h

namespace Stream

variable {r : Registry} {st : Stream}

theorem typed_start (layout : Layout) : (start layout).Typed r := ⟨nofun, nofun⟩

theorem Typed.values (h : st.Typed r) : ∀ value ∈ st.values, value.Sound r := by
  intro value hvalue
  rcases List.mem_append.mp hvalue with hrecord | hfield
  · exact h.records value hrecord
  · exact h.fields value hfield

theorem Typed.extends {r' : Registry} (h : st.Typed r) (hr : r.Coherent) (hext : r.Extends r') : st.Typed r' :=
  ⟨fun value hvalue => (h.records value hvalue).extends hr hext,
    fun value hvalue => (h.fields value hvalue).extends hr hext⟩

theorem Typed.record (h : st.Typed r) {record : Value} (hrecord : record.Sound r) :
    ∀ value ∈ st.records ++ [record], value.Sound r := by
  intro value hvalue
  rcases List.mem_append.mp hvalue with hvalue | hvalue
  · exact h.records value hvalue
  · rwa [List.mem_singleton.mp hvalue]

theorem Typed.take (hr : r.Coherent) (h : st.Typed r) (c : Char) (next : Option Char) :
    (st.take r c next).1.Typed r := by
  have hstep := Progress.step_values hr h.fields c next
  unfold Stream.take
  dsimp only
  split
  · rename_i progress hmove
    rw [hmove] at hstep
    exact ⟨h.records, hstep⟩
  · exact ⟨h.records, nofun⟩
  · rename_i fields hmove
    rw [hmove] at hstep
    split
    · rename_i record hrecord
      have hsound : record.Sound r :=
        Registry.record_sound hr (fun field hfield => hstep field.2 (List.mem_map_of_mem hfield)) hrecord
      exact ⟨h.record hsound, nofun⟩
    · exact ⟨h.records, nofun⟩

theorem Typed.takeAll (hr : r.Coherent) (h : st.Typed r) (cs : List Char) : (st.takeAll r cs).1.Typed r := by
  induction cs generalizing st with
  | nil => exact h
  | cons c rest ih =>
    have htake := h.take hr c rest.head?
    unfold Stream.takeAll
    split
    · exact ⟨h.records, h.fields⟩
    split
    · rename_i heq
      rwa [heq] at htake
    · rename_i heq
      rw [heq] at htake
      exact ih htake

theorem Typed.release (h : st.Typed r) : ({ st with held := none } : Stream).Typed r := ⟨h.records, h.fields⟩

theorem Typed.push (hr : r.Coherent) (h : st.Typed r) (chunk : String) : (st.push r chunk).1.Typed r :=
  h.release.takeAll hr _

theorem Typed.flush (hr : r.Coherent) (h : st.Typed r) : (st.flush r).1.Typed r := by
  unfold Stream.flush
  split
  · exact h.release.take hr _ none
  · exact h

theorem Typed.close (hr : r.Coherent) (h : st.Typed r) : (st.close r).1.Typed r := by
  have hflush := h.flush hr
  unfold Stream.close
  split
  · rename_i heq
    rwa [heq] at hflush
  · rename_i heq
    rw [heq] at hflush
    split
    · exact ⟨hflush.records, nofun⟩
    · exact hflush

theorem Typed.handOver (hr : r.Coherent) {policy : Policy} {outcome : Stream × Option Failure}
    (h : outcome.1.Typed r) : (handOver policy outcome).1.Typed r := by
  unfold Stream.handOver
  split
  · split
    · exact h
    · exact ⟨h.record (Registry.failure_sound hr _), h.fields⟩
  · exact h

end Stream

namespace Session

variable {s : Session} {st : Stream}

/-- The values of a stream are sound after one more chunk, if they were before. -/
theorem push_typed (hs : s.registry.Coherent) (h : st.Typed s.registry) (chunk : String) :
    (s.push st chunk).1.Typed s.registry :=
  Stream.Typed.handOver hs (h.push hs chunk)

theorem close_typed (hs : s.registry.Coherent) (h : st.Typed s.registry) :
    (s.close st).1.Typed s.registry :=
  Stream.Typed.handOver hs (h.close hs)

end Session
end TypeAlgebra
