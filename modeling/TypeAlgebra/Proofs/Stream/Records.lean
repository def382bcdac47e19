import TypeAlgebra.Proofs.Construction
import TypeAlgebra.Stream

/-! What streams make of their records. They only add to them, and what they add are records: a failure gets among
them only where it is passed on. -/
namespace TypeAlgebra.Stream

/-- The second stream reads the same layout, and has all records of the first. -/
structure Grows (st next : Stream) : Prop where
  layout : next.layout = st.layout
  records : st.records <+: next.records

/-- What the second stream has besides are records, and no failures. -/
structure Adds (st next : Stream) : Prop extends Grows st next where
  fresh : ∀ value ∈ next.records.drop st.records.length, value.failure? = none

/-- No failure was passed on among the records. -/
def Clean (st : Stream) : Prop := ∀ value ∈ st.records, value.failure? = none

variable {r : Registry} {st next last : Stream}

theorem Grows.refl (st : Stream) : st.Grows st := ⟨rfl, List.prefix_rfl⟩

theorem Grows.trans (h : st.Grows next) (h' : next.Grows last) : st.Grows last :=
  ⟨h'.layout.trans h.layout, h.records.trans h'.records⟩

theorem grows_handOver (policy : Policy) (result : Stream × Option Failure) :
    result.1.Grows (handOver policy result).1 := by
  obtain ⟨st, failure⟩ := result
  cases failure with
  | none => exact .refl st
  | some failure =>
    cases policy with
    | raise => exact .refl st
    | pass => exact ⟨rfl, List.prefix_append ..⟩

theorem Adds.of_records {added : List Value} (hlayout : next.layout = st.layout)
    (hrecords : next.records = st.records ++ added) (hadded : ∀ value ∈ added, value.failure? = none) :
    st.Adds next where
  layout := hlayout
  records := ⟨added, hrecords.symm⟩
  fresh := by rwa [hrecords, List.drop_left]

theorem Adds.of_eq (hlayout : next.layout = st.layout) (hrecords : next.records = st.records) : st.Adds next :=
  .of_records hlayout (hrecords.trans (List.append_nil _).symm) (by simp)

theorem Adds.trans (h : st.Adds next) (h' : next.Adds last) : st.Adds last := by
  obtain ⟨added, hadded⟩ := h.records
  obtain ⟨more, hmore⟩ := h'.records
  have hfresh := h.fresh
  have hfresh' := h'.fresh
  rw [← hadded, List.drop_left] at hfresh
  rw [← hmore, List.drop_left] at hfresh'
  refine .of_records (h'.layout.trans h.layout) (by rw [← hmore, ← hadded, List.append_assoc]) ?_
  exact List.forall_mem_append.mpr ⟨hfresh, hfresh'⟩

theorem adds_take (r : Registry) (st : Stream) (c : Char) (next : Option Char) : st.Adds (st.take r c next).1 := by
  unfold take
  dsimp only
  split
  · exact .of_eq rfl rfl
  · exact .of_eq rfl rfl
  · split
    · rename_i record hrecord
      refine .of_records rfl rfl fun value hvalue => ?_
      rw [List.mem_singleton.mp hvalue]
      exact Registry.failure?_of_record hrecord
    · exact .of_eq rfl rfl

theorem adds_takeAll (r : Registry) (st : Stream) (cs : List Char) : st.Adds (st.takeAll r cs).1 := by
  induction cs generalizing st with
  | nil => exact .of_eq rfl rfl
  | cons c cs ih =>
    have htake := adds_take r st c cs.head?
    unfold takeAll
    split
    · exact .of_eq rfl rfl
    · cases hresult : st.take r c cs.head? with
      | mk taken failure =>
        rw [hresult] at htake
        cases failure with
        | some failure => exact htake
        | none => exact htake.trans (ih taken)

theorem adds_push (r : Registry) (st : Stream) (chunk : String) : st.Adds (st.push r chunk).1 :=
  have hempty : st.Adds { st with held := none } := .of_eq rfl rfl
  hempty.trans (adds_takeAll r _ _)

theorem adds_flush (r : Registry) (st : Stream) : st.Adds (st.flush r).1 := by
  have hempty : st.Adds { st with held := none } := .of_eq rfl rfl
  unfold flush
  split
  · exact hempty.trans (adds_take r _ _ none)
  · exact .of_eq rfl rfl

theorem adds_close (r : Registry) (st : Stream) : (st.flush r).1.Adds (st.close r).1 := by
  unfold close
  cases st.flush r with
  | mk flushed failure =>
    cases failure with
    | some failure => exact .of_eq rfl rfl
    | none =>
      dsimp only
      split <;> exact .of_eq rfl rfl

theorem clean_start (layout : Layout) : (start layout).Clean := by simp [Clean, start]

theorem Clean.adds (h : st.Clean) (hadds : st.Adds next) : next.Clean := by
  obtain ⟨added, hadded⟩ := hadds.records
  have hfresh := hadds.fresh
  rw [← hadded, List.drop_left] at hfresh
  intro value hvalue
  rw [← hadded] at hvalue
  exact (List.mem_append.mp hvalue).elim (h value) (hfresh value)

theorem Clean.push (h : st.Clean) (chunk : String) : (st.push r chunk).1.Clean := h.adds (adds_push r st chunk)

theorem Clean.close (h : st.Clean) : (st.close r).1.Clean := h.adds ((adds_flush r st).trans (adds_close r st))

end TypeAlgebra.Stream
