import TypeAlgebra.Progress
import TypeAlgebra.Proofs.Construction
import TypeAlgebra.Proofs.Layout.Known

/-! Where matching can stand in a layout, and what it has kept by then. Every step keeps this, so that matching
all segments leaves a value for each field of the product, and a record can be made. -/
namespace TypeAlgebra

theorem Segment.described_literal (left : List Char) :
    (Segment.literal left).described = "literal " ++ Text.quoted (.ofList left) := by
  rw [Text.quoted, String.toList_ofList]
  rfl

theorem Segment.described_slot (name : String) (ty : Ty) :
    (Segment.slot name ty).described = "field '" ++ name ++ "'" := rfl

/-- What is left of a segment while it is matched: all of it, or the end of a literal. -/
inductive Segment.Left : Segment → Segment → Prop
  | whole (segment : Segment) : Left segment segment
  | part {pre post : List Char} (hpre : pre ≠ []) (hpost : post ≠ []) :
    Left (.literal (pre ++ post)) (.literal post)

/-- Of a literal less is left after each of its characters. -/
theorem Segment.Left.tail {segment : Segment} {c : Char} {text : List Char}
    (h : segment.Left (.literal (c :: text))) : ∃ pre, pre ≠ [] ∧ segment = .literal (pre ++ text) := by
  cases h with
  | whole => exact ⟨[c], by simp, rfl⟩
  | @part pre post hpre hpost => exact ⟨pre ++ [c], by simp, by simp⟩

/-- The fields are those of the slots among the segments behind, each with a value of its slot's type. -/
structure Committed (fields : List (String × Value)) (done : List Segment) : Prop where
  ascending : Sorted.Ascending (·.1) fields
  found : ∀ {name ty}, .slot name ty ∈ done → ∃ value, fields.lookup name = some value
  typed : ∀ {name value}, fields.lookup name = some value → .slot name value.ty ∈ done

namespace Committed

theorem nil : Committed [] [] where
  ascending := List.Pairwise.nil
  found h := by contradiction
  typed h := by contradiction

theorem literal {fields : List (String × Value)} {done : List Segment} (h : Committed fields done)
    (text : List Char) : Committed fields (done ++ [.literal text]) where
  ascending := h.ascending
  found hslot := h.found (by simpa using hslot)
  typed hlookup := List.mem_append_left _ (h.typed hlookup)

theorem slot {fields : List (String × Value)} {done : List Segment} (h : Committed fields done)
    (name : String) (value : Value) :
    Committed (Sorted.put name value fields) (done ++ [.slot name value.ty]) where
  ascending := Sorted.ascending_put name value h.ascending
  found := by
    intro other ty hslot
    rw [Sorted.lookup_put]
    by_cases hname : other = name
    · exact ⟨value, by simp [hname]⟩
    · obtain ⟨found, hfound⟩ := h.found (by simpa [hname] using hslot)
      exact ⟨found, by simp [hname, hfound]⟩
  typed := by
    intro other found hlookup
    rw [Sorted.lookup_put] at hlookup
    by_cases hname : other = name
    · subst hname
      simp only [BEq.rfl, if_true] at hlookup
      cases hlookup
      simp
    · simp only [beq_iff_eq, hname, if_false] at hlookup
      exact List.mem_append_left _ (h.typed hlookup)

theorem eq_nil {fields : List (String × Value)} (h : Committed fields []) : fields = [] := by
  cases fields with
  | nil => rfl
  | cons field rest =>
    obtain ⟨name, value⟩ := field
    have hlookup : ((name, value) :: rest).lookup name = some value := by simp
    have hslot := h.typed hlookup
    contradiction

/-- Values for all slots of a layout make a record of its product. -/
theorem record {r : Registry} {layout : Layout} {declared : List (String × Ty)}
    {fields : List (String × Value)} (h : Committed fields layout.segments)
    (hfits : layout.Fits r declared) (pick : String → Value)
    (hpick : ∀ {name value}, fields.lookup name = some value → pick name = value) :
    r.record layout.product fields =
      .ok (.record layout.product (declared.map fun field => (field.1, pick field.1))) := by
  apply r.record_eq hfits.declared h.ascending.nodup
  rintro ⟨name, ty⟩ hfield
  obtain ⟨value, hvalue⟩ := h.found (hfits.slot hfield)
  rw [hpick hvalue]
  have hty := (hfits.typed (h.typed hvalue)).symm.trans (Sorted.lookup_of_mem hfits.distinct hfield)
  exact ⟨hvalue, Option.some.inj hty⟩

theorem exists_record {r : Registry} {layout : Layout} {declared : List (String × Ty)}
    {fields : List (String × Value)} (h : Committed fields layout.segments) (hfits : layout.Fits r declared) :
    ∃ record, r.record layout.product fields = .ok record :=
  ⟨_, h.record hfits (fun name => (fields.lookup name).getD (.failure (.missingField name)))
    (by intro name value hvalue; simp [hvalue])⟩

end Committed

namespace Progress

/-- Matching stands behind the segments done, inside the next one. -/
structure Sound (segments done : List Segment) (p : Progress) : Prop where
  layout_eq : p.layout = segments
  front : ∃ segment left rest,
    segments = done ++ segment :: rest ∧ p.todo = left :: rest ∧ segment.Left left
  candidate : p.candidate ≠ "" → p.atSlot
  committed : Committed p.fields done

end Progress

/-- What a step may come to: matching inside the layout with some of it behind, or all fields. -/
def Move.Sound (segments : List Segment) : Move → Prop
  | .pending p => p.begun ∧ ∃ done, p.Sound segments done
  | .complete fields => Committed fields segments
  | .mismatch _ => True

namespace Progress

variable {r : Registry} {segments done : List Segment} {p : Progress}

theorem sound_start (hsegments : segments ≠ []) : (start segments).Sound segments [] := by
  cases segments with
  | nil => contradiction
  | cons segment rest =>
    exact ⟨rfl, ⟨segment, segment, rest, rfl, rfl, .whole segment⟩, by simp [start], .nil⟩

/-- Matching that has not begun stands at the start. -/
theorem Sound.eq_start (h : p.Sound segments done) (hbegun : p.begun = false) : p = start segments := by
  obtain ⟨layout, todo, candidate, fields⟩ := p
  obtain ⟨hlayout, ⟨segment, left, rest, hsegments, htodo, hleft⟩, -, hcommitted⟩ := h
  simp only [begun, ne_eq, Bool.or_eq_false_iff, decide_eq_false_iff_not, Decidable.not_not] at hbegun
  obtain ⟨htodo', rfl⟩ := hbegun
  dsimp only at hlayout htodo hcommitted htodo'
  subst hlayout htodo'
  have hlength := congrArg List.length (htodo.symm.trans hsegments)
  simp only [List.length_append, List.length_cons] at hlength
  obtain rfl : done = [] := List.length_eq_zero_iff.mp (by omega)
  rw [hcommitted.eq_nil]
  rfl

/-- Going on to the next segment keeps the fields of those behind. -/
theorem advance_sound {segment : Segment} {rest : List Segment} (hlayout : p.layout = segments)
    (hsegments : segments = done ++ segment :: rest) (htail : p.todo.tail = rest)
    (hcommitted : Committed p.fields (done ++ [segment])) : p.advance.Sound segments := by
  have happend : segments = (done ++ [segment]) ++ rest := by rw [hsegments]; simp
  unfold advance
  cases rest with
  | nil =>
    rw [htail]
    rw [happend, List.append_nil]
    exact hcommitted
  | cons next rest =>
    rw [htail]
    have hlength : next :: rest ≠ segments := by
      intro heq
      have hlength := congrArg List.length (heq.trans happend)
      simp only [List.length_append, List.length_cons, List.length_nil] at hlength
      omega
    exact ⟨by simp [begun, hlayout, hlength], done ++ [segment], hlayout,
      ⟨next, next, rest, happend, rfl, .whole next⟩, by simp, hcommitted⟩

/-- One step keeps matching inside the layout, and what it has kept so far. -/
theorem step_sound (h : p.Sound segments done) (c : Char) (next : Option Char) :
    (p.step r c next).Sound segments := by
  obtain ⟨layout, todo, candidate, fields⟩ := p
  obtain ⟨hlayout, ⟨segment, left, rest, hsegments, htodo, hleft⟩, hcandidate, hcommitted⟩ := h
  dsimp only at hlayout htodo hcandidate hcommitted
  subst htodo
  unfold step
  cases left with
  | literal text =>
    have hkept : Committed fields (done ++ [segment]) := by
      cases hleft <;> exact hcommitted.literal _
    cases text with
    | nil => exact advance_sound hlayout hsegments rfl hkept
    | cons expected text =>
      dsimp only
      split
      · trivial
      split
      · exact advance_sound hlayout hsegments rfl hkept
      · rename_i htext
        obtain ⟨pre, hpre, rfl⟩ := hleft.tail
        refine ⟨?_, done, hlayout, ⟨_, _, rest, hsegments, rfl, .part hpre htext⟩, hcandidate, hcommitted⟩
        -- less is left than the layout begins with
        have hne : .literal text :: rest ≠ segments := by
          intro heq
          rw [hsegments] at heq
          cases done with
          | nil => simp [hpre] at heq
          | cons first done =>
            have hlength := congrArg List.length heq
            simp only [List.cons_append, List.length_append, List.length_cons] at hlength
            omega
        simp [begun, hlayout, hne]
  | slot name ty =>
    cases hleft
    have hpending : Move.Sound segments
        (.pending ⟨layout, .slot name ty :: rest, candidate.push c, fields⟩) :=
      ⟨by simp [begun], done, hlayout, ⟨_, _, rest, hsegments, rfl, .whole _⟩,
        fun _ => rfl, hcommitted⟩
    dsimp only
    split
    · exact hpending
    · split
      · exact hpending
      · rename_i value hread
        have hty := r.ty_read? hread
        subst hty
        exact advance_sound hlayout hsegments rfl (hcommitted.slot name value)

/-- Inside a slot no character is a mismatch. -/
theorem step_ne_mismatch (hslot : p.atSlot) (c : Char) (next : Option Char) (expected : Char) :
    p.step r c next ≠ .mismatch expected := by
  have hadvance : ∀ q : Progress, q.advance ≠ .mismatch expected := by
    intro q
    unfold advance
    split <;> simp
  unfold step
  split
  · simp
  · exact hadvance _
  · rename_i htodo
    simp [atSlot, htodo, Segment.isSlot, Segment.slotName?] at hslot
  · dsimp only
    split
    · simp
    · split
      · simp
      · exact hadvance _

/-- Outside a slot the character after does not matter. -/
theorem step_of_not_atSlot (hslot : p.atSlot = false) (c : Char) (next next' : Option Char) :
    p.step r c next = p.step r c next' := by
  unfold step
  split
  · rfl
  · rfl
  · rfl
  · rename_i htodo
    simp [atSlot, htodo, Segment.isSlot, Segment.slotName?] at hslot

/-- Matching that comes to an end has a value for every slot of the layout. -/
theorem run_sound (h : p.Sound segments done) {n : Nat} {cs rest : List Char}
    {fields : List (String × Value)} (hrun : p.run r n cs = .ok (fields, rest)) :
    Committed fields segments := by
  induction cs generalizing p done n with
  | nil => contradiction
  | cons c cs ih =>
    have hstep := step_sound (r := r) h c cs.head?
    unfold run at hrun
    cases hmove : p.step r c cs.head? with
    | pending q =>
      rw [hmove] at hstep hrun
      obtain ⟨-, done', hq⟩ := hstep
      exact ih hq hrun
    | complete fields' =>
      rw [hmove] at hstep hrun
      cases hrun
      exact hstep
    | mismatch expected =>
      rw [hmove] at hrun
      contradiction

end Progress
end TypeAlgebra
