import TypeAlgebra.Cursor
import TypeAlgebra.Proofs.HandOver
import TypeAlgebra.Proofs.Layout.Progress

/-! A cursor in a layout. It is always inside a literal that is not matched to its end, or in a slot, so that each
character is compared with one of a literal or added to a candidate. It moves as matching by the segments that are left
does. -/
namespace TypeAlgebra
namespace Layout

/-- The characters that segments took: of a literal its own, of a slot a text. -/
inductive Spells : List Segment → List Char → Prop
  | nil : Spells [] []
  | literal {done : List Segment} {text : List Char} (own : List Char) (h : Spells done text) :
      Spells (done ++ [.literal own]) (text ++ own)
  | slot {done : List Segment} {text : List Char} (name : String) (ty : Ty) (candidate : String)
      (h : Spells done text) : Spells (done ++ [.slot name ty]) (text ++ candidate.toList)

end Layout

namespace Cursor

/-- What a step comes to: a failure, or the fields of a whole record if there is one, and the cursor after it. -/
abbrev Result := Except Failure (Option (List (String × Value))) × Cursor

/-- Behind a segment comes the front of the next one, and behind the last a whole record and the start. -/
inductive Advances (segments : List Segment) (fields : List (String × Value)) (index : Nat) : Result → Prop
  | next (more : index + 1 < segments.length) :
      Advances segments fields index (.ok none, { index := index + 1, position := 0, candidate := "", fields })
  | last (all : index + 1 = segments.length) :
      Advances segments fields index (.ok (some fields), { index := 0, position := 0, candidate := "", fields := [] })

/-- What one character comes to, by the segment that the cursor stands in. -/
inductive Consumes (s : Session) (segments : List Segment) (p : Cursor) (c : Char) (next : Option Char)
    (offset : Nat) : Result → Prop
  | refused {behind ahead : List Char} {expected : Char}
      (under : segments[p.index]? = some (.literal (behind ++ expected :: ahead)))
      (place : p.position = (String.ofList behind).utf8ByteSize) (differs : c ≠ expected) :
      Consumes s segments p c next offset (.error (.literalMismatch expected c offset), p)
  | matched {behind ahead : List Char} (under : segments[p.index]? = some (.literal (behind ++ c :: ahead)))
      (place : p.position = (String.ofList behind).utf8ByteSize) (more : ahead ≠ []) :
      Consumes s segments p c next offset (.ok none, { p with position := p.position + c.utf8Size })
  | passed {behind : List Char} {result : Result} (under : segments[p.index]? = some (.literal (behind ++ [c])))
      (place : p.position = (String.ofList behind).utf8ByteSize)
      (advances : Advances segments p.fields p.index result) : Consumes s segments p c next offset result
  | collected {name : String} {ty : Ty} (under : segments[p.index]? = some (.slot name ty))
      (goesOn : s.registry.accepts ty (p.candidate.push c) = false ∨
        ∃ d, next = some d ∧ s.registry.accepts ty ((p.candidate.push c).push d)) :
      Consumes s segments p c next offset (.ok none, { p with candidate := p.candidate.push c })
  /-- The text is one of the slot's type, so that a value is made of it under either policy. -/
  | committed {name : String} {ty : Ty} {value : Value} {result : Result}
      (under : segments[p.index]? = some (.slot name ty)) (accepts : s.registry.accepts ty (p.candidate.push c))
      (ends : ∀ d, next = some d → s.registry.accepts ty ((p.candidate.push c).push d) = false)
      (made : s.registry.make ty (.text (p.candidate.push c)) = .ok value) (typed : value.ty = ty)
      (advances : Advances segments (Sorted.put name value p.fields) p.index result) :
      Consumes s segments p c next offset result

/-- The cursor stands inside a literal or in a slot, and has taken these characters so far. -/
inductive Place (segments : List Segment) (text : List Char) (p : Cursor) : Prop
  | literal {done rest : List Segment} {front behind ahead : List Char}
      (split : segments = done ++ .literal (behind ++ ahead) :: rest) (index : p.index = done.length)
      (place : p.position = (String.ofList behind).utf8ByteSize) (more : ahead ≠ []) (candidate : p.candidate = "")
      (kept : Committed p.fields done) (spelled : Layout.Spells done front) (taken : text = front ++ behind) :
      Place segments text p
  | slot {done rest : List Segment} {name : String} {ty : Ty} {front : List Char}
      (split : segments = done ++ .slot name ty :: rest) (index : p.index = done.length) (place : p.position = 0)
      (kept : Committed p.fields done) (spelled : Layout.Spells done front)
      (taken : text = front ++ p.candidate.toList) : Place segments text p

/-- The matching that the cursor stands for, by the segments that are left. -/
def progress (segments : List Segment) (p : Cursor) : Progress where
  layout := segments
  todo := match segments.drop p.index with
    | .literal text :: rest => .literal (fromByte p.position text) :: rest
    | todo => todo
  candidate := p.candidate
  fields := p.fields

/-- What the cursor's step comes to is what matching by the segments that are left comes to. -/
inductive Moves (segments : List Segment) (p : Cursor) (c : Char) (offset : Nat) : Result → Move → Prop
  | pending (q : Cursor) : Moves segments p c offset (.ok none, q) (.pending (q.progress segments))
  | complete (fields : List (String × Value)) : Moves segments p c offset (.ok (some fields), .start) (.complete fields)
  | mismatch (expected : Char) :
      Moves segments p c offset (.error (.literalMismatch expected c offset), p) (.mismatch expected)

variable {s : Session} {segments done rest : List Segment} {segment : Segment} {text behind ahead : List Char}
  {p q : Cursor} {c : Char} {next : Option Char} {offset : Nat} {fields : List (String × Value)} {result : Result}
  {failure : Failure}

theorem fromByte_add (c : Char) (n : Nat) (rest : List Char) :
    fromByte (c.utf8Size + n) (c :: rest) = fromByte n rest := by
  obtain ⟨k, hk⟩ := Nat.exists_eq_succ_of_ne_zero (Nat.pos_iff_ne_zero.mp c.utf8Size_pos)
  have hsize : c.utf8Size + n = (k + n) + 1 := by omega
  have hrest : k + n + 1 - c.utf8Size = n := by omega
  rw [hsize, fromByte, hrest]

theorem fromByte_append (front back : List Char) :
    fromByte (String.ofList front).utf8ByteSize (front ++ back) = back := by
  induction front with
  | nil => simp [fromByte]
  | cons c front ih =>
    rw [String.ofList_cons, String.utf8ByteSize_append, String.utf8ByteSize_singleton, List.cons_append, fromByte_add,
      ih]

/-- A text is cut in one way only at a byte. -/
theorem cut_unique {behind' ahead' : List Char} (h : behind ++ ahead = behind' ++ ahead')
    (hsize : (String.ofList behind).utf8ByteSize = (String.ofList behind').utf8ByteSize) :
    behind = behind' ∧ ahead = ahead' := by
  have hahead : ahead = ahead' := by rw [← fromByte_append behind ahead, h, hsize, fromByte_append]
  subst hahead
  exact ⟨List.append_cancel_right h, rfl⟩

theorem utf8ByteSize_cut (behind : List Char) (c : Char) (ahead : List Char) :
    (String.ofList (behind ++ c :: ahead)).utf8ByteSize =
      (String.ofList behind).utf8ByteSize + c.utf8Size + (String.ofList ahead).utf8ByteSize := by
  rw [String.ofList_append, String.utf8ByteSize_append, String.ofList_cons, String.utf8ByteSize_append,
    String.utf8ByteSize_singleton, Nat.add_assoc]

theorem utf8ByteSize_pos (h : ahead ≠ []) : 0 < (String.ofList ahead).utf8ByteSize := by
  obtain ⟨c, rest, rfl⟩ := List.exists_cons_of_ne_nil h
  have hsize := utf8ByteSize_cut [] c rest
  have hchar := c.utf8Size_pos
  rw [List.nil_append] at hsize
  omega

theorem advances_advance (h : p.index < segments.length) : Advances segments p.fields p.index (p.advance segments) := by
  unfold advance
  dsimp only
  split
  · exact .next ‹_›
  · exact .last (by omega)

/-- Inside a literal the character in front decides. -/
theorem consumes_literal (under : segments[p.index]? = some (.literal (behind ++ ahead)))
    (place : p.position = (String.ofList behind).utf8ByteSize) (more : ahead ≠ []) (s : Session) (c : Char)
    (next : Option Char) (offset : Nat) : p.Consumes s segments c next offset (p.step s segments c next offset) := by
  obtain ⟨expected, ahead, rfl⟩ := List.exists_cons_of_ne_nil more
  obtain ⟨inside, -⟩ := List.getElem?_eq_some_iff.mp under
  have hsize := utf8ByteSize_cut behind expected ahead
  unfold step
  simp only [under, place, fromByte_append, List.head?_cons]
  split
  · rename_i heq
    subst heq
    -- The bytes of the literal are all behind just where no character is left of it.
    by_cases hlast : ahead = []
    · subst hlast
      rw [if_pos (by simp)]
      exact .passed under place (advances_advance (p := { p with position := _ }) inside)
    · have hahead := utf8ByteSize_pos hlast
      rw [if_neg (by omega), ← place]
      exact .matched under place hlast
  · exact .refused under place (Ne.symm ‹_›)

/-- In a slot the candidate grows, until no longer text is of the type. -/
theorem consumes_slot {name : String} {ty : Ty} (under : segments[p.index]? = some (.slot name ty)) (s : Session)
    (c : Char) (next : Option Char) (offset : Nat) :
    p.Consumes s segments c next offset (p.step s segments c next offset) := by
  obtain ⟨inside, -⟩ := List.getElem?_eq_some_iff.mp under
  unfold step
  simp only [under]
  split
  · rename_i haccepts
    split
    · rename_i hends
      obtain ⟨value, hread⟩ := s.registry.read?_of_accepts haccepts
      rw [Session.makeAtOnce_of_read? hread]
      refine .committed under haccepts ?_ (s.registry.make_text hread) (s.registry.ty_read? hread)
        (advances_advance (p := { p with candidate := _, fields := _ }) inside)
      rintro d rfl
      simpa using hends
    · rename_i hgoes
      cases next with
      | none => simp at hgoes
      | some d => exact .collected under (.inr ⟨d, rfl, by simpa using hgoes⟩)
  · rename_i haccepts
    exact .collected under (.inl (by simpa using haccepts))

/-- The segments behind, the one under way and those to come, by the index. -/
theorem view (hsplit : segments = done ++ segment :: rest) (hindex : p.index = done.length) :
    p.index < segments.length ∧ segments[p.index]? = some segment ∧ segments.take p.index = done ∧
      segments.drop (p.index + 1) = rest := by
  subst hsplit
  rw [hindex]
  simp

/-- There is always a character of a literal, or a slot, in front. -/
theorem Place.consumes (h : p.Place segments text) (s : Session) (c : Char) (next : Option Char) (offset : Nat) :
    p.Consumes s segments c next offset (p.step s segments c next offset) := by
  cases h with
  | literal split index place more =>
    obtain ⟨-, hunder, -⟩ := view split index
    exact consumes_literal hunder place more s c next offset
  | slot split index =>
    obtain ⟨-, hunder, -⟩ := view split index
    exact consumes_slot hunder s c next offset

section Steps

/-- In front of a segment the cursor stands in it, as a literal of a layout is never empty. -/
theorem place_front (hsolid : .literal [] ∉ segments) (hsplit : segments = done ++ segment :: rest)
    (hkept : Committed fields done) (hspelled : Layout.Spells done text) :
    Place segments text { index := done.length, position := 0, candidate := "", fields } := by
  cases segment with
  | literal own =>
    have hown : own ≠ [] := by
      rintro rfl
      exact hsolid (by simp [hsplit])
    have hwhole : segments = done ++ .literal ([] ++ own) :: rest := hsplit
    exact .literal hwhole rfl rfl hown rfl hkept hspelled (by simp)
  | slot name ty => exact .slot hsplit rfl rfl hkept hspelled (by simp)

theorem place_start (hsolid : .literal [] ∉ segments) (hsegments : segments ≠ []) : start.Place segments [] := by
  obtain ⟨segment, rest, rfl⟩ := List.exists_cons_of_ne_nil hsegments
  have hsplit : segment :: rest = [] ++ segment :: rest := rfl
  exact place_front hsolid hsplit .nil .nil

/-- Behind a segment the cursor stands in front of the next, if there is one. -/
theorem Advances.place (h : Advances segments fields p.index (.ok none, q)) (hsolid : .literal [] ∉ segments)
    (hsplit : segments = done ++ segment :: rest) (hindex : p.index = done.length)
    (hkept : Committed fields (done ++ [segment])) (hspelled : Layout.Spells (done ++ [segment]) text) :
    q.Place segments text := by
  cases h with
  | next more =>
    cases rest with
    | nil => simp [hsplit, hindex] at more
    | cons following rest =>
      have hfurther : segments = (done ++ [segment]) ++ following :: rest := by simp [hsplit]
      have hplace := place_front hsolid hfurther hkept hspelled
      simpa [hindex] using hplace

/-- Behind the last segment all were kept. -/
theorem Advances.complete {all : List (String × Value)} (h : Advances segments fields p.index (.ok (some all), q))
    (hsplit : segments = done ++ segment :: rest) (hindex : p.index = done.length)
    (hkept : Committed fields (done ++ [segment])) : Committed all segments ∧ q = .start := by
  cases h with
  | last hall =>
    obtain rfl : rest = [] := by
      simp only [hsplit, hindex, List.length_append, List.length_cons] at hall
      exact List.length_eq_zero_iff.mp (by omega)
    rw [hsplit]
    exact ⟨hkept, rfl⟩

theorem Advances.not_error (h : Advances segments fields p.index (.error failure, q)) : False := by cases h

theorem Advances.begun (h : Advances segments fields p.index (.ok none, q)) : q.begun := by
  cases h with
  | next more => simp [Cursor.begun]

/-- One step goes from place to place, and the character is among those taken. -/
theorem Place.step (h : p.Place segments text) (hsolid : .literal [] ∉ segments)
    (hstep : p.step s segments c next offset = (.ok none, q)) : q.Place segments (text ++ [c]) := by
  have hconsumes := h.consumes s c next offset
  rw [hstep] at hconsumes
  cases h with
  | @literal done rest front behind ahead split index place more candidate kept spelled taken =>
    obtain ⟨-, hunder, -⟩ := view split index
    cases hconsumes with
    | @matched behind' ahead' under place' more' =>
      obtain ⟨rfl, rfl⟩ := cut_unique (Segment.literal.inj (Option.some.inj (hunder.symm.trans under)))
        (place.symm.trans place')
      have hfurther : segments = done ++ .literal ((behind ++ [c]) ++ ahead') :: rest := by simp [split]
      refine .literal hfurther index ?_ more' candidate kept spelled (by rw [taken, List.append_assoc])
      simp [place]
    | @passed behind' _ under place' advances =>
      obtain ⟨rfl, rfl⟩ := cut_unique (Segment.literal.inj (Option.some.inj (hunder.symm.trans under)))
        (place.symm.trans place')
      refine advances.place hsolid split index (kept.literal _) ?_
      rw [taken, List.append_assoc]
      exact .literal _ spelled
    | collected under => cases hunder.symm.trans under
    | committed under => cases hunder.symm.trans under
  | @slot done rest name ty front split index place kept spelled taken =>
    obtain ⟨-, hunder, -⟩ := view split index
    have htoList : (p.candidate.push c).toList = p.candidate.toList ++ [c] := String.toList_push c
    cases hconsumes with
    | matched under => cases hunder.symm.trans under
    | passed under => cases hunder.symm.trans under
    | collected under =>
      refine .slot split index place kept spelled ?_
      rw [taken, htoList, List.append_assoc]
    | @committed name' ty' value _ under accepts ends made typed advances =>
      cases hunder.symm.trans under
      subst typed
      refine advances.place hsolid split index (kept.slot name value) ?_
      rw [taken, List.append_assoc, ← htoList]
      exact .slot _ _ _ spelled

/-- Where a step gives a whole record, a value of each slot was kept, and the cursor is back at the start. -/
theorem Place.complete (h : p.Place segments text) (hstep : p.step s segments c next offset = (.ok (some fields), q)) :
    Committed fields segments ∧ q = .start := by
  have hconsumes := h.consumes s c next offset
  rw [hstep] at hconsumes
  cases h with
  | literal split index place more candidate kept =>
    obtain ⟨-, hunder, -⟩ := view split index
    cases hconsumes with
    | passed under place' advances => exact advances.complete split index (kept.literal _)
    | committed under => cases hunder.symm.trans under
  | slot split index place kept =>
    obtain ⟨-, hunder, -⟩ := view split index
    cases hconsumes with
    | passed under => cases hunder.symm.trans under
    | committed under accepts ends made typed advances =>
      cases hunder.symm.trans under
      subst typed
      exact advances.complete split index (kept.slot _ _)

/-- A step fails at a literal only, and then leaves the cursor where it stood. -/
theorem Consumes.refusal (h : p.Consumes s segments c next offset (.error failure, q)) :
    q = p ∧ ∃ behind expected ahead, segments[p.index]? = some (.literal (behind ++ expected :: ahead)) ∧
      p.position = (String.ofList behind).utf8ByteSize ∧ c ≠ expected ∧
      failure = .literalMismatch expected c offset := by
  cases h with
  | refused under place differs => exact ⟨rfl, _, _, _, under, place, differs, rfl⟩
  | passed under place advances => exact advances.not_error.elim
  | committed under accepts ends made typed advances => exact advances.not_error.elim

namespace Place

theorem inside (h : p.Place segments text) : p.index < segments.length := by
  cases h with
  | literal split index => exact (view split index).1
  | slot split index => exact (view split index).1

theorem committed (h : p.Place segments text) : Committed p.fields (segments.take p.index) := by
  cases h with
  | literal split index place more candidate kept =>
    obtain ⟨-, -, htake, -⟩ := view split index
    rwa [htake]
  | slot split index place kept =>
    obtain ⟨-, -, htake, -⟩ := view split index
    rwa [htake]

/-- Inside a literal what is behind ends in front of a character, and is not all of it. The rest is awaited. -/
theorem ofLiteral (h : p.Place segments text) {whole : List Char}
    (hunder : segments[p.index]? = some (.literal whole)) : p.candidate = "" ∧
      String.Pos.Raw.IsValid (.ofList whole) ⟨p.position⟩ ∧ p.position < (String.ofList whole).utf8ByteSize ∧
      ∃ behind ahead, whole = behind ++ ahead ∧ (String.ofList behind).utf8ByteSize = p.position ∧
        p.awaited segments = "literal " ++ Text.quoted (.ofList ahead) := by
  cases h with
  | @literal done rest front behind ahead split index place more candidate =>
    obtain ⟨-, hsegment, -⟩ := view split index
    have hawaited : p.awaited segments = "literal " ++ Text.quoted (.ofList ahead) := by
      rw [awaited, hsegment, place]
      dsimp only
      rw [fromByte_append]
      rfl
    cases hsegment.symm.trans hunder
    have hahead := utf8ByteSize_pos more
    refine ⟨candidate, ?_, ?_, behind, ahead, rfl, place.symm, hawaited⟩
    · rw [place, String.ofList_append]
      exact String.Pos.Raw.isValid_iff_exists_append.mpr ⟨_, _, rfl, rfl⟩
    · rw [place, String.ofList_append, String.utf8ByteSize_append]
      omega
  | slot split index =>
    obtain ⟨-, hsegment, -⟩ := view split index
    cases hsegment.symm.trans hunder

theorem ofSlot (h : p.Place segments text) {name : String} {ty : Ty}
    (hunder : segments[p.index]? = some (.slot name ty)) : p.position = 0 := by
  cases h with
  | literal split index =>
    obtain ⟨-, hsegment, -⟩ := view split index
    cases hsegment.symm.trans hunder
  | slot split index place => exact place

/-- What was taken is accounted for by the segments behind, the front of a literal and the candidate. -/
theorem exists_spelled (h : p.Place segments text) : ∃ front behind, Layout.Spells (segments.take p.index) front ∧
    text = front ++ behind ++ p.candidate.toList ∧ (String.ofList behind).utf8ByteSize = p.position := by
  cases h with
  | @literal done rest front behind ahead split index place more candidate kept spelled taken =>
    obtain ⟨-, -, htake, -⟩ := view split index
    rw [htake]
    exact ⟨front, behind, spelled, by simp [taken, candidate], place.symm⟩
  | @slot done rest name ty front split index place kept spelled taken =>
    obtain ⟨-, -, htake, -⟩ := view split index
    rw [htake]
    exact ⟨front, [], spelled, by simp [taken], by rw [place]; rfl⟩

end Place

theorem Consumes.begun (h : p.Consumes s segments c next offset (.ok none, q)) : q.begun := by
  cases h with
  | matched =>
    have := c.utf8Size_pos
    simp [Cursor.begun]
    omega
  | passed under place advances => exact advances.begun
  | collected => simp [Cursor.begun]
  | committed under accepts ends made typed advances => exact advances.begun

/-- A cursor that has taken nothing stands at the start. -/
theorem Place.eq_start (h : p.Place segments text) (hbegun : p.begun = false) : p = .start := by
  obtain ⟨index, position, candidate, fields⟩ := p
  simp only [Cursor.begun, Bool.or_eq_false_iff, decide_eq_false_iff_not, Nat.not_lt, Nat.le_zero,
    ne_eq, Decidable.not_not] at hbegun
  obtain ⟨⟨rfl, rfl⟩, rfl⟩ := hbegun
  have hfields : fields = [] := by
    cases h with
    | literal split index place more candidate kept | slot split index place kept =>
      obtain rfl := List.length_eq_zero_iff.mp index.symm
      exact kept.eq_nil
  rw [hfields]
  rfl

end Steps

section Moves

theorem progress_front (segments : List Segment) (index : Nat) (candidate : String) (fields : List (String × Value)) :
    ({ index, position := 0, candidate, fields } : Cursor).progress segments =
      ⟨segments, segments.drop index, candidate, fields⟩ := by
  unfold progress
  dsimp only
  cases segments.drop index with
  | nil => rfl
  | cons segment rest => cases segment <;> simp [fromByte]

@[simp] theorem progress_start (segments : List Segment) : start.progress segments = .start segments :=
  progress_front segments 0 "" []

@[simp] theorem restart_progress (segments : List Segment) (p : Cursor) :
    (p.progress segments).restart = .start segments := rfl

@[simp] theorem atSlot_progress (segments : List Segment) (p : Cursor) :
    (p.progress segments).atSlot = p.atSlot segments := by
  unfold Progress.atSlot progress atSlot
  rw [← List.head?_drop]
  cases segments.drop p.index with
  | nil => rfl
  | cons segment rest => cases segment <;> rfl

@[simp] theorem awaited_progress (segments : List Segment) (p : Cursor) :
    (p.progress segments).awaited = p.awaited segments := by
  unfold Progress.awaited progress awaited
  rw [← List.head?_drop]
  cases segments.drop p.index with
  | nil => rfl
  | cons segment rest =>
    cases segment with
    | literal whole => exact Segment.described_literal _
    | slot name ty => rfl

theorem drop_of_under (h : segments[p.index]? = some segment) :
    segments.drop p.index = segment :: segments.drop (p.index + 1) := by
  obtain ⟨hlt, rfl⟩ := List.getElem?_eq_some_iff.mp h
  exact List.drop_eq_getElem_cons hlt

theorem progress_literal (hunder : segments[p.index]? = some (.literal (behind ++ ahead)))
    (hplace : p.position = (String.ofList behind).utf8ByteSize) :
    p.progress segments = ⟨segments, .literal ahead :: segments.drop (p.index + 1), p.candidate, p.fields⟩ := by
  unfold progress
  rw [drop_of_under hunder, hplace]
  dsimp only
  rw [fromByte_append]

theorem progress_slot {name : String} {ty : Ty} (hunder : segments[p.index]? = some (.slot name ty)) :
    p.progress segments = ⟨segments, .slot name ty :: segments.drop (p.index + 1), p.candidate, p.fields⟩ := by
  unfold progress
  rw [drop_of_under hunder]

/-- Where as many segments are left as there are, none is behind. -/
theorem behind_eq_nil {left : Segment} (h : left :: rest = done ++ segment :: rest) : done = [] := by
  have hlength := congrArg List.length h
  simp only [List.length_cons, List.length_append] at hlength
  exact List.length_eq_zero_iff.mp (by omega)

/-- Both have begun as soon as a character is behind. -/
theorem Place.begun_progress (h : p.Place segments text) : (p.progress segments).begun = p.begun := by
  cases hbegun : p.begun with
  | false =>
    rw [h.eq_start hbegun, progress_start]
    simp [Progress.begun, Progress.start]
  | true =>
    rw [Progress.begun, Bool.or_eq_true, decide_eq_true_iff, decide_eq_true_iff]
    by_contra hnot
    obtain ⟨htodo, hcandidate⟩ := not_or.mp hnot
    replace htodo : (p.progress segments).todo = segments := not_not.mp htodo
    replace hcandidate : p.candidate = "" := not_not.mp hcandidate
    -- All segments are still left, so that none is behind, nor a character of the first.
    cases h with
    | @literal done rest front behind ahead split index place more =>
      obtain ⟨-, hunder, -, hdrop⟩ := view split index
      rw [progress_literal hunder place, hdrop] at htodo
      obtain rfl := behind_eq_nil (htodo.trans split)
      obtain ⟨hahead, -⟩ := List.cons.inj (htodo.trans split)
      obtain rfl : behind = [] := by simpa using hahead
      simp [Cursor.begun, index, place, hcandidate] at hbegun
    | @slot done rest name ty front split index place =>
      obtain ⟨-, hunder, -, hdrop⟩ := view split index
      rw [progress_slot hunder, hdrop] at htodo
      obtain rfl := behind_eq_nil (htodo.trans split)
      simp [Cursor.begun, index, place, hcandidate] at hbegun

/-- Going on from a place is going on to the segments that are left. -/
theorem Advances.moves (h : Advances segments fields p.index result) {left : Segment} {candidate : String} :
    Moves segments p c offset result
      (⟨segments, left :: segments.drop (p.index + 1), candidate, fields⟩ : Progress).advance := by
  unfold Progress.advance
  rw [List.tail_cons]
  cases h with
  | next more =>
    rw [List.drop_eq_getElem_cons more]
    dsimp only
    rw [← List.drop_eq_getElem_cons more, ← progress_front]
    exact .pending _
  | last all =>
    rw [List.drop_of_length_le (Nat.le_of_eq all.symm)]
    exact .complete fields

/-- A step of the cursor is a step of matching by the segments that are left. -/
theorem Consumes.moves (h : p.Consumes s segments c next offset result) :
    Moves segments p c offset result ((p.progress segments).step s.registry c next) := by
  cases h with
  | refused under place differs =>
    rw [progress_literal under place, Progress.step]
    dsimp only
    rw [if_pos differs]
    exact .mismatch _
  | @matched behind ahead under place more =>
    have hunder : segments[p.index]? = some (.literal ((behind ++ [c]) ++ ahead)) := by simpa using under
    have hfurther : ({ p with position := p.position + c.utf8Size } : Cursor).progress segments =
        ⟨segments, .literal ahead :: segments.drop (p.index + 1), p.candidate, p.fields⟩ :=
      progress_literal hunder (by simp [place])
    rw [progress_literal under place, Progress.step]
    dsimp only
    rw [if_neg (not_not.mpr rfl), if_neg more, ← hfurther]
    exact .pending _
  | passed under place advances =>
    rw [progress_literal under place, Progress.step]
    dsimp only
    rw [if_neg (not_not.mpr rfl), if_pos rfl]
    exact advances.moves
  | @collected name ty under goesOn =>
    have hfurther : ({ p with candidate := p.candidate.push c } : Cursor).progress segments =
        ⟨segments, .slot name ty :: segments.drop (p.index + 1), p.candidate.push c, p.fields⟩ := progress_slot under
    rw [progress_slot under, Progress.step]
    dsimp only
    split
    · rw [← hfurther]
      exact .pending _
    · rename_i hnext
      have hread : s.registry.read? ty (p.candidate.push c) = none := by
        rw [← Option.isNone_iff_eq_none, ← Option.not_isSome, s.registry.isSome_read?, Bool.not_eq_true']
        refine goesOn.resolve_right ?_
        rintro ⟨d, rfl, hlonger⟩
        exact hnext hlonger
      rw [hread, ← hfurther]
      exact .pending _
  | @committed name ty value result under accepts ends made typed advances =>
    obtain ⟨read, hread⟩ := s.registry.read?_of_accepts accepts
    obtain rfl : read = value := Except.ok.inj ((s.registry.make_text hread).symm.trans made)
    have hnext : ¬ next.any fun d => s.registry.accepts ty ((p.candidate.push c).push d) := by
      cases next with
      | none => exact Bool.false_ne_true
      | some d => simpa using ends d rfl
    rw [progress_slot under, Progress.step]
    dsimp only
    rw [if_neg hnext, hread]
    exact advances.moves

end Moves

end Cursor
end TypeAlgebra
