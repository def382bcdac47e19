import TypeAlgebra.Proofs.Form
import TypeAlgebra.Proofs.Layout.Known
import Mathlib.Algebra.Group.Nat.Even
import Mathlib.Data.List.Chain

/-! Scanning a format. Its markers open and close names in turn; the scan gives the literals and the slots between
them, in segments that are told apart when they are written again, or what is wrong first. -/
namespace TypeAlgebra

/-- The segment as it stands in a format. -/
def Segment.written (marker : Char) : Segment → List Char
  | .literal text => text
  | .slot name _ => marker :: (name.toList ++ [marker])

namespace Layout

variable {r : Registry} {fields : List (String × Ty)} {marker : Char} {segments : List Segment}
  {text name rest before tail format : List Char} {failure : Failure}

def written (marker : Char) (segments : List Segment) : List Char := segments.flatMap (·.written marker)

/-! A format is a text without markers, or such a text before a marker, with a name after it that is closed by another
marker or left open. -/

@[elab_as_elim]
theorem format_induction {motive : List Char → Prop} (marker : Char)
    (plain : ∀ text, marker ∉ text → motive text)
    (opened : ∀ text name, marker ∉ text → marker ∉ name → motive (text ++ marker :: name))
    (closed : ∀ text name rest, marker ∉ text → marker ∉ name → motive rest →
      motive (text ++ marker :: (name ++ marker :: rest))) (format : List Char) : motive format := by
  by_cases hmem : marker ∈ format
  · obtain ⟨text, tail, hformat, htext⟩ := List.eq_append_cons_of_mem hmem
    by_cases hnext : marker ∈ tail
    · obtain ⟨name, rest, htail, hname⟩ := List.eq_append_cons_of_mem hnext
      rw [hformat, htail]
      have hshorter : rest.length < format.length := by
        rw [hformat, htail]
        simp only [List.length_append, List.length_cons]
        omega
      exact closed text name rest htext hname (format_induction marker plain opened closed rest)
    · rw [hformat]
      exact opened text tail htext hnext
  · exact plain format hmem
termination_by format.length

/-- The segments written in a format. -/
def scan (r : Registry) (fields : List (String × Ty)) (marker : Char) (format : List Char) :
    Except Failure (List Segment) :=
  ofPieces r fields (pieces marker format)

theorem scan_plain (h : marker ∉ text) : scan r fields marker text = .ok (literal text) := by
  rw [scan, pieces_of_not_mem h, ofPieces]

theorem scan_opened (htext : marker ∉ text) (hname : marker ∉ name) :
    scan r fields marker (text ++ marker :: name) = .error (.unterminatedField (String.ofList name)) := by
  rw [scan, pieces_append htext, pieces_of_not_mem hname, ofPieces]

theorem scan_closed (htext : marker ∉ text) (hname : marker ∉ name) :
    scan r fields marker (text ++ marker :: (name ++ marker :: rest)) =
      match slot r fields (String.ofList name) with
      | .error failure => .error failure
      | .ok segment => (scan r fields marker rest).map fun others => literal text ++ segment :: others := by
  rw [scan, pieces_append htext, pieces_append hname, ofPieces]
  · rfl
  · exact pieces_ne_nil marker rest

/-! Where markers stand in a format. Those with an even number of markers before them open a name. -/

/-- A marker that opens a name, with these characters after it. -/
structure Opens (marker : Char) (format before tail : List Char) : Prop where
  eq : format = before ++ marker :: tail
  even : Even (before.count marker)

/-- A name that is opened by a marker and closed by the next. -/
structure Stands (marker : Char) (format before name after : List Char) : Prop where
  opens : Opens marker format before (name ++ marker :: after)
  bare : marker ∉ name

/-- The name stands in the format, between an opening marker and its closing one. -/
def Named (marker : Char) (format : List Char) (name : String) : Prop :=
  ∃ before after, Stands marker format before name.toList after

section Markers

/-- A marker of a format is the first one, or comes after it. -/
theorem append_marker_inj (htext : marker ∉ text) : before ++ marker :: tail = text ++ marker :: rest ↔
    before = text ∧ tail = rest ∨ ∃ between, before = text ++ marker :: between ∧ rest = between ++ marker :: tail := by
  constructor
  · intro h
    obtain ⟨more, htext', hmore⟩ | ⟨more, hbefore, hmore⟩ := List.append_eq_append_iff.mp h
    · cases more with
      | nil => exact .inl ⟨by simpa using htext'.symm, by simpa using hmore⟩
      | cons c more =>
        obtain ⟨rfl, -⟩ := List.cons.inj hmore
        exact absurd (by rw [htext']; simp) htext
    · cases more with
      | nil => exact .inl ⟨by simpa using hbefore, by simpa using hmore.symm⟩
      | cons c more =>
        obtain ⟨rfl, hrest⟩ := List.cons.inj hmore
        exact .inr ⟨more, hbefore, hrest⟩
  · rintro (⟨rfl, rfl⟩ | ⟨between, rfl, rfl⟩) <;> simp

/-- A closed name takes two markers, so that after it markers open names as they do at the beginning. -/
theorem even_closed (htext : marker ∉ text) (hname : marker ∉ name) :
    Even ((text ++ marker :: (name ++ marker :: rest)).count marker) ↔ Even (rest.count marker) := by
  simp [List.count_eq_zero.mpr htext, List.count_eq_zero.mpr hname, Nat.even_add]

theorem not_opens_plain (htext : marker ∉ text) : ¬ Opens marker text before tail := by
  rintro ⟨rfl, -⟩
  simp at htext

theorem opens_opened (htext : marker ∉ text) (hname : marker ∉ name) :
    Opens marker (text ++ marker :: name) before tail ↔ before = text ∧ tail = name := by
  constructor
  · rintro ⟨heq, -⟩
    obtain h | ⟨between, -, rfl⟩ := (append_marker_inj htext).mp heq.symm
    · exact h
    · simp at hname
  · rintro ⟨rfl, rfl⟩
    exact ⟨rfl, by simp [List.count_eq_zero.mpr htext]⟩

theorem opens_closed (htext : marker ∉ text) (hname : marker ∉ name) :
    Opens marker (text ++ marker :: (name ++ marker :: rest)) before tail ↔
      before = text ∧ tail = name ++ marker :: rest ∨
      ∃ between, before = text ++ marker :: (name ++ marker :: between) ∧ Opens marker rest between tail := by
  constructor
  · rintro ⟨heq, heven⟩
    obtain h | ⟨between, rfl, hbetween⟩ := (append_marker_inj htext).mp heq.symm
    · exact .inl h
    obtain ⟨rfl, -⟩ | ⟨between, rfl, rfl⟩ := (append_marker_inj hname).mp hbetween.symm
    · -- the closing marker has an odd number of markers before it
      simp [List.count_eq_zero.mpr htext, List.count_eq_zero.mpr hname] at heven
    · exact .inr ⟨between, rfl, rfl, (even_closed htext hname).mp heven⟩
  · rintro (⟨rfl, rfl⟩ | ⟨between, rfl, rfl, heven⟩)
    · exact ⟨rfl, by simp [List.count_eq_zero.mpr htext]⟩
    · exact ⟨by simp, (even_closed htext hname).mpr heven⟩

theorem not_named_plain (htext : marker ∉ text) (field : String) : ¬ Named marker text field := by
  rintro ⟨before, after, h, -⟩
  exact not_opens_plain htext h

theorem not_named_opened (htext : marker ∉ text) (hname : marker ∉ name) (field : String) :
    ¬ Named marker (text ++ marker :: name) field := by
  rintro ⟨before, after, h, -⟩
  obtain ⟨-, rfl⟩ := (opens_opened htext hname).mp h
  simp at hname

theorem stands_closed {between after : List Char} (htext : marker ∉ text) (hname : marker ∉ name) :
    Stands marker (text ++ marker :: (name ++ marker :: rest)) before between after ↔
      before = text ∧ between = name ∧ after = rest ∨
      ∃ front, before = text ++ marker :: (name ++ marker :: front) ∧ Stands marker rest front between after := by
  constructor
  · rintro ⟨hopens, hbare⟩
    obtain ⟨rfl, htail⟩ | ⟨front, rfl, hfront⟩ := (opens_closed htext hname).mp hopens
    · obtain ⟨rfl, rfl⟩ | ⟨more, rfl, -⟩ := (append_marker_inj hname).mp htail
      · exact .inl ⟨rfl, rfl, rfl⟩
      · simp at hbare
    · exact .inr ⟨front, rfl, hfront, hbare⟩
  · rintro (⟨rfl, rfl, rfl⟩ | ⟨front, rfl, hopens, hbare⟩)
    · exact ⟨(opens_closed htext hname).mpr (.inl ⟨rfl, rfl⟩), hname⟩
    · exact ⟨(opens_closed htext hname).mpr (.inr ⟨front, rfl, hopens⟩), hbare⟩

theorem named_closed (htext : marker ∉ text) (hname : marker ∉ name) (field : String) :
    Named marker (text ++ marker :: (name ++ marker :: rest)) field ↔
      field = String.ofList name ∨ Named marker rest field := by
  simp only [Named, stands_closed htext hname]
  constructor
  · rintro ⟨before, after, ⟨rfl, hfield, rfl⟩ | ⟨front, rfl, hfront⟩⟩
    · exact .inl (by rw [← hfield, String.ofList_toList])
    · exact .inr ⟨front, after, hfront⟩
  · rintro (rfl | ⟨front, after, hfront⟩)
    · exact ⟨text, rest, .inl ⟨rfl, String.toList_ofList, rfl⟩⟩
    · exact ⟨_, after, .inr ⟨front, rfl, hfront⟩⟩

end Markers

/-! What a name in a format must be. -/

/-- The name is one of a field, whose type has only primitive types as leaves. -/
structure Textual (r : Registry) (fields : List (String × Ty)) (name : String) (ty : Ty) : Prop where
  declared : fields.lookup name = some ty
  primitive : ∀ leaf ∈ r.leaves ty, (r.get leaf).base?.isSome

/-- What is wrong with a name that is none. -/
inductive Untextual (r : Registry) (fields : List (String × Ty)) (name : String) : Failure → Prop
  | unknown (hname : fields.lookup name = none) : Untextual r fields name (.unknownField name)
  | noText {ty leaf : Ty} (hname : fields.lookup name = some ty) (hleaf : leaf ∈ r.leaves ty)
      (hnot : (r.get leaf).base? = none) :
      Untextual r fields name (.invalidArgument s!"a text type for field '{name}'" s!"<{r.name ty}>")

section Slots

theorem readable_iff {v : Variants} : readable r v ↔ ∀ leaf ∈ v.leaves, (r.get leaf).base?.isSome := by
  induction v with
  | leaf ty => simp [readable, Variants.leaves]
  | node ty left right ihLeft ihRight =>
    simp only [readable, Bool.and_eq_true, ihLeft, ihRight, Variants.leaves, Variants.mem_unite]
    constructor
    · rintro ⟨hleft, hright⟩ leaf (hleaf | hleaf)
      · exact hleft leaf hleaf
      · exact hright leaf hleaf
    · intro h
      exact ⟨fun leaf hleaf => h leaf (.inl hleaf), fun leaf hleaf => h leaf (.inr hleaf)⟩

theorem readable_variants {ty : Ty} :
    readable r (r.variants ty) ↔ ∀ leaf ∈ r.leaves ty, (r.get leaf).base?.isSome := by
  rw [readable_iff, r.leaves_variants]

theorem slot_iff_textual {field : String} {segment : Segment} :
    slot r fields field = .ok segment ↔ ∃ ty, segment = .slot field ty ∧ Textual r fields field ty := by
  unfold slot
  constructor
  · intro h
    split at h
    · contradiction
    rename_i ty hlookup
    split at h
    · rename_i htext
      cases h
      exact ⟨ty, rfl, hlookup, readable_variants.mp htext⟩
    · contradiction
  · rintro ⟨ty, rfl, hlookup, htext⟩
    rw [hlookup]
    exact if_pos (readable_variants.mpr htext)

theorem slot_iff_untextual {field : String} :
    slot r fields field = .error failure ↔ Untextual r fields field failure := by
  have hnot (ty : Ty) : ¬ readable r (r.variants ty) ↔ ∃ leaf ∈ r.leaves ty, (r.get leaf).base? = none := by
    simp [readable_variants]
  unfold slot
  constructor
  · intro h
    split at h
    · cases h
      exact .unknown ‹_›
    rename_i ty hlookup
    split at h
    · contradiction
    · rename_i htext
      cases h
      obtain ⟨leaf, hleaf, hbase⟩ := (hnot ty).mp htext
      exact .noText hlookup hleaf hbase
  · rintro (hlookup | ⟨hlookup, hleaf, hbase⟩)
    · rw [hlookup]
    · rw [hlookup]
      exact if_neg ((hnot _).mpr ⟨_, hleaf, hbase⟩)

end Slots

/-! The scan of a format. -/

/-- Segments that can be told apart when written: literals have text, and no two of them meet. -/
structure Proper (r : Registry) (fields : List (String × Ty)) (marker : Char) (segments : List Segment) : Prop where
  literals : ∀ {text}, .literal text ∈ segments → text ≠ [] ∧ marker ∉ text
  slots : ∀ {name ty}, .slot name ty ∈ segments → marker ∉ name.toList ∧ Textual r fields name ty
  apart : segments.IsChain fun a b => a.isSlot ∨ b.isSlot

/-- What is wrong in a format first. Only where every name is one of a field with texts can one be left open. -/
inductive Misread (r : Registry) (fields : List (String × Ty)) (marker : Char) (format : List Char) : Failure → Prop
  | name {before after : List Char} {field : String} {failure : Failure}
      (stands : Stands marker format before field.toList after)
      (first : ∀ {earlier}, Named marker before earlier → ∃ ty, Textual r fields earlier ty)
      (wrong : Untextual r fields field failure) : Misread r fields marker format failure
  | unterminated {before tail : List Char} (opens : Opens marker format before tail) (bare : marker ∉ tail)
      (names : ∀ {field}, Named marker format field → ∃ ty, Textual r fields field ty) :
      Misread r fields marker format (.unterminatedField (String.ofList tail))

section Scan

theorem proper_literal (htext : marker ∉ text) : Proper r fields marker (literal text) := by
  unfold literal
  split
  · exact ⟨by simp, by simp, by simp⟩
  · rename_i hne
    refine ⟨?_, by simp, by simp⟩
    intro other hother
    cases List.mem_singleton.mp hother
    exact ⟨hne, htext⟩

theorem written_literal : written marker (literal text) = text := by
  unfold literal
  split
  · rename_i htext
    rw [htext]
    rfl
  · simp [written, Segment.written]

/-- A slot keeps the segments around it apart. -/
theorem Proper.slot {field : String} {ty : Ty} (hleft : Proper r fields marker (literal text))
    (hright : Proper r fields marker segments) (hname : marker ∉ field.toList) (hty : Textual r fields field ty) :
    Proper r fields marker (literal text ++ .slot field ty :: segments) where
  literals hmem := by
    simp only [List.mem_append, List.mem_cons, reduceCtorEq, false_or] at hmem
    exact hmem.elim hleft.literals hright.literals
  slots hmem := by
    simp only [List.mem_append, slot_not_mem_literal, List.mem_cons, false_or] at hmem
    rcases hmem with heq | hmem
    · cases heq
      exact ⟨hname, hty⟩
    · exact hright.slots hmem
  apart := by
    refine List.isChain_append.mpr ⟨hleft.apart, List.isChain_cons.mpr ⟨?_, hright.apart⟩, ?_⟩
    · intro next hnext
      exact .inl rfl
    · intro last hlast next hnext
      cases hnext
      exact .inr rfl

/-- Past a name that is one of a field with texts, the scan goes on with the rest. -/
theorem scan_closed_eq_ok (htext : marker ∉ text) (hname : marker ∉ name) :
    scan r fields marker (text ++ marker :: (name ++ marker :: rest)) = .ok segments ↔
      ∃ ty others, Textual r fields (String.ofList name) ty ∧ scan r fields marker rest = .ok others ∧
        segments = literal text ++ .slot (String.ofList name) ty :: others := by
  rw [scan_closed htext hname]
  constructor
  · intro h
    cases hslot : slot r fields (String.ofList name) with
    | error failure => rw [hslot] at h; contradiction
    | ok segment =>
      rw [hslot] at h
      obtain ⟨others, hothers, rfl⟩ := eq_ok_of_map h
      obtain ⟨ty, rfl, hty⟩ := slot_iff_textual.mp hslot
      exact ⟨ty, others, hty, hothers, rfl⟩
  · rintro ⟨ty, others, hty, hothers, rfl⟩
    rw [slot_iff_textual.mpr ⟨ty, rfl, hty⟩, hothers]
    rfl

/-- What the scan of a format gives is the format, in segments that are apart. -/
theorem scan_written (h : scan r fields marker format = .ok segments) :
    written marker segments = format ∧ Proper r fields marker segments := by
  induction format using format_induction marker generalizing segments with
  | plain text htext =>
    rw [scan_plain htext] at h
    cases h
    exact ⟨written_literal, proper_literal htext⟩
  | opened text name htext hname =>
    rw [scan_opened htext hname] at h
    contradiction
  | closed text name rest htext hname ih =>
    obtain ⟨ty, others, hty, hothers, rfl⟩ := (scan_closed_eq_ok htext hname).mp h
    obtain ⟨hwritten, hproper⟩ := ih hothers
    refine ⟨?_, (proper_literal htext).slot hproper (by simpa using hname) hty⟩
    have hfirst : written marker (literal text) = text := written_literal
    unfold written at hfirst hwritten ⊢
    rw [List.flatMap_append, List.flatMap_cons, hfirst, hwritten]
    simp [Segment.written]

/-- The slots of a scanned format are the names that stand in it. -/
theorem named_of_scan (h : scan r fields marker format = .ok segments) (field : String) :
    Named marker format field ↔ ∃ ty, .slot field ty ∈ segments := by
  induction format using format_induction marker generalizing segments with
  | plain text htext =>
    rw [scan_plain htext] at h
    cases h
    simp [not_named_plain htext, slot_not_mem_literal]
  | opened text name htext hname =>
    rw [scan_opened htext hname] at h
    contradiction
  | closed text name rest htext hname ih =>
    obtain ⟨ty, others, -, hothers, rfl⟩ := (scan_closed_eq_ok htext hname).mp h
    rw [named_closed htext hname, ih hothers]
    simp only [List.mem_append, slot_not_mem_literal, List.mem_cons, Segment.slot.injEq, false_or]
    constructor
    · rintro (rfl | ⟨other, hother⟩)
      · exact ⟨ty, .inl ⟨rfl, rfl⟩⟩
      · exact ⟨other, .inr hother⟩
    · rintro ⟨other, ⟨rfl, -⟩ | hother⟩
      · exact .inl rfl
      · exact .inr ⟨other, hother⟩

/-- Segments that are apart are what their writing is scanned as. A literal may still be on its way before them. -/
theorem scan_of_proper (h : Proper r fields marker segments) (htext : marker ∉ text)
    (hmeet : ∀ segment ∈ segments.head?, text = [] ∨ segment.isSlot) :
    scan r fields marker (text ++ written marker segments) = .ok (literal text ++ segments) := by
  induction segments generalizing text with
  | nil => simpa [written] using scan_plain htext
  | cons segment segments ih =>
    have hproper : Proper r fields marker segments :=
      { literals := fun hmem => h.literals (List.mem_cons_of_mem _ hmem)
        slots := fun hmem => h.slots (List.mem_cons_of_mem _ hmem)
        apart := h.apart.tail }
    have hapart := (List.isChain_cons.mp h.apart).1
    cases segment with
    | literal other =>
      obtain rfl : text = [] := by simpa [Segment.isSlot, Segment.slotName?] using hmeet
      obtain ⟨hne, hother⟩ := h.literals List.mem_cons_self
      have hnext : ∀ segment ∈ segments.head?, other = [] ∨ segment.isSlot := by
        intro next hhead
        simpa [Segment.isSlot, Segment.slotName?, hne] using hapart next hhead
      simpa [written, Segment.written, literal, hne] using ih hproper hother hnext
    | slot field ty =>
      obtain ⟨hname, hty⟩ := h.slots List.mem_cons_self
      have hrest : scan r fields marker ([] ++ written marker segments) = .ok (literal [] ++ segments) :=
        ih hproper (by simp) (by simp)
      have hformat : text ++ written marker (.slot field ty :: segments) =
          text ++ marker :: (field.toList ++ marker :: written marker segments) := by
        simp [written, Segment.written]
      rw [hformat, scan_closed_eq_ok htext hname]
      exact ⟨ty, segments, by simpa using hty, by simpa [literal] using hrest, by simp⟩

/-- A scan succeeds where no name is left open and each is one of a field with texts. -/
theorem scan_ok_iff : (∃ segments, scan r fields marker format = .ok segments) ↔
    Even (format.count marker) ∧ ∀ {field}, Named marker format field → ∃ ty, Textual r fields field ty := by
  induction format using format_induction marker with
  | plain text htext =>
    simp [scan_plain htext, List.count_eq_zero.mpr htext, not_named_plain htext]
  | opened text name htext hname =>
    simp [scan_opened htext hname, List.count_eq_zero.mpr htext, List.count_eq_zero.mpr hname]
  | closed text name rest htext hname ih =>
    have hscan : (∃ segments, scan r fields marker (text ++ marker :: (name ++ marker :: rest)) = .ok segments) ↔
        (∃ ty, Textual r fields (String.ofList name) ty) ∧ ∃ others, scan r fields marker rest = .ok others := by
      simp only [scan_closed_eq_ok htext hname]
      exact ⟨fun ⟨_, ty, others, hty, hothers, _⟩ => ⟨⟨ty, hty⟩, others, hothers⟩,
        fun ⟨⟨ty, hty⟩, others, hothers⟩ => ⟨_, ty, others, hty, hothers, rfl⟩⟩
    rw [hscan, ih, even_closed htext hname]
    simp only [named_closed htext hname]
    constructor
    · rintro ⟨hfirst, heven, hnames⟩
      refine ⟨heven, ?_⟩
      rintro field (rfl | hfield)
      · exact hfirst
      · exact hnames hfield
    · rintro ⟨heven, hnames⟩
      exact ⟨hnames (.inl rfl), heven, fun hfield => hnames (.inr hfield)⟩

/-- What is wrong after the first name is wrong with the rest of the format. -/
theorem misread_closed (htext : marker ∉ text) (hname : marker ∉ name) :
    Misread r fields marker (text ++ marker :: (name ++ marker :: rest)) failure ↔
      Untextual r fields (String.ofList name) failure ∨
      (∃ ty, Textual r fields (String.ofList name) ty) ∧ Misread r fields marker rest failure := by
  constructor
  · rintro (⟨hstands, hfirst, hwrong⟩ | ⟨hopens, hbare, hnames⟩)
    · obtain ⟨rfl, hfield, rfl⟩ | ⟨front, rfl, hfront⟩ := (stands_closed htext hname).mp hstands
      · refine .inl ?_
        rwa [← hfield, String.ofList_toList]
      · simp only [named_closed htext hname] at hfirst
        exact .inr ⟨hfirst (.inl rfl), .name hfront (fun h => hfirst (.inr h)) hwrong⟩
    · simp only [named_closed htext hname] at hnames
      obtain ⟨-, rfl⟩ | ⟨front, rfl, hfront⟩ := (opens_closed htext hname).mp hopens
      · simp at hbare
      · exact .inr ⟨hnames (.inl rfl), .unterminated hfront hbare fun h => hnames (.inr h)⟩
  · rintro (hwrong | ⟨hfirst, ⟨hstands, hearlier, hwrong⟩ | ⟨hopens, hbare, hnames⟩⟩)
    · have hstands : Stands marker (text ++ marker :: (name ++ marker :: rest)) text (String.ofList name).toList rest :=
        (stands_closed htext hname).mpr (.inl ⟨rfl, String.toList_ofList, rfl⟩)
      exact .name hstands (fun h => absurd h (not_named_plain htext _)) hwrong
    · refine .name ((stands_closed htext hname).mpr (.inr ⟨_, rfl, hstands⟩)) ?_ hwrong
      intro earlier h
      obtain rfl | h := (named_closed htext hname earlier).mp h
      · exact hfirst
      · exact hearlier h
    · refine .unterminated ((opens_closed htext hname).mpr (.inr ⟨_, rfl, hopens⟩)) hbare ?_
      intro field h
      obtain rfl | h := (named_closed htext hname field).mp h
      · exact hfirst
      · exact hnames h

/-- A scan fails with what is wrong first. -/
theorem scan_error_iff : scan r fields marker format = .error failure ↔ Misread r fields marker format failure := by
  induction format using format_induction marker with
  | plain text htext =>
    rw [scan_plain htext]
    constructor
    · nofun
    · rintro (⟨hstands, -, -⟩ | ⟨hopens, -, -⟩)
      · exact absurd hstands.opens (not_opens_plain htext)
      · exact absurd hopens (not_opens_plain htext)
  | opened text name htext hname =>
    rw [scan_opened htext hname]
    constructor
    · rintro ⟨⟩
      exact .unterminated ((opens_opened htext hname).mpr ⟨rfl, rfl⟩) hname
        fun h => absurd h (not_named_opened htext hname _)
    · rintro (⟨hstands, -, -⟩ | ⟨hopens, -, -⟩)
      · exact absurd ⟨_, _, hstands⟩ (not_named_opened htext hname _)
      · obtain ⟨-, rfl⟩ := (opens_opened htext hname).mp hopens
        rfl
  | closed text name rest htext hname ih =>
    rw [scan_closed htext hname, misread_closed htext hname, ← ih, ← slot_iff_untextual]
    cases hslot : slot r fields (String.ofList name) with
    | error wrong =>
      have hnot : ¬ ∃ ty, Textual r fields (String.ofList name) ty := by
        rintro ⟨ty, hty⟩
        rw [slot_iff_textual.mpr ⟨ty, rfl, hty⟩] at hslot
        contradiction
      simp [hnot]
    | ok segment =>
      obtain ⟨ty, -, hty⟩ := slot_iff_textual.mp hslot
      have hfirst : ∃ ty, Textual r fields (String.ofList name) ty := ⟨ty, hty⟩
      cases scan r fields marker rest <;> simp [Except.map, hfirst]

end Scan

end Layout
end TypeAlgebra
