import TypeAlgebra.Proofs.Layout.Scan
import TypeAlgebra.Stream

/-! The language of formats. A format is what its layout is when written, and every layout in normal form is read from
its own writing. What is wrong with any other format is told from the left. -/
namespace TypeAlgebra
namespace Layout

variable {r : Registry} {fields : List (String × Ty)} {marker : Char} {segments : List Segment} {format : List Char}
  {failure : Failure}

/-- The normal form of a layout's segments for a product with these fields. -/
structure Normal (r : Registry) (fields : List (String × Ty)) (marker : Char) (segments : List Segment) : Prop
    extends Proper r fields marker segments where
  nonempty : segments ≠ []
  covers : ∀ field ∈ fields, ∃ ty, .slot field.1 ty ∈ segments

/-- What is wrong with a format for a product first, and the failure it is refused with. -/
inductive Flawed (r : Registry) (marker : Char) (product : Ty) (text : String) : Failure → Prop
  | notProduct (hproduct : r.fields? product = none) :
      Flawed r marker product text (.invalidArgument "a product type to parse into" s!"<{r.name product}>")
  | misread {fields : List (String × Ty)} {failure : Failure} (hproduct : r.fields? product = some fields)
      (misread : Misread r fields marker text.toList failure) : Flawed r marker product text failure
  | empty {fields : List (String × Ty)} (hproduct : r.fields? product = some fields) (hempty : text = "") :
      Flawed r marker product text (.invalidArgument "a non-empty format" (Text.quoted text))
  | missing {before after : List (String × Ty)} {field : String × Ty}
      (hproduct : r.fields? product = some (before ++ field :: after)) (hnonempty : text ≠ "")
      (even : Even (text.toList.count marker))
      (names : ∀ {name}, Named marker text.toList name → ∃ ty, Textual r (before ++ field :: after) name ty)
      (earlier : ∀ other ∈ before, Named marker text.toList other.1) (first : ¬ Named marker text.toList field.1) :
      Flawed r marker product text (.missingField field.1)

section Text

variable {product : Ty} {text : String} {layout : Layout}

theorem written_eq_nil (h : Proper r fields marker segments) : written marker segments = [] ↔ segments = [] := by
  constructor
  · intro hwritten
    rw [written, List.flatMap_eq_nil_iff] at hwritten
    refine List.eq_nil_iff_forall_not_mem.mpr fun segment hmem => ?_
    have hnil := hwritten segment hmem
    cases segment with
    | literal text => exact (h.literals hmem).1 hnil
    | slot name ty => simp [Segment.written] at hnil
  · rintro rfl
    rfl

/-- Whether the field has no slot. -/
def uncovered (segments : List Segment) (field : String × Ty) : Bool :=
  !(segments.map (·.slotName?)).contains (some field.1)

theorem uncovered_iff (hscan : scan r fields marker format = .ok segments) (field : String × Ty) :
    uncovered segments field = false ↔ Named marker format field.1 := by
  rw [uncovered, Bool.not_eq_false', List.contains_iff_mem, mem_slotNames, named_of_scan hscan]

theorem ofText_of_not_product (hproduct : r.fields? product = none) :
    ofText r marker product text =
      .error (.invalidArgument "a product type to parse into" s!"<{r.name product}>") := by
  unfold ofText
  rw [hproduct]

theorem ofText_of_not_scan (hproduct : r.fields? product = some fields)
    (hscan : scan r fields marker text.toList = .error failure) : ofText r marker product text = .error failure := by
  rw [scan] at hscan
  unfold ofText
  simp only [hproduct, hscan]

theorem ofText_empty (hproduct : r.fields? product = some fields) :
    ofText r marker product "" = .error (.invalidArgument "a non-empty format" (Text.quoted "")) := by
  unfold ofText
  rw [hproduct]
  rfl

/-- Where the scan succeeds, a format that is not empty is read unless it leaves a field out. -/
theorem ofText_of_scan (hproduct : r.fields? product = some fields)
    (hscan : scan r fields marker text.toList = .ok segments) (hne : text ≠ "") :
    (fields.find? (uncovered segments) = none → ofText r marker product text = .ok { product, segments }) ∧
      ∀ {field}, fields.find? (uncovered segments) = some field →
        ofText r marker product text = .error (.missingField field.1) := by
  obtain ⟨hwritten, hproper⟩ := scan_written hscan
  rw [scan] at hscan
  cases segments with
  | nil => exact absurd (String.toList_eq_nil_iff.mp hwritten.symm) hne
  | cons segment segments =>
    have huncovered : uncovered (segment :: segments) =
        fun field => decide (some field.1 ∉ (segment :: segments).map (·.slotName?)) := by
      funext field
      simp only [uncovered, List.contains_eq_mem, decide_not]
    rw [huncovered]
    constructor
    · intro hfind
      simp only [ofText, hproduct, hscan, hfind]
    · intro field hfind
      simp only [ofText, hproduct, hscan, hfind]

/-- A format is read where it is scanned, is not empty and names every field. -/
theorem ofText_ok_iff : ofText r marker product text = .ok layout ↔ layout.product = product ∧
    ∃ fields, r.fields? product = some fields ∧ scan r fields marker text.toList = .ok layout.segments ∧
      text ≠ "" ∧ ∀ field ∈ fields, Named marker text.toList field.1 := by
  have hnone {fields : List (String × Ty)} {segments : List Segment}
      (hscan : scan r fields marker text.toList = .ok segments) :
      fields.find? (uncovered segments) = none ↔ ∀ field ∈ fields, Named marker text.toList field.1 := by
    simp only [List.find?_eq_none, Bool.not_eq_true, uncovered_iff hscan]
  constructor
  · intro h
    cases hproduct : r.fields? product with
    | none =>
      rw [ofText_of_not_product hproduct] at h
      contradiction
    | some fields =>
      cases hscan : scan r fields marker text.toList with
      | error failure =>
        rw [ofText_of_not_scan hproduct hscan] at h
        contradiction
      | ok segments =>
        by_cases hempty : text = ""
        · rw [hempty, ofText_empty hproduct] at h
          contradiction
        · obtain ⟨hread, hmissing⟩ := ofText_of_scan hproduct hscan hempty
          cases hfind : fields.find? (uncovered segments) with
          | none =>
            rw [hread hfind] at h
            cases h
            exact ⟨rfl, fields, rfl, hscan, hempty, (hnone hscan).mp hfind⟩
          | some field =>
            rw [hmissing hfind] at h
            contradiction
  · rintro ⟨rfl, fields, hproduct, hscan, hempty, hnames⟩
    exact (ofText_of_scan hproduct hscan hempty).1 ((hnone hscan).mpr hnames)

/-- A format is refused with what is wrong first. -/
theorem ofText_error_iff : ofText r marker product text = .error failure ↔ Flawed r marker product text failure := by
  constructor
  · intro h
    cases hproduct : r.fields? product with
    | none =>
      rw [ofText_of_not_product hproduct] at h
      cases h
      exact .notProduct hproduct
    | some fields =>
      cases hscan : scan r fields marker text.toList with
      | error wrong =>
        rw [ofText_of_not_scan hproduct hscan] at h
        cases h
        exact .misread hproduct (scan_error_iff.mp hscan)
      | ok segments =>
        by_cases hempty : text = ""
        · subst hempty
          rw [ofText_empty hproduct] at h
          cases h
          exact .empty hproduct rfl
        · obtain ⟨hread, hmissing⟩ := ofText_of_scan hproduct hscan hempty
          cases hfind : fields.find? (uncovered segments) with
          | none =>
            rw [hread hfind] at h
            contradiction
          | some field =>
            rw [hmissing hfind] at h
            cases h
            obtain ⟨hfirst, before, after, rfl, hearlier⟩ := List.find?_eq_some_iff_append.mp hfind
            obtain ⟨heven, hnames⟩ := scan_ok_iff.mp ⟨segments, hscan⟩
            refine .missing hproduct hempty heven hnames ?_ ?_
            · intro other hother
              exact (uncovered_iff hscan other).mp (by simpa using hearlier other hother)
            · rw [← uncovered_iff hscan field, hfirst]
              nofun
  · rintro (hproduct | ⟨hproduct, hmisread⟩ | ⟨hproduct, rfl⟩ | ⟨hproduct, hne, heven, hnames, hearlier, hfirst⟩)
    · exact ofText_of_not_product hproduct
    · exact ofText_of_not_scan hproduct (scan_error_iff.mpr hmisread)
    · exact ofText_empty hproduct
    · obtain ⟨segments, hscan⟩ := scan_ok_iff.mpr ⟨heven, hnames⟩
      refine (ofText_of_scan hproduct hscan hne).2 (List.find?_eq_some_iff_append.mpr ⟨?_, _, _, rfl, ?_⟩)
      · rw [← uncovered_iff hscan, Bool.not_eq_false] at hfirst
        exact hfirst
      · intro other hother
        simpa using (uncovered_iff hscan other).mpr (hearlier other hother)

/-- Reading a format and writing a layout in normal form are inverse to each other. -/
theorem ofText_iff_normal : ofText r marker product text = .ok layout ↔ layout.product = product ∧
    ∃ fields, r.fields? product = some fields ∧ Normal r fields marker layout.segments ∧
      written marker layout.segments = text.toList := by
  rw [ofText_ok_iff]
  refine and_congr_right fun _ => exists_congr fun fields => and_congr_right fun _ => ?_
  constructor
  · rintro ⟨hscan, hne, hnames⟩
    obtain ⟨hwritten, hproper⟩ := scan_written hscan
    refine ⟨{ hproper with nonempty := ?_, covers := ?_ }, hwritten⟩
    · rw [Ne, ← written_eq_nil hproper, hwritten]
      simpa using hne
    · exact fun field hfield => (named_of_scan hscan field.1).mp (hnames field hfield)
  · rintro ⟨hnormal, hwritten⟩
    have hscan : scan r fields marker text.toList = .ok layout.segments := by
      rw [← hwritten]
      simpa [literal] using scan_of_proper hnormal.toProper (List.not_mem_nil : marker ∉ []) (by simp)
    refine ⟨hscan, ?_, fun field hfield => (named_of_scan hscan field.1).mpr (hnormal.covers field hfield)⟩
    have hne := hnormal.nonempty
    rw [Ne, ← written_eq_nil hnormal.toProper, hwritten] at hne
    simpa using hne

end Text
end Layout

namespace Session

/-- What formats for a type come to. -/
structure FormatLaws (s : Session) (product : Ty) : Prop where
  /-- The formats there are layouts of. -/
  accepted {text : String} : (∃ layout, s.layout product text = .ok layout) ↔
    ∃ fields, s.registry.fields? product = some fields ∧ text ≠ "" ∧ Even (text.toList.count s.marker) ∧
      (∀ name, Layout.Named s.marker text.toList name → ∃ ty, Layout.Textual s.registry fields name ty) ∧
      ∀ field ∈ fields, Layout.Named s.marker text.toList field.1
  /-- A layout is in normal form and is written as its format, and a normal form is what its writing is read as. -/
  read {text : String} {layout : Layout} : s.layout product text = .ok layout ↔ layout.product = product ∧
    ∃ fields, s.registry.fields? product = some fields ∧
      Layout.Normal s.registry fields s.marker layout.segments ∧
      Layout.written s.marker layout.segments = text.toList
  /-- No two formats have the same layout. -/
  apart {text other : String} {layout layout' : Layout} : s.layout product text = .ok layout →
    s.layout product other = .ok layout' → (layout.segments = layout'.segments ↔ text = other)
  /-- Any other format is refused with what is wrong first. -/
  refused {text : String} {failure : Failure} :
    s.layout product text = .error failure ↔ Layout.Flawed s.registry s.marker product text failure

theorem formatLaws (s : Session) (product : Ty) : s.FormatLaws product where
  accepted {text} := by
    constructor
    · rintro ⟨layout, h⟩
      obtain ⟨-, fields, hproduct, hscan, hne, hnames⟩ := Layout.ofText_ok_iff.mp h
      obtain ⟨heven, htextual⟩ := Layout.scan_ok_iff.mp ⟨_, hscan⟩
      exact ⟨fields, hproduct, hne, heven, fun name hname => htextual hname, hnames⟩
    · rintro ⟨fields, hproduct, hne, heven, htextual, hnames⟩
      obtain ⟨segments, hscan⟩ := Layout.scan_ok_iff.mpr ⟨heven, fun {name} hname => htextual name hname⟩
      exact ⟨⟨product, segments⟩, Layout.ofText_ok_iff.mpr ⟨rfl, fields, hproduct, hscan, hne, hnames⟩⟩
  read := Layout.ofText_iff_normal
  apart {text other layout layout'} h h' := by
    obtain ⟨hproduct, -, -, -, hwritten⟩ := Layout.ofText_iff_normal.mp h
    obtain ⟨hproduct', -, -, -, hwritten'⟩ := Layout.ofText_iff_normal.mp h'
    constructor
    · intro hsegments
      rw [hsegments, hwritten'] at hwritten
      exact String.toList_inj.mp hwritten.symm
    · rintro rfl
      rw [h] at h'
      cases h'
      rfl
  refused := Layout.ofText_error_iff

end Session
end TypeAlgebra
