import TypeAlgebra.Proofs.Layout.Format
import TypeAlgebra.Proofs.Registry.Texts

/-! Which types a slot may have. A type has texts as soon as one of its leaves has, but reading a format asks that all
its leaves are primitive. So a sum of numbers and records has texts, and is nevertheless refused in every format. -/
namespace TypeAlgebra
namespace Layout

/-- What a slot is said to need where its type is refused. -/
def textNeeded (name : String) : String := s!"a text type for field '{name}'"

theorem textNeeded_inj {name other : String} (h : textNeeded name = textNeeded other) : name = other := by
  unfold textNeeded at h
  simpa [toString] using h

theorem textNeeded_ne (name : String) : textNeeded name ≠ "a non-empty format" := by
  unfold textNeeded
  rw [Ne, ← String.toList_inj]
  simp [toString]

/-- Reading the format comes to the name: it stands there, and what is named before it are fields with texts. -/
def ComesTo (r : Registry) (fields : List (String × Ty)) (marker : Char) (format : List Char) (name : String) : Prop :=
  ∃ before after, Stands marker format before name.toList after ∧
    ∀ {earlier}, Named marker before earlier → ∃ ty, Textual r fields earlier ty

variable {r : Registry} {fields : List (String × Ty)} {marker : Char} {product ty leaf : Ty} {name format got : String}

/-- A name alone between its markers is come to first. -/
theorem comesTo_alone (hname : marker ∉ name.toList) :
    ComesTo r fields marker (marker :: (name.toList ++ [marker])) name := by
  refine ⟨[], [], ⟨⟨rfl, by simp⟩, hname⟩, ?_⟩
  rintro earlier ⟨before, after, h⟩
  have hnil := h.opens.eq
  simp at hnil

/-- A slot is refused for its type where reading comes to it and a leaf of the type is not primitive. -/
theorem ofText_textNeeded (hproduct : r.fields? product = some fields) (hlookup : fields.lookup name = some ty) :
    ofText r marker product format = .error (.invalidArgument (textNeeded name) got) ↔
      got = s!"<{r.name ty}>" ∧ (∃ leaf ∈ r.leaves ty, (r.get leaf).base? = none) ∧
        ComesTo r fields marker format.toList name := by
  rw [ofText_error_iff]
  constructor
  · generalize hfailure : Failure.invalidArgument (textNeeded name) got = failure
    intro flawed
    cases flawed with
    | notProduct hnone =>
      rw [hproduct] at hnone
      contradiction
    | @misread own _ hsome misread =>
      obtain rfl := Option.some.inj (hproduct.symm.trans hsome)
      cases misread with
      | @name before after other _ stands first wrong =>
        cases wrong with
        | unknown hname => contradiction
        | @noText ty' leaf hname hleaf hnot =>
          obtain ⟨hneeded, rfl⟩ := Failure.invalidArgument.inj hfailure
          obtain rfl := textNeeded_inj hneeded
          obtain rfl := Option.some.inj (hlookup.symm.trans hname)
          exact ⟨rfl, ⟨leaf, hleaf, hnot⟩, before, after, stands, first⟩
      | unterminated => contradiction
    | empty => exact absurd (Failure.invalidArgument.inj hfailure).1 (textNeeded_ne name)
    | missing => contradiction
  · rintro ⟨rfl, ⟨leaf, hleaf, hnot⟩, before, after, stands, first⟩
    exact .misread hproduct (.name stands first (.noText hlookup hleaf hnot))

/-- A product has no layout where a leaf of a field's type is not primitive, as every field needs a slot. -/
theorem ofText_ne_ok (hproduct : r.fields? product = some fields) (hlookup : fields.lookup name = some ty)
    (hleaf : leaf ∈ r.leaves ty) (hnot : (r.get leaf).base? = none) (layout : Layout) :
    ofText r marker product format ≠ .ok layout := by
  intro h
  obtain ⟨-, own, hown, hscan, -, hnames⟩ := ofText_ok_iff.mp h
  obtain rfl := Option.some.inj (hproduct.symm.trans hown)
  obtain ⟨before, after, hfields, -⟩ := List.lookup_eq_some_iff.mp hlookup
  have hnamed := hnames (name, ty) (by simp [hfields])
  obtain ⟨ty', htextual⟩ := (scan_ok_iff.mp ⟨_, hscan⟩).2 hnamed
  obtain rfl := Option.some.inj (hlookup.symm.trans htextual.declared)
  have hprimitive := htextual.primitive leaf hleaf
  rw [hnot] at hprimitive
  contradiction

end Layout

/-- Which slots formats for the product have, by the types of their fields. -/
structure Session.SlotTypes (s : Session) (product : Ty) (fields : List (String × Ty)) : Prop where
  /-- A slot is refused for its type where a leaf of the type is not primitive, if the format is right up to it. -/
  refused : ∀ {name ty format got}, (name, ty) ∈ fields →
    (s.layout product format = .error (.invalidArgument (Layout.textNeeded name) got) ↔
      got = s!"<{s.registry.name ty}>" ∧ (∃ leaf ∈ s.registry.leaves ty, (s.registry.get leaf).base? = none) ∧
        Layout.ComesTo s.registry fields s.marker format.toList name)
  /-- Then the product has no layout at all. -/
  unread : ∀ {name ty}, (name, ty) ∈ fields → (∃ leaf ∈ s.registry.leaves ty, (s.registry.get leaf).base? = none) →
    ∀ format layout, s.layout product format ≠ .ok layout
  /-- Types with texts are among those refused: all that have a leaf with texts and another that is not primitive. -/
  usable : ∀ {name ty}, (name, ty) ∈ fields → s.marker ∉ name.toList →
    ((∃ text, s.registry.accepts ty text) ∧
        (∃ format got, s.layout product format = .error (.invalidArgument (Layout.textNeeded name) got)) ↔
      (∃ leaf ∈ s.registry.leaves ty, ∃ text, s.registry.acceptsLeaf leaf text) ∧
        ∃ leaf ∈ s.registry.leaves ty, (s.registry.get leaf).base? = none)

namespace Session

variable {s : Session} {product : Ty} {fields : List (String × Ty)}

/-- A slot is refused for its type where not all leaves are primitive, though one of them may have texts. -/
theorem slotTypes (h : s.registry.Reachable) (hproduct : s.registry.fields? product = some fields) :
    s.SlotTypes product fields := by
  have hlookup {name : String} {ty : Ty} (hfield : (name, ty) ∈ fields) : fields.lookup name = some ty :=
    Sorted.lookup_of_mem (h.distinct hproduct) hfield
  constructor
  case refused =>
    intro name ty format got hfield
    exact Layout.ofText_textNeeded hproduct (hlookup hfield)
  case unread =>
    rintro name ty hfield ⟨leaf, hleaf, hnot⟩ format layout
    exact Layout.ofText_ne_ok hproduct (hlookup hfield) hleaf hnot layout
  case usable =>
    intro name ty hfield hname
    have htexts : (∃ text, s.registry.accepts ty text) ↔
        ∃ leaf ∈ s.registry.leaves ty, ∃ text, s.registry.acceptsLeaf leaf text := by
      simp only [Registry.accepts_iff_leaf]
      constructor
      · rintro ⟨text, leaf, hleaf, haccepts⟩
        exact ⟨leaf, hleaf, text, haccepts⟩
      · rintro ⟨leaf, hleaf, text, haccepts⟩
        exact ⟨text, leaf, hleaf, haccepts⟩
    rw [htexts]
    refine and_congr_right fun _ => ?_
    constructor
    · rintro ⟨format, got, hrefused⟩
      exact ((Layout.ofText_textNeeded hproduct (hlookup hfield)).mp hrefused).2.1
    · intro hleaf
      -- A format may lack the other fields, as types are looked at before.
      refine ⟨String.ofList (s.marker :: (name.toList ++ [s.marker])), _,
        (Layout.ofText_textNeeded hproduct (hlookup hfield)).mpr ⟨rfl, hleaf, ?_⟩⟩
      rw [String.toList_ofList]
      exact Layout.comesTo_alone hname

/-- A point has a number. -/
def pointSession : Session := ((start .raise '$').namedProduct "point" [("x", .int)]).2

/-- A place is a number or a point, and a move is to a place. -/
def movingSession : Session := ((pointSession.union .int ⟨3⟩).2.namedProduct "move" [("to", ⟨4⟩)]).2

theorem reachable_movingSession : movingSession.registry.Reachable := by
  have hpoint : Registry.initial.namedProduct "point" [("x", .int)] = .ok (⟨3⟩, pointSession.registry) := rfl
  have hmove : (pointSession.registry.union .int ⟨3⟩).2.namedProduct "move" [("to", ⟨4⟩)] =
      .ok (⟨5⟩, movingSession.registry) := rfl
  have point : Registry.initial.Leads pointSession.registry := .single (.namedProduct (by decide) hpoint)
  have place : Registry.initial.Leads _ := point.tail (.union (a := .int) (b := ⟨3⟩) (by decide) (by decide))
  exact place.tail (.namedProduct (by decide) hmove)

/-- A number is a place, but no format for moves has a slot for one, since points have no text. -/
theorem slotTypes_moving : movingSession.registry.accepts ⟨4⟩ "5" ∧
    movingSession.layout ⟨5⟩ "$to$" =
      .error (.invalidArgument (Layout.textNeeded "to") "<int | point>") ∧
    ∀ format layout, movingSession.layout ⟨5⟩ format ≠ .ok layout := by
  have laws : movingSession.SlotTypes ⟨5⟩ [("to", ⟨4⟩)] := slotTypes reachable_movingSession rfl
  have hfield : ("to", ⟨4⟩) ∈ [("to", (⟨4⟩ : Ty))] := List.mem_singleton_self _
  have hpoint : ∃ leaf ∈ movingSession.registry.leaves ⟨4⟩, (movingSession.registry.get leaf).base? = none :=
    ⟨⟨3⟩, by decide, rfl⟩
  have hcomes : Layout.ComesTo movingSession.registry [("to", ⟨4⟩)] '$' ('$' :: ("to".toList ++ ['$'])) "to" :=
    Layout.comesTo_alone (by decide)
  exact ⟨by decide +kernel, (laws.refused hfield).mpr ⟨rfl, hpoint, hcomes⟩, laws.unread hfield hpoint⟩

/-- So it is not true that no slot is refused for a type that has texts. -/
theorem not_usable_unrefused : ¬ ∀ (s : Session) (product ty : Ty) (fields : List (String × Ty))
    (name text format got : String), s.registry.Reachable → s.registry.fields? product = some fields →
      (name, ty) ∈ fields → s.registry.accepts ty text →
        s.layout product format ≠ .error (.invalidArgument s!"a text type for field '{name}'" got) := by
  intro h
  have hrefused : movingSession.layout ⟨5⟩ "$to$" =
      .error (.invalidArgument (Layout.textNeeded "to") "<int | point>") := rfl
  exact h movingSession ⟨5⟩ ⟨4⟩ [("to", ⟨4⟩)] "to" "5" "$to$" _ reachable_movingSession rfl
    (List.mem_singleton_self _) (by decide +kernel) hrefused

end Session
end TypeAlgebra
