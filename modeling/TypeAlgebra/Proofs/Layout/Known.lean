import TypeAlgebra.Layout
import TypeAlgebra.Proofs.Registry.Growth
import TypeAlgebra.Proofs.Sorted
import TypeAlgebra.Session

/-! What a layout that was read for a product has: segments that are not empty, and for each field of the
product a slot of the field's type. It keeps this while the registry grows. -/
namespace TypeAlgebra.Layout

/-- The layout was read in the registry, or in one that has grown to it since. -/
def Known (r : Registry) (layout : Layout) : Prop :=
  ∃ (r₀ : Registry) (marker : Char) (product : Ty) (text : String),
    r₀.Reachable ∧ r₀.Leads r ∧ ofText r₀ marker product text = .ok layout

/-- The layout is one of a product with these fields. -/
structure Fits (r : Registry) (fields : List (String × Ty)) (layout : Layout) : Prop where
  declared : r.fields? layout.product = some fields
  distinct : (fields.map (·.1)).Nodup
  typed : ∀ {name ty}, .slot name ty ∈ layout.segments → fields.lookup name = some ty
  covered : ∀ {name}, name ∈ fields.map (·.1) → ∃ ty, .slot name ty ∈ layout.segments
  solid : .literal [] ∉ layout.segments
  nonempty : layout.segments ≠ []

theorem pieces_ne_nil (marker : Char) (format : List Char) : pieces marker format ≠ [] := by
  unfold pieces
  split
  · simp
  · split
    · simp
    · split <;> simp

theorem pieces_of_not_mem {marker : Char} {text : List Char} (h : marker ∉ text) : pieces marker text = [text] := by
  induction text with
  | nil => rfl
  | cons c text ih =>
    simp only [List.mem_cons, not_or] at h
    rw [pieces, if_neg (Ne.symm h.1), ih h.2]

/-- The first marker ends the first piece. -/
theorem pieces_append {marker : Char} {text rest : List Char} (h : marker ∉ text) :
    pieces marker (text ++ marker :: rest) = text :: pieces marker rest := by
  induction text with
  | nil => simp [pieces]
  | cons c text ih =>
    simp only [List.mem_cons, not_or] at h
    rw [List.cons_append, pieces, if_neg (Ne.symm h.1), ih h.2]

theorem solid_literal (text : List Char) : .literal [] ∉ literal text := by
  unfold literal
  split
  · simp
  · rename_i htext
    simpa using htext

theorem slot_not_mem_literal (text : List Char) (name : String) (ty : Ty) :
    .slot name ty ∉ literal text := by
  unfold literal
  split <;> simp

theorem slot_eq_ok {r : Registry} {fields : List (String × Ty)} {name : String} {segment : Segment}
    (h : slot r fields name = .ok segment) :
    ∃ ty, segment = .slot name ty ∧ fields.lookup name = some ty := by
  unfold slot at h
  cases hl : fields.lookup name with
  | none => simp only [hl] at h; contradiction
  | some ty =>
    simp only [hl] at h
    split at h
    · cases h; exact ⟨ty, rfl, rfl⟩
    · contradiction

theorem mem_slotNames {segments : List Segment} {name : String} :
    some name ∈ segments.map (·.slotName?) ↔ ∃ ty, .slot name ty ∈ segments := by
  constructor
  · intro h
    obtain ⟨segment, hmem, hname⟩ := List.mem_map.mp h
    cases segment with
    | literal text => contradiction
    | slot other ty =>
      cases hname
      exact ⟨ty, hmem⟩
  · rintro ⟨ty, hmem⟩
    exact List.mem_map_of_mem hmem

theorem eq_ok_of_map {α β : Type} {result : Except Failure α} {f : α → β} {b : β} (h : result.map f = .ok b) :
    ∃ a, result = .ok a ∧ f a = b := by
  cases result with
  | error failure => contradiction
  | ok a => exact ⟨a, rfl, Except.ok.inj h⟩

/-- The segments of a layout are literals that are not empty, and slots of declared fields. -/
theorem ofPieces_segments {r : Registry} {fields : List (String × Ty)} {pieces : List (List Char)}
    {segments : List Segment} (h : ofPieces r fields pieces = .ok segments) :
    .literal [] ∉ segments ∧ ∀ name ty, .slot name ty ∈ segments → fields.lookup name = some ty := by
  fun_induction ofPieces r fields pieces generalizing segments with
  | case1 => cases h; simp
  | case2 text =>
    cases h
    exact ⟨solid_literal text, fun name ty hmem => absurd hmem (slot_not_mem_literal text name ty)⟩
  | case3 => contradiction
  | case4 => contradiction
  | case5 text name rest hrest segment hslot ih =>
    obtain ⟨ty, rfl, hty⟩ := slot_eq_ok hslot
    obtain ⟨others, hothers, rfl⟩ := eq_ok_of_map h
    obtain ⟨hsolid, htyped⟩ := ih hothers
    constructor
    · simp [solid_literal, hsolid]
    · intro other ty' hmem
      simp only [List.mem_append, List.mem_cons, slot_not_mem_literal, false_or] at hmem
      rcases hmem with heq | hmem
      · cases heq; exact hty
      · exact htyped other ty' hmem

theorem fits_of_ofText {r : Registry} (hr : r.Reachable) {marker : Char} {product : Ty} {text : String}
    {layout : Layout} (h : ofText r marker product text = .ok layout) :
    ∃ fields, layout.Fits r fields := by
  unfold ofText at h
  split at h
  · contradiction
  rename_i fields hfields
  split at h
  · contradiction
  · contradiction
  rename_i segments hne hpieces
  split at h
  · contradiction
  rename_i hcovered
  cases h
  obtain ⟨hsolid, htyped⟩ := ofPieces_segments hpieces
  refine ⟨fields, hfields, hr.distinct hfields, fun h => htyped _ _ h, ?_, hsolid, ?_⟩
  · intro name hname
    obtain ⟨field, hfield, rfl⟩ := List.mem_map.mp hname
    have hslot := List.find?_eq_none.mp hcovered field hfield
    rwa [decide_eq_true_eq, Decidable.not_not, mem_slotNames] at hslot
  · rintro rfl
    exact hne rfl

theorem Fits.extends {r r' : Registry} {fields : List (String × Ty)} {layout : Layout}
    (h : layout.Fits r fields) (hr : r.Extends r') : layout.Fits r' fields :=
  { h with declared := hr.fields? h.declared }

/-- A layout that was read once fits its product from then on. -/
theorem Known.fits {r : Registry} {layout : Layout} (h : layout.Known r) :
    ∃ fields, layout.Fits r fields := by
  obtain ⟨r₀, marker, product, text, hreachable, hleads, htext⟩ := h
  obtain ⟨fields, hfits⟩ := fits_of_ofText hreachable htext
  exact ⟨fields, hfits.extends hleads.extends⟩

theorem Known.leads {r r' : Registry} {layout : Layout} (h : layout.Known r) (hr : r.Leads r') :
    layout.Known r' := by
  obtain ⟨r₀, marker, product, text, hreachable, hleads, htext⟩ := h
  exact ⟨r₀, marker, product, text, hreachable, hleads.trans hr, htext⟩

/-- The slot of a field has the field's type. -/
theorem Fits.slot {r : Registry} {fields : List (String × Ty)} {layout : Layout} (h : layout.Fits r fields)
    {name : String} {ty : Ty} (hfield : (name, ty) ∈ fields) : .slot name ty ∈ layout.segments := by
  obtain ⟨ty', hslot⟩ := h.covered (List.mem_map_of_mem hfield)
  have hty := (h.typed hslot).symm.trans (Sorted.lookup_of_mem h.distinct hfield)
  cases hty
  exact hslot

/-! An entry is a number, a text up to a semicolon, and a code of two characters that is a number. -/

def entryFields : List (String × Ty) := [("n", .int), ("text", ⟨3⟩), ("code", ⟨4⟩)]

def entryText : Registry := (Registry.initial.intern (.primitive .str [.endsOn ';'])).2

def entryCode : Registry := (entryText.intern (.primitive .int [.sizeEq 2])).2

def entryRegistry : Registry :=
  { (entryCode.intern (.product "entry" entryFields)).2 with
    names := Registry.initial.names ++ [("entry", ⟨5⟩)] }

def entrySession (policy : Policy) : Session :=
  { registry := entryRegistry, policy, marker := '$', lambdas := 0 }

def entryLayout : Layout :=
  ⟨⟨5⟩, [.slot "n" .int, .literal [','], .slot "text" ⟨3⟩, .literal [';'], .slot "code" ⟨4⟩]⟩

theorem reachable_entryRegistry : entryRegistry.Reachable := by
  have htext : Registry.initial.refine .str { endsOn := some ';' } = .ok (⟨3⟩, entryText) := rfl
  have hcode : entryText.refine .int { sizeEq := some 2 } = .ok (⟨4⟩, entryCode) := rfl
  have hentry : entryCode.namedProduct "entry" entryFields = .ok (⟨5⟩, entryRegistry) := rfl
  have hleads : Registry.initial.Leads entryText := .single (.refine (by decide) htext)
  exact (hleads.tail (.refine (by decide) hcode)).tail (.namedProduct (by decide) hentry)

theorem known_entryLayout : entryLayout.Known entryRegistry :=
  ⟨entryRegistry, '$', ⟨5⟩, "$n$,$text$;$code$", reachable_entryRegistry, .refl, rfl⟩

end TypeAlgebra.Layout
