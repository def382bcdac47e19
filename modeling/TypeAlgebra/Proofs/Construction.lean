import Mathlib.Tactic.Common
import TypeAlgebra.Construction
import TypeAlgebra.Proofs.Sorted
import TypeAlgebra.Proofs.Registry.Growth

/-! What is made of a text is of the type asked for, and a record is made whenever each of its fields is given
a value of the field's own type. -/
namespace TypeAlgebra
namespace Registry

/-- What a text is as a value of a type without alternatives: itself, or the number that it writes. -/
inductive Denotes (r : Registry) (text : String) (leaf : Ty) : Value → Prop
  | str {constraints : List Constraint} (form : r.get leaf = .primitive .str constraints) :
    Denotes r text leaf (.str leaf text)
  | int {constraints : List Constraint} {n : Int} (form : r.get leaf = .primitive .int constraints)
    (number : Integer.ofText? text = some n) : Denotes r text leaf (.int leaf n)

variable (r : Registry)

@[simp] theorem ty_variants (ty : Ty) : (r.variants ty).ty = ty := by
  unfold variants
  cases r.get ty <;> rfl

theorem denotes_of_readLeaf? {r : Registry} {ty : Ty} {text : String} {value : Value}
    (h : r.readLeaf? ty text = some value) : r.Denotes text ty value := by
  unfold readLeaf? at h
  split at h
  · rename_i constraints hget
    split at h
    · obtain ⟨n, hn, rfl⟩ := Option.map_eq_some_iff.mp h
      exact .int hget hn
    · contradiction
  · rename_i constraints hget
    split at h
    · cases h
      exact .str hget
    · contradiction
  · contradiction

theorem ty_readLeaf? {ty : Ty} {text : String} {value : Value} (h : r.readLeaf? ty text = some value) :
    value.ty = ty := by
  cases denotes_of_readLeaf? h <;> rfl

theorem ty_readAny? {v : Variants} {text : String} {value : Value} (h : r.readAny? text v = some value) :
    value.ty = v.ty := by
  cases v with
  | leaf ty => exact r.ty_readLeaf? h
  | node ty left right =>
    rcases Option.or_eq_some_iff.mp h with h | ⟨-, h⟩ <;>
      obtain ⟨inner, -, rfl⟩ := Option.map_eq_some_iff.mp h <;> rfl

theorem ty_read? {ty : Ty} {text : String} {value : Value} (h : r.read? ty text = some value) :
    value.ty = ty :=
  (r.ty_readAny? h).trans (r.ty_variants ty)

/-- A value is one of its own type as it is. -/
@[simp] theorem view_ty (value : Value) : r.view value.ty value = some value := by
  cases value <;> simp [view, Value.ty]

/-- A text that a type accepts makes a value of it. -/
theorem make_text {ty : Ty} {text : String} {value : Value} (h : r.read? ty text = some value) :
    r.make ty (.text text) = .ok value := by
  have hread := h
  unfold read? variants at h
  unfold make
  cases hget : r.get ty with
  | primitive base constraints => simp only [hread]
  | sum name left right => simp only [hread]
  | product name fields => simp [hget, readAny?, readLeaf?] at h
  | function name signature => simp [hget, readAny?, readLeaf?] at h
  | failure => simp [hget, readAny?, readLeaf?] at h

/-- A primitive type accepts what its base accepts and its constraints hold of. -/
theorem accepts_primitive {r : Registry} {ty : Ty} {base : Primitive} {constraints : List Constraint}
    (h : r.get ty = .primitive base constraints) (text : String) :
    r.accepts ty text = (base.accepts text && constraints.all (·.holds text)) := by
  have hleaf : r.variants ty = .leaf ty := by unfold variants; rw [h]
  unfold accepts acceptsAny acceptsLeaf
  rw [hleaf]
  simp only [h]

theorem read?_of_accepts {ty : Ty} {text : String} (h : r.accepts ty text) :
    ∃ value, r.read? ty text = some value :=
  Option.isSome_iff_exists.mp (by rw [isSome_read?, h])

/-- Fields that were each given a value of their own type get just these values. -/
theorem recordFields_eq {given : List (String × Source)} {declared : List (String × Ty)}
    {pick : String → Value}
    (h : ∀ field ∈ declared, given.lookup field.1 = some (.value (pick field.1)) ∧
      (pick field.1).ty = field.2) :
    r.recordFields given declared = .ok (declared.map fun field => (field.1, pick field.1)) := by
  induction declared with
  | nil => rfl
  | cons field rest ih =>
    obtain ⟨name, ty⟩ := field
    obtain ⟨hgiven, hty⟩ := h (name, ty) List.mem_cons_self
    have hview : r.view ty (pick name) = some (pick name) := by
      have hown := r.view_ty (pick name)
      rwa [hty] at hown
    have hrest := ih fun field hfield => h field (List.mem_cons_of_mem _ hfield)
    simp [recordFields, hgiven, fieldValue, hview, hrest, Except.map]

theorem lookup_map_value (fields : List (String × Value)) (name : String) :
    (fields.map fun (name, value) => (name, Source.value value)).lookup name =
      (fields.lookup name).map .value := by
  induction fields with
  | nil => rfl
  | cons field rest ih =>
    obtain ⟨key, value⟩ := field
    simp only [List.map_cons, List.lookup_cons, ih]
    cases name == key <;> rfl

/-- A record is made of values that are each of the type declared for the name. -/
theorem record_eq {ty : Ty} {fields : List (String × Value)} {declared : List (String × Ty)}
    {pick : String → Value} (hdeclared : r.fields? ty = some declared)
    (hnodup : (fields.map (·.1)).Nodup)
    (h : ∀ field ∈ declared, fields.lookup field.1 = some (pick field.1) ∧
      (pick field.1).ty = field.2) :
    r.record ty fields = .ok (.record ty (declared.map fun field => (field.1, pick field.1))) := by
  have hget := get_of_fields? hdeclared
  have hfields : r.recordFields (fields.reverse.map fun (name, value) => (name, .value value)) declared =
      .ok (declared.map fun field => (field.1, pick field.1)) := by
    apply recordFields_eq
    intro field hfield
    obtain ⟨hlookup, hty⟩ := h field hfield
    refine ⟨?_, hty⟩
    rw [lookup_map_value, Sorted.lookup_reverse hnodup, hlookup]
    rfl
  simp only [record, make, hget, hfields, Except.map]

/-- What is made of fields is a record, and no failure. -/
theorem failure?_of_make {r : Registry} {ty : Ty} {given : List (String × Source)} {value : Value}
    (h : r.make ty (.fields given) = .ok value) : value.failure? = none := by
  unfold make at h
  dsimp only at h
  split at h
  · rename_i declared _
    cases hfields : r.recordFields given declared with
    | error failure => rw [hfields] at h; contradiction
    | ok found => rw [hfields] at h; cases h; rfl
  · contradiction

theorem failure?_of_record {r : Registry} {ty : Ty} {fields : List (String × Value)} {value : Value}
    (h : r.record ty fields = .ok value) : value.failure? = none := failure?_of_make h

end Registry
end TypeAlgebra
