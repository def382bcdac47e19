import TypeAlgebra.Proofs.Construction.Sound

/-! A record is made of all its fields or not at all. Each declared field has to be given a value that belongs to its
type, and the record has it as one of that type. The first field in declared order of which this is not so is the one
that the failure is about. What is read back from a record makes the record again. -/
namespace TypeAlgebra
namespace Registry

/-- The field is given a value that belongs to its type. -/
def Filled (r : Registry) (given : List (String × Source)) (field : String × Ty) : Prop :=
  ∃ value, given.lookup field.1 = some (.value value) ∧ r.belongs value field.2

/-- Why what is given for a field, if anything is, makes no value of it. -/
inductive Offends (r : Registry) (name : String) (ty : Ty) : Option Source → Failure → Prop
  | missing : Offends r name ty none (.typeMismatch s!"{r.name ty} for field '{name}'" "nothing")
  | text {text : String} : Offends r name ty (some (.text text)) (.expectedValue s!"text {Text.quoted text}")
  | fields {given : List (String × Source)} :
      Offends r name ty (some (.fields given)) (.expectedValue "a field map")
  | mistyped {value : Value} (h : r.belongs value ty = false) :
      Offends r name ty (some (.value value))
        (.typeMismatch s!"{r.name ty} for field '{name}'" (r.name value.ty))

variable {r : Registry} {ty : Ty} {name : String} {given other : List (String × Source)} {failure : Failure}
  {declared : List (String × Ty)} {fields : List (String × Value)}

theorem offends_of_fieldValue {source : Option Source} (h : r.fieldValue name ty source = .error failure) :
    r.Offends name ty source failure := by
  unfold fieldValue at h
  split at h
  · rename_i value
    cases hview : r.view ty value with
    | some viewed => rw [hview] at h; contradiction
    | none =>
      rw [hview] at h
      cases h
      exact .mistyped (by rw [belongs, hview, Option.isSome_none])
  · cases h; exact .text
  · cases h; exact .fields
  · cases h; exact .missing

theorem filled_iff {field : String × Ty} :
    r.Filled given field ↔ ∃ value, r.fieldValue field.1 field.2 (given.lookup field.1) = .ok value := by
  constructor
  · rintro ⟨value, hgiven, hbelongs⟩
    obtain ⟨viewed, hview⟩ := belongs_iff_exists.mp hbelongs
    exact ⟨viewed, by simp only [hgiven, fieldValue, hview]⟩
  · rintro ⟨viewed, hvalue⟩
    obtain ⟨value, hgiven, hview⟩ := fieldValue_eq_ok hvalue
    exact ⟨value, hgiven, belongs_iff_exists.mpr ⟨viewed, hview⟩⟩

/-- Fields are had one after the other. -/
theorem recordFields_cons_eq_ok (h : r.recordFields given ((name, ty) :: declared) = .ok fields) :
    ∃ value others, fields = (name, value) :: others ∧ r.fieldValue name ty (given.lookup name) = .ok value ∧
      r.recordFields given declared = .ok others := by
  rw [recordFields] at h
  cases hvalue : r.fieldValue name ty (given.lookup name) with
  | error failure => rw [hvalue] at h; contradiction
  | ok value =>
    rw [hvalue] at h
    cases hothers : r.recordFields given declared with
    | error failure => rw [hothers] at h; contradiction
    | ok others => rw [hothers] at h; cases h; exact ⟨value, others, rfl, rfl, rfl⟩

/-- Where all fields are filled they are all had. -/
theorem exists_recordFields (h : ∀ field ∈ declared, r.Filled given field) :
    ∃ fields, r.recordFields given declared = .ok fields := by
  induction declared with
  | nil => exact ⟨[], rfl⟩
  | cons field rest ih =>
    obtain ⟨name, ty⟩ := field
    rw [List.forall_mem_cons] at h
    obtain ⟨value, hvalue⟩ := filled_iff.mp h.1
    obtain ⟨others, hothers⟩ := ih h.2
    exact ⟨(name, value) :: others, by rw [recordFields, hvalue, hothers]; rfl⟩

/-- Each declared field is had as the value given for it, viewed as one of its type. -/
theorem mem_recordFields (h : r.recordFields given declared = .ok fields) (hmem : (name, ty) ∈ declared) :
    ∃ value viewed, given.lookup name = some (.value value) ∧ r.view ty value = some viewed ∧
      (name, viewed) ∈ fields := by
  induction declared generalizing fields with
  | nil => contradiction
  | cons field rest ih =>
    obtain ⟨first, firstTy⟩ := field
    obtain ⟨viewed, others, rfl, hvalue, hothers⟩ := recordFields_cons_eq_ok h
    rcases List.mem_cons.mp hmem with heq | hmem
    · cases heq
      obtain ⟨value, hgiven, hview⟩ := fieldValue_eq_ok hvalue
      exact ⟨value, viewed, hgiven, hview, List.mem_cons_self⟩
    · obtain ⟨value, inner, hgiven, hview, hinner⟩ := ih hothers hmem
      exact ⟨value, inner, hgiven, hview, List.mem_cons_of_mem _ hinner⟩

theorem filled_of_recordFields (h : r.recordFields given declared = .ok fields) :
    ∀ field ∈ declared, r.Filled given field := by
  rintro ⟨name, ty⟩ hfield
  obtain ⟨value, viewed, hgiven, hview, -⟩ := mem_recordFields h hfield
  exact ⟨value, hgiven, belongs_iff_exists.mpr ⟨viewed, hview⟩⟩

theorem typed_recordFields (h : r.recordFields given declared = .ok fields) :
    fields.map (fun field => (field.1, field.2.ty)) = declared := by
  induction declared generalizing fields with
  | nil => cases h; rfl
  | cons field rest ih =>
    obtain ⟨name, ty⟩ := field
    obtain ⟨viewed, others, rfl, hvalue, hothers⟩ := recordFields_cons_eq_ok h
    obtain ⟨value, -, hview⟩ := fieldValue_eq_ok hvalue
    rw [List.map_cons, ih hothers, (view_eq_some hview).1]

/-- The fields that were had are had again of themselves. -/
theorem recordFields_again (h : r.recordFields given declared = .ok fields)
    (hother : ∀ field ∈ fields, other.lookup field.1 = some (.value field.2)) :
    r.recordFields other declared = .ok fields := by
  induction declared generalizing fields with
  | nil => exact h
  | cons field rest ih =>
    obtain ⟨name, ty⟩ := field
    obtain ⟨viewed, others, rfl, hvalue, hothers⟩ := recordFields_cons_eq_ok h
    obtain ⟨value, -, hview⟩ := fieldValue_eq_ok hvalue
    rw [List.forall_mem_cons] at hother
    -- as a value of its own type, it is what it is
    have hown : r.view ty viewed = some viewed := by
      rw [← (view_eq_some hview).1]
      exact r.view_ty viewed
    rw [recordFields, hother.1, ih hothers hother.2]
    simp only [fieldValue, hown]
    rfl

/-- Where not all fields are had, there is a first that offends. -/
theorem offends_of_recordFields (h : r.recordFields given declared = .error failure) :
    ∃ front name ty back, declared = front ++ (name, ty) :: back ∧ (∀ field ∈ front, r.Filled given field) ∧
      r.Offends name ty (given.lookup name) failure := by
  induction declared with
  | nil => contradiction
  | cons field rest ih =>
    obtain ⟨name, ty⟩ := field
    rw [recordFields] at h
    cases hvalue : r.fieldValue name ty (given.lookup name) with
    | error refused =>
      rw [hvalue] at h
      cases h
      exact ⟨[], name, ty, rest, rfl, List.forall_mem_nil _, offends_of_fieldValue hvalue⟩
    | ok value =>
      rw [hvalue] at h
      cases hothers : r.recordFields given rest with
      | ok others => rw [hothers] at h; contradiction
      | error refused =>
        rw [hothers] at h
        cases h
        obtain ⟨front, later, laterTy, back, rfl, hfront, hoffends⟩ := ih hothers
        refine ⟨(name, ty) :: front, later, laterTy, back, rfl, ?_, hoffends⟩
        exact List.forall_mem_cons.mpr ⟨filled_iff.mpr ⟨value, hvalue⟩, hfront⟩

theorem recordFields_congr (h : ∀ field ∈ declared, other.lookup field.1 = given.lookup field.1) :
    r.recordFields other declared = r.recordFields given declared := by
  induction declared with
  | nil => rfl
  | cons field rest ih =>
    obtain ⟨name, ty⟩ := field
    rw [List.forall_mem_cons] at h
    rw [recordFields, recordFields, h.1, ih h.2]

theorem make_fields (hfields : r.fields? ty = some declared) (given : List (String × Source)) :
    r.make ty (.fields given) = (r.recordFields given declared).map (.record ty) := by
  unfold make
  rw [get_of_fields? hfields]

end Registry

/-- How a session makes records of a product out of what is given by name. -/
structure MakesRecords (s : Session) (ty : Ty) (declared : List (String × Ty)) (given : List (String × Source)) :
    Prop where
  /-- A record is made where every declared field is filled, and nowhere else. -/
  iff : (∃ record, s.make ty (.fields given) = .ok record ∧ record.isFailure = false) ↔
    ∀ field ∈ declared, s.registry.Filled given field
  made : ∀ {record}, s.make ty (.fields given) = .ok record → record.isFailure = false →
    ∃ fields, record = .record ty fields ∧ fields.map (fun field => (field.1, field.2.ty)) = declared
  /-- What is given beside the declared fields is ignored. -/
  ignored : ∀ {other}, (∀ field ∈ declared, other.lookup field.1 = given.lookup field.1) →
    s.make ty (.fields other) = s.make ty (.fields given)
  /-- A field is read back as the value given for it, viewed as one of the field's type. -/
  read : ∀ {record name fieldTy}, s.make ty (.fields given) = .ok record → record.isFailure = false →
    (name, fieldTy) ∈ declared → ∃ value viewed, given.lookup name = some (.value value) ∧
      s.registry.view fieldTy value = some viewed ∧ s.field record name = .ok viewed ∧
      viewed.leaf = value.leaf ∧ s.registry.belongs viewed fieldTy
  /-- The fields read back, in whatever order and however often, make the same record. -/
  again : ∀ {record fields}, s.make ty (.fields given) = .ok record → record.isFailure = false →
    (∀ field ∈ declared, field.1 ∈ fields.map (·.1)) → (∀ field ∈ fields, s.field record field.1 = .ok field.2) →
      s.record ty fields = .ok record
  /-- Otherwise the first field that offends is the failure. -/
  refused : (¬ ∀ field ∈ declared, s.registry.Filled given field) → ∃ front name fieldTy back failure,
    declared = front ++ (name, fieldTy) :: back ∧ (∀ field ∈ front, s.registry.Filled given field) ∧
      s.registry.Offends name fieldTy (given.lookup name) failure ∧
      s.make ty (.fields given) = s.report failure

namespace Session

variable {s : Session} {ty : Ty} {declared : List (String × Ty)} {given : List (String × Source)} {record : Value}
  (hfields : s.registry.fields? ty = some declared)
include hfields

/-- A record that is no failure is one of all declared fields. -/
theorem make_fields_iff : s.make ty (.fields given) = .ok record ∧ record.isFailure = false ↔
    ∃ fields, record = .record ty fields ∧ s.registry.recordFields given declared = .ok fields := by
  rw [make, Registry.make_fields hfields]
  constructor
  · rintro ⟨hmake, hrecord⟩
    cases hall : s.registry.recordFields given declared with
    | ok fields =>
      rw [hall] at hmake
      cases hpolicy : s.policy <;> rw [hpolicy] at hmake <;> cases hmake <;> exact ⟨fields, rfl, rfl⟩
    | error failure =>
      rw [hall] at hmake
      rw [isFailure_of_report hmake] at hrecord
      contradiction
  · rintro ⟨fields, rfl, hall⟩
    rw [hall]
    exact ⟨by cases s.policy <;> rfl, rfl⟩

theorem make_fields_error {failure : Failure} (h : s.registry.recordFields given declared = .error failure) :
    s.make ty (.fields given) = s.report failure := by
  rw [make, Registry.make_fields hfields, h]
  rfl

omit hfields

theorem field_of_mem {fields : List (String × Value)} {name : String} {value : Value}
    (hnodup : (fields.map (·.1)).Nodup) (hmem : (name, value) ∈ fields) :
    s.field (.record ty fields) name = .ok value := by
  have hlookup : (Value.record ty fields).field? name = some value := Sorted.lookup_of_mem hnodup hmem
  rw [field, Registry.field, hlookup]
  cases s.policy <;> rfl

/-- The fields that were read back are bound to what they are in the record, also from the other end. -/
theorem lookup_read {fields read : List (String × Value)} {name : String} {value : Value}
    (hnodup : (fields.map (·.1)).Nodup) (hmem : (name, value) ∈ fields) (hname : name ∈ read.map (·.1))
    (hread : ∀ field ∈ read, s.field (.record ty fields) field.1 = .ok field.2) :
    (read.reverse.map fun (name, value) => (name, Source.value value)).lookup name = some (.value value) := by
  have hfound : (read.reverse.lookup name).isSome := by
    rw [List.lookup_isSome_iff]
    obtain ⟨field, hfield, rfl⟩ := List.mem_map.mp hname
    exact ⟨field, List.mem_reverse.mpr hfield, BEq.rfl⟩
  obtain ⟨found, hfound⟩ := Option.isSome_iff_exists.mp hfound
  obtain ⟨before, after, hsplit, -⟩ := List.lookup_eq_some_iff.mp hfound
  have hfield : (name, found) ∈ read := List.mem_reverse.mp (by rw [hsplit]; simp)
  obtain rfl : found = value := Except.ok.inj ((hread _ hfield).symm.trans (field_of_mem hnodup hmem))
  rw [Registry.lookup_map_value, hfound]
  rfl

/-- A record is made of its declared fields where each is given a value of its type, and else the first that offends is
the failure. -/
theorem makesRecords (h : s.registry.Reachable) (hfields : s.registry.fields? ty = some declared)
    (given : List (String × Source)) : MakesRecords s ty declared given := by
  have hmade {record : Value} (hmake : s.make ty (.fields given) = .ok record) (hrecord : record.isFailure = false) :
      ∃ fields, record = .record ty fields ∧ s.registry.recordFields given declared = .ok fields ∧
        fields.map (fun field => (field.1, field.2.ty)) = declared ∧ (fields.map (·.1)).Nodup := by
    obtain ⟨fields, rfl, hall⟩ := (make_fields_iff hfields).mp ⟨hmake, hrecord⟩
    have htyped := Registry.typed_recordFields hall
    have hnames : fields.map (·.1) = declared.map (·.1) := by
      rw [← htyped, List.map_map]
      rfl
    exact ⟨fields, rfl, hall, htyped, by rw [hnames]; exact h.distinct hfields⟩
  constructor
  case iff =>
    constructor
    · rintro ⟨record, hmake, hrecord⟩
      obtain ⟨fields, rfl, hall, -⟩ := hmade hmake hrecord
      exact Registry.filled_of_recordFields hall
    · intro hfilled
      obtain ⟨fields, hall⟩ := Registry.exists_recordFields hfilled
      exact ⟨_, (make_fields_iff hfields).mpr ⟨fields, rfl, hall⟩⟩
  case made =>
    intro record hmake hrecord
    obtain ⟨fields, rfl, -, htyped, -⟩ := hmade hmake hrecord
    exact ⟨fields, rfl, htyped⟩
  case ignored =>
    intro other hsame
    rw [make, make, Registry.make_fields hfields, Registry.make_fields hfields, Registry.recordFields_congr hsame]
  case read =>
    intro record name fieldTy hmake hrecord hfield
    obtain ⟨fields, rfl, hall, -, hnodup⟩ := hmade hmake hrecord
    obtain ⟨value, viewed, hgiven, hview, hmem⟩ := Registry.mem_recordFields hall hfield
    obtain ⟨hty, hleaf⟩ := Registry.view_eq_some hview
    refine ⟨value, viewed, hgiven, hview, field_of_mem hnodup hmem, hleaf, ?_⟩
    rw [← hty, Registry.belongs, s.registry.view_ty viewed, Option.isSome_some]
  case again =>
    intro record read hmake hrecord hcovers hread
    obtain ⟨fields, rfl, hall, htyped, hnodup⟩ := hmade hmake hrecord
    refine ((make_fields_iff hfields).mpr ⟨fields, rfl, Registry.recordFields_again hall ?_⟩).1
    rintro ⟨name, value⟩ hmem
    have hdeclared : (name, value.ty) ∈ declared := by
      rw [← htyped]
      exact List.mem_map_of_mem hmem
    exact lookup_read hnodup hmem (hcovers _ hdeclared) hread
  case refused =>
    intro hunfilled
    cases hall : s.registry.recordFields given declared with
    | ok fields => exact (hunfilled (Registry.filled_of_recordFields hall)).elim
    | error failure =>
      obtain ⟨front, name, fieldTy, back, hsplit, hfront, hoffends⟩ := Registry.offends_of_recordFields hall
      exact ⟨front, name, fieldTy, back, failure, hsplit, hfront, hoffends, make_fields_error hfields hall⟩

/-! A tagged number has a number and a tag, which is a number or a text. -/

def taggedFields : List (String × Ty) := [("id", .int), ("tag", ⟨3⟩)]

def taggedSession : Session :=
  { Session.start .pass '$' with
    registry := ((Registry.initial.union .int .str).2.intern (.product "int & int | str" taggedFields)).2 }

theorem reachable_taggedSession : taggedSession.registry.Reachable := by
  have hproduct : (Registry.initial.union .int .str).2.product taggedFields = .ok (⟨4⟩, taggedSession.registry) := rfl
  have hunion : Registry.initial.Leads (Registry.initial.union .int .str).2 := .single (.union (by decide) (by decide))
  exact hunion.tail (.product (by decide) hproduct)

/-- A number that is given as one of the sum is a number in the record. Where both fields offend, the failure is about
the one declared first. -/
theorem makesRecords_tagged :
    let tag := Value.injection ⟨3⟩ .inr (.str .str "seven")
    let number := Value.injection ⟨3⟩ .inl (.int .int 7)
    (∃ record, taggedSession.make ⟨4⟩
        (.fields [("more", .text "x"), ("tag", .value tag), ("id", .value number)]) = .ok record ∧
      taggedSession.field record "id" = .ok (.int .int 7)) ∧
    taggedSession.make ⟨4⟩ (.fields [("tag", .text "seven")]) =
      taggedSession.report (.typeMismatch "int for field 'id'" "nothing") := by
  intro tag number
  have hfields : taggedSession.registry.fields? ⟨4⟩ = some taggedFields := rfl
  have hmakes := makesRecords reachable_taggedSession hfields
  constructor
  · have hgiven := hmakes [("more", .text "x"), ("tag", .value tag), ("id", .value number)]
    have hfilled : ∀ field ∈ taggedFields, taggedSession.registry.Filled
        [("more", .text "x"), ("tag", .value tag), ("id", .value number)] field := by
      intro field hfield
      simp only [taggedFields, List.mem_cons, List.not_mem_nil, or_false] at hfield
      rcases hfield with rfl | rfl
      · exact ⟨number, rfl, rfl⟩
      · exact ⟨tag, rfl, rfl⟩
    obtain ⟨record, hmake, hrecord⟩ := hgiven.iff.mpr hfilled
    have hid : ("id", Ty.int) ∈ taggedFields := List.mem_cons_self
    obtain ⟨value, viewed, hvalue, hview, hread, -⟩ := hgiven.read hmake hrecord hid
    cases hvalue
    cases hview
    exact ⟨record, hmake, hread⟩
  · have hgiven := hmakes [("tag", .text "seven")]
    have hmissing : ¬ taggedSession.registry.Filled [("tag", .text "seven")] ("id", .int) := by
      rintro ⟨value, hvalue, -⟩
      cases hvalue
    obtain ⟨front, name, ty, back, failure, hsplit, hfront, hoffends, hmake⟩ :=
      hgiven.refused fun hfilled => hmissing (hfilled _ List.mem_cons_self)
    cases front with
    | nil =>
      cases hsplit
      cases hoffends
      exact hmake
    | cons first front =>
      obtain rfl := (List.cons.inj hsplit).1
      exact (hmissing (hfront _ List.mem_cons_self)).elim

end Session
end TypeAlgebra
