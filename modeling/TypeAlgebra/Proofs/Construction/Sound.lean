import TypeAlgebra.Session
import TypeAlgebra.Proofs.Integer
import TypeAlgebra.Proofs.View

/-! Making values makes sound ones: out of texts, out of sound values and fields, and by operators. A text stands
on the right side of a sum only where no leaf of the left one accepts it. -/
namespace TypeAlgebra

/-- The value is somewhere in the source. -/
inductive Source.Holds (value : Value) : Source → Prop
  | value : Holds value (.value value)
  | field {name : String} {source : Source} {fields : List (String × Source)} (mem : (name, source) ∈ fields)
      (h : Holds value source) : Holds value (.fields fields)

namespace Registry
open Value

variable {r : Registry}

theorem acceptsAny_iff {text : String} {v : Variants} :
    r.acceptsAny text v ↔ ∃ leaf ∈ v.leaves, r.acceptsLeaf leaf text := by
  induction v with
  | leaf ty => simp [acceptsAny, Variants.leaves]
  | node ty left right ihl ihr =>
    simp only [acceptsAny, Bool.or_eq_true, ihl, ihr, Variants.leaves, Variants.mem_unite, or_and_right,
      exists_or]

theorem readLeaf?_sound {ty : Ty} {text : String} {value : Value} (h : r.readLeaf? ty text = some value) :
    value.isPrimitive ∧ value.Sound r := by
  have haccepts : r.acceptsLeaf ty text := by rw [← isSome_readLeaf?, h]; rfl
  cases denotes_of_readLeaf? h with
  | int form number =>
    have hvariants : r.variants ty = .leaf ty := by rw [variants, form]
    have haccepted : r.accepts ty text := by rwa [accepts, hvariants]
    exact ⟨rfl, Fits.sound (.int form haccepted number) (by simp [parts])⟩
  | @str constraints form =>
    have hholds : constraints.all (·.holds text) := by simpa [acceptsLeaf, form, Primitive.accepts] using haccepts
    exact ⟨rfl, Fits.sound (.str form hholds) (by simp [parts])⟩

/-- What a text is read as is sound, and its leaf is of a leaf that accepts the text. -/
theorem readAny?_sound (hr : r.Coherent) {text : String} {v : Variants} {value : Value}
    (hv : r.variants v.ty = v) (h : r.readAny? text v = some value) :
    value.Sound r ∧ value.leaf.isPrimitive ∧ value.leaf.ty ∈ v.leaves ∧ r.acceptsLeaf value.leaf.ty text := by
  induction v generalizing value with
  | leaf ty =>
    have h : r.readLeaf? ty text = some value := h
    obtain ⟨hprimitive, hsound⟩ := readLeaf?_sound h
    have hsingle : value.leaf = value := by cases value <;> first | rfl | contradiction
    have hty := r.ty_readLeaf? h
    rw [hsingle, hty]
    exact ⟨hsound, hprimitive, List.mem_singleton_self ty, by rw [← isSome_readLeaf?, h]; rfl⟩
  | node ty left right ihl ihr =>
    obtain ⟨-, name, hsum⟩ := get_of_variants hv
    obtain ⟨hleft, hright⟩ := hr.sides hsum
    have hsides : r.leaves left.ty = left.leaves := by rw [← leaves_variants, hleft]
    rw [readAny?] at h
    rcases Option.or_eq_some_iff.mp h with h | ⟨hnone, h⟩
    · obtain ⟨inner, hinner, rfl⟩ := Option.map_eq_some_iff.mp h
      obtain ⟨hsound, hprimitive, hmem, haccepts⟩ := ihl hleft hinner
      have hfits : (injection ty .inl inner).Fits r :=
        .inl hsum (r.ty_readAny? hinner) hprimitive (by rwa [hsides])
      exact ⟨hfits.sound (by simpa [parts]), hprimitive, Variants.mem_unite.mpr (.inl hmem), haccepts⟩
    · obtain ⟨inner, hinner, rfl⟩ := Option.map_eq_some_iff.mp h
      obtain ⟨hsound, hprimitive, hmem, haccepts⟩ := ihr hright hinner
      have hnot : inner.leaf.ty ∉ left.leaves := by
        intro hmem
        have hany := acceptsAny_iff.mpr ⟨_, hmem, haccepts⟩
        rw [← isSome_readAny?, Option.map_eq_none_iff.mp hnone] at hany
        contradiction
      have hfits : (injection ty .inr inner).Fits r :=
        .inr hsum (r.ty_readAny? hinner) hprimitive (by rwa [hsides])
      exact ⟨hfits.sound (by simpa [parts]), hprimitive, Variants.mem_unite.mpr (.inr hmem), haccepts⟩

theorem read?_sound (hr : r.Coherent) {ty : Ty} {text : String} {value : Value}
    (h : r.read? ty text = some value) : value.Sound r :=
  (readAny?_sound hr (by rw [ty_variants]) h).1

theorem failure_sound (hr : r.Coherent) (e : Failure) : (failure e).Sound r :=
  Fits.sound (.failure hr.error.1 hr.error.2) (by simp [parts])

theorem fieldValue_eq_ok {name : String} {ty : Ty} {source : Option Source} {value : Value}
    (h : r.fieldValue name ty source = .ok value) :
    ∃ given, source = some (.value given) ∧ r.view ty given = some value := by
  unfold fieldValue at h
  split at h
  · split at h
    · cases h; exact ⟨_, rfl, ‹_›⟩
    · contradiction
  all_goals contradiction

/-- The fields of a record are the declared ones, each with a sound value of its type. -/
theorem recordFields_sound (hr : r.Coherent) {given : List (String × Source)} {declared : List (String × Ty)}
    {fields : List (String × Value)} (hgiven : ∀ value, (Source.fields given).Holds value → value.Sound r)
    (h : r.recordFields given declared = .ok fields) :
    fields.map (fun field => (field.1, field.2.ty)) = declared ∧ ∀ field ∈ fields, field.2.Sound r := by
  induction declared generalizing fields with
  | nil => cases h; simp
  | cons field rest ih =>
    obtain ⟨name, ty⟩ := field
    rw [recordFields] at h
    cases hvalue : r.fieldValue name ty (given.lookup name) with
    | error failure => rw [hvalue] at h; contradiction
    | ok value =>
      rw [hvalue] at h
      cases hrest : r.recordFields given rest with
      | error failure => rw [hrest] at h; contradiction
      | ok others =>
        rw [hrest] at h
        cases h
        obtain ⟨htyped, hsound⟩ := ih hrest
        obtain ⟨source, hlookup, hview⟩ := fieldValue_eq_ok hvalue
        obtain ⟨before, after, hsplit, -⟩ := List.lookup_eq_some_iff.mp hlookup
        have hmem : (name, Source.value source) ∈ given := by rw [hsplit]; simp
        obtain ⟨hvalueSound, hty, -⟩ := view_sound hr (hgiven source (.field hmem .value)) hview
        refine ⟨by simp [htyped, hty], ?_⟩
        intro field hfield
        rcases List.mem_cons.mp hfield with rfl | hfield
        · exact hvalueSound
        · exact hsound field hfield

/-- A value made from a source is sound if the values in the source are. -/
theorem make_sound (hr : r.Coherent) {ty : Ty} {source : Source} {value : Value}
    (hsource : ∀ inner, source.Holds inner → inner.Sound r) (h : r.make ty source = .ok value) :
    value.Sound r := by
  cases source with
  | value given =>
    simp only [make] at h
    split at h
    · cases h; exact (view_sound hr (hsource given .value) ‹_›).1
    · contradiction
  | text text =>
    simp only [make] at h
    split at h
    case h_1 | h_2 =>
      split at h
      · cases h; exact read?_sound hr ‹_›
      · contradiction
    all_goals contradiction
  | fields given =>
    simp only [make] at h
    split at h
    · rename_i name declared hget
      cases hfields : r.recordFields given declared with
      | error failure => rw [hfields] at h; contradiction
      | ok fields =>
        rw [hfields] at h
        cases h
        obtain ⟨htyped, hsound⟩ := recordFields_sound hr hsource hfields
        refine Fits.sound (.record hget htyped) ?_
        intro part hpart
        obtain ⟨field, hfield, rfl⟩ := List.mem_map.mp hpart
        exact hsound field hfield
    · contradiction

theorem record_sound (hr : r.Coherent) {ty : Ty} {fields : List (String × Value)} {value : Value}
    (hfields : ∀ field ∈ fields, field.2.Sound r) (h : r.record ty fields = .ok value) : value.Sound r := by
  refine make_sound hr ?_ h
  intro inner hinner
  cases hinner with
  | field hmem hinner =>
    obtain ⟨field, hfield, heq⟩ := List.mem_map.mp hmem
    cases heq
    cases hinner
    exact hfields field (List.mem_reverse.mp hfield)

theorem mem_parts_of_field {record value : Value} {attr : String} (h : r.field record attr = .ok value) :
    value ∈ record.parts := by
  unfold field at h
  split at h
  · rename_i found hfound
    cases h
    unfold Value.field? Value.fields? at hfound
    split at hfound
    · rename_i ty fields
      obtain ⟨before, after, hsplit, -⟩ := List.lookup_eq_some_iff.mp hfound
      simp [parts, hsplit]
    · contradiction
  · contradiction

theorem field_sound {record value : Value} {attr : String} (hrecord : record.Sound r)
    (h : r.field record attr = .ok value) : value.Sound r := hrecord.part (mem_parts_of_field h)

theorem onInts_inRange {op : Operator} {x y n : Int} (h : op.onInts x y = .ok n) : Integer.InRange n := by
  unfold Operator.onInts at h
  split at h
  · contradiction
  · cases op
    all_goals
      dsimp only at h
      split at h
      · cases h; assumption
      · contradiction

theorem operate_sound (hr : r.Coherent) {op : Operator} {a b value : Value} (h : r.operate op a b = .ok value) :
    value.Sound r := by
  unfold operate at h
  split at h
  · contradiction
  split at h
  · cases hn : Operator.onInts _ _ _ with
    | error failure => rw [hn] at h; contradiction
    | ok n =>
      rw [hn] at h
      cases h
      have hread := Integer.ofText?_text (onInts_inRange hn)
      have haccepted : r.accepts .int (Integer.text n) := by
        simp [accepts, variants, hr.int, acceptsAny, acceptsLeaf, Primitive.accepts, hread]
      exact Fits.sound (.int hr.int haccepted hread) (by simp [parts])
  · cases h
    exact Fits.sound (.str hr.str rfl) (by simp [parts])
  · contradiction

end Registry

theorem Policy.handOver_sound {r : Registry} (hr : r.Coherent) {p : Policy} {result : Except Failure Value}
    {value : Value} (hresult : ∀ {value}, result = .ok value → value.Sound r)
    (h : p.handOver result = .ok value) : value.Sound r := by
  unfold handOver at h
  split at h
  · cases h; exact Registry.failure_sound hr _
  · exact hresult h

namespace Session

variable {s : Session} (hs : s.registry.Coherent)
include hs

theorem report_sound {failure : Failure} {value : Value} (h : s.report failure = .ok value) :
    value.Sound s.registry := by
  refine Policy.handOver_sound hs ?_ h
  rintro _ ⟨⟩

theorem make_sound {ty : Ty} {source : Source} {value : Value}
    (hsource : ∀ inner, source.Holds inner → inner.Sound s.registry) (h : s.make ty source = .ok value) :
    value.Sound s.registry :=
  Policy.handOver_sound hs (Registry.make_sound hs hsource) h

theorem record_sound {ty : Ty} {fields : List (String × Value)} {value : Value}
    (hfields : ∀ field ∈ fields, field.2.Sound s.registry) (h : s.record ty fields = .ok value) :
    value.Sound s.registry :=
  Policy.handOver_sound hs (Registry.record_sound hs hfields) h

theorem field_sound {record value : Value} {attr : String} (hrecord : record.Sound s.registry)
    (h : s.field record attr = .ok value) : value.Sound s.registry :=
  Policy.handOver_sound hs (Registry.field_sound hrecord) h

theorem operate_sound {op : Operator} {a b value : Value} (h : s.operate op a b = .ok value) :
    value.Sound s.registry :=
  Policy.handOver_sound hs (Registry.operate_sound hs) h

end Session
end TypeAlgebra
