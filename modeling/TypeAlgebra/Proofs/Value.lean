import TypeAlgebra.Proofs.Registry.Permanence

/-! Values that fit their types. Such a value goes on fitting its type while the registry grows, and what it is
is settled by its type and its leaf: of two sides that both have the leaf, it stands on the left one. -/
namespace TypeAlgebra

/-- The values a body was made with. -/
def Body.held : Body → List Value
  | .constant value => [value]
  | .delegate function => [function]
  | .dispatch _ left _ right _ => [left, right]
  | .spread function => [function]
  | _ => []

namespace Value

/-- The values directly inside a value. -/
def parts : Value → List Value
  | .record _ fields => fields.map (·.2)
  | .injection _ _ inner => [inner]
  | .closure _ lambda applied => applied ++ lambda.body.held
  | .int .. | .str .. | .failure .. => []

/-- The part is the whole, or is inside it at some depth. -/
def Nested : Value → Value → Prop := Relation.ReflTransGen fun whole part => part ∈ whole.parts

def isPrimitive : Value → Bool
  | .int .. | .str .. => true
  | .record .. | .injection .. | .closure .. | .failure .. => false

def isInjection : Value → Bool
  | .injection .. => true
  | .int .. | .str .. | .record .. | .closure .. | .failure .. => false

/-- The value has the shape that its type asks for. Of the values inside it, only their types count. -/
inductive Fits (r : Registry) : Value → Prop
  | int {ty : Ty} {n : Int} {constraints : List Constraint} {text : String}
      (form : r.get ty = .primitive .int constraints) (accepted : r.accepts ty text)
      (reading : Integer.ofText? text = some n) : Fits r (.int ty n)
  | str {ty : Ty} {text : String} {constraints : List Constraint}
      (form : r.get ty = .primitive .str constraints) (holds : constraints.all (·.holds text)) :
      Fits r (.str ty text)
  | record {ty : Ty} {fields : List (String × Value)} {name : String} {declared : List (String × Ty)}
      (form : r.get ty = .product name declared)
      (typed : fields.map (fun field => (field.1, field.2.ty)) = declared) : Fits r (.record ty fields)
  | inl {ty : Ty} {inner : Value} {name : String} {left right : Variants}
      (form : r.get ty = .sum name left right) (typed : inner.ty = left.ty)
      (primitive : inner.leaf.isPrimitive) (side : inner.leaf.ty ∈ r.leaves left.ty) :
      Fits r (.injection ty .inl inner)
  | inr {ty : Ty} {inner : Value} {name : String} {left right : Variants}
      (form : r.get ty = .sum name left right) (typed : inner.ty = right.ty)
      (primitive : inner.leaf.isPrimitive) (side : inner.leaf.ty ∉ r.leaves left.ty) :
      Fits r (.injection ty .inr inner)
  /-- Arguments are missing, those there are of their types, and the type asks for those that are missing. -/
  | closure {ty : Ty} {lambda : Lambda} {applied : List Value} {name : String}
      (form : r.get ty = .function name (lambda.signature.drop applied.length))
      (short : applied.length + 1 < lambda.signature.length)
      (typed : applied.map (·.ty) = lambda.signature.take applied.length) :
      Fits r (.closure ty lambda applied)
  | failure {e : Failure} (has : r.Has .error) (form : r.get .error = .failure) : Fits r (.failure e)

/-- The value and all values nested in it fit their types. -/
def Sound (r : Registry) (value : Value) : Prop := ∀ part, value.Nested part → part.Fits r

variable {r r' : Registry} {value other : Value}

theorem Sound.fits (h : value.Sound r) : value.Fits r := h value .refl

theorem Sound.part (h : value.Sound r) {part : Value} (hpart : part ∈ value.parts) : part.Sound r :=
  fun inner hinner => h inner (.head hpart hinner)

theorem mem_parts_of_fields? {part : Value} (h : part ∈ (value.fields?.getD []).map (·.2)) :
    part ∈ value.parts := by
  cases value with
  | record ty fields => exact h
  | int | str | injection | closure | failure => simp [fields?] at h

theorem Sound.inner {ty : Ty} {side : Side} {inner : Value} (h : (injection ty side inner).Sound r) :
    inner.Sound r :=
  h.part (List.mem_singleton_self inner)

theorem Sound.nested (h : value.Sound r) {part : Value} (hpart : value.Nested part) : part.Sound r :=
  fun inner hinner => h inner (hpart.trans hinner)

/-- A value is sound if it fits its type and the values inside it are sound. -/
theorem Fits.sound (h : value.Fits r) (hparts : ∀ part ∈ value.parts, part.Sound r) : value.Sound r := by
  intro inner hinner
  rcases hinner.cases_head with rfl | ⟨part, hpart, hinner⟩
  · exact h
  · exact hparts part hpart inner hinner

theorem Fits.has (h : value.Fits r) : r.Has value.ty := by
  cases h with
  | int form | str form | record form | inl form | inr form | closure form =>
    exact Registry.has_of_get (by simp [ty, form])
  | failure has => exact has

theorem has_side {ty : Ty} {name : String} {left right : Variants} (h : r.Coherent)
    (hsum : r.get ty = .sum name left right) : r.Has left.ty ∧ r.Has right.ty := by
  have hleft : left.ty ∈ (r.get ty).parts := by rw [hsum]; simp [Form.parts]
  have hright : right.ty ∈ (r.get ty).parts := by rw [hsum]; simp [Form.parts]
  exact ⟨h.has_part hleft, h.has_part hright⟩

theorem Fits.extends (h : value.Fits r) (hr : r.Coherent) (hext : r.Extends r') : value.Fits r' := by
  have has := h.has
  cases h with
  | int form accepted reading =>
    exact .int ((hext.get has).trans form) ((hext.accepts hr has _).trans accepted) reading
  | str form holds => exact .str ((hext.get has).trans form) holds
  | record form typed => exact .record ((hext.get has).trans form) typed
  | inl form typed primitive side =>
    refine .inl ((hext.get has).trans form) typed primitive ?_
    rwa [hext.leaves (has_side hr form).1]
  | inr form typed primitive side =>
    refine .inr ((hext.get has).trans form) typed primitive ?_
    rwa [hext.leaves (has_side hr form).1]
  | closure form short typed => exact .closure ((hext.get has).trans form) short typed
  | failure has form => exact .failure (hext.has has) ((hext.get has).trans form)

/-- A sound value stays sound while the registry grows. -/
theorem Sound.extends (h : value.Sound r) (hr : r.Coherent) (hext : r.Extends r') : value.Sound r' :=
  fun part hpart => (h part hpart).extends hr hext

theorem leaf_of_single (h : value.isInjection = false) : value.leaf = value := by
  cases value with
  | injection => contradiction
  | int | str | record | closure | failure => rfl

@[simp] theorem isInjection_leaf : ∀ value : Value, value.leaf.isInjection = false
  | .injection _ _ inner => isInjection_leaf inner
  | .int .. | .str .. | .record .. | .closure .. | .failure .. => rfl

/-- Of a sum there are injections only, and injections are of nothing else. -/
theorem Fits.isInjection_iff (h : value.Fits r) :
    value.isInjection ↔ ∃ name left right, r.get value.ty = .sum name left right := by
  cases h with
  | int form | str form | record form | closure form | failure _ form =>
    simp [ty, form, isInjection]
  | inl form | inr form => exact ⟨fun _ => ⟨_, _, _, form⟩, fun _ => rfl⟩

theorem Fits.isInjection_eq (h : value.Fits r) (h' : other.Fits r) (hty : value.ty = other.ty) :
    value.isInjection = other.isInjection := by
  rw [Bool.eq_iff_iff, h.isInjection_iff, h'.isInjection_iff, hty]

/-- The leaf of a value is of one of the leaves of the value's type. -/
theorem Sound.mem_leaves (hr : r.Coherent) : ∀ {value : Value}, value.Sound r →
    value.leaf.ty ∈ r.leaves value.ty
  | .injection ty side inner, h => by
    have hinner := Sound.mem_leaves hr h.inner
    rw [leaf]
    cases h.fits with
    | inl form typed primitive side => exact (hr.mem_leaves_of_sum form).mpr (.inl side)
    | inr form typed primitive side =>
      rw [typed] at hinner
      exact (hr.mem_leaves_of_sum form).mpr (.inr hinner)
  | .int .., h | .str .., h | .record .., h | .closure .., h | .failure .., h => by
    rw [Registry.leaves_of_single]
    · exact List.mem_singleton_self _
    · intro name left right hsum
      have hinjection := h.fits.isInjection_iff.mpr ⟨name, left, right, hsum⟩
      contradiction

/-- On which side of its sum an injection stands, and of which type it is there. -/
theorem Fits.standing {ty : Ty} {side : Side} {inner : Value} (h : (injection ty side inner).Fits r) :
    ∃ name left right, r.get ty = .sum name left right ∧ (side, inner.ty) =
      if inner.leaf.ty ∈ r.leaves left.ty then (.inl, left.ty) else (.inr, right.ty) := by
  cases h with
  | inl form typed primitive side => exact ⟨_, _, _, form, by rw [if_pos side, typed]⟩
  | inr form typed primitive side => exact ⟨_, _, _, form, by rw [if_neg side, typed]⟩

/-- A value is settled by its type and its leaf. -/
theorem Sound.eq_of_leaf : ∀ {value other : Value}, value.Sound r → other.Sound r → value.ty = other.ty →
    value.leaf = other.leaf → value = other
  | .injection ty side inner, other, h, h', hty, hleaf => by
    have hinjection := h.fits.isInjection_eq h'.fits hty
    cases other with
    | int | str | record | closure | failure => contradiction
    | injection ty' side' inner' =>
      rw [leaf, leaf] at hleaf
      simp only [Value.ty] at hty
      subst hty
      obtain ⟨name, left, right, hsum, hstands⟩ := h.fits.standing
      obtain ⟨name', left', right', hsum', hstands'⟩ := h'.fits.standing
      cases hsum.symm.trans hsum'
      rw [← hleaf, ← hstands, Prod.mk.injEq] at hstands'
      rw [hstands'.1, Sound.eq_of_leaf h.inner h'.inner hstands'.2.symm hleaf]
  | .int .., other, h, h', hty, hleaf | .str .., other, h, h', hty, hleaf
  | .record .., other, h, h', hty, hleaf | .closure .., other, h, h', hty, hleaf
  | .failure .., other, h, h', hty, hleaf => by
    have hinjection := h.fits.isInjection_eq h'.fits hty
    rw [leaf_of_single hinjection.symm] at hleaf
    exact hleaf

end Value
end TypeAlgebra
