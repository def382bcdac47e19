import TypeAlgebra.Proofs.Value
import TypeAlgebra.View

/-! Viewing a sound value gives a sound value of the type asked for with the same leaf, so it does not matter on
which way the type is reached. An injection belongs to the types that have the type of its leaf among their
leaves. -/
namespace TypeAlgebra

variable {r : Registry}

namespace Value

/-- What a leaf can be wrapped into by a tree. -/
inductive Wraps (leaf : Value) : Variants → Value → Prop
  | same {v : Variants} (h : leaf.ty = v.ty) : Wraps leaf v leaf
  | left {ty : Ty} {left right : Variants} {inner : Value} (mem : leaf.ty ∈ left.leaves)
      (h : Wraps leaf left inner) : Wraps leaf (.node ty left right) (.injection ty .inl inner)
  | right {ty : Ty} {left right : Variants} {inner : Value} (not_mem : leaf.ty ∉ left.leaves)
      (h : Wraps leaf right inner) : Wraps leaf (.node ty left right) (.injection ty .inr inner)

theorem wraps_of_wrap {leaf value : Value} {v : Variants} (h : leaf.wrap v = some value) :
    leaf.Wraps v value := by
  induction v generalizing value with
  | leaf ty =>
    rw [wrap] at h
    split at h
    · cases h; exact .same ‹_›
    · contradiction
  | node ty left right ihl ihr =>
    rw [wrap] at h
    split at h
    · cases h; exact .same ‹_›
    split at h
    · obtain ⟨inner, hinner, rfl⟩ := Option.map_eq_some_iff.mp h
      exact .left ‹_› (ihl hinner)
    split at h
    · obtain ⟨inner, hinner, rfl⟩ := Option.map_eq_some_iff.mp h
      exact .right ‹_› (ihr hinner)
    · contradiction

theorem Wraps.ty {leaf value : Value} {v : Variants} (h : leaf.Wraps v value) : value.ty = v.ty := by
  cases h with
  | same h => exact h
  | left | right => rfl

/-- Wrapping leaves the leaf what it is. -/
theorem Wraps.leaf_eq {leaf value : Value} {v : Variants} (h : leaf.Wraps v value)
    (hleaf : leaf.isInjection = false) : value.leaf = leaf := by
  induction h with
  | same => exact leaf_of_single hleaf
  | left _ _ ih | right _ _ ih => exact ih

/-- A primitive value wrapped by the tree of a type is sound. -/
theorem Wraps.sound (hr : r.Coherent) {leaf value : Value} {v : Variants} (h : leaf.Wraps v value)
    (hv : r.variants v.ty = v) (hleaf : leaf.Sound r) (hprimitive : leaf.isPrimitive) : value.Sound r := by
  have hsingle : leaf.isInjection = false := by cases leaf <;> first | rfl | contradiction
  induction h with
  | same => exact hleaf
  | @left ty left right inner mem h ih =>
    obtain ⟨-, name, hsum⟩ := Registry.get_of_variants hv
    obtain ⟨hleft, -⟩ := hr.sides hsum
    have hside : inner.leaf.ty ∈ r.leaves left.ty := by
      rwa [h.leaf_eq hsingle, ← Registry.leaves_variants, hleft]
    refine Fits.sound (.inl hsum h.ty (by rwa [h.leaf_eq hsingle]) hside) ?_
    simpa [parts] using ih hleft
  | @right ty left right inner not_mem h ih =>
    obtain ⟨-, name, hsum⟩ := Registry.get_of_variants hv
    obtain ⟨hleft, hright⟩ := hr.sides hsum
    have hside : inner.leaf.ty ∉ r.leaves left.ty := by
      rwa [h.leaf_eq hsingle, ← Registry.leaves_variants, hleft]
    refine Fits.sound (.inr hsum h.ty (by rwa [h.leaf_eq hsingle]) hside) ?_
    simpa [parts] using ih hright

/-- A leaf can be wrapped by a tree that has its type among the leaves. -/
theorem exists_wrap {leaf : Value} {v : Variants} (h : leaf.ty ∈ v.leaves) :
    ∃ value, leaf.wrap v = some value := by
  induction v with
  | leaf ty => exact ⟨leaf, by rw [wrap, if_pos (List.mem_singleton.mp h)]⟩
  | node ty left right ihl ihr =>
    rw [wrap]
    split
    · exact ⟨_, rfl⟩
    split
    · obtain ⟨inner, hinner⟩ := ihl ‹_›
      exact ⟨_, by rw [hinner]; rfl⟩
    · have hright := (Variants.mem_unite.mp h).resolve_left ‹_›
      obtain ⟨inner, hinner⟩ := ihr hright
      exact ⟨_, by rw [if_pos hright, hinner]; rfl⟩

/-- The leaf of a sound injection is a primitive value. -/
theorem Sound.isPrimitive_leaf {value : Value} (h : value.Sound r) (hinjection : value.isInjection) :
    value.leaf.isPrimitive := by
  cases value with
  | injection ty side inner =>
    cases h.fits with
    | inl _ _ primitive | inr _ _ primitive => exact primitive
  | int | str | record | closure | failure => contradiction

theorem Sound.leaf : ∀ {value : Value}, value.Sound r → value.leaf.Sound r
  | .injection .., h => h.inner.leaf
  | .int .., h | .str .., h | .record .., h | .closure .., h | .failure .., h => h

end Value

namespace Registry
open Value

variable {ty : Ty}

/-- A value is viewed as itself, as a value that it was injected from, or as what its leaf is wrapped into. -/
theorem view_cases : ∀ {value viewed : Value}, r.view ty value = some viewed →
    (value.Nested viewed ∧ viewed.ty = ty ∧ viewed.leaf = value.leaf) ∨
      (value.isInjection ∧ value.leaf.Wraps (r.variants ty) viewed)
  | .injection own side inner, viewed, h => by
    rw [view] at h
    split at h
    · cases h; exact .inl ⟨.refl, ‹_›, rfl⟩
    rcases Option.or_eq_some_iff.mp h with h | ⟨-, hwrap⟩
    · rcases view_cases h with ⟨hnested, hty, hleaf⟩ | ⟨-, hwraps⟩
      · exact .inl ⟨.head (List.mem_singleton_self inner) hnested, hty, hleaf⟩
      · exact .inr ⟨rfl, hwraps⟩
    · exact .inr ⟨rfl, wraps_of_wrap hwrap⟩
  | .int .., viewed, h | .str .., viewed, h | .record .., viewed, h | .closure .., viewed, h
  | .failure .., viewed, h => by
    simp only [view] at h
    split at h
    · cases h; exact .inl ⟨.refl, ‹_›, rfl⟩
    · contradiction

/-- Sound or not, a value is viewed as one of the type asked for, with the leaf it has. -/
theorem view_eq_some {value viewed : Value} (h : r.view ty value = some viewed) :
    viewed.ty = ty ∧ viewed.leaf = value.leaf := by
  rcases view_cases h with ⟨-, hty, hleaf⟩ | ⟨-, hwraps⟩
  · exact ⟨hty, hleaf⟩
  · exact ⟨hwraps.ty.trans (r.ty_variants ty), hwraps.leaf_eq value.isInjection_leaf⟩

/-- A sound value viewed as one of a type is a sound value of the type, and its leaf is the same. -/
theorem view_sound (hr : r.Coherent) {value viewed : Value} (h : value.Sound r) (hview : r.view ty value = some viewed) :
    viewed.Sound r ∧ viewed.ty = ty ∧ viewed.leaf = value.leaf := by
  refine ⟨?_, view_eq_some hview⟩
  rcases view_cases hview with ⟨hnested, -⟩ | ⟨hinjection, hwraps⟩
  · exact h.nested hnested
  · have hv : r.variants (r.variants ty).ty = r.variants ty := by rw [ty_variants]
    exact hwraps.sound hr hv h.leaf (h.isPrimitive_leaf hinjection)

theorem belongs_iff_exists {value : Value} : r.belongs value ty ↔ ∃ viewed, r.view ty value = some viewed :=
  Option.isSome_iff_exists

theorem view_of_single {value : Value} (h : value.isInjection = false) :
    r.view ty value = if value.ty = ty then some value else none := by
  cases value with
  | injection => contradiction
  | int | str | record | closure | failure => rfl

/-- A value that is no injection belongs to its own type only. -/
theorem belongs_of_single {value : Value} (h : value.isInjection = false) :
    r.belongs value ty ↔ value.ty = ty := by
  rw [belongs, view_of_single h]
  split <;> simp [*]

theorem belongs_of_injection (hr : r.Coherent) {value : Value} (h : value.Sound r) (hinjection : value.isInjection) :
    r.belongs value ty ↔ value.leaf.ty ∈ r.leaves ty := by
  rw [belongs_iff_exists]
  constructor
  · rintro ⟨viewed, hview⟩
    obtain ⟨hsound, hty, hleaf⟩ := view_sound hr h hview
    rw [← hleaf, ← hty]
    exact hsound.mem_leaves hr
  · intro hmem
    cases value with
    | int | str | record | closure | failure => contradiction
    | injection own side inner =>
      rw [view]
      split
      · exact ⟨_, rfl⟩
      · rw [← leaves_variants] at hmem
        obtain ⟨wrapped, hwrapped⟩ := exists_wrap hmem
        rw [Value.leaf] at hwrapped
        cases r.view ty inner with
        | some viewed => exact ⟨viewed, rfl⟩
        | none => exact ⟨wrapped, hwrapped⟩

/-- To a sum there belong injections with one of its leaves, and nothing else. -/
theorem belongs_of_sum (hr : r.Coherent) {value : Value} {name : String} {left right : Variants}
    (h : value.Sound r) (hsum : r.get ty = .sum name left right) :
    r.belongs value ty ↔ value.isInjection ∧ value.leaf.ty ∈ r.leaves ty := by
  cases hinjection : value.isInjection with
  | true =>
    rw [belongs_of_injection hr h hinjection]
    simp
  | false =>
    refine ⟨fun hbelongs => ?_, fun hother => by simp at hother⟩
    have hty := (belongs_of_single hinjection).mp hbelongs
    have hsame := h.fits.isInjection_iff.mpr ⟨name, left, right, by rw [hty, hsum]⟩
    rw [hinjection] at hsame
    contradiction

/-- Viewing on the way to a type makes no difference to what is reached. -/
theorem view_eq_of_view (hr : r.Coherent) {value viewed : Value} {a b : Ty} (h : value.Sound r)
    (hview : r.view a value = some viewed) (hbelongs : r.belongs viewed b) :
    r.belongs value b ∧ r.view b value = r.view b viewed := by
  cases hinjection : value.isInjection with
  | false =>
    rw [view_of_single hinjection] at hview
    split at hview
    · cases hview; exact ⟨hbelongs, rfl⟩
    · contradiction
  | true =>
    obtain ⟨hviewed, -, hleaf⟩ := view_sound hr h hview
    obtain ⟨last, hlast⟩ := belongs_iff_exists.mp hbelongs
    obtain ⟨hlastSound, hlastTy, hlastLeaf⟩ := view_sound hr hviewed hlast
    have hmem := hlastSound.mem_leaves hr
    rw [hlastTy, hlastLeaf, hleaf] at hmem
    have hdirect := (belongs_of_injection hr h hinjection).mpr hmem
    obtain ⟨direct, hd⟩ := belongs_iff_exists.mp hdirect
    obtain ⟨hdirectSound, hdirectTy, hdirectLeaf⟩ := view_sound hr h hd
    refine ⟨hdirect, ?_⟩
    rw [hd, hlast, hdirectSound.eq_of_leaf hlastSound (hdirectTy.trans hlastTy.symm)
      (hdirectLeaf.trans (hlastLeaf.trans hleaf).symm)]

/-- An injection viewed as one of another sum is itself again when viewed back. -/
theorem view_back (hr : r.Coherent) {value viewed : Value} {a : Ty} {name : String} {left right : Variants}
    (h : value.Sound r) (hsum : r.get a = .sum name left right) (hview : r.view a value = some viewed) :
    r.view value.ty viewed = some value := by
  obtain ⟨hviewed, hty, hleaf⟩ := view_sound hr h hview
  have hinjection : viewed.isInjection := hviewed.fits.isInjection_iff.mpr ⟨name, left, right, by rw [hty, hsum]⟩
  have hmem := h.mem_leaves hr
  rw [← hleaf] at hmem
  obtain ⟨back, hback⟩ := belongs_iff_exists.mp ((belongs_of_injection hr hviewed hinjection).mpr hmem)
  obtain ⟨hbackSound, hbackTy, hbackLeaf⟩ := view_sound hr hviewed hback
  rw [hback, hbackSound.eq_of_leaf h hbackTy (hbackLeaf.trans hleaf)]

end Registry
end TypeAlgebra
