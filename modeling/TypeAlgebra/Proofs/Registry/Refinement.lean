import Mathlib.Data.Set.Basic
import TypeAlgebra.Proofs.Registry.Texts

/-! Refined types as sets of constraint keys. A refinement adds its keys to those of the type, and a primitive type
is told from all others by its keys, so in what order and in how many steps constraints are added makes no
difference. -/
namespace TypeAlgebra

/-- The keys of the constraints, as a set. -/
def Constraint.keys (constraints : List Constraint) : Set Constraint.Key :=
  {key | key ∈ constraints.map (·.key)}

/-- The keys of all constraints that the refinements ask for. -/
def Refinement.allKeys (refinements : List Refinement) : Set Constraint.Key :=
  {key | ∃ refinement ∈ refinements, key ∈ Constraint.keys refinement.constraints}

theorem Constraint.mem_keys {constraints : List Constraint} {key : Constraint.Key} :
    key ∈ keys constraints ↔ key ∈ constraints.map (·.key) := Iff.rfl

@[simp] theorem Constraint.keys_nil : keys [] = ∅ := by simp [keys]

@[simp] theorem Refinement.allKeys_nil : allKeys [] = ∅ := by simp [allKeys]

@[simp] theorem Refinement.allKeys_cons (refinement : Refinement) (refinements : List Refinement) :
    allKeys (refinement :: refinements) = Constraint.keys refinement.constraints ∪ allKeys refinements := by
  ext key
  simp [allKeys]

theorem Refinement.allKeys_append (refinements others : List Refinement) :
    allKeys (refinements ++ others) = allKeys refinements ∪ allKeys others := by
  induction refinements with
  | nil => simp
  | cons refinement rest ih => rw [List.cons_append, allKeys_cons, allKeys_cons, ih, Set.union_assoc]

namespace Registry

variable {r r' : Registry} {ty made : Ty} {base base' : Primitive} {keys keys' : Set Constraint.Key}

/-- The type is the primitive type under constraints with these keys. -/
def Narrows (r : Registry) (ty : Ty) (base : Primitive) (keys : Set Constraint.Key) : Prop :=
  ∃ constraints, r.get ty = .primitive base constraints ∧ Constraint.keys constraints = keys

/-- The type is made of another by refinements one after the other, whatever comes in between. -/
inductive RefinedBy (r : Registry) (ty : Ty) : Registry → List Refinement → Ty → Prop
  | start : RefinedBy r ty r [] ty
  | refine {r' r'' : Registry} {refinements : List Refinement} {refinement : Refinement} {refined made : Ty}
      (h : RefinedBy r ty r' refinements refined) (step : r'.refine refined refinement = .ok (made, r'')) :
      RefinedBy r ty r'' (refinements ++ [refinement]) made
  | later {r' r'' : Registry} {refinements : List Refinement} {made : Ty}
      (h : RefinedBy r ty r' refinements made) (leads : r'.Leads r'') : RefinedBy r ty r'' refinements made

/-- How types behave that are refined from those of the registry. -/
structure RefinementLaws (r : Registry) : Prop where
  /-- Refining can always go on. -/
  total : ∀ {ty base keys r' refinements made}, r.Narrows ty base keys → r.RefinedBy ty r' refinements made →
    ∀ refinement, ∃ next r'', r'.refine made refinement = .ok (next, r'')
  narrows : ∀ {ty base keys r' refinements made}, r.Narrows ty base keys → r.RefinedBy ty r' refinements made →
    r'.Narrows made base (keys ∪ Refinement.allKeys refinements)
  /-- Refined types are the same if and only if the primitive types and all keys are. -/
  eq_iff : ∀ {a b base base' keys keys' r' refinements others made made'},
    r.Narrows a base keys → r.Narrows b base' keys' →
    r.RefinedBy a r' refinements made → r.RefinedBy b r' others made' →
      (made = made' ↔
        base = base' ∧ keys ∪ Refinement.allKeys refinements = keys' ∪ Refinement.allKeys others)

theorem Narrows.has (h : r.Narrows ty base keys) : r.Has ty := by
  obtain ⟨constraints, hget, -⟩ := h
  exact has_of_get (by simp [hget])

theorem Narrows.extends (h : r.Narrows ty base keys) (hext : r.Extends r') : r'.Narrows ty base keys := by
  have has := h.has
  obtain ⟨constraints, hget, hkeys⟩ := h
  exact ⟨constraints, by rw [hext.get has, hget], hkeys⟩

/-- The constraints of primitive types have the same keys in the same order if they have the same keys. -/
theorem Coherent.map_key_eq (h : r.Coherent) {a b : Ty} {constraints others : List Constraint}
    (ha : r.get a = .primitive base constraints) (hb : r.get b = .primitive base' others)
    (hkeys : Constraint.keys constraints = Constraint.keys others) :
    constraints.map (·.key) = others.map (·.key) := by
  have hleft := (h.formed a).ordered ha
  have hright := (h.formed b).ordered hb
  refine Sorted.Ascending.ext (by simpa [Sorted.Ascending] using hleft)
    (by simpa [Sorted.Ascending] using hright) fun key => ?_
  exact Set.ext_iff.mp hkeys key

/-- A primitive type is told from all others by its base and its keys. -/
theorem Narrows.eq_iff (h : r.Coherent) {a b : Ty} (ha : r.Narrows a base keys) (hb : r.Narrows b base' keys') :
    a = b ↔ base = base' ∧ keys = keys' := by
  have hasLeft := ha.has
  have hasRight := hb.has
  obtain ⟨constraints, hgetA, rfl⟩ := ha
  obtain ⟨others, hgetB, rfl⟩ := hb
  constructor
  · rintro rfl
    rw [hgetA] at hgetB
    cases hgetB
    exact ⟨rfl, rfl⟩
  · rintro ⟨rfl, hkeys⟩
    refine h.eq_of_key hasLeft hasRight ?_
    rw [hgetA, hgetB, Form.key, Form.key, h.map_key_eq hgetA hgetB hkeys]

/-- A refinement adds its keys. -/
theorem Narrows.refine (h : r.Coherent) (hty : r.Narrows ty base keys) (refinement : Refinement) :
    ∃ made r', r.refine ty refinement = .ok (made, r') ∧
      r'.Narrows made base (keys ∪ Constraint.keys refinement.constraints) := by
  have hnarrows := hty
  obtain ⟨constraints, hget, rfl⟩ := hty
  by_cases hnil : refinement.constraints = []
  · refine ⟨ty, r, by rw [Registry.refine, hnil], ?_⟩
    rwa [hnil, Constraint.keys_nil, Set.union_empty]
  · obtain ⟨made, r', hintern⟩ : ∃ made r', r.intern (.primitive base
        (refinement.constraints.foldl (fun all c => Sorted.insert (·.key) c all) constraints)) = (made, r') :=
      ⟨_, _, rfl⟩
    obtain ⟨stored, hstored, hsame, -⟩ := h.get_intern hintern
    refine ⟨made, r', by rw [refine_of_ne_nil hget hnil, hintern], stored, hstored, ?_⟩
    ext key
    rw [Constraint.mem_keys, hsame, Sorted.mem_keys_foldl, List.map_append, List.mem_append]
    rfl

theorem leads_refine (has : r.Has ty) {refinement : Refinement}
    (hrefine : r.refine ty refinement = .ok (made, r')) : r.Leads r' :=
  .single (.refine has hrefine)

/-- What is made by refinements has the keys of all of them. -/
theorem RefinedBy.sound (h : r.Coherent) (hty : r.Narrows ty base keys) {refinements : List Refinement}
    (hmade : r.RefinedBy ty r' refinements made) :
    r'.Coherent ∧ r'.Narrows made base (keys ∪ Refinement.allKeys refinements) := by
  induction hmade with
  | start => exact ⟨h, by rwa [Refinement.allKeys_nil, Set.union_empty]⟩
  | @refine r' r'' refinements refinement refined made _ step ih =>
    obtain ⟨hcoherent, hrefined⟩ := ih
    obtain ⟨made', r₂, hrefine, hmade⟩ := hrefined.refine hcoherent refinement
    rw [step] at hrefine
    cases hrefine
    refine ⟨hcoherent.refine step, ?_⟩
    rwa [Refinement.allKeys_append, Refinement.allKeys_cons, Refinement.allKeys_nil, Set.union_empty,
      ← Set.union_assoc]
  | later _ leads ih => exact ⟨ih.1.leads leads, ih.2.extends leads.extends⟩

theorem Reachable.refinementLaws (h : r.Reachable) : r.RefinementLaws where
  total := by
    intro ty base keys r' refinements made hty hmade refinement
    obtain ⟨hcoherent, hnarrows⟩ := hmade.sound h.coherent hty
    obtain ⟨next, r'', hrefine, -⟩ := hnarrows.refine hcoherent refinement
    exact ⟨next, r'', hrefine⟩
  narrows hty hmade := (hmade.sound h.coherent hty).2
  eq_iff := by
    intro a b base base' keys keys' r' refinements others made made' ha hb hmade hmade'
    obtain ⟨hcoherent, hnarrows⟩ := hmade.sound h.coherent ha
    exact hnarrows.eq_iff hcoherent (hmade'.sound h.coherent hb).2

/-- Texts of four characters, then those without a blank among them, then all texts without a blank. -/
def fours : Registry := (initial.intern (.primitive .str [.sizeEq 4])).2

def fourWords : Registry := (fours.intern (.primitive .str [.sizeEq 4, .endsOn ' '])).2

def words : Registry := (fourWords.intern (.primitive .str [.endsOn ' '])).2

/-- The blank first and the length second give the type that the length first and the blank second gave, and not
the one of the blank alone. -/
theorem refinementLaws_words : initial.Reachable ∧ ∃ made r', words.refine ⟨5⟩ { sizeEq := some 4 } = .ok (made, r') ∧
    ⟨4⟩ = made ∧ (⟨5⟩ : Ty) ≠ made := by
  have laws := Reachable.refinementLaws (r := initial) .refl
  have hstr : initial.Narrows .str .str ∅ := ⟨[], rfl, Constraint.keys_nil⟩
  have hfours : initial.refine .str { sizeEq := some 4 } = .ok (⟨3⟩, fours) := rfl
  have hfourWords : fours.refine ⟨3⟩ { endsOn := some ' ' } = .ok (⟨4⟩, fourWords) := rfl
  have hwords : fourWords.refine .str { endsOn := some ' ' } = .ok (⟨5⟩, words) := rfl
  have hother : initial.RefinedBy .str words [{ endsOn := some ' ' }] ⟨5⟩ :=
    .refine (.later (.later .start (leads_refine (by decide) hfours)) (leads_refine (by decide) hfourWords)) hwords
  obtain ⟨made, r', hmade⟩ := laws.total hstr hother { sizeEq := some 4 }
  have hleads : words.Leads r' := leads_refine (by decide) hmade
  have hfirst : initial.RefinedBy .str r' [{ sizeEq := some 4 }, { endsOn := some ' ' }] ⟨4⟩ :=
    .later (.later (.refine (.refine .start hfours) hfourWords) (leads_refine (by decide) hwords)) hleads
  have hsecond : initial.RefinedBy .str r' [{ endsOn := some ' ' }, { sizeEq := some 4 }] made :=
    .refine hother hmade
  refine ⟨.refl, made, r', hmade, ?_, ?_⟩
  · refine (laws.eq_iff hstr hstr hfirst hsecond).mpr ⟨rfl, ?_⟩
    simp [Set.union_comm]
  · rw [ne_eq, laws.eq_iff hstr hstr (.later hother hleads) hsecond]
    rintro ⟨-, hkeys⟩
    have hsize := Set.ext_iff.mp hkeys (.sizeEq 4)
    simp [Constraint.mem_keys, Refinement.constraints, Constraint.key] at hsize

end Registry
end TypeAlgebra
