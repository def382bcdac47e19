import TypeAlgebra.Proofs.Construction
import TypeAlgebra.Proofs.Form
import TypeAlgebra.Proofs.Registry.Growth

/-! What holds of every registry there can be. A type is found by its key and by no other, a form is made of
earlier types, and the tree of a sum is made of the trees that its sides have in the registry. -/
namespace TypeAlgebra

/-- The types a form is made of. -/
def Form.parts : Form → List Ty
  | .sum _ left right => [left.ty, right.ty]
  | .product _ fields => fields.map (·.2)
  | .function _ signature => signature
  | .primitive .. | .failure => []

/-- What a form has in itself, given the types it is made of. -/
structure Form.Formed (r : Registry) (form : Form) : Prop where
  /-- The trees of a sum are those of its sides. -/
  sides : ∀ {name left right}, form = .sum name left right →
    r.variants left.ty = left ∧ r.variants right.ty = right
  /-- A sum has two leaves or more. -/
  several : ∀ {name left right}, form = .sum name left right →
    ∃ a ∈ Variants.unite left.leaves right.leaves, ∃ b ∈ Variants.unite left.leaves right.leaves, a ≠ b
  /-- The constraints of a primitive type are in order, each there once. -/
  ordered : ∀ {base constraints}, form = .primitive base constraints →
    Sorted.Ascending (·.key) constraints

namespace Registry

structure Coherent (r : Registry) : Prop where
  /-- A type is found by the key of its form, and by no other key. -/
  found : ∀ {key ty}, r.find? key = some ty ↔ r.Has ty ∧ (r.get ty).key = key
  /-- A form is made of types that were there before it. -/
  earlier : ∀ {ty part}, part ∈ (r.get ty).parts → part.index < ty.index
  formed : ∀ ty, (r.get ty).Formed r
  int : r.get .int = .primitive .int []
  str : r.get .str = .primitive .str []
  error : r.Has .error ∧ r.get .error = .failure

variable {r r' : Registry}

/-- Only a type that is there has a form other than the default one. -/
theorem has_of_get {ty : Ty} (h : r.get ty ≠ .failure) : r.Has ty := by
  by_contra hn
  exact h (List.getD_eq_default _ _ (Nat.le_of_not_lt hn))

theorem find?_eq (r : Registry) (key : Form.Key) :
    r.find? key = (r.forms.findIdx? fun form => form.key = key).map Ty.mk := by
  rw [find?, r.keys_eq, List.findIdx?_map]
  rfl

section Grow

variable {form : Form} (hforms : r'.forms = r.forms ++ [form])
include hforms

theorem has_grow {ty : Ty} : r'.Has ty ↔ r.Has ty ∨ ty.index = r.forms.length := by
  unfold Has
  rw [hforms, List.length_append, List.length_singleton]
  omega

theorem get_grow (ty : Ty) : r'.get ty = if ty.index = r.forms.length then form else r.get ty := by
  unfold get
  rw [hforms, List.getD_eq_getElem?_getD, List.getD_eq_getElem?_getD]
  by_cases hlt : ty.index < r.forms.length
  · rw [List.getElem?_append_left hlt, if_neg (Nat.ne_of_lt hlt)]
  · have hle := Nat.le_of_not_lt hlt
    rw [List.getElem?_append_right hle, List.getElem?_eq_none hle]
    split
    · rename_i heq
      simp [heq]
    · rw [List.getElem?_eq_none (by simp; omega)]

theorem find?_grow (key : Form.Key) :
    r'.find? key = (r.find? key).or (if form.key = key then some ⟨r.forms.length⟩ else none) := by
  rw [find?_eq, find?_eq, hforms, List.findIdx?_append]
  cases r.forms.findIdx? fun form => form.key = key with
  | some i => rfl
  | none => by_cases hkey : form.key = key <;> simp [List.findIdx?_cons, hkey]

theorem variants_grow {ty : Ty} (has : r.Has ty) : r'.variants ty = r.variants ty := by
  have hne : ty.index ≠ r.forms.length := Nat.ne_of_lt has
  rw [variants, variants, get_grow hforms, if_neg hne]

/-- One more form keeps a registry coherent, if its key is new and its parts are there. -/
theorem Coherent.grow (h : r.Coherent) (hnew : r.find? form.key = none)
    (hparts : ∀ part ∈ form.parts, r.Has part) (hformed : form.Formed r) : r'.Coherent where
  found := by
    intro key ty
    rw [find?_grow hforms, has_grow hforms, get_grow hforms, Option.or_eq_some_iff, h.found]
    constructor
    · rintro (⟨has, hkey⟩ | ⟨-, hlast⟩)
      · rw [if_neg (Nat.ne_of_lt has)]
        exact ⟨.inl has, hkey⟩
      · split at hlast
        · cases hlast
          simpa
        · contradiction
    · rintro ⟨has | hlast, hkey⟩
      · rw [if_neg (Nat.ne_of_lt has)] at hkey
        exact .inl ⟨has, hkey⟩
      · rw [if_pos hlast] at hkey
        subst hkey
        exact .inr ⟨hnew, by rw [if_pos rfl, ← hlast]⟩
  earlier := by
    intro ty part
    rw [get_grow hforms]
    split
    · rename_i hlast
      rw [hlast]
      exact hparts part
    · exact h.earlier
  formed := by
    intro ty
    have hold (form : Form) (hformed : form.Formed r) (hparts : ∀ part ∈ form.parts, r.Has part) :
        form.Formed r' := by
      refine ⟨?_, hformed.several, hformed.ordered⟩
      rintro name left right rfl
      rw [variants_grow hforms (hparts left.ty (by simp [Form.parts])),
        variants_grow hforms (hparts right.ty (by simp [Form.parts]))]
      exact hformed.sides rfl
    rw [get_grow hforms]
    split
    · exact hold form hformed hparts
    · refine hold _ (h.formed ty) ?_
      intro part hpart
      have has : r.Has ty := has_of_get (by rintro heq; rw [heq] at hpart; contradiction)
      exact Nat.lt_trans (h.earlier hpart) has
  int := by
    have has : r.Has .int := has_of_get (by rw [h.int]; simp)
    rw [get_grow hforms, if_neg (Nat.ne_of_lt has), h.int]
  str := by
    have has : r.Has .str := has_of_get (by rw [h.str]; simp)
    rw [get_grow hforms, if_neg (Nat.ne_of_lt has), h.str]
  error := by
    refine ⟨(has_grow hforms).mpr (.inl h.error.1), ?_⟩
    rw [get_grow hforms, if_neg (Nat.ne_of_lt h.error.1), h.error.2]

end Grow

/-- A registry with the same forms is as coherent. -/
theorem Coherent.of_forms (h : r.Coherent) (hforms : r'.forms = r.forms) : r'.Coherent := by
  have hget (ty : Ty) : r'.get ty = r.get ty := by rw [get, get, hforms]
  have hhas (ty : Ty) : r'.Has ty ↔ r.Has ty := by rw [Has, Has, hforms]
  refine ⟨?_, ?_, ?_, ?_, ?_, ?_⟩
  · intro key ty
    rw [find?_eq, hforms, ← find?_eq, hget, hhas]
    exact h.found
  · intro ty part
    rw [hget]
    exact h.earlier
  · intro ty
    rw [hget]
    refine ⟨?_, (h.formed ty).several, (h.formed ty).ordered⟩
    intro name left right heq
    simp only [variants, hget]
    exact (h.formed ty).sides heq
  · rw [hget, h.int]
  · rw [hget, h.str]
  · rw [hhas, hget]
    exact h.error

section Intern

variable {key : Form.Key} {form : Form} (hkey : key = form.key)

theorem Coherent.internAs (h : r.Coherent) (hparts : ∀ part ∈ form.parts, r.Has part)
    (hformed : form.Formed r) : (r.internAs key form hkey).2.Coherent := by
  unfold Registry.internAs
  cases hfind : r.find? key with
  | some ty => exact h
  | none => exact h.grow rfl (by rw [← hkey, hfind]) hparts hformed

/-- Afterwards the type is found by the key. -/
theorem find?_internAs (r : Registry) :
    (r.internAs key form hkey).2.find? key = some (r.internAs key form hkey).1 := by
  unfold Registry.internAs
  cases hfind : r.find? key with
  | some ty => exact hfind
  | none =>
    dsimp only
    rw [find?_grow rfl key, hfind, if_pos hkey.symm]
    rfl

end Intern

theorem Coherent.intern (h : r.Coherent) {form : Form} (hparts : ∀ part ∈ form.parts, r.Has part)
    (hformed : form.Formed r) : (r.intern form).2.Coherent :=
  h.internAs rfl hparts hformed

/-- Types of different forms have different keys. -/
theorem Coherent.eq_of_key (h : r.Coherent) {a b : Ty} (hasLeft : r.Has a) (hasRight : r.Has b)
    (hkey : (r.get a).key = (r.get b).key) : a = b := by
  have hleft := h.found.mpr ⟨hasLeft, hkey⟩
  have hright := h.found.mpr ⟨hasRight, rfl⟩
  exact Option.some.inj (hleft.symm.trans hright)

theorem Coherent.has_part (h : r.Coherent) {ty part : Ty} (hpart : part ∈ (r.get ty).parts) :
    r.Has part := by
  have has : r.Has ty := has_of_get (by rintro heq; rw [heq] at hpart; contradiction)
  exact Nat.lt_trans (h.earlier hpart) has

theorem Coherent.has_signature (h : r.Coherent) {ty : Ty} {signature : List Ty}
    (hsignature : r.signature? ty = some signature) : ∀ part ∈ signature, r.Has part := by
  intro part hpart
  unfold signature? at hsignature
  cases hget : r.get ty with
  | function name own =>
    rw [hget] at hsignature
    cases hsignature
    have hown : part ∈ (r.get ty).parts := by rwa [hget]
    exact h.has_part hown
  | primitive | sum | product | failure => rw [hget] at hsignature; contradiction

theorem has_productOf? {types : List Ty} {ty : Ty} (h : r.productOf? types = some ty) : r.Has ty := by
  obtain ⟨i, hi, rfl⟩ := Option.map_eq_some_iff.mp h
  obtain ⟨has, -⟩ := List.findIdx?_eq_some_iff_getElem.mp hi
  exact has

theorem formed_product (name : String) (fields : List (String × Ty)) :
    (Form.product name fields).Formed r :=
  ⟨nofun, nofun, nofun⟩

theorem formed_function (name : String) (signature : List Ty) :
    (Form.function name signature).Formed r :=
  ⟨nofun, nofun, nofun⟩

theorem formed_primitive {base : Primitive} {constraints : List Constraint}
    (h : Sorted.Ascending (·.key) constraints) : (Form.primitive base constraints).Formed r :=
  ⟨nofun, nofun, fun heq => by cases heq; exact h⟩

theorem ascending_leaves (r : Registry) (ty : Ty) : Sorted.Ascending id (r.leaves ty) := by
  rw [← leaves_variants]
  exact (r.variants ty).ascending_leaves

theorem exists_mem_leaves (r : Registry) (ty : Ty) : ∃ leaf, leaf ∈ r.leaves ty := by
  rw [← leaves_variants]
  exact (r.variants ty).exists_mem_leaves

theorem Coherent.refine (h : r.Coherent) {ty made : Ty} {refinement : Refinement}
    (hrefine : r.refine ty refinement = .ok (made, r')) : r'.Coherent := by
  unfold Registry.refine at hrefine
  split at hrefine
  · cases hrefine; exact h
  split at hrefine
  · rename_i base constraints hget
    have hordered := Sorted.ascending_foldl refinement.constraints ((h.formed ty).ordered hget)
    have hformed : (Form.primitive base _).Formed r := formed_primitive hordered
    have hr := h.intern (by simp [Form.parts]) hformed
    rw [Except.ok.inj hrefine] at hr
    exact hr
  · contradiction

theorem Coherent.union (h : r.Coherent) {a b : Ty} (hasLeft : r.Has a) (hasRight : r.Has b) :
    (r.union a b).2.Coherent := by
  unfold Registry.union
  split
  · exact h
  rename_i hseveral
  refine h.internAs _ (by simp [Form.parts, ty_variants, hasLeft, hasRight]) ⟨?_, ?_, nofun⟩
  · intro name left right heq
    cases heq
    simp [ty_variants]
  · intro name left right heq
    cases heq
    rw [leaves_variants, leaves_variants]
    obtain ⟨leaf, hleaf⟩ := r.exists_mem_leaves a
    have hordered := Variants.ascending_unite (r.leaves a) (r.ascending_leaves b)
    exact hordered.exists_ne (Variants.mem_unite.mpr (.inl hleaf)) hseveral

theorem Coherent.functionType (h : r.Coherent) {signature : List Ty} (has : ∀ ty ∈ signature, r.Has ty) :
    (r.functionType signature).2.Coherent :=
  h.intern has (formed_function _ signature)

/-- The type of a signature has it for its form. -/
theorem Coherent.get_functionType (h : r.Coherent) {signature : List Ty} (has : ∀ ty ∈ signature, r.Has ty) :
    ∃ name, (r.functionType signature).2.get (r.functionType signature).1 = .function name signature := by
  have hfind : (r.functionType signature).2.find? (.function signature) = some (r.functionType signature).1 :=
    find?_internAs rfl r
  have hkey := ((h.functionType has).found.mp hfind).2
  cases hget : (r.functionType signature).2.get (r.functionType signature).1 with
  | function name own =>
    rw [hget] at hkey
    cases hkey
    exact ⟨name, rfl⟩
  | primitive | sum | product | failure => rw [hget] at hkey; contradiction

theorem Coherent.internProduct (h : r.Coherent) (name : String) {fields : List (String × Ty)}
    (has : ∀ field ∈ fields, r.Has field.2) : (r.intern (.product name fields)).2.Coherent := by
  refine h.intern ?_ (formed_product name fields)
  intro part hpart
  obtain ⟨field, hfield, rfl⟩ := List.mem_map.mp hpart
  exact has field hfield

theorem Coherent.product (h : r.Coherent) {fields : List (String × Ty)} {made : Ty}
    (has : ∀ field ∈ fields, r.Has field.2) (hproduct : r.product fields = .ok (made, r')) :
    r'.Coherent := by
  unfold Registry.product at hproduct
  split at hproduct
  · contradiction
  · change (made, r').2.Coherent
    rw [← Except.ok.inj hproduct]
    exact h.internProduct _ has

theorem Coherent.declare (h : r.Coherent) {name : String} {ty : Ty} (hdeclare : r.declare name ty = .ok r') :
    r'.Coherent := by
  unfold Registry.declare at hdeclare
  split at hdeclare
  · contradiction
  · cases hdeclare
    exact h.of_forms rfl

theorem Coherent.namedProduct (h : r.Coherent) {name : String} {fields : List (String × Ty)} {made : Ty}
    (has : ∀ field ∈ fields, r.Has field.2) (hproduct : r.namedProduct name fields = .ok (made, r')) :
    r'.Coherent := by
  unfold Registry.namedProduct at hproduct
  split at hproduct
  · contradiction
  · split at hproduct
    · cases hproduct; exact h
    · contradiction
  · have hr := h.internProduct name has
    cases hdeclare : (r.intern (.product name fields)).2.declare name (r.intern (.product name fields)).1 with
    | error failure => simp only [hdeclare] at hproduct; contradiction
    | ok declared =>
      simp only [hdeclare] at hproduct
      cases hproduct
      exact hr.declare hdeclare

/-- Every step keeps a registry coherent. -/
theorem Coherent.step (h : r.Coherent) (hstep : r.Step r') : r'.Coherent := by
  cases hstep with
  | refine has hrefine => exact h.refine hrefine
  | union hasLeft hasRight => exact h.union hasLeft hasRight
  | product has hproduct => exact h.product has hproduct
  | namedProduct has hproduct => exact h.namedProduct has hproduct
  | functionType has => exact h.functionType has
  | declare has hdeclare => exact h.declare hdeclare

theorem found_of_nodup (hkeys : (r.forms.map (·.key)).Nodup) {key : Form.Key} {ty : Ty} :
    r.find? key = some ty ↔ r.Has ty ∧ (r.get ty).key = key := by
  have hget (has : ty.index < r.forms.length) : r.get ty = r.forms[ty.index] := List.getD_eq_getElem _ _ has
  rw [find?_eq, Option.map_eq_some_iff]
  constructor
  · rintro ⟨i, hi, rfl⟩
    obtain ⟨has, hkey, -⟩ := List.findIdx?_eq_some_iff_getElem.mp hi
    refine ⟨has, ?_⟩
    rw [hget has]
    simpa using hkey
  · rintro ⟨has, hkey⟩
    rw [hget has] at hkey
    refine ⟨ty.index, List.findIdx?_eq_some_iff_getElem.mpr ⟨has, by simpa using hkey, ?_⟩, rfl⟩
    intro j hj hother
    have hdiffer := List.pairwise_iff_getElem.mp (List.pairwise_map.mp hkeys) j ty.index
      (Nat.lt_trans hj has) has hj
    exact hdiffer ((of_decide_eq_true hother).trans hkey.symm)

theorem get_initial (ty : Ty) : initial.get ty = .primitive .int [] ∨ initial.get ty = .primitive .str [] ∨
    initial.get ty = .failure :=
  match ty with
  | ⟨0⟩ => .inl rfl
  | ⟨1⟩ => .inr (.inl rfl)
  | ⟨2⟩ => .inr (.inr rfl)
  | ⟨_ + 3⟩ => .inr (.inr rfl)

theorem coherent_initial : initial.Coherent where
  found := found_of_nodup (by decide)
  earlier := by
    intro ty part hpart
    rcases get_initial ty with hget | hget | hget <;> rw [hget] at hpart <;> contradiction
  formed := by
    intro ty
    rcases get_initial ty with hget | hget | hget <;> rw [hget]
    · exact formed_primitive List.Pairwise.nil
    · exact formed_primitive List.Pairwise.nil
    · exact ⟨nofun, nofun, nofun⟩
  int := rfl
  str := rfl
  error := ⟨by decide, rfl⟩

theorem Coherent.leads (h : r.Coherent) (hleads : r.Leads r') : r'.Coherent := by
  induction hleads with
  | refl => exact h
  | tail _ hstep ih => exact ih.step hstep

/-- Every registry there can be is coherent. -/
theorem Reachable.coherent (h : r.Reachable) : r.Coherent := coherent_initial.leads h

end Registry
end TypeAlgebra
