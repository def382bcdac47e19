import Mathlib.Tactic.Common
import Mathlib.Logic.Relation
import Mathlib.Data.List.GetD
import TypeAlgebra.Formation

/-! How a registry grows while types are formed. Forms and names are only added at the end, so that what is
there keeps its meaning, and no product ever has two fields of one name. -/
namespace TypeAlgebra

/-- What the operations see to before they register a form. -/
structure Form.Sound (form : Form) : Prop where
  distinct : ∀ fields, form.fields? = some fields → (fields.map (·.1)).Nodup

namespace Registry

def Has (r : Registry) (ty : Ty) : Prop := ty.index < r.forms.length

instance (r : Registry) (ty : Ty) : Decidable (r.Has ty) := inferInstanceAs (Decidable (_ < _))

/-- One operation that forms or names a type, out of types that are there. -/
inductive Step (r : Registry) : Registry → Prop
  | refine {ty : Ty} {refinement : Refinement} {made : Ty} {r' : Registry} (has : r.Has ty)
      (h : r.refine ty refinement = .ok (made, r')) : Step r r'
  | union {a b : Ty} (hasLeft : r.Has a) (hasRight : r.Has b) : Step r (r.union a b).2
  | product {fields : List (String × Ty)} {made : Ty} {r' : Registry}
      (has : ∀ field ∈ fields, r.Has field.2) (h : r.product fields = .ok (made, r')) : Step r r'
  | namedProduct {name : String} {fields : List (String × Ty)} {made : Ty} {r' : Registry}
      (has : ∀ field ∈ fields, r.Has field.2) (h : r.namedProduct name fields = .ok (made, r')) :
      Step r r'
  | functionType {signature : List Ty} (has : ∀ ty ∈ signature, r.Has ty) :
      Step r (r.functionType signature).2
  | declare {name : String} {ty : Ty} {r' : Registry} (has : r.Has ty)
      (h : r.declare name ty = .ok r') : Step r r'

/-- Any number of operations lead from the one registry to the other. A session has no other way to change its
registry (`History.Run.grows`). -/
def Leads : Registry → Registry → Prop := Relation.ReflTransGen Step

/-- The registries there can be. -/
def Reachable (r : Registry) : Prop := initial.Leads r

/-- The second registry is the first with sound forms and with names added at the end. -/
structure Extends (r r' : Registry) : Prop where
  forms : ∃ added : List Form, r'.forms = r.forms ++ added ∧ ∀ form ∈ added, form.Sound
  names : ∃ added, r'.names = r.names ++ added

theorem Extends.refl (r : Registry) : r.Extends r := ⟨⟨[], by simp, by simp⟩, ⟨[], by simp⟩⟩

theorem Extends.trans {r r' r'' : Registry} (h : r.Extends r') (h' : r'.Extends r'') :
    r.Extends r'' := by
  obtain ⟨⟨forms, hforms, hsound⟩, ⟨names, hnames⟩⟩ := h
  obtain ⟨⟨forms', hforms', hsound'⟩, ⟨names', hnames'⟩⟩ := h'
  refine ⟨⟨forms ++ forms', by rw [hforms', hforms, List.append_assoc], ?_⟩,
    ⟨names ++ names', by rw [hnames', hnames, List.append_assoc]⟩⟩
  intro form hform
  rcases List.mem_append.mp hform with hform | hform
  · exact hsound form hform
  · exact hsound' form hform

theorem internAs_extends (r : Registry) {key : Form.Key} {form : Form} (h : key = form.key)
    (hs : form.Sound) : r.Extends (r.internAs key form h).2 := by
  unfold internAs
  cases r.find? key with
  | some ty => exact .refl r
  | none => exact ⟨⟨[form], rfl, by simpa using hs⟩, ⟨[], by simp⟩⟩

theorem intern_extends {r r' : Registry} {form : Form} {ty : Ty} (h : r.intern form = (ty, r'))
    (hs : form.Sound) : r.Extends r' := by
  have hi := r.internAs_extends rfl hs
  unfold intern at h
  rwa [h] at hi

/-- Forming a type declares no name. -/
theorem names_internAs (r : Registry) {key : Form.Key} {form : Form} (hkey : key = form.key) :
    (r.internAs key form hkey).2.names = r.names := by
  unfold internAs
  split <;> rfl

/-- A name that is free can still be declared behind a form. -/
theorem lookup_intern (r : Registry) (form : Form) (name : String) : (r.intern form).2.lookup name = r.lookup name := by
  rw [lookup, intern, names_internAs, lookup]

/-- Declaring a name binds it, and no other. -/
theorem lookup_declare {r r' : Registry} {name other : String} {ty : Ty} (hdeclare : r.declare name ty = .ok r') :
    r'.lookup other = if other = name then some ty else r.lookup other := by
  unfold declare at hdeclare
  split at hdeclare
  · contradiction
  · rename_i hfree
    cases hdeclare
    rw [lookup, List.lookup_append, ← lookup]
    split
    · rename_i heq
      subst heq
      simp [hfree]
    · rename_i hne
      simp [List.lookup_cons, beq_eq_false_iff_ne.mpr hne]

theorem declare_extends {r r' : Registry} {name : String} {ty : Ty} (h : r.declare name ty = .ok r') :
    r.Extends r' := by
  unfold declare at h
  cases hl : r.lookup name with
  | some bound => rw [hl] at h; contradiction
  | none =>
    rw [hl] at h
    cases h
    exact ⟨⟨[], by simp, by simp⟩, ⟨[(name, ty)], rfl⟩⟩

/-- A form without fields is sound. -/
theorem sound_of_fields? {form : Form} (h : form.fields? = none) : form.Sound :=
  ⟨fun fields hf => by rw [h] at hf; contradiction⟩

theorem nodup_of_firstRepeated? {names seen : List String} (h : firstRepeated? seen names = none) :
    names.Nodup ∧ ∀ name ∈ names, name ∉ seen := by
  induction names generalizing seen with
  | nil => simp
  | cons name rest ih =>
    simp only [firstRepeated?] at h
    split at h
    · contradiction
    · rename_i hname
      obtain ⟨hrest, hseen⟩ := ih h
      have hfresh : name ∉ rest := fun hmem => hseen name hmem List.mem_cons_self
      refine ⟨List.nodup_cons.mpr ⟨hfresh, hrest⟩, ?_⟩
      intro other hother
      rcases List.mem_cons.mp hother with rfl | hother
      · exact hname
      · exact fun hmem => hseen other hother (List.mem_cons_of_mem _ hmem)

theorem sound_of_repeated? {name : String} {fields : List (String × Ty)} (h : repeated? fields = none) :
    (Form.product name fields).Sound := by
  refine ⟨fun fields' hf => ?_⟩
  cases hf
  exact (nodup_of_firstRepeated? (Option.map_eq_none_iff.mp h)).1

theorem union_extends (r : Registry) (a b : Ty) : r.Extends (r.union a b).2 := by
  unfold union
  split
  · exact .refl r
  · exact r.internAs_extends _ (sound_of_fields? rfl)

theorem refine_extends {r r' : Registry} {ty made : Ty} {refinement : Refinement}
    (h : r.refine ty refinement = .ok (made, r')) : r.Extends r' := by
  unfold refine at h
  split at h
  · cases h; exact .refl r
  · split at h
    · exact intern_extends (Except.ok.inj h) (sound_of_fields? rfl)
    · contradiction

theorem product_extends {r r' : Registry} {fields : List (String × Ty)} {made : Ty}
    (h : r.product fields = .ok (made, r')) : r.Extends r' := by
  unfold product at h
  split at h
  · contradiction
  · rename_i hrep
    exact intern_extends (Except.ok.inj h) (sound_of_repeated? hrep)

theorem namedProduct_extends {r r' : Registry} {name : String} {fields : List (String × Ty)} {made : Ty}
    (h : r.namedProduct name fields = .ok (made, r')) : r.Extends r' := by
  unfold namedProduct at h
  split at h
  · contradiction
  · split at h
    · cases h; exact .refl r
    · contradiction
  · rename_i hrep _
    have hform : r.Extends (r.intern (.product name fields)).2 :=
      intern_extends rfl (sound_of_repeated? hrep)
    cases hd : (r.intern (.product name fields)).2.declare name (r.intern (.product name fields)).1 with
    | error failure => simp only [hd] at h; contradiction
    | ok declared =>
      simp only [hd] at h
      cases h
      exact hform.trans (declare_extends hd)

theorem Step.extends {r r' : Registry} (h : r.Step r') : r.Extends r' := by
  cases h with
  | refine has h => exact refine_extends h
  | union => exact r.union_extends _ _
  | product has h => exact product_extends h
  | namedProduct has h => exact namedProduct_extends h
  | functionType => exact intern_extends rfl (sound_of_fields? rfl)
  | declare has h => exact declare_extends h

/-- Whatever operations lead from a registry to another, the other extends it. -/
theorem Leads.extends {r r' : Registry} (h : r.Leads r') : r.Extends r' := by
  induction h with
  | refl => exact .refl r
  | tail _ hstep ih => exact ih.trans hstep.extends

/-- A form that was found stays what it is. -/
theorem Extends.get {r r' : Registry} (h : r.Extends r') {ty : Ty} (has : r.Has ty) :
    r'.get ty = r.get ty := by
  obtain ⟨added, hforms, -⟩ := h.forms
  have has : ty.index < r.forms.length := has
  unfold Registry.get
  rw [hforms, List.getD_append _ _ _ _ has]

/-- What the default form has not belongs to a type that is there. -/
theorem has_of_fields? {r : Registry} {ty : Ty} {fields : List (String × Ty)}
    (h : r.fields? ty = some fields) : r.Has ty := by
  by_contra hn
  have hn : r.forms.length ≤ ty.index := Nat.le_of_not_lt hn
  have hget : r.get ty = .failure := List.getD_eq_default _ _ hn
  rw [fields?, hget] at h
  contradiction

/-- Only products have fields. -/
theorem get_of_fields? {r : Registry} {ty : Ty} {fields : List (String × Ty)}
    (h : r.fields? ty = some fields) : r.get ty = .product (r.name ty) fields := by
  unfold fields? at h
  unfold Registry.name
  cases hget : r.get ty with
  | product name own =>
    rw [hget] at h
    cases h
    rfl
  | primitive | sum | function | failure => rw [hget] at h; contradiction

theorem Extends.fields? {r r' : Registry} (h : r.Extends r') {ty : Ty} {fields : List (String × Ty)}
    (hf : r.fields? ty = some fields) : r'.fields? ty = some fields := by
  rw [Registry.fields?, h.get (has_of_fields? hf)]
  exact hf

/-- In every registry there can be, the fields of a product have different names. -/
theorem Reachable.distinct {r : Registry} (h : r.Reachable) {ty : Ty} {fields : List (String × Ty)}
    (hf : r.fields? ty = some fields) : (fields.map (·.1)).Nodup := by
  obtain ⟨added, hforms, hsound⟩ := h.extends.forms
  have has : ty.index < r.forms.length := has_of_fields? hf
  have hget : r.get ty = r.forms[ty.index] := List.getD_eq_getElem _ _ has
  have hall : ∀ form ∈ r.forms, form.Sound := by
    intro form hform
    rw [hforms] at hform
    rcases List.mem_append.mp hform with hform | hform
    · simp only [initial, List.mem_cons, List.not_mem_nil, or_false] at hform
      rcases hform with rfl | rfl | rfl <;> exact sound_of_fields? rfl
    · exact hsound form hform
  refine (hall _ (List.getElem_mem has)).distinct fields ?_
  rw [← hget]
  exact hf

end Registry
end TypeAlgebra
