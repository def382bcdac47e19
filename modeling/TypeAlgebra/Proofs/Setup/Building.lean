import TypeAlgebra.Proofs.Setup.Meaning

/-! Building one declared type out of types that are there: narrowing a base by refinements, and uniting members.
What is built stands for what the declarations say, if what it is built of does. -/
namespace TypeAlgebra

namespace Registry

variable {r r' : Registry} {ty made : Ty} {base : Primitive} {keys : Set Constraint.Key}

/-- All constraints come with the library. -/
def Plain (r : Registry) : Prop := ∀ ty, ∀ c ∈ (r.get ty).constraints, c.BuiltIn

theorem plain_initial : initial.Plain := by
  intro ty c hc
  rcases get_initial ty with hget | hget | hget <;> rw [hget] at hc <;> contradiction

theorem Plain.of_forms (h : r.Plain) (hforms : r'.forms = r.forms) : r'.Plain := by
  intro ty
  rw [get, hforms]
  exact h ty

theorem Plain.internAs (h : r.Plain) {key : Form.Key} {form : Form} (hkey : key = form.key)
    (hform : ∀ c ∈ form.constraints, c.BuiltIn) : (r.internAs key form hkey).2.Plain := by
  unfold Registry.internAs
  split
  · exact h
  · intro ty c hc
    rw [get_grow rfl] at hc
    split at hc
    · exact hform c hc
    · exact h ty c hc

theorem Plain.union (h : r.Plain) (a b : Ty) : (r.union a b).2.Plain := by
  unfold Registry.union
  split
  · exact h
  · exact h.internAs _ (by simp [Form.constraints])

theorem Plain.refine (h : r.Plain) {refinement : Refinement} (hbuiltIn : ∀ c ∈ refinement.constraints, c.BuiltIn)
    (hrefine : r.refine ty refinement = .ok (made, r')) : r'.Plain := by
  unfold Registry.refine at hrefine
  split at hrefine
  · cases hrefine
    exact h
  split at hrefine
  · rename_i base constraints hget
    have hmerged : ∀ c ∈ (Form.primitive base (refinement.constraints.foldl
        (fun all c => Sorted.insert (·.key) c all) constraints)).constraints, c.BuiltIn := by
      intro c hc
      rcases Sorted.mem_of_mem_foldl _ hc with hold | hnew
      · exact h ty c (by rwa [hget])
      · exact hbuiltIn c hnew
    obtain rfl := congrArg Prod.snd (Except.ok.inj hrefine)
    exact h.internAs rfl hmerged
  · contradiction

theorem names_union (a b : Ty) : (r.union a b).2.names = r.names := by
  unfold Registry.union
  split
  · rfl
  · exact r.names_internAs _

theorem names_refine {refinement : Refinement} (hrefine : r.refine ty refinement = .ok (made, r')) :
    r'.names = r.names := by
  unfold Registry.refine at hrefine
  split at hrefine
  · cases hrefine
    rfl
  split at hrefine
  · obtain rfl := congrArg Prod.snd (Except.ok.inj hrefine)
    exact r.names_internAs rfl
  · contradiction

/-- Built-in constraints can be told apart, so that refining adds what the refinement asks for. -/
theorem Plain.keysTell (h : r.Plain) {refinement : Refinement}
    (hbuiltIn : ∀ c ∈ refinement.constraints, c.BuiltIn) : r.KeysTell refinement := by
  refine keysTell_of_builtIn ?_
  rintro p (⟨ty, hp⟩ | hp)
  · exact h ty _ hp
  · exact hbuiltIn _ (Refinement.mem_constraints.mpr (.inl ⟨p, hp, rfl⟩))

/-- A union narrows a primitive type where both sides are this one type. -/
theorem Reachable.union_narrows (h : r.Reachable) {a b : Ty} (hasLeft : r.Has a) (hasRight : r.Has b) :
    (r.union a b).2.Narrows (r.union a b).1 base keys ↔ r.Narrows a base keys ∧ r.Narrows b base keys := by
  have hleads := leads_union hasLeft hasRight
  have hcoherent := h.coherent.leads hleads
  obtain ⟨has, hleaves⟩ := h.coherent.leaves_union hasLeft hasRight
  constructor
  · intro hmade
    obtain ⟨constraints, hget, hkeys⟩ := hmade
    have hsingle : (r.union a b).2.leaves (r.union a b).1 = [(r.union a b).1] :=
      leaves_of_single (by simp [hget])
    have hsame (c : Ty) (hasC : r.Has c) (hc : ∀ leaf ∈ r.leaves c, leaf = (r.union a b).1) :
        r.Narrows c base keys := by
      have heq : c = (r.union a b).1 := by
        refine hcoherent.eq_of_leaves (hleads.extends.has hasC) has fun leaf => ?_
        rw [hleads.extends.leaves hasC, hsingle, List.mem_singleton]
        refine ⟨hc leaf, ?_⟩
        rintro rfl
        obtain ⟨first, hfirst⟩ := r.exists_mem_leaves c
        rwa [← hc first hfirst]
      exact ⟨constraints, by rw [← hleads.extends.get hasC, heq, hget], hkeys⟩
    simp only [hsingle, List.mem_singleton] at hleaves
    exact ⟨hsame a hasLeft fun leaf hleaf => (hleaves leaf).mpr (.inl hleaf),
      hsame b hasRight fun leaf hleaf => (hleaves leaf).mpr (.inr hleaf)⟩
  · rintro ⟨ha, hb⟩
    obtain rfl : a = b := (ha.eq_iff h.coherent hb).mpr ⟨rfl, rfl⟩
    rw [union_eq_left h hasLeft hasLeft fun _ => id]
    exact ha.extends hleads.extends

end Registry

namespace Setup

variable {r r' : Registry} {ty made : Ty} {base : Primitive} {keys : Set Constraint.Key} {refinement : Refinement}
  {refinements : List Refinement}

/-- A refinement asks for nothing, or is one of a primitive type, or fails. -/
theorem refine_cases (r : Registry) (ty : Ty) (refinement : Refinement) :
    (refinement.constraints = [] ∧ r.refine ty refinement = .ok (ty, r)) ∨
      (∃ base keys, r.Narrows ty base keys) ∨
        ∃ expected got, r.refine ty refinement = .error (.invalidArgument expected got) := by
  unfold Registry.refine
  split
  · rename_i hnil
    exact .inl ⟨hnil, rfl⟩
  · split
    · rename_i base constraints hget
      exact .inr (.inl ⟨base, _, constraints, hget, rfl⟩)
    · exact .inr (.inr ⟨_, _, rfl⟩)

theorem refineAll_cons (hrefine : r.refine ty refinement = .ok (made, r')) :
    refineAll r ty (refinement :: refinements) = refineAll r' made refinements := by
  rw [refineAll, hrefine]

/-- Refinements that ask for nothing give the type back, whatever type it is. -/
theorem refineAll_of_nil (h : ∀ refinement ∈ refinements, refinement.constraints = []) :
    refineAll r ty refinements = .ok (ty, r) := by
  induction refinements with
  | nil => rfl
  | cons refinement rest ih =>
    rw [List.forall_mem_cons] at h
    rw [refineAll_cons (by rw [Registry.refine, h.1])]
    exact ih h.2

/-- What is refined by a constraint is a primitive type, or refining fails. -/
theorem refineAll_cases (r : Registry) (ty : Ty) (refinements : List Refinement) :
    ((∀ refinement ∈ refinements, refinement.constraints = []) ∧ refineAll r ty refinements = .ok (ty, r)) ∨
      (∃ base keys, r.Narrows ty base keys) ∨
        ∃ expected got, refineAll r ty refinements = .error (.failed (.invalidArgument expected got)) := by
  induction refinements with
  | nil => exact .inl ⟨by simp, rfl⟩
  | cons refinement rest ih =>
    rcases refine_cases r ty refinement with ⟨hnil, hrefine⟩ | hnarrows | ⟨expected, got, herror⟩
    · rw [refineAll_cons hrefine, List.forall_mem_cons]
      exact ih.imp_left fun ⟨hrest, hall⟩ => ⟨⟨hnil, hrest⟩, hall⟩
    · exact .inr (.inl hnarrows)
    · exact .inr (.inr ⟨expected, got, by rw [refineAll, herror]⟩)

/-- A primitive type can be refined by all refinements in turn. -/
theorem refineAll_narrows (h : r.Coherent) (hplain : r.Plain) (hty : r.Narrows ty base keys)
    (hbuiltIn : ∀ refinement ∈ refinements, ∀ c ∈ refinement.constraints, c.BuiltIn) :
    ∃ made r', refineAll r ty refinements = .ok (made, r') ∧ r.Leads r' ∧ r'.Plain ∧ r'.names = r.names ∧
      r'.Narrows made base (keys ∪ Refinement.allKeys refinements) ∧
      ∀ text, r'.accepts made text ↔ r.accepts ty text ∧ ∀ refinement ∈ refinements, refinement.Admits text := by
  induction refinements generalizing r ty keys with
  | nil => exact ⟨ty, r, rfl, .refl, hplain, rfl, by rwa [Refinement.allKeys_nil, Set.union_empty], by simp⟩
  | cons refinement rest ih =>
    rw [List.forall_mem_cons] at hbuiltIn
    obtain ⟨first, r₁, hrefine, hfirst⟩ := hty.refine h refinement
    obtain ⟨constraints, hget, -⟩ := id hty
    obtain ⟨first', r₁', hrefine', htexts⟩ := h.accepts_refine hget (hplain.keysTell hbuiltIn.1)
    rw [hrefine] at hrefine'
    cases hrefine'
    obtain ⟨made, r', hrest, hleads, hplain', hnames, hmade, haccepts⟩ :=
      ih (h.refine hrefine) (hplain.refine hbuiltIn.1 hrefine) hfirst hbuiltIn.2
    refine ⟨made, r', by rw [refineAll_cons hrefine, hrest],
      (Registry.leads_refine hty.has hrefine).trans hleads, hplain',
      hnames.trans (Registry.names_refine hrefine), ?_, fun text => ?_⟩
    · rwa [Refinement.allKeys_cons, ← Set.union_assoc]
    · rw [haccepts, htexts, List.forall_mem_cons, and_assoc]

end Setup
end TypeAlgebra
