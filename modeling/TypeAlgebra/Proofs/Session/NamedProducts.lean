import TypeAlgebra.Proofs.Session.Laws

/-! Products that have a name. The table of names and the table of forms agree on them: where forming one succeeds,
its name stands for the product of this name and these fields, and does so for good. A name that stands for anything
else, be it the same fields under another name, is refused, and a refusal leaves the session as it was. -/
namespace TypeAlgebra
namespace Registry

variable {r r' : Registry} {name : String} {fields : List (String × Ty)} {a b ty : Ty}

/-- The name is declared for the type, and the type is the product of this name and these fields, in this order. -/
structure NamedProduct (r : Registry) (name : String) (fields : List (String × Ty)) (ty : Ty) : Prop where
  lookup : r.lookup name = some ty
  get : r.get ty = .product name fields

theorem firstRepeated?_of_nodup {names seen : List String} (h : names.Nodup) (hseen : ∀ name ∈ names, name ∉ seen) :
    firstRepeated? seen names = none := by
  induction names generalizing seen with
  | nil => rfl
  | cons name rest ih =>
    obtain ⟨hfresh, hrest⟩ := List.nodup_cons.mp h
    rw [firstRepeated?, if_neg (hseen name List.mem_cons_self)]
    refine ih hrest fun other hother hmem => ?_
    rcases List.mem_cons.mp hmem with rfl | hmem
    · exact hfresh hother
    · exact hseen other (List.mem_cons_of_mem _ hother) hmem

theorem repeated?_eq_none : repeated? fields = none ↔ (fields.map (·.1)).Nodup := by
  rw [repeated?, Option.map_eq_none_iff]
  exact ⟨fun h => (nodup_of_firstRepeated? h).1, fun h => firstRepeated?_of_nodup h (by simp)⟩

/-- A product is known by all that it is. -/
theorem key_eq_product {form : Form} : form.key = .product name fields ↔ form = .product name fields := by
  cases form <;> simp [Form.key]

theorem Coherent.find?_product (h : r.Coherent) :
    r.find? (.product name fields) = some ty ↔ r.get ty = .product name fields := by
  rw [h.found, key_eq_product]
  exact ⟨And.right, fun hget => ⟨has_of_get (by rw [hget]; exact Form.noConfusion), hget⟩⟩

/-- There is one product at most of a name and fields, whether it was formed under the name or happens to have it. -/
theorem Coherent.eq_of_product (h : r.Coherent) (ha : r.get a = .product name fields)
    (hb : r.get b = .product name fields) : a = b :=
  Option.some.inj ((h.find?_product.mpr ha).symm.trans (h.find?_product.mpr hb))

theorem name_of_product (hget : r.get ty = .product name fields) : r.name ty = name := by
  rw [Registry.name, hget]
  rfl

theorem fields?_of_product (hget : r.get ty = .product name fields) : r.fields? ty = some fields := by
  rw [fields?, hget]
  rfl

namespace NamedProduct

theorem later (h : r.NamedProduct name fields ty) (hr : r.Extends r') : r'.NamedProduct name fields ty where
  lookup := hr.lookup h.lookup
  get := by rw [hr.get (has_of_get (by rw [h.get]; exact Form.noConfusion)), h.get]

/-- A product that has its name is formed under it again, and nothing is registered. -/
theorem again (h : r.NamedProduct name fields ty) (hr : r.Coherent) (hdistinct : (fields.map (·.1)).Nodup) :
    r.namedProduct name fields = .ok (ty, r) := by
  have hfind := hr.find?_product.mpr h.get
  simp [namedProduct, repeated?_eq_none.mpr hdistinct, h.lookup, hfind]

end NamedProduct

/-- A name that is free can be given to the product of any fields with different names. -/
theorem exists_namedProduct (hdistinct : (fields.map (·.1)).Nodup) (hfree : r.lookup name = none) :
    ∃ ty r', r.namedProduct name fields = .ok (ty, r') := by
  have hstill : (r.intern (.product name fields)).2.lookup name = none := by
    rw [lookup_intern, hfree]
  simp [namedProduct, repeated?_eq_none.mpr hdistinct, hfree, declare, hstill, Except.map]

/-- Where a named product is formed, the fields have different names, the name was free or had been given to this
product, and now it has been. -/
theorem Coherent.namedProduct_cases (h : r.Coherent) (has : ∀ field ∈ fields, r.Has field.2)
    (hformed : r.namedProduct name fields = .ok (ty, r')) : (fields.map (·.1)).Nodup ∧
      (r.lookup name = none ∨ r.NamedProduct name fields ty) ∧ r'.NamedProduct name fields ty := by
  unfold Registry.namedProduct at hformed
  split at hformed
  · contradiction
  · rename_i bound hrepeated hbound
    -- The name is taken, so that the product must be what it stands for.
    split at hformed
    · rename_i hfind
      cases hformed
      have hnamed : r.NamedProduct name fields ty := ⟨hbound, h.find?_product.mp hfind⟩
      exact ⟨repeated?_eq_none.mp hrepeated, .inr hnamed, hnamed⟩
    · contradiction
  · rename_i hrepeated hfree
    -- The name is free. The product may be there nevertheless, under a name that it was given otherwise.
    have hinterned : (r.intern (.product name fields)).2.get (r.intern (.product name fields)).1 = _ :=
      (h.internProduct name has).find?_product.mp (find?_internAs rfl r)
    cases hdeclare : (r.intern (.product name fields)).2.declare name (r.intern (.product name fields)).1 with
    | error failure => simp only [hdeclare] at hformed; contradiction
    | ok declared =>
      simp only [hdeclare] at hformed
      cases hformed
      refine ⟨repeated?_eq_none.mp hrepeated, .inl hfree, (lookup_declare hdeclare).trans (if_pos rfl), ?_⟩
      rw [(declare_extends hdeclare).get (has_of_get (by rw [hinterned]; exact Form.noConfusion)), hinterned]

/-- With different field names only the name can be refused. -/
theorem eq_of_namedProduct_error (hdistinct : (fields.map (·.1)).Nodup) {failure : Failure}
    (hrefused : r.namedProduct name fields = .error failure) : failure = .alreadyDefined name := by
  cases hlookup : r.lookup name with
  | none =>
    obtain ⟨made, r', hmade⟩ := exists_namedProduct hdistinct hlookup
    rw [hmade] at hrefused
    contradiction
  | some bound =>
    simp only [namedProduct, repeated?_eq_none.mpr hdistinct, hlookup] at hrefused
    split at hrefused
    · contradiction
    · cases hrefused
      rfl

end Registry

namespace History

/-- What comes of forming a product of the fields under the name. -/
structure NamingLaws (h : History) (name : String) (fields : List (String × Ty)) : Prop where
  /-- The fields must have different names, and the name must be free or that of this very product. -/
  formed : (∃ ty s, h.session.namedProduct name fields = (.ok ty, s)) ↔ (fields.map (·.1)).Nodup ∧
    (h.session.registry.lookup name = none ∨ ∃ ty, h.session.registry.NamedProduct name fields ty)
  /-- From then on the name stands for the product. Forming it again gives it, and registers nothing. -/
  stands : ∀ {ty s h'}, h.session.namedProduct name fields = (.ok ty, s) → Run (h.into s) h' →
    h'.session.registry.lookup name = some ty ∧ h'.session.registry.fields? ty = some fields ∧
      h'.session.registry.name ty = name ∧ h'.session.namedProduct name fields = (.ok ty, h'.session)
  /-- No other type has this name and these fields, however it was formed and whenever. -/
  only : ∀ {ty s h' other}, h.session.namedProduct name fields = (.ok ty, s) → Run (h.into s) h' →
    h'.session.registry.name other = name → h'.session.registry.fields? other = some fields → other = ty
  /-- What is refused leaves nothing behind. -/
  refused : ∀ {failure s}, h.session.namedProduct name fields = (.error failure, s) →
    s = h.session ∧ ((fields.map (·.1)).Nodup → failure = .alreadyDefined name)

variable {policy : Policy} {marker : Char} {h h' : History} {name : String} {fields : List (String × Ty)} {ty : Ty}
  {s t : Session}

section Adopt

variable {α : Type} {result : Except Failure (α × Registry)}

/-- What is adopted is the result, and the registry with it. -/
theorem adopt_eq_ok {a : α} :
    s.adopt result = (.ok a, t) ↔ ∃ r, result = .ok (a, r) ∧ t = { s with registry := r } := by
  cases result with
  | error failure => simp [Session.adopt]
  | ok made =>
    obtain ⟨b, r⟩ := made
    simp [Session.adopt, eq_comm]

theorem adopt_eq_error {failure : Failure} : s.adopt result = (.error failure, t) ↔ result = .error failure ∧ t = s := by
  cases result with
  | error own => simp [Session.adopt, eq_comm]
  | ok made =>
    obtain ⟨b, r⟩ := made
    simp [Session.adopt]

end Adopt

/-- A product that was formed under its name has it in every later history. -/
theorem Sound.namedProduct (hs : h.Sound) (has : ∀ field ∈ fields, h.session.registry.Has field.2)
    (hformed : h.session.namedProduct name fields = (.ok ty, s)) (later : Run (h.into s) h') :
    h'.Sound ∧ h'.session.registry.NamedProduct name fields ty := by
  obtain ⟨r, hproduct, rfl⟩ := adopt_eq_ok.mp hformed
  obtain ⟨-, -, hnamed⟩ := hs.coherent.namedProduct_cases has hproduct
  have hgrows := later.grows (hs.into (.single (.namedProduct has hproduct)))
  exact ⟨hgrows.sound, hnamed.later hgrows.leads.extends⟩

/-- A name and its product belong to each other for good, whatever was declared or formed before and since. -/
theorem Run.naming_laws (run : Run (start policy marker) h) (has : ∀ field ∈ fields, h.session.registry.Has field.2) :
    h.NamingLaws name fields where
  formed := by
    have hr := run.sound.coherent
    constructor
    · rintro ⟨ty, s, hformed⟩
      obtain ⟨r, hproduct, -⟩ := adopt_eq_ok.mp hformed
      obtain ⟨hdistinct, hbefore, -⟩ := hr.namedProduct_cases has hproduct
      exact ⟨hdistinct, hbefore.imp_right fun hnamed => ⟨ty, hnamed⟩⟩
    · rintro ⟨hdistinct, hfree | ⟨ty, hnamed⟩⟩
      · obtain ⟨ty, r, hproduct⟩ := Registry.exists_namedProduct hdistinct hfree
        exact ⟨ty, _, adopt_eq_ok.mpr ⟨r, hproduct, rfl⟩⟩
      · exact ⟨ty, _, adopt_eq_ok.mpr ⟨_, hnamed.again hr hdistinct, rfl⟩⟩
  stands := by
    intro ty s h' hformed later
    obtain ⟨hs, hnamed⟩ := run.sound.namedProduct has hformed later
    obtain ⟨r, hproduct, -⟩ := adopt_eq_ok.mp hformed
    obtain ⟨hdistinct, -, -⟩ := run.sound.coherent.namedProduct_cases has hproduct
    exact ⟨hnamed.lookup, Registry.fields?_of_product hnamed.get, Registry.name_of_product hnamed.get,
      adopt_eq_ok.mpr ⟨_, hnamed.again hs.coherent hdistinct, rfl⟩⟩
  only := by
    intro ty s h' other hformed later hname hfields
    obtain ⟨hs, hnamed⟩ := run.sound.namedProduct has hformed later
    have hget := Registry.get_of_fields? hfields
    rw [hname] at hget
    exact hs.coherent.eq_of_product hget hnamed.get
  refused := by
    intro failure s hrefused
    obtain ⟨hproduct, rfl⟩ := adopt_eq_error.mp hrefused
    exact ⟨rfl, fun hdistinct => Registry.eq_of_namedProduct_error hdistinct hproduct⟩

def noteFields : List (String × Ty) := [("page", .int), ("text", .str)]

/-- A product without a name of its own, called by its field types. -/
def noting : History := (start .raise '$').into ((start .raise '$').session.product noteFields).2

/-- The name it is called by is declared for it. -/
def notingNamed : History := noting.into (noting.session.namedProduct "int & str" noteFields).2

/-- It is also declared under a name that is not its own. -/
def notingAlias : History := notingNamed.into (notingNamed.session.declare "note" ⟨3⟩).2

theorem run_noting : Run (start .raise '$') noting := Run.refl.step (.product (by decide))

/-- The product that was there is the named one, and it alone; under its other name it cannot be formed. -/
theorem naming_laws_notes :
    notingAlias.session.namedProduct "int & str" noteFields = (.ok ⟨3⟩, notingAlias.session) ∧
      (∀ other, notingAlias.session.registry.name other = "int & str" →
        notingAlias.session.registry.fields? other = some noteFields → other = ⟨3⟩) ∧
      notingAlias.session.namedProduct "note" noteFields =
        (.error (.alreadyDefined "note"), notingAlias.session) := by
  have formed : noting.session.namedProduct "int & str" noteFields = (.ok ⟨3⟩, notingNamed.session) := rfl
  have declared : Step notingNamed notingAlias := .declare "note" (by decide)
  have laws : noting.NamingLaws "int & str" noteFields := Run.naming_laws run_noting (by decide)
  obtain ⟨-, -, -, again⟩ := laws.stands formed (Run.refl.step declared)
  refine ⟨again, fun other => laws.only formed (Run.refl.step declared), ?_⟩
  have named : Step noting notingNamed := .namedProduct "int & str" (by decide)
  have run : Run (start .raise '$') notingAlias := (run_noting.step named).step declared
  have refused : notingAlias.session.namedProduct "note" noteFields = (.error (.alreadyDefined "note"), _) := rfl
  rw [((Run.naming_laws run (by decide)).refused refused).1] at refused
  exact refused

end History
end TypeAlgebra
