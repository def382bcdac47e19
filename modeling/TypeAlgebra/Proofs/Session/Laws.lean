import TypeAlgebra.Proofs.Session.Run

/-! What holds in every run: values go on fitting their types, a type is known by its key and means the same for
good, and a value belongs to the types that have its leaf, whatever it was viewed as on the way. -/
namespace TypeAlgebra

/-- What a registry is by itself. -/
structure Registry.Lawful (r : Registry) : Prop where
  /-- A type is found by the key of its form, and by no other key. -/
  found : ∀ {key ty}, r.find? key = some ty ↔ r.Has ty ∧ (r.get ty).key = key
  distinct : ∀ {a b}, r.Has a → r.Has b → (r.get a).key = (r.get b).key → a = b
  /-- A form is made of types that were there before it. -/
  earlier : ∀ {ty part}, part ∈ (r.get ty).parts → part.index < ty.index
  /-- A sum is known by its leaves, and these are what its sides lead to. -/
  sum : ∀ {ty name left right}, r.get ty = .sum name left right → (r.get ty).key = .sum (r.leaves ty)
  leaves : ∀ {leaf ty}, leaf ∈ r.leaves ty ↔ r.LeafOf leaf ty
  several : ∀ {ty name left right}, r.get ty = .sum name left right →
    ∃ a ∈ r.leaves ty, ∃ b ∈ r.leaves ty, a ≠ b
  /-- The constraints of a primitive type are in order, each there once. -/
  ordered : ∀ {ty base constraints}, r.get ty = .primitive base constraints →
    Sorted.Ascending (·.key) constraints

/-- Which types a value belongs to, and what it is viewed as there. -/
structure Registry.Membership (r : Registry) (value : Value) : Prop where
  injection : value.isInjection → ∀ {ty}, r.belongs value ty ↔ value.leaf.ty ∈ r.leaves ty
  single : value.isInjection = false → ∀ {ty}, r.belongs value ty ↔ value.ty = ty
  view : ∀ {ty viewed}, r.view ty value = some viewed → viewed.ty = ty ∧ viewed.leaf = value.leaf
  through : ∀ {a b viewed}, r.view a value = some viewed → r.belongs viewed b →
    r.belongs value b ∧ r.view b value = r.view b viewed
  back : value.isInjection → ∀ {a name left right}, r.get a = .sum name left right → r.belongs value a →
    ∃ viewed, r.view a value = some viewed ∧ r.view value.ty viewed = some value

theorem Registry.Coherent.lawful {r : Registry} (h : r.Coherent) : r.Lawful where
  found := h.found
  distinct := h.eq_of_key
  earlier := h.earlier
  sum hsum := by rw [leaves_of_sum hsum, hsum]; rfl
  leaves := h.mem_leaves
  several hsum := by rw [leaves_of_sum hsum]; exact (h.formed _).several hsum
  ordered hprimitive := (h.formed _).ordered hprimitive

theorem Value.Sound.membership {r : Registry} (hr : r.Coherent) {value : Value} (h : value.Sound r) :
    r.Membership value where
  injection hinjection := Registry.belongs_of_injection hr h hinjection
  single hsingle := Registry.belongs_of_single hsingle
  view hview := (Registry.view_sound hr h hview).2
  through := Registry.view_eq_of_view hr h
  back _ _ _ _ _ hsum hbelongs := by
    obtain ⟨viewed, hview⟩ := Registry.belongs_iff_exists.mp hbelongs
    exact ⟨viewed, hview, Registry.view_back hr h hsum hview⟩

namespace History

variable {policy : Policy} {marker : Char} {h h' : History}

theorem Run.sound (run : Run (start policy marker) h) : h.Sound :=
  (run.grows (sound_start policy marker)).sound

/-- The sum of numbers and texts is formed, and the text of a number is read as one of it. -/
theorem run_seven : ∃ h, Run (start .raise '$') h ∧ h.Known (.injection ⟨3⟩ .inl (.int .int 7)) ∧
    h.session.registry = (Registry.initial.union .int .str).2 := by
  have hunion : Step (start .raise '$') _ := .union (a := .int) (b := .str) (by decide) (by decide)
  exact ⟨_, (Run.refl.step hunion).step (.make ⟨3⟩ (.text "7") nofun),
    ⟨_, .inl (List.mem_singleton_self _), .refl⟩, rfl⟩

/-- A value that was made, and each inside it, fits its type from then on; no other has its type and leaf. -/
theorem Run.consistent {value : Value} (run : Run (start policy marker) h) (known : h.Known value)
    (later : Run h h') : value.Fits h'.session.registry ∧
      ∀ other, h'.Known other → other.ty = value.ty → other.leaf = value.leaf → other = value := by
  have hgrows := later.grows run.sound
  have hvalue := (run.sound.known known).extends run.sound.coherent hgrows.leads.extends
  refine ⟨hvalue.fits, fun other hother hty hleaf => ?_⟩
  exact (hgrows.sound.known hother).eq_of_leaf hvalue hty hleaf

theorem consistent_seven : (Value.injection ⟨3⟩ .inl (.int .int 7)).Fits (Registry.initial.union .int .str).2 := by
  obtain ⟨h, run, known, hregistry⟩ := run_seven
  rw [← hregistry]
  exact (Run.consistent run known .refl).1

/-- Types are told apart by their keys and are made of earlier ones, and what is there stays as it is. -/
theorem Run.registry_lawful (run : Run (start policy marker) h) (later : Run h h') :
    h.session.registry.Lawful ∧ h.session.registry.Keeps h'.session.registry :=
  ⟨run.sound.coherent.lawful, (later.grows run.sound).leads.extends.keeps run.sound.coherent⟩

theorem lawful_initial : Registry.initial.Lawful ∧ Registry.initial.Keeps (Registry.initial.union .int .str).2 := by
  obtain ⟨h, run, -, hregistry⟩ := run_seven
  rw [← hregistry]
  exact Run.registry_lawful .refl run

/-- A value belongs to the types that have its leaf, or to its own one if it is no injection. -/
theorem Run.value_membership {value : Value} (run : Run (start policy marker) h) (known : h.Known value) :
    h.session.registry.Membership value :=
  (run.sound.known known).membership run.sound.coherent

theorem membership_seven :
    (Registry.initial.union .int .str).2.Membership (.injection ⟨3⟩ .inl (.int .int 7)) := by
  obtain ⟨h, run, known, hregistry⟩ := run_seven
  rw [← hregistry]
  exact Run.value_membership run known

end History
end TypeAlgebra
