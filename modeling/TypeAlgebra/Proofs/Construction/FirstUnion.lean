import TypeAlgebra.Proofs.Construction.Matching
import TypeAlgebra.Proofs.Registry.Texts

/-! Which operand of a union a text is read by. The first union with some leaves registers the sum, and its operands
are the sides of the sum for good. Every other union with the same leaves is that sum, whatever its own operands and
their order. -/
namespace TypeAlgebra
namespace Registry

variable {r r' : Registry} {a b c d ty : Ty} {text : String}

/-- No type has the leaves of both types and no other leaves. -/
def NoUnion (r : Registry) (a b : Ty) : Prop :=
  ∀ ty, r.Has ty → ¬ ∀ leaf, leaf ∈ r.leaves ty ↔ leaf ∈ r.leaves a ∨ leaf ∈ r.leaves b

/-- The type was registered by the union of the two, in this order, when no type had its leaves. -/
inductive FirstUnion : Registry → Ty → Ty → Ty → Prop
  | intro {r₀ r : Registry} {a b : Ty} (reachable : r₀.Reachable) (hasLeft : r₀.Has a) (hasRight : r₀.Has b)
      (new : r₀.NoUnion a b) (later : (r₀.union a b).2.Leads r) : FirstUnion r (r₀.union a b).1 a b

section Union

variable (h : r.Coherent)
include h

/-- A union that is not there is not found by its leaves. -/
theorem Coherent.find?_of_noUnion (hnew : r.NoUnion a b) :
    r.find? (.sum (Variants.unite (r.leaves a) (r.leaves b))) = none := by
  cases hfind : r.find? (.sum (Variants.unite (r.leaves a) (r.leaves b))) with
  | none => rfl
  | some ty =>
    obtain ⟨has, hkey⟩ := h.found.mp hfind
    refine absurd (fun leaf => ?_) (hnew ty has)
    rw [leaves_of_key hkey, Variants.mem_unite]

/-- What is not found by its leaves, and is no single leaf, is a union that is not there. -/
theorem Coherent.noUnion_of_find? (hfind : r.find? (.sum (Variants.unite (r.leaves a) (r.leaves b))) = none)
    (hseveral : ∀ leaf, Variants.unite (r.leaves a) (r.leaves b) ≠ [leaf]) : r.NoUnion a b := by
  intro ty has hleaves
  have heq : r.leaves ty = Variants.unite (r.leaves a) (r.leaves b) := by
    refine (r.ascending_leaves ty).ext (Variants.ascending_unite _ (r.ascending_leaves b)) fun leaf => ?_
    rw [hleaves, Variants.mem_unite]
  rcases r.sum_or_single ty with hkey | hsingle
  · rw [heq] at hkey
    rw [h.found.mpr ⟨has, hkey⟩] at hfind
    contradiction
  · exact hseveral ty (heq.symm.trans hsingle)

/-- A union that was not there is registered with its operands as its sides. -/
theorem Coherent.union_of_noUnion (hasLeft : r.Has a) (hnew : r.NoUnion a b) : ∃ name,
    (r.union a b).2.get (r.union a b).1 = .sum name (r.variants a) (r.variants b) := by
  have hfind := h.find?_of_noUnion hnew
  unfold Registry.union
  split
  · rename_i only honly
    -- a single leaf is the left type itself
    refine absurd (fun leaf => ?_) (hnew a hasLeft)
    have hmem (x : Ty) : x ∈ r.leaves a ∨ x ∈ r.leaves b ↔ x = only := by
      rw [← Variants.mem_unite, honly, List.mem_singleton]
    obtain ⟨first, hfirst⟩ := r.exists_mem_leaves a
    rw [hmem]
    refine ⟨fun hleaf => (hmem leaf).mp (.inl hleaf), ?_⟩
    rintro rfl
    rwa [← (hmem first).mp (.inl hfirst)]
  · unfold Registry.internAs
    rw [hfind]
    exact ⟨_, by rw [get_grow rfl, if_pos rfl]⟩

end Union

/-- A union with the leaves of a type that is there registers nothing. -/
theorem Coherent.union_registered (h : r.Coherent) (hold : ¬ r.NoUnion a b) : (r.union a b).2 = r := by
  unfold Registry.union
  split
  · rfl
  · rename_i hseveral
    unfold Registry.internAs
    cases hfind : r.find? (.sum (Variants.unite (r.leaves a) (r.leaves b))) with
    | some ty => rfl
    | none => exact absurd (h.noUnion_of_find? hfind hseveral) hold

/-- Of the types that are there after a form was asked for, one may be new, and has that form. -/
theorem has_or_get_internAs {key : Form.Key} {form : Form} (hkey : key = form.key)
    (has : (r.internAs key form hkey).2.Has ty) : r.Has ty ∨
      r.find? key = none ∧ ty = (r.internAs key form hkey).1 ∧ (r.internAs key form hkey).2.get ty = form := by
  unfold internAs at has ⊢
  cases hfind : r.find? key with
  | some found =>
    rw [hfind] at has
    exact .inl has
  | none =>
    rw [hfind] at has
    rcases (has_grow rfl).mp has with has | hlast
    · exact .inl has
    · refine .inr ⟨rfl, ?_, ?_⟩
      · rw [← hlast]
      · rw [get_grow rfl, if_pos hlast]

theorem forms_declare {name : String} (h : r.declare name ty = .ok r') : r'.forms = r.forms := by
  unfold declare at h
  split at h
  · contradiction
  · cases h
    rfl

/-- No sum comes of asking for a form that is none. -/
theorem has_of_intern {form : Form} (hform : ∀ name left right, form ≠ .sum name left right)
    (hforms : r'.forms = (r.intern form).2.forms) {name : String} {left right : Variants}
    (hsum : r'.get ty = .sum name left right) : r.Has ty := by
  have hget : (r.intern form).2.get ty = .sum name left right := by rw [← hsum, get, get, hforms]
  have has : (r.intern form).2.Has ty := has_of_get (by rw [hget]; exact Form.noConfusion)
  rcases has_or_get_internAs rfl has with has | ⟨-, -, hlast⟩
  · exact has
  · exact absurd (hlast.symm.trans hget) (hform name left right)

/-- A sum that an operation registers is the first union with its leaves. -/
theorem Step.firstUnion (h : r.Coherent) (hstep : r.Step r') (hold : ¬ r.Has ty) {name : String}
    {left right : Variants} (hsum : r'.get ty = .sum name left right) :
    ∃ a b, r.Has a ∧ r.Has b ∧ r.NoUnion a b ∧ r' = (r.union a b).2 ∧ ty = (r.union a b).1 := by
  have has : r'.Has ty := has_of_get (by rw [hsum]; exact Form.noConfusion)
  cases hstep with
  | refine hasBase hrefine =>
    unfold Registry.refine at hrefine
    split at hrefine
    · cases hrefine
      exact absurd has hold
    split at hrefine
    · obtain ⟨-, rfl⟩ := Prod.mk.inj (Except.ok.inj hrefine)
      exact absurd (has_of_intern (by simp) rfl hsum) hold
    · contradiction
  | @union a b hasLeft hasRight =>
    refine ⟨a, b, hasLeft, hasRight, ?_⟩
    unfold Registry.union at has ⊢
    split at has
    · exact absurd has hold
    · rename_i hseveral
      rcases has_or_get_internAs _ has with has | ⟨hfind, hlast, -⟩
      · exact absurd has hold
      · exact ⟨h.noUnion_of_find? hfind hseveral, rfl, hlast⟩
  | product hasFields hproduct =>
    unfold Registry.product at hproduct
    split at hproduct
    · contradiction
    · obtain ⟨-, rfl⟩ := Prod.mk.inj (Except.ok.inj hproduct)
      exact absurd (has_of_intern (by simp) rfl hsum) hold
  | namedProduct hasFields hproduct =>
    unfold Registry.namedProduct at hproduct
    split at hproduct
    · contradiction
    · split at hproduct
      · cases hproduct
        exact absurd has hold
      · contradiction
    · dsimp only at hproduct
      generalize hdeclare : Registry.declare _ _ _ = declared at hproduct
      cases declared with
      | error failure => contradiction
      | ok made =>
        obtain ⟨-, rfl⟩ := Prod.mk.inj (Except.ok.inj hproduct)
        exact absurd (has_of_intern (by simp) (forms_declare hdeclare) hsum) hold
  | functionType hasParts => exact absurd (has_of_intern (by simp) rfl hsum) hold
  | declare hasNamed hdeclare =>
    rw [Has, forms_declare hdeclare] at has
    exact absurd has hold

/-- What has the leaves of two types, some only of the second, is a sum. -/
theorem exists_sum_of_leaves (hleaves : ∀ leaf, leaf ∈ r.leaves ty ↔ leaf ∈ r.leaves a ∨ leaf ∈ r.leaves b)
    (hmore : ¬ ∀ leaf ∈ r.leaves b, leaf ∈ r.leaves a) : ∃ name left right, r.get ty = .sum name left right := by
  by_contra hsingle
  simp only [not_exists] at hsingle
  simp only [leaves_of_single hsingle, List.mem_singleton] at hleaves
  obtain ⟨first, hfirst⟩ := r.exists_mem_leaves a
  refine hmore fun leaf hleaf => ?_
  rwa [(hleaves leaf).mpr (.inr hleaf), ← (hleaves first).mpr (.inl hfirst)]

/-- Every sum was registered by the first union with its leaves. -/
theorem Reachable.exists_firstUnion (h : r.Reachable) {name : String} {left right : Variants}
    (hsum : r.get ty = .sum name left right) : ∃ a b, r.FirstUnion ty a b := by
  induction h with
  | refl => rcases get_initial ty with hget | hget | hget <;> rw [hget] at hsum <;> contradiction
  | @tail r r' before step ih =>
    by_cases has : r.Has ty
    · rw [step.extends.get has] at hsum
      obtain ⟨a, b, hfirst⟩ := ih hsum
      obtain ⟨reachable, hasLeft, hasRight, new, later⟩ := hfirst
      exact ⟨_, _, .intro reachable hasLeft hasRight new (later.tail step)⟩
    · have hr : r.Reachable := before
      obtain ⟨a, b, hasLeft, hasRight, hnew, rfl, rfl⟩ := step.firstUnion hr.coherent has hsum
      exact ⟨a, b, .intro hr hasLeft hasRight hnew .refl⟩

namespace FirstUnion

theorem later (h : r.FirstUnion ty a b) (leads : r.Leads r') : r'.FirstUnion ty a b := by
  obtain ⟨reachable, hasLeft, hasRight, new, later⟩ := h
  exact .intro reachable hasLeft hasRight new (later.trans leads)

/-- The operands are the sides of the sum, for good. -/
theorem get (h : r.FirstUnion ty a b) : ∃ name left right,
    r.get ty = .sum name left right ∧ left.ty = a ∧ right.ty = b := by
  obtain @⟨r₀, _, _, _, reachable, hasLeft, hasRight, new, later⟩ := h
  obtain ⟨name, hget⟩ := reachable.coherent.union_of_noUnion hasLeft new
  refine ⟨name, r₀.variants a, r₀.variants b, ?_, ty_variants _ _, ty_variants _ _⟩
  rw [later.extends.get (has_of_get (by rw [hget]; exact Form.noConfusion)), hget]

theorem unique (h : r.FirstUnion ty a b) (h' : r.FirstUnion ty c d) : a = c ∧ b = d := by
  obtain ⟨name, left, right, hget, rfl, rfl⟩ := h.get
  obtain ⟨name', left', right', hget', rfl, rfl⟩ := h'.get
  cases hget.symm.trans hget'
  exact ⟨rfl, rfl⟩

/-- Its leaves are those of its operands. -/
theorem leaves (h : r.FirstUnion ty a b) (hr : r.Coherent) (leaf : Ty) :
    leaf ∈ r.leaves ty ↔ leaf ∈ r.leaves a ∨ leaf ∈ r.leaves b := by
  obtain ⟨name, left, right, hsum, rfl, rfl⟩ := h.get
  exact hr.mem_leaves_of_sum hsum

end FirstUnion

end Registry

/-- Of a text values of both types are made, with one leaf. -/
def Session.SameLeaf (s : Session) (a b : Ty) (text : String) : Prop :=
  ∃ value other, s.make a (.text text) = .ok value ∧ value.isFailure = false ∧
    s.make b (.text text) = .ok other ∧ other.isFailure = false ∧ value.leaf = other.leaf

/-- A text is one of the left type where that accepts it, and else one of the right type. -/
structure Session.LeftFirst (s : Session) (ty a b : Ty) : Prop where
  left : ∀ {text}, s.registry.accepts a text → s.SameLeaf ty a text
  right : ∀ {text}, s.registry.accepts a text = false → s.registry.accepts b text → s.SameLeaf ty b text

/-- Which operand texts are read by, in the unions of types of the session, from then on. -/
structure UnionReads (s : Session) : Prop where
  /-- A union that is new tries its left operand first. So does one that has no leaves but those of its left operand,
  as it is this operand. -/
  written : ∀ {a b} {t : Session}, s.registry.Has a → s.registry.Has b →
    s.registry.NoUnion a b ∨ (∀ leaf ∈ s.registry.leaves b, leaf ∈ s.registry.leaves a) →
      (s.registry.union a b).2.Leads t.registry → t.LeftFirst (s.registry.union a b).1 a b
  /-- Every other union is one that was written before, and registers nothing. -/
  before : ∀ {a b}, s.registry.Has a → s.registry.Has b → ¬ s.registry.NoUnion a b →
    (¬ ∀ leaf ∈ s.registry.leaves b, leaf ∈ s.registry.leaves a) →
      ∃ ty c d, s.union a b = (.ok ty, s) ∧ s.registry.FirstUnion ty c d ∧
        ∀ leaf, leaf ∈ s.registry.leaves c ∨ leaf ∈ s.registry.leaves d ↔
          leaf ∈ s.registry.leaves a ∨ leaf ∈ s.registry.leaves b
  /-- It tries the left one first of the operands with which it was first written. -/
  first : ∀ {ty c d} {t : Session}, s.registry.FirstUnion ty c d → s.registry.Leads t.registry → t.LeftFirst ty c d
  only : ∀ {ty a b c d}, s.registry.FirstUnion ty a b → s.registry.FirstUnion ty c d → a = c ∧ b = d

namespace Session

variable {s t : Session} {a b c d ty : Ty} {text : String}

theorem sameLeaf_self (h : s.registry.accepts a text) : s.SameLeaf a a text := by
  obtain ⟨value, hvalue⟩ := s.registry.read?_of_accepts h
  obtain ⟨hmade, hfailure⟩ := make_of_read? hvalue
  exact ⟨value, value, hmade, hfailure, hmade, hfailure, rfl⟩

/-- The operands with which a union was first written are its sides, and of these the left one is tried first. -/
theorem leftFirst_of_firstUnion (hs : s.registry.Coherent) (h : s.registry.FirstUnion ty a b) : s.LeftFirst ty a b := by
  obtain ⟨name, left, right, hsum, rfl, rfl⟩ := h.get
  constructor
  · intro text haccepts
    obtain ⟨inner, hinner⟩ := s.registry.read?_of_accepts haccepts
    obtain ⟨hmade, hfailure⟩ := make_of_read? hinner
    have hread := hs.read?_of_sum hsum text
    rw [hinner] at hread
    exact ⟨_, inner, (make_of_read? hread).1, rfl, hmade, hfailure, rfl⟩
  · intro text hother haccepts
    obtain ⟨inner, hinner⟩ := s.registry.read?_of_accepts haccepts
    obtain ⟨hmade, hfailure⟩ := make_of_read? hinner
    have hread := hs.read?_of_sum hsum text
    rw [Registry.read?_of_not_accepts hother, hinner] at hread
    exact ⟨_, inner, (make_of_read? hread).1, rfl, hmade, hfailure, rfl⟩

/-- What the right type accepts the left one accepts, if it has the leaves. -/
theorem leftFirst_of_absorbed (hleaves : ∀ leaf ∈ s.registry.leaves b, leaf ∈ s.registry.leaves a) :
    s.LeftFirst a a b := by
  refine ⟨sameLeaf_self, fun {text} hother haccepts => ?_⟩
  have hleft : s.registry.accepts a text := by
    rw [Registry.accepts_iff_leaf] at haccepts ⊢
    obtain ⟨leaf, hleaf, haccepts⟩ := haccepts
    exact ⟨leaf, hleaves leaf hleaf, haccepts⟩
  rw [hother] at hleft
  contradiction

/-- A union reads texts by the operands with which it was first written in the session, the left one first. -/
theorem unionReads (h : s.registry.Reachable) : UnionReads s where
  written := by
    intro a b t hasLeft hasRight hnew hleads
    have hbefore : s.registry.Leads t.registry := (Registry.leads_union hasLeft hasRight).trans hleads
    have ht : t.registry.Reachable := h.trans hbefore
    rcases hnew with hnew | hleaves
    · exact leftFirst_of_firstUnion ht.coherent (.intro h hasLeft hasRight hnew hleads)
    · rw [Registry.union_eq_left h hasLeft hasRight hleaves]
      refine leftFirst_of_absorbed ?_
      rwa [hbefore.extends.leaves hasLeft, hbefore.extends.leaves hasRight]
  before := by
    intro a b hasLeft hasRight hold hmore
    have hsame := h.coherent.union_registered hold
    obtain ⟨has, hleaves⟩ := h.coherent.leaves_union hasLeft hasRight
    rw [hsame] at has hleaves
    obtain ⟨name, left, right, hsum⟩ := Registry.exists_sum_of_leaves hleaves hmore
    obtain ⟨c, d, hfirst⟩ := h.exists_firstUnion hsum
    refine ⟨_, c, d, ?_, hfirst, fun leaf => ?_⟩
    · rw [union, adopt, hsame]
    · rw [← hleaves, hfirst.leaves h.coherent]
  first hfirst hleads := by
    have ht : _ := h.trans hleads
    exact leftFirst_of_firstUnion (Registry.Reachable.coherent ht) (hfirst.later hleads)
  only := Registry.FirstUnion.unique

/-- A session in which the sum of texts and numbers was written, in this order. -/
def textsFirst : Session := ((Session.start .raise '$').union .str .int).2

theorem reachable_textsFirst : textsFirst.registry.Reachable :=
  .single (.union (a := .str) (b := .int) (by decide) (by decide))

/-- The sum of numbers and texts is then the one that is there, and a text that writes a number stays a text. -/
theorem unionReads_textsFirst : textsFirst.registry.Reachable ∧ textsFirst.union .int .str = (.ok ⟨3⟩, textsFirst) ∧
    textsFirst.registry.FirstUnion ⟨3⟩ .str .int ∧ textsFirst.SameLeaf ⟨3⟩ .str "5" := by
  have hreads := unionReads reachable_textsFirst
  have hleaves (leaf : Ty) : leaf ∈ textsFirst.registry.leaves ⟨3⟩ ↔ leaf = .int ∨ leaf = .str := by
    rw [show textsFirst.registry.leaves ⟨3⟩ = [.int, .str] from rfl]
    simp
  have hold : ¬ textsFirst.registry.NoUnion .int .str := by
    refine fun hnew => hnew ⟨3⟩ (by decide) fun leaf => ?_
    rw [hleaves]
    exact or_congr List.mem_singleton.symm List.mem_singleton.symm
  obtain ⟨ty, c, d, hunion, hfirst, -⟩ := hreads.before (a := .int) (b := .str) (by decide) (by decide) hold (by decide)
  obtain rfl : ⟨3⟩ = ty := Except.ok.inj (Prod.mk.inj hunion).1
  obtain ⟨name, left, right, hsum, rfl, rfl⟩ := hfirst.get
  cases (show textsFirst.registry.get ⟨3⟩ = .sum "str | int" (.leaf .str) (.leaf .int) from rfl).symm.trans hsum
  exact ⟨reachable_textsFirst, hunion, hfirst, (hreads.first hfirst .refl).left rfl⟩

/-- So not every union tries the operand first that is on its left. -/
theorem not_left_first : ¬ ∀ (s : Session) (a b : Ty) (text : String), s.registry.Reachable → s.registry.Has a →
    s.registry.Has b → s.registry.accepts a text → (s.union a b).2.SameLeaf (s.registry.union a b).1 a text := by
  intro h
  obtain ⟨value, other, hvalue, -, hother, -, hleaf⟩ :=
    h textsFirst .int .str "5" reachable_textsFirst (by decide) (by decide) (by decide +kernel)
  have hsum : (textsFirst.union .int .str).2.make ⟨3⟩ (.text "5") = .ok (.injection ⟨3⟩ .inl (.str .str "5")) := rfl
  have hnumber : (textsFirst.union .int .str).2.make .int (.text "5") = .ok (.int .int 5) := rfl
  cases hsum.symm.trans hvalue
  cases hnumber.symm.trans hother
  contradiction

end Session
end TypeAlgebra
