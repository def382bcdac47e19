import TypeAlgebra.Proofs.Registry.Coherent

/-! What was issued by a registry means the same in every later one. The leaves of a type are those that the
sides of sums lead to, so they were there before the type. -/
namespace TypeAlgebra.Registry

variable {r r' : Registry}

/-- The leaf is the type itself, or is reached from it through the sides of sums. -/
inductive LeafOf (r : Registry) (leaf : Ty) : Ty → Prop
  | self (single : ∀ name left right, r.get leaf ≠ .sum name left right) : LeafOf r leaf leaf
  | left {ty : Ty} {name : String} {left right : Variants} (sum : r.get ty = .sum name left right)
      (h : LeafOf r leaf left.ty) : LeafOf r leaf ty
  | right {ty : Ty} {name : String} {left right : Variants} (sum : r.get ty = .sum name left right)
      (h : LeafOf r leaf right.ty) : LeafOf r leaf ty

/-- The first registry's answers about its own types and names are those of the second. -/
structure Keeps (r r' : Registry) : Prop where
  forms : r.forms <+: r'.forms
  lookup : ∀ {name ty}, r.lookup name = some ty → r'.lookup name = some ty
  get : ∀ {ty}, r.Has ty → r'.get ty = r.get ty
  name : ∀ {ty}, r.Has ty → r'.name ty = r.name ty
  leaves : ∀ {ty}, r.Has ty → r'.leaves ty = r.leaves ty
  fields : ∀ {ty}, r.Has ty → r'.fields? ty = r.fields? ty
  signature : ∀ {ty}, r.Has ty → r'.signature? ty = r.signature? ty
  accepts : ∀ {ty} text, r.Has ty → r'.accepts ty text = r.accepts ty text
  view : ∀ {ty} value, r.Has ty → r'.view ty value = r.view ty value

theorem variants_of_sum {ty : Ty} {name : String} {left right : Variants}
    (h : r.get ty = .sum name left right) : r.variants ty = .node ty left right := by
  rw [variants, h]

theorem leaves_of_sum {ty : Ty} {name : String} {left right : Variants}
    (h : r.get ty = .sum name left right) : r.leaves ty = Variants.unite left.leaves right.leaves := by
  rw [← leaves_variants, variants_of_sum h]
  rfl

theorem leaves_of_single {ty : Ty} (h : ∀ name left right, r.get ty ≠ .sum name left right) :
    r.leaves ty = [ty] := by
  rw [← leaves_variants, variants]
  split
  · rename_i heq
    exact absurd heq (h _ _ _)
  · rfl

theorem get_of_variants {ty own : Ty} {left right : Variants} (h : r.variants ty = .node own left right) :
    own = ty ∧ ∃ name, r.get ty = .sum name left right := by
  unfold variants at h
  split at h
  · rename_i heq
    cases h
    exact ⟨rfl, _, heq⟩
  · contradiction

/-- The sides of a tree in the registry are trees in it too. -/
theorem Coherent.sides (h : r.Coherent) {ty : Ty} {name : String} {left right : Variants}
    (hsum : r.get ty = .sum name left right) : r.variants left.ty = left ∧ r.variants right.ty = right :=
  (h.formed ty).sides hsum

/-- The leaves of a sum are those of its sides. -/
theorem Coherent.mem_leaves_of_sum (h : r.Coherent) {ty leaf : Ty} {name : String} {left right : Variants}
    (hsum : r.get ty = .sum name left right) :
    leaf ∈ r.leaves ty ↔ leaf ∈ r.leaves left.ty ∨ leaf ∈ r.leaves right.ty := by
  obtain ⟨hleft, hright⟩ := h.sides hsum
  rw [leaves_of_sum hsum, Variants.mem_unite, ← leaves_variants, ← leaves_variants, hleft, hright]

theorem LeafOf.mem_leaves (h : r.Coherent) {leaf ty : Ty} (hleaf : r.LeafOf leaf ty) : leaf ∈ r.leaves ty := by
  induction hleaf with
  | self single =>
    rw [leaves_of_single single]
    exact List.mem_singleton_self leaf
  | left sum _ ih => exact (h.mem_leaves_of_sum sum).mpr (.inl ih)
  | right sum _ ih => exact (h.mem_leaves_of_sum sum).mpr (.inr ih)

theorem Coherent.leafOf_of_mem (h : r.Coherent) {leaf : Ty} {v : Variants} (hv : r.variants v.ty = v)
    (hleaf : leaf ∈ v.leaves) : r.LeafOf leaf v.ty := by
  induction v with
  | leaf ty =>
    obtain rfl := List.mem_singleton.mp hleaf
    refine .self fun name left right hsum => ?_
    rw [Variants.ty, variants_of_sum hsum] at hv
    contradiction
  | node ty left right ihl ihr =>
    obtain ⟨-, name, hsum⟩ := get_of_variants hv
    obtain ⟨hleft, hright⟩ := h.sides hsum
    rcases Variants.mem_unite.mp hleaf with hleaf | hleaf
    · exact .left hsum (ihl hleft hleaf)
    · exact .right hsum (ihr hright hleaf)

/-- The leaves that a sum is known by are those its sides lead to. -/
theorem Coherent.mem_leaves (h : r.Coherent) {leaf ty : Ty} : leaf ∈ r.leaves ty ↔ r.LeafOf leaf ty := by
  refine ⟨fun hleaf => ?_, LeafOf.mem_leaves h⟩
  have hv : r.variants (r.variants ty).ty = r.variants ty := by rw [ty_variants]
  have hfound := h.leafOf_of_mem hv (by rwa [leaves_variants])
  rwa [ty_variants] at hfound

theorem Coherent.has_leaf (h : r.Coherent) {leaf ty : Ty} (has : r.Has ty) (hleaf : leaf ∈ r.leaves ty) :
    r.Has leaf := by
  have hfound := h.mem_leaves.mp hleaf
  clear hleaf
  induction hfound with
  | self => exact has
  | @left ty name left right sum _ ih =>
    have hpart : left.ty ∈ (r.get ty).parts := by rw [sum]; simp [Form.parts]
    exact ih (h.has_part hpart)
  | @right ty name left right sum _ ih =>
    have hpart : right.ty ∈ (r.get ty).parts := by rw [sum]; simp [Form.parts]
    exact ih (h.has_part hpart)

namespace Extends

theorem has (h : r.Extends r') {ty : Ty} (has : r.Has ty) : r'.Has ty := by
  obtain ⟨added, hforms, -⟩ := h.forms
  unfold Has at has ⊢
  rw [hforms, List.length_append]
  omega

/-- What is found by a key is found by it for good. -/
theorem find? (h : r.Extends r') {key : Form.Key} {ty : Ty} (hfind : r.find? key = some ty) :
    r'.find? key = some ty := by
  obtain ⟨added, hforms, -⟩ := h.forms
  rw [find?_eq] at hfind ⊢
  obtain ⟨i, hi, rfl⟩ := Option.map_eq_some_iff.mp hfind
  rw [hforms, List.findIdx?_append, hi]
  rfl

theorem variants (h : r.Extends r') {ty : Ty} (has : r.Has ty) : r'.variants ty = r.variants ty := by
  rw [Registry.variants, h.get has, Registry.variants]

theorem leaves (h : r.Extends r') {ty : Ty} (has : r.Has ty) : r'.leaves ty = r.leaves ty := by
  rw [← leaves_variants, h.variants has, leaves_variants]

theorem lookup (h : r.Extends r') {name : String} {ty : Ty} (hname : r.lookup name = some ty) :
    r'.lookup name = some ty := by
  obtain ⟨added, hnames⟩ := h.names
  unfold Registry.lookup at hname ⊢
  rw [hnames, List.lookup_append, hname]
  rfl

theorem acceptsAny (h : r.Extends r') {v : Variants} (has : ∀ leaf ∈ v.leaves, r.Has leaf) (text : String) :
    r'.acceptsAny text v = r.acceptsAny text v := by
  induction v with
  | leaf ty =>
    simp only [Registry.acceptsAny, acceptsLeaf]
    rw [h.get (has ty (List.mem_singleton_self ty))]
  | node ty left right ihl ihr =>
    simp only [Registry.acceptsAny]
    rw [ihl fun leaf hleaf => has leaf (Variants.mem_unite.mpr (.inl hleaf)),
      ihr fun leaf hleaf => has leaf (Variants.mem_unite.mpr (.inr hleaf))]

theorem accepts (h : r.Extends r') (hr : r.Coherent) {ty : Ty} (has : r.Has ty) (text : String) :
    r'.accepts ty text = r.accepts ty text := by
  unfold Registry.accepts
  rw [h.variants has]
  refine h.acceptsAny (fun leaf hleaf => hr.has_leaf has ?_) text
  rwa [← leaves_variants]

theorem view (h : r.Extends r') {ty : Ty} (has : r.Has ty) : ∀ value, r'.view ty value = r.view ty value
  | .injection own side inner => by
    rw [Registry.view, Registry.view, h.view has inner, h.variants has]
  | .int .. | .str .. | .record .. | .closure .. | .failure .. => rfl

theorem keeps (h : r.Extends r') (hr : r.Coherent) : r.Keeps r' where
  forms := by
    obtain ⟨added, hforms, -⟩ := h.forms
    exact ⟨added, hforms.symm⟩
  lookup := h.lookup
  get := h.get
  name has := by rw [Registry.name, h.get has, Registry.name]
  leaves := h.leaves
  fields has := by rw [Registry.fields?, h.get has, Registry.fields?]
  signature has := by rw [signature?, h.get has, signature?]
  accepts text has := h.accepts hr has text
  view value has := h.view has value

end Extends
end TypeAlgebra.Registry
