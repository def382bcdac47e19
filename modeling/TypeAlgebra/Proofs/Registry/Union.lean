import TypeAlgebra.Proofs.Registry.Permanence

/-! The union of types as the union of their leaves. A type is told from all others by its leaves, so in what
order and bracketing unions are made makes no difference, nor what else is registered in between. -/
namespace TypeAlgebra.Registry

variable {r r' : Registry}

/-- The type is made of the types by unions, in some order and bracketing, whatever comes in between. -/
inductive UnionOf : Registry → List Ty → Ty → Prop
  | single {r : Registry} {ty : Ty} (reachable : r.Reachable) (has : r.Has ty) : UnionOf r [ty] ty
  | union {r : Registry} {types others : List Ty} {a b : Ty} (left : UnionOf r types a)
      (right : UnionOf r others b) : UnionOf (r.union a b).2 (types ++ others) (r.union a b).1
  | later {r r' : Registry} {types : List Ty} {ty : Ty} (leads : r.Leads r') (h : UnionOf r types ty) :
      UnionOf r' types ty

/-- How unions behave that are made in the registry and in later ones. -/
structure UnionLaws (r : Registry) : Prop where
  leaves : ∀ {a b}, r.Has a → r.Has b → ∀ leaf,
    leaf ∈ (r.union a b).2.leaves (r.union a b).1 ↔ leaf ∈ r.leaves a ∨ leaf ∈ r.leaves b
  eq_iff : ∀ {a b c d r'}, r.Has a → r.Has b → (r.union a b).2.Leads r' → r'.Has c → r'.Has d →
    ((r.union a b).1 = (r'.union c d).1 ↔
      ∀ leaf, leaf ∈ r.leaves a ∨ leaf ∈ r.leaves b ↔ leaf ∈ r'.leaves c ∨ leaf ∈ r'.leaves d)
  comm : ∀ {a b r'}, r.Has a → r.Has b → (r.union a b).2.Leads r' → (r'.union b a).1 = (r.union a b).1
  assoc : ∀ {a b c r₁ r₂ r₃}, r.Has a → r.Has b → r.Has c → (r.union a b).2.Leads r₁ →
    (r₁.union (r.union a b).1 c).2.Leads r₂ → (r₂.union b c).2.Leads r₃ →
      (r₃.union a (r₂.union b c).1).1 = (r₁.union (r.union a b).1 c).1
  self : ∀ {a}, r.Has a → (r.union a a).1 = a
  absorb : ∀ {a b}, r.Has a → r.Has b → (∀ leaf ∈ r.leaves b, leaf ∈ r.leaves a) → (r.union a b).1 = a
  fold : ∀ {types others a b}, r.UnionOf types a → r.UnionOf others b → types.Perm others → a = b
  fold_iff : ∀ {types others a b}, r.UnionOf types a → r.UnionOf others b →
    (a = b ↔ ∀ leaf, (∃ ty ∈ types, leaf ∈ r.leaves ty) ↔ ∃ ty ∈ others, leaf ∈ r.leaves ty)

theorem leaves_of_key {ty : Ty} {leaves : List Ty} (h : (r.get ty).key = .sum leaves) :
    r.leaves ty = leaves := by
  rw [Registry.leaves, ← key_get, h]

/-- What no sum has for a key has one leaf, the type itself. -/
theorem sum_or_single (r : Registry) (ty : Ty) :
    (r.get ty).key = .sum (r.leaves ty) ∨ r.leaves ty = [ty] := by
  rw [Registry.leaves, ← key_get]
  cases (r.get ty).key <;> simp

namespace Coherent

theorem leaves_ne_singleton (h : r.Coherent) {ty leaf : Ty} {leaves : List Ty}
    (hkey : (r.get ty).key = .sum leaves) : leaves ≠ [leaf] := by
  cases hget : r.get ty with
  | sum name left right =>
    rw [hget] at hkey
    obtain ⟨a, ha, b, hb, hne⟩ := (h.formed ty).several hget
    rw [Form.Key.sum.inj hkey] at ha hb
    rintro rfl
    exact hne ((List.mem_singleton.mp ha).trans (List.mem_singleton.mp hb).symm)
  | primitive | product | function | failure => rw [hget] at hkey; contradiction

/-- A type is told from all others by its leaves. -/
theorem eq_of_leaves (h : r.Coherent) {a b : Ty} (hasLeft : r.Has a) (hasRight : r.Has b)
    (hleaves : ∀ leaf, leaf ∈ r.leaves a ↔ leaf ∈ r.leaves b) : a = b := by
  have heq : r.leaves a = r.leaves b := (r.ascending_leaves a).ext (r.ascending_leaves b) hleaves
  rcases r.sum_or_single a with ha | ha <;> rcases r.sum_or_single b with hb | hb
  · exact h.eq_of_key hasLeft hasRight (by rw [ha, hb, heq])
  · exact absurd (heq.trans hb) (h.leaves_ne_singleton ha)
  · exact absurd (heq.symm.trans ha) (h.leaves_ne_singleton hb)
  · rw [ha, hb] at heq
    exact List.singleton_inj.mp heq

/-- The union is registered afterwards, and its leaves are those of both. -/
theorem leaves_union (h : r.Coherent) {a b : Ty} (hasLeft : r.Has a) (hasRight : r.Has b) :
    (r.union a b).2.Has (r.union a b).1 ∧ ∀ leaf, leaf ∈ (r.union a b).2.leaves (r.union a b).1 ↔
      leaf ∈ r.leaves a ∨ leaf ∈ r.leaves b := by
  have hcoherent := h.union hasLeft hasRight
  have hmem (leaf : Ty) : leaf ∈ Variants.unite (r.leaves a) (r.leaves b) ↔
      leaf ∈ r.leaves a ∨ leaf ∈ r.leaves b := Variants.mem_unite
  unfold Registry.union at hcoherent ⊢
  split
  · rename_i only honly
    refine ⟨hasLeft, fun leaf => ?_⟩
    rw [honly] at hmem
    obtain ⟨first, hfirst⟩ := r.exists_mem_leaves a
    have hsame (leaf : Ty) (hleaf : leaf ∈ r.leaves a ∨ leaf ∈ r.leaves b) : leaf = first :=
      (List.mem_singleton.mp ((hmem leaf).mpr hleaf)).trans
        (List.mem_singleton.mp ((hmem first).mpr (.inl hfirst))).symm
    refine ⟨.inl, fun hleaf => ?_⟩
    rw [hsame leaf hleaf]
    exact hfirst
  · rename_i hseveral
    split at hcoherent
    · rename_i only honly
      exact (hseveral only honly).elim
    · have hfound := hcoherent.found.mp (find?_internAs _ r)
      exact ⟨hfound.1, fun leaf => by rw [leaves_of_key hfound.2, hmem]⟩

end Coherent

theorem leads_union {a b : Ty} (hasLeft : r.Has a) (hasRight : r.Has b) : r.Leads (r.union a b).2 :=
  .single (.union hasLeft hasRight)

/-- A type made by unions is registered, and has the leaves of the types it is made of. -/
theorem UnionOf.sound {types : List Ty} {ty : Ty} (h : r.UnionOf types ty) :
    r.Reachable ∧ r.Has ty ∧ (∀ a ∈ types, r.Has a) ∧
      ∀ leaf, leaf ∈ r.leaves ty ↔ ∃ a ∈ types, leaf ∈ r.leaves a := by
  induction h with
  | single reachable has => exact ⟨reachable, has, by simpa, by simp⟩
  | @union r types others a b _ _ ihl ihr =>
    obtain ⟨hreachable, hasLeft, htypes, hleft⟩ := ihl
    obtain ⟨-, hasRight, hothers, hright⟩ := ihr
    have hleads := leads_union hasLeft hasRight
    obtain ⟨has, hleaves⟩ := hreachable.coherent.leaves_union hasLeft hasRight
    have hall : ∀ c ∈ types ++ others, r.Has c := by
      intro c hc
      rcases List.mem_append.mp hc with hc | hc
      · exact htypes c hc
      · exact hothers c hc
    refine ⟨hreachable.trans hleads, has, fun c hc => hleads.extends.has (hall c hc), fun leaf => ?_⟩
    have hkept : (∃ c ∈ types ++ others, leaf ∈ (r.union a b).2.leaves c) ↔
        ∃ c ∈ types ++ others, leaf ∈ r.leaves c :=
      exists_congr fun c => and_congr_right fun hc => by rw [hleads.extends.leaves (hall c hc)]
    rw [hleaves, hkept, hleft, hright]
    simp only [List.mem_append, or_and_right, exists_or]
  | @later r r' types ty leads _ ih =>
    obtain ⟨hreachable, has, htypes, hleaves⟩ := ih
    refine ⟨hreachable.trans leads, leads.extends.has has, fun c hc => leads.extends.has (htypes c hc),
      fun leaf => ?_⟩
    have hkept : (∃ c ∈ types, leaf ∈ r'.leaves c) ↔ ∃ c ∈ types, leaf ∈ r.leaves c :=
      exists_congr fun c => and_congr_right fun hc => by rw [leads.extends.leaves (htypes c hc)]
    rw [leads.extends.leaves has, hkept, hleaves]

/-- Types made by unions are the same if and only if the leaves of what they are made of are. -/
theorem UnionOf.eq_iff {types others : List Ty} {a b : Ty} (h : r.UnionOf types a) (h' : r.UnionOf others b) :
    a = b ↔ ∀ leaf, (∃ ty ∈ types, leaf ∈ r.leaves ty) ↔ ∃ ty ∈ others, leaf ∈ r.leaves ty := by
  obtain ⟨hreachable, hasLeft, -, hleft⟩ := h.sound
  obtain ⟨-, hasRight, -, hright⟩ := h'.sound
  constructor
  · rintro rfl leaf
    rw [← hleft, ← hright]
  · intro hleaves
    refine hreachable.coherent.eq_of_leaves hasLeft hasRight fun leaf => ?_
    rw [hleft, hright, hleaves]

theorem UnionOf.perm {types others : List Ty} {a b : Ty} (h : r.UnionOf types a) (h' : r.UnionOf others b)
    (hperm : types.Perm others) : a = b :=
  (h.eq_iff h').mpr fun leaf => by simp only [hperm.mem_iff]

theorem UnionOf.leads_union {types others : List Ty} {a b : Ty} (h : r.UnionOf types a)
    (h' : r.UnionOf others b) : r.Leads (r.union a b).2 :=
  Registry.leads_union h.sound.2.1 h'.sound.2.1

theorem union_eq_left (h : r.Reachable) {a b : Ty} (hasA : r.Has a) (hasB : r.Has b)
    (hleaves : ∀ leaf ∈ r.leaves b, leaf ∈ r.leaves a) : (r.union a b).1 = a := by
  have ha : r.UnionOf [a] a := .single h hasA
  have hb : r.UnionOf [b] b := .single h hasB
  have hleads := ha.leads_union hb
  refine ((ha.union hb).eq_iff (ha.later hleads)).mpr fun leaf => ?_
  simp only [List.singleton_append, List.mem_cons, List.not_mem_nil, or_false, exists_eq_or_imp,
    exists_eq_left, hleads.extends.leaves hasA, hleads.extends.leaves hasB]
  exact or_iff_left_of_imp (hleaves leaf)

theorem union_eq_iff (h : r.Reachable) {a b c d : Ty} (hasA : r.Has a) (hasB : r.Has b)
    (hleads : (r.union a b).2.Leads r') (hasC : r'.Has c) (hasD : r'.Has d) :
    (r.union a b).1 = (r'.union c d).1 ↔
      ∀ leaf, leaf ∈ r.leaves a ∨ leaf ∈ r.leaves b ↔ leaf ∈ r'.leaves c ∨ leaf ∈ r'.leaves d := by
  have ha : r.UnionOf [a] a := .single h hasA
  have hb : r.UnionOf [b] b := .single h hasB
  have hbefore : r.Leads r' := (ha.leads_union hb).trans hleads
  have hc : r'.UnionOf [c] c := .single (h.trans hbefore) hasC
  have hd : r'.UnionOf [d] d := .single (h.trans hbefore) hasD
  have hafter := hc.leads_union hd
  have hall : r.Leads (r'.union c d).2 := hbefore.trans hafter
  rw [((ha.union hb).later (hleads.trans hafter)).eq_iff (hc.union hd)]
  simp only [List.singleton_append, List.mem_cons, List.not_mem_nil, or_false, exists_eq_or_imp,
    exists_eq_left, hall.extends.leaves hasA, hall.extends.leaves hasB, hafter.extends.leaves hasC,
    hafter.extends.leaves hasD]

theorem union_comm (h : r.Reachable) {a b : Ty} (hasA : r.Has a) (hasB : r.Has b)
    (hleads : (r.union a b).2.Leads r') : (r'.union b a).1 = (r.union a b).1 := by
  have ha : r.UnionOf [a] a := .single h hasA
  have hb : r.UnionOf [b] b := .single h hasB
  have hbefore : r.Leads r' := (ha.leads_union hb).trans hleads
  have hafter := (hb.later hbefore).leads_union (ha.later hbefore)
  exact ((hb.later hbefore).union (ha.later hbefore)).perm ((ha.union hb).later (hleads.trans hafter))
    (.swap a b [])

theorem union_assoc (h : r.Reachable) {a b c : Ty} {r₁ r₂ r₃ : Registry} (hasA : r.Has a) (hasB : r.Has b)
    (hasC : r.Has c) (hleads₁ : (r.union a b).2.Leads r₁)
    (hleads₂ : (r₁.union (r.union a b).1 c).2.Leads r₂) (hleads₃ : (r₂.union b c).2.Leads r₃) :
    (r₃.union a (r₂.union b c).1).1 = (r₁.union (r.union a b).1 c).1 := by
  have ha : r.UnionOf [a] a := .single h hasA
  have hb : r.UnionOf [b] b := .single h hasB
  have hc : r.UnionOf [c] c := .single h hasC
  have hab : r₁.UnionOf [a, b] (r.union a b).1 := .later hleads₁ (ha.union hb)
  have hto₁ : r.Leads r₁ := (ha.leads_union hb).trans hleads₁
  have hleft := hab.union (hc.later hto₁)
  have hto₂ : r.Leads r₂ := (hto₁.trans (hab.leads_union (hc.later hto₁))).trans hleads₂
  have hbc : r₃.UnionOf [b, c] (r₂.union b c).1 := .later hleads₃ ((hb.later hto₂).union (hc.later hto₂))
  have hfrom₂ : r₂.Leads r₃ := ((hb.later hto₂).leads_union (hc.later hto₂)).trans hleads₃
  have ha₃ := ha.later (hto₂.trans hfrom₂)
  have hlast := (hleads₂.trans hfrom₂).trans (ha₃.leads_union hbc)
  exact (ha₃.union hbc).perm (hleft.later hlast) (.refl _)

theorem Reachable.unionLaws (h : r.Reachable) : r.UnionLaws where
  leaves hasA hasB := (h.coherent.leaves_union hasA hasB).2
  eq_iff := union_eq_iff h
  comm := union_comm h
  assoc := union_assoc h
  self hasA := union_eq_left h hasA hasA fun _ => id
  absorb := union_eq_left h
  fold h h' := h.perm h'
  fold_iff h h' := h.eq_iff h'

/-- The union of texts and numbers is the one of numbers and texts, which was there before. -/
theorem union_str_int : initial.Reachable ∧ (initial.union .int .str).1 = ⟨3⟩ ∧
    ((initial.union .int .str).2.union .str .int).1 = ⟨3⟩ :=
  ⟨.refl, rfl, (Reachable.unionLaws .refl).comm (by decide) (by decide) .refl⟩

end TypeAlgebra.Registry
