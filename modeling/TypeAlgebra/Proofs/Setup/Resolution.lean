import TypeAlgebra.Proofs.Setup.Building

/-! Resolving names. A name that is bound stands for what the declarations give it, and the names being built are
still free, so that declaring one never finds it taken. Where the declarations can be built, no name is met again
while it is being built. -/
namespace TypeAlgebra.Setup

variable {types : Declarations} {resolving : List String} {r r' : Registry}

/-- The type is the union of what the declarations give the names. -/
structure Unites (types : Declarations) (r : Registry) (names : List String) (ty : Ty) : Prop where
  has : r.Has ty
  texts : ∀ text, r.accepts ty text ↔ ∃ name ∈ names, types.Accepts text name
  narrows : ∀ {base keys}, r.Narrows ty base keys ↔ ∀ name ∈ names, types.Narrows name base keys
  grounded : ∀ name ∈ names, types.Grounded name

/-- What is bound in a registry stands for what the declarations give it. -/
structure Faithful (types : Declarations) (r : Registry) : Prop where
  reachable : r.Reachable
  plain : r.Plain
  builtIn : ∀ {name ty}, Registry.initial.lookup name = some ty → r.lookup name = some ty
  stands : ∀ {name ty}, r.lookup name = some ty → Unites types r [name] ty

/-- What building types makes of a registry. The names being built are not bound meanwhile. -/
structure Grows (types : Declarations) (resolving : List String) (r r' : Registry) : Prop where
  leads : r.Leads r'
  faithful : Faithful types r'
  free : ∀ name ∈ resolving, r.lookup name = none → r'.lookup name = none

/-- What is built is such that this holds. It is a flaw only where nothing is sure, and never that a name is
taken. -/
def Builds {α : Type} (types : Declarations) (resolving : List String) (r : Registry) (sure : Prop)
    (P : α → Registry → Prop) : Built α → Prop
  | .ok (made, r') => Grows types resolving r r' ∧ P made r'
  | .error flaw => ¬ sure ∧ ∀ name, flaw ≠ .failed (.alreadyDefined name)

/-- Names are resolved to what they are bound to afterwards, those that are sure without fail. -/
def Resolves (types : Declarations) (resolving : List String) (sure : String → Prop)
    (resolve : Registry → String → Built Ty) : Prop :=
  ∀ {r}, Faithful types r → ∀ name,
    Builds types resolving r (sure name) (fun ty r' => r'.lookup name = some ty) (resolve r name)

/-- The declarations can be built, there is such a name, and each of those being built is declared by way of it. -/
structure Sure (types : Declarations) (resolving : List String) (name : String) : Prop where
  buildable : types.Buildable
  known : (Registry.initial.lookup name).isSome ∨ (types.lookup name).isSome
  chain : ∀ other ∈ resolving, Relation.TransGen types.Refers other name

theorem Unites.later {names : List String} {ty : Ty} (h : Unites types r names ty) (hr : r.Coherent)
    (leads : r.Leads r') : Unites types r' names ty where
  has := leads.extends.has h.has
  texts text := by rw [leads.extends.accepts hr h.has, h.texts]
  narrows := by
    intro base keys
    rw [← h.narrows, Registry.Narrows, Registry.Narrows, leads.extends.get h.has]
  grounded := h.grounded

theorem Unites.union {names others : List String} {a b : Ty} (hr : r.Reachable) (ha : Unites types r names a)
    (hb : Unites types r others b) : Unites types (r.union a b).2 (names ++ others) (r.union a b).1 where
  has := (hr.coherent.leaves_union ha.has hb.has).1
  texts text := by
    rw [hr.coherent.accepts_union ha.has hb.has, ha.texts, hb.texts]
    simp only [List.mem_append, or_and_right, exists_or]
  narrows := by
    intro base keys
    rw [hr.union_narrows ha.has hb.has, ha.narrows, hb.narrows, List.forall_mem_append]
  grounded := List.forall_mem_append.mpr ⟨ha.grounded, hb.grounded⟩

theorem faithful_initial (h : types.Fresh) : Faithful types .initial where
  reachable := .refl
  plain := Registry.plain_initial
  builtIn := id
  stands := by
    intro name ty bound
    have has : ∀ binding ∈ Registry.initial.names, Registry.initial.Has binding.2 := by decide
    obtain ⟨front, back, hnames, -⟩ := List.lookup_eq_some_iff.mp bound
    refine ⟨has (name, ty) (by rw [hnames]; simp), fun text => ?_, ?_, by simpa using .builtIn bound⟩
    · simp only [List.mem_singleton, exists_eq_left]
      refine ⟨.builtIn bound, fun haccepts => ?_⟩
      cases haccepts with
      | builtIn bound' haccepts => rwa [Option.some.inj (bound.symm.trans bound')]
      | narrowed declared | member declared => exact (h.not_declared bound declared).elim
    · intro base keys
      simp only [List.mem_singleton, forall_eq]
      refine ⟨.builtIn bound, fun hnarrows => ?_⟩
      cases hnarrows with
      | builtIn bound' hnarrows => rwa [Option.some.inj (bound.symm.trans bound')]
      | narrowed declared | union declared => exact (h.not_declared bound declared).elim

theorem Faithful.of_names (h : Faithful types r) (leads : r.Leads r') (hplain : r'.Plain)
    (hnames : r'.names = r.names) : Faithful types r' where
  reachable := h.reachable.trans leads
  plain := hplain
  builtIn bound := leads.extends.lookup (h.builtIn bound)
  stands := by
    intro name ty bound
    rw [Registry.lookup, hnames] at bound
    exact (h.stands bound).later h.reachable.coherent leads

theorem Grows.refl (h : Faithful types r) : Grows types resolving r r := ⟨.refl, h, fun _ _ => id⟩

theorem Grows.trans {r'' : Registry} (h : Grows types resolving r r') (h' : Grows types resolving r' r'') :
    Grows types resolving r r'' :=
  ⟨h.leads.trans h'.leads, h'.faithful, fun name hname hfree => h'.free name hname (h.free name hname hfree)⟩

/-- Where no name is bound, those being built stay free. -/
theorem Grows.of_names (h : Faithful types r) (leads : r.Leads r') (hplain : r'.Plain)
    (hnames : r'.names = r.names) : Grows types resolving r r' :=
  ⟨leads, h.of_names leads hplain hnames, fun _ _ hfree => by rwa [Registry.lookup, hnames]⟩

theorem Builds.mono {α : Type} {sure sure' : Prop} {P Q : α → Registry → Prop} {result : Built α}
    (grows : Grows types resolving r r') (hsure : sure' → sure) (hPQ : ∀ {made r''}, P made r'' → Q made r'')
    (h : Builds types resolving r' sure P result) : Builds types resolving r sure' Q result := by
  cases result with
  | error flaw => exact ⟨fun hsure' => h.1 (hsure hsure'), h.2⟩
  | ok made => exact ⟨grows.trans h.1, hPQ h.2⟩

theorem uniteAll_builds {sure : String → Prop} {resolve : Registry → String → Built Ty}
    (hresolve : Resolves types resolving sure resolve) (members : List String) {names : List String} {ty : Ty}
    (h : Faithful types r) (hty : Unites types r names ty) :
    Builds types resolving r (∀ member ∈ members, sure member)
      (fun made r' => Unites types r' (names ++ members) made) (uniteAll resolve r ty members) := by
  induction members generalizing r names ty with
  | nil => exact ⟨.refl h, by rwa [List.append_nil]⟩
  | cons member rest ih =>
    have hmember := hresolve h member
    unfold uniteAll
    cases hresult : resolve r member with
    | error flaw =>
      rw [hresult] at hmember
      exact ⟨fun hsure => hmember.1 (hsure member List.mem_cons_self), hmember.2⟩
    | ok resolved =>
      obtain ⟨other, r₁⟩ := resolved
      rw [hresult] at hmember
      obtain ⟨grows, bound⟩ := hmember
      have hleft := hty.later h.reachable.coherent grows.leads
      have hright := grows.faithful.stands bound
      have hunited : Grows types resolving r₁ (r₁.union ty other).2 :=
        .of_names grows.faithful (Registry.leads_union hleft.has hright.has)
          (grows.faithful.plain.union ty other) (Registry.names_union ty other)
      refine (ih hunited.faithful (hleft.union grows.faithful.reachable hright)).mono (grows.trans hunited)
        (fun hsure other hother => hsure other (List.mem_cons_of_mem member hother)) ?_
      intro made r'' hmade
      rwa [List.append_assoc, List.singleton_append] at hmade

section Declared

variable {name : String} {d : Declaration} (hfresh : types.Fresh) (declared : types.lookup name = some d)
include hfresh declared

/-- A declared type that is narrowed from its base stands for what its name is given. -/
theorem refineAll_builds {base : String} (hbase : d.base = some base) (hunion : d.union = none)
    (h : Faithful types r) {ty : Ty} (hty : Unites types r [base] ty) :
    Builds types resolving r types.Buildable (fun made r' => Unites types r' [name] made)
      (refineAll r ty d.refinements) := by
  have htexts (text : String) : types.Accepts text name ↔ types.Accepts text base ∧ d.Admits text := by
    simp [hfresh.accepts_iff declared, hbase, hunion]
  have hnarrows (primitive : Primitive) (keys : Set Constraint.Key) : types.Narrows name primitive keys ↔
      ∃ others, types.Narrows base primitive others ∧ others ∪ Refinement.allKeys d.refinements = keys := by
    simp [hfresh.narrows_iff declared, hbase, hunion]
  have hgrounded (hprimitive : d.narrows → ∃ primitive keys, types.Narrows base primitive keys) :
      types.Grounded name := by
    refine .declared declared (.base hbase hunion) (fun hd => ?_) ?_
    · obtain ⟨primitive, keys, hkeys⟩ := hprimitive hd
      exact ⟨base, primitive, keys, hbase, hkeys⟩
    · simpa [Declaration.references, hbase, hunion] using hty.grounded
  have hbaseTexts := hty.texts
  have hbaseNarrows := @hty.narrows
  simp only [List.mem_singleton, exists_eq_left, forall_eq] at hbaseTexts hbaseNarrows
  by_cases hnil : ∀ refinement ∈ d.refinements, refinement.constraints = []
  · -- the declaration is another name for its base
    have hplain : ¬ d.narrows := by
      rw [Declaration.narrows_iff]
      rintro ⟨refinement, hmem, hne⟩
      exact hne (hnil refinement hmem)
    have hkeys : Refinement.allKeys d.refinements = ∅ := by
      ext key
      simp only [Refinement.allKeys, Constraint.mem_keys, Set.mem_empty_iff_false, iff_false]
      rintro ⟨refinement, hmem, hkey⟩
      rw [hnil refinement hmem] at hkey
      contradiction
    have hadmits (text : String) : d.Admits text := by
      refine Declaration.admits_iff.mpr fun refinement hmem => Refinement.admits_iff.mpr ?_
      rw [hnil refinement hmem]
      simp
    rw [refineAll_of_nil hnil]
    refine ⟨.refl h, hty.has, fun text => ?_, ?_, by simpa using hgrounded fun hd => (hplain hd).elim⟩
    · simp only [List.mem_singleton, exists_eq_left, htexts, hadmits, and_true, hbaseTexts]
    · intro primitive keys
      simp only [List.mem_singleton, forall_eq, hnarrows, hkeys, Set.union_empty, exists_eq_right, hbaseNarrows]
  · by_cases hprimitive : ∃ primitive keys, r.Narrows ty primitive keys
    · obtain ⟨primitive, keys, hprimitive⟩ := hprimitive
      obtain ⟨made, r', hresult, hleads, hplain, hnames, hmade, hmadeTexts⟩ :=
        refineAll_narrows h.reachable.coherent h.plain hprimitive Declaration.builtIn_refinements
      have grows : Grows types resolving r r' := .of_names h hleads hplain hnames
      rw [hresult]
      refine ⟨grows, hmade.has, fun text => ?_, ?_,
        by simpa using hgrounded fun _ => ⟨primitive, keys, hbaseNarrows.mp hprimitive⟩⟩
      · simp only [List.mem_singleton, exists_eq_left, htexts, hmadeTexts, hbaseTexts, Declaration.admits_iff]
      · intro primitive' keys'
        simp only [List.mem_singleton, forall_eq, hnarrows]
        constructor
        · intro hmade'
          obtain ⟨rfl, rfl⟩ := (hmade.eq_iff grows.faithful.reachable.coherent hmade').mp rfl
          exact ⟨keys, hbaseNarrows.mp hprimitive, rfl⟩
        · rintro ⟨others, hothers, rfl⟩
          obtain ⟨rfl, rfl⟩ := (hprimitive.eq_iff h.reachable.coherent (hbaseNarrows.mpr hothers)).mp rfl
          exact hmade
    · -- a type that is not primitive cannot be narrowed
      obtain ⟨expected, got, herror⟩ := ((refineAll_cases r ty d.refinements).resolve_left
        fun hall => hnil hall.1).resolve_left hprimitive
      rw [herror]
      refine ⟨fun hbuildable => hprimitive ?_, fun other heq => by cases heq⟩
      have hd : d.narrows := by
        rw [Declaration.narrows_iff]
        simpa using hnil
      obtain ⟨reference, primitive, keys, hbase', hkeys⟩ := hbuildable.primitive declared hd
      obtain rfl := Option.some.inj (hbase.symm.trans hbase')
      exact ⟨primitive, keys, hbaseNarrows.mpr hkeys⟩

theorem declaredType_builds {sure : String → Prop} {resolve : Registry → String → Built Ty}
    (hresolve : Resolves types resolving sure resolve) (h : Faithful types r) :
    Builds types resolving r (types.Buildable ∧ ∀ reference ∈ d.references, sure reference)
      (fun made r' => Unites types r' [name] made) (declaredType resolve r name d) := by
  unfold declaredType
  split
  · rename_i base hbase hunion
    have hresult := hresolve h base
    cases hresolved : resolve r base with
    | error flaw =>
      rw [hresolved] at hresult
      exact ⟨fun hsure => hresult.1 (hsure.2 base (by simp [Declaration.references, hbase])), hresult.2⟩
    | ok resolved =>
      obtain ⟨ty, r₁⟩ := resolved
      rw [hresolved] at hresult
      obtain ⟨grows, bound⟩ := hresult
      exact (refineAll_builds hfresh declared hbase hunion grows.faithful (grows.faithful.stands bound)).mono
        grows And.left id
  · rename_i first second rest hbase hunion
    have hreferences : d.references = first :: second :: rest := by
      simp [Declaration.references, hbase, hunion]
    split
    · rename_i hnarrows
      refine ⟨fun hsure => ?_, fun other heq => by cases heq⟩
      cases hsure.1.formed declared with
      | base hbase' => rw [hbase] at hbase'; contradiction
      | union _ _ _ plain => rw [hnarrows] at plain; contradiction
    · rename_i hplain
      have hresult := hresolve h first
      cases hresolved : resolve r first with
      | error flaw =>
        rw [hresolved] at hresult
        exact ⟨fun hsure => hresult.1 (hsure.2 first (by simp [hreferences])), hresult.2⟩
      | ok resolved =>
        obtain ⟨ty, r₁⟩ := resolved
        rw [hresolved] at hresult
        obtain ⟨grows, bound⟩ := hresult
        refine (uniteAll_builds hresolve (second :: rest) grows.faithful (grows.faithful.stands bound)).mono
          grows ?_ ?_
        · rintro ⟨-, hsure⟩ member hmember
          exact hsure member (by rw [hreferences]; exact List.mem_cons_of_mem first hmember)
        · intro made r'' hmade
          refine ⟨hmade.has, fun text => ?_, ?_, ?_⟩
          · rw [hmade.texts]
            simp [hfresh.accepts_iff declared, hbase, hunion]
          · intro base keys
            rw [hmade.narrows]
            simp [hfresh.narrows_iff declared, hbase, hunion]
          · have hformed : d.Formed := .union hbase hunion (by simp) (by simpa using hplain)
            have hgrounded : ∀ reference ∈ d.references, types.Grounded reference := by
              rw [hreferences]
              exact hmade.grounded
            simpa using .declared declared hformed (fun hnarrows => (hplain hnarrows).elim) hgrounded
  · rename_i hnarrowed hunited
    refine ⟨fun hsure => ?_, fun other heq => by cases heq⟩
    cases hsure.1.formed declared with
    | base hbase hunion => exact hnarrowed _ hbase hunion
    | @union members hbase hunion several plain =>
      match members, several with
      | first :: second :: rest, _ => exact hunited first second rest hbase hunion

end Declared

/-- A name that is free can be declared, and then stands for its type. -/
theorem Faithful.declare (h : Faithful types r) {name : String} {ty : Ty} (hfree : r.lookup name = none)
    (hty : Unites types r [name] ty) :
    ∃ r', r.declare name ty = .ok r' ∧ r.Leads r' ∧ Faithful types r' := by
  obtain ⟨r', hdeclare⟩ : ∃ r', r.declare name ty = .ok r' := ⟨_, by rw [Registry.declare, hfree]⟩
  have leads : r.Leads r' := .single (.declare hty.has hdeclare)
  have hforms : r'.forms = r.forms := by
    unfold Registry.declare at hdeclare
    rw [hfree] at hdeclare
    cases hdeclare
    rfl
  refine ⟨r', hdeclare, leads, h.reachable.trans leads, h.plain.of_forms hforms,
    fun bound => leads.extends.lookup (h.builtIn bound), ?_⟩
  intro other ty' bound
  rw [Registry.lookup_declare hdeclare] at bound
  split at bound
  · rename_i heq
    subst heq
    cases bound
    exact hty.later h.reachable.coherent leads
  · exact (h.stands bound).later h.reachable.coherent leads

/-- What a name refers to is as sure as the name. -/
theorem Sure.reference {name reference : String} (h : Sure types resolving name)
    (hrefers : types.Refers name reference) : Sure types (name :: resolving) reference where
  buildable := h.buildable
  known := h.buildable.known hrefers
  chain := by
    intro other hother
    rcases List.mem_cons.mp hother with rfl | hother
    · exact .single hrefers
    · exact (h.chain other hother).tail hrefers

/-- Resolving a name comes to what it is bound to then, or to a flaw of the declarations. -/
theorem resolveIn_builds (hfresh : types.Fresh) (resolving : List String) :
    Resolves types resolving (Sure types resolving) (resolveIn types resolving) := by
  induction hlength : (pending types resolving).length using Nat.strongRecOn generalizing resolving with
  | ind length ih =>
    intro r h name
    unfold resolveIn
    split
    · rename_i ty bound
      exact ⟨.refl h, bound⟩
    · rename_i hfree
      split
      · rename_i hunknown
        refine ⟨fun hsure => ?_, fun other heq => by cases heq⟩
        rcases hsure.known with hbound | hdeclared
        · obtain ⟨ty, bound⟩ := Option.isSome_iff_exists.mp hbound
          rw [h.builtIn bound] at hfree
          contradiction
        · rw [hunknown] at hdeclared
          contradiction
      · rename_i d declared
        split
        · rename_i hname
          exact ⟨fun hsure => hsure.buildable.acyclic name (hsure.chain name hname), fun other heq => by cases heq⟩
        · rename_i hname
          have hshorter : (pending types (name :: resolving)).length < length := by
            rw [← hlength]
            exact pending_shorter declared hname
          have hbuilds := declaredType_builds hfresh declared (ih _ hshorter (name :: resolving) rfl) h
          split
          · rename_i flaw hresult
            rw [hresult] at hbuilds
            refine ⟨fun hsure => hbuilds.1 ⟨hsure.buildable, fun reference hreference => ?_⟩, hbuilds.2⟩
            exact hsure.reference ⟨d, declared, hreference⟩
          · rename_i ty r₁ hresult
            rw [hresult] at hbuilds
            obtain ⟨grows, hty⟩ := hbuilds
            obtain ⟨r', hdeclare, leads, hfaithful⟩ :=
              grows.faithful.declare (grows.free name List.mem_cons_self hfree) hty
            rw [hdeclare]
            refine ⟨⟨grows.leads.trans leads, hfaithful, ?_⟩, (Registry.lookup_declare hdeclare).trans (if_pos rfl)⟩
            intro other hother hotherFree
            have hne : other ≠ name := by
              rintro rfl
              exact hname hother
            rw [Registry.lookup_declare hdeclare, if_neg hne]
            exact grows.free other (List.mem_cons_of_mem name hother) hotherFree

end TypeAlgebra.Setup
