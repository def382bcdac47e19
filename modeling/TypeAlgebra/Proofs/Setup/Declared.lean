import Mathlib.Data.List.Forall2
import TypeAlgebra.Proofs.Setup.Resolution

/-! The declared types of a blueprint. They can be built if and only if the declarations are sound, in whatever
order, and their names then stand for the texts that the declarations give them. -/
namespace TypeAlgebra.Setup

variable {types : Declarations} {r r' : Registry}

/-- One step of resolving a name, the names that it refers to resolved by the function given. -/
def resolveStep (types : Declarations) (resolve : List String → Registry → String → Built Ty)
    (resolving : List String) (r : Registry) (name : String) : Built Ty :=
  match r.lookup name with
  | some ty => .ok (ty, r)
  | none =>
    match types.lookup name with
    | none => .error (.unknown name)
    | some d =>
      if name ∈ resolving then .error (.circular name)
      else match declaredType (resolve (name :: resolving)) r name d with
        | .error flaw => .error flaw
        | .ok (ty, r) =>
          match r.declare name ty with
          | .error failure => .error (.failed failure)
          | .ok r => .ok (ty, r)

/-- Resolving that is cut short where it would nest deeper than this. -/
def resolveTo (types : Declarations) (cut : List String → Registry → String → Built Ty) :
    Nat → List String → Registry → String → Built Ty
  | 0 => cut
  | depth + 1 => resolveStep types (resolveTo types cut depth)

/-- Resolving nests no deeper than there are declarations left: one name is built for the sake of another only if
it is not being built. -/
theorem resolveTo_eq (cut : List String → Registry → String → Built Ty) {depth : Nat} {resolving : List String}
    (hdepth : (pending types resolving).length < depth) :
    resolveTo types cut depth resolving = resolveIn types resolving := by
  induction depth generalizing resolving with
  | zero => contradiction
  | succ depth ih =>
    funext r name
    rw [resolveTo, eq_comm, resolveIn]
    split
    · rename_i ty hbound
      rw [resolveStep, hbound]
    · rename_i hfree
      split
      · rename_i hunknown
        rw [resolveStep, hfree, hunknown]
      · rename_i d declared
        rw [resolveStep, hfree, declared]
        split
        · rfl
        · rename_i hname
          have hshorter := pending_shorter declared hname
          have hnested : resolveTo types cut depth (name :: resolving) = resolveIn types (name :: resolving) :=
            ih (by omega)
          exact hnested ▸ rfl

theorem resolveAll_builds (hfresh : types.Fresh) (names : List String) (h : Faithful types r) :
    Builds types [] r (∀ name ∈ names, Sure types [] name)
      (fun tys r' => List.Forall₂ (fun name ty => r'.lookup name = some ty) names tys)
      (resolveAll types r names) := by
  induction names generalizing r with
  | nil => exact ⟨.refl h, .nil⟩
  | cons name rest ih =>
    have hname : Builds types [] r (Sure types [] name) (fun ty r' => r'.lookup name = some ty)
        (resolve types r name) := resolveIn_builds hfresh [] h name
    unfold resolveAll
    cases hresult : resolve types r name with
    | error flaw =>
      rw [hresult] at hname
      exact ⟨fun hsure => hname.1 (hsure name List.mem_cons_self), hname.2⟩
    | ok resolved =>
      obtain ⟨ty, r₁⟩ := resolved
      rw [hresult] at hname
      obtain ⟨grows, bound⟩ := hname
      have hrest := ih grows.faithful
      dsimp only
      cases hresults : resolveAll types r₁ rest with
      | error flaw =>
        rw [hresults] at hrest
        exact ⟨fun hsure => hrest.1 fun other hother => hsure other (List.mem_cons_of_mem name hother), hrest.2⟩
      | ok resolveds =>
        obtain ⟨tys, r₂⟩ := resolveds
        rw [hresults] at hrest
        exact ⟨grows.trans hrest.1, .cons (hrest.1.leads.extends.lookup bound) hrest.2⟩

theorem exists_partner {α β : Type} {R : α → β → Prop} {left : List α} {right : List β} {a : α}
    (h : List.Forall₂ R left right) (hmem : a ∈ left) : ∃ b, R a b := by
  induction h with
  | nil => contradiction
  | @cons first partner rest partners hfirst _ ih =>
    rcases List.mem_cons.mp hmem with rfl | hmem
    · exact ⟨partner, hfirst⟩
    · exact ih hmem

/-- In whatever order the declared names are resolved, they can be if and only if the declarations can be built. -/
theorem resolveAll_ok_iff (hfresh : types.Fresh) {names : List String}
    (hnames : ∀ name, name ∈ names ↔ (types.lookup name).isSome) :
    (∃ tys r', resolveAll types .initial names = .ok (tys, r')) ↔ types.Buildable := by
  have hbuilds := resolveAll_builds hfresh names (faithful_initial hfresh)
  constructor
  · rintro ⟨tys, r', hresult⟩
    rw [hresult] at hbuilds
    obtain ⟨grows, bound⟩ := hbuilds
    refine Declarations.buildable_of_grounded hfresh fun {name d} declared => ?_
    have hmem : name ∈ names := (hnames name).mpr (by simp [declared])
    obtain ⟨ty, bound⟩ := exists_partner bound hmem
    exact (grows.faithful.stands bound).grounded name List.mem_cons_self
  · intro hbuildable
    cases hresult : resolveAll types .initial names with
    | ok made => exact ⟨made.1, made.2, rfl⟩
    | error flaw =>
      rw [hresult] at hbuilds
      exact (hbuilds.1 fun name hname => ⟨hbuildable, .inr ((hnames name).mp hname), nofun⟩).elim

/-- The registry has a type of every declared name, with the texts that the declarations give the name. -/
def Stands (types : Declarations) (r : Registry) : Prop :=
  ∀ name, (types.lookup name).isSome → ∃ ty, r.lookup name = some ty ∧ r.Has ty ∧
    (∀ text, r.accepts ty text ↔ types.Accepts text name) ∧
    ∀ {base keys}, r.Narrows ty base keys ↔ types.Narrows name base keys

/-- What stands for the declarations goes on doing so. -/
theorem Stands.later (h : Stands types r) (hr : r.Coherent) (leads : r.Leads r') : Stands types r' := by
  intro name hname
  obtain ⟨ty, hbound, has, htexts, hnarrows⟩ := h name hname
  refine ⟨ty, leads.extends.lookup hbound, leads.extends.has has, fun text => ?_, ?_⟩
  · rw [leads.extends.accepts hr has, htexts]
  · intro base keys
    rw [← hnarrows, Registry.Narrows, Registry.Narrows, leads.extends.get has]

theorem resolveAll_stands (hfresh : types.Fresh) {names : List String}
    (hnames : ∀ name, name ∈ names ↔ (types.lookup name).isSome) {tys : List Ty}
    (hresult : resolveAll types .initial names = .ok (tys, r)) (leads : r.Leads r') : Stands types r' := by
  have hbuilds := resolveAll_builds hfresh names (faithful_initial hfresh)
  rw [hresult] at hbuilds
  obtain ⟨grows, bound⟩ := hbuilds
  refine Stands.later (fun name hname => ?_) grows.faithful.reachable.coherent leads
  obtain ⟨ty, hbound⟩ := exists_partner bound ((hnames name).mpr hname)
  have hstands := grows.faithful.stands hbound
  refine ⟨ty, hbound, hstands.has, fun text => ?_, ?_⟩
  · simpa using hstands.texts text
  · intro base keys
    have hnarrows := @hstands.narrows base keys
    simpa using hnarrows

/-- How the declared types of a blueprint are built in a registry. -/
structure DeclaredLaws (b : Blueprint) (r : Registry) : Prop where
  /-- Building ends: names are never resolved more deeply nested than there are declarations. -/
  ends : ∀ cut depth, b.types.length < depth → resolveTo b.types cut depth [] = resolve b.types
  ok_iff : (∃ tys r', declared b r = .ok (tys, r')) ↔ Declarations.Buildable b.types
  binds : ∀ {tys r'}, declared b r = .ok (tys, r') →
    List.Forall₂ (fun name ty => r'.lookup name = some ty) (b.types.map (·.1)) tys
  /-- The names stand for what is declared, then and ever after. -/
  stands : ∀ {tys r' later}, declared b r = .ok (tys, r') → r'.Leads later → Stands b.types later
  /-- The same holds if the names are resolved in another order. -/
  order : Declarations.Fresh b.types → ∀ names, (∀ name, name ∈ names ↔ name ∈ b.types.map (·.1)) →
    ((∃ tys r', resolveAll b.types r names = .ok (tys, r')) ↔ Declarations.Buildable b.types) ∧
      ∀ {tys r' later}, resolveAll b.types r names = .ok (tys, r') → r'.Leads later → Stands b.types later
  /-- A name is free when its type is declared. -/
  free : ∀ name, declared b r ≠ .error (.failed (.alreadyDefined name))

theorem isSome_lookup_iff {name : String} : (types.lookup name).isSome ↔ name ∈ types.map (·.1) := by
  induction types with
  | nil => simp
  | cons declared rest ih =>
    obtain ⟨other, d⟩ := declared
    rw [List.lookup_cons]
    by_cases heq : name = other
    · simp [heq]
    · simp [beq_eq_false_iff_ne.mpr heq, heq, ih]

/-- No declared name is built in, or building fails at once. -/
theorem declared_cases (b : Blueprint) (r : Registry) :
    ((∀ name ∈ b.types.map (·.1), r.lookup name = none) ∧
        declared b r = resolveAll b.types r (b.types.map (·.1))) ∨
      ∃ name ∈ b.types.map (·.1), (r.lookup name).isSome ∧ declared b r = .error (.builtIn name) := by
  unfold declared
  dsimp only
  split
  · rename_i name hfind
    exact .inr ⟨name, List.mem_of_find?_eq_some hfind, by simpa using List.find?_some hfind, rfl⟩
  · rename_i hfind
    exact .inl ⟨by simpa using hfind, rfl⟩

theorem declared_laws_initial (b : Blueprint) : DeclaredLaws b .initial := by
  have hnames (name : String) : name ∈ b.types.map (·.1) ↔ (b.types.lookup name).isSome :=
    isSome_lookup_iff.symm
  have hends (cut : List String → Registry → String → Built Ty) (depth : Nat) (hdepth : b.types.length < depth) :
      resolveTo b.types cut depth [] = resolve b.types :=
    resolveTo_eq cut ((List.length_filter_le _ _).trans_lt hdepth)
  have horder (hfresh : Declarations.Fresh b.types) (names : List String)
      (hsame : ∀ name, name ∈ names ↔ name ∈ b.types.map (·.1)) (name : String) :
      name ∈ names ↔ (b.types.lookup name).isSome := (hsame name).trans (hnames name)
  rcases declared_cases b .initial with ⟨hfree, hdeclared⟩ | ⟨name, hmem, hbound, hdeclared⟩
  · have hfresh : Declarations.Fresh b.types := fun {name d} declared =>
      hfree name ((hnames name).mpr (by simp [declared]))
    have hbuilds := resolveAll_builds hfresh (b.types.map (·.1)) (faithful_initial hfresh)
    refine ⟨hends, ?_, ?_, ?_, ?_, ?_⟩
    · rw [hdeclared, resolveAll_ok_iff hfresh hnames]
    · intro tys r' hresult
      rw [← hdeclared, hresult] at hbuilds
      exact hbuilds.2
    · intro tys r' later hresult leads
      exact resolveAll_stands hfresh hnames (hdeclared ▸ hresult) leads
    · intro _ names hsame
      exact ⟨resolveAll_ok_iff hfresh (horder hfresh names hsame),
        resolveAll_stands hfresh (horder hfresh names hsame)⟩
    · intro name herror
      rw [← hdeclared, herror] at hbuilds
      exact hbuilds.2 name rfl
  · refine ⟨hends, ?_, ?_, ?_, ?_, ?_⟩
    · simp only [hdeclared, reduceCtorEq, exists_false, false_iff]
      intro hbuildable
      obtain ⟨d, declared⟩ := Option.isSome_iff_exists.mp ((hnames name).mp hmem)
      rw [hbuildable.fresh declared] at hbound
      contradiction
    · intro tys r' hresult
      rw [hdeclared] at hresult
      contradiction
    · intro tys r' later hresult
      rw [hdeclared] at hresult
      contradiction
    · intro hfresh names hsame
      exact ⟨resolveAll_ok_iff hfresh (horder hfresh names hsame),
        resolveAll_stands hfresh (horder hfresh names hsame)⟩
    · intro other herror
      rw [hdeclared] at herror
      cases herror

/-- A blueprint whose policy is a policy, if it names one, has its types built by these laws. -/
theorem declared_laws (b : Blueprint) (policy : Option Policy)
    (hpolicy : ∀ text, b.policy = some text → text = "raise" ∨ text = "pass") :
    ∃ s, settings b policy = .ok s ∧ DeclaredLaws b s.registry := by
  have hlaws := declared_laws_initial b
  cases hown : b.policy with
  | none => exact ⟨.start (policy.getD .raise) (b.marker.getD '$'), by rw [settings, hown]; rfl, hlaws⟩
  | some text =>
    obtain ⟨own, hvalid⟩ : ∃ own, Policy.ofText text = .ok own := by
      rcases hpolicy text hown with rfl | rfl
      · exact ⟨.raise, rfl⟩
      · exact ⟨.pass, rfl⟩
    exact ⟨.start (policy.getD own) (b.marker.getD '$'), by rw [settings, hown, Option.map_some, hvalid], hlaws⟩

/-- Numbers and texts without a blank, the latter declared after the former. -/
def tokens : Blueprint where
  policy := some "pass"
  types := [("token", { union := some ["int", "word"] }), ("word", { base := some "str", endsOn := some ' ' })]
  record := "tokens"
  layout := "$token$\n"
  fields := [("token", "token")]

theorem buildable_tokens : Declarations.Buildable tokens.types := by
  have hstr : Declarations.Narrows tokens.types "str" .str ∅ :=
    .builtIn rfl ⟨[], rfl, Constraint.keys_nil⟩
  have hword : Declarations.Grounded tokens.types "word" := by
    refine .declared rfl (.base rfl rfl) (fun _ => ⟨"str", .str, ∅, rfl, hstr⟩) fun reference hreference => ?_
    obtain rfl : reference = "str" := by simpa [Declaration.references] using hreference
    exact .builtIn rfl
  have htoken : Declarations.Grounded tokens.types "token" := by
    refine .declared rfl (.union rfl rfl (by decide) rfl) (fun hnarrows => by contradiction)
      fun reference hreference => ?_
    rcases (by simpa [Declaration.references] using hreference : reference = "int" ∨ reference = "word")
      with rfl | rfl
    · exact .builtIn rfl
    · exact hword
  have hnames {name : String} {d : Declaration} (declared : tokens.types.lookup name = some d) :
      name = "token" ∨ name = "word" := by
    have hmem : name ∈ tokens.types.map (·.1) := isSome_lookup_iff.mp (by rw [declared]; rfl)
    simpa only [tokens, List.map_cons, List.map_nil, List.mem_cons, List.not_mem_nil, or_false] using hmem
  refine Declarations.buildable_of_grounded (fun {name d} declared => ?_) fun {name d} declared => ?_
  · rcases hnames declared with rfl | rfl <;> rfl
  · rcases hnames declared with rfl | rfl
    · exact htoken
    · exact hword

/-- The union may be declared before its member. -/
theorem declared_laws_tokens : (∀ text, tokens.policy = some text → text = "raise" ∨ text = "pass") ∧
    ∃ s tys r ty, settings tokens none = .ok s ∧ declared tokens s.registry = .ok (tys, r) ∧
      r.lookup "token" = some ty ∧ r.accepts ty "two" ∧ ¬ r.accepts ty "two words" := by
  have hpolicy : ∀ text, tokens.policy = some text → text = "raise" ∨ text = "pass" := by
    intro text htext
    exact .inr (Option.some.inj htext).symm
  obtain ⟨s, hsettings, hlaws⟩ := declared_laws tokens none hpolicy
  obtain ⟨tys, r, hdeclared⟩ := hlaws.ok_iff.mpr buildable_tokens
  obtain ⟨ty, hbound, -, htexts, -⟩ := hlaws.stands hdeclared .refl "token" (by decide)
  have hfresh : Declarations.Fresh tokens.types := buildable_tokens.fresh
  refine ⟨hpolicy, s, tys, r, ty, hsettings, hdeclared, hbound, (htexts "two").mpr ?_, ?_⟩
  · have hbuiltIn : Registry.initial.lookup "str" = some .str := rfl
    have hstr : Declarations.Accepts tokens.types "two" "str" := .builtIn hbuiltIn (by decide)
    refine .member rfl rfl (by simp : "word" ∈ ["int", "word"]) (.narrowed rfl rfl hstr ⟨nofun, ?_, nofun, nofun⟩)
    rintro c ⟨⟩
    decide
  · rw [htexts, hfresh.accepts_iff rfl]
    rintro (⟨base, hbase, -⟩ | ⟨members, ⟨⟩, member, hmember, haccepts⟩)
    · contradiction
    rcases (by simpa using hmember : member = "int" ∨ member = "word") with rfl | rfl
    · cases haccepts with
      | builtIn bound haccepts => cases bound; contradiction
      | narrowed declared | member declared => contradiction
    · rw [hfresh.accepts_iff rfl] at haccepts
      rcases haccepts with ⟨base, -, -, admits⟩ | ⟨members, hunion, -⟩
      · exact admits.terminator rfl (by decide)
      · contradiction

end TypeAlgebra.Setup
