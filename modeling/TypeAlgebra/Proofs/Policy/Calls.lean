import TypeAlgebra.Proofs.Application.Sound
import TypeAlgebra.Proofs.Policy.Intake

/-! Calls under either policy. Where the bodies of functions are neutral, so are calls of the functions and of all
that are made of them, however deep in one another. -/
namespace TypeAlgebra

/-- The function is of the kind, or was made of others and takes one argument. -/
def Lambda.OfKind (kind : Lambda → Prop) (lambda : Lambda) : Prop :=
  if lambda.body.combines then lambda.signature.length = 2 else kind lambda

theorem Lambda.ofKind_of_combines {kind : Lambda → Prop} {lambda : Lambda} (h : lambda.body.combines)
    (hlength : lambda.signature.length = 2) : lambda.OfKind kind := by
  rw [OfKind, if_pos h]
  exact hlength

namespace Value

variable {kind : Lambda → Prop} {value : Value}

/-- All functions in the value are of the kind, or were made of others. -/
def MadeOf (kind : Lambda → Prop) (value : Value) : Prop :=
  ∀ part, value.Nested part → ∀ lambda, part.lambda? = some lambda → lambda.OfKind kind

theorem MadeOf.part (h : value.MadeOf kind) {part : Value} (hpart : part ∈ value.parts) : part.MadeOf kind :=
  fun inner hinner => h inner (.head hpart hinner)

theorem madeOf_of_parts (h : ∀ lambda, value.lambda? = some lambda → lambda.OfKind kind)
    (hparts : ∀ part ∈ value.parts, part.MadeOf kind) : value.MadeOf kind := by
  intro inner hinner
  rcases hinner.cases_head with rfl | ⟨part, hpart, hinner⟩
  · exact h
  · exact hparts part hpart inner hinner

theorem madeOf_failure (e : Failure) : (failure e).MadeOf kind := madeOf_of_parts nofun nofun

theorem madeOf_of_isFailure (h : value.isFailure) : value.MadeOf kind := by
  cases value with
  | failure e => exact madeOf_failure e
  | int | str | record | injection | closure => contradiction

theorem madeOf_injection {ty : Ty} {side : Side} : (injection ty side value).MadeOf kind ↔ value.MadeOf kind :=
  ⟨fun h => h.part (List.mem_singleton_self value),
    fun h => madeOf_of_parts nofun (List.forall_mem_singleton.mpr h)⟩

theorem madeOf_closure {ty : Ty} {lambda : Lambda} {applied : List Value} :
    (closure ty lambda applied).MadeOf kind ↔ lambda.OfKind kind ∧ (∀ arg ∈ applied, arg.MadeOf kind) ∧
      ∀ held ∈ lambda.body.held, held.MadeOf kind := by
  constructor
  · intro h
    exact ⟨h _ .refl lambda rfl, fun arg harg => h.part (List.mem_append_left _ harg),
      fun held hheld => h.part (List.mem_append_right _ hheld)⟩
  · rintro ⟨hlambda, happlied, hheld⟩
    refine madeOf_of_parts (fun other heq => ?_) (List.forall_mem_append.mpr ⟨happlied, hheld⟩)
    cases heq
    exact hlambda

theorem MadeOf.leaf : ∀ {value : Value}, value.MadeOf kind → value.leaf.MadeOf kind
  | .injection .., h => (madeOf_injection.mp h).leaf
  | .int .., h | .str .., h | .record .., h | .closure .., h | .failure .., h => h

theorem Wraps.madeOf {leaf : Value} {v : Variants} (h : leaf.Wraps v value) (hleaf : leaf.MadeOf kind) :
    value.MadeOf kind := by
  induction h with
  | same => exact hleaf
  | left _ _ ih | right _ _ ih => exact madeOf_injection.mpr ih

/-- What a value is viewed as is made of the same functions. -/
theorem MadeOf.view {r : Registry} {ty : Ty} {viewed : Value} (h : value.MadeOf kind)
    (hview : r.view ty value = some viewed) : viewed.MadeOf kind := by
  rcases Registry.view_cases hview with ⟨hnested, -⟩ | ⟨-, hwraps⟩
  · exact fun inner hinner => h inner (hnested.trans hinner)
  · exact hwraps.madeOf h.leaf

theorem weight_held {body : Body} {part : Value} (h : part ∈ body.held) : part.weight ≤ body.weight := by
  cases body with
  | constant | delegate | spread =>
    exact Nat.le_of_eq (by rw [List.mem_singleton.mp h, Body.weight])
  | dispatch a left b right domain =>
    have hmem : part = left ∨ part = right := by simpa [Body.held] using h
    rw [Body.weight]
    rcases hmem with rfl | rfl <;> omega
  | argument | report | raise | cast | fold | concat | field | setPolicy => contradiction

theorem weight_part {part : Value} (h : part ∈ value.parts) : part.weight ≤ value.weight := by
  cases value with
  | record ty fields =>
    have hle : part.weight ≤ weightAll (fields.map (·.2)) := weight_le_of_mem h
    rw [weight, weightFields_eq]
    omega
  | injection ty side inner =>
    exact Nat.le_of_eq (by rw [List.mem_singleton.mp h, weight])
  | closure ty lambda applied =>
    rw [weight, lambda.weight_eq]
    rcases List.mem_append.mp h with happlied | hheld
    · have hle := weight_le_of_mem happlied
      omega
    · have hle := weight_held hheld
      omega
  | int | str | failure => contradiction

/-- There are no functions in a value that weighs nothing. -/
theorem madeOf_of_weight (h : value.weight = 0) : value.MadeOf kind := by
  intro inner hinner lambda hlambda
  have hle : inner.weight ≤ value.weight := by
    clear hlambda
    induction hinner with
    | refl => exact Nat.le_refl _
    | tail _ hpart ih => exact Nat.le_trans (weight_part hpart) ih
  cases inner with
  | closure ty own applied =>
    rw [weight, own.weight_eq] at hle
    omega
  | int | str | record | injection | failure => contradiction

end Value

variable {kind : Lambda → Prop} {code : Code}

/-- All that a body is given, its arguments and the values it was made with, is made of the kind. -/
structure Lambda.Given (kind : Lambda → Prop) (lambda : Lambda) (args : List Value) : Prop where
  length : args.length + 1 = lambda.signature.length
  nonempty : args ≠ []
  args : ∀ arg ∈ args, arg.MadeOf kind
  held : ∀ value ∈ lambda.body.held, value.MadeOf kind

/-- Functions of the kind do the same under either policy, and give values made of the kind. -/
structure Code.NeutralOn (code : Code) (kind : Lambda → Prop) : Prop where
  neutral : ∀ {lambda : Lambda} {args : List Value}, kind lambda → lambda.body.combines = false →
    lambda.Given kind args → PolicyNeutral fun s => code lambda s args
  madeOf : ∀ {lambda : Lambda} {args : List Value} {s : Session} {value : Value}, kind lambda →
    lambda.body.combines = false → lambda.Given kind args → (code lambda s args).1 = .ok value → value.MadeOf kind

namespace Outcome

/-- The result, if there is one, is made of the kind. -/
def MadeOf (kind : Lambda → Prop) (outcome : Outcome Value) : Prop :=
  ∀ value, outcome.1 = .ok value → value.MadeOf kind

variable {s : Session} {outcome : Outcome Value}

theorem madeOf_ok {value : Value} (h : value.MadeOf kind) : MadeOf kind (.ok value, s) := by
  rintro _ ⟨⟩
  exact h

theorem madeOf_report (failure : Failure) : MadeOf kind (s.report failure, s) := by
  intro value h
  exact Value.madeOf_of_isFailure (Session.isFailure_of_report h)

theorem MadeOf.andThen (h : outcome.MadeOf kind) {next : Value → Session → Outcome Value}
    (hnext : ∀ value t, outcome = (.ok value, t) → value.MadeOf kind → (next value t).MadeOf kind) :
    (outcome.andThen next).MadeOf kind := by
  obtain ⟨result, t⟩ := outcome
  cases result with
  | ok value => exact hnext value t rfl (h value rfl)
  | error failure => exact nofun

theorem MadeOf.passed (h : outcome.MadeOf kind) : outcome.passed.MadeOf kind := by
  obtain ⟨result, t⟩ := outcome
  cases result with
  | ok value => exact madeOf_ok (h value rfl)
  | error failure => exact madeOf_ok (Value.madeOf_failure failure)

theorem MadeOf.settle (h : outcome.MadeOf kind) (ty : Ty) : (Session.settle ty outcome).MadeOf kind := by
  refine h.andThen fun value t _ hvalue => ?_
  split
  · exact madeOf_ok hvalue
  · split
    · exact madeOf_ok (hvalue.view ‹_›)
    · exact madeOf_report _

end Outcome

namespace Session

variable {s : Session} {function arg : Value} {lambda : Lambda} {args : List Value} {ty : Ty}

/-- What a body is run with is made of the kind, if the function and the argument are. -/
theorem given_of_saturated (hfunction : function.MadeOf kind) (harg : arg.MadeOf kind)
    (h : s.offer function arg = .saturated lambda args ty) : lambda.OfKind kind ∧ lambda.Given kind args := by
  obtain ⟨own, applied, slot, viewed, rfl, hdrop, hview, rfl⟩ := exists_of_saturated h
  obtain ⟨hlambda, happlied, hheld⟩ := Value.madeOf_closure.mp hfunction
  refine ⟨hlambda, ?_, by simp, ?_, hheld⟩
  · have hlength := congrArg List.length hdrop
    simp only [List.length_drop, List.length_cons, List.length_nil] at hlength
    simp only [List.length_append, List.length_singleton]
    omega
  · exact List.forall_mem_append.mpr ⟨happlied, List.forall_mem_singleton.mpr (harg.view hview)⟩

/-- Giving an argument gives what is made of the kind, if running the body does. -/
theorem curry_madeOf (hfunction : function.MadeOf kind) (harg : arg.MadeOf kind)
    (hbody : ∀ {lambda : Lambda} {args : List Value} {ty : Ty}, s.offer function arg = .saturated lambda args ty →
      (code lambda s args).MadeOf kind) : (s.curry code function arg).MadeOf kind := by
  unfold curry
  cases hoffer : s.offer function arg with
  | saturated lambda args ty => exact (hbody hoffer).settle ty
  | settled result t =>
    unfold offer at hoffer
    split at hoffer
    · cases hoffer
      exact Outcome.madeOf_ok (Value.madeOf_failure _)
    · rename_i own lambda applied _
      split at hoffer
      · split at hoffer
        · cases hoffer
          exact Outcome.madeOf_report _
        · rename_i viewed hview
          split at hoffer
          · contradiction
          · cases hoffer
            obtain ⟨hlambda, happlied, hheld⟩ := Value.madeOf_closure.mp hfunction
            refine Outcome.madeOf_ok (Value.madeOf_closure.mpr ⟨hlambda, ?_, hheld⟩)
            exact List.forall_mem_append.mpr ⟨happlied, List.forall_mem_singleton.mpr (harg.view hview)⟩
      · cases hoffer
        exact Outcome.madeOf_report _
    · cases hoffer
      exact Outcome.madeOf_ok hfunction
    · cases hoffer
      exact Outcome.madeOf_report _

/-- What a function made of others does with its one argument: it hands on to one of these, or reports a failure,
whatever the policy. What it hands on weighs no more than the argument. -/
theorem reduce_combines {body : Body} (hbody : body.combines) (s : Session) {viewed : Value}
    (hviewed : viewed.MadeOf kind) :
    (∃ inner ∈ body.held, ∃ xs, (∀ policy, (s.under policy).reduce [viewed] body = .handOn inner xs) ∧
      (∀ x ∈ xs, x.MadeOf kind) ∧ Value.weightAll xs + xs.length ≤ viewed.weight + 1) ∨
    ∃ failure, ∀ policy, (s.under policy).reduce [viewed] body =
      .done ((s.under policy).report failure) (s.under policy) := by
  cases body with
  | dispatch a left b right domain =>
    cases hleft : s.registry.view a viewed with
    | some chosen =>
      refine .inl ⟨left, by simp [Body.held], [chosen], fun policy => by simp [reduce, hleft], ?_, ?_⟩
      · exact List.forall_mem_singleton.mpr (hviewed.view hleft)
      · simp [Value.weightAll, Registry.weight_view hleft]
    | none =>
      cases hright : s.registry.view b viewed with
      | some chosen =>
        refine .inl ⟨right, by simp [Body.held], [chosen], fun policy => by simp [reduce, hleft, hright], ?_, ?_⟩
        · exact List.forall_mem_singleton.mpr (hviewed.view hright)
        · simp [Value.weightAll, Registry.weight_view hright]
      | none =>
        refine .inr ⟨.typeMismatch (s.registry.name domain) (s.registry.name viewed.ty), fun policy => ?_⟩
        simp only [reduce, registry_under, hleft, hright]
  | spread function =>
    refine .inl ⟨function, by simp [Body.held], _, fun policy => rfl, fun x hx => ?_, ?_⟩
    · exact hviewed.part (Value.mem_parts_of_fields? hx)
    · cases viewed <;> simp [Value.fields?, Value.weightAll, Value.weight, Value.weightFields_eq]
  | argument | constant | report | raise | cast | fold | concat | field | delegate | setPolicy => contradiction

/-- The call is neutral, and comes to what is made of the kind. -/
structure CallNeutral (code : Code) (kind : Lambda → Prop) (s : Session) (function : Value) (args : List Value) :
    Prop where
  passes : (s.call code function args).Passes ((s.under .pass).call code function args)
  madeOf : (s.call code function args).MadeOf kind

section

variable (hcode : code.Lawful) (h : code.NeutralOn kind) (hs : s.policy = .raise)
include hcode h hs

/-- Running a body is neutral, if the calls that a function made of others hands on to are. -/
theorem code_neutral (hlambda : lambda.OfKind kind) (hgiven : lambda.Given kind args)
    (hcall : ∀ viewed, args = [viewed] → ∀ inner ∈ lambda.body.held, ∀ xs, (∀ x ∈ xs, x.MadeOf kind) →
      Value.weightAll xs + xs.length ≤ viewed.weight + 1 → s.CallNeutral code kind inner xs) :
    (code lambda s args).Passes (code lambda (s.under .pass) args) ∧ (code lambda s args).MadeOf kind := by
  unfold Lambda.OfKind at hlambda
  split at hlambda
  · rename_i hcombines
    obtain ⟨viewed, rfl⟩ : ∃ viewed, args = [viewed] := by
      have hlength := hgiven.length
      exact List.length_eq_one_iff.mp (by omega)
    rw [hcode _ _ _ hcombines, hcode _ _ _ hcombines, follow, follow]
    rcases reduce_combines hcombines s (List.forall_mem_singleton.mp hgiven.args) with
      ⟨inner, hinner, xs, hreduce, hxs, hweight⟩ | ⟨failure, hreduce⟩
    · have hneutral := hcall viewed rfl inner hinner xs hxs hweight
      have hraise : s.reduce [viewed] lambda.body = .handOn inner xs := hreduce s.policy
      rw [hraise, hreduce .pass]
      exact ⟨hneutral.passes, hneutral.madeOf⟩
    · have hraise : s.reduce [viewed] lambda.body = .done (s.report failure) s := hreduce s.policy
      rw [hraise, hreduce .pass]
      exact ⟨.report hs failure, Outcome.madeOf_report failure⟩
  · rename_i hcombines
    have hplain := Bool.eq_false_iff.mpr hcombines
    exact ⟨h.neutral hlambda hplain hgiven s hs, fun value => h.madeOf hlambda hplain hgiven⟩

omit h hs hcode in
/-- A function made of others weighs more than these, and is given what weighs as much as its argument. -/
theorem weight_of_saturated {viewed inner : Value} (h : s.offer function arg = .saturated lambda [viewed] ty)
    (hinner : inner ∈ lambda.body.held) : inner.weight < function.weight ∧ viewed.weight = arg.weight := by
  obtain ⟨own, applied, slot, last, rfl, -, hview, hargs⟩ := exists_of_saturated h
  obtain ⟨rfl, rfl⟩ : applied = [] ∧ last = viewed := by
    cases applied with
    | nil => exact ⟨rfl, (List.singleton_inj.mp hargs).symm⟩
    | cons first others => simp at hargs
  have hheld := Value.weight_held hinner
  rw [Value.weight, lambda.weight_eq]
  exact ⟨by omega, Registry.weight_view hview⟩

omit hs in
/-- Calls of functions of the kind, and of functions made of these, are neutral. The induction is on what the
arguments weigh: a function made of others hands on to a lighter one. -/
theorem call_neutral {s : Session} {function : Value} {args : List Value} (hs : s.policy = .raise)
    (hfunction : function.MadeOf kind) (hargs : ∀ arg ∈ args, arg.MadeOf kind) :
    s.CallNeutral code kind function args := by
  match args with
  | [] => exact ⟨.ok hs function, Outcome.madeOf_ok hfunction⟩
  | arg :: rest =>
    have harg := hargs arg List.mem_cons_self
    have hrest (other : Value) (hother : other ∈ rest) : other.MadeOf kind :=
      hargs other (List.mem_cons_of_mem arg hother)
    cases hfailure : function.isFailure with
    | true =>
      refine ⟨?_, ?_⟩
      · rw [call_of_isFailure hfailure, call_of_isFailure hfailure]
        exact .ok hs function
      · rw [call_of_isFailure hfailure]
        exact Outcome.madeOf_ok hfunction
    | false =>
      have hbody {lambda : Lambda} {given : List Value} {ty : Ty}
          (hoffer : s.offer function arg = .saturated lambda given ty) :
          (code lambda s given).Passes (code lambda (s.under .pass) given) ∧ (code lambda s given).MadeOf kind := by
        obtain ⟨hlambda, hgiven⟩ := given_of_saturated hfunction harg hoffer
        refine code_neutral hcode h hs hlambda hgiven fun viewed hsingle inner hinner xs hxs hweight => ?_
        subst hsingle
        obtain ⟨hlighter, hsame⟩ := weight_of_saturated hoffer hinner
        exact call_neutral hs (hgiven.held inner hinner) hxs
      have hpasses := curry_passes hs fun hoffer => (hbody hoffer).1
      have hmade : (s.curry code function arg).MadeOf kind := curry_madeOf hfunction harg fun hoffer => (hbody hoffer).2
      refine ⟨?_, ?_⟩
      · rw [call_cons hfailure, call_cons hfailure]
        refine hpasses.andThen (fun failure t => call_of_isFailure rfl rest) fun value t heq ht => ?_
        exact (call_neutral ht (hmade value (by rw [heq])) hrest).passes
      · rw [call_cons hfailure]
        refine hmade.andThen fun value t heq hvalue => ?_
        have ht := hpasses.policy
        rw [heq] at ht
        exact (call_neutral ht hvalue hrest).madeOf
termination_by (Value.weightAll args + args.length, function.weight)
decreasing_by all_goals simp only [Value.weightAll, List.length_cons]; rw [Prod.lex_def]; omega

theorem curry_neutral (hfunction : function.MadeOf kind) (harg : arg.MadeOf kind) :
    (s.curry code function arg).Passes ((s.under .pass).curry code function arg) := by
  cases hfailure : function.isFailure with
  | true =>
    refine curry_passes hs fun hoffer => ?_
    obtain ⟨own, applied, slot, viewed, rfl, -⟩ := exists_of_saturated hoffer
    contradiction
  | false =>
    rw [← call_single hfailure, ← call_single hfailure]
    exact (call_neutral hcode h hs hfunction (List.forall_mem_singleton.mpr harg)).passes

end

/-- Under either policy a call comes to what is made of the kind. -/
theorem call_madeOf (hcode : code.Lawful) (h : code.NeutralOn kind) (s : Session) (hfunction : function.MadeOf kind)
    (hargs : ∀ arg ∈ args, arg.MadeOf kind) : (s.call code function args).MadeOf kind := by
  cases hpolicy : s.policy with
  | raise => exact (call_neutral hcode h hpolicy hfunction hargs).madeOf
  | pass =>
    have hneutral : (s.under .raise).CallNeutral code kind function args := call_neutral hcode h rfl hfunction hargs
    have hpassed := hneutral.passes.eq
    rw [under_raise_under_pass hpolicy] at hpassed
    rw [hpassed]
    exact hneutral.madeOf.passed

theorem either_madeOf {a b : Value} (ha : a.MadeOf kind) (hb : b.MadeOf kind) (s : Session) :
    (s.either a b).MadeOf kind := by
  unfold either
  split
  · exact Outcome.madeOf_report _
  · refine Outcome.madeOf_ok (Value.madeOf_closure.mpr ⟨Lambda.ofKind_of_combines rfl rfl, nofun, ?_⟩)
    exact List.forall_mem_cons.mpr ⟨ha, List.forall_mem_singleton.mpr hb⟩

theorem overRecord_madeOf (hfunction : function.MadeOf kind) (s : Session) : (s.overRecord function).MadeOf kind := by
  unfold overRecord
  split
  · exact Outcome.madeOf_report _
  · refine Outcome.madeOf_ok (Value.madeOf_closure.mpr ⟨Lambda.ofKind_of_combines rfl rfl, nofun, ?_⟩)
    exact List.forall_mem_singleton.mpr hfunction

/-- Plain bodies give what they were given, parts of it, or values without functions. -/
theorem ownCode_madeOf (h : lambda.Plain) (hgiven : lambda.Given kind args) (s : Session) :
    (ownCode lambda s args).MadeOf kind := by
  obtain ⟨serial, name, signature, body⟩ := lambda
  obtain ⟨arg, rest, rfl⟩ := List.exists_cons_of_ne_nil hgiven.nonempty
  have harg := hgiven.args arg List.mem_cons_self
  intro value hvalue
  cases body with
  | argument index => exact hgiven.args value (List.mem_of_mem_drop (weight_first hvalue))
  | constant held =>
    cases hvalue
    exact hgiven.held value (List.mem_singleton_self value)
  | report failure => exact Value.madeOf_of_weight (weight_report hvalue)
  | cast ty =>
    rcases Policy.weight_handOver hvalue with hmade | hweight
    · simp only [Registry.make] at hmade
      split at hmade
      · cases hmade
        exact harg.view ‹_›
      · contradiction
    · exact Value.madeOf_of_weight hweight
  | fold op => exact of_foldlM (fun hresult => Value.madeOf_of_weight (weight_operate hresult)) harg hvalue
  | concat => exact Value.madeOf_of_weight (weight_make_text hvalue)
  | field attr =>
    rcases Policy.weight_handOver hvalue with hfield | hweight
    · exact harg.part (Registry.mem_parts_of_field hfield)
    · exact Value.madeOf_of_weight hweight
  | raise | delegate | setPolicy | dispatch | spread => exact h.elim

theorem ownCode_neutralOn : ownCode.NeutralOn Lambda.Plain where
  neutral hplain _ hgiven := ownCode_neutral hplain hgiven.nonempty hgiven.length
  madeOf hplain _ hgiven := ownCode_madeOf hplain hgiven _ _

/-- A call that has failed does nothing with more arguments. -/
theorem call_failed {xs : List Value} (h : ∀ value, (s.call code function xs).1 = .ok value → value.isFailure)
    (ys : List Value) : s.call code function (xs ++ ys) = s.call code function xs := by
  rw [call_append]
  rcases hcall : s.call code function xs with ⟨result, t⟩
  rw [hcall] at h
  cases result with
  | error failure => rfl
  | ok value => exact call_of_isFailure (h value rfl) ys

end Session

/-- Asking the policy where a failure arises, and going on with what is handed over, comes to what the operations do
that ask it at the end. -/
structure AtOnceLaws : Prop where
  make : ∀ (s : Session) ty source, s.makeAtOnce ty source = s.make ty source
  record : ∀ (s : Session) ty fields, s.recordAtOnce ty fields = s.record ty fields
  field : ∀ (s : Session) value attr, s.fieldAtOnce value attr = s.field value attr
  operate : ∀ (s : Session) op a b, s.operateAtOnce op a b = s.operate op a b
  readRecord : ∀ {s : Session} {layout : Layout}, layout.Known s.registry → ∀ text,
    s.readRecordAtOnce layout text = s.readRecord layout text
  /-- What is taken in by a cursor, chunk by chunk, is the stream that matches by the segments that are left. -/
  push : ∀ {s : Session} {intake : Intake}, intake.Reachable s → ∀ chunk,
    Intake.told (intake.push s chunk) = s.push intake.stream chunk
  close : ∀ {s : Session} {intake : Intake}, intake.Reachable s → Intake.told (intake.close s) = s.close intake.stream
  /-- All streams that reading makes are taken in so. -/
  streams : ∀ {s : Session} {st : Stream}, st.Reachable s → ∃ intake : Intake, intake.Reachable s ∧ intake.stream = st

theorem atOnce_laws : AtOnceLaws where
  make := Session.makeAtOnce_eq
  record := Session.recordAtOnce_eq
  field := Session.fieldAtOnce_eq
  operate := Session.operateAtOnce_eq
  readRecord := Session.readRecordAtOnce_eq
  push := Intake.Reachable.push_stream
  close := Intake.Reachable.close_stream
  streams := Stream.Reachable.exists_intake

/-- What the policy makes of operations, and what it leaves as it is. -/
structure PolicyLaws (code : Code) (kind : Lambda → Prop) : Prop where
  /-- The operations are taken as they ask the policy wherever a failure arises. -/
  atOnce : AtOnceLaws
  make : ∀ ty source, PolicyNeutral fun s => (s.makeAtOnce ty source, s)
  record : ∀ ty fields, PolicyNeutral fun s => (s.recordAtOnce ty fields, s)
  field : ∀ value attr, PolicyNeutral fun s => (s.fieldAtOnce value attr, s)
  operate : ∀ op a b, PolicyNeutral fun s => (s.operateAtOnce op a b, s)
  curry : ∀ {function arg : Value}, function.MadeOf kind → arg.MadeOf kind →
    PolicyNeutral fun s => s.curry code function arg
  call : ∀ {function : Value} {args : List Value}, function.MadeOf kind → (∀ arg ∈ args, arg.MadeOf kind) →
    PolicyNeutral fun s => s.call code function args
  either : ∀ a b, PolicyNeutral fun s => s.either a b
  overRecord : ∀ function, PolicyNeutral fun s => s.overRecord function
  readRecord : ∀ layout text, PolicyNeutral fun s => (s.readRecordAtOnce layout text, s)
  /-- Where a chunk fails, the failure is among the records instead, and all else is the same. -/
  push : ∀ {s : Session} {intake : Intake}, s.policy = .raise → intake.Reachable s → ∀ chunk,
    Intake.Passes (intake.push s chunk) (intake.push (s.under .pass) chunk)
  close : ∀ {s : Session} {intake : Intake}, s.policy = .raise → intake.Reachable s →
    Intake.Passes (intake.close s) (intake.close (s.under .pass))
  /-- A record that is complete can be made, so that only a mismatch stops the reading of a chunk. -/
  stopped : ∀ {s : Session} {intake : Intake}, intake.Reachable s → ∀ {chunk failure},
    (intake.push s chunk).1 = .error failure → ∃ expected got offset, failure = .literalMismatch expected got offset
  readsOn : ∀ {s : Session} {intake : Intake}, s.policy = .pass → intake.Reachable s →
    (∀ chunk, (intake.push s chunk).1 = .ok ()) ∧ (intake.close s).1 = .ok ()
  /-- What would be raised is passed on as a value of the type of errors, with the same registry. -/
  passedOn : ∀ {act : Session → Outcome Value}, PolicyNeutral act → ∀ {s t : Session} {failure : Failure},
    s.policy = .raise → act s = (.error failure, t) →
      ∃ value, act (s.under .pass) = (.ok value, t.under .pass) ∧ value.failure? = some failure ∧ value.ty = .error
  /-- Where failures are passed on, none is raised. -/
  passes : ∀ {act : Session → Outcome Value}, PolicyNeutral act → ∀ {s : Session}, s.policy = .pass →
    ∃ value, (act s).1 = .ok value
  /-- Functions made of functions of the kind, and what these give, are again such that calls of them are neutral. -/
  eitherMade : ∀ {a b : Value}, a.MadeOf kind → b.MadeOf kind → ∀ s : Session, (s.either a b).MadeOf kind
  overRecordMade : ∀ {function : Value}, function.MadeOf kind → ∀ s : Session, (s.overRecord function).MadeOf kind
  callMade : ∀ {function : Value} {args : List Value}, function.MadeOf kind → (∀ arg ∈ args, arg.MadeOf kind) →
    ∀ s : Session, (s.call code function args).MadeOf kind
  /-- After the first failure, raised or passed on, further arguments have no effect. -/
  failed : ∀ {s : Session} {function : Value} {xs : List Value},
    (∀ value, (s.call code function xs).1 = .ok value → value.isFailure) →
      ∀ ys, s.call code function (xs ++ ys) = s.call code function xs

theorem Code.NeutralOn.policy_laws (h : code.NeutralOn kind) (hcode : code.Lawful) : PolicyLaws code kind where
  atOnce := atOnce_laws
  make := Session.makeAtOnce_neutral
  record := Session.recordAtOnce_neutral
  field := Session.fieldAtOnce_neutral
  operate := Session.operateAtOnce_neutral
  curry hfunction harg _ hs := Session.curry_neutral hcode h hs hfunction harg
  call hfunction hargs _ hs := (Session.call_neutral hcode h hs hfunction hargs).passes
  either := Session.either_neutral
  overRecord := Session.overRecord_neutral
  readRecord layout text := Cursor.read_neutral layout .start 0 text.toList
  push hs hintake chunk := (hintake.sound.push chunk).passes hs
  close hs hintake := hintake.sound.close.passes hs
  stopped := Intake.Reachable.mismatch_of_push
  readsOn hs hintake :=
    ⟨fun chunk => (hintake.sound.push chunk).ends.fst_eq_ok hs, hintake.sound.close.ends.fst_eq_ok hs⟩
  passedOn hact _ _ _ hs heq := hact.passedOn hs heq
  passes hact _ hs := hact.exists_ok hs
  eitherMade := Session.either_madeOf
  overRecordMade := Session.overRecord_madeOf
  callMade hfunction hargs s := Session.call_madeOf hcode h s hfunction hargs
  failed := Session.call_failed

/-- Divides numbers. -/
def divide : Value := .closure ⟨3⟩ ⟨0, "divide", [.int, .int, .int], .fold .divide⟩ []

/-- The session in which the function was made. -/
def dividing : Session := ⟨(Registry.initial.functionType [.int, .int, .int]).2, .raise, '$', 1⟩

/-- Dividing by zero fails under either policy, and what is divided next makes no difference. An entry without a comma
behind the number is refused, and is among the records if failures are passed on. -/
theorem policy_laws_divide :
    dividing.call Session.ownCode divide [.int .int 1, .int .int 0, .int .int 5] =
      (.error (.invalidArgument "a non-zero divisor" "0"), (dividing.functionType [.int, .int]).2) ∧
    (∃ value, (dividing.under .pass).call Session.ownCode divide [.int .int 1, .int .int 0, .int .int 5] =
        (.ok value, ((dividing.functionType [.int, .int]).2).under .pass) ∧
      value.failure? = some (.invalidArgument "a non-zero divisor" "0") ∧ value.ty = .error) ∧
    let s := Layout.entrySession .raise
    let refused := (Intake.start Layout.entryLayout).push s "1;"
    refused.1 = .error (.literalMismatch ',' ';' 1) ∧
      (Intake.start Layout.entryLayout).push (s.under .pass) "1;" =
        (.ok (), refused.2.add (.failure (.literalMismatch ',' ';' 1))) := by
  have laws := Code.NeutralOn.policy_laws Session.ownCode_neutralOn Session.ownCode_lawful
  have hdivide : divide.MadeOf Lambda.Plain :=
    Value.madeOf_closure.mpr ⟨trivial, nofun, nofun⟩
  have hnumber (n : Int) : (Value.int .int n).MadeOf Lambda.Plain := Value.madeOf_of_weight rfl
  have hargs : ∀ arg ∈ [Value.int .int 1, .int .int 0, .int .int 5], arg.MadeOf Lambda.Plain := by
    simp [hnumber]
  have hstart : (Intake.start Layout.entryLayout).Reachable (Layout.entrySession .raise) :=
    .start Layout.known_entryLayout
  have hpasses := laws.push rfl hstart "1;"
  have hrefused : ((Intake.start Layout.entryLayout).push (Layout.entrySession .raise) "1;").1 =
      .error (.literalMismatch ',' ';' 1) := rfl
  exact ⟨rfl, laws.passedOn (laws.call hdivide hargs) rfl rfl, hrefused, hpasses.failed _ hrefused⟩

end TypeAlgebra
