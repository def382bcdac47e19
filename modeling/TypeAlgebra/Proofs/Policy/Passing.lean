import TypeAlgebra.Proofs.Application.Code
import TypeAlgebra.Proofs.HandOver

/-! What a policy changes, and what it does not. Under either policy an operation does the same up to its first
failure, and stops there: raised, or passed on as a value, which nothing afterwards takes for anything else. -/
namespace TypeAlgebra

/-- The session as it is, under a policy. -/
def Session.under (s : Session) (policy : Policy) : Session := { s with policy }

@[simp] theorem Session.registry_under (s : Session) (policy : Policy) : (s.under policy).registry = s.registry := rfl

theorem Session.under_raise_under_pass {s : Session} (hs : s.policy = .pass) : (s.under .raise).under .pass = s := by
  obtain ⟨registry, policy, marker, lambdas⟩ := s
  cases hs
  rfl

namespace Outcome

/-- What the outcome would be if its failure, if it is one, were passed on. -/
def passed : Outcome Value → Outcome Value
  | (.ok value, s) => (.ok value, s.under .pass)
  | (.error failure, s) => (.ok (.failure failure), s.under .pass)

/-- The second outcome is the first with its failure passed on instead of raised. -/
structure Passes (raised passed : Outcome Value) : Prop where
  policy : raised.2.policy = .raise
  eq : passed = raised.passed

end Outcome

/-- The policy only changes how the operation hands a failure over. -/
def PolicyNeutral (act : Session → Outcome Value) : Prop :=
  ∀ s : Session, s.policy = .raise → (act s).Passes (act (s.under .pass))

/-- Where failures are passed on, such an operation always gives a value. -/
theorem PolicyNeutral.exists_ok {act : Session → Outcome Value} (h : PolicyNeutral act) {s : Session}
    (hs : s.policy = .pass) : ∃ value, (act s).1 = .ok value := by
  have hpasses := (h (s.under .raise) rfl).eq
  rw [Session.under_raise_under_pass hs] at hpasses
  rw [hpasses]
  obtain ⟨result, t⟩ := act (s.under .raise)
  cases result with
  | ok value => exact ⟨value, rfl⟩
  | error failure => exact ⟨.failure failure, rfl⟩

/-- What would be raised is passed on as a value of the type of errors. -/
theorem PolicyNeutral.passedOn {act : Session → Outcome Value} (h : PolicyNeutral act) {s t : Session}
    {failure : Failure} (hs : s.policy = .raise) (heq : act s = (.error failure, t)) :
    ∃ value, act (s.under .pass) = (.ok value, t.under .pass) ∧ value.failure? = some failure ∧ value.ty = .error := by
  have hpasses := (h s hs).eq
  rw [heq] at hpasses
  exact ⟨.failure failure, hpasses, rfl, rfl⟩

/-- The body fails as the policy says, leaves the policy as it is, and gives back only arguments that there are. -/
def Lambda.Plain (lambda : Lambda) : Prop :=
  match lambda.body with
  | .argument index => index + 1 < lambda.signature.length
  | .constant _ | .report _ | .cast _ | .fold _ | .concat | .field _ => True
  | .raise _ | .delegate _ | .setPolicy _ | .dispatch .. | .spread .. => False

namespace Outcome.Passes

variable {s : Session} {raised passed : Outcome Value}

theorem ok (hs : s.policy = .raise) (value : Value) : Passes (.ok value, s) (.ok value, s.under .pass) := ⟨hs, rfl⟩

theorem handOver (hs : s.policy = .raise) (result : Except Failure Value) :
    Passes (s.policy.handOver result, s) (Policy.pass.handOver result, s.under .pass) := by
  refine ⟨hs, ?_⟩
  rw [hs]
  cases result <;> rfl

theorem report (hs : s.policy = .raise) (failure : Failure) :
    Passes (s.report failure, s) ((s.under .pass).report failure, s.under .pass) := handOver hs (.error failure)

/-- What comes next passes a failure as it is, where none was raised before. -/
theorem andThen (h : raised.Passes passed) {next : Value → Session → Outcome Value}
    (hfailure : ∀ failure t, next (.failure failure) t = (.ok (.failure failure), t))
    (hnext : ∀ value t, raised = (.ok value, t) → t.policy = .raise →
      (next value t).Passes (next value (t.under .pass))) :
    (raised.andThen next).Passes (passed.andThen next) := by
  obtain ⟨result, t⟩ := raised
  obtain ⟨hpolicy, rfl⟩ := h
  cases result with
  | ok value => exact hnext value t rfl hpolicy
  | error failure => exact ⟨hpolicy, hfailure failure _⟩

theorem settle (h : raised.Passes passed) (ty : Ty) : (Session.settle ty raised).Passes (Session.settle ty passed) := by
  refine h.andThen (fun failure t => if_pos rfl) fun value t _ ht => ?_
  simp only [Session.registry_under]
  split
  · exact ok ht value
  · cases t.registry.view ty value with
    | some viewed => exact ok ht viewed
    | none => exact report ht _

end Outcome.Passes

namespace Session

open Outcome

variable {code : Code} {s : Session} {function arg : Value}

theorem make_neutral (ty : Ty) (source : Source) : PolicyNeutral fun s => (s.make ty source, s) :=
  fun _ hs => .handOver hs _

theorem record_neutral (ty : Ty) (fields : List (String × Value)) : PolicyNeutral fun s => (s.record ty fields, s) :=
  fun _ hs => .handOver hs _

theorem field_neutral (value : Value) (attr : String) : PolicyNeutral fun s => (s.field value attr, s) :=
  fun _ hs => .handOver hs _

theorem operate_neutral (op : Operator) (a b : Value) : PolicyNeutral fun s => (s.operate op a b, s) :=
  fun _ hs => .handOver hs _

/-! What asks the policy where a failure arises is neutral too, as no failure that it goes on with is taken for anything
else. -/

theorem makeAtOnce_neutral (ty : Ty) (source : Source) : PolicyNeutral fun s => (s.makeAtOnce ty source, s) := by
  simp only [makeAtOnce_eq]
  exact make_neutral ty source

theorem recordAtOnce_neutral (ty : Ty) (fields : List (String × Value)) :
    PolicyNeutral fun s => (s.recordAtOnce ty fields, s) := by
  simp only [recordAtOnce_eq]
  exact record_neutral ty fields

theorem fieldAtOnce_neutral (value : Value) (attr : String) : PolicyNeutral fun s => (s.fieldAtOnce value attr, s) := by
  simp only [fieldAtOnce_eq]
  exact field_neutral value attr

theorem operateAtOnce_neutral (op : Operator) (a b : Value) : PolicyNeutral fun s => (s.operateAtOnce op a b, s) := by
  simp only [operateAtOnce_eq]
  exact operate_neutral op a b

theorem either_neutral (a b : Value) : PolicyNeutral fun s => s.either a b := by
  intro s hs
  have hsame : (s.under .pass).combinable a b = s.combinable a b := rfl
  simp only [either, hsame]
  cases s.combinable a b with
  | error failure => exact .report hs failure
  | ok found => exact ⟨hs, rfl⟩

theorem overRecord_neutral (function : Value) : PolicyNeutral fun s => s.overRecord function := by
  intro s hs
  have hsame : (s.under .pass).recordDomain function = s.recordDomain function := rfl
  simp only [overRecord, hsame]
  cases s.recordDomain function with
  | error failure => exact .report hs failure
  | ok found => exact ⟨hs, rfl⟩

/-- An argument is given in the same way under either policy, if the body that is then run is neutral. -/
theorem curry_passes (hs : s.policy = .raise)
    (hbody : ∀ {lambda : Lambda} {args : List Value} {ty : Ty}, s.offer function arg = .saturated lambda args ty →
      (code lambda s args).Passes (code lambda (s.under .pass) args)) :
    (s.curry code function arg).Passes ((s.under .pass).curry code function arg) := by
  cases harg : arg.isFailure with
  | true =>
    rw [curry_of_isFailure harg, curry_of_isFailure harg]
    exact .ok hs arg
  | false =>
  cases hfunction : function.isFailure with
  | true =>
    rw [curry_of_isFailure_left hfunction harg, curry_of_isFailure_left hfunction harg]
    exact .ok hs function
  | false =>
  match hresidual : function.residual with
  | [] | [_] =>
    rw [curry_uncallable (by simp [hresidual]) hfunction harg, curry_uncallable (by simp [hresidual]) hfunction harg]
    exact .report hs _
  | slot :: next :: rest =>
    cases hview : s.registry.view slot arg with
    | none =>
      have hviewPass : (s.under .pass).registry.view slot arg = none := hview
      rw [curry_refused hresidual harg hview, curry_refused hresidual harg hviewPass]
      exact .report hs _
    | some viewed =>
      obtain ⟨ty, lambda, applied, rfl⟩ := Value.exists_of_residual hresidual
      have hviewPass : (s.under .pass).registry.view slot arg = some viewed := hview
      match rest with
      | [] =>
        rw [curry_last hresidual harg hview, curry_last hresidual harg hviewPass]
        exact (hbody (offer_last hresidual harg hview)).settle next
      | other :: rest =>
        rw [curry_more hresidual harg hview, curry_more hresidual harg hviewPass]
        exact ⟨hs, rfl⟩

theorem operate_failure (s : Session) (op : Operator) (e : Failure) (b : Value) :
    (s.under .pass).operate op (.failure e) b = .ok (.failure e) := rfl

/-- Once an operation has failed, those after it pass the failure on. -/
theorem foldlM_failure (s : Session) (op : Operator) (e : Failure) (rest : List Value) :
    rest.foldlM ((s.under .pass).operate op) (.failure e) = .ok (.failure e) := by
  induction rest with
  | nil => rfl
  | cons b rest ih =>
    rw [List.foldlM_cons, operate_failure]
    exact ih

theorem foldlM_passes (hs : s.policy = .raise) (op : Operator) (first : Value) (rest : List Value) :
    Passes (rest.foldlM (s.operate op) first, s) (rest.foldlM ((s.under .pass).operate op) first, s.under .pass) := by
  induction rest generalizing first with
  | nil => exact .ok hs first
  | cons b rest ih =>
    have hpassed : ((s.under .pass).operate op first b, s.under .pass) = passed (s.operate op first b, s) :=
      (operate_neutral op first b s hs).eq
    rw [List.foldlM_cons, List.foldlM_cons]
    cases hresult : s.operate op first b with
    | ok value =>
      rw [hresult] at hpassed
      have hvalue : (s.under .pass).operate op first b = .ok value := congrArg Prod.fst hpassed
      rw [hvalue]
      exact ih value
    | error failure =>
      rw [hresult] at hpassed
      have hfailure : (s.under .pass).operate op first b = .ok (.failure failure) := congrArg Prod.fst hpassed
      rw [hfailure]
      exact ⟨hs, congrArg (·, s.under .pass) (s.foldlM_failure op failure rest)⟩

theorem first_of_lt {args : List Value} {index : Nat} (h : index < args.length) :
    ∃ value, first (args.drop index) = .ok value := by
  rw [List.drop_eq_getElem_cons h]
  exact ⟨_, rfl⟩

/-- Plain bodies do the same under either policy. -/
theorem ownCode_neutral {lambda : Lambda} {args : List Value} (h : lambda.Plain) (hne : args ≠ [])
    (hlength : args.length + 1 = lambda.signature.length) : PolicyNeutral fun s => ownCode lambda s args := by
  intro s hs
  obtain ⟨serial, name, signature, body⟩ := lambda
  obtain ⟨arg, rest, rfl⟩ := List.exists_cons_of_ne_nil hne
  cases body with
  | argument index =>
    have hindex : index + 1 < signature.length := h
    have hlt : index < (arg :: rest).length := by
      simp only at hlength
      omega
    obtain ⟨value, hvalue⟩ := first_of_lt hlt
    simp only [ownCode, reduce, hvalue]
    exact .ok hs value
  | constant value => exact .ok hs value
  | report failure => exact .report hs failure
  | cast ty => exact make_neutral ty (.value arg) s hs
  | fold op => exact foldlM_passes hs op arg rest
  | concat => exact make_neutral .str _ s hs
  | field attr => exact field_neutral arg attr s hs
  | raise | delegate | setPolicy | dispatch | spread => exact h.elim

end Session
end TypeAlgebra
