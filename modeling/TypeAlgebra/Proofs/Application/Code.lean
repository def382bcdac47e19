import TypeAlgebra.Combinator
import TypeAlgebra.Proofs.View

/-! Calls of functions whose bodies are any code. Only what a function made of other functions does is settled: it
hands its argument on to one of these. Applying functions whose bodies are data is a case of such calls. -/
namespace TypeAlgebra

/-- What the body of each function does when it is given the session and all its arguments. -/
abbrev Code := Lambda → Session → List Value → Outcome Value

/-- Whether a function with this body was made of other functions. -/
def Body.combines : Body → Bool
  | .dispatch .. | .spread .. => true
  | _ => false

namespace Outcome

variable {α β γ : Type}

@[simp] theorem andThen_ok (a : α) (s : Session) (next : α → Session → Outcome β) :
    andThen (.ok a, s) next = next a s := rfl

@[simp] theorem andThen_error (failure : Failure) (s : Session) (next : α → Session → Outcome β) :
    andThen (.error failure, s) next = (.error failure, s) := rfl

theorem andThen_assoc (outcome : Outcome α) (next : α → Session → Outcome β) (last : β → Session → Outcome γ) :
    (outcome.andThen next).andThen last = outcome.andThen fun a s => (next a s).andThen last := by
  obtain ⟨result, s⟩ := outcome
  cases result <;> rfl

@[simp] theorem andThen_done (outcome : Outcome α) : outcome.andThen (fun a s => (.ok a, s)) = outcome := by
  obtain ⟨result, s⟩ := outcome
  cases result <;> rfl

end Outcome

namespace Value

/-- The types of the arguments that a function still takes, then its result type. -/
def residual : Value → List Ty
  | .closure _ lambda applied => lambda.signature.drop applied.length
  | _ => []

/-- How many arguments a function still takes. -/
def missing (function : Value) : Nat := function.residual.length - 1

theorem exists_of_residual {function : Value} {slot : Ty} {rest : List Ty} (h : function.residual = slot :: rest) :
    ∃ ty lambda applied, function = .closure ty lambda applied := by
  cases function with
  | closure ty lambda applied => exact ⟨ty, lambda, applied, rfl⟩
  | int | str | record | injection | failure => contradiction

theorem exists_of_residual_lt {function : Value} (h : 2 < function.residual.length) :
    ∃ ty lambda applied slot next other rest, function = .closure ty lambda applied ∧
      lambda.signature.drop applied.length = slot :: next :: other :: rest := by
  rcases hresidual : function.residual with _ | ⟨slot, _ | ⟨next, _ | ⟨other, rest⟩⟩⟩
  · simp [hresidual] at h
  · simp [hresidual] at h
  · simp [hresidual] at h
  · obtain ⟨ty, lambda, applied, rfl⟩ := exists_of_residual hresidual
    exact ⟨ty, lambda, applied, slot, next, other, rest, rfl, hresidual⟩

theorem isFailure_of_isInjection {value : Value} (h : value.isInjection) : value.isFailure = false := by
  cases value with
  | injection => rfl
  | int | str | record | closure | failure => contradiction

/-- A value with a primitive leaf is no failure. -/
theorem isFailure_of_leaf {value : Value} (h : value.leaf.isPrimitive) : value.isFailure = false := by
  cases value with
  | failure e => contradiction
  | int | str | record | injection | closure => rfl

theorem isFailure_of_residual {function : Value} (h : function.residual ≠ []) : function.isFailure = false := by
  cases function with
  | closure ty lambda applied => rfl
  | int | str | record | injection | failure => contradiction

/-- A function's own type is that of what it still takes. -/
theorem Fits.residual {r : Registry} {function : Value} (h : function.Fits r) (hne : function.residual ≠ []) :
    ∃ name, r.get function.ty = .function name function.residual := by
  cases h with
  | closure form => exact ⟨_, form⟩
  | int | str | record | inl | inr | failure => contradiction

/-- Functions that still take and give the same are of one type. -/
theorem Fits.ty_eq {r : Registry} (hr : r.Coherent) {function other : Value} (h : function.Fits r)
    (h' : other.Fits r) (hne : function.residual ≠ []) (heq : function.residual = other.residual) :
    function.ty = other.ty := by
  obtain ⟨name, hget⟩ := h.residual hne
  obtain ⟨name', hget'⟩ := h'.residual (heq ▸ hne)
  refine hr.eq_of_key h.has h'.has ?_
  rw [hget, hget', heq]
  rfl

theorem Fits.has_residual {r : Registry} (hr : r.Coherent) {function : Value} (h : function.Fits r) :
    ∀ ty ∈ function.residual, r.Has ty := by
  intro ty hty
  obtain ⟨name, hget⟩ := h.residual (List.ne_nil_of_mem hty)
  exact hr.has_part (by rwa [hget])

end Value

namespace Session

/-- Gives a function one more argument, and runs its body if that was the last one. -/
def curry (code : Code) (s : Session) (function arg : Value) : Outcome Value :=
  match s.offer function arg with
  | .settled result s => (result, s)
  | .saturated lambda args ty => settle ty (code lambda s args)

/-- Gives a function its arguments one after the other; a failure on the way is the result. -/
def call (code : Code) (s : Session) (function : Value) : List Value → Outcome Value
  | [] => (.ok function, s)
  | arg :: rest =>
    if function.isFailure then (.ok function, s)
    else (s.curry code function arg).andThen fun value s => s.call code value rest

/-- What a body made of data does: a result, or a call of the function that it hands on to. -/
def follow (code : Code) (s : Session) (args : List Value) (body : Body) : Outcome Value :=
  match s.reduce args body with
  | .done result s => (result, s)
  | .handOn function args => s.call code function args

/-- The code of bodies that are data. -/
def ownCode : Code := fun lambda s args =>
  match s.reduce args lambda.body with
  | .done result s => (result, s)
  | .handOn function args => s.apply function args

end Session

/-- A function made of other functions does what it was made for. All other code is free. -/
def Code.Lawful (code : Code) : Prop :=
  ∀ lambda s args, lambda.body.combines → code lambda s args = s.follow code args lambda.body

namespace Session

variable {code : Code} {s t : Session} {function value arg : Value}

@[simp] theorem call_nil : s.call code function [] = (.ok function, s) := rfl

theorem call_of_isFailure (h : function.isFailure) (args : List Value) :
    s.call code function args = (.ok function, s) := by
  cases args with
  | nil => rfl
  | cons arg rest => rw [call, if_pos h]

theorem call_cons (h : function.isFailure = false) (arg : Value) (rest : List Value) :
    s.call code function (arg :: rest) =
      (s.curry code function arg).andThen fun value s => s.call code value rest := by
  rw [call, if_neg (by simp [h])]

/-- A call with one argument gives the function that argument. -/
theorem call_single (h : function.isFailure = false) (arg : Value) :
    s.call code function [arg] = s.curry code function arg := by
  rw [call_cons h]
  exact Outcome.andThen_done _

/-- A call goes on where one with fewer arguments ends. -/
theorem call_append (xs ys : List Value) :
    s.call code function (xs ++ ys) = (s.call code function xs).andThen fun value s => s.call code value ys := by
  induction xs generalizing s function with
  | nil => rfl
  | cons x xs ih =>
    cases hfailure : function.isFailure with
    | true => rw [call_of_isFailure hfailure, call_of_isFailure hfailure, Outcome.andThen_ok,
        call_of_isFailure hfailure]
    | false =>
      rw [List.cons_append, call_cons hfailure, call_cons hfailure, Outcome.andThen_assoc]
      simp only [ih]

@[simp] theorem curry_failure (e : Failure) : s.curry code function (.failure e) = (.ok (.failure e), s) := rfl

/-- A failure among the arguments is the result, unless another came first. -/
theorem curry_of_isFailure (h : arg.isFailure) : s.curry code function arg = (.ok arg, s) := by
  cases arg with
  | failure e => rfl
  | int | str | record | injection | closure => contradiction

/-- A failure in place of a function is the result as well. -/
theorem curry_of_isFailure_left (h : function.isFailure) (harg : arg.isFailure = false) :
    s.curry code function arg = (.ok function, s) := by
  cases function with
  | failure e =>
    cases arg with
    | failure e' => contradiction
    | int | str | record | injection | closure => rfl
  | int | str | record | injection | closure => contradiction

theorem offer_closure (h : arg.isFailure = false) (ty : Ty) (lambda : Lambda) (applied : List Value) :
    s.offer (.closure ty lambda applied) arg =
      match lambda.signature.drop applied.length with
      | slot :: next :: rest =>
        match s.registry.view slot arg with
        | none =>
          .settled (s.report (.typeMismatch (s.registry.name slot) (s.registry.name arg.ty))) s
        | some viewed =>
          match rest with
          | [] => .saturated lambda (applied ++ [viewed]) next
          | _ :: _ =>
            let (ty, registry) := s.registry.functionType (next :: rest)
            .settled (.ok (.closure ty lambda (applied ++ [viewed]))) { s with registry }
      | _ => .settled (s.report (.uncallable ((Value.closure ty lambda applied).display s.registry))) s := by
  cases arg with
  | failure e => contradiction
  | int | str | record | injection | closure => rfl

/-- A body is run with the last argument that was missing. -/
theorem exists_of_saturated {lambda : Lambda} {args : List Value} {ty : Ty}
    (h : s.offer function arg = .saturated lambda args ty) :
    ∃ own applied slot viewed, function = .closure own lambda applied ∧
      lambda.signature.drop applied.length = [slot, ty] ∧ s.registry.view slot arg = some viewed ∧
      args = applied ++ [viewed] := by
  unfold offer at h
  split at h
  · contradiction
  · rename_i own lambda applied _
    split at h
    · rename_i slot next rest hdrop
      split at h
      · contradiction
      · rename_i viewed hview
        split at h
        · cases h
          exact ⟨own, applied, slot, viewed, rfl, hdrop, hview, rfl⟩
        · contradiction
    · contradiction
  · contradiction
  · contradiction

theorem residual_of_saturated {lambda : Lambda} {args : List Value} {ty : Ty}
    (h : s.offer function arg = .saturated lambda args ty) : ∃ slot, function.residual = [slot, ty] := by
  obtain ⟨own, applied, slot, viewed, rfl, hdrop, -, -⟩ := exists_of_saturated h
  exact ⟨slot, hdrop⟩

theorem offer_last {ty slot result : Ty} {lambda : Lambda} {applied : List Value} {viewed : Value}
    (hdrop : lambda.signature.drop applied.length = [slot, result]) (harg : arg.isFailure = false)
    (hview : s.registry.view slot arg = some viewed) :
    s.offer (.closure ty lambda applied) arg = .saturated lambda (applied ++ [viewed]) result := by
  rw [offer_closure harg, hdrop]
  simp only [hview]

/-- With its last argument a function runs its body. -/
theorem curry_last {ty slot result : Ty} {lambda : Lambda} {applied : List Value} {viewed : Value}
    (hdrop : lambda.signature.drop applied.length = [slot, result]) (harg : arg.isFailure = false)
    (hview : s.registry.view slot arg = some viewed) :
    s.curry code (.closure ty lambda applied) arg = settle result (code lambda s (applied ++ [viewed])) := by
  rw [curry, offer_last hdrop harg hview]

theorem offer_refused {slot next : Ty} {rest : List Ty} (hresidual : function.residual = slot :: next :: rest)
    (harg : arg.isFailure = false) (hview : s.registry.view slot arg = none) :
    s.offer function arg =
      .settled (s.report (.typeMismatch (s.registry.name slot) (s.registry.name arg.ty))) s := by
  obtain ⟨ty, lambda, applied, rfl⟩ := Value.exists_of_residual hresidual
  rw [Value.residual] at hresidual
  rw [offer_closure harg, hresidual]
  simp only [hview]

/-- An argument of another type is refused. -/
theorem curry_refused {slot next : Ty} {rest : List Ty} (hresidual : function.residual = slot :: next :: rest)
    (harg : arg.isFailure = false) (hview : s.registry.view slot arg = none) :
    s.curry code function arg =
      (s.report (.typeMismatch (s.registry.name slot) (s.registry.name arg.ty)), s) := by
  rw [curry, offer_refused hresidual harg hview]

/-- An argument that does not belong to the domain is refused. -/
theorem call_refused {domain result : Ty} (hfunction : function.residual = [domain, result])
    (harg : arg.isFailure = false) (hother : ¬s.registry.belongs arg domain) :
    s.call code function [arg] =
      (s.report (.typeMismatch (s.registry.name domain) (s.registry.name arg.ty)), s) := by
  rw [call_single (Value.isFailure_of_residual (by simp [hfunction]))]
  exact curry_refused hfunction harg (Option.not_isSome_iff_eq_none.mp hother)

/-- With more arguments to come, an argument is kept, viewed as it is asked for. -/
theorem offer_more {ty slot next other : Ty} {rest : List Ty} {lambda : Lambda} {applied : List Value}
    {viewed : Value} (hdrop : lambda.signature.drop applied.length = slot :: next :: other :: rest)
    (harg : arg.isFailure = false) (hview : s.registry.view slot arg = some viewed) :
    s.offer (.closure ty lambda applied) arg =
      .settled (.ok (.closure (s.registry.functionType (next :: other :: rest)).1 lambda (applied ++ [viewed])))
        { s with registry := (s.registry.functionType (next :: other :: rest)).2 } := by
  rw [offer_closure harg, hdrop]
  simp only [hview]

theorem curry_more {ty slot next other : Ty} {rest : List Ty} {lambda : Lambda} {applied : List Value}
    {viewed : Value} (hdrop : lambda.signature.drop applied.length = slot :: next :: other :: rest)
    (harg : arg.isFailure = false) (hview : s.registry.view slot arg = some viewed) :
    s.curry code (.closure ty lambda applied) arg =
      (.ok (.closure (s.registry.functionType (next :: other :: rest)).1 lambda (applied ++ [viewed])),
        { s with registry := (s.registry.functionType (next :: other :: rest)).2 }) := by
  rw [curry, offer_more hdrop harg hview]

/-- What takes no argument is not called. -/
theorem curry_uncallable (hresidual : function.residual.length < 2) (hfunction : function.isFailure = false)
    (harg : arg.isFailure = false) :
    s.curry code function arg = (s.report (.uncallable (function.display s.registry)), s) := by
  cases function with
  | closure ty lambda applied =>
    rw [Value.residual] at hresidual
    unfold curry
    rw [offer_closure harg]
    match hdrop : lambda.signature.drop applied.length, hresidual with
    | [], _ | [_], _ => rfl
  | failure e => contradiction
  | int | str | record | injection =>
    cases arg with
    | failure e => contradiction
    | int | str | record | injection | closure => rfl

section Settle

variable {ty : Ty}

@[simp] theorem settle_error (failure : Failure) : settle ty (.error failure, s) = (.error failure, s) := rfl

theorem settle_of_isFailure (h : value.isFailure) : settle ty (.ok value, s) = (.ok value, s) := by
  rw [settle, Outcome.andThen_ok, if_pos h]

theorem settle_viewed (h : value.isFailure = false) {viewed : Value} (hview : s.registry.view ty value = some viewed) :
    settle ty (.ok value, s) = (.ok viewed, s) := by
  rw [settle, Outcome.andThen_ok, if_neg (by simp [h]), hview]

theorem settle_refused (h : value.isFailure = false) (hview : s.registry.view ty value = none) :
    settle ty (.ok value, s) =
      (s.report (.typeMismatch (s.registry.name ty) (s.registry.name value.ty)), s) := by
  rw [settle, Outcome.andThen_ok, if_neg (by simp [h]), hview]

/-- A value that is of the type passes as it is. -/
theorem settle_ty (value : Value) : settle value.ty (.ok value, s) = (.ok value, s) := by
  cases h : value.isFailure with
  | true => exact settle_of_isFailure h
  | false => exact settle_viewed h (s.registry.view_ty value)

theorem settle_report (failure : Failure) : settle ty (s.report failure, s) = (s.report failure, s) := by
  cases h : s.report failure with
  | error e => rfl
  | ok value => exact settle_of_isFailure (isFailure_of_report h)

/-- Checking a result twice is checking it once. -/
theorem settle_settle (ty : Ty) (outcome : Outcome Value) : settle ty (settle ty outcome) = settle ty outcome := by
  obtain ⟨result, s⟩ := outcome
  cases result with
  | error failure => rfl
  | ok value =>
    cases hfailure : value.isFailure with
    | true => rw [settle_of_isFailure hfailure, settle_of_isFailure hfailure]
    | false =>
      cases hview : s.registry.view ty value with
      | none => rw [settle_refused hfailure hview, settle_report]
      | some viewed =>
        rw [settle_viewed hfailure hview, ← (Registry.view_eq_some hview).1]
        exact settle_ty viewed

end Settle

theorem supply_eq_curry (s : Session) (function arg : Value) :
    (s.supply function arg fun s inner xs _ => s.apply inner xs) = s.curry ownCode function arg := by
  unfold curry ownCode
  cases ho : s.offer function arg with
  | settled result t => exact supply_of_settled ho
  | saturated lambda args ty =>
    cases hr : s.reduce args lambda.body with
    | done result t =>
      rw [supply_of_done ho hr]
      simp only [hr]
    | handOn inner xs =>
      rw [supply_of_handOn ho hr]
      simp only [hr]

/-- Functions whose bodies are data are called as all others are. -/
theorem apply_eq_call (s : Session) (function : Value) (args : List Value) :
    s.apply function args = s.call ownCode function args := by
  induction args generalizing s function with
  | nil => exact s.apply_nil function
  | cons arg rest ih =>
    cases hfailure : function.isFailure with
    | true => rw [apply_of_isFailure hfailure, call_of_isFailure hfailure]
    | false =>
      rw [apply_cons hfailure, call_cons hfailure, supply_eq_curry]
      simp only [ih]

theorem applyOne_eq_curry (s : Session) (function arg : Value) :
    s.applyOne function arg = s.curry ownCode function arg := by
  unfold applyOne
  split
  · rw [curry_of_isFailure ‹_›]
  · rename_i harg
    cases hfailure : function.isFailure with
    | true => rw [apply_of_isFailure hfailure, curry_of_isFailure_left hfailure (Bool.eq_false_iff.mpr harg)]
    | false => rw [apply_eq_call, call_single hfailure]

theorem ownCode_lawful : ownCode.Lawful := by
  intro lambda s args _
  unfold ownCode follow
  split
  · rfl
  · exact s.apply_eq_call _ _

end Session
end TypeAlgebra
