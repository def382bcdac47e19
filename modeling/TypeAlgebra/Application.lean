import TypeAlgebra.Application.Step

/-! Applying functions. Arguments are taken one at a time, each viewed as its place in the signature asks;
the body runs when the last one is in. Each application within another has less weight to apply, so there
is an end to them, and the result weighs no more than what was applied. -/
namespace TypeAlgebra
open Value (weightAll)

/-- The result, if there is one, weighs no more than so much. -/
def Outcome.Within (bound : Nat) (outcome : Outcome Value) : Prop :=
  ∀ t, outcome.1 = .ok t → t.weight ≤ bound

theorem Outcome.within_ok {value : Value} {s : Session} {bound : Nat} (h : value.weight ≤ bound) :
    Outcome.Within bound (.ok value, s) := by
  intro t ht
  rw [← Except.ok.inj ht]
  exact h

theorem Outcome.within_error {failure : Failure} {s : Session} {bound : Nat} :
    Outcome.Within bound (.error failure, s) := by
  intro t ht
  contradiction

theorem Outcome.Within.mono {outcome : Outcome Value} {m n : Nat} (h : outcome.Within m) (hle : m ≤ n) :
    outcome.Within n :=
  fun t ht => Nat.le_trans (h t ht) hle

namespace Session

/-- Gives a function one more argument, and runs its body if that was the last one. Where the body hands
on to another function, `next` applies that one. -/
def supply (s : Session) (function arg : Value)
    (next : Session → (inner : Value) → (args : List Value) →
      inner.weight + weightAll args + args.length < function.weight + arg.weight → Outcome Value) :
    Outcome Value :=
  match ho : s.offer function arg with
  | .settled result s => (result, s)
  | .saturated lambda args ty =>
    match hr : s.reduce args lambda.body with
    | .done result s => settle ty (result, s)
    | .handOn inner xs => settle ty (next s inner xs (weight_handOn ho hr))

section Supply

variable {s t : Session} {function arg inner : Value} {lambda : Lambda} {args xs : List Value} {ty : Ty}
  {result : Except Failure Value}
  {next : Session → (inner : Value) → (args : List Value) →
    inner.weight + weightAll args + args.length < function.weight + arg.weight → Outcome Value}

theorem supply_of_settled (ho : s.offer function arg = .settled result t) :
    s.supply function arg next = (result, t) := by
  unfold supply
  split
  · rename_i h
    rw [ho] at h
    obtain ⟨rfl, rfl⟩ := Offer.settled.inj h
    rfl
  · rename_i h
    rw [ho] at h
    contradiction

theorem supply_of_done (ho : s.offer function arg = .saturated lambda args ty)
    (hr : s.reduce args lambda.body = .done result t) :
    s.supply function arg next = settle ty (result, t) := by
  unfold supply
  split <;> rename_i h <;> rw [ho] at h
  · contradiction
  · obtain ⟨rfl, rfl, rfl⟩ := Offer.saturated.inj h
    split <;> rename_i h <;> rw [hr] at h
    · obtain ⟨rfl, rfl⟩ := Reduction.done.inj h
      rfl
    · contradiction

theorem supply_of_handOn (ho : s.offer function arg = .saturated lambda args ty)
    (hr : s.reduce args lambda.body = .handOn inner xs) :
    s.supply function arg next = settle ty (next s inner xs (weight_handOn ho hr)) := by
  unfold supply
  split <;> rename_i h <;> rw [ho] at h
  · contradiction
  · obtain ⟨rfl, rfl, rfl⟩ := Offer.saturated.inj h
    split <;> rename_i h <;> rw [hr] at h
    · contradiction
    · obtain ⟨rfl, rfl⟩ := Reduction.handOn.inj h
      rfl

end Supply

theorem supply_within {s : Session} {function arg : Value}
    {next : Session → (inner : Value) → (args : List Value) →
      inner.weight + weightAll args + args.length < function.weight + arg.weight → Outcome Value}
    (h : ∀ s inner args hlt, (next s inner args hlt).Within (inner.weight + weightAll args)) :
    (s.supply function arg next).Within (function.weight + arg.weight) := by
  have hoffer := s.offer_within function arg
  unfold supply
  split
  · rename_i ho
    rw [ho] at hoffer
    exact hoffer
  · rename_i lambda args ty ho
    rw [ho] at hoffer
    obtain ⟨hargs, hbound⟩ := hoffer
    have hreduce := s.reduce_within hargs lambda.body
    intro t ht
    split at ht
    · rename_i hr
      rw [hr] at hreduce
      obtain ⟨u, hu, hle⟩ := weight_settle ht
      have := hreduce u hu
      omega
    · rename_i inner xs hr
      obtain ⟨u, hu, hle⟩ := weight_settle ht
      have := h _ _ _ _ u hu
      have := weight_handOn ho hr
      omega

theorem weight_rest {function value arg : Value} (h : value.weight ≤ function.weight + arg.weight)
    (rest : List Value) :
    value.weight + weightAll rest ≤ function.weight + weightAll (arg :: rest) := by
  simp only [weightAll]
  omega

/-- Applies a function to arguments, and says what the result weighs. -/
def applyBounded (s : Session) (function : Value) (args : List Value) :
    { outcome : Outcome Value // outcome.Within (function.weight + weightAll args) } :=
  match args with
  | [] => ⟨(.ok function, s), Outcome.within_ok (Nat.le_add_right ..)⟩
  | arg :: rest =>
    if function.isFailure then ⟨(.ok function, s), Outcome.within_ok (Nat.le_add_right ..)⟩
    else
      match h : s.supply function arg fun s inner xs _ => (applyBounded s inner xs).1 with
      | (.error failure, s) => ⟨(.error failure, s), Outcome.within_error⟩
      | (.ok value, s) =>
        have hw : value.weight ≤ function.weight + arg.weight :=
          supply_within (fun s inner xs _ => (applyBounded s inner xs).2) value (by rw [h])
        ⟨(applyBounded s value rest).1, (applyBounded s value rest).2.mono (weight_rest hw rest)⟩
termination_by function.weight + weightAll args + args.length
decreasing_by all_goals simp only [weightAll, List.length_cons]; omega

/-- Applies a function to arguments, as many as there are; a failure on the way is the result. -/
def apply (s : Session) (function : Value) (args : List Value) : Outcome Value :=
  (s.applyBounded function args).1

theorem weight_apply {s : Session} {function t : Value} {args : List Value}
    (h : (s.apply function args).1 = .ok t) : t.weight ≤ function.weight + weightAll args :=
  (s.applyBounded function args).2 t h

@[simp] theorem apply_nil (s : Session) (function : Value) :
    s.apply function [] = (.ok function, s) := by
  rw [apply, applyBounded]

theorem apply_of_isFailure {s : Session} {function : Value} (h : function.isFailure)
    (args : List Value) : s.apply function args = (.ok function, s) := by
  cases args with
  | nil => exact s.apply_nil function
  | cons arg rest => rw [apply, applyBounded, if_pos h]

/-- A function takes its arguments one after the other. -/
theorem apply_cons {s : Session} {function : Value} (h : function.isFailure = false) (arg : Value)
    (rest : List Value) :
    s.apply function (arg :: rest) =
      (s.supply function arg fun s inner xs _ => s.apply inner xs).andThen
        fun value s => s.apply value rest := by
  rw [apply, applyBounded, if_neg (by rw [h]; exact Bool.false_ne_true)]
  unfold apply
  split <;>
    exact (congrArg (Outcome.andThen · fun value s => (s.applyBounded value rest).1) ‹_›).symm

/-- Applies a function to one argument. -/
def applyOne (s : Session) (function arg : Value) : Outcome Value :=
  if arg.isFailure then (.ok arg, s) else s.apply function [arg]

/-- The value of a new lambda. -/
def makeLambda (s : Session) (name : String) (signature : List Ty) (body : Body) :
    Value × Session :=
  let (ty, registry) := s.registry.functionType signature
  (.closure ty ⟨s.lambdas, name, signature, body⟩ [], { s with registry, lambdas := s.lambdas + 1 })

/-- A new function of one argument or more. -/
def function (s : Session) (name : String) (args : List Ty) (result : Ty) (body : Body) :
    Outcome Value :=
  if args.isEmpty then
    (.error (.invalidArgument s!"at least one argument type for `{name}`" "none"), s)
  else
    let (value, s) := s.makeLambda name (args ++ [result]) body
    (.ok value, s)

end Session
end TypeAlgebra
