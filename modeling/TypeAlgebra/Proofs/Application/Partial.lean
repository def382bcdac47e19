import TypeAlgebra.Proofs.Application.Code
import TypeAlgebra.Proofs.Session.Laws

/-! Giving a function its arguments group by group. What a function with some of its arguments comes to does not
depend on when it was given them: its type was registered for good, and arguments are viewed as they were then. -/
namespace TypeAlgebra

namespace Registry

/-- The type of a signature is registered once. -/
theorem Extends.functionType {r r' : Registry} {signature : List Ty}
    (h : (r.functionType signature).2.Extends r') : r'.functionType signature = ((r.functionType signature).1, r') := by
  have hfind : (r.functionType signature).2.find? (.function signature) = some (r.functionType signature).1 :=
    find?_internAs rfl r
  have hlater : r'.find? (Form.function (" -> ".intercalate (signature.map r'.name)) signature).key = _ :=
    h.find? hfind
  rw [Registry.functionType, intern, internAs, hlater]

end Registry

namespace Session

variable {code : Code} {s t u : Session} {function given arg : Value} {args : List Value}

/-- Gives a function groups of arguments, one call for each. -/
def callInTurn (code : Code) (s : Session) (function : Value) : List (List Value) → Outcome Value
  | [] => (.ok function, s)
  | args :: rest => (s.call code function args).andThen fun value s => s.callInTurn code value rest

theorem callInTurn_eq (groups : List (List Value)) :
    s.callInTurn code function groups = s.call code function groups.flatten := by
  induction groups generalizing s function with
  | nil => rfl
  | cons args rest ih =>
    rw [List.flatten_cons, call_append]
    simp only [callInTurn, ih]

/-- Arguments are given to a function that goes on missing some, so no body is run. -/
inductive Partial : Session → Value → List Value → Value → Session → Prop
  | refl {s : Session} {function : Value} : Partial s function [] function s
  | step {s t u : Session} {function given last arg : Value} {args : List Value}
      (missing : 2 < function.residual.length) (offer : s.offer function arg = .settled (.ok given) t)
      (accepted : given.isFailure = false) (rest : Partial t given args last u) :
      Partial s function (arg :: args) last u

/-- What a function comes to with one argument more, and more to come. -/
theorem offer_partial (hmissing : 2 < function.residual.length)
    (hoffer : s.offer function arg = .settled (.ok given) t) (haccepted : given.isFailure = false) :
    ∃ ty lambda applied slot next other rest viewed, function = .closure ty lambda applied ∧
      lambda.signature.drop applied.length = slot :: next :: other :: rest ∧ arg.isFailure = false ∧
      s.registry.view slot arg = some viewed ∧
      given = .closure (s.registry.functionType (next :: other :: rest)).1 lambda (applied ++ [viewed]) ∧
      t = { s with registry := (s.registry.functionType (next :: other :: rest)).2 } := by
  obtain ⟨ty, lambda, applied, slot, next, other, rest, rfl, hdrop⟩ := Value.exists_of_residual_lt hmissing
  cases harg : arg.isFailure with
  | true =>
    cases arg with
    | failure e =>
      cases hoffer
      contradiction
    | int | str | record | injection | closure => contradiction
  | false =>
    cases hview : s.registry.view slot arg with
    | none =>
      rw [offer_closure harg, hdrop] at hoffer
      simp only [hview] at hoffer
      have hreport := isFailure_of_report (Offer.settled.inj hoffer).1
      rw [haccepted] at hreport
      contradiction
    | some viewed =>
      rw [offer_more hdrop harg hview] at hoffer
      cases hoffer
      exact ⟨ty, lambda, applied, slot, next, other, rest, viewed, rfl, hdrop, rfl, hview, rfl, rfl⟩

/-- The function then misses one argument less. -/
theorem residual_of_offer (hmissing : 2 < function.residual.length)
    (hoffer : s.offer function arg = .settled (.ok given) t) (haccepted : given.isFailure = false) :
    given.residual = function.residual.tail := by
  obtain ⟨ty, lambda, applied, slot, next, other, rest, viewed, rfl, hdrop, -, -, rfl, -⟩ :=
    offer_partial hmissing hoffer haccepted
  simp only [Value.residual, hdrop]
  rw [List.length_append, ← List.drop_drop, hdrop]
  rfl

/-- From then on the function that misses one argument less comes of the same argument, and nothing else does. -/
theorem offer_lasts (hmissing : 2 < function.residual.length) (has : ∀ ty ∈ function.residual, s.registry.Has ty)
    (hoffer : s.offer function arg = .settled (.ok given) t) (haccepted : given.isFailure = false) :
    s.registry.Extends t.registry ∧
      ∀ {u : Session}, t.registry.Extends u.registry → u.offer function arg = .settled (.ok given) u := by
  obtain ⟨ty, lambda, applied, slot, next, other, rest, viewed, rfl, hdrop, harg, hview, rfl, rfl⟩ :=
    offer_partial hmissing hoffer haccepted
  have hextends : s.registry.Extends (s.registry.functionType (next :: other :: rest)).2 :=
    Registry.intern_extends rfl (Registry.sound_of_fields? rfl)
  simp only [Value.residual, hdrop] at has
  refine ⟨hextends, fun {u} hu => ?_⟩
  have hsame : u.registry.view slot arg = some viewed := by
    rw [(hextends.trans hu).view (has slot List.mem_cons_self), hview]
  rw [offer_more hdrop harg hsame, hu.functionType]

theorem Partial.lasts (h : Partial s function args given t) (has : ∀ ty ∈ function.residual, s.registry.Has ty) :
    s.registry.Extends t.registry ∧
      ∀ {u : Session}, t.registry.Extends u.registry → u.call code function args = (.ok given, u) := by
  induction h with
  | refl => exact ⟨.refl _, fun _ => rfl⟩
  | @step s t u function given last arg args missing offer accepted rest ih =>
    obtain ⟨hextends, hlasts⟩ := offer_lasts missing has offer accepted
    have hrest : ∀ ty ∈ given.residual, t.registry.Has ty := by
      intro ty hty
      rw [residual_of_offer missing offer accepted] at hty
      exact hextends.has (has ty (List.mem_of_mem_tail hty))
    obtain ⟨hafter, hcall⟩ := ih hrest
    refine ⟨hextends.trans hafter, fun {v} hv => ?_⟩
    rw [call_cons (Value.isFailure_of_residual (List.ne_nil_of_length_pos (by omega)))]
    rw [curry, hlasts (hafter.trans hv)]
    exact hcall hv

theorem Partial.sound (h : Partial s function args given t) (hs : s.registry.Coherent)
    (hfunction : function.Sound s.registry) (hargs : ∀ arg ∈ args, arg.Sound s.registry) :
    Outcome.Sound s (.ok given, t) := by
  induction h with
  | refl => exact .ok hfunction
  | @step s t u function given last arg args missing offer accepted rest ih =>
    have hoffer := offer_sound hs hfunction (hargs arg List.mem_cons_self)
    rw [offer] at hoffer
    have ht := hs.leads hoffer.leads
    refine .of_leads hoffer.leads (ih ht (hoffer.value rfl) fun other hother => ?_)
    exact (hargs other (List.mem_cons_of_mem arg hother)).extends hs hoffer.leads.extends

/-- A call with fewer arguments than are missing, if nothing fails, runs no body. -/
theorem partial_of_call (hfew : args.length < function.missing)
    (hcall : s.call code function args = (.ok given, t)) (haccepted : given.isFailure = false) :
    Partial s function args given t := by
  induction args generalizing s function with
  | nil =>
    cases hcall
    exact .refl
  | cons arg rest ih =>
    have hmissing : 2 < function.residual.length := by
      simp only [List.length_cons, Value.missing] at hfew
      omega
    rw [call_cons (Value.isFailure_of_residual (List.ne_nil_of_length_pos (by omega)))] at hcall
    unfold curry at hcall
    cases hoffer : s.offer function arg with
    | saturated lambda all ty =>
      obtain ⟨slot, hresidual⟩ := residual_of_saturated hoffer
      rw [hresidual] at hmissing
      contradiction
    | settled result u =>
      simp only [hoffer] at hcall
      cases result with
      | error failure => simp at hcall
      | ok value =>
        rw [Outcome.andThen_ok] at hcall
        cases hvalue : value.isFailure with
        | true =>
          rw [call_of_isFailure hvalue] at hcall
          cases hcall
          rw [haccepted] at hvalue
          contradiction
        | false =>
          refine .step hmissing hoffer hvalue (ih ?_ hcall)
          rw [Value.missing, residual_of_offer hmissing hoffer hvalue, List.length_tail]
          simp only [List.length_cons, Value.missing] at hfew
          omega

end Session

namespace History

variable {policy : Policy} {marker : Char} {h h' : History} {code : Code}

/-- How calls of a function add up. -/
structure CallLaws (code : Code) (h : History) (function : Value) : Prop where
  /-- Arguments count one after the other, in whatever groups they are given. -/
  groups : ∀ groups : List (List Value),
    h.session.callInTurn code function groups = h.session.call code function groups.flatten
  /-- A function that misses some arguments does with the rest, whatever happened meanwhile, what it would do with
  all of them at once. -/
  lasting : ∀ {args : List Value} {given : Value} {s : Session} {h' : History}, (∀ arg ∈ args, h.Known arg) →
    args.length < function.missing → h.session.call code function args = (.ok given, s) → given.isFailure = false →
      Run (h.after (.ok given, s)) h' → ∀ rest : List Value,
        h'.session.call code given rest = h'.session.call code function (args ++ rest)

theorem Run.call_laws {function : Value} (run : Run (start policy marker) h) (known : h.Known function) :
    h.CallLaws code function where
  groups := Session.callInTurn_eq
  lasting := by
    intro args given s h' knownArgs few called accepted later rest
    have hs := run.sound
    have hfunction := hs.known known
    have hpartial := Session.partial_of_call few called accepted
    have hgiven := hpartial.sound hs.coherent hfunction fun arg harg => hs.known (knownArgs arg harg)
    have hlater := (later.grows (hs.after hgiven)).leads.extends
    rw [Session.call_append, (hpartial.lasts (hfunction.fits.has_residual hs.coherent)).2 hlater]
    rfl

/-- Adds two numbers. -/
def plus : Lambda := ⟨0, "add", [.int, .int, .int], .fold .add⟩

/-- A number was made, then the function. -/
def adding : History :=
  ⟨⟨(Registry.initial.functionType plus.signature).2, .raise, '$', 1⟩, [.closure ⟨3⟩ plus [], .int .int 1], []⟩

theorem run_adding : Run (start .raise '$') adding := by
  have number : Step (start .raise '$') _ := .make .int (.text "1") nofun
  have made : Step ((start .raise '$').give (.ok (.int .int 1))) _ :=
    @Step.function _ "add" [.int, .int] .int (.fold .add) (by decide) nofun
  exact (Run.refl.step number).step made

/-- The session after the function was given one number and a sum was formed. -/
def addingLater : Session := ((adding.session.functionType [.int, .int]).2.union .int .str).2

/-- The function that misses one number adds the other one as if both were given now. -/
theorem call_laws_plus :
    addingLater.call Session.ownCode (.closure ⟨4⟩ plus [.int .int 1]) [.int .int 2] =
      addingLater.call Session.ownCode (.closure ⟨3⟩ plus []) [.int .int 1, .int .int 2] ∧
    addingLater.call Session.ownCode (.closure ⟨4⟩ plus [.int .int 1]) [.int .int 2] =
      (.ok (.int .int 3), addingLater) := by
  have known : adding.Known (.closure ⟨3⟩ plus []) := ⟨_, .inl List.mem_cons_self, .refl⟩
  have knownArgs : ∀ arg ∈ [Value.int .int 1], adding.Known arg :=
    List.forall_mem_singleton.mpr ⟨_, .inl (List.mem_cons_of_mem _ List.mem_cons_self), .refl⟩
  have later : Run (adding.after (.ok (.closure ⟨4⟩ plus [.int .int 1]),
      (adding.session.functionType [.int, .int]).2)) _ :=
    Run.refl.step (.union (a := .int) (b := .str) (by decide) (by decide))
  exact ⟨(Run.call_laws run_adding known).lasting knownArgs (by decide) rfl rfl later [.int .int 2], rfl⟩

end History
end TypeAlgebra
