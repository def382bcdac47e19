import TypeAlgebra.Proofs.Application.Partial
import TypeAlgebra.Proofs.Policy.Passing

/-! Where an operation fails, nothing is left of it. Each checks what it is given before it registers anything, and
what it registers then cannot fail. A call that fails before a body is run has registered nothing but the types of the
functions that it came to on the way. -/
namespace TypeAlgebra

/-- There is a failure, raised or passed on. -/
def Failed : Except Failure Value → Prop
  | .error _ => True
  | .ok value => value.isFailure

/-- The operation fails by raising, under either policy, and then leaves the session as it was. -/
structure Raises {α : Type} (act : Session → Outcome α) : Prop where
  kept : ∀ {s : Session} {failure : Failure}, (act s).1 = .error failure → (act s).2 = s
  policyFree : ∀ (s : Session) (policy : Policy), act (s.under policy) = ((act s).1, (act s).2.under policy)

/-- The operation does what these steps do, each of which takes effect at once. So where it raises a failure, no step
has taken effect before. -/
structure RaisesInSteps {α : Type} (act steps : Session → Outcome α) : Prop where
  same : ∀ s, act s = steps s
  raises : Raises steps

/-- What a signature still asks for after one argument, after two, and so on. -/
def residuals (signature : List Ty) : Nat → List (List Ty)
  | 0 => []
  | n + 1 => signature.tail :: residuals signature.tail n

namespace Session

/-- The session after the types of some signatures were registered, one after the other. -/
def withFunctionTypes (s : Session) (signatures : List (List Ty)) : Session :=
  { s with registry := signatures.foldl (fun r signature => (r.functionType signature).2) s.registry }

/-! Forming types where every step takes effect at once, so that one that fails would leave the earlier ones behind. -/

/-- Enters a form that is not there yet. -/
def enter (s : Session) (form : Form) : Outcome Ty :=
  match s.registry.find? form.key with
  | some ty => (.ok ty, s)
  | none => (.ok ⟨s.registry.forms.length⟩, { s with registry := (s.registry.intern form).2 })

def declareInSteps (s : Session) (name : String) (ty : Ty) : Outcome Unit :=
  match s.registry.lookup name with
  | some _ => (.error (.alreadyDefined name), s)
  | none =>
    (.ok (), { s with registry := { s.registry with names := s.registry.names ++ [(name, ty)] } })

def refineInSteps (s : Session) (ty : Ty) (refinement : Refinement) : Outcome Ty :=
  if refinement.constraints.isEmpty then (.ok ty, s)
  else match s.registry.get ty with
    | .primitive base constraints =>
      s.enter (.primitive base
        (refinement.constraints.foldl (fun all c => Sorted.insert (·.key) c all) constraints))
    | other => (.error (.invalidArgument "a primitive type to refine" s!"<{other.display}>"), s)

def productInSteps (s : Session) (fields : List (String × Ty)) : Outcome Ty :=
  let name := " & ".intercalate (fields.map fun (_, ty) => s.registry.name ty)
  match Registry.repeated? fields with
  | some failure => (.error failure, s)
  | none => s.enter (.product name fields)

def namedProductInSteps (s : Session) (name : String) (fields : List (String × Ty)) : Outcome Ty :=
  match Registry.repeated? fields, s.registry.lookup name with
  | some failure, _ => (.error failure, s)
  | none, some bound =>
    if s.registry.find? (.product name fields) = some bound then (.ok bound, s)
    else (.error (.alreadyDefined name), s)
  | none, none =>
    (s.enter (.product name fields)).andThen fun ty s =>
      (s.declareInSteps name ty).andThen fun _ s => (.ok ty, s)

/-- A call takes the arguments in front without running a body, and fails at the next one before it runs one. -/
inductive FailsAt (s : Session) (function : Value) (front : List Value) (arg : Value)
    (result : Except Failure Value) (t : Session) : Prop
  | intro {given : Value} {u : Session} (taken : Partial s function front given t)
    (offer : t.offer given arg = .settled result u) (failed : Failed result)

/-- A call takes the arguments in front without running a body, and runs one with the next. -/
inductive RunsAt (s : Session) (function : Value) (front : List Value) (arg : Value) : Prop
  | intro {given : Value} {t : Session} {lambda : Lambda} {args : List Value} {ty : Ty}
    (taken : Partial s function front given t) (offer : t.offer given arg = .saturated lambda args ty)

/-- What operations that fail leave of the session. -/
structure FailureLaws (code : Code) : Prop where
  refine : ∀ ty refinement, RaisesInSteps (·.refine ty refinement) (·.refineInSteps ty refinement)
  product : ∀ fields, RaisesInSteps (·.product fields) (·.productInSteps fields)
  /-- Once a product is registered, its name is free to be declared. -/
  namedProduct : ∀ name fields, RaisesInSteps (·.namedProduct name fields) (·.namedProductInSteps name fields)
  declare : ∀ name ty, RaisesInSteps (·.declare name ty) (·.declareInSteps name ty)
  function : ∀ name args result body, Raises (·.function name args result body) ∧
    ∀ (s : Session) value, (s.function name args result body).1 = .ok value → value.isFailure = false
  layout : ∀ product text, Raises fun s => (s.layout product text, s)
  either : ∀ {s : Session} {a b : Value}, Failed (s.either a b).1 → (s.either a b).2 = s
  overRecord : ∀ {s : Session} {function : Value}, Failed (s.overRecord function).1 → (s.overRecord function).2 = s
  curry : ∀ {s t : Session} {function arg result}, s.offer function arg = .settled result t → Failed result →
    s.curry code function arg = (result, s)
  /-- The types registered are those of what the function still asked for after each argument that it took. -/
  call : ∀ {s t : Session} {function front arg result}, function.isFailure = false →
    s.FailsAt function front arg result t → ∀ back,
      s.call code function (front ++ arg :: back) = (result, t) ∧
        t = s.withFunctionTypes (residuals function.residual front.length)
  /-- A call that does not fail so, and runs no body, takes all its arguments. -/
  stops : ∀ (s : Session) function args, (∃ given t, Partial s function args given t) ∨
    ∃ front arg back, args = front ++ arg :: back ∧
      ((∃ result t, s.FailsAt function front arg result t) ∨ s.RunsAt function front arg)

variable {code : Code} {s t u : Session} {function given arg : Value} {result : Except Failure Value}

/-- Whatever happens, a form is entered. -/
theorem enter_eq (s : Session) (form : Form) : s.enter form = s.adopt (.ok (s.registry.intern form)) := by
  unfold enter adopt Registry.intern Registry.internAs
  cases s.registry.find? form.key <;> rfl

theorem enter_ne_error (s : Session) (form : Form) (failure : Failure) : (s.enter form).1 ≠ .error failure := by
  rw [enter_eq]
  exact nofun

theorem adopt_under {α : Type} (s : Session) (result : Except Failure (α × Registry)) (policy : Policy) :
    (s.under policy).adopt result = ((s.adopt result).1, (s.adopt result).2.under policy) := by
  cases result <;> rfl

theorem declare_inSteps (s : Session) (name : String) (ty : Ty) : s.declare name ty = s.declareInSteps name ty := by
  unfold declare declareInSteps Registry.declare
  cases s.registry.lookup name <;> rfl

theorem refine_inSteps (s : Session) (ty : Ty) (refinement : Refinement) :
    s.refine ty refinement = s.refineInSteps ty refinement := by
  unfold refine refineInSteps Registry.refine
  cases refinement.constraints with
  | nil => rfl
  | cons added others =>
    cases s.registry.get ty with
    | primitive base constraints => exact (s.enter_eq _).symm
    | sum | product | function | failure => rfl

theorem product_inSteps (s : Session) (fields : List (String × Ty)) : s.product fields = s.productInSteps fields := by
  unfold product productInSteps Registry.product
  cases Registry.repeated? fields with
  | some failure => rfl
  | none => exact (s.enter_eq _).symm

theorem namedProduct_inSteps (s : Session) (name : String) (fields : List (String × Ty)) :
    s.namedProduct name fields = s.namedProductInSteps name fields := by
  unfold namedProduct Registry.namedProduct namedProductInSteps
  cases Registry.repeated? fields with
  | some failure => rfl
  | none =>
    cases hlookup : s.registry.lookup name with
    | some bound => dsimp only; split <;> rfl
    | none =>
      have hfree := (s.registry.lookup_intern (.product name fields) name).trans hlookup
      simp [enter_eq, adopt, declareInSteps, Registry.declare, hfree, Except.map]

theorem raises_declareInSteps (name : String) (ty : Ty) : Raises (·.declareInSteps name ty) where
  kept := by
    intro s failure h
    unfold declareInSteps at h ⊢
    cases hlookup : s.registry.lookup name with
    | some bound => rfl
    | none => rw [hlookup] at h; contradiction
  policyFree s policy := by
    rw [← declare_inSteps, ← declare_inSteps]
    exact adopt_under s _ policy

theorem raises_refineInSteps (ty : Ty) (refinement : Refinement) : Raises (·.refineInSteps ty refinement) where
  kept := by
    intro s failure h
    unfold refineInSteps at h ⊢
    split
    · rfl
    · rw [if_neg ‹_›] at h
      cases hget : s.registry.get ty with
      | primitive base constraints =>
        rw [hget] at h
        exact absurd h (enter_ne_error s _ failure)
      | sum | product | function | failure => rfl
  policyFree s policy := by
    rw [← refine_inSteps, ← refine_inSteps]
    exact adopt_under s _ policy

theorem raises_productInSteps (fields : List (String × Ty)) : Raises (·.productInSteps fields) where
  kept := by
    intro s failure h
    unfold productInSteps at h ⊢
    cases hrepeated : Registry.repeated? fields with
    | some refused => rfl
    | none =>
      rw [hrepeated] at h
      exact absurd h (enter_ne_error s _ failure)
  policyFree s policy := by
    rw [← product_inSteps, ← product_inSteps]
    exact adopt_under s _ policy

theorem raises_namedProductInSteps (name : String) (fields : List (String × Ty)) :
    Raises (·.namedProductInSteps name fields) where
  kept := by
    intro s failure h
    unfold namedProductInSteps at h ⊢
    cases hrepeated : Registry.repeated? fields with
    | some refused => rfl
    | none =>
      cases hlookup : s.registry.lookup name with
      | some bound => dsimp only; split <;> rfl
      | none =>
        -- The form is entered before the name is declared, which then cannot fail.
        have hfree := (s.registry.lookup_intern (.product name fields) name).trans hlookup
        simp [hrepeated, hlookup, enter_eq, adopt, declareInSteps, hfree] at h
  policyFree s policy := by
    rw [← namedProduct_inSteps, ← namedProduct_inSteps]
    exact adopt_under s _ policy

theorem raises_function (name : String) (args : List Ty) (result : Ty) (body : Body) :
    Raises (·.function name args result body) where
  kept := by
    intro s failure h
    unfold function at h ⊢
    split at h
    · rw [if_pos ‹_›]
    · contradiction
  policyFree s policy := by
    unfold function
    split <;> rfl

theorem isFailure_of_function {name : String} {args : List Ty} {result : Ty} {body : Body} {value : Value}
    (h : (s.function name args result body).1 = .ok value) : value.isFailure = false := by
  unfold function at h
  split at h
  · contradiction
  · cases h; rfl

theorem either_kept {a b : Value} (h : Failed (s.either a b).1) : (s.either a b).2 = s := by
  unfold either at h ⊢
  cases hcombinable : s.combinable a b with
  | error failure => rfl
  | ok found => simp [hcombinable, Failed, makeLambda, Value.isFailure, Value.failure?] at h

theorem overRecord_kept (h : Failed (s.overRecord function).1) : (s.overRecord function).2 = s := by
  unfold overRecord at h ⊢
  cases hdomain : s.recordDomain function with
  | error failure => rfl
  | ok found => simp [hdomain, Failed, makeLambda, Value.isFailure, Value.failure?] at h

theorem failed_report (s : Session) (failure : Failure) : Failed (s.report failure) := by
  cases h : s.report failure with
  | error raised => trivial
  | ok value => exact isFailure_of_report h

/-- An argument that runs no body is refused, or kept by a function that misses more. -/
theorem settled_cases (h : s.offer function arg = .settled result t) : (Failed result ∧ t = s) ∨
    ∃ given, result = .ok given ∧ given.isFailure = false ∧ 2 < function.residual.length := by
  unfold offer at h
  split at h
  · cases h
    exact .inl ⟨rfl, rfl⟩
  · split at h
    · rename_i slot next rest hdrop
      split at h
      · cases h
        exact .inl ⟨failed_report s _, rfl⟩
      · split at h
        · contradiction
        · cases h
          exact .inr ⟨_, rfl, rfl, by simp [Value.residual, hdrop]⟩
    · cases h
      exact .inl ⟨failed_report s _, rfl⟩
  · cases h
    exact .inl ⟨rfl, rfl⟩
  · cases h
    exact .inl ⟨failed_report s _, rfl⟩

theorem eq_of_settled (h : s.offer function arg = .settled result t) (hfailed : Failed result) : t = s := by
  obtain ⟨-, rfl⟩ | ⟨given, rfl, haccepted, -⟩ := settled_cases h
  · rfl
  · rw [Failed, haccepted] at hfailed
    contradiction

theorem curry_failed (h : s.offer function arg = .settled result t) (hfailed : Failed result) :
    s.curry code function arg = (result, s) := by
  rw [curry, h, eq_of_settled h hfailed]

theorem Partial.call_failed {front : List Value} (h : Partial s function front given t)
    (hfunction : function.isFailure = false) (hoffer : t.offer given arg = .settled result u) (hfailed : Failed result)
    (back : List Value) : s.call code function (front ++ arg :: back) = (result, t) := by
  induction h with
  | refl =>
    rw [List.nil_append, call_cons hfunction, curry_failed hoffer hfailed]
    cases result with
    | error failure => rfl
    | ok value => exact call_of_isFailure hfailed back
  | step missing offer accepted rest ih =>
    rw [List.cons_append, call_cons hfunction, curry, offer]
    exact ih accepted hoffer

/-- Taking arguments without running a body registers types of functions, and does nothing else. -/
theorem Partial.eq_withFunctionTypes {front : List Value} (h : Partial s function front given t) :
    t = s.withFunctionTypes (residuals function.residual front.length) := by
  induction h with
  | refl => rfl
  | @step s t u function given last arg args missing offer accepted rest ih =>
    have htail := residual_of_offer missing offer accepted
    obtain ⟨ty, lambda, applied, slot, next, other, more, viewed, rfl, hdrop, -, -, -, rfl⟩ :=
      offer_partial missing offer accepted
    rw [htail] at ih
    rw [ih, List.length_cons, residuals, Value.residual, hdrop]
    rfl

theorem call_stops (s : Session) (function : Value) (args : List Value) : (∃ given t, Partial s function args given t) ∨
    ∃ front arg back, args = front ++ arg :: back ∧
      ((∃ result t, s.FailsAt function front arg result t) ∨ s.RunsAt function front arg) := by
  induction args generalizing s function with
  | nil => exact .inl ⟨function, s, .refl⟩
  | cons arg rest ih =>
    cases hoffer : s.offer function arg with
    | saturated lambda args ty => exact .inr ⟨[], arg, rest, rfl, .inr (.intro .refl hoffer)⟩
    | settled result t =>
      obtain ⟨hfailed, -⟩ | ⟨given, rfl, haccepted, hmissing⟩ := settled_cases hoffer
      · exact .inr ⟨[], arg, rest, rfl, .inl ⟨result, s, .intro .refl hoffer hfailed⟩⟩
      · obtain ⟨last, u, hrest⟩ | ⟨front, other, back, rfl, hstops⟩ := ih t given
        · exact .inl ⟨last, u, .step hmissing hoffer haccepted hrest⟩
        · refine .inr ⟨arg :: front, other, back, rfl, ?_⟩
          obtain ⟨result, u, taken, offer, failed⟩ | ⟨taken, offer⟩ := hstops
          · exact .inl ⟨result, u, .intro (.step hmissing hoffer haccepted taken) offer failed⟩
          · exact .inr (.intro (.step hmissing hoffer haccepted taken) offer)

/-- An operation that fails has changed nothing, but for what a call has registered on the way to its failure. -/
theorem failureLaws (code : Code) : FailureLaws code where
  refine ty refinement := ⟨(refine_inSteps · ty refinement), raises_refineInSteps ty refinement⟩
  product fields := ⟨(product_inSteps · fields), raises_productInSteps fields⟩
  namedProduct name fields := ⟨(namedProduct_inSteps · name fields), raises_namedProductInSteps name fields⟩
  declare name ty := ⟨(declare_inSteps · name ty), raises_declareInSteps name ty⟩
  function name args result body := ⟨raises_function name args result body, fun _ _ => isFailure_of_function⟩
  layout product text := ⟨fun _ => rfl, fun _ _ => rfl⟩
  either := either_kept
  overRecord := overRecord_kept
  curry := curry_failed
  call hfunction hfails back := by
    obtain ⟨taken, offer, failed⟩ := hfails
    exact ⟨taken.call_failed hfunction offer failed back, taken.eq_withFunctionTypes⟩
  stops := call_stops

open History in
/-- A sum that is given a number and then a text fails at the text, and leaves the type of functions that miss one
number. -/
theorem failureLaws_plus :
    adding.session.call ownCode (.closure ⟨3⟩ plus []) [.int .int 1, .str .str "x"] =
      (.error (.typeMismatch "int" "str"), adding.session.withFunctionTypes [[.int, .int]]) := by
  have taken : Partial adding.session (.closure ⟨3⟩ plus []) [.int .int 1] (.closure ⟨4⟩ plus [.int .int 1])
      (adding.session.functionType [.int, .int]).2 := .step (by decide) rfl rfl .refl
  have offer : (adding.session.functionType [.int, .int]).2.offer (.closure ⟨4⟩ plus [.int .int 1]) (.str .str "x") =
      .settled (.error (.typeMismatch "int" "str")) (adding.session.functionType [.int, .int]).2 := rfl
  obtain ⟨hcall, hsession⟩ := (failureLaws ownCode).call rfl (.intro taken offer trivial) []
  rw [hsession] at hcall
  exact hcall

end Session
end TypeAlgebra
