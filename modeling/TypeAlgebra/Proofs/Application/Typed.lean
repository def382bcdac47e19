import TypeAlgebra.Proofs.Policy.Failures

/-! Calls check types. A function asks for its arguments one by one and views each as its slot says; with the last of
them its body runs, and gives a value of the result type. -/
namespace TypeAlgebra

/-- The arguments fit the slots in front, and these are their views. -/
inductive Fitting (r : Registry) : List Ty → List Value → List Value → Prop
  | nil {slots : List Ty} : Fitting r slots [] []
  | cons {slot : Ty} {slots : List Ty} {arg viewed : Value} {args rest : List Value}
      (accepted : arg.isFailure = false) (view : r.view slot arg = some viewed) (more : Fitting r slots args rest) :
      Fitting r (slot :: slots) (arg :: args) (viewed :: rest)

/-- What becomes of what a body gave, in the session after it. -/
inductive Settles (result : Ty) (t : Session) : Except Failure Value → Outcome Value → Prop
  | raised {failure : Failure} : Settles result t (.error failure) (.error failure, t)
  | passed {value : Value} (failed : value.isFailure) : Settles result t (.ok value) (.ok value, t)
  | given {value viewed : Value} (accepted : value.isFailure = false)
      (view : t.registry.view result value = some viewed) (typed : viewed.ty = result) :
      Settles result t (.ok value) (.ok viewed, t)
  | mismatch {value : Value} (accepted : value.isFailure = false) (view : t.registry.view result value = none) :
      Settles result t (.ok value)
        (t.report (.typeMismatch (t.registry.name result) (t.registry.name value.ty)), t)

namespace Session

/-- How a function is called that asks for the slots, and then gives the result type. -/
structure TypedCalls (code : Code) (s : Session) (ty : Ty) (lambda : Lambda) (applied : List Value)
    (slots : List Ty) (result : Ty) : Prop where
  /-- What is read of the signature is there: the result type, and for each argument its slot and what is asked for
  after it. -/
  reads : slots ≠ [] ∧ lambda.signature.getLast? = some result ∧ ∀ i < slots.length,
    applied.length + i < lambda.signature.length - 1 ∧ lambda.signature[applied.length + i]? = slots[i]? ∧
      lambda.signature.drop (applied.length + i + 1) = slots.drop (i + 1) ++ [result]
  /-- An argument that does not fit its slot is refused, and no body is run. -/
  refused {front viewed : List Value} {arg : Value} {slot : Ty} : Fitting s.registry slots front viewed →
    slots[front.length]? = some slot → arg.isFailure = false → s.registry.view slot arg = none → ∃ outcome t,
      outcome = t.report (.typeMismatch (t.registry.name slot) (t.registry.name arg.ty)) ∧
      t = s.withFunctionTypes (residuals (slots ++ [result]) front.length) ∧
      s.FailsAt (.closure ty lambda applied) front arg outcome t ∧
      ∀ back, s.call code (.closure ty lambda applied) (front ++ arg :: back) = (outcome, t)
  /-- With arguments missing, the function keeps those it was given, and no body is run. -/
  kept {args viewed : List Value} : Fitting s.registry slots args viewed → args.length < slots.length → ∃ own t,
    t = s.withFunctionTypes (residuals (slots ++ [result]) args.length) ∧
    t.registry.find? (.function (slots.drop args.length ++ [result])) = some own ∧
    Partial s (.closure ty lambda applied) args (.closure own lambda (applied ++ viewed)) t ∧
    s.call code (.closure ty lambda applied) args = (.ok (.closure own lambda (applied ++ viewed)), t)
  /-- With all its arguments the body is run once, and what it gives is checked. -/
  run {args viewed : List Value} {t u : Session} {body : Except Failure Value} : Fitting s.registry slots args viewed →
    args.length = slots.length → t = s.withFunctionTypes (residuals (slots ++ [result]) (args.length - 1)) →
    code lambda t (applied ++ viewed) = (body, u) →
      (applied ++ viewed).map (·.ty) = lambda.signature.dropLast ∧
        Settles result u body (s.call code (.closure ty lambda applied) args)
  /-- More arguments are given to the result. -/
  more (args rest : List Value) : args.length = slots.length →
    s.call code (.closure ty lambda applied) (args ++ rest) =
      (s.call code (.closure ty lambda applied) args).andThen fun value t => t.call code value rest
  /-- A result that is neither a function nor a failure takes none. -/
  uncallable {value arg : Value} {t : Session} (rest : List Value) : value.lambda? = none → value.isFailure = false →
    arg.isFailure = false → t.call code value (arg :: rest) = (t.report (.uncallable (value.display t.registry)), t)

end Session

variable {code : Code} {s t : Session} {function given arg : Value} {args viewed applied : List Value} {r : Registry}
  {slots : List Ty} {ty slot result : Ty} {lambda : Lambda}

namespace Fitting

theorem length_eq (h : Fitting r slots args viewed) : viewed.length = args.length := by
  induction h with
  | nil => rfl
  | cons accepted view more ih => rw [List.length_cons, List.length_cons, ih]

theorem types (h : Fitting r slots args viewed) : viewed.map (·.ty) = slots.take args.length := by
  induction h with
  | nil => rfl
  | cons accepted view more ih =>
    rw [List.map_cons, List.length_cons, List.take_succ_cons, ih, (Registry.view_eq_some view).1]

/-- What a function asks for once it has the arguments. -/
theorem drop_eq (h : Fitting r slots args viewed) (hle : args.length ≤ slots.length)
    (hdrop : lambda.signature.drop applied.length = slots ++ [result]) :
    lambda.signature.drop (applied ++ viewed).length = slots.drop args.length ++ [result] := by
  rw [List.length_append, h.length_eq, ← List.drop_drop, hdrop, List.drop_append_of_le_length hle]

/-- The last argument, which makes them as many as there are slots. -/
theorem split_last (h : Fitting r slots args viewed) (hall : args.length = slots.length) (hne : slots ≠ []) :
    ∃ front arg slot views last, args = front ++ [arg] ∧ viewed = views ++ [last] ∧ Fitting r slots front views ∧
      slots.drop front.length = [slot] ∧ arg.isFailure = false ∧ r.view slot arg = some last := by
  induction h with
  | nil => exact absurd hall.symm (by simpa using hne)
  | @cons slot slots arg viewed args rest accepted view more ih =>
    cases more with
    | nil =>
      obtain rfl : slots = [] := by simpa using hall.symm
      exact ⟨[], arg, slot, [], viewed, rfl, rfl, .nil, rfl, accepted, view⟩
    | cons accepted' view' more' =>
      obtain ⟨front, other, lastSlot, views, last, hargs, hviews, hfront, hdrop, hother, hlast⟩ :=
        ih (by simpa using hall) (by simp)
      rw [hargs, hviews]
      exact ⟨arg :: front, other, lastSlot, viewed :: views, last, rfl, rfl, .cons accepted view hfront, hdrop,
        hother, hlast⟩

/-- While there are more slots, arguments that fit are kept. -/
theorem kept (h : Fitting r slots args viewed) (has : ∀ slot ∈ slots, r.Has slot)
    (hextends : r.Extends s.registry) (hfew : args.length < slots.length)
    (hdrop : lambda.signature.drop applied.length = slots ++ [result])
    (hfind : s.registry.find? (.function (slots ++ [result])) = some ty) :
    ∃ own t, t.registry.find? (.function (slots.drop args.length ++ [result])) = some own ∧
      Session.Partial s (.closure ty lambda applied) args (.closure own lambda (applied ++ viewed)) t := by
  -- each argument registers a type, but the slots were there before, and what is viewed as one of them stays so
  induction h generalizing s ty applied with
  | nil =>
    rw [List.append_nil]
    exact ⟨ty, s, hfind, .refl⟩
  | @cons slot slots arg viewed args rest accepted view more ih =>
    obtain ⟨next, other, tail, hasked⟩ : ∃ next other tail, slots ++ [result] = next :: other :: tail := by
      match slots, hfew with
      | [next], _ => exact ⟨next, result, [], rfl⟩
      | next :: other :: tail, _ => exact ⟨next, other, tail ++ [result], rfl⟩
    rw [List.forall_mem_cons] at has
    have hview : s.registry.view slot arg = some viewed := by rw [hextends.view has.1, view]
    have hmore : lambda.signature.drop applied.length = slot :: next :: other :: tail := by
      rw [hdrop, List.cons_append, hasked]
    have hoffer : s.offer (.closure ty lambda applied) arg = _ := Session.offer_more hmore accepted hview
    have hregistered : s.registry.Extends (s.registry.functionType (next :: other :: tail)).2 :=
      Registry.intern_extends rfl (Registry.sound_of_fields? rfl)
    have hnext : lambda.signature.drop (applied ++ [viewed]).length = slots ++ [result] :=
      drop_eq (Fitting.cons accepted view .nil) (by simp) hdrop
    have hkept : (s.registry.functionType (next :: other :: tail)).2.find? (.function (slots ++ [result])) =
        some (s.registry.functionType (next :: other :: tail)).1 := by
      rw [hasked]
      exact Registry.find?_internAs rfl s.registry
    obtain ⟨own, t, hown, hpartial⟩ := ih (s := { s with registry := _ }) has.2 (hextends.trans hregistered)
      (by simpa using hfew) hnext hkept
    refine ⟨own, t, hown, .step ?_ hoffer rfl ?_⟩
    · rw [Value.residual, hmore]
      simp
    · simpa using hpartial

end Fitting

namespace Session

theorem Partial.call (h : Partial s function args given t) : s.call code function args = (.ok given, t) := by
  induction h with
  | refl => rfl
  | step missing offer accepted rest ih =>
    rw [call_cons (Value.isFailure_of_residual (List.ne_nil_of_length_pos (by omega))), curry, offer]
    exact ih

theorem extends_withFunctionTypes (s : Session) (signatures : List (List Ty)) :
    s.registry.Extends (s.withFunctionTypes signatures).registry := by
  induction signatures generalizing s with
  | nil => exact .refl _
  | cons signature signatures ih =>
    have hregistered : s.registry.Extends (s.registry.functionType signature).2 :=
      Registry.intern_extends rfl (Registry.sound_of_fields? rfl)
    exact hregistered.trans (ih { s with registry := (s.registry.functionType signature).2 })

theorem settles (result : Ty) (body : Except Failure Value) (t : Session) :
    Settles result t body (settle result (body, t)) := by
  cases body with
  | error failure => exact .raised
  | ok value =>
    cases hfailure : value.isFailure with
    | true =>
      rw [settle_of_isFailure hfailure]
      exact .passed hfailure
    | false =>
      cases hview : t.registry.view result value with
      | none =>
        rw [settle_refused hfailure hview]
        exact .mismatch hfailure hview
      | some viewed =>
        rw [settle_viewed hfailure hview]
        exact .given hfailure hview (Registry.view_eq_some hview).1

section TypedCalls

variable (hs : s.registry.Coherent) (hfits : (Value.closure ty lambda applied).Fits s.registry)
  (hdrop : lambda.signature.drop applied.length = slots ++ [result])
include hfits hdrop

/-- The signature is that of the arguments there are, of those that are missing, and of the result. -/
theorem signature_eq : lambda.signature = applied.map (·.ty) ++ (slots ++ [result]) := by
  cases hfits with
  | closure form short typed => rw [typed, ← hdrop, List.take_append_drop]

theorem slots_ne_nil : slots ≠ [] := by
  rintro rfl
  cases hfits with
  | closure form short typed =>
    have hlength := congrArg List.length hdrop
    simp only [List.length_drop, List.nil_append, List.length_singleton] at hlength
    omega

include hs

theorem find?_residual : s.registry.find? (.function (slots ++ [result])) = some ty := by
  have has : s.registry.Has ty := hfits.has
  cases hfits with
  | closure form short typed => exact hs.found.mpr ⟨has, by rw [form, hdrop]; rfl⟩

theorem has_slots : ∀ slot ∈ slots, s.registry.Has slot := by
  intro slot hslot
  refine hfits.has_residual hs slot ?_
  rw [Value.residual, hdrop]
  exact List.mem_append_left _ hslot

/-- Arguments that fit and leave some slots open are kept, and the function is then of the type of these slots. -/
theorem call_kept (h : Fitting s.registry slots args viewed) (hfew : args.length < slots.length) : ∃ own t,
    t = s.withFunctionTypes (residuals (slots ++ [result]) args.length) ∧
    t.registry.find? (.function (slots.drop args.length ++ [result])) = some own ∧
    Partial s (.closure ty lambda applied) args (.closure own lambda (applied ++ viewed)) t := by
  obtain ⟨own, t, hown, hpartial⟩ :=
    h.kept (has_slots hs hfits hdrop) (.refl _) hfew hdrop (find?_residual hs hfits hdrop)
  have ht := hpartial.eq_withFunctionTypes
  rw [Value.residual, hdrop] at ht
  exact ⟨own, t, ht, hown, hpartial⟩

/-- The first argument that does not fit is refused. -/
theorem call_mismatch {front : List Value} (h : Fitting s.registry slots front viewed)
    (hslot : slots[front.length]? = some slot) (harg : arg.isFailure = false)
    (hview : s.registry.view slot arg = none)
    (ht : t = s.withFunctionTypes (residuals (slots ++ [result]) front.length)) :
    s.FailsAt (.closure ty lambda applied) front arg
      (t.report (.typeMismatch (t.registry.name slot) (t.registry.name arg.ty))) t := by
  subst ht
  obtain ⟨hfew, hget⟩ := List.getElem?_eq_some_iff.mp hslot
  obtain ⟨own, t, rfl, -, hpartial⟩ := call_kept hs hfits hdrop h hfew
  have hextends := s.extends_withFunctionTypes (residuals (slots ++ [result]) front.length)
  have hasSlot : s.registry.Has slot := has_slots hs hfits hdrop slot (hget ▸ List.getElem_mem hfew)
  obtain ⟨next, rest, hnext⟩ := List.exists_cons_of_ne_nil
    (List.append_ne_nil_of_right_ne_nil (slots.drop (front.length + 1)) (List.cons_ne_nil result []))
  have hrest : (Value.closure own lambda (applied ++ viewed)).residual = slot :: next :: rest := by
    rw [Value.residual, h.drop_eq (Nat.le_of_lt hfew) hdrop, List.drop_eq_getElem_cons hfew, hget, List.cons_append,
      hnext]
  exact .intro hpartial (offer_refused hrest harg ((hextends.view hasSlot arg).trans hview)) (failed_report _ _)

/-- With its last argument the function runs its body, on all of them. -/
theorem call_all (h : Fitting s.registry slots args viewed) (hall : args.length = slots.length) :
    s.call code (.closure ty lambda applied) args =
      settle result (code lambda (s.withFunctionTypes (residuals (slots ++ [result]) (args.length - 1)))
        (applied ++ viewed)) := by
  obtain ⟨front, arg, slot, views, last, rfl, rfl, hfront, hlast, harg, hview⟩ :=
    h.split_last hall (slots_ne_nil hfits hdrop)
  rw [List.length_append, List.length_singleton] at hall
  obtain ⟨own, t, rfl, -, hpartial⟩ := call_kept hs hfits hdrop hfront (by omega)
  have hextends := s.extends_withFunctionTypes (residuals (slots ++ [result]) front.length)
  have hasSlot : s.registry.Has slot :=
    has_slots hs hfits hdrop slot (List.mem_of_mem_drop (hlast ▸ List.mem_singleton_self slot))
  have hrest : lambda.signature.drop (applied ++ views).length = [slot, result] := by
    rw [hfront.drop_eq (by omega) hdrop, hlast]
    rfl
  rw [call_append, hpartial.call, Outcome.andThen_ok, call_single rfl,
    curry_last hrest harg ((hextends.view hasSlot arg).trans hview), List.append_assoc, List.length_append]
  rfl

theorem typedCalls (code : Code) : TypedCalls code s ty lambda applied slots result where
  reads := by
    refine ⟨slots_ne_nil hfits hdrop, ?_, fun i hi => ?_⟩
    · simp [signature_eq hfits hdrop]
    · rw [signature_eq hfits hdrop]
      refine ⟨?_, ?_, ?_⟩
      · simp only [List.length_append, List.length_map, List.length_singleton]
        omega
      · rw [List.getElem?_append_right (by simp), List.length_map, Nat.add_sub_cancel_left,
          List.getElem?_append_left hi]
      · rw [Nat.add_assoc, ← List.drop_drop, List.drop_left' (List.length_map _), List.drop_append_of_le_length hi]
  refused h hslot harg hview := by
    have hfails := call_mismatch hs hfits hdrop h hslot harg hview rfl
    refine ⟨_, _, rfl, rfl, hfails, fun back => ?_⟩
    obtain ⟨taken, offer, failed⟩ := hfails
    exact taken.call_failed rfl offer failed back
  kept h hfew := by
    obtain ⟨own, t, ht, hown, hpartial⟩ := call_kept hs hfits hdrop h hfew
    exact ⟨own, t, ht, hown, hpartial, hpartial.call⟩
  run {args viewed t u body} h hall ht hbody := by
    subst ht
    refine ⟨?_, ?_⟩
    · rw [List.map_append, h.types, hall, List.take_length, signature_eq hfits hdrop, ← List.append_assoc,
        List.dropLast_concat]
    · rw [call_all hs hfits hdrop h hall, hbody]
      exact settles result body u
  more args rest _ := call_append args rest
  uncallable {value arg t} rest hlambda hvalue harg := by
    rw [call_cons hvalue, curry_uncallable ?_ hvalue harg]
    · cases hreport : t.report (.uncallable (value.display t.registry)) with
      | error failure => rfl
      | ok passed => exact call_of_isFailure (isFailure_of_report hreport) rest
    · cases value with
      | closure => contradiction
      | int | str | record | injection | failure => simp [Value.residual]

end TypedCalls

end Session

namespace Value

/-- A value of a function type is a function. -/
theorem Fits.of_signature? (h : function.Fits r) {signature : List Ty}
    (hsignature : r.signature? function.ty = some signature) :
    ∃ ty lambda applied, function = .closure ty lambda applied ∧ lambda.signature.drop applied.length = signature := by
  unfold Registry.signature? at hsignature
  cases h with
  | closure form short typed =>
    rw [Value.ty, form] at hsignature
    exact ⟨_, _, _, rfl, Option.some.inj hsignature⟩
  | int form | str form | record form | inl form | inr form | failure has form =>
    rw [Value.ty, form] at hsignature
    contradiction

end Value

namespace History

variable {policy : Policy} {marker : Char} {h : History}

/-- Calls of functions take arguments that fit, and give results of the result type. -/
theorem Run.typed_calls (code : Code) {function : Value} {slots : List Ty} {result : Ty}
    (run : Run (start policy marker) h) (known : h.Known function)
    (signature : h.session.registry.signature? function.ty = some (slots ++ [result])) :
    ∃ ty lambda applied, function = .closure ty lambda applied ∧
      h.session.TypedCalls code ty lambda applied slots result := by
  have hfits := (run.sound.known known).fits
  obtain ⟨ty, lambda, applied, rfl, hdrop⟩ := hfits.of_signature? signature
  exact ⟨ty, lambda, applied, rfl, Session.typedCalls run.sound.coherent hfits hdrop code⟩

/-- Of three numbers the function adds two, and their sum does not take the third. -/
theorem typed_calls_plus :
    adding.session.call Session.ownCode (.closure ⟨3⟩ plus []) [.int .int 1, .int .int 2, .int .int 3] =
      (.error (.uncallable "3 : int"), adding.session.withFunctionTypes [[.int, .int]]) := by
  have known : adding.Known (.closure ⟨3⟩ plus []) := ⟨_, .inl List.mem_cons_self, .refl⟩
  have signature : adding.session.registry.signature? ⟨3⟩ = some ([.int, .int] ++ [.int]) := rfl
  obtain ⟨_, _, _, ⟨⟩, laws⟩ := Run.typed_calls Session.ownCode run_adding known signature
  have sum : adding.session.call Session.ownCode (.closure ⟨3⟩ plus []) [.int .int 1, .int .int 2] =
      (.ok (.int .int 3), adding.session.withFunctionTypes [[.int, .int]]) := rfl
  have third := laws.more [.int .int 1, .int .int 2] [.int .int 3] rfl
  rw [sum, Outcome.andThen_ok, laws.uncallable [] rfl rfl rfl] at third
  exact third

end History
end TypeAlgebra
