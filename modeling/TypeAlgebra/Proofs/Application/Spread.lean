import TypeAlgebra.Proofs.Application.Typed

/-! Functions that take a record in place of its fields. Such a function is over the earliest product of the arguments,
and calling it on a record, then or later, is calling the function it was made of on the fields. -/
namespace TypeAlgebra

namespace Registry

variable {r : Registry} {product : Ty} {types : List Ty}

/-- The type is a product whose fields have these types, in order. -/
def ProductOf (r : Registry) (product : Ty) (types : List Ty) : Prop :=
  ∃ fields, r.fields? product = some fields ∧ fields.map (·.2) = types

theorem productOf_iff {i : Nat} (hi : i < r.forms.length) :
    r.ProductOf ⟨i⟩ types ↔ r.forms[i].fields?.map (·.map (·.2)) = some types := by
  rw [ProductOf, Option.map_eq_some_iff]
  simp only [Registry.fields?, Registry.get, List.getD_eq_getElem _ _ hi]

theorem ProductOf.has (h : r.ProductOf product types) : r.Has product := by
  obtain ⟨fields, hfields, -⟩ := h
  exact has_of_fields? hfields

/-- The product that is found is the earliest one of the types. -/
theorem productOf?_eq_some (h : r.productOf? types = some product) :
    r.ProductOf product types ∧ ∀ {other}, r.ProductOf other types → product.index ≤ other.index := by
  obtain ⟨i, hi, rfl⟩ := Option.map_eq_some_iff.mp h
  obtain ⟨has, htypes, hearlier⟩ := List.findIdx?_eq_some_iff_getElem.mp hi
  refine ⟨(productOf_iff has).mpr (by simpa using htypes), fun {other} hother => ?_⟩
  by_contra hlt
  have hindex : other.index < r.forms.length := hother.has
  exact absurd ((productOf_iff hindex).mp hother) (by simpa using hearlier other.index (by simpa using hlt))

theorem productOf?_eq_none (h : r.productOf? types = none) (product : Ty) : ¬ r.ProductOf product types := by
  intro hproduct
  rw [productOf?, Option.map_eq_none_iff, List.findIdx?_eq_none_iff] at h
  have hindex : product.index < r.forms.length := hproduct.has
  have hnot := h _ (List.getElem_mem hindex)
  exact absurd ((productOf_iff hindex).mp hproduct) (by simpa using hnot)

end Registry

namespace Session

variable {code : Code} {s : Session} {function arg : Value} {values : List Value} {slots : List Ty}
  {product result ty : Ty}

/-- What a function gives with all its arguments is checked already. -/
theorem settle_call_all (hresidual : function.residual = slots ++ [result]) (hall : values.length = slots.length)
    (hne : slots ≠ []) : settle result (s.call code function values) = s.call code function values := by
  induction values generalizing s function slots with
  | nil => exact absurd hall.symm (by simpa using hne)
  | cons value rest ih =>
    rw [call_cons (Value.isFailure_of_residual (by simp [hresidual])), curry]
    cases hoffer : s.offer function value with
    | saturated lambda args own =>
      obtain ⟨slot, hlast⟩ := residual_of_saturated hoffer
      obtain ⟨hslots, hown⟩ := List.append_inj' ((hresidual.symm.trans hlast).trans (List.singleton_append).symm) rfl
      cases hown
      obtain rfl : rest = [] := by simpa [hslots] using hall
      exact (congrArg (settle result) (Outcome.andThen_done _)).trans
        ((settle_settle result _).trans (Outcome.andThen_done _).symm)
    | settled outcome t =>
      obtain ⟨hfailed, rfl⟩ | ⟨given, rfl, haccepted, hmissing⟩ := settled_cases hoffer
      · cases outcome with
        | error failure => rfl
        | ok value =>
          rw [Outcome.andThen_ok, call_of_isFailure hfailed]
          exact settle_of_isFailure hfailed
      · have htail := residual_of_offer hmissing hoffer haccepted
        obtain ⟨slot, slots, rfl⟩ := List.exists_cons_of_ne_nil hne
        rw [hresidual, List.cons_append, List.tail_cons] at htail
        refine ih htail (by simpa using hall) ?_
        rintro rfl
        simp [hresidual] at hmissing

/-- The function was made of the other one, and takes a record of the product in place of its fields. -/
def OverRecord (function induced : Value) (product result : Ty) : Prop :=
  ∃ serial name, induced = .closure induced.ty ⟨serial, name, [product, result], .spread function⟩ []

theorem OverRecord.residual {induced : Value} (h : OverRecord function induced product result) :
    induced.residual = [product, result] := by
  obtain ⟨serial, name, heq⟩ := h
  rw [heq]
  rfl

/-- Calling the function on a record of the product is calling the one it was made of on the fields. -/
theorem call_spread {induced : Value} (hcode : code.Lawful) (h : OverRecord function induced product result)
    (hresidual : function.residual = slots ++ [result]) (hne : slots ≠ []) {fields : List (String × Value)}
    (hlength : fields.length = slots.length) :
    s.call code induced [.record product fields] = s.call code function (fields.map (·.2)) := by
  obtain ⟨serial, name, heq⟩ := h
  have hview : s.registry.view product (.record product fields) = some (.record product fields) :=
    s.registry.view_ty (.record product fields)
  have hfollow : s.follow code [.record product fields] (.spread function) =
      s.call code function (fields.map (·.2)) := rfl
  rw [heq, call_single rfl, curry_last rfl rfl hview, hcode _ _ _ rfl, List.nil_append, hfollow]
  exact settle_call_all hresidual (by rw [List.length_map, hlength]) hne

section Made

variable (hlambda : function.lambda?.isSome)
  (hsignature : s.registry.signature? function.ty = some (slots ++ [result]))
include hlambda hsignature

theorem recordDomain_eq : s.recordDomain function =
    match s.registry.productOf? slots with
    | some product => .ok (product, result)
    | none => .error (.invalidArgument "a product type declared over the function's arguments"
        ("[" ++ ", ".intercalate (slots.map s.registry.name) ++ "]")) := by
  obtain ⟨lambda, hlambda⟩ := Option.isSome_iff_exists.mp hlambda
  obtain ⟨first, rest, hrest⟩ := List.exists_cons_of_ne_nil (List.append_ne_nil_of_right_ne_nil slots
    (List.cons_ne_nil result []))
  have hslots : (first :: rest).dropLast = slots := by rw [← hrest, List.dropLast_concat]
  have hresult : rest.getLastD first = result := by
    rw [← List.getLast_eq_getLastD (List.cons_ne_nil first rest)]
    simp [← hrest]
  unfold recordDomain
  rw [hlambda, hsignature, hrest]
  dsimp only
  rw [hslots, hresult]
  cases s.registry.productOf? slots <;> rfl

theorem overRecord_of_some (hproduct : s.registry.productOf? slots = some product) :
    ∃ induced t, s.overRecord function = (.ok induced, t) ∧ OverRecord function induced product result := by
  unfold overRecord
  rw [recordDomain_eq hlambda hsignature, hproduct]
  exact ⟨_, _, rfl, _, _, rfl⟩

theorem overRecord_of_none (hnone : s.registry.productOf? slots = none) : s.overRecord function =
    (s.report (.invalidArgument "a product type declared over the function's arguments"
      ("[" ++ ", ".intercalate (slots.map s.registry.name) ++ "]")), s) := by
  unfold overRecord
  rw [recordDomain_eq hlambda hsignature, hnone]

end Made

end Session

/-- A value of a product is a record of its fields. -/
theorem Value.Fits.of_fields? {r : Registry} {value : Value} (h : value.Fits r) {declared : List (String × Ty)}
    (hfields : r.fields? value.ty = some declared) :
    ∃ fields, value = .record value.ty fields ∧ fields.map (fun field => (field.1, field.2.ty)) = declared := by
  unfold Registry.fields? at hfields
  cases h with
  | record form typed =>
    rw [Value.ty, form] at hfields
    cases hfields
    exact ⟨_, rfl, typed⟩
  | int form | str form | inl form | inr form | closure form | failure has form =>
    rw [Value.ty, form] at hfields
    contradiction

/-- A sound value of another type does not belong to a product. -/
theorem Registry.not_belongs_product {r : Registry} (hr : r.Coherent) {value : Value} (h : value.Sound r)
    {product : Ty} {declared : List (String × Ty)} (hproduct : r.fields? product = some declared)
    (hty : value.ty ≠ product) : ¬ r.belongs value product := by
  intro hbelongs
  cases hinjection : value.isInjection with
  | false => exact hty ((belongs_of_single hinjection).mp hbelongs)
  | true =>
    -- an injection would be viewed as a value of the product with its own leaf, which is primitive
    obtain ⟨viewed, hview⟩ := belongs_iff_exists.mp hbelongs
    obtain ⟨hviewed, rfl, hleaf⟩ := view_sound hr h hview
    obtain ⟨fields, hrecord, -⟩ := hviewed.fits.of_fields? hproduct
    have hprimitive := h.isPrimitive_leaf hinjection
    rw [← hleaf, hrecord] at hprimitive
    contradiction

namespace Session

/-- How a function over records deals with an argument. -/
structure Spreads (s : Session) (code : Code) (function induced : Value) (product : Ty) (arg : Value) : Prop where
  /-- A record of the product stands for its fields, in the order in which they are declared. -/
  record : arg.ty = product → ∃ fields, arg = .record product fields ∧
    s.registry.fields? product = some (fields.map fun field => (field.1, field.2.ty)) ∧
    s.call code induced [arg] = s.call code function (fields.map (·.2))
  /-- Nothing else is taken, and no body is run. -/
  refused : arg.ty ≠ product → arg.isFailure = false → s.call code induced [arg] =
    (s.report (.typeMismatch (s.registry.name product) (s.registry.name arg.ty)), s)

variable {code : Code} {s : Session} {function induced arg : Value} {slots : List Ty} {product result : Ty}

theorem spreads_of_overRecord (hcode : code.Lawful) (hmade : OverRecord function induced product result)
    (hresidual : function.residual = slots ++ [result]) (hne : slots ≠ []) (hs : s.registry.Coherent)
    (hproduct : s.registry.ProductOf product slots) (harg : arg.Sound s.registry) :
    s.Spreads code function induced product arg := by
  obtain ⟨declared, hdeclared, rfl⟩ := hproduct
  constructor
  · rintro rfl
    obtain ⟨fields, hrecord, rfl⟩ := harg.fits.of_fields? hdeclared
    refine ⟨fields, hrecord, hdeclared, ?_⟩
    rw [hrecord] at hmade ⊢
    exact call_spread hcode hmade hresidual hne (by simp)
  · intro hty hfailure
    exact call_refused hmade.residual hfailure (Registry.not_belongs_product hs harg hdeclared hty)

end Session

namespace History

/-- How a function over records is made of one that asks for the slots, and what it does from then on. -/
structure SpreadLaws (code : Code) (h : History) (function : Value) (slots : List Ty) (result : Ty) : Prop where
  /-- There must be a product of the slots. -/
  made : (∃ induced s, h.session.overRecord function = (.ok induced, s) ∧ induced.isFailure = false) ↔
    ∃ product, h.session.registry.ProductOf product slots
  refused : (¬ ∃ product, h.session.registry.ProductOf product slots) → h.session.overRecord function =
    (h.session.report (.invalidArgument "a product type declared over the function's arguments"
      ("[" ++ ", ".intercalate (slots.map h.session.registry.name) ++ "]")), h.session)
  /-- The function is over the earliest of these products, whatever products are registered later. -/
  spreads : ∀ {induced s}, h.session.overRecord function = (.ok induced, s) → induced.isFailure = false →
    ∃ product, h.session.registry.ProductOf product slots ∧
      (∀ other, h.session.registry.ProductOf other slots → product.index ≤ other.index) ∧
      s.registry.signature? induced.ty = some [product, result] ∧
      ∀ {h' arg}, Run (h.after (.ok induced, s)) h' → h'.Known arg →
        h'.session.Spreads code function induced product arg

variable {policy : Policy} {marker : Char} {h : History} {code : Code} {function : Value} {slots : List Ty}
  {result : Ty}

/-- A function over records is there if a product is, and does with a record what the other one does with its fields. -/
theorem Run.spread_laws (lawful : code.Lawful) (run : Run (start policy marker) h) (known : h.Known function)
    (signature : h.session.registry.signature? function.ty = some (slots ++ [result])) :
    h.SpreadLaws code function slots result := by
  have hs := run.sound
  have hfunction := hs.known known
  obtain ⟨ty, lambda, applied, rfl, hdrop⟩ := hfunction.fits.of_signature? signature
  cases hproduct : h.session.registry.productOf? slots with
  | none =>
    have hno : ¬ ∃ product, h.session.registry.ProductOf product slots :=
      fun ⟨product, hof⟩ => Registry.productOf?_eq_none hproduct product hof
    have hrefused := Session.overRecord_of_none rfl signature hproduct
    have hnot {induced : Value} {s : Session}
        (hgiven : h.session.overRecord (.closure ty lambda applied) = (.ok induced, s)) : induced.isFailure :=
      Session.isFailure_of_report (Prod.mk.inj (hrefused.symm.trans hgiven)).1
    refine ⟨⟨?_, fun hsome => absurd hsome hno⟩, fun _ => hrefused, fun hgiven hinduced => ?_⟩
    · rintro ⟨induced, s, hgiven, hinduced⟩
      rw [hnot hgiven] at hinduced
      contradiction
    · rw [hnot hgiven] at hinduced
      contradiction
  | some product =>
    obtain ⟨hof, hfirst⟩ := Registry.productOf?_eq_some hproduct
    obtain ⟨made, t, hmade, hover⟩ := Session.overRecord_of_some rfl signature hproduct
    have hsound : Outcome.Sound h.session (.ok made, t) := by
      rw [← hmade]
      exact Session.overRecord_sound hs.coherent hfunction
    have haccepted : made.isFailure = false := Value.isFailure_of_residual (by simp [hover.residual])
    refine ⟨⟨fun _ => ⟨product, hof⟩, fun _ => ⟨made, t, hmade, haccepted⟩⟩, fun hno => absurd ⟨product, hof⟩ hno, ?_⟩
    intro induced s hgiven _
    cases hmade.symm.trans hgiven
    refine ⟨product, hof, fun _ => hfirst, ?_, fun {h' arg} later knownArg => ?_⟩
    · obtain ⟨name, hform⟩ := (hsound.value rfl).fits.residual (by simp [hover.residual])
      rw [Registry.signature?, hform, hover.residual]
      rfl
    · have hlater := later.grows (hs.after hsound)
      obtain ⟨declared, hdeclared, htypes⟩ := hof
      have hextends := hsound.leads.extends.trans hlater.leads.extends
      have hne := Session.slots_ne_nil hfunction.fits hdrop
      exact Session.spreads_of_overRecord lawful hover hdrop hne hlater.sound.coherent
        ⟨declared, hextends.fields? hdeclared, htypes⟩ (hlater.sound.known knownArg)

def pairFields : List (String × Ty) := [("x", .int), ("y", .int)]

def pairRegistry : Registry := (Registry.initial.intern (.product "int & int" pairFields)).2

/-- A number was made, then the product of two numbers, then the function that adds two. -/
def pairing : History :=
  ⟨⟨(pairRegistry.functionType plus.signature).2, .raise, '$', 1⟩, [.closure ⟨4⟩ plus [], .int .int 1], []⟩

theorem run_pairing : Run (start .raise '$') pairing := by
  have number : Step (start .raise '$') _ := .make .int (.text "1") nofun
  have product : Step ((start .raise '$').give (.ok (.int .int 1))) _ := @Step.product _ pairFields (by decide)
  have made : Step (((start .raise '$').give (.ok (.int .int 1))).into ⟨pairRegistry, .raise, '$', 0⟩) _ :=
    @Step.function _ "add" [.int, .int] .int (.fold .add) (by decide) nofun
  exact ((Run.refl.step number).step product).step made

/-- The function over pairs adds the fields of a pair. -/
def overPair : Value := .closure ⟨5⟩ ⟨1, "ind<add>", [⟨3⟩, .int], .spread (.closure ⟨4⟩ plus [])⟩ []

def onePair : Value := .record ⟨3⟩ [("x", .int .int 1), ("y", .int .int 1)]

/-- The session after the function over pairs was made. -/
def pairingLater : Session := (pairing.session.overRecord (.closure ⟨4⟩ plus [])).2

/-- A pair of ones is added as two ones are. -/
theorem spread_laws_pair : pairingLater.call Session.ownCode overPair [onePair] =
    pairingLater.call Session.ownCode (.closure ⟨4⟩ plus []) [.int .int 1, .int .int 1] := by
  have known : pairing.Known (.closure ⟨4⟩ plus []) := ⟨_, .inl List.mem_cons_self, .refl⟩
  have signature : pairing.session.registry.signature? ⟨4⟩ = some ([.int, .int] ++ [.int]) := rfl
  have given : pairing.session.overRecord (.closure ⟨4⟩ plus []) = (.ok overPair, pairingLater) := rfl
  obtain ⟨product, -, -, domain, spreads⟩ :=
    (Run.spread_laws Session.ownCode_lawful run_pairing known signature).spreads given rfl
  obtain rfl : product = ⟨3⟩ := (List.cons.inj (Option.some.inj domain)).1.symm
  have number : (pairing.after (.ok overPair, pairingLater)).Known (.int .int 1) :=
    ⟨_, .inl (.tail _ (.tail _ List.mem_cons_self)), .refl⟩
  have pair : ∀ field ∈ [("x", Value.int .int 1), ("y", .int .int 1)],
      (pairing.after (.ok overPair, pairingLater)).Known field.2 := by
    simp [number]
  have later : Run (pairing.after (.ok overPair, pairingLater)) _ := Run.refl.step (.record ⟨3⟩ pair)
  obtain ⟨fields, hfields, -, hcall⟩ := (spreads later ⟨onePair, .inl List.mem_cons_self, .refl⟩).record rfl
  cases hfields
  exact hcall

end History
end TypeAlgebra
