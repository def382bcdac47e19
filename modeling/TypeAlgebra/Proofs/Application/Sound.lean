import TypeAlgebra.Combinator
import TypeAlgebra.Proofs.Construction.Sound
import TypeAlgebra.Proofs.Registry.Union

/-! What functions give is sound, if they, the values in their bodies and their arguments are. The types that are
formed on the way are formed of types that were there. -/
namespace TypeAlgebra

/-- Forming types leads to the session after it, in which the result is sound, if there is one. -/
structure Outcome.Sound (s : Session) (outcome : Outcome Value) : Prop where
  leads : s.registry.Leads outcome.2.registry
  value : ∀ {value}, outcome.1 = .ok value → value.Sound outcome.2.registry

/-- A result is sound, or so are the function that the body hands on to and its arguments. -/
def Reduction.Sound (s : Session) : Reduction → Prop
  | .done result t => Outcome.Sound s (result, t)
  | .handOn function args => function.Sound s.registry ∧ ∀ arg ∈ args, arg.Sound s.registry

/-- A result is sound, or so are the values that the body to run was made with and its arguments. -/
def Offer.Sound (s : Session) : Offer → Prop
  | .settled result t => Outcome.Sound s (result, t)
  | .saturated lambda args _ =>
    (∀ value ∈ lambda.body.held, value.Sound s.registry) ∧ ∀ arg ∈ args, arg.Sound s.registry

namespace Outcome

variable {s t : Session} {outcome : Outcome Value}

theorem Sound.of_leads (hleads : s.registry.Leads t.registry) (h : outcome.Sound t) : outcome.Sound s :=
  ⟨hleads.trans h.leads, h.value⟩

/-- A result in the session at hand. -/
theorem Sound.here {result : Except Failure Value} (h : ∀ {value}, result = .ok value → value.Sound s.registry) :
    Outcome.Sound s (result, s) :=
  ⟨.refl, h⟩

theorem Sound.ok {value : Value} (h : value.Sound s.registry) : Outcome.Sound s (.ok value, s) :=
  .here fun heq => by rwa [← Except.ok.inj heq]

theorem Sound.andThen {next : Value → Session → Outcome Value} (h : outcome.Sound s)
    (hnext : ∀ value t, outcome = (.ok value, t) → s.registry.Leads t.registry → value.Sound t.registry →
      (next value t).Sound t) : (outcome.andThen next).Sound s := by
  obtain ⟨result, t⟩ := outcome
  cases result with
  | error failure => exact ⟨h.leads, nofun⟩
  | ok value => exact .of_leads h.leads (hnext value t rfl h.leads (h.value rfl))

end Outcome

namespace Session

/-- What all results of an operator have in common, operating from the left gives, if the first argument has it. -/
theorem of_foldlM {s : Session} {op : Operator} {motive : Value → Prop} {first value : Value} {rest : List Value}
    (hstep : ∀ {a b result : Value}, s.operate op a b = .ok result → motive result) (hfirst : motive first)
    (h : rest.foldlM (s.operate op) first = .ok value) : motive value := by
  induction rest generalizing first with
  | nil => cases h; exact hfirst
  | cons arg rest ih =>
    rw [List.foldlM_cons] at h
    cases hresult : s.operate op first arg with
    | error failure => rw [hresult] at h; contradiction
    | ok result =>
      rw [hresult] at h
      exact ih (hstep hresult) h

variable {s : Session} (hs : s.registry.Coherent)
include hs

/-- Running a body on sound arguments comes to sound values, if the body was made with such. -/
theorem reduce_sound {args : List Value} (hargs : ∀ arg ∈ args, arg.Sound s.registry) {body : Body}
    (hheld : ∀ value ∈ body.held, value.Sound s.registry) : (s.reduce args body).Sound s := by
  have hfirst {value : Value} (h : first args = .ok value) : value.Sound s.registry :=
    hargs value (weight_first h)
  cases body with
  | argument index => exact .here fun h => hargs _ (List.mem_of_mem_drop (weight_first h))
  | constant value => exact .ok (hheld value (List.mem_singleton_self value))
  | report failure => exact .here (report_sound hs)
  | raise failure => exact .here nofun
  | cast ty =>
    refine .here fun h => ?_
    obtain ⟨arg, hmem, h⟩ := weight_bind_first h
    refine make_sound hs ?_ h
    rintro inner ⟨⟩
    exact hargs arg hmem
  | fold op =>
    refine .here fun h => ?_
    cases args with
    | nil => contradiction
    | cons arg rest => exact of_foldlM (operate_sound hs) (hargs arg List.mem_cons_self) h
  | concat => exact .here (make_sound hs nofun)
  | field attr =>
    refine .here fun h => ?_
    obtain ⟨arg, hmem, h⟩ := weight_bind_first h
    exact field_sound hs (hargs arg hmem) h
  | delegate function => exact ⟨hheld function (List.mem_singleton_self function), hargs⟩
  | setPolicy policy => exact ⟨.refl, hfirst⟩
  | dispatch leftDomain left rightDomain right domain =>
    have hleft : left.Sound s.registry := hheld left (by simp [Body.held])
    have hright : right.Sound s.registry := hheld right (by simp [Body.held])
    cases args with
    | nil => exact .here hfirst
    | cons arg rest =>
      have harg := hargs arg List.mem_cons_self
      simp only [reduce]
      split
      · rename_i viewed _ hview
        exact ⟨hleft, by simpa using (Registry.view_sound hs harg hview).1⟩
      · rename_i viewed _ hview
        exact ⟨hright, by simpa using (Registry.view_sound hs harg hview).1⟩
      · exact .here (report_sound hs)
  | spread function =>
    refine ⟨hheld function (List.mem_singleton_self function), fun value hvalue => ?_⟩
    cases args with
    | nil => contradiction
    | cons arg rest => exact (hargs arg List.mem_cons_self).part (Value.mem_parts_of_fields? hvalue)

/-- A partial application is a sound value of the type of what is missing. -/
theorem partial_sound {ty slot next : Ty} {rest : List Ty} {lambda : Lambda} {applied : List Value} {viewed : Value}
    (hfunction : (Value.closure ty lambda applied).Sound s.registry)
    (hdrop : lambda.signature.drop applied.length = slot :: next :: rest) (hrest : rest ≠ [])
    (hviewed : viewed.Sound s.registry) (hslot : viewed.ty = slot) :
    Outcome.Sound s (.ok (.closure (s.registry.functionType (next :: rest)).1 lambda (applied ++ [viewed])),
      { s with registry := (s.registry.functionType (next :: rest)).2 }) := by
  cases hfunction.fits with
  | closure form short typed =>
    have has : ∀ part ∈ next :: rest, s.registry.Has part := by
      intro part hpart
      have hform : part ∈ (s.registry.get ty).parts := by
        rw [form, hdrop]
        exact List.mem_cons_of_mem slot hpart
      exact hs.has_part hform
    have hleads : s.registry.Leads (s.registry.functionType (next :: rest)).2 := .single (.functionType has)
    have htail : lambda.signature.drop (applied ++ [viewed]).length = next :: rest := by
      rw [List.length_append, ← List.drop_drop, hdrop]
      rfl
    have hlength := congrArg List.length htail
    have hpositive := List.length_pos_iff.mpr hrest
    simp only [List.length_drop, List.length_cons] at hlength
    obtain ⟨name, hform⟩ := hs.get_functionType has
    have htaken : (applied ++ [viewed]).map (·.ty) = lambda.signature.take (applied ++ [viewed]).length := by
      rw [List.map_append, typed, List.length_append, List.take_add, hdrop]
      simp [hslot]
    refine ⟨hleads, ?_⟩
    rintro _ ⟨⟩
    refine Value.Fits.sound (.closure (by rw [htail]; exact hform) (by omega) htaken) ?_
    intro part hpart
    have hsound : part.Sound s.registry := by
      rcases List.mem_append.mp hpart with happlied | hheld
      · rcases List.mem_append.mp happlied with hbefore | hlast
        · exact hfunction.part (List.mem_append_left _ hbefore)
        · rwa [List.mem_singleton.mp hlast]
      · exact hfunction.part (List.mem_append_right _ hheld)
    exact hsound.extends hs hleads.extends

/-- Giving a sound function one more sound argument comes to sound values. -/
theorem offer_sound {function arg : Value} (hfunction : function.Sound s.registry) (harg : arg.Sound s.registry) :
    (s.offer function arg).Sound s := by
  unfold offer
  split
  · exact .ok harg
  · rename_i ty lambda applied _
    split
    · rename_i slot next rest hdrop
      split
      · exact .here (report_sound hs)
      · rename_i viewed hview
        obtain ⟨hviewed, hslot, -⟩ := Registry.view_sound hs harg hview
        split
        · refine ⟨fun value hvalue => hfunction.part (List.mem_append_right _ hvalue), ?_⟩
          intro value hvalue
          rcases List.mem_append.mp hvalue with hbefore | hlast
          · exact hfunction.part (List.mem_append_left _ hbefore)
          · rwa [List.mem_singleton.mp hlast]
        · exact partial_sound hs hfunction hdrop (by simp) hviewed hslot
    · exact .here (report_sound hs)
  · exact .ok hfunction
  · exact .here (report_sound hs)

omit hs in
theorem settle_sound {ty : Ty} {outcome : Outcome Value} (hs : s.registry.Coherent) (h : outcome.Sound s) :
    (settle ty outcome).Sound s := by
  refine h.andThen fun value t _ hleads hvalue => ?_
  have ht := hs.leads hleads
  split
  · exact .ok hvalue
  split
  · exact .ok (Registry.view_sound ht hvalue ‹_›).1
  · exact .here (report_sound ht)

theorem supply_sound {function arg : Value} (hfunction : function.Sound s.registry) (harg : arg.Sound s.registry)
    {next : Session → (inner : Value) → (args : List Value) →
      inner.weight + Value.weightAll args + args.length < function.weight + arg.weight → Outcome Value}
    (hnext : ∀ inner args hlt, inner.Sound s.registry → (∀ arg ∈ args, arg.Sound s.registry) →
      (next s inner args hlt).Sound s) : (s.supply function arg next).Sound s := by
  have hoffer := offer_sound hs hfunction harg
  cases ho : s.offer function arg with
  | settled result t =>
    rw [ho] at hoffer
    rw [supply_of_settled ho]
    exact hoffer
  | saturated lambda args ty =>
    rw [ho] at hoffer
    have hreduce := reduce_sound hs hoffer.2 hoffer.1
    cases hr : s.reduce args lambda.body with
    | done result t =>
      rw [hr] at hreduce
      rw [supply_of_done ho hr]
      exact settle_sound hs hreduce
    | handOn inner xs =>
      rw [hr] at hreduce
      rw [supply_of_handOn ho hr]
      exact settle_sound hs (hnext inner xs _ hreduce.1 hreduce.2)

omit hs in
/-- Applying sound functions to sound arguments gives sound values. -/
theorem apply_sound {s : Session} {function : Value} {args : List Value} (hs : s.registry.Coherent)
    (hfunction : function.Sound s.registry) (hargs : ∀ arg ∈ args, arg.Sound s.registry) :
    (s.apply function args).Sound s := by
  match args with
  | [] =>
    rw [apply_nil]
    exact .ok hfunction
  | arg :: rest =>
    cases hfailure : function.isFailure with
    | true =>
      rw [apply_of_isFailure hfailure]
      exact .ok hfunction
    | false =>
      rw [apply_cons hfailure]
      have hsupply : (s.supply function arg fun s inner xs _ => s.apply inner xs).Sound s :=
        supply_sound hs hfunction (hargs arg List.mem_cons_self)
          fun inner xs _ hinner hxs => apply_sound hs hinner hxs
      refine hsupply.andThen fun value t heq hleads hvalue => ?_
      have hweight : value.weight ≤ function.weight + arg.weight :=
        supply_within (fun _ _ _ _ _ => weight_apply) value (by rw [heq])
      refine apply_sound (hs.leads hleads) hvalue fun other hother => ?_
      exact (hargs other (List.mem_cons_of_mem arg hother)).extends hs hleads.extends
termination_by function.weight + Value.weightAll args + args.length
decreasing_by all_goals simp only [Value.weightAll, List.length_cons]; omega

theorem applyOne_sound {function arg : Value} (hfunction : function.Sound s.registry)
    (harg : arg.Sound s.registry) : (s.applyOne function arg).Sound s := by
  unfold applyOne
  split
  · exact .ok harg
  · exact apply_sound hs hfunction (by simpa)

/-- The value of a new lambda of two types or more is sound, if the values in its body are. -/
theorem makeLambda_sound {name : String} {signature : List Ty} {body : Body}
    (has : ∀ ty ∈ signature, s.registry.Has ty) (hlength : 1 < signature.length)
    (hheld : ∀ value ∈ body.held, value.Sound s.registry) :
    Outcome.Sound s (.ok (s.makeLambda name signature body).1, (s.makeLambda name signature body).2) := by
  have hleads : s.registry.Leads (s.registry.functionType signature).2 := .single (.functionType has)
  obtain ⟨shown, hform⟩ := hs.get_functionType has
  refine ⟨hleads, ?_⟩
  rintro _ ⟨⟩
  refine Value.Fits.sound (.closure hform hlength (by simp)) fun part hpart => ?_
  exact (hheld part hpart).extends hs hleads.extends

theorem function_sound {name : String} {args : List Ty} {result : Ty} {body : Body}
    (has : ∀ ty ∈ args ++ [result], s.registry.Has ty) (hheld : ∀ value ∈ body.held, value.Sound s.registry) :
    (s.function name args result body).Sound s := by
  unfold function
  split
  · exact .here nofun
  · rename_i hargs
    have hpositive : 0 < args.length := List.length_pos_iff.mpr (by simpa using hargs)
    exact makeLambda_sound hs has (by simpa) hheld

theorem oneArgument_has {function : Value} {domain result : Ty}
    (h : s.oneArgument function = .ok (domain, result)) : s.registry.Has domain ∧ s.registry.Has result := by
  unfold oneArgument at h
  split at h
  · contradiction
  · rename_i hsignature
    cases h
    have has := hs.has_signature hsignature
    exact ⟨has domain (by simp), has result (by simp)⟩
  · contradiction

theorem combinable_has {a b : Value} {left right result : Ty}
    (h : s.combinable a b = .ok (left, right, result)) :
    s.registry.Has left ∧ s.registry.Has right ∧ s.registry.Has result := by
  unfold combinable at h
  split at h
  · contradiction
  · contradiction
  · rename_i hleft hright
    split at h
    · contradiction
    · cases h
      exact ⟨(oneArgument_has hs hleft).1, (oneArgument_has hs hright).1, (oneArgument_has hs hleft).2⟩

theorem either_sound {a b : Value} (ha : a.Sound s.registry) (hb : b.Sound s.registry) :
    (s.either a b).Sound s := by
  unfold either
  split
  · exact .here (report_sound hs)
  · rename_i left right result hcombinable
    obtain ⟨hleft, hright, hresult⟩ := combinable_has hs hcombinable
    have hleads := Registry.leads_union hleft hright
    have hdomain := (hs.leaves_union hleft hright).1
    have hunion := hs.leads hleads
    refine .of_leads hleads (makeLambda_sound (s := { s with registry := _ }) hunion ?_ (by simp) ?_)
    · simpa using ⟨hdomain, hleads.extends.has hresult⟩
    · intro part hpart
      have hpart : part = a ∨ part = b := by simpa [Body.held] using hpart
      rcases hpart with rfl | rfl
      · exact ha.extends hs hleads.extends
      · exact hb.extends hs hleads.extends

theorem recordDomain_has {function : Value} {product result : Ty}
    (h : s.recordDomain function = .ok (product, result)) : s.registry.Has product ∧ s.registry.Has result := by
  unfold recordDomain at h
  split at h
  · rename_i first rest _ hsignature
    dsimp only at h
    split at h
    · rename_i hproduct
      cases h
      refine ⟨Registry.has_productOf? hproduct, ?_⟩
      have hlast : rest.getLastD first ∈ first :: rest := by
        rw [← List.getLast_eq_getLastD (List.cons_ne_nil first rest)]
        exact List.getLast_mem _
      exact hs.has_signature hsignature _ hlast
    · contradiction
  · contradiction

theorem overRecord_sound {function : Value} (hfunction : function.Sound s.registry) :
    (s.overRecord function).Sound s := by
  unfold overRecord
  split
  · exact .here (report_sound hs)
  · rename_i product result hdomain
    obtain ⟨hproduct, hresult⟩ := recordDomain_has hs hdomain
    exact makeLambda_sound hs (by simp [hproduct, hresult]) (by simp) (by simpa [Body.held])

end Session
end TypeAlgebra
