import TypeAlgebra.Proofs.Application.Dispatch
import TypeAlgebra.Proofs.Session.Laws

/-! Functions made of two or more others. Which of them an argument is handed on to does not depend on the order
and the bracketing in which they were combined, and neither does whether they can be. -/
namespace TypeAlgebra

namespace Session

variable {s t : Session} {left right joined : Value} {a b result : Ty}

/-- The two functions can be combined, and this is what they make. -/
def Joins (s : Session) (left right joined : Value) (t : Session) : Prop :=
  s.either left right = (.ok joined, t) ∧ joined.isFailure = false

def Joinable (s : Session) (left right : Value) : Prop := ∃ joined t, s.Joins left right joined t

/-- Functions of one argument, with one result type and no leaf of their domains in common. -/
structure Apart (r : Registry) (left right : Value) (a b result : Ty) : Prop where
  left : left.residual = [a, result]
  right : right.residual = [b, result]
  disjoint : ∀ leaf ∈ r.leaves a, leaf ∉ r.leaves b

theorem Apart.symm {r : Registry} (h : Apart r left right a b result) : Apart r right left b a result :=
  ⟨h.right, h.left, fun leaf hright hleft => h.disjoint leaf hleft hright⟩

theorem oneArgument_eq_ok {function : Value} (hfunction : function.Fits s.registry) {domain : Ty} :
    s.oneArgument function = .ok (domain, result) ↔ function.residual = [domain, result] := by
  cases function with
  | closure ty lambda applied =>
    cases hfunction with
    | closure form short =>
      have hsignature : s.registry.signature? ty = some (lambda.signature.drop applied.length) := by
        rw [Registry.signature?, form]
        rfl
      simp only [oneArgument, Value.lambda?, Value.ty, hsignature, Value.residual]
      split <;> simp_all
  | int | str | record | injection | failure => simp [oneArgument, Value.lambda?, Value.residual]

theorem conflict?_eq_none {left right : Ty × Ty} :
    s.conflict? left right = none ↔
      left.2 = right.2 ∧ ∀ leaf ∈ s.registry.leaves left.1, leaf ∉ s.registry.leaves right.1 := by
  unfold conflict?
  constructor
  · intro h
    split at h
    · contradiction
    rename_i hresult
    split at h
    · contradiction
    split at h
    · contradiction
    rename_i hoverlap
    exact ⟨not_not.mp hresult, by simpa using hoverlap⟩
  · rintro ⟨hresult, hdisjoint⟩
    have hdomain : left.1 ≠ right.1 := by
      intro heq
      obtain ⟨leaf, hleaf⟩ := s.registry.exists_mem_leaves left.1
      exact hdisjoint leaf hleaf (heq ▸ hleaf)
    rw [if_neg (not_not.mpr hresult), if_neg hdomain, if_neg (by simpa using hdisjoint)]

theorem combinable_eq_ok (hleft : left.Fits s.registry) (hright : right.Fits s.registry) :
    s.combinable left right = .ok (a, b, result) ↔ Apart s.registry left right a b result := by
  constructor
  · intro h
    unfold combinable at h
    split at h
    · contradiction
    · contradiction
    · rename_i x y hx hy
      split at h
      · contradiction
      · rename_i hnone
        cases h
        obtain ⟨hresult, hdisjoint⟩ := conflict?_eq_none.mp hnone
        rw [hresult]
        exact ⟨(oneArgument_eq_ok hleft).mp (by rw [hx, ← hresult]), (oneArgument_eq_ok hright).mp hy, hdisjoint⟩
  · intro h
    have hx := (oneArgument_eq_ok hleft).mpr h.left
    have hy := (oneArgument_eq_ok hright).mpr h.right
    rw [combinable, hx, hy]
    have hnone : s.conflict? (a, result) (b, result) = none := conflict?_eq_none.mpr ⟨rfl, h.disjoint⟩
    simp only [hnone]

/-- What is made of two functions that can be combined. -/
theorem exists_either (h : s.combinable left right = .ok (a, b, result)) : ∃ ty serial name t,
    s.either left right = (.ok (.closure ty ⟨serial, name, [(s.registry.union a b).1, result],
      .dispatch a left b right (s.registry.union a b).1⟩ []), t) ∧ (s.registry.union a b).2.Extends t.registry := by
  rw [either, h]
  exact ⟨_, _, _, _, rfl, Registry.intern_extends rfl (Registry.sound_of_fields? rfl)⟩

section

variable (hs : s.registry.Coherent) (hleft : left.Sound s.registry) (hright : right.Sound s.registry)
include hs hleft hright

theorem Joins.sound (h : s.Joins left right joined t) : Outcome.Sound s (.ok joined, t) := by
  rw [← h.1]
  exact either_sound hs hleft hright

/-- What two functions make dispatches between them, over the union of their domains. -/
theorem Joins.dispatches (h : s.Joins left right joined t) : ∃ a b result,
    Apart s.registry left right a b result ∧
      t.registry.Dispatches left right joined a b (s.registry.union a b).1 result := by
  obtain ⟨heither, hjoined⟩ := h
  cases hcombinable : s.combinable left right with
  | error failure =>
    rw [either, hcombinable] at heither
    rw [isFailure_of_report (congrArg Prod.fst heither)] at hjoined
    contradiction
  | ok found =>
    obtain ⟨a, b, result⟩ := found
    have hapart := (combinable_eq_ok hleft.fits hright.fits).mp hcombinable
    have hasLeft : s.registry.Has a := hleft.fits.has_residual hs a (by simp [hapart.left])
    have hasRight : s.registry.Has b := hright.fits.has_residual hs b (by simp [hapart.right])
    obtain ⟨hdomain, hleaves⟩ := hs.leaves_union hasLeft hasRight
    obtain ⟨ty, serial, name, u, hmade, hafter⟩ := exists_either hcombinable
    have hext := (Registry.leads_union hasLeft hasRight).extends.trans hafter
    obtain ⟨hvalue, rfl⟩ := Prod.mk.inj (heither.symm.trans hmade)
    cases hvalue
    refine ⟨a, b, result, hapart, ⟨serial, name, rfl⟩, hapart.left, hapart.right,
      ⟨hext.has hasLeft, hext.has hasRight, hafter.has hdomain⟩, fun leaf => ?_, fun leaf => ?_⟩
    · rw [hafter.leaves hdomain, hext.leaves hasLeft, hext.leaves hasRight, hleaves]
    · rw [hext.leaves hasLeft, hext.leaves hasRight]
      exact hapart.disjoint leaf

theorem joinable_iff : s.Joinable left right ↔ ∃ a b result, Apart s.registry left right a b result := by
  constructor
  · rintro ⟨joined, t, h⟩
    obtain ⟨a, b, result, hapart, -⟩ := h.dispatches hs hleft hright
    exact ⟨a, b, result, hapart⟩
  · rintro ⟨a, b, result, hapart⟩
    obtain ⟨ty, serial, name, t, hmade, -⟩ :=
      exists_either ((combinable_eq_ok hleft.fits hright.fits).mpr hapart)
    exact ⟨_, t, hmade, rfl⟩

theorem joinable_comm : s.Joinable left right ↔ s.Joinable right left := by
  rw [joinable_iff hs hleft hright, joinable_iff hs hright hleft]
  constructor
  · rintro ⟨a, b, result, hapart⟩
    exact ⟨b, a, result, hapart.symm⟩
  · rintro ⟨b, a, result, hapart⟩
    exact ⟨a, b, result, hapart.symm⟩

/-- Whether two functions can be combined does not change while the registry grows. -/
theorem joinable_extends (ht : t.registry.Coherent) (hext : s.registry.Extends t.registry) :
    t.Joinable left right ↔ s.Joinable left right := by
  rw [joinable_iff hs hleft hright, joinable_iff ht (hleft.extends hs hext) (hright.extends hs hext)]
  refine exists_congr fun a => exists_congr fun b => exists_congr fun result => ?_
  constructor
  · rintro ⟨hl, hr, hdisjoint⟩
    refine ⟨hl, hr, fun leaf => ?_⟩
    rw [← hext.leaves (hleft.fits.has_residual hs a (by simp [hl])),
      ← hext.leaves (hright.fits.has_residual hs b (by simp [hr]))]
    exact hdisjoint leaf
  · rintro ⟨hl, hr, hdisjoint⟩
    refine ⟨hl, hr, fun leaf => ?_⟩
    rw [hext.leaves (hleft.fits.has_residual hs a (by simp [hl])),
      hext.leaves (hright.fits.has_residual hs b (by simp [hr]))]
    exact hdisjoint leaf

/-- What two functions make can be combined with a third if each of the two can. -/
theorem Joins.joinable_iff (h : s.Joins left right joined t) {third : Value} (hthird : third.Sound s.registry) :
    t.Joinable joined third ↔ s.Joinable left third ∧ s.Joinable right third := by
  have hmade := h.sound hs hleft hright
  have ht := hs.leads hmade.leads
  have hext := hmade.leads.extends
  obtain ⟨a, b, result, -, hdispatches⟩ := h.dispatches hs hleft hright
  have hleftLater := hleft.extends hs hext
  have hrightLater := hright.extends hs hext
  have hthirdLater := hthird.extends hs hext
  rw [← joinable_extends hs hleft hthird ht hext, ← joinable_extends hs hright hthird ht hext,
    Session.joinable_iff ht (hmade.value rfl) hthirdLater, Session.joinable_iff ht hleftLater hthirdLater,
    Session.joinable_iff ht hrightLater hthirdLater]
  constructor
  · rintro ⟨domain, other, result', hjoined, hother, hdisjoint⟩
    cases hdispatches.residual.symm.trans hjoined
    exact ⟨⟨a, other, result, hdispatches.left, hother,
        fun leaf hleaf => hdisjoint leaf ((hdispatches.leaves leaf).mpr (.inl hleaf))⟩,
      ⟨b, other, result, hdispatches.right, hother,
        fun leaf hleaf => hdisjoint leaf ((hdispatches.leaves leaf).mpr (.inr hleaf))⟩⟩
  · rintro ⟨⟨_, other, result', hl, hother, hdisjoint⟩, ⟨_, other', _, hr, hother', hdisjoint'⟩⟩
    cases hdispatches.left.symm.trans hl
    cases hdispatches.right.symm.trans hr
    cases hother.symm.trans hother'
    refine ⟨_, other, result, hdispatches.residual, hother, fun leaf hleaf => ?_⟩
    exact ((hdispatches.leaves leaf).mp hleaf).elim (hdisjoint leaf) (hdisjoint' leaf)

/-- Three functions can be combined, two of them first, if any two of them can be. -/
theorem joinable_three {third : Value} (hthird : third.Sound s.registry) :
    (∃ joined t, s.Joins left right joined t ∧ t.Joinable joined third) ↔
      s.Joinable left right ∧ s.Joinable left third ∧ s.Joinable right third := by
  constructor
  · rintro ⟨joined, t, h, hnext⟩
    exact ⟨⟨joined, t, h⟩, (h.joinable_iff hs hleft hright hthird).mp hnext⟩
  · rintro ⟨⟨joined, t, h⟩, hnext⟩
    exact ⟨joined, t, h, (h.joinable_iff hs hleft hright hthird).mpr hnext⟩

end

/-- Whether three functions can be combined does not depend on the bracketing. -/
theorem joinable_assoc (hs : s.registry.Coherent) {third : Value} (hleft : left.Sound s.registry)
    (hright : right.Sound s.registry) (hthird : third.Sound s.registry) :
    (∃ joined t, s.Joins left right joined t ∧ t.Joinable joined third) ↔
      ∃ joined t, s.Joins right third joined t ∧ t.Joinable left joined := by
  have hcomm : (∃ joined t, s.Joins right third joined t ∧ t.Joinable left joined) ↔
      ∃ joined t, s.Joins right third joined t ∧ t.Joinable joined left := by
    refine exists_congr fun joined => exists_congr fun t => and_congr_right fun h => ?_
    have hmade := h.sound hs hright hthird
    exact joinable_comm (hs.leads hmade.leads) (hleft.extends hs hmade.leads.extends) (hmade.value rfl)
  rw [hcomm, joinable_three hs hleft hright hthird, joinable_three hs hright hthird hleft,
    joinable_comm hs hright hleft, joinable_comm hs hthird hleft]
  tauto

end Session

namespace Registry

variable {r r' : Registry} {code : Code} {parts others : List Value} {function : Value} {domain result : Ty}

/-- The function takes one argument, and values with this leaf are of its type. -/
def DefinedOn (r : Registry) (function : Value) (leaf : Ty) : Prop :=
  ∃ domain result, function.residual = [domain, result] ∧ leaf ∈ r.leaves domain

/-- The function does with an argument what the one of the parts does that takes it. -/
structure Combines (code : Code) (r : Registry) (parts : List Value) (function : Value) (domain result : Ty) :
    Prop where
  residual : function.residual = [domain, result]
  has : r.Has domain
  each : ∀ part ∈ parts, ∃ a, part.residual = [a, result] ∧ r.Has a
  leaves : ∀ leaf, leaf ∈ r.leaves domain ↔ ∃ part ∈ parts, r.DefinedOn part leaf
  call : ∀ {s : Session}, s.registry.Coherent → r.Extends s.registry → ∀ {arg : Value}, arg.Sound s.registry →
    arg.isInjection → ∀ part ∈ parts, r.DefinedOn part arg.leaf.ty → s.call code function [arg] = s.call code part [arg]

theorem definedOn_iff {a : Ty} (h : function.residual = [a, result]) {leaf : Ty} :
    r.DefinedOn function leaf ↔ leaf ∈ r.leaves a := by
  constructor
  · rintro ⟨domain, other, hresidual, hleaf⟩
    cases h.symm.trans hresidual
    exact hleaf
  · exact fun hleaf => ⟨a, result, h, hleaf⟩

theorem combines_single (h : function.residual = [domain, result]) (has : r.Has domain) :
    Combines code r [function] function domain result where
  residual := h
  has := has
  each := List.forall_mem_singleton.mpr ⟨domain, h, has⟩
  leaves leaf := by simp [definedOn_iff h]
  call _ _ _ _ _ part hpart _ := by rw [List.mem_singleton.mp hpart]

theorem Combines.extends (h : Combines code r parts function domain result) (hext : r.Extends r') :
    Combines code r' parts function domain result := by
  have hsame {part : Value} (hpart : part ∈ parts) (leaf : Ty) : r'.DefinedOn part leaf ↔ r.DefinedOn part leaf := by
    obtain ⟨a, hresidual, has⟩ := h.each part hpart
    rw [definedOn_iff hresidual, definedOn_iff hresidual, hext.leaves has]
  refine ⟨h.residual, hext.has h.has, fun part hpart => ?_, fun leaf => ?_, ?_⟩
  · obtain ⟨a, hresidual, has⟩ := h.each part hpart
    exact ⟨a, hresidual, hext.has has⟩
  · rw [hext.leaves h.has, h.leaves]
    exact exists_congr fun part => and_congr_right fun hpart => (hsame hpart leaf).symm
  · intro s hs hlater arg harg hinjection part hpart hdefined
    exact h.call hs (hext.trans hlater) harg hinjection part hpart ((hsame hpart _).mp hdefined)

theorem Combines.join {left right : Value} {a b : Ty} (hcode : code.Lawful)
    (hleft : Combines code r parts left a result) (hright : Combines code r others right b result)
    (h : r.Dispatches left right function a b domain result) :
    Combines code r (parts ++ others) function domain result where
  residual := h.residual
  has := h.has.2.2
  each part hpart := (List.mem_append.mp hpart).elim (hleft.each part) (hright.each part)
  leaves leaf := by
    rw [h.leaves, hleft.leaves, hright.leaves]
    simp only [List.mem_append, or_and_right, exists_or]
  call := by
    intro s hs hlater arg harg hinjection part hpart hdefined
    have hdispatches := h.extends hlater
    rcases List.mem_append.mp hpart with hpart | hpart
    · have hleaf : arg.leaf.ty ∈ s.registry.leaves a := by
        rw [hlater.leaves h.has.1]
        exact (hleft.leaves _).mpr ⟨part, hpart, hdefined⟩
      rw [Session.call_dispatch hdispatches hs hcode harg hinjection (.inl ⟨rfl, rfl⟩) hleaf]
      exact hleft.call hs hlater harg hinjection part hpart hdefined
    · have hleaf : arg.leaf.ty ∈ s.registry.leaves b := by
        rw [hlater.leaves h.has.2.1]
        exact (hright.leaves _).mpr ⟨part, hpart, hdefined⟩
      rw [Session.call_dispatch hdispatches hs hcode harg hinjection (.inr ⟨rfl, rfl⟩) hleaf]
      exact hright.call hs hlater harg hinjection part hpart hdefined

/-- Functions that combine the same parts, in whatever order, take and give the same types. -/
theorem Combines.signature (h : Combines code r parts function domain result) (hr : r.Coherent) {other : Value}
    {domain' result' : Ty} (h' : Combines code r others other domain' result') (hperm : parts.Perm others)
    (hne : parts ≠ []) : domain = domain' ∧ result = result' := by
  constructor
  · refine hr.eq_of_leaves h.has h'.has fun leaf => ?_
    rw [h.leaves, h'.leaves]
    simp only [hperm.mem_iff]
  · obtain ⟨part, hpart⟩ := List.exists_mem_of_ne_nil parts hne
    obtain ⟨a, hresidual, -⟩ := h.each part hpart
    obtain ⟨b, hresidual', -⟩ := h'.each part (hperm.mem_iff.mp hpart)
    cases hresidual.symm.trans hresidual'
    rfl

end Registry

namespace History

variable {policy : Policy} {marker : Char} {h h' : History} {code : Code} {parts others : List Value}
  {function other : Value}

/-- The function is one that is known, or is made of the parts, in some order and bracketing, whatever comes in
between. -/
inductive CombinationOf : History → List Value → Value → Prop
  | single {policy : Policy} {marker : Char} {h : History} {function : Value} (run : Run (start policy marker) h)
      (known : h.Known function) : CombinationOf h [function] function
  | join {h : History} {parts others : List Value} {left right joined : Value} {s : Session}
      (first : CombinationOf h parts left) (second : CombinationOf h others right)
      (joins : h.session.Joins left right joined s) :
      CombinationOf (h.after (.ok joined, s)) (parts ++ others) joined
  | later {h h' : History} {parts : List Value} {function : Value} (made : CombinationOf h parts function)
      (run : Run h h') : CombinationOf h' parts function

/-- What a function made of others is: one of them, or one over a sum that combines two or more. -/
structure Combined (code : Code) (h : History) (parts : List Value) (function : Value) : Prop where
  history : h.Sound
  sound : function.Sound h.session.registry
  parts : parts = [function] ∨ 1 < parts.length ∧ ∃ domain result,
    Registry.Combines code h.session.registry parts function domain result ∧
      ∃ name left right, h.session.registry.get domain = .sum name left right

namespace Combined

theorem positive (h₀ : h.Combined code parts function) : 0 < parts.length := by
  rcases h₀.parts with rfl | ⟨hlength, -⟩
  · exact Nat.one_pos
  · exact Nat.zero_lt_of_lt hlength

theorem combines (h₀ : h.Combined code parts function) {domain result : Ty}
    (hresidual : function.residual = [domain, result]) :
    Registry.Combines code h.session.registry parts function domain result := by
  rcases h₀.parts with rfl | ⟨-, domain', result', hcombines, -⟩
  · have has := h₀.sound.fits.has_residual h₀.history.coherent domain (by simp [hresidual])
    exact Registry.combines_single hresidual has
  · cases hresidual.symm.trans hcombines.residual
    exact hcombines

theorem grows (h₀ : h.Combined code parts function) (hgrows : h.Grows h') : h'.Combined code parts function := by
  have hext := hgrows.leads.extends
  refine ⟨hgrows.sound, h₀.sound.extends h₀.history.coherent hext, h₀.parts.imp_right ?_⟩
  rintro ⟨hlength, domain, result, hcombines, name, left, right, hsum⟩
  exact ⟨hlength, domain, result, hcombines.extends hext, name, left, right, (hext.get hcombines.has).trans hsum⟩

theorem join (hcode : code.Lawful) {left right joined : Value} {s : Session} (hleft : h.Combined code parts left)
    (hright : h.Combined code others right) (hjoins : h.session.Joins left right joined s) :
    (h.after (.ok joined, s)).Combined code (parts ++ others) joined := by
  have hs := hleft.history.coherent
  have hmade := hjoins.sound hs hleft.sound hright.sound
  have hext := hmade.leads.extends
  obtain ⟨a, b, result, -, hdispatches⟩ := hjoins.dispatches hs hleft.sound hright.sound
  refine ⟨hleft.history.after hmade, hmade.value rfl, .inr ⟨?_, _, result, ?_, hdispatches.isSum⟩⟩
  · have := hleft.positive
    have := hright.positive
    simp only [List.length_append]
    omega
  · exact ((hleft.combines hdispatches.left).extends hext).join hcode
      ((hright.combines hdispatches.right).extends hext) hdispatches

/-- Functions made of the same parts, in whatever order and bracketing, are of one type and do the same. -/
theorem agree (h₁ : h.Combined code parts function) (h₂ : h.Combined code others other) (hperm : parts.Perm others) :
    function.ty = other.ty ∧ ∀ {arg : Value}, arg.Sound h.session.registry →
      h.session.call code function [arg] = h.session.call code other [arg] := by
  have hs := h₁.history.coherent
  have hlength := hperm.length_eq
  rcases h₁.parts with rfl | ⟨hparts, domain, result, hcombines, name, left, right, hsum⟩
  · rcases h₂.parts with rfl | ⟨hothers, -⟩
    · obtain rfl := List.singleton_perm_singleton.mp hperm
      exact ⟨rfl, fun _ => rfl⟩
    · rw [← hlength] at hothers
      contradiction
  rcases h₂.parts with rfl | ⟨-, domain', result', hcombines', -⟩
  · rw [hlength] at hparts
    contradiction
  obtain ⟨rfl, rfl⟩ := hcombines.signature hs hcombines' hperm (List.ne_nil_of_length_pos h₁.positive)
  have hsame : function.residual = other.residual := hcombines.residual.trans hcombines'.residual.symm
  refine ⟨h₁.sound.fits.ty_eq hs h₂.sound.fits (by simp [hcombines.residual]) hsame, fun {arg} harg => ?_⟩
  cases hfailure : arg.isFailure with
  | true =>
    rw [Session.call_single (Value.isFailure_of_residual (by simp [hcombines.residual])),
      Session.call_single (Value.isFailure_of_residual (by simp [hcombines'.residual])),
      Session.curry_of_isFailure hfailure, Session.curry_of_isFailure hfailure]
  | false =>
    by_cases hbelongs : h.session.registry.belongs arg domain
    · obtain ⟨hinjection, hleaf⟩ := (Registry.belongs_of_sum hs harg hsum).mp hbelongs
      obtain ⟨part, hpart, hdefined⟩ := (hcombines.leaves _).mp hleaf
      rw [hcombines.call hs (.refl _) harg hinjection part hpart hdefined,
        hcombines'.call hs (.refl _) harg hinjection part (hperm.mem_iff.mp hpart) hdefined]
    · rw [Session.call_refused hcombines.residual hfailure hbelongs,
        Session.call_refused hcombines'.residual hfailure hbelongs]

end Combined

theorem CombinationOf.combined (hcode : code.Lawful) (h₀ : CombinationOf h parts function) :
    h.Combined code parts function := by
  induction h₀ with
  | single run known => exact ⟨run.sound, run.sound.known known, .inl rfl⟩
  | join _ _ joins ihl ihr => exact ihl.join hcode ihr joins
  | later _ run ih => exact ih.grows (run.grows ih.history)

/-- What combining functions comes to. -/
structure EitherLaws (code : Code) (h : History) : Prop where
  /-- From then on what was made of two functions gives each argument to the one over the domain it belongs to. -/
  dispatch : ∀ {left right joined : Value} {s : Session} {h' : History}, h.Known left → h.Known right →
    h.session.Joins left right joined s → Run (h.after (.ok joined, s)) h' →
      ∃ a b result, left.residual = [a, result] ∧ right.residual = [b, result] ∧
        joined.residual = [(h.session.registry.union a b).1, result] ∧
          ∀ arg, h'.Known arg →
            h'.session.Dispatched code left right joined a b (h.session.registry.union a b).1 arg
  /-- Order and bracketing make no difference. -/
  perm : ∀ {parts others : List Value} {function other : Value}, CombinationOf h parts function →
    CombinationOf h others other → parts.Perm others →
      function.ty = other.ty ∧
        ∀ arg, h.Known arg → h.session.call code function [arg] = h.session.call code other [arg]
  joinable_comm : ∀ {f g : Value}, h.Known f → h.Known g → (h.session.Joinable f g ↔ h.session.Joinable g f)
  joinable_assoc : ∀ {f g k : Value}, h.Known f → h.Known g → h.Known k →
    ((∃ joined s, h.session.Joins f g joined s ∧ s.Joinable joined k) ↔
      ∃ joined s, h.session.Joins g k joined s ∧ s.Joinable f joined)
  /-- What happens meanwhile makes no difference either. -/
  joinable_later : ∀ {f g : Value} {h' : History}, h.Known f → h.Known g → Run h h' →
    (h'.session.Joinable f g ↔ h.session.Joinable f g)

theorem Run.either_laws (hcode : code.Lawful) (run : Run (start policy marker) h) : h.EitherLaws code where
  dispatch := by
    intro left right joined s h' knownLeft knownRight joins later
    have hs := run.sound
    have hleft := hs.known knownLeft
    have hright := hs.known knownRight
    have hmade := joins.sound hs.coherent hleft hright
    have hgrows := later.grows (hs.after hmade)
    obtain ⟨a, b, result, hapart, hdispatches⟩ := joins.dispatches hs.coherent hleft hright
    refine ⟨a, b, result, hapart.left, hapart.right, hdispatches.residual, fun arg harg => ?_⟩
    exact Session.dispatched (hdispatches.extends hgrows.leads.extends) hgrows.sound.coherent hcode
      (hgrows.sound.known harg)
  perm first second hperm := by
    have hfirst := first.combined hcode
    obtain ⟨hty, hcall⟩ := hfirst.agree (second.combined hcode) hperm
    exact ⟨hty, fun arg harg => hcall (hfirst.history.known harg)⟩
  joinable_comm knownLeft knownRight :=
    Session.joinable_comm run.sound.coherent (run.sound.known knownLeft) (run.sound.known knownRight)
  joinable_assoc knownLeft knownRight knownThird :=
    Session.joinable_assoc run.sound.coherent (run.sound.known knownLeft) (run.sound.known knownRight)
      (run.sound.known knownThird)
  joinable_later knownLeft knownRight later := by
    have hs := run.sound
    have hgrows := later.grows hs
    exact Session.joinable_extends hs.coherent (hs.known knownLeft) (hs.known knownRight) hgrows.sound.coherent
      hgrows.leads.extends

/-- The digits of a number. -/
def digits : Value := .closure ⟨3⟩ ⟨0, "digits", [.int, .str], .concat⟩ []

/-- A text as it is. -/
def same : Value := .closure ⟨4⟩ ⟨1, "same", [.str, .str], .argument 0⟩ []

/-- Both functions were made. -/
def writing : History :=
  ⟨⟨((Registry.initial.functionType [.int, .str]).2.functionType [.str, .str]).2, .raise, '$', 2⟩, [same, digits], []⟩

theorem run_writing : Run (start .raise '$') writing := by
  have first : Step (start .raise '$') _ :=
    @Step.function _ "digits" [.int] .str .concat (by decide) nofun
  have second : Step ((start .raise '$').after ((Session.start .raise '$').function "digits" [.int] .str .concat)) _ :=
    @Step.function _ "same" [.str] .str (.argument 0) (by decide) nofun
  exact (Run.refl.step first).step second

/-- The text of either. -/
def written : Value := .closure ⟨6⟩ ⟨2, "digits | same", [⟨5⟩, .str], .dispatch .int digits .str same ⟨5⟩⟩ []

/-- Given a number, the function writes its digits; the two could be combined the other way round as well. -/
theorem either_laws_written : ∃ s, writing.session.either digits same = (.ok written, s) ∧
    s.call Session.ownCode written [.injection ⟨5⟩ .inl (.int .int 7)] =
      s.call Session.ownCode digits [.injection ⟨5⟩ .inl (.int .int 7)] ∧
    s.call Session.ownCode digits [.injection ⟨5⟩ .inl (.int .int 7)] = (.ok (.str .str "7"), s) ∧
    writing.session.Joinable same digits := by
  have laws := Run.either_laws Session.ownCode_lawful run_writing
  have knownDigits : writing.Known digits := ⟨digits, .inl (List.mem_cons_of_mem _ List.mem_cons_self), .refl⟩
  have knownSame : writing.Known same := ⟨same, .inl List.mem_cons_self, .refl⟩
  have joins : writing.session.Joins digits same written (writing.session.either digits same).2 := ⟨rfl, rfl⟩
  have later : Run (writing.after (.ok written, (writing.session.either digits same).2)) _ :=
    Run.refl.step (.make ⟨5⟩ (.text "7") nofun)
  obtain ⟨a, b, result, hleft, hright, -, hdispatched⟩ := laws.dispatch knownDigits knownSame joins later
  cases hleft
  cases hright
  refine ⟨_, joins.1, ?_, rfl, (laws.joinable_comm knownDigits knownSame).mp ⟨_, _, joins⟩⟩
  exact (hdispatched _ ⟨_, .inl List.mem_cons_self, .refl⟩).onLeft rfl (by decide)

end History
end TypeAlgebra
