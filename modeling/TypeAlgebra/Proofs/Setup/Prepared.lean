import TypeAlgebra.Proofs.Policy.Passing
import TypeAlgebra.Proofs.Layout.Known
import TypeAlgebra.Proofs.Setup.Declared

/-! What a blueprint comes to when it can be set up: a layout that was read in a registry there can be, where the
declared names stand for what the declarations say. The policy has no part in it. -/
namespace TypeAlgebra

namespace Setup

variable {b : Blueprint} {policy : Option Policy} {setup : Setup}

/-- The steps behind a setup, each of which succeeded. -/
structure Steps (b : Blueprint) (policy : Option Policy) (setup : Setup) (s : Session) (tys : List Ty)
    (built : Registry) : Prop where
  settings : Setup.settings b policy = .ok s
  types : Setup.types b s.registry = .ok (tys, built)
  record : built.namedProduct b.record ((b.fields.map (·.1)).zip tys) =
    .ok (setup.record, setup.session.registry)
  session : setup.session = { s with registry := setup.session.registry }
  layout : setup.session.layout setup.record b.layout = .ok setup.layout

theorem steps_of_ok (h : ofBlueprint b policy = .ok setup) : ∃ s tys built, Steps b policy setup s tys built := by
  unfold ofBlueprint at h
  split at h
  · contradiction
  rename_i s hsettings
  split at h
  · contradiction
  rename_i tys built htypes
  split at h
  · contradiction
  rename_i record registry hrecord
  dsimp only at h
  split at h
  · contradiction
  rename_i layout hlayout
  cases h
  exact ⟨s, tys, built, hsettings, htypes, hrecord, rfl, hlayout⟩

theorem settings_eq_start {s : Session} (h : settings b policy = .ok s) :
    ∃ own, s = .start own (b.marker.getD '$') := by
  unfold settings at h
  dsimp only at h
  split at h
  · contradiction
  all_goals
    cases h
    exact ⟨_, rfl⟩

/-- Types are built in registries there can be, and are there afterwards. -/
theorem types_builds {tys : List Ty} {built : Registry} (h : types b .initial = .ok (tys, built)) :
    built.Reachable ∧ (∀ ty ∈ tys, built.Has ty) ∧ Stands b.types built := by
  unfold types at h
  split at h
  · contradiction
  rename_i own r hdeclared
  have hlaws := declared_laws_initial b
  have hfresh : Declarations.Fresh b.types := (hlaws.ok_iff.mp ⟨own, r, hdeclared⟩).fresh
  have hfaithful : Faithful b.types r := by
    rcases declared_cases b .initial with ⟨-, hall⟩ | ⟨name, -, -, herror⟩
    · have hbuilds := resolveAll_builds hfresh (b.types.map (·.1)) (faithful_initial hfresh)
      rw [← hall, hdeclared] at hbuilds
      exact hbuilds.1.faithful
    · rw [hdeclared] at herror
      contradiction
  have hbuilds := resolveAll_builds hfresh (b.fields.map (·.2)) hfaithful
  rw [h] at hbuilds
  obtain ⟨grows, bound⟩ := hbuilds
  refine ⟨grows.faithful.reachable, fun ty hty => ?_, hlaws.stands hdeclared grows.leads⟩
  obtain ⟨name, hname⟩ := exists_partner bound.flip hty
  exact (grows.faithful.stands hname).has

theorem Steps.leads {s : Session} {tys : List Ty} {built : Registry} (h : Steps b policy setup s tys built) :
    built.Reachable ∧ built.Leads setup.session.registry ∧ Stands b.types built := by
  obtain ⟨own, rfl⟩ := settings_eq_start h.settings
  obtain ⟨hreachable, has, hstands⟩ := types_builds h.types
  refine ⟨hreachable, .single (.namedProduct (fun field hfield => ?_) h.record), hstands⟩
  exact has field.2 (List.of_mem_zip hfield).2

/-- The layout of a setup was read for its record type. -/
theorem ofText_of_ok (h : ofBlueprint b policy = .ok setup) :
    Layout.ofText setup.session.registry (b.marker.getD '$') setup.record b.layout = .ok setup.layout := by
  obtain ⟨s, tys, built, hsteps⟩ := steps_of_ok h
  obtain ⟨own, rfl⟩ := settings_eq_start hsteps.settings
  have hmarker : setup.session.marker = b.marker.getD '$' := by rw [hsteps.session]; rfl
  rw [← hmarker]
  exact hsteps.layout

theorem reachable_of_ok (h : ofBlueprint b policy = .ok setup) : setup.session.registry.Reachable := by
  obtain ⟨s, tys, built, hsteps⟩ := steps_of_ok h
  obtain ⟨hreachable, hleads, -⟩ := hsteps.leads
  exact hreachable.trans hleads

theorem known_of_ok (h : ofBlueprint b policy = .ok setup) : setup.layout.Known setup.session.registry :=
  ⟨_, _, _, _, reachable_of_ok h, .refl, ofText_of_ok h⟩

/-- In a setup the declared names stand for what the declarations say. -/
theorem stands_of_ok (h : ofBlueprint b policy = .ok setup) : Stands b.types setup.session.registry := by
  obtain ⟨s, tys, built, hsteps⟩ := steps_of_ok h
  obtain ⟨hreachable, hleads, hstands⟩ := hsteps.leads
  exact hstands.later hreachable.coherent hleads

/-- The policy asked for is that of the session, and changes nothing else. -/
theorem settings_under {own other : Policy} {s : Session} (h : settings b (some own) = .ok s) :
    settings b (some other) = .ok (s.under other) := by
  unfold settings at h ⊢
  dsimp only at h ⊢
  split at h
  · contradiction
  all_goals
    cases h
    rfl

theorem ofBlueprint_under {own other : Policy} (h : ofBlueprint b (some own) = .ok setup) :
    ofBlueprint b (some other) = .ok { setup with session := setup.session.under other } := by
  obtain ⟨s, tys, built, hsteps⟩ := steps_of_ok h
  have hsettings : settings b (some other) = .ok (s.under other) := settings_under hsteps.settings
  have hsession : ({ s.under other with registry := setup.session.registry } : Session) = setup.session.under other := by
    rw [hsteps.session]
    rfl
  have hlayout : (setup.session.under other).layout setup.record b.layout = .ok setup.layout := hsteps.layout
  rw [ofBlueprint, hsettings]
  simp only [Session.registry_under, hsteps.types, hsteps.record, hsession, hlayout]

end Setup
end TypeAlgebra
