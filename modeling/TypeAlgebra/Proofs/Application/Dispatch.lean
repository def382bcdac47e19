import TypeAlgebra.Proofs.Application.Code
import TypeAlgebra.Proofs.Application.Sound

/-! Functions that hand their argument on to one of two others. A value belongs to at most one of the two domains,
and calling the function on it is calling the one whose domain it belongs to. -/
namespace TypeAlgebra

/-- A function over the domain, made of two functions over types without a leaf in common. -/
structure Registry.Dispatches (r : Registry) (left right function : Value) (a b domain result : Ty) : Prop where
  made : ∃ serial name, function =
    .closure function.ty ⟨serial, name, [domain, result], .dispatch a left b right domain⟩ []
  left : left.residual = [a, result]
  right : right.residual = [b, result]
  has : r.Has a ∧ r.Has b ∧ r.Has domain
  leaves : ∀ leaf, leaf ∈ r.leaves domain ↔ leaf ∈ r.leaves a ∨ leaf ∈ r.leaves b
  disjoint : ∀ leaf ∈ r.leaves a, leaf ∉ r.leaves b

namespace Registry

variable {r r' : Registry} {left right function : Value} {a b domain result : Ty}

theorem Dispatches.extends (h : r.Dispatches left right function a b domain result) (hext : r.Extends r') :
    r'.Dispatches left right function a b domain result where
  made := h.made
  left := h.left
  right := h.right
  has := ⟨hext.has h.has.1, hext.has h.has.2.1, hext.has h.has.2.2⟩
  leaves leaf := by rw [hext.leaves h.has.1, hext.leaves h.has.2.1, hext.leaves h.has.2.2, h.leaves]
  disjoint leaf := by rw [hext.leaves h.has.1, hext.leaves h.has.2.1]; exact h.disjoint leaf

theorem Dispatches.residual (h : r.Dispatches left right function a b domain result) : function.residual = [domain, result] := by
  obtain ⟨serial, name, heq⟩ := h.made
  rw [heq]
  rfl

/-- The domain is a sum, as it has a leaf of each of the two domains. -/
theorem Dispatches.isSum (h : r.Dispatches left right function a b domain result) :
    ∃ name left right, r.get domain = .sum name left right := by
  obtain ⟨x, hx⟩ := r.exists_mem_leaves a
  obtain ⟨y, hy⟩ := r.exists_mem_leaves b
  have hxd := (h.leaves x).mpr (.inl hx)
  have hyd := (h.leaves y).mpr (.inr hy)
  rcases r.sum_or_single domain with hkey | hsingle
  · cases hget : r.get domain with
    | sum name left right => exact ⟨name, left, right, rfl⟩
    | primitive | product | function | failure => rw [hget] at hkey; contradiction
  · rw [hsingle] at hxd hyd
    rw [List.mem_singleton.mp hxd, ← List.mem_singleton.mp hyd] at hx
    exact absurd hy (h.disjoint y hx)

/-- No value belongs to both domains. -/
theorem Dispatches.apart (h : r.Dispatches left right function a b domain result) (hr : r.Coherent) {arg : Value}
    (harg : arg.Sound r) : ¬(r.belongs arg a ∧ r.belongs arg b) := by
  rintro ⟨ha, hb⟩
  cases hinjection : arg.isInjection with
  | true =>
    rw [belongs_of_injection hr harg hinjection] at ha hb
    exact h.disjoint _ ha hb
  | false =>
    rw [belongs_of_single hinjection] at ha hb
    obtain ⟨leaf, hleaf⟩ := r.exists_mem_leaves a
    exact h.disjoint leaf hleaf (by rwa [← hb, ha])

/-- An injection belongs to the sum if and only if it belongs to one of the two domains. -/
theorem Dispatches.view_domain (h : r.Dispatches left right function a b domain result) (hr : r.Coherent) {arg : Value}
    (harg : arg.Sound r) (hinjection : arg.isInjection) {side : Ty} (hside : side = a ∨ side = b)
    (hleaf : arg.leaf.ty ∈ r.leaves side) :
    ∃ viewed chosen, r.view domain arg = some viewed ∧ r.view side viewed = some chosen ∧
      r.view side arg = some chosen := by
  have hdomain : arg.leaf.ty ∈ r.leaves domain := by
    rw [h.leaves]
    exact hside.elim (fun heq => .inl (heq ▸ hleaf)) (fun heq => .inr (heq ▸ hleaf))
  obtain ⟨viewed, hview⟩ := belongs_iff_exists.mp ((belongs_of_injection hr harg hinjection).mpr hdomain)
  obtain ⟨hviewed, hty, hsame⟩ := view_sound hr harg hview
  have hsum : viewed.isInjection := hviewed.fits.isInjection_iff.mpr (by rw [hty]; exact h.isSum)
  have hbelongs : r.belongs viewed side := (belongs_of_injection hr hviewed hsum).mpr (by rwa [hsame])
  obtain ⟨chosen, hchosen⟩ := belongs_iff_exists.mp hbelongs
  exact ⟨viewed, chosen, hview, hchosen, by rw [(view_eq_of_view hr harg hview hbelongs).2, hchosen]⟩

end Registry

namespace Session

variable {code : Code} {s : Session} {left right function arg : Value} {a b domain result : Ty}

/-- How a function made of two others deals with an argument. -/
structure Dispatched (code : Code) (s : Session) (left right function : Value) (a b domain : Ty) (arg : Value) : Prop where
  apart : ¬(s.registry.belongs arg a ∧ s.registry.belongs arg b)
  onLeft : arg.isInjection → arg.leaf.ty ∈ s.registry.leaves a → s.call code function [arg] = s.call code left [arg]
  onRight : arg.isInjection → arg.leaf.ty ∈ s.registry.leaves b → s.call code function [arg] = s.call code right [arg]
  refused : arg.isFailure = false →
    (arg.isInjection → arg.leaf.ty ∉ s.registry.leaves a ∧ arg.leaf.ty ∉ s.registry.leaves b) →
      s.call code function [arg] =
        (s.report (.typeMismatch (s.registry.name domain) (s.registry.name arg.ty)), s)
  /-- A body that is run hands on to one of the two functions. -/
  handsOn : ∀ {lambda : Lambda} {args : List Value} {ty : Ty}, s.offer function arg = .saturated lambda args ty →
    ∃ part chosen, (part = left ∨ part = right) ∧ s.reduce args lambda.body = .handOn part [chosen]

/-- Handing the argument on to a function, and checking the result, is calling the function. -/
theorem settle_call {slot : Ty} {viewed : Value} (hfunction : function.residual = [slot, result])
    (harg : arg.isFailure = false) (hviewed : viewed.isFailure = false)
    (hview : s.registry.view slot arg = some viewed) :
    settle result (s.call code function [viewed]) = s.call code function [arg] := by
  obtain ⟨ty, lambda, applied, rfl⟩ := Value.exists_of_residual hfunction
  have hown : s.registry.view slot viewed = some viewed := by
    have hty := s.registry.view_ty viewed
    rwa [(Registry.view_eq_some hview).1] at hty
  rw [call_single rfl, call_single rfl, curry_last hfunction hviewed hown, curry_last hfunction harg hview,
    settle_settle]

theorem reduce_dispatch_left {viewed chosen : Value} (hview : s.registry.view a viewed = some chosen) :
    s.reduce [viewed] (.dispatch a left b right domain) = .handOn left [chosen] := by
  simp only [reduce, hview]

theorem reduce_dispatch_right {viewed chosen : Value} (hleft : s.registry.view a viewed = none)
    (hright : s.registry.view b viewed = some chosen) :
    s.reduce [viewed] (.dispatch a left b right domain) = .handOn right [chosen] := by
  simp only [reduce, hleft, hright]

section

variable (h : s.registry.Dispatches left right function a b domain result) (hs : s.registry.Coherent)
include h hs

/-- An argument that is viewed as one of the domain is handed on to the function over the side it belongs to. -/
theorem reduce_dispatch {viewed chosen : Value} (hviewed : viewed.Sound s.registry) {side : Ty} {part : Value}
    (hside : side = a ∧ part = left ∨ side = b ∧ part = right)
    (hchosen : s.registry.view side viewed = some chosen) :
    s.reduce [viewed] (.dispatch a left b right domain) = .handOn part [chosen] := by
  rcases hside with ⟨rfl, rfl⟩ | ⟨rfl, rfl⟩
  · exact reduce_dispatch_left hchosen
  · have hnone : s.registry.view a viewed = none := by
      by_contra hsome
      exact h.apart hs hviewed ⟨Option.isSome_iff_ne_none.mpr hsome, Registry.belongs_iff_exists.mpr ⟨_, hchosen⟩⟩
    exact reduce_dispatch_right hnone hchosen

/-- Calling the function on an injection that belongs to one of the domains is calling the function over it. -/
theorem call_dispatch (hcode : code.Lawful) (harg : arg.Sound s.registry) (hinjection : arg.isInjection) {side : Ty}
    {part : Value} (hside : side = a ∧ part = left ∨ side = b ∧ part = right)
    (hleaf : arg.leaf.ty ∈ s.registry.leaves side) : s.call code function [arg] = s.call code part [arg] := by
  have hpart : part.residual = [side, result] := by
    rcases hside with ⟨rfl, rfl⟩ | ⟨rfl, rfl⟩
    · exact h.left
    · exact h.right
  obtain ⟨viewed, chosen, hview, hchosen, hdirect⟩ :=
    h.view_domain hs harg hinjection (hside.imp And.left And.left) hleaf
  have hsound := (Registry.view_sound hs harg hview).1
  have hargFailure : arg.isFailure = false := Value.isFailure_of_isInjection hinjection
  have hchosenFailure : chosen.isFailure = false := by
    refine Value.isFailure_of_leaf ?_
    rw [(Registry.view_eq_some hdirect).2]
    exact harg.isPrimitive_leaf hinjection
  obtain ⟨serial, name, heq⟩ := h.made
  rw [heq, call_single rfl, curry_last rfl hargFailure hview, hcode _ _ _ rfl, List.nil_append, follow,
    reduce_dispatch h hs hsound hside hchosen]
  exact settle_call hpart hargFailure hchosenFailure hdirect

/-- What belongs to the domain is an injection that belongs to one of the two domains. -/
theorem belongs_side (harg : arg.Sound s.registry) (hbelongs : s.registry.belongs arg domain) :
    arg.isInjection ∧ (arg.leaf.ty ∈ s.registry.leaves a ∨ arg.leaf.ty ∈ s.registry.leaves b) := by
  obtain ⟨name, _, _, hsum⟩ := h.isSum
  rw [← h.leaves]
  exact (Registry.belongs_of_sum hs harg hsum).mp hbelongs

theorem dispatched (hcode : code.Lawful) (harg : arg.Sound s.registry) :
    s.Dispatched code left right function a b domain arg where
  apart := h.apart hs harg
  onLeft hinjection hleaf := call_dispatch h hs hcode harg hinjection (.inl ⟨rfl, rfl⟩) hleaf
  onRight hinjection hleaf := call_dispatch h hs hcode harg hinjection (.inr ⟨rfl, rfl⟩) hleaf
  refused hfailure hother := by
    refine call_refused h.residual hfailure fun hbelongs => ?_
    obtain ⟨hinjection, hleaf⟩ := belongs_side h hs harg hbelongs
    exact hleaf.elim (hother hinjection).1 (hother hinjection).2
  handsOn := by
    intro lambda args ty hoffer
    obtain ⟨serial, name, heq⟩ := h.made
    obtain ⟨own, applied, slot, viewed, hfunction, hdrop, hview, rfl⟩ := exists_of_saturated hoffer
    cases heq.symm.trans hfunction
    cases hdrop
    obtain ⟨hinjection, hleaf⟩ := belongs_side h hs harg (Registry.belongs_iff_exists.mpr ⟨viewed, hview⟩)
    have hsound := (Registry.view_sound hs harg hview).1
    obtain ⟨part, side, hside, hmem⟩ : ∃ part side, (side = a ∧ part = left ∨ side = b ∧ part = right) ∧
        arg.leaf.ty ∈ s.registry.leaves side :=
      hleaf.elim (fun hmem => ⟨left, a, .inl ⟨rfl, rfl⟩, hmem⟩) fun hmem => ⟨right, b, .inr ⟨rfl, rfl⟩, hmem⟩
    obtain ⟨again, chosen, hagain, hchosen, -⟩ := h.view_domain hs harg hinjection (hside.imp And.left And.left) hmem
    cases hview.symm.trans hagain
    exact ⟨part, chosen, hside.imp And.right And.right, reduce_dispatch h hs hsound hside hchosen⟩

end

end Session
end TypeAlgebra
