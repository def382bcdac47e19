import Mathlib.Tactic.Common
import TypeAlgebra.Form
import TypeAlgebra.Proofs.Sorted

/-! The orders of types and of constraint keys, and the leaves of a tree of alternatives as a set. -/
namespace TypeAlgebra

instance : Std.TransOrd Ty where
  eq_swap := by
    intro a b
    exact Std.OrientedOrd.eq_swap (a := a.index) (b := b.index)
  isLE_trans := by
    intro a b c
    exact Std.TransOrd.isLE_trans (a := a.index) (b := b.index) (c := c.index)

instance : Std.LawfulEqOrd Ty where
  compare_self := by
    intro a
    exact Std.ReflOrd.compare_self (a := a.index)
  eq_of_compare := by
    intro a b h
    exact congrArg Ty.mk (Std.LawfulEqOrd.eq_of_compare (a := a.index) (b := b.index) h)

namespace Constraint

instance : Std.TransOrd Key where
  eq_swap := by
    intro a b
    cases a <;> cases b
    any_goals rfl
    case predicate.predicate j k => exact Std.OrientedOrd.eq_swap (a := j) (b := k)
    case sizeEq.sizeEq m n => exact Std.OrientedOrd.eq_swap (a := m) (b := n)
    case endsOn.endsOn c d => exact Std.OrientedOrd.eq_swap (a := c) (b := d)
  isLE_trans := by
    intro a b c hab hbc
    cases a <;> cases b <;> cases c
    -- keys of different ranks are in order by their ranks
    any_goals first | rfl | contradiction
    case predicate.predicate.predicate j k l => exact Std.TransOrd.isLE_trans (a := j) (b := k) hab hbc
    case sizeEq.sizeEq.sizeEq l m n => exact Std.TransOrd.isLE_trans (a := l) (b := m) hab hbc
    case endsOn.endsOn.endsOn c d e => exact Std.TransOrd.isLE_trans (a := c) (b := d) hab hbc

instance : Std.LawfulEqOrd Key where
  compare_self := by
    intro a
    cases a
    case predicate k => exact Std.ReflOrd.compare_self (a := k)
    case sizeEq n => exact Std.ReflOrd.compare_self (a := n)
    case endsOn c => exact Std.ReflOrd.compare_self (a := c)
  eq_of_compare := by
    intro a b h
    cases a <;> cases b
    any_goals contradiction
    case predicate.predicate j k =>
      exact congrArg Key.predicate (Std.LawfulEqOrd.eq_of_compare (a := j) h)
    case sizeEq.sizeEq m n => exact congrArg Key.sizeEq (Std.LawfulEqOrd.eq_of_compare (a := m) h)
    case endsOn.endsOn c d => exact congrArg Key.endsOn (Std.LawfulEqOrd.eq_of_compare (a := c) h)

end Constraint

namespace Variants
open Sorted (Ascending)

@[simp] theorem mem_unite {a b : List Ty} {ty : Ty} : ty ∈ unite a b ↔ ty ∈ a ∨ ty ∈ b := by
  unfold unite
  induction a with
  | nil => simp
  | cons first rest ih =>
    have hinsert (l : List Ty) : ty ∈ (Sorted.insert id first l).map id ↔ ty = id first ∨ ty ∈ l.map id :=
      Sorted.mem_keys_insert
    simp only [List.map_id, id_eq] at hinsert
    rw [List.foldr_cons, hinsert, ih, List.mem_cons, or_assoc]

theorem ascending_unite (a : List Ty) {b : List Ty} (h : Ascending id b) : Ascending id (unite a b) := by
  unfold unite
  induction a with
  | nil => exact h
  | cons first rest ih => exact Sorted.ascending_insert first ih

theorem ascending_leaves (v : Variants) : Ascending id v.leaves := by
  induction v with
  | leaf ty => simp [leaves, Ascending]
  | node ty left right _ ihr => exact ascending_unite _ ihr

theorem exists_mem_leaves (v : Variants) : ∃ leaf, leaf ∈ v.leaves := by
  induction v with
  | leaf ty => exact ⟨ty, List.mem_singleton_self ty⟩
  | node ty left right ihl _ =>
    obtain ⟨leaf, hleaf⟩ := ihl
    exact ⟨leaf, mem_unite.mpr (.inl hleaf)⟩

end Variants
end TypeAlgebra
