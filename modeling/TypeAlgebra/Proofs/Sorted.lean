import Mathlib.Tactic.Common
import TypeAlgebra.Sorted

/-! Lists in ascending order of their keys. Lists of bindings: what a key is bound to after another binding,
and that each key is bound once. Sets: what is in them after another element, and that two with the same
elements are the same list. -/
namespace TypeAlgebra.Sorted

variable {α β κ : Type} [Ord κ]

def Ascending (key : α → κ) (l : List α) : Prop := (l.map key).Pairwise fun a b => compare a b = .lt

theorem Ascending.nodup [Std.ReflOrd κ] {key : α → κ} {l : List α} (h : Ascending key l) :
    (l.map key).Nodup := by
  refine List.Pairwise.imp ?_ h
  intro a b hab heq
  rw [heq, Std.ReflOrd.compare_self] at hab
  contradiction

@[simp] theorem mem_keys_insert [Std.LawfulEqOrd κ] {key : α → κ} {a : α} {l : List α} {k : κ} :
    k ∈ (insert key a l).map key ↔ k = key a ∨ k ∈ l.map key := by
  induction l with
  | nil => simp [insert]
  | cons b rest ih =>
    unfold insert
    cases hc : compare (key a) (key b) with
    | lt => simp
    | eq =>
      have hab : key a = key b := Std.LawfulEqOrd.eq_of_compare hc
      simp only [hab, List.map_cons, List.mem_cons]
      tauto
    | gt =>
      simp only [List.map_cons, List.mem_cons, ih]
      tauto

theorem ascending_insert [Std.TransOrd κ] [Std.LawfulEqOrd κ] {key : α → κ} (a : α) {l : List α}
    (h : Ascending key l) : Ascending key (insert key a l) := by
  unfold Ascending at h ⊢
  induction l with
  | nil => simp [insert]
  | cons b rest ih =>
    rw [List.map_cons, List.pairwise_cons] at h
    obtain ⟨hhead, htail⟩ := h
    unfold insert
    cases hc : compare (key a) (key b) with
    | lt =>
      simp only [List.map_cons, List.pairwise_cons, List.mem_cons]
      refine ⟨?_, hhead, htail⟩
      rintro k (rfl | hk)
      · exact hc
      · exact Std.TransCmp.lt_trans hc (hhead k hk)
    | eq => exact List.pairwise_cons.mpr ⟨hhead, htail⟩
    | gt =>
      refine List.pairwise_cons.mpr ⟨?_, ih htail⟩
      intro k hk
      rcases mem_keys_insert.mp hk with rfl | hk
      · exact Std.OrientedCmp.lt_of_gt hc
      · exact hhead k hk

theorem ascending_foldl [Std.TransOrd κ] [Std.LawfulEqOrd κ] {key : α → κ} (added : List α) {l : List α}
    (h : Ascending key l) : Ascending key (added.foldl (fun all a => insert key a all) l) := by
  induction added generalizing l with
  | nil => exact h
  | cons a rest ih => exact ih (ascending_insert a h)

theorem mem_of_mem_insert {key : α → κ} {a b : α} {l : List α} (h : b ∈ insert key a l) : b = a ∨ b ∈ l := by
  induction l with
  | nil => exact .inl (List.mem_singleton.mp h)
  | cons first rest ih =>
    unfold insert at h
    split at h
    · exact List.mem_cons.mp h
    · exact .inr h
    · rcases List.mem_cons.mp h with rfl | h
      · exact .inr List.mem_cons_self
      · exact (ih h).imp_right (List.mem_cons_of_mem first)

theorem mem_of_mem_foldl {key : α → κ} {b : α} (added : List α) {l : List α}
    (h : b ∈ added.foldl (fun all a => insert key a all) l) : b ∈ l ∨ b ∈ added := by
  induction added generalizing l with
  | nil => exact .inl h
  | cons a rest ih =>
    rcases ih h with hmem | hmem
    · exact (mem_of_mem_insert hmem).elim (fun heq => .inr (by simp [heq])) .inl
    · exact .inr (List.mem_cons_of_mem a hmem)

theorem mem_keys_foldl [Std.LawfulEqOrd κ] {key : α → κ} {k : κ} (added l : List α) :
    k ∈ (added.foldl (fun all a => insert key a all) l).map key ↔ k ∈ (l ++ added).map key := by
  induction added generalizing l with
  | nil => simp
  | cons a rest ih =>
    rw [List.foldl_cons, ih]
    simp only [List.map_append, List.mem_append, mem_keys_insert, List.map_cons, List.mem_cons]
    tauto

/-- An ascending list that is neither empty nor a single element has two different ones. -/
theorem Ascending.exists_ne [Std.ReflOrd κ] {l : List κ} (h : Ascending id l) {k : κ} (hmem : k ∈ l)
    (hl : ∀ k, l = [k] → False) : ∃ a ∈ l, ∃ b ∈ l, a ≠ b := by
  cases l with
  | nil => contradiction
  | cons a rest =>
    cases rest with
    | nil => exact (hl a rfl).elim
    | cons b rest =>
      have hnodup := h.nodup
      rw [List.map_id, List.nodup_cons] at hnodup
      refine ⟨a, List.mem_cons_self, b, by simp, ?_⟩
      rintro rfl
      exact hnodup.1 List.mem_cons_self

/-- Ascending lists of the same elements are the same. -/
theorem Ascending.ext [Std.OrientedOrd κ] {l l' : List κ} (h : Ascending id l) (h' : Ascending id l')
    (hmem : ∀ k, k ∈ l ↔ k ∈ l') : l = l' := by
  have hperm : l.Perm l' := by
    rw [List.perm_ext_iff_of_nodup (by simpa using h.nodup) (by simpa using h'.nodup)]
    exact hmem
  unfold Ascending at h h'
  rw [List.map_id] at h h'
  refine List.Perm.eq_of_pairwise ?_ h h' hperm
  intro a b _ _ hab hba
  exact absurd hba (Std.OrientedCmp.not_lt_of_lt hab)

theorem mem_put {k : κ} {value : β} {l : List (κ × β)} {binding : κ × β} (h : binding ∈ put k value l) :
    binding = (k, value) ∨ binding ∈ l := by
  induction l with
  | nil => exact .inl (List.mem_singleton.mp h)
  | cons first rest ih =>
    unfold put at h
    split at h
    · exact List.mem_cons.mp h
    · exact (List.mem_cons.mp h).imp_right (List.mem_cons_of_mem first)
    · rcases List.mem_cons.mp h with rfl | h
      · exact .inr List.mem_cons_self
      · exact (ih h).imp_right (List.mem_cons_of_mem _)

theorem mem_keys_put {k j : κ} {value : β} {l : List (κ × β)} (h : j ∈ (put k value l).map (·.1)) :
    j = k ∨ j ∈ l.map (·.1) := by
  obtain ⟨binding, hbinding, rfl⟩ := List.mem_map.mp h
  exact (mem_put hbinding).imp (congrArg Prod.fst) List.mem_map_of_mem

theorem ascending_put [Std.TransOrd κ] [Std.LawfulEqOrd κ] (k : κ) (value : β) {l : List (κ × β)}
    (h : Ascending (·.1) l) : Ascending (·.1) (put k value l) := by
  unfold Ascending at h ⊢
  induction l with
  | nil => simp [put]
  | cons binding rest ih =>
    obtain ⟨i, other⟩ := binding
    rw [List.map_cons, List.pairwise_cons] at h
    obtain ⟨hhead, htail⟩ := h
    unfold put
    cases hc : compare k i with
    | lt =>
      simp only [List.map_cons, List.pairwise_cons, List.mem_cons]
      refine ⟨?_, hhead, htail⟩
      rintro j (rfl | hj)
      · exact hc
      · exact Std.TransCmp.lt_trans hc (hhead j hj)
    | eq =>
      have hki : k = i := Std.LawfulEqOrd.eq_of_compare hc
      subst hki
      exact List.pairwise_cons.mpr ⟨hhead, htail⟩
    | gt =>
      refine List.pairwise_cons.mpr ⟨?_, ih htail⟩
      intro j hj
      rcases mem_keys_put hj with rfl | hj
      · exact Std.OrientedCmp.lt_of_gt hc
      · exact hhead j hj

/-- A key is bound to what it was bound to last. -/
@[simp] theorem lookup_put [BEq κ] [LawfulBEq κ] [Std.LawfulEqOrd κ] (k j : κ) (value : β)
    (l : List (κ × β)) : (put k value l).lookup j = if j == k then some value else l.lookup j := by
  induction l with
  | nil => simp only [put, List.lookup_cons]; cases j == k <;> rfl
  | cons binding rest ih =>
    obtain ⟨i, other⟩ := binding
    unfold put
    cases hc : compare k i with
    | lt => simp only [List.lookup_cons]; cases j == k <;> rfl
    | eq =>
      have hki : k = i := Std.LawfulEqOrd.eq_of_compare hc
      subst hki
      simp only [List.lookup_cons]
      cases j == k <;> rfl
    | gt =>
      have hki : k ≠ i := by
        rintro rfl
        rw [Std.ReflOrd.compare_self] at hc
        contradiction
      simp only [List.lookup_cons, ih]
      by_cases hji : j == i
      · have hjk : (j == k) = false := by
          rw [beq_iff_eq] at hji
          rw [beq_eq_false_iff_ne, hji]
          exact hki.symm
        simp [hji, hjk]
      · simp [hji]

omit [Ord κ] in
/-- Where each key is bound once, a binding is found from either end. -/
theorem lookup_reverse [BEq κ] [LawfulBEq κ] {l : List (κ × β)} (h : (l.map (·.1)).Nodup) (j : κ) :
    l.reverse.lookup j = l.lookup j := by
  induction l with
  | nil => rfl
  | cons binding rest ih =>
    obtain ⟨i, value⟩ := binding
    rw [List.map_cons, List.nodup_cons] at h
    rw [List.reverse_cons, List.lookup_append, ih h.2]
    simp only [List.lookup_cons, List.lookup_nil]
    by_cases hji : j == i
    · have hnone : rest.lookup j = none := by
        rw [beq_iff_eq] at hji
        rw [List.lookup_eq_none_iff]
        intro p hp
        rw [bne_iff_ne, hji]
        intro heq
        have hmem : p.1 ∈ rest.map (·.1) := List.mem_map_of_mem hp
        rw [← heq] at hmem
        exact h.1 hmem
      simp [hji, hnone]
    · simp [hji]

omit [Ord κ] in
theorem lookup_of_mem [BEq κ] [LawfulBEq κ] {l : List (κ × β)} (h : (l.map (·.1)).Nodup) {k : κ} {value : β}
    (hmem : (k, value) ∈ l) : l.lookup k = some value := by
  induction l with
  | nil => contradiction
  | cons binding rest ih =>
    obtain ⟨i, other⟩ := binding
    rw [List.map_cons, List.nodup_cons] at h
    rw [List.lookup_cons]
    rcases List.mem_cons.mp hmem with heq | hmem
    · cases heq
      simp
    · have hkey : k ∈ rest.map (·.1) := List.mem_map_of_mem hmem
      have hki : k ≠ i := by
        rintro rfl
        exact h.1 hkey
      rw [beq_eq_false_iff_ne.mpr hki]
      exact ih h.2 hmem

end TypeAlgebra.Sorted
