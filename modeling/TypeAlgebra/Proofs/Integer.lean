import Mathlib.Tactic.Common
import TypeAlgebra.Integer

/-! Which texts are numbers, and what a number does not go on with. A front of a number with a digit in it is a
number too, since leaving digits off its end takes no number out of range. The text of a number is read as the
number again. -/
namespace TypeAlgebra.Integer

theorem ofDigits?_eq_some {digits : List Char} {n : Nat} : ofDigits? digits = some n ↔
    digits ≠ [] ∧ digits.all Char.isDigit ∧ Nat.ofDigitChars 10 digits 0 = n := by
  unfold ofDigits?
  split
  · rename_i h
    simp [h]
  · rename_i h
    simp only [reduceCtorEq, false_iff]
    rintro ⟨hne, hall, -⟩
    exact h ⟨hne, hall⟩

theorem ofDigits?_front {front back : List Char} {n : Nat} (h : ofDigits? (front ++ back) = some n)
    (hfront : front ≠ []) : ∃ m, ofDigits? front = some m ∧ m ≤ n := by
  obtain ⟨-, hall, rfl⟩ := ofDigits?_eq_some.mp h
  rw [List.all_append, Bool.and_eq_true] at hall
  refine ⟨_, ofDigits?_eq_some.mpr ⟨hfront, hall.1, rfl⟩, ?_⟩
  rw [Nat.ofDigitChars_append, Nat.ofDigitChars_eq_ofDigitChars_zero (l := back)]
  have hpow : 1 * Nat.ofDigitChars 10 front 0 ≤ 10 ^ back.length * Nat.ofDigitChars 10 front 0 :=
    Nat.mul_le_mul_right _ (Nat.one_le_pow _ _ (by decide))
  omega

/-- The first of the digits is not taken for a sign. -/
theorem ofChars?_of_digits {digits : List Char} {n : Nat} (hn : ofDigits? digits = some n)
    (hrange : InRange n) : ofChars? digits = some n := by
  obtain ⟨-, hall, -⟩ := ofDigits?_eq_some.mp hn
  have hsign : ∀ c ∈ digits, c ≠ '-' ∧ c ≠ '+' := by
    intro c hc
    have hdigit := List.all_eq_true.mp hall c hc
    constructor <;> rintro rfl <;> contradiction
  unfold ofChars?
  split
  · exact absurd rfl (hsign '-' List.mem_cons_self).1
  · exact absurd rfl (hsign '+' List.mem_cons_self).2
  · simp [hn, hrange]

/-- A number is digits behind a sign, which may be left out. -/
theorem isSome_ofChars? {chars : List Char} : (ofChars? chars).isSome ↔
    ∃ sign digits n, chars = sign ++ digits ∧ ofDigits? digits = some n ∧
      (sign = ['-'] ∧ InRange (-n) ∨ (sign = ['+'] ∨ sign = []) ∧ InRange n) := by
  rw [Option.isSome_iff_exists]
  constructor
  · rintro ⟨k, hk⟩
    unfold ofChars? at hk
    obtain ⟨hnumber, hrange⟩ := Option.filter_eq_some_iff.mp hk
    rw [decide_eq_true_eq] at hrange
    split at hnumber
    · rename_i digits
      obtain ⟨n, hn, rfl⟩ := Option.map_eq_some_iff.mp hnumber
      exact ⟨['-'], digits, n, rfl, hn, .inl ⟨rfl, hrange⟩⟩
    · rename_i digits
      obtain ⟨n, hn, rfl⟩ := Option.map_eq_some_iff.mp hnumber
      exact ⟨['+'], digits, n, rfl, hn, .inr ⟨.inl rfl, hrange⟩⟩
    · obtain ⟨n, hn, rfl⟩ := Option.map_eq_some_iff.mp hnumber
      exact ⟨[], chars, n, rfl, hn, .inr ⟨.inr rfl, hrange⟩⟩
  · rintro ⟨sign, digits, n, rfl, hn, ⟨rfl, hrange⟩ | ⟨rfl | rfl, hrange⟩⟩
    · exact ⟨-n, by simp [ofChars?, hn, hrange]⟩
    · exact ⟨n, by simp [ofChars?, hn, hrange]⟩
    · exact ⟨n, ofChars?_of_digits hn hrange⟩

/-- What a number goes on with, it stays a number with. -/
theorem isSome_ofChars?_front {c d : Char} {front back : List Char}
    (h : (ofChars? (c :: front ++ d :: back)).isSome) : (ofChars? (c :: front ++ [d])).isSome := by
  obtain ⟨sign, digits, n, heq, hn, hsign⟩ := isSome_ofChars?.mp h
  have hshort : ∃ digits', digits' ≠ [] ∧ digits = digits' ++ back ∧ c :: front ++ [d] = sign ++ digits' := by
    rcases hsign with ⟨rfl, -⟩ | ⟨rfl | rfl, -⟩
    · exact ⟨front ++ [d], by simp, by simpa using (List.cons.inj heq).2.symm,
        by rw [(List.cons.inj heq).1]; rfl⟩
    · exact ⟨front ++ [d], by simp, by simpa using (List.cons.inj heq).2.symm,
        by rw [(List.cons.inj heq).1]; rfl⟩
    · exact ⟨c :: front ++ [d], by simp, by simpa using heq.symm, rfl⟩
  obtain ⟨digits', hne, rfl, hchars⟩ := hshort
  obtain ⟨m, hm, hle⟩ := ofDigits?_front hn hne
  refine isSome_ofChars?.mpr ⟨sign, digits', m, hchars, hm, ?_⟩
  unfold InRange at hsign ⊢
  rcases hsign with ⟨rfl, hrange⟩ | ⟨hsign, hrange⟩
  · exact .inl ⟨rfl, by omega, by omega⟩
  · exact .inr ⟨hsign, by omega, by omega⟩

/-- A number ends with a digit. -/
theorem isDigit_of_isSome_ofChars? {c : Char} {chars : List Char} (h : (ofChars? (chars ++ [c])).isSome) :
    c.isDigit := by
  obtain ⟨sign, digits, n, heq, hn, -⟩ := isSome_ofChars?.mp h
  obtain ⟨hne, hall, -⟩ := ofDigits?_eq_some.mp hn
  obtain ⟨front, last, rfl⟩ := (List.eq_nil_or_concat digits).resolve_left hne
  rw [List.concat_eq_append, ← List.append_assoc] at heq
  have hlast : c = last := by simpa using (List.append_inj' heq rfl).2
  rw [List.all_eq_true] at hall
  exact hall c (by simp [hlast])

theorem ofDigits?_toDigits (n : Nat) : ofDigits? (Nat.toDigits 10 n) = some n := by
  refine ofDigits?_eq_some.mpr ⟨Nat.toDigits_ne_nil, ?_, Nat.ofDigitChars_ten_toDigits⟩
  rw [List.all_eq_true]
  intro c hc
  exact Nat.isDigit_of_mem_toDigits (by decide) (by decide) hc

/-- The text of a number is read as the number. -/
theorem ofText?_text {n : Int} (h : InRange n) : ofText? (text n) = some n := by
  have hdigits (m : Nat) : m.repr.toList = Nat.toDigits 10 m := by
    rw [Nat.repr_eq_ofList_toDigits, String.toList_ofList]
  rw [ofText?_eq, text, Int.repr_eq_if]
  split
  · obtain ⟨m, rfl⟩ := Int.eq_ofNat_of_zero_le ‹0 ≤ n›
    rw [Int.toNat_natCast, hdigits]
    exact ofChars?_of_digits (ofDigits?_toDigits m) h
  · obtain ⟨m, rfl⟩ : ∃ m : Nat, n = -m := ⟨(-n).toNat, by omega⟩
    rw [Int.neg_neg, Int.toNat_natCast, String.toList_append, hdigits]
    simp [ofChars?, ofDigits?_toDigits, h]

end TypeAlgebra.Integer
