/-! Integers of 64 bits with a sign, and their decimal text. -/
namespace TypeAlgebra.Integer

/-- From the least to the greatest number of 64 bits. -/
def InRange (n : Int) : Prop := -9223372036854775808 ≤ n ∧ n ≤ 9223372036854775807

instance (n : Int) : Decidable (InRange n) := inferInstanceAs (Decidable (_ ∧ _))

/-- The number written by decimal digits, at least one. -/
def ofDigits? (digits : List Char) : Option Nat :=
  if digits ≠ [] ∧ digits.all Char.isDigit then some (Nat.ofDigitChars 10 digits 0) else none

/-- Reads an optional sign and digits; any number of leading zeros may stand in front. -/
def ofChars? (chars : List Char) : Option Int :=
  let number := match chars with
    | '-' :: digits => (ofDigits? digits).map fun (n : Nat) => -(n : Int)
    | '+' :: digits => (ofDigits? digits).map Int.ofNat
    | digits => (ofDigits? digits).map Int.ofNat
  number.filter fun n => InRange n

/-- Whether a number may start with the character. -/
def starts (c : Char) : Bool := c.isDigit || c = '-' || c = '+'

/-- Reads a text as a number. Of most texts that are none, the first character tells already. -/
def ofText? (text : String) : Option Int :=
  if text.startsWith starts then ofChars? text.toList else none

theorem ofText?_eq (text : String) : ofText? text = ofChars? text.toList := by
  unfold ofText?
  rw [String.startsWith_bool_eq_head?]
  cases text.toList with
  | nil => rfl
  | cons c rest =>
    by_cases h : starts c
    · simp [h]
    · simp only [starts, Bool.or_eq_true, decide_eq_true_eq, not_or] at h
      obtain ⟨⟨hdigit, hminus⟩, hplus⟩ := h
      have hd : ofDigits? (c :: rest) = none := by simp [ofDigits?, hdigit]
      have hc : ofChars? (c :: rest) = none := by
        unfold ofChars?
        split
        · rename_i heq; exact absurd (List.cons.inj heq).1 hminus
        · rename_i heq; exact absurd (List.cons.inj heq).1 hplus
        · rw [hd]; rfl
      rw [hc, ite_self]

def text (n : Int) : String := n.repr

end TypeAlgebra.Integer
