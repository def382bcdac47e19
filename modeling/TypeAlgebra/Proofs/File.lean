import Mathlib.Tactic.Common
import TypeAlgebra.File

/-! The lines of a file that is text. A line feed is a byte of its own, and no byte of any other character, so the
lines are those of the text. -/
namespace TypeAlgebra.File

/-- Splits a text after each line feed. -/
def textLines : List Char → List (List Char)
  | [] => []
  | c :: rest =>
    if c = '\n' then [c] :: textLines rest
    else match textLines rest with
      | [] => [[c]]
      | line :: others => (c :: line) :: others

/-- The lines of a text, with their ends. -/
def linesOf (text : String) : List String := (textLines text.toList).map .ofList

/-- All lines end in a line feed and have no other, but that the last one may have none. -/
inductive Lined : List (List Char) → Prop
  | nil : Lined []
  | last {line : List Char} (nonempty : line ≠ []) (h : '\n' ∉ line) : Lined [line]
  | cons {line : List Char} {rest : List (List Char)} (h : '\n' ∉ line) (hrest : Lined rest) :
    Lined ((line ++ ['\n']) :: rest)

theorem lined_textLines (text : List Char) : Lined (textLines text) := by
  induction text with
  | nil => exact .nil
  | cons c rest ih =>
    unfold textLines
    split
    · rename_i hc
      subst hc
      exact .cons List.not_mem_nil ih
    · rename_i hc
      have hline {line : List Char} (h : '\n' ∉ line) : '\n' ∉ c :: line := by
        simpa [Ne.symm hc] using h
      generalize textLines rest = lines at ih
      cases ih with
      | nil => exact .last (by simp) (hline List.not_mem_nil)
      | last nonempty h => exact .last (by simp) (hline h)
      | cons h hrest => exact .cons (hline h) hrest

theorem not_mem_utf8EncodeChar {c : Char} (hc : c ≠ '\n') : 10 ∉ String.utf8EncodeChar c := by
  have hval : c.toNat ≠ 10 := fun h => hc (Char.ext (UInt32.toNat_inj.mp h))
  have hnat : c.val.toNat = c.toNat := rfl
  unfold String.utf8EncodeChar
  dsimp only
  rw [hnat]
  split_ifs <;> simp [← UInt8.toNat_inj] <;> omega

theorem splitLines_append {front rest : List UInt8} (hfront : 10 ∉ front) (hne : front ≠ []) :
    splitLines (front ++ rest) = match splitLines rest with
      | [] => [front]
      | line :: others => (front ++ line) :: others := by
  induction front with
  | nil => contradiction
  | cons b front ih =>
    simp only [List.mem_cons, not_or] at hfront
    rw [List.cons_append, splitLines, if_neg (Ne.symm hfront.1)]
    by_cases hnil : front = []
    · subst hnil
      rfl
    · rw [ih hfront.2 hnil]
      cases splitLines rest <;> rfl

/-- The bytes of a text are split where the text is. -/
theorem splitLines_flatMap (text : List Char) : splitLines (text.flatMap String.utf8EncodeChar) =
    (textLines text).map fun line => line.flatMap String.utf8EncodeChar := by
  induction text with
  | nil => rfl
  | cons c rest ih =>
    rw [List.flatMap_cons]
    by_cases hc : c = '\n'
    · subst hc
      have hbytes : String.utf8EncodeChar '\n' = [10] := rfl
      rw [hbytes, List.singleton_append, splitLines, if_pos rfl, ih, textLines, if_pos rfl]
      rfl
    · have hne : String.utf8EncodeChar c ≠ [] := by
        rw [← List.length_pos_iff, String.length_utf8EncodeChar]
        exact c.utf8Size_pos
      rw [splitLines_append (not_mem_utf8EncodeChar hc) hne, ih, textLines, if_neg hc]
      cases textLines rest <;> simp

theorem toList_loop (bytes : ByteArray) (i : Nat) (seen : List UInt8) :
    ByteArray.toList.loop bytes i seen = seen.reverse ++ bytes.data.toList.drop i := by
  fun_induction ByteArray.toList.loop bytes i seen with
  | case1 i seen hi ih =>
    have hi' : i < bytes.data.toList.length := hi
    have hget : bytes.get! i = bytes.data.toList[i] := getElem!_pos bytes.data i hi
    rw [ih, hget, List.reverse_cons, List.append_assoc, List.singleton_append, ← List.drop_eq_getElem_cons hi']
  | case2 i seen hi =>
    have hdrop : bytes.data.toList.drop i = [] := List.drop_eq_nil_of_le (Nat.le_of_not_lt hi)
    rw [hdrop, List.append_nil]

theorem toList_toUTF8 (text : String) : text.toUTF8.toList = text.toList.flatMap String.utf8EncodeChar := by
  have hdata : text.toUTF8.data.toList = text.toList.flatMap String.utf8EncodeChar := by
    conv_lhs => rw [← String.ofList_toList (s := text), String.toUTF8_eq_toByteArray, String.toByteArray_ofList]
    exact List.toList_data_toByteArray
  rw [ByteArray.toList, toList_loop, hdata]
  rfl

theorem fromUTF8?_toUTF8 (text : String) : String.fromUTF8? text.toUTF8 = some text := by
  simp only [String.fromUTF8?, String.toUTF8_eq_toByteArray, dif_pos text.isValidUTF8]
  rfl

/-- The lines of a file are those of the text in it. -/
theorem lines_toUTF8 (text : String) : lines (.ok text.toUTF8) = (linesOf text).map .ok := by
  have hline (line : List Char) : ByteArray.mk (line.flatMap String.utf8EncodeChar).toArray =
      (String.ofList line).toUTF8 := by
    rw [String.toUTF8_eq_toByteArray, String.toByteArray_ofList]
    exact ByteArray.ext (Array.toList_inj.mp List.toList_data_toByteArray.symm)
  unfold lines linesOf
  dsimp only
  rw [toList_toUTF8, splitLines_flatMap, List.map_map, List.map_map]
  refine List.map_congr_left fun line _ => ?_
  simp only [Function.comp_apply, hline, fromUTF8?_toUTF8]

end TypeAlgebra.File
