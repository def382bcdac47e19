import TypeAlgebra.Progress
import TypeAlgebra.Proofs.Registry.Permanence
import TypeAlgebra.Session

/-! Whether a type accepts a text, and whether a value of the type is made of it, is one decision. It falls at the first
leaf from the left that has the text. So no failure gets into a sum, and where a slot has accepted its text the value
is made. -/
namespace TypeAlgebra

/-- The leaves from the left to the right, each as often as it is there. -/
def Variants.inOrder : Variants → List Ty
  | .leaf ty => [ty]
  | .node _ left right => left.inOrder ++ right.inOrder

namespace Registry

/-- The leaves of a type from the left to the right. -/
def inOrder (r : Registry) (ty : Ty) : List Ty := (r.variants ty).inOrder

/-- Why no value of the type is made of a text. -/
def refusal (r : Registry) (ty : Ty) (text : String) : Failure :=
  match r.get ty with
  | .primitive .. | .sum .. => .typeMismatch (r.name ty) (Text.quoted text)
  | .product .. => .invalidArgument "a field map" "text"
  | .function .. | .failure => .invalidArgument s!"text for <{r.name ty}>" "text"

variable {r : Registry} {ty : Ty} {text : String} {value : Value} {v : Variants}

theorem Denotes.leaf_eq {leaf : Ty} (h : r.Denotes text leaf value) : value.leaf = value := by
  cases h <;> rfl

theorem acceptsAny_eq_any (r : Registry) (text : String) (v : Variants) :
    r.acceptsAny text v = v.inOrder.any (r.acceptsLeaf · text) := by
  induction v with
  | leaf ty => simp [acceptsAny, Variants.inOrder]
  | node ty left right ihl ihr => simp [acceptsAny, Variants.inOrder, ihl, ihr]

/-- A text is read by the first leaf from the left that accepts it. -/
theorem readAny?_first (h : r.readAny? text v = some value) :
    ∃ leaf, v.inOrder.find? (r.acceptsLeaf · text) = some leaf ∧ r.Denotes text leaf value.leaf := by
  induction v generalizing value with
  | leaf ty =>
    have hread : r.readLeaf? ty text = some value := h
    have haccepts : r.acceptsLeaf ty text := by rw [← isSome_readLeaf?, hread]; rfl
    have hdenotes := denotes_of_readLeaf? hread
    refine ⟨ty, by simp [Variants.inOrder, haccepts], ?_⟩
    rwa [hdenotes.leaf_eq]
  | node ty left right ihl ihr =>
    rw [Variants.inOrder, List.find?_append]
    rcases Option.or_eq_some_iff.mp h with h | ⟨hnone, h⟩
    · obtain ⟨inner, hinner, rfl⟩ := Option.map_eq_some_iff.mp h
      obtain ⟨leaf, hfirst, hdenotes⟩ := ihl hinner
      exact ⟨leaf, by rw [hfirst, Option.some_or], hdenotes⟩
    · obtain ⟨inner, hinner, rfl⟩ := Option.map_eq_some_iff.mp h
      obtain ⟨leaf, hfirst, hdenotes⟩ := ihr hinner
      -- what the left side does not read, none of its leaves accepts
      have hleft : left.inOrder.find? (r.acceptsLeaf · text) = none := by
        have hany := r.isSome_readAny? text left
        rw [Option.map_eq_none_iff.mp hnone, acceptsAny_eq_any] at hany
        rw [List.find?_eq_none, ← List.any_eq_false]
        exact hany.symm
      exact ⟨leaf, by rw [hleft, Option.none_or, hfirst], hdenotes⟩

theorem isFailure_of_readAny? (h : r.readAny? text v = some value) : value.isFailure = false := by
  cases v with
  | leaf ty => cases denotes_of_readLeaf? h <;> rfl
  | node ty left right =>
    rcases Option.or_eq_some_iff.mp h with h | ⟨-, h⟩ <;>
      obtain ⟨inner, -, rfl⟩ := Option.map_eq_some_iff.mp h <;> rfl

/-- Of a text the value is made that it is read as, or it is refused. -/
theorem make_text_eq (r : Registry) (ty : Ty) (text : String) :
    r.make ty (.text text) =
      match r.read? ty text with
      | some value => .ok value
      | none => .error (r.refusal ty text) := by
  cases hread : r.read? ty text with
  | some value => exact r.make_text hread
  | none =>
    unfold make refusal
    cases r.get ty <;> simp only [hread]

section Sum

variable {name : String} {left right : Variants}

theorem inOrder_of_single (h : ∀ name left right, r.get ty ≠ .sum name left right) : r.inOrder ty = [ty] := by
  unfold inOrder variants
  split
  · rename_i heq
    exact absurd heq (h _ _ _)
  · rfl

theorem Coherent.inOrder_of_sum (h : r.Coherent) (hsum : r.get ty = .sum name left right) :
    r.inOrder ty = r.inOrder left.ty ++ r.inOrder right.ty := by
  obtain ⟨hleft, hright⟩ := h.sides hsum
  rw [inOrder, inOrder, inOrder, variants_of_sum hsum, hleft, hright]
  rfl

theorem Coherent.accepts_of_sum (h : r.Coherent) (hsum : r.get ty = .sum name left right) (text : String) :
    r.accepts ty text = (r.accepts left.ty text || r.accepts right.ty text) := by
  obtain ⟨hleft, hright⟩ := h.sides hsum
  rw [accepts, accepts, accepts, variants_of_sum hsum, hleft, hright]
  rfl

theorem Coherent.read?_of_sum (h : r.Coherent) (hsum : r.get ty = .sum name left right) (text : String) :
    r.read? ty text =
      ((r.read? left.ty text).map (.injection ty .inl)).or ((r.read? right.ty text).map (.injection ty .inr)) := by
  obtain ⟨hleft, hright⟩ := h.sides hsum
  rw [read?, read?, read?, variants_of_sum hsum, hleft, hright]
  rfl

/-- The leaves of a tree in the registry have no alternatives. -/
theorem Coherent.variants_of_mem_inOrder (h : r.Coherent) (hv : r.variants v.ty = v) {leaf : Ty}
    (hleaf : leaf ∈ v.inOrder) : r.variants leaf = .leaf leaf := by
  induction v with
  | leaf ty =>
    obtain rfl := List.mem_singleton.mp hleaf
    exact hv
  | node ty left right ihl ihr =>
    obtain ⟨-, name, hsum⟩ := get_of_variants hv
    obtain ⟨hleft, hright⟩ := h.sides hsum
    rcases List.mem_append.mp hleaf with hleaf | hleaf
    · exact ihl hleft hleaf
    · exact ihr hright hleaf

end Sum

theorem Coherent.read?_first (h : r.Coherent) (hread : r.read? ty text = some value) :
    ∃ leaf, (r.inOrder ty).find? (r.accepts · text) = some leaf ∧ r.Denotes text leaf value.leaf := by
  obtain ⟨leaf, hfirst, hdenotes⟩ := readAny?_first hread
  have hsame : ∀ own ∈ r.inOrder ty, r.accepts own text = r.acceptsLeaf own text := by
    intro own hown
    rw [accepts, h.variants_of_mem_inOrder (by rw [ty_variants]) hown]
    rfl
  refine ⟨leaf, ?_, hdenotes⟩
  rw [← hfirst, ← List.head?_filter, ← List.head?_filter, List.filter_congr hsame]
  rfl

theorem accepts_iff_read? : r.accepts ty text ↔ ∃ value, r.read? ty text = some value := by
  rw [← isSome_read?, Option.isSome_iff_exists]

theorem read?_of_not_accepts (h : r.accepts ty text = false) : r.read? ty text = none := by
  rwa [← isSome_read?, Option.isSome_eq_false_iff, Option.isNone_iff_eq_none] at h

end Registry

/-- How a session makes values of texts. -/
structure MakesTexts (s : Session) : Prop where
  /-- A value is made where the type accepts the text, and nowhere else. -/
  iff : ∀ ty text, (∃ value, s.make ty (.text text) = .ok value ∧ value.isFailure = false) ↔
    s.registry.accepts ty text
  /-- It is of the type, and is what the text is to the first leaf from the left that accepts the text. -/
  made : ∀ {ty text value}, s.make ty (.text text) = .ok value → value.isFailure = false → value.ty = ty ∧
    ∃ leaf, (s.registry.inOrder ty).find? (s.registry.accepts · text) = some leaf ∧
      s.registry.Denotes text leaf value.leaf
  /-- The leaves of a sum are those of its left side, and behind them those of its right side. -/
  leaves : ∀ {ty name left right}, s.registry.get ty = .sum name left right →
    s.registry.inOrder ty = s.registry.inOrder left.ty ++ s.registry.inOrder right.ty
  leaf : ∀ {ty}, (∀ name left right, s.registry.get ty ≠ .sum name left right) → s.registry.inOrder ty = [ty]
  refused : ∀ {ty text}, s.registry.accepts ty text = false →
    s.make ty (.text text) = s.report (s.registry.refusal ty text)
  /-- A sum accepts what one of its sides accepts. -/
  accepts : ∀ {ty name left right} text, s.registry.get ty = .sum name left right →
    s.registry.accepts ty text = (s.registry.accepts left.ty text || s.registry.accepts right.ty text)
  /-- The value of a sum is made by its left side if that accepts the text, and never fails there. -/
  left : ∀ {ty name left right text}, s.registry.get ty = .sum name left right →
    s.registry.accepts left.ty text → ∃ inner, s.make left.ty (.text text) = .ok inner ∧ inner.isFailure = false ∧
      s.make ty (.text text) = .ok (.injection ty .inl inner)
  right : ∀ {ty name left right text}, s.registry.get ty = .sum name left right →
    s.registry.accepts left.ty text = false → s.registry.accepts right.ty text →
      ∃ inner, s.make right.ty (.text text) = .ok inner ∧ inner.isFailure = false ∧
        s.make ty (.text text) = .ok (.injection ty .inr inner)
  /-- Where a slot has accepted its text, and would not accept it with the next character, the value is made. -/
  slot : ∀ {p : Progress} {name ty rest} (c : Char) (next : Option Char), p.todo = .slot name ty :: rest →
    s.registry.accepts ty (p.candidate.push c) →
    (next.any fun d => s.registry.accepts ty ((p.candidate.push c).push d)) = false →
      ∃ value, s.make ty (.text (p.candidate.push c)) = .ok value ∧ value.isFailure = false ∧
        p.step s.registry c next = (p.commit name value).advance

namespace Session

variable {s : Session} {ty : Ty} {text : String} {value : Value}

theorem make_of_read? (h : s.registry.read? ty text = some value) :
    s.make ty (.text text) = .ok value ∧ value.isFailure = false := by
  refine ⟨?_, Registry.isFailure_of_readAny? h⟩
  rw [make, s.registry.make_text h]
  cases s.policy <;> rfl

theorem make_of_refused (h : s.registry.read? ty text = none) :
    s.make ty (.text text) = s.report (s.registry.refusal ty text) := by
  rw [make, Registry.make_text_eq, h, report]

/-- What a session makes of a text, if it is no failure, is what the text is read as. -/
theorem make_text_iff : s.make ty (.text text) = .ok value ∧ value.isFailure = false ↔
    s.registry.read? ty text = some value := by
  constructor
  · rintro ⟨hmake, hvalue⟩
    cases hread : s.registry.read? ty text with
    | some read =>
      rw [(make_of_read? hread).1] at hmake
      cases hmake
      rfl
    | none =>
      rw [make_of_refused hread] at hmake
      rw [isFailure_of_report hmake] at hvalue
      contradiction
  · exact make_of_read?

/-- Under either policy a value is made of a text if the type accepts the text, and else the text is refused. -/
theorem makesTexts (h : s.registry.Reachable) : MakesTexts s where
  iff ty text := by
    simp only [make_text_iff]
    exact Registry.accepts_iff_read?.symm
  made hmake hvalue := by
    have hread := make_text_iff.mp ⟨hmake, hvalue⟩
    exact ⟨s.registry.ty_read? hread, h.coherent.read?_first hread⟩
  leaves hsum := h.coherent.inOrder_of_sum hsum
  leaf := Registry.inOrder_of_single
  accepts text hsum := h.coherent.accepts_of_sum hsum text
  refused haccepts := make_of_refused (Registry.read?_of_not_accepts haccepts)
  left := by
    intro ty name left right text hsum haccepts
    obtain ⟨inner, hinner⟩ := s.registry.read?_of_accepts haccepts
    have hread : s.registry.read? ty text = some (.injection ty .inl inner) := by
      rw [h.coherent.read?_of_sum hsum, hinner]
      rfl
    obtain ⟨hmade, hsound⟩ := make_of_read? hinner
    exact ⟨inner, hmade, hsound, (make_of_read? hread).1⟩
  right := by
    intro ty name left right text hsum hleft haccepts
    obtain ⟨inner, hinner⟩ := s.registry.read?_of_accepts haccepts
    have hread : s.registry.read? ty text = some (.injection ty .inr inner) := by
      rw [h.coherent.read?_of_sum hsum, Registry.read?_of_not_accepts hleft, hinner]
      rfl
    obtain ⟨hmade, hsound⟩ := make_of_read? hinner
    exact ⟨inner, hmade, hsound, (make_of_read? hread).1⟩
  slot := by
    intro p name ty rest c next htodo haccepts hnext
    obtain ⟨value, hvalue⟩ := s.registry.read?_of_accepts haccepts
    obtain ⟨hmade, hsound⟩ := make_of_read? hvalue
    refine ⟨value, hmade, hsound, ?_⟩
    unfold Progress.step
    rw [htodo]
    simp only [hnext, hvalue]
    rfl

/-- The greatest number is one for a sum of numbers and texts, and the next above it is a text. -/
theorem makesTexts_int_or_str :
    let s : Session := { Session.start .pass '$' with registry := (Registry.initial.union .int .str).2 }
    s.make ⟨3⟩ (.text "9223372036854775807") = .ok (.injection ⟨3⟩ .inl (.int .int 9223372036854775807)) ∧
      s.make ⟨3⟩ (.text "9223372036854775808") = .ok (.injection ⟨3⟩ .inr (.str .str "9223372036854775808")) := by
  intro s
  have hmakes : MakesTexts s := makesTexts (.single (.union (by decide) (by decide)))
  have hsum : s.registry.get ⟨3⟩ = .sum "int | str" (.leaf .int) (.leaf .str) := rfl
  have hnumber : s.registry.accepts .int "9223372036854775807" := by decide +kernel
  have hnoNumber : s.registry.accepts .int "9223372036854775808" = false := by decide +kernel
  have htext : s.registry.accepts .str "9223372036854775808" := by decide +kernel
  constructor
  · obtain ⟨inner, hinner, -, hmade⟩ := hmakes.left hsum hnumber
    cases hinner
    exact hmade
  · obtain ⟨inner, hinner, -, hmade⟩ := hmakes.right hsum hnoNumber htext
    cases hinner
    exact hmade

end Session
end TypeAlgebra
