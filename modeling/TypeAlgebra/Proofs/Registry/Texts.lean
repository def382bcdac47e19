import TypeAlgebra.Proofs.Construction.Sound
import TypeAlgebra.Proofs.Registry.Union

/-! Which texts a type accepts. Types are found by the keys of their constraints, and constraints that were given
later may stand for others with the same key. Where keys tell predicates apart, a refinement nevertheless accepts
what the type accepts and its own constraints hold of, and a union accepts what one of the two types accepts. -/
namespace TypeAlgebra

namespace Constraint

/-- Constraints with the same key hold of the same texts. -/
def Agree (c d : Constraint) : Prop := c.key = d.key → ∀ text, c.holds text = d.holds text

/-- Only predicates can be told apart by anything but their keys. -/
theorem agree_of_predicates {c d : Constraint}
    (h : ∀ p q, c = .predicate p → d = .predicate q → p.key = q.key → p.test = q.test) : c.Agree d := by
  intro hkey text
  cases c with
  | predicate p =>
    cases d with
    | predicate q =>
      have htest : p.test = q.test := h p q rfl rfl (Key.predicate.inj hkey)
      simp only [holds, htest]
    | sizeEq | endsOn => contradiction
  | sizeEq size =>
    cases d with
    | sizeEq size' => rw [Key.sizeEq.inj hkey]
    | predicate | endsOn => contradiction
  | endsOn terminator =>
    cases d with
    | endsOn terminator' => rw [Key.endsOn.inj hkey]
    | predicate | sizeEq => contradiction

/-- Constraints hold if others do that have all their keys and agree with them. -/
theorem all_holds_of_keys {l l' : List Constraint} (hkeys : ∀ key ∈ l.map (·.key), key ∈ l'.map (·.key))
    (hagree : ∀ c ∈ l, ∀ d ∈ l', c.Agree d) {text : String} (h : ∀ d ∈ l', d.holds text) :
    ∀ c ∈ l, c.holds text := by
  intro c hc
  obtain ⟨d, hd, hkey⟩ := List.mem_map.mp (hkeys c.key (List.mem_map_of_mem hc))
  rw [hagree c hc d hd hkey.symm]
  exact h d hd

/-- The constraints that come with the library. -/
inductive BuiltIn : Constraint → Prop
  | equals (text : String) : BuiltIn (.predicate (.equals text))
  | contains (text : String) : BuiltIn (.predicate (.contains text))
  | sizeEq (size : Nat) : BuiltIn (.sizeEq size)
  | endsOn (terminator : Char) : BuiltIn (.endsOn terminator)

theorem append_inj {start s t : String} (h : start ++ s = start ++ t) : s = t := by
  have hchars := congrArg String.toList h
  rw [String.toList_append, String.toList_append] at hchars
  exact String.toList_inj.mp (List.append_cancel_left hchars)

theorem key_equals_ne_contains (s t : String) : (Predicate.equals s).key ≠ (Predicate.contains t).key := by
  intro h
  have hchars : ("equals=" ++ s).toList = ("contains=" ++ t).toList := congrArg String.toList h
  rw [String.toList_append, String.toList_append] at hchars
  have hfirst := congrArg List.head? hchars
  simp at hfirst

/-- The key of a built-in constraint tells all of it. -/
theorem BuiltIn.eq_of_key {c d : Constraint} (hc : c.BuiltIn) (hd : d.BuiltIn) (h : c.key = d.key) : c = d := by
  cases hc with
  | equals s =>
    cases hd with
    | equals t =>
      obtain rfl : s = t := append_inj (Key.predicate.inj h)
      rfl
    | contains t => exact absurd (Key.predicate.inj h) (key_equals_ne_contains s t)
    | sizeEq | endsOn => contradiction
  | contains s =>
    cases hd with
    | equals t => exact absurd (Key.predicate.inj h).symm (key_equals_ne_contains t s)
    | contains t =>
      obtain rfl : s = t := append_inj (Key.predicate.inj h)
      rfl
    | sizeEq | endsOn => contradiction
  | sizeEq size =>
    cases hd with
    | sizeEq size' => rw [Key.sizeEq.inj h]
    | equals | contains | endsOn => contradiction
  | endsOn terminator =>
    cases hd with
    | endsOn terminator' => rw [Key.endsOn.inj h]
    | equals | contains | sizeEq => contradiction

end Constraint

namespace Refinement

variable {refinement : Refinement} {text : String}

/-- The text meets all that the refinement asks for. -/
structure Admits (refinement : Refinement) (text : String) : Prop where
  predicate : ∀ {p}, refinement.predicate = some p → p.test text
  size : ∀ {n}, refinement.sizeEq = some n → text.length = n
  terminator : ∀ {c}, refinement.endsOn = some c → c ∉ text.toList

theorem mem_constraints {c : Constraint} : c ∈ refinement.constraints ↔
    (∃ p, refinement.predicate = some p ∧ c = .predicate p) ∨
      (∃ n, refinement.sizeEq = some n ∧ c = .sizeEq n) ∨ ∃ e, refinement.endsOn = some e ∧ c = .endsOn e := by
  simp only [constraints, List.mem_append, Option.mem_toList, Option.map_eq_some_iff, or_assoc, eq_comm]

theorem admits_iff : refinement.Admits text ↔ ∀ c ∈ refinement.constraints, c.holds text := by
  constructor
  · intro h c hc
    rcases mem_constraints.mp hc with ⟨p, hp, rfl⟩ | ⟨n, hn, rfl⟩ | ⟨e, he, rfl⟩
    · exact h.predicate hp
    · simpa [Constraint.holds] using h.size hn
    · simpa [Constraint.holds] using h.terminator he
  · intro h
    refine ⟨fun {p} hp => ?_, fun {n} hn => ?_, fun {e} he => ?_⟩
    · exact h (.predicate p) (mem_constraints.mpr (.inl ⟨p, hp, rfl⟩))
    · simpa [Constraint.holds] using h (.sizeEq n) (mem_constraints.mpr (.inr (.inl ⟨n, hn, rfl⟩)))
    · simpa [Constraint.holds] using h (.endsOn e) (mem_constraints.mpr (.inr (.inr ⟨e, he, rfl⟩)))

end Refinement

namespace Registry

variable {r r' : Registry} {ty made : Ty} {base : Primitive} {constraints : List Constraint} {text : String}
  {refinement : Refinement}

/-- The predicate narrows a type of the registry. -/
def Uses (r : Registry) (p : Predicate) : Prop := ∃ ty, .predicate p ∈ (r.get ty).constraints

/-- Predicates with the same key have the same test, those of the registry and that of the refinement. -/
def KeysTell (r : Registry) (refinement : Refinement) : Prop :=
  ∀ p q, r.Uses p ∨ refinement.predicate = some p → r.Uses q ∨ refinement.predicate = some q →
    p.key = q.key → p.test = q.test

/-- How types accept texts. -/
structure TextLaws (r : Registry) : Prop where
  /-- A refinement accepts what the type accepts and all its own constraints hold of. -/
  refine : ∀ {ty base constraints refinement}, r.get ty = .primitive base constraints → r.KeysTell refinement →
    ∃ made r', r.refine ty refinement = .ok (made, r') ∧
      ∀ text, r'.accepts made text ↔ r.accepts ty text ∧ refinement.Admits text
  union : ∀ {a b}, r.Has a → r.Has b →
    ∀ text, (r.union a b).2.accepts (r.union a b).1 text ↔ r.accepts a text ∨ r.accepts b text
  lasting : ∀ {ty r'}, r.Has ty → r.Leads r' → ∀ text, r'.accepts ty text ↔ r.accepts ty text
  /-- The keys of the constraints that come with the library tell them apart. -/
  builtIn : ∀ {c d : Constraint}, c.BuiltIn → d.BuiltIn → c.key = d.key → ∀ text, c.holds text = d.holds text
  keysTell : ∀ {refinement}, (∀ p, r.Uses p ∨ refinement.predicate = some p → (Constraint.predicate p).BuiltIn) →
    r.KeysTell refinement

theorem KeysTell.agree (h : r.KeysTell refinement) {c d : Constraint}
    (hc : (∃ ty, c ∈ (r.get ty).constraints) ∨ c ∈ refinement.constraints)
    (hd : (∃ ty, d ∈ (r.get ty).constraints) ∨ d ∈ refinement.constraints) : c.Agree d := by
  have hpredicate (p : Predicate)
      (hp : (∃ ty, .predicate p ∈ (r.get ty).constraints) ∨ .predicate p ∈ refinement.constraints) :
      r.Uses p ∨ refinement.predicate = some p := by
    refine hp.imp_right fun hmem => ?_
    simpa using Refinement.mem_constraints.mp hmem
  refine Constraint.agree_of_predicates ?_
  rintro p q rfl rfl
  exact h p q (hpredicate p hc) (hpredicate q hd)

/-- The constraints under which a primitive type is found have the keys asked for. Some may have been registered
before under these. -/
theorem Coherent.get_intern (h : r.Coherent) {merged : List Constraint}
    (hintern : r.intern (.primitive base merged) = (made, r')) :
    ∃ stored, r'.get made = .primitive base stored ∧ stored.map (·.key) = merged.map (·.key) ∧
      ∀ c ∈ stored, (∃ ty, c ∈ (r.get ty).constraints) ∨ c ∈ merged := by
  unfold Registry.intern Registry.internAs at hintern
  split at hintern
  · rename_i ty hfind
    cases hintern
    have hkey := (h.found.mp hfind).2
    cases hget : r.get made with
    | primitive base' stored =>
      rw [hget] at hkey
      obtain ⟨rfl, hkeys⟩ := Form.Key.refined.inj hkey
      exact ⟨stored, rfl, hkeys, fun c hc => .inl ⟨made, by rwa [hget]⟩⟩
    | sum | product | function | failure => rw [hget] at hkey; contradiction
  · cases hintern
    refine ⟨merged, ?_, rfl, fun c hc => .inr hc⟩
    rw [get_grow rfl, if_pos rfl]

/-- A refinement by some constraints is found by the keys of all of them. -/
theorem refine_of_ne_nil (hget : r.get ty = .primitive base constraints) (hne : refinement.constraints ≠ []) :
    r.refine ty refinement = .ok (r.intern (.primitive base
      (refinement.constraints.foldl (fun all c => Sorted.insert (·.key) c all) constraints))) := by
  unfold refine
  split
  · rename_i hnil
    exact absurd hnil hne
  · simp only [hget]

theorem Coherent.accepts_refine (h : r.Coherent) (hget : r.get ty = .primitive base constraints)
    (hkeys : r.KeysTell refinement) : ∃ made r', r.refine ty refinement = .ok (made, r') ∧
      ∀ text, r'.accepts made text ↔ r.accepts ty text ∧ refinement.Admits text := by
  by_cases hnil : refinement.constraints = []
  · refine ⟨ty, r, by unfold Registry.refine; rw [hnil], fun text => ?_⟩
    rw [Refinement.admits_iff, hnil]
    simp
  have hrefine := refine_of_ne_nil hget hnil
  obtain ⟨made, r', hintern⟩ : ∃ made r', r.intern (.primitive base
      (refinement.constraints.foldl (fun all c => Sorted.insert (·.key) c all) constraints)) = (made, r') :=
    ⟨_, _, rfl⟩
  obtain ⟨stored, hstored, hsame, hfrom⟩ := h.get_intern hintern
  refine ⟨made, r', by rw [hrefine, hintern], fun text => ?_⟩
  have hkey (key : Constraint.Key) :
      key ∈ stored.map (·.key) ↔ key ∈ (constraints ++ refinement.constraints).map (·.key) := by
    rw [hsame, Sorted.mem_keys_foldl]
  have hgiven (d : Constraint) (hd : d ∈ constraints ++ refinement.constraints) :
      (∃ ty, d ∈ (r.get ty).constraints) ∨ d ∈ refinement.constraints :=
    (List.mem_append.mp hd).imp_left fun hmem => ⟨ty, by rw [hget]; exact hmem⟩
  have hknown (c : Constraint) (hc : c ∈ stored) :
      (∃ ty, c ∈ (r.get ty).constraints) ∨ c ∈ refinement.constraints :=
    (hfrom c hc).elim .inl fun hmem => hgiven c (List.mem_append.mpr (Sorted.mem_of_mem_foldl _ hmem))
  -- What is stored has the same keys as the constraints of the type and of the refinement together.
  have hholds : (∀ c ∈ stored, c.holds text) ↔ ∀ d ∈ constraints ++ refinement.constraints, d.holds text := by
    constructor
    · exact Constraint.all_holds_of_keys (fun key hmem => (hkey key).mpr hmem)
        fun d hd c hc => hkeys.agree (hgiven d hd) (hknown c hc)
    · exact Constraint.all_holds_of_keys (fun key hmem => (hkey key).mp hmem)
        fun c hc d hd => hkeys.agree (hknown c hc) (hgiven d hd)
  rw [accepts_primitive hstored, accepts_primitive hget, Refinement.admits_iff, Bool.and_eq_true, Bool.and_eq_true,
    List.all_eq_true, List.all_eq_true, hholds, List.forall_mem_append, and_assoc]

/-- A type accepts what one of its leaves accepts. -/
theorem accepts_iff_leaf : r.accepts ty text ↔ ∃ leaf ∈ r.leaves ty, r.acceptsLeaf leaf text := by
  rw [accepts, acceptsAny_iff, leaves_variants]

theorem Coherent.accepts_union (h : r.Coherent) {a b : Ty} (hasLeft : r.Has a) (hasRight : r.Has b)
    (text : String) : (r.union a b).2.accepts (r.union a b).1 text ↔ r.accepts a text ∨ r.accepts b text := by
  have hext := (leads_union hasLeft hasRight).extends
  have hsame (leaf : Ty) (hleaf : leaf ∈ r.leaves a ∨ leaf ∈ r.leaves b) :
      (r.union a b).2.acceptsLeaf leaf text = r.acceptsLeaf leaf text := by
    have has : r.Has leaf := hleaf.elim (h.has_leaf hasLeft) (h.has_leaf hasRight)
    rw [acceptsLeaf, acceptsLeaf, hext.get has]
  simp only [accepts_iff_leaf, (h.leaves_union hasLeft hasRight).2]
  constructor
  · rintro ⟨leaf, hleaf, haccepts⟩
    rw [hsame leaf hleaf] at haccepts
    exact hleaf.imp (fun hmem => ⟨leaf, hmem, haccepts⟩) fun hmem => ⟨leaf, hmem, haccepts⟩
  · rintro (⟨leaf, hleaf, haccepts⟩ | ⟨leaf, hleaf, haccepts⟩)
    · exact ⟨leaf, .inl hleaf, by rwa [hsame leaf (.inl hleaf)]⟩
    · exact ⟨leaf, .inr hleaf, by rwa [hsame leaf (.inr hleaf)]⟩

theorem keysTell_of_builtIn (h : ∀ p, r.Uses p ∨ refinement.predicate = some p → (Constraint.predicate p).BuiltIn) :
    r.KeysTell refinement := by
  intro p q hp hq hkey
  have heq := (h p hp).eq_of_key (h q hq) (congrArg Constraint.Key.predicate hkey)
  rw [Constraint.predicate.inj heq]

theorem Reachable.textLaws (h : r.Reachable) : r.TextLaws where
  refine hget hkeys := h.coherent.accepts_refine hget hkeys
  union hasLeft hasRight := h.coherent.accepts_union hasLeft hasRight
  lasting has hleads text := by rw [hleads.extends.accepts h.coherent has]
  builtIn hc hd hkey text := by rw [hc.eq_of_key hd hkey]
  keysTell := keysTell_of_builtIn

/-- Two characters, one of them an `a`. -/
def pairWithA : Refinement := { predicate := some (.contains "a"), sizeEq := some 2 }

/-- The refinement of texts accepts what is such a pair, and nothing else. -/
theorem textLaws_pairWithA : initial.Reachable ∧ ∃ made r', initial.refine .str pairWithA = .ok (made, r') ∧
    r'.accepts made "ab" ∧ ¬r'.accepts made "bc" ∧ ¬r'.accepts made "a" := by
  have laws := Reachable.textLaws (r := initial) .refl
  have hkeys : initial.KeysTell pairWithA := by
    refine laws.keysTell ?_
    rintro p (⟨ty, hmem⟩ | hp)
    · rcases get_initial ty with hget | hget | hget <;> rw [hget] at hmem <;> contradiction
    · cases hp
      exact .contains "a"
  have hget : initial.get .str = .primitive .str [] := rfl
  obtain ⟨made, r', hrefine, haccepts⟩ := laws.refine hget hkeys
  refine ⟨.refl, made, r', hrefine, ?_, ?_, ?_⟩
  · exact (haccepts "ab").mpr ⟨by decide, Refinement.admits_iff.mpr (by decide)⟩
  · rw [haccepts, Refinement.admits_iff]
    decide
  · rw [haccepts, Refinement.admits_iff]
    decide

end Registry

end TypeAlgebra
