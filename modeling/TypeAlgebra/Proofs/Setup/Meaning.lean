import Mathlib.Logic.Relation
import TypeAlgebra.Proofs.Registry.Refinement
import TypeAlgebra.Setup

/-! What declarations mean, apart from how and in which order their types are built: the texts that a name
stands for, the primitive type it narrows if it narrows one, and which declarations can be built at all. -/
namespace TypeAlgebra

theorem Predicate.occurs_iff {part whole : List Char} : occurs part whole ↔ part <:+: whole := by
  induction whole with
  | nil => simp [occurs]
  | cons c rest ih => simp [occurs, ih, List.infix_cons_iff]

namespace Declaration

variable {d : Declaration} {text : String}

/-- The names that the declaration refers to. -/
def references (d : Declaration) : List String := d.base.toList ++ d.union.getD []

/-- A base that may be narrowed, or a union of two types or more that is not. -/
inductive Formed (d : Declaration) : Prop
  | base {name : String} (base : d.base = some name) (union : d.union = none) : Formed d
  | union {members : List String} (base : d.base = none) (union : d.union = some members)
      (several : 2 ≤ members.length) (plain : d.narrows = false) : Formed d

/-- The text meets all that the declaration asks of the texts of its base. -/
structure Admits (d : Declaration) (text : String) : Prop where
  size : ∀ {n}, d.sizeEq = some n → text.length = n
  terminator : ∀ {c}, d.endsOn = some c → c ∉ text.toList
  equals : ∀ {whole}, d.equals = some whole → text = whole
  contains : ∀ {part}, d.contains = some part → part.toList <:+: text.toList

/-- The refinements ask for what the declaration does. -/
theorem admits_iff : d.Admits text ↔ ∀ refinement ∈ d.refinements, refinement.Admits text := by
  simp only [refinements, List.forall_mem_cons, List.not_mem_nil, false_imp_iff, implies_true, and_true]
  constructor
  · rintro ⟨size, terminator, equals, contains⟩
    refine ⟨⟨?_, size, terminator⟩, ⟨?_, nofun, nofun⟩⟩
    · intro p hp
      obtain ⟨whole, hwhole, rfl⟩ := Option.map_eq_some_iff.mp hp
      simpa [Predicate.equals] using equals hwhole
    · intro p hp
      obtain ⟨part, hpart, rfl⟩ := Option.map_eq_some_iff.mp hp
      exact Predicate.occurs_iff.mpr (contains hpart)
  · rintro ⟨⟨predicate, size, terminator⟩, ⟨contains, -, -⟩⟩
    refine ⟨size, terminator, ?_, ?_⟩
    · intro whole hwhole
      simpa [Predicate.equals] using predicate (Option.map_eq_some_iff.mpr ⟨whole, hwhole, rfl⟩)
    · intro part hpart
      exact Predicate.occurs_iff.mp (contains (Option.map_eq_some_iff.mpr ⟨part, hpart, rfl⟩))

/-- A declaration narrows its base where one of its refinements has a constraint. -/
theorem narrows_iff : d.narrows ↔ ∃ refinement ∈ d.refinements, refinement.constraints ≠ [] := by
  simp only [narrows, refinements, Refinement.constraints]
  cases d.sizeEq <;> cases d.endsOn <;> cases d.equals <;> cases d.contains <;> simp

theorem builtIn_refinements : ∀ refinement ∈ d.refinements, ∀ c ∈ refinement.constraints, c.BuiltIn := by
  intro refinement hrefinement c hc
  simp only [refinements, List.mem_cons, List.not_mem_nil, or_false] at hrefinement
  rcases Refinement.mem_constraints.mp hc with ⟨p, hp, rfl⟩ | ⟨n, -, rfl⟩ | ⟨e, -, rfl⟩
  · rcases hrefinement with rfl | rfl
    · obtain ⟨whole, -, rfl⟩ := Option.map_eq_some_iff.mp hp
      exact .equals whole
    · obtain ⟨part, -, rfl⟩ := Option.map_eq_some_iff.mp hp
      exact .contains part
  · exact .sizeEq n
  · exact .endsOn e

end Declaration

abbrev Declarations := List (String × Declaration)

namespace Declarations

variable {types : Declarations} {name reference : String}

/-- The one name is declared by the other. -/
def Refers (types : Declarations) (name reference : String) : Prop :=
  ∃ d, types.lookup name = some d ∧ reference ∈ d.references

/-- The text is one of those that the declarations give the name. -/
inductive Accepts (types : Declarations) (text : String) : String → Prop
  | builtIn {name : String} {ty : Ty} (bound : Registry.initial.lookup name = some ty)
      (h : Registry.initial.accepts ty text) : Accepts types text name
  | narrowed {name base : String} {d : Declaration} (declared : types.lookup name = some d)
      (hbase : d.base = some base) (h : Accepts types text base) (admits : d.Admits text) :
      Accepts types text name
  | member {name member : String} {members : List String} {d : Declaration}
      (declared : types.lookup name = some d) (union : d.union = some members) (mem : member ∈ members)
      (h : Accepts types text member) : Accepts types text name

/-- The name stands for the primitive type under constraints with these keys. A union does where all its members
stand for this one type. -/
inductive Narrows (types : Declarations) : String → Primitive → Set Constraint.Key → Prop
  | builtIn {name : String} {ty : Ty} {base : Primitive} {keys : Set Constraint.Key}
      (bound : Registry.initial.lookup name = some ty) (h : Registry.initial.Narrows ty base keys) :
      Narrows types name base keys
  | narrowed {name reference : String} {d : Declaration} {base : Primitive} {keys : Set Constraint.Key}
      (declared : types.lookup name = some d) (hbase : d.base = some reference)
      (h : Narrows types reference base keys) :
      Narrows types name base (keys ∪ Refinement.allKeys d.refinements)
  | union {name : String} {members : List String} {d : Declaration} {base : Primitive}
      {keys : Set Constraint.Key} (declared : types.lookup name = some d) (union : d.union = some members)
      (nonempty : members ≠ []) (h : ∀ member ∈ members, Narrows types member base keys) :
      Narrows types name base keys

/-- No name is declared that is built in. -/
def Fresh (types : Declarations) : Prop :=
  ∀ {name d}, types.lookup name = some d → Registry.initial.lookup name = none

/-- What makes types of declarations. -/
structure Buildable (types : Declarations) : Prop where
  fresh : types.Fresh
  known : ∀ {name reference}, types.Refers name reference →
    (Registry.initial.lookup reference).isSome ∨ (types.lookup reference).isSome
  acyclic : ∀ name, ¬ Relation.TransGen types.Refers name name
  formed : ∀ {name d}, types.lookup name = some d → d.Formed
  /-- Only what stands for a primitive type is narrowed. -/
  primitive : ∀ {name d}, types.lookup name = some d → d.narrows →
    ∃ reference base keys, d.base = some reference ∧ types.Narrows reference base keys

/-- The name is built in, or soundly declared by names of which the same holds. -/
inductive Grounded (types : Declarations) : String → Prop
  | builtIn {name : String} {ty : Ty} (bound : Registry.initial.lookup name = some ty) : Grounded types name
  | declared {name : String} {d : Declaration} (declared : types.lookup name = some d) (formed : d.Formed)
      (primitive : d.narrows → ∃ reference base keys, d.base = some reference ∧ types.Narrows reference base keys)
      (h : ∀ reference ∈ d.references, Grounded types reference) : Grounded types name

theorem Fresh.not_declared (h : types.Fresh) {ty : Ty} (bound : Registry.initial.lookup name = some ty)
    {d : Declaration} (declared : types.lookup name = some d) : False := by
  rw [h declared] at bound
  contradiction

/-- The texts of a declared name are those of its base that meet its constraints, or those of its members. -/
theorem Fresh.accepts_iff (h : types.Fresh) {d : Declaration} (declared : types.lookup name = some d)
    {text : String} : types.Accepts text name ↔
      (∃ base, d.base = some base ∧ types.Accepts text base ∧ d.Admits text) ∨
        ∃ members, d.union = some members ∧ ∃ member ∈ members, types.Accepts text member := by
  constructor
  · intro haccepts
    cases haccepts with
    | builtIn bound => exact (h.not_declared bound declared).elim
    | narrowed declared' hbase haccepts admits =>
      obtain rfl := Option.some.inj (declared.symm.trans declared')
      exact .inl ⟨_, hbase, haccepts, admits⟩
    | member declared' union mem haccepts =>
      obtain rfl := Option.some.inj (declared.symm.trans declared')
      exact .inr ⟨_, union, _, mem, haccepts⟩
  · rintro (⟨base, hbase, haccepts, admits⟩ | ⟨members, union, member, mem, haccepts⟩)
    · exact .narrowed declared hbase haccepts admits
    · exact .member declared union mem haccepts

theorem Fresh.narrows_iff (h : types.Fresh) {d : Declaration} (declared : types.lookup name = some d)
    {base : Primitive} {keys : Set Constraint.Key} : types.Narrows name base keys ↔
      (∃ reference others, d.base = some reference ∧ types.Narrows reference base others ∧
        others ∪ Refinement.allKeys d.refinements = keys) ∨
      ∃ members, d.union = some members ∧ members ≠ [] ∧ ∀ member ∈ members, types.Narrows member base keys := by
  constructor
  · intro hnarrows
    cases hnarrows with
    | builtIn bound => exact (h.not_declared bound declared).elim
    | narrowed declared' hbase hnarrows =>
      obtain rfl := Option.some.inj (declared.symm.trans declared')
      exact .inl ⟨_, _, hbase, hnarrows, rfl⟩
    | union declared' union nonempty hnarrows =>
      obtain rfl := Option.some.inj (declared.symm.trans declared')
      exact .inr ⟨_, union, nonempty, hnarrows⟩
  · rintro (⟨reference, others, hbase, hnarrows, rfl⟩ | ⟨members, union, nonempty, hnarrows⟩)
    · exact .narrowed declared hbase hnarrows
    · exact .union declared union nonempty hnarrows

theorem Grounded.acyclic (h : types.Fresh) (hname : types.Grounded name) :
    ¬ Relation.TransGen types.Refers name name := by
  induction hname with
  | builtIn bound =>
    intro hcycle
    obtain ⟨reference, ⟨d, declared, -⟩, -⟩ := Relation.TransGen.head'_iff.mp hcycle
    exact h.not_declared bound declared
  | @declared name d declared formed primitive _ ih =>
    intro hcycle
    obtain ⟨reference, hrefers, hback⟩ := Relation.TransGen.head'_iff.mp hcycle
    obtain ⟨d', declared', hmem⟩ := hrefers
    rw [declared] at declared'
    cases declared'
    -- what the name refers to lies on the same circle
    exact ih reference hmem (Relation.TransGen.tail' hback ⟨d, declared, hmem⟩)

/-- Declarations can be built if each of them is grounded. -/
theorem buildable_of_grounded (h : types.Fresh)
    (hgrounded : ∀ {name d}, types.lookup name = some d → types.Grounded name) : types.Buildable := by
  have inversion {name d} (declared : types.lookup name = some d) : d.Formed ∧
      (d.narrows → ∃ reference base keys, d.base = some reference ∧ types.Narrows reference base keys) ∧
      ∀ reference ∈ d.references, types.Grounded reference := by
    cases hgrounded declared with
    | builtIn bound => exact (h.not_declared bound declared).elim
    | declared declared' formed primitive hreferences =>
      rw [declared] at declared'
      cases declared'
      exact ⟨formed, primitive, hreferences⟩
  refine ⟨h, ?_, ?_, fun declared => (inversion declared).1, fun declared => (inversion declared).2.1⟩
  · rintro name reference ⟨d, declared, hmem⟩
    cases (inversion declared).2.2 reference hmem with
    | builtIn bound => exact .inl (by simp [bound])
    | declared declared' => exact .inr (by simp [declared'])
  · intro name hcycle
    obtain ⟨reference, ⟨d, declared, -⟩, -⟩ := Relation.TransGen.head'_iff.mp hcycle
    exact (hgrounded declared).acyclic h hcycle

end Declarations
end TypeAlgebra
