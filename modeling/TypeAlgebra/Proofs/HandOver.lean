import TypeAlgebra.HandOver
import TypeAlgebra.Proofs.Construction.Matching

/-! Asking the policy where a failure arises and asking it at the end come to the same: what goes on with a value that
was handed over only does so where it is no failure, since a side of a sum is entered only if it accepts the text. -/
namespace TypeAlgebra.Session

variable {s : Session} {text : String} {value : Value}

theorem handOver_ok (policy : Policy) (value : Value) : policy.handOver (.ok value) = .ok value := by
  cases policy <;> rfl

/-- A text that a type has is read as it is, whatever the policy. -/
theorem readAtOnce_of_readAny? {v : Variants} (h : s.registry.readAny? text v = some value) :
    s.readAtOnce text v = .ok value := by
  induction v generalizing value with
  | leaf ty =>
    rw [Registry.readAny?] at h
    cases Registry.denotes_of_readLeaf? h with
    | str form | int form => simp only [readAtOnce, form, h]
  | node ty left right ihl ihr =>
    rw [readAtOnce, ← s.registry.isSome_readAny?, ← s.registry.isSome_readAny?]
    rw [Registry.readAny?] at h
    cases hleft : s.registry.readAny? text left with
    | some inner =>
      rw [hleft] at h
      cases h
      rw [Option.isSome_some, if_pos rfl, ihl hleft]
      rfl
    | none =>
      rw [hleft] at h
      obtain ⟨inner, hright, rfl⟩ := Option.map_eq_some_iff.mp h
      rw [hright, Option.isSome_none, Option.isSome_some, if_neg Bool.false_ne_true, if_pos rfl, ihr hright]
      rfl

/-- Where neither side accepts the text, it is the type itself that refuses it. -/
theorem readAtOnce_of_refused {ty : Ty} (h : s.registry.read? ty text = none) :
    s.readAtOnce text (s.registry.variants ty) = s.report (s.registry.refusal ty text) := by
  have haccepts : s.registry.acceptsAny text (s.registry.variants ty) = false := by
    rw [← s.registry.isSome_readAny?, ← Registry.read?, h]
    rfl
  rw [Registry.read?] at h
  unfold Registry.refusal
  unfold Registry.variants at h haccepts ⊢
  cases hget : s.registry.get ty with
  | sum name left right =>
    simp only [hget, Registry.acceptsAny, Bool.or_eq_false_iff] at haccepts
    simp [readAtOnce, haccepts]
  | primitive base constraints =>
    simp only [hget, Registry.readAny?] at h
    simp only [readAtOnce, hget, h]
  | product | function | failure => simp only [readAtOnce, hget]

theorem makeAtOnce_of_read? {ty : Ty} (h : s.registry.read? ty text = some value) :
    s.makeAtOnce ty (.text text) = .ok value := readAtOnce_of_readAny? h

theorem makeAtOnce_text (s : Session) (ty : Ty) (text : String) :
    s.makeAtOnce ty (.text text) = s.make ty (.text text) := by
  cases hread : s.registry.read? ty text with
  | some value => rw [makeAtOnce_of_read? hread, (make_of_read? hread).1]
  | none => rw [make_of_refused hread, makeAtOnce, readAtOnce_of_refused hread]

/-- Filling the fields one after the other comes to what filling them all does. -/
theorem fillAtOnce_eq (s : Session) (ty : Ty) (given : List (String × Source)) (filled : List (String × Value))
    (declared : List (String × Ty)) : s.fillAtOnce ty given filled declared =
      s.policy.handOver ((s.registry.recordFields given declared).map fun rest => .record ty (filled ++ rest)) := by
  induction declared generalizing filled with
  | nil =>
    rw [fillAtOnce, Registry.recordFields, Except.map, List.append_nil, handOver_ok]
  | cons field rest ih =>
    obtain ⟨name, slot⟩ := field
    rw [fillAtOnce, Registry.recordFields]
    cases hgiven : given.lookup name with
    | none => rfl
    | some source =>
      cases source with
      | text text => rfl
      | fields inner => rfl
      | value value =>
        dsimp only [Registry.fieldValue]
        cases hview : s.registry.view slot value with
        | none => rfl
        | some viewed =>
          dsimp only
          rw [ih]
          cases s.registry.recordFields given rest with
          | error failure => rfl
          | ok others => simp [Except.map]

theorem makeAtOnce_eq (s : Session) (ty : Ty) (source : Source) : s.makeAtOnce ty source = s.make ty source := by
  cases source with
  | value value =>
    rw [makeAtOnce, make, Registry.make]
    cases s.registry.view ty value with
    | none => rfl
    | some viewed => exact (handOver_ok _ _).symm
  | text text => exact makeAtOnce_text s ty text
  | fields given =>
    rw [makeAtOnce, make, Registry.make]
    cases s.registry.get ty with
    | product name declared => exact fillAtOnce_eq s ty given [] declared
    | primitive | sum | function | failure => rfl

theorem recordAtOnce_eq (s : Session) (ty : Ty) (fields : List (String × Value)) :
    s.recordAtOnce ty fields = s.record ty fields := makeAtOnce_eq s ty _

theorem fieldAtOnce_eq (s : Session) (value : Value) (attr : String) :
    s.fieldAtOnce value attr = s.field value attr := by
  rw [fieldAtOnce, field, Registry.field]
  cases value.field? attr with
  | none => rfl
  | some found => exact (handOver_ok _ _).symm

theorem operateOnInts_eq (s : Session) (op : Operator) (x y : Int) :
    s.operateOnInts op x y = s.policy.handOver ((op.onInts x y).map (.int .int)) := by
  have hfits (n : Int) (failure : Failure) :
      (if Integer.InRange n then .ok (.int .int n) else s.report failure) =
        s.policy.handOver ((if Integer.InRange n then Except.ok n else .error failure).map (.int .int)) := by
    split_ifs
    · exact (handOver_ok _ _).symm
    · rfl
  unfold operateOnInts Operator.onInts
  dsimp only
  by_cases hzero : op = .divide ∧ y = 0
  · rw [if_pos hzero, if_pos hzero]
    rfl
  · rw [if_neg hzero, if_neg hzero]
    exact hfits _ _

theorem operateAtOnce_eq (s : Session) (op : Operator) (a b : Value) :
    s.operateAtOnce op a b = s.operate op a b := by
  unfold operateAtOnce operate Registry.operate
  cases a.failure?.or b.failure? with
  | some failure => rfl
  | none =>
    dsimp only
    generalize a.leaf = left
    generalize b.leaf = right
    cases left with
    | int _ x =>
      cases right with
      | int _ y => exact operateOnInts_eq s op x y
      | str | record | injection | closure | failure => cases op <;> rfl
    | str _ x =>
      cases right with
      | str _ y =>
        cases op with
        | add => exact (handOver_ok _ _).symm
        | subtract | multiply | divide => rfl
      | int | record | injection | closure | failure => cases op <;> rfl
    | record | injection | closure | failure => cases op <;> rfl

end TypeAlgebra.Session
