import TypeAlgebra.Proofs.Application.Code
import TypeAlgebra.Proofs.Session.Run

/-! What operators make of values. On numbers they are exact: the result is the integer that the operator means, or there
is none of 64 bits. Only the leaves of the operands count, and the policy, not how they are injected, nor what has been
registered since. -/
namespace TypeAlgebra

/-- The exact result of an operator on two integers. A quotient leaves a rest that is smaller than the divisor and on the
side of the dividend, so it is cut toward zero. By zero there is none. -/
inductive Operator.Exact (x y : Int) : Operator → Int → Prop
  | add : Exact x y .add (x + y)
  | subtract : Exact x y .subtract (x - y)
  | multiply : Exact x y .multiply (x * y)
  | divide {quotient rest : Int} (parts : x = quotient * y + rest) (small : rest.natAbs < y.natAbs)
      (side : 0 ≤ x ∧ 0 ≤ rest ∨ x ≤ 0 ∧ rest ≤ 0) : Exact x y .divide quotient

namespace Operator

variable {op : Operator} {x y n : Int}

theorem exact_tdiv (x : Int) {y : Int} (hy : y ≠ 0) : Exact x y .divide (x.tdiv y) := by
  have hsmall : (x.tmod y).natAbs < y.natAbs := by
    rw [Int.natAbs_tmod]
    exact Nat.mod_lt _ (Int.natAbs_pos.mpr hy)
  have hparts : x = x.tdiv y * y + x.tmod y := by
    rw [Int.mul_comm]
    exact (Int.mul_tdiv_add_tmod x y).symm
  refine .divide hparts hsmall ?_
  rcases Int.le_total 0 x with hx | hx
  · exact .inl ⟨hx, Int.tmod_nonneg y hx⟩
  · have hrest := Int.tmod_nonneg y (Int.neg_nonneg_of_nonpos hx)
    rw [Int.neg_tmod] at hrest
    exact .inr ⟨hx, by omega⟩

/-- There is one quotient only. -/
theorem Exact.eq_tdiv (h : Exact x y .divide n) : y ≠ 0 ∧ n = x.tdiv y := by
  cases h with
  | @divide _ rest parts small side =>
    have hy : y ≠ 0 := by
      rintro rfl
      contradiction
    refine ⟨hy, ?_⟩
    rw [Int.add_comm, Int.mul_comm] at parts
    rcases side with ⟨hx, hrest⟩ | ⟨hx, hrest⟩
    · exact ((Int.tdiv_tmod_unique hx hy).mpr ⟨parts.symm, hrest, by omega⟩).1.symm
    · exact ((Int.tdiv_tmod_unique' hx hy).mpr ⟨parts.symm, by omega, hrest⟩).1.symm

/-- Unless zero divides there is an exact result. -/
theorem exact_or_byZero (op : Operator) (x y : Int) : (∃ n, op.Exact x y n) ∨ op = .divide ∧ y = 0 := by
  cases op with
  | add => exact .inl ⟨_, .add⟩
  | subtract => exact .inl ⟨_, .subtract⟩
  | multiply => exact .inl ⟨_, .multiply⟩
  | divide =>
    by_cases hy : y = 0
    · exact .inr ⟨rfl, hy⟩
    · exact .inl ⟨_, exact_tdiv x hy⟩

theorem onInts_of_exact (h : op.Exact x y n) : op.onInts x y =
    if Integer.InRange n then .ok n
    else .error (.invalidArgument "a result that fits in an int" s!"{Integer.text x} {op.symbol} {Integer.text y}") := by
  cases op with
  | add => cases h; rfl
  | subtract => cases h; rfl
  | multiply => cases h; rfl
  | divide =>
    obtain ⟨hy, rfl⟩ := h.eq_tdiv
    unfold onInts
    rw [if_neg fun hzero => hy hzero.2]

theorem onInts_byZero (x : Int) : divide.onInts x 0 = .error (.invalidArgument "a non-zero divisor" "0") := by
  unfold onInts
  rw [if_pos ⟨rfl, rfl⟩]

/-- The order of the operands makes no difference to the result. -/
theorem Exact.comm (h : op.Exact x y n) (hop : op = .add ∨ op = .multiply) : op.Exact y x n := by
  rcases hop with rfl | rfl
  · cases h
    rw [Int.add_comm]
    exact .add
  · cases h
    rw [Int.mul_comm]
    exact .multiply

end Operator

/-- The primitive type whose value this is by its shape. -/
def Value.base? : Value → Option Primitive
  | .int .. => some .int
  | .str .. => some .str
  | _ => none

/-- The primitive type that the type of a value's leaf is built on. -/
def Registry.leafBase? (r : Registry) (value : Value) : Option Primitive := (r.get value.leaf.ty).base?

namespace Value

variable {r : Registry} {value : Value}

theorem failure?_eq_none (h : value.isFailure = false) : value.failure? = none := by
  rwa [isFailure, Option.isSome_eq_false_iff, Option.isNone_iff_eq_none] at h

/-- No failure is injected. -/
theorem Sound.failure?_leaf (h : value.Sound r) : value.leaf.failure? = value.failure? := by
  cases hinjection : value.isInjection with
  | false => rw [leaf_of_single hinjection]
  | true =>
    have hprimitive := h.isPrimitive_leaf hinjection
    rw [failure?_eq_none (isFailure_of_isInjection hinjection)]
    generalize value.leaf = inner at hprimitive
    cases inner with
    | int | str => rfl
    | record | injection | closure | failure => contradiction

/-- The type of a leaf and its shape agree. -/
theorem Sound.leafBase?_eq (h : value.Sound r) : r.leafBase? value = value.leaf.base? := by
  have hsingle := value.isInjection_leaf
  have hfits := h.leaf.fits
  unfold Registry.leafBase?
  generalize value.leaf = inner at hsingle hfits
  cases hfits with
  | int form | str form | record form | closure form => simp [ty, base?, form, Form.base?]
  | inl | inr => contradiction
  | failure has form => simp [ty, base?, form, Form.base?]

theorem eq_int_of_base? (h : value.base? = some .int) : ∃ n, value = .int value.ty n := by
  cases value with
  | int ty n => exact ⟨n, rfl⟩
  | str | record | injection | closure | failure => simp [base?] at h

theorem eq_str_of_base? (h : value.base? = some .str) : ∃ text, value = .str value.ty text := by
  cases value with
  | str ty text => exact ⟨text, rfl⟩
  | int | record | injection | closure | failure => simp [base?] at h

end Value

namespace Registry

variable {r r' : Registry} {op : Operator} {a b : Value}

/-- Operands count by their leaves. -/
theorem operate_leaf (ha : a.Sound r) (hb : b.Sound r) (op : Operator) : r.operate op a.leaf b.leaf = r.operate op a b := by
  unfold operate
  rw [ha.failure?_leaf, hb.failure?_leaf, Value.leaf_of_single a.isInjection_leaf,
    Value.leaf_of_single b.isInjection_leaf]

/-- What an operator may come to. -/
inductive Operated (r : Registry) (a b : Value) : Operator → Except Failure Value → Prop
  | failure {op : Operator} {e : Failure} (h : a.failure?.or b.failure? = some e) : Operated r a b op (.error e)
  | ints {op : Operator} {ty ty' : Ty} {x y : Int} (left : a.leaf = .int ty x) (right : b.leaf = .int ty' y) :
      Operated r a b op ((op.onInts x y).map (.int .int))
  | texts {ty ty' : Ty} {x y : String} (left : a.leaf = .str ty x) (right : b.leaf = .str ty' y) :
      Operated r a b .add (.ok (.str .str (x ++ y)))
  | unsupported {op : Operator} (sound : a.failure?.or b.failure? = none)
      (ints : ¬ (a.leaf.base? = some .int ∧ b.leaf.base? = some .int))
      (texts : ¬ (op = .add ∧ a.leaf.base? = some .str ∧ b.leaf.base? = some .str)) :
      Operated r a b op (.error (.unsupportedOperands op.symbol (r.name a.leaf.ty) (r.name b.leaf.ty)))

theorem operated (r : Registry) (op : Operator) (a b : Value) : r.Operated a b op (r.operate op a b) := by
  unfold operate
  split
  · exact .failure ‹_›
  split
  · exact .ints ‹_› ‹_›
  · exact .texts ‹_› ‹_›
  · rename_i hints htexts
    refine .unsupported ‹_› ?_ ?_
    · rintro ⟨ha, hb⟩
      obtain ⟨x, hx⟩ := Value.eq_int_of_base? ha
      obtain ⟨y, hy⟩ := Value.eq_int_of_base? hb
      exact hints _ _ _ _ hx hy
    · rintro ⟨hop, ha, hb⟩
      obtain ⟨x, hx⟩ := Value.eq_str_of_base? ha
      obtain ⟨y, hy⟩ := Value.eq_str_of_base? hb
      exact htexts _ _ _ _ hop hx hy

/-- What is registered later makes no difference to operands that were there. -/
theorem operate_extends (hext : r.Extends r') (ha : r.Has a.leaf.ty) (hb : r.Has b.leaf.ty) :
    r'.operate op a b = r.operate op a b := by
  have hname {ty : Ty} (has : r.Has ty) : r'.name ty = r.name ty := by rw [name, hext.get has, name]
  unfold operate
  split
  · rfl
  split
  · rfl
  · rfl
  · rw [hname ha, hname hb]

/-- Of the text of a number the number is made. -/
theorem make_ofInt (hr : r.Coherent) {n : Int} (h : Integer.InRange n) : r.make .int (.ofInt n) = .ok (.int .int n) := by
  refine r.make_text ?_
  unfold read? variants
  rw [hr.int]
  simp [readAny?, readLeaf?, hr.int, Integer.ofText?_text h]

end Registry

/-- What an operator makes of two numbers. -/
inductive Operator.Calculated (s : Session) (op : Operator) (x y : Int) : Except Failure Value → Prop
  | exact {n : Int} (exact : op.Exact x y n) (fits : Integer.InRange n) :
      Calculated s op x y (s.make .int (.ofInt n))
  | tooLarge {n : Int} (exact : op.Exact x y n) (misfit : ¬ Integer.InRange n) :
      Calculated s op x y (s.report (.invalidArgument "a result that fits in an int"
        s!"{Integer.text x} {op.symbol} {Integer.text y}"))
  | byZero (divides : op = .divide) (zero : y = 0) :
      Calculated s op x y (s.report (.invalidArgument "a non-zero divisor" "0"))

/-- What an operator makes of two values. -/
structure Operates (s : Session) (op : Operator) (a b : Value) : Prop where
  /-- A failure is reported again, that of the left operand first. -/
  failure : ∀ {e}, a.failure?.or b.failure? = some e → s.operate op a b = s.report e
  ints : s.registry.leafBase? a = some .int → s.registry.leafBase? b = some .int → ∃ x y,
    a.leaf = .int a.leaf.ty x ∧ b.leaf = .int b.leaf.ty y ∧ op.Calculated s x y (s.operate op a b)
  /-- What is made of a number is a value of the type without constraints. -/
  number : ∀ {n}, Integer.InRange n → s.make .int (.ofInt n) = .ok (.int .int n)
  texts : op = .add → s.registry.leafBase? a = some .str → s.registry.leafBase? b = some .str → ∃ x y,
    a.leaf = .str a.leaf.ty x ∧ b.leaf = .str b.leaf.ty y ∧ s.operate op a b = .ok (.str .str (x ++ y))
  unsupported : a.isFailure = false → b.isFailure = false →
    ¬ (s.registry.leafBase? a = some .int ∧ s.registry.leafBase? b = some .int) →
    ¬ (op = .add ∧ s.registry.leafBase? a = some .str ∧ s.registry.leafBase? b = some .str) →
      s.operate op a b = s.report
        (.unsupportedOperands op.symbol (s.registry.name a.leaf.ty) (s.registry.name b.leaf.ty))
  /-- The other way round, sums and products are the same. -/
  comm : op = .add ∨ op = .multiply → s.registry.leafBase? a = some .int → s.registry.leafBase? b = some .int →
    ∀ {value}, value.isFailure = false → (s.operate op a b = .ok value ↔ s.operate op b a = .ok value)

namespace Session

variable {s : Session} {op : Operator} {a b : Value} {ty ty' : Ty} {x y : Int} {t u : String}

/-- Of numbers nothing but the numbers counts. -/
theorem operate_ints (ha : a.leaf = .int ty x) (hb : b.leaf = .int ty' y) :
    s.operate op a b = s.policy.handOver ((op.onInts x y).map (.int .int)) := by
  have hleft : a.failure? = none := Value.failure?_eq_none (Value.isFailure_of_leaf (by rw [ha]; rfl))
  have hright : b.failure? = none := Value.failure?_eq_none (Value.isFailure_of_leaf (by rw [hb]; rfl))
  rw [operate]
  unfold Registry.operate
  rw [hleft, hright, ha, hb]
  rfl

theorem calculated (hs : s.registry.Coherent) (ha : a.leaf = .int ty x) (hb : b.leaf = .int ty' y) :
    op.Calculated s x y (s.operate op a b) := by
  rw [operate_ints ha hb]
  rcases op.exact_or_byZero x y with ⟨n, hexact⟩ | ⟨rfl, rfl⟩
  · rw [Operator.onInts_of_exact hexact]
    split
    · rename_i hfits
      have hmade : s.make .int (.ofInt n) = s.policy.handOver (.ok (.int .int n)) := by
        rw [make, Registry.make_ofInt hs hfits]
      exact hmade ▸ .exact hexact hfits
    · exact .tooLarge hexact ‹_›
  · rw [Operator.onInts_byZero]
    exact .byZero rfl rfl

theorem operate_texts (ha : a.leaf = .str ty t) (hb : b.leaf = .str ty' u) :
    s.operate .add a b = .ok (.str .str (t ++ u)) := by
  have hleft : a.failure? = none := Value.failure?_eq_none (Value.isFailure_of_leaf (by rw [ha]; rfl))
  have hright : b.failure? = none := Value.failure?_eq_none (Value.isFailure_of_leaf (by rw [hb]; rfl))
  rw [operate]
  unfold Registry.operate
  rw [hleft, hright, ha, hb]
  cases s.policy <;> rfl

/-- The other way round a sum or product of numbers is what it is. -/
theorem operate_comm (hop : op = .add ∨ op = .multiply) (ha : a.leaf = .int ty x) (hb : b.leaf = .int ty' y)
    {value : Value} (hvalue : value.isFailure = false) (h : s.operate op a b = .ok value) :
    s.operate op b a = .ok value := by
  rw [operate_ints ha hb] at h
  rw [operate_ints hb ha]
  have hexact : ∃ n, op.Exact x y n := by rcases hop with rfl | rfl <;> exact ⟨_, by constructor⟩
  obtain ⟨n, hexact⟩ := hexact
  rw [Operator.onInts_of_exact hexact] at h
  rw [Operator.onInts_of_exact (hexact.comm hop)]
  split at h
  · rw [if_pos ‹_›]
    exact h
  · rw [isFailure_of_report h] at hvalue
    contradiction

theorem operates (hs : s.registry.Coherent) (ha : a.Sound s.registry) (hb : b.Sound s.registry) (op : Operator) :
    Operates s op a b := by
  have hint {value : Value} (hvalue : value.Sound s.registry) (hbase : s.registry.leafBase? value = some .int) :
      ∃ n, value.leaf = .int value.leaf.ty n := Value.eq_int_of_base? (hvalue.leafBase?_eq ▸ hbase)
  have hstr {value : Value} (hvalue : value.Sound s.registry) (hbase : s.registry.leafBase? value = some .str) :
      ∃ text, value.leaf = .str value.leaf.ty text := Value.eq_str_of_base? (hvalue.leafBase?_eq ▸ hbase)
  constructor
  case failure =>
    intro e he
    rw [operate]
    unfold Registry.operate
    rw [he]
    rfl
  case ints =>
    intro hleft hright
    obtain ⟨x, hx⟩ := hint ha hleft
    obtain ⟨y, hy⟩ := hint hb hright
    exact ⟨x, y, hx, hy, calculated hs hx hy⟩
  case number =>
    intro n hn
    rw [make, Registry.make_ofInt hs hn]
    cases s.policy <;> rfl
  case texts =>
    rintro rfl hleft hright
    obtain ⟨t, ht⟩ := hstr ha hleft
    obtain ⟨u, hu⟩ := hstr hb hright
    exact ⟨t, u, ht, hu, operate_texts ht hu⟩
  case unsupported =>
    intro hleft hright hints htexts
    rw [ha.leafBase?_eq, hb.leafBase?_eq] at hints htexts
    have hoperated := s.registry.operated op a b
    rw [operate]
    generalize s.registry.operate op a b = result at hoperated
    cases hoperated with
    | failure h => simp [Value.failure?_eq_none hleft, Value.failure?_eq_none hright] at h
    | ints left right => exact (hints (by simp [left, right, Value.base?])).elim
    | texts left right => exact (htexts (by simp [left, right, Value.base?])).elim
    | unsupported => rfl
  case comm =>
    intro hop hleft hright value hvalue
    obtain ⟨x, hx⟩ := hint ha hleft
    obtain ⟨y, hy⟩ := hint hb hright
    exact ⟨operate_comm hop hx hy hvalue, operate_comm hop hy hx hvalue⟩

end Session

namespace History

variable {policy : Policy} {marker : Char} {h h' : History} {a b a' b' : Value}

/-- Operands with the same leaves come to the same under the same policy, also later. -/
theorem Run.operate_eq (run : Run (start policy marker) h) (later : Run h h') (ha : h.Known a) (hb : h.Known b)
    (ha' : h'.Known a') (hb' : h'.Known b') (hleft : a'.leaf = a.leaf) (hright : b'.leaf = b.leaf)
    (hpolicy : h'.session.policy = h.session.policy) (op : Operator) :
    h'.session.operate op a' b' = h.session.operate op a b := by
  have hsound := (run.grows (sound_start policy marker)).sound
  have hgrows := later.grows hsound
  have hsa := hsound.known ha
  have hsb := hsound.known hb
  rw [Session.operate, Session.operate, hpolicy]
  congr 1
  calc h'.session.registry.operate op a' b'
      = h'.session.registry.operate op a.leaf b.leaf := by
        rw [← hleft, ← hright, Registry.operate_leaf (hgrows.sound.known ha') (hgrows.sound.known hb')]
    _ = h.session.registry.operate op a.leaf b.leaf := by
        refine Registry.operate_extends hgrows.leads.extends ?_ ?_
        · rw [Value.leaf_of_single a.isInjection_leaf]
          exact hsa.leaf.fits.has
        · rw [Value.leaf_of_single b.isInjection_leaf]
          exact hsb.leaf.fits.has
    _ = h.session.registry.operate op a b := Registry.operate_leaf hsa hsb op

/-- An operator on values is exact, and depends on nothing but their leaves and the policy. -/
theorem Run.operate_laws (run : Run (start policy marker) h) (ha : h.Known a) (hb : h.Known b) (op : Operator) :
    Operates h.session op a b ∧
      ∀ {h' a' b'}, Run h h' → h'.Known a' → h'.Known b' → a'.leaf = a.leaf → b'.leaf = b.leaf →
        h'.session.policy = h.session.policy → h'.session.operate op a' b' = h.session.operate op a b := by
  have hsound := (run.grows (sound_start policy marker)).sound
  refine ⟨Session.operates hsound.coherent (hsound.known ha) (hsound.known hb) op, ?_⟩
  intro h' a' b' later ha' hb' hleft hright hpolicy
  exact run.operate_eq later ha hb ha' hb' hleft hright hpolicy op

/-- The least number there is. -/
def least : Value := .int .int (-9223372036854775808)

def minusOne : Value := .int .int (-1)

/-- Both numbers were made in the sum of numbers and texts. -/
def dividing : History :=
  ⟨⟨(Registry.initial.union .int .str).2, .raise, '$', 0⟩,
    [.injection ⟨3⟩ .inl minusOne, .injection ⟨3⟩ .inl least], []⟩

theorem run_dividing : Run (start .raise '$') dividing := by
  have union : Step (start .raise '$') _ := .union (a := .int) (b := .str) (by decide) (by decide)
  have left := (Run.refl.step union).step (.make ⟨3⟩ (.text "-9223372036854775808") nofun)
  exact left.step (.make ⟨3⟩ (.text "-1") nofun)

/-- The quotient of the least number by -1 does not fit, in the sum or later by themselves. -/
theorem operate_laws_least :
    Operates dividing.session .divide (.injection ⟨3⟩ .inl least) (.injection ⟨3⟩ .inl minusOne) ∧
      dividing.session.operate .divide least minusOne =
        dividing.session.operate .divide (.injection ⟨3⟩ .inl least) (.injection ⟨3⟩ .inl minusOne) ∧
      dividing.session.operate .divide least minusOne =
        .error (.invalidArgument "a result that fits in an int" "-9223372036854775808 / -1") := by
  have knownLeft : dividing.Known (.injection ⟨3⟩ .inl least) :=
    ⟨_, .inl (List.mem_cons_of_mem _ List.mem_cons_self), .refl⟩
  have knownRight : dividing.Known (.injection ⟨3⟩ .inl minusOne) := ⟨_, .inl List.mem_cons_self, .refl⟩
  have later : Run dividing _ := (Run.refl.step (.make .int (.text "-9223372036854775808") nofun)).step
    (.make .int (.text "-1") nofun)
  obtain ⟨holds, lasts⟩ := Run.operate_laws run_dividing knownLeft knownRight .divide
  have heq := @lasts _ least minusOne later ⟨_, .inl (List.mem_cons_of_mem _ List.mem_cons_self), .refl⟩
    ⟨_, .inl List.mem_cons_self, .refl⟩ rfl rfl rfl
  exact ⟨holds, heq, rfl⟩

end History
end TypeAlgebra
