import TypeAlgebra.Session

/-! The weight of a value: how much applying it can at most set going. Viewing, making, reading and
operating make no weight. -/
namespace TypeAlgebra

mutual

/-- How much applying a value can at most set going. -/
def Value.weight : Value → Nat
  | .record _ fields => Value.weightFields fields
  | .injection _ _ inner => inner.weight
  | .closure _ lambda applied => lambda.weight + Value.weightAll applied
  | .int _ _ => 0
  | .str _ _ => 0
  | .failure _ => 0

def Value.weightFields : List (String × Value) → Nat
  | [] => 0
  | field :: rest => Value.weightField field + 1 + Value.weightFields rest

def Value.weightField : String × Value → Nat
  | (_, value) => value.weight

def Value.weightAll : List Value → Nat
  | [] => 0
  | value :: rest => value.weight + Value.weightAll rest

def Lambda.weight : Lambda → Nat
  | ⟨_, _, signature, body⟩ => signature.length + 1 + body.weight

def Body.weight : Body → Nat
  | .constant value => value.weight
  | .delegate function => function.weight
  | .dispatch _ left _ right _ => left.weight + right.weight
  | .spread function => function.weight
  | _ => 0

end

open Value (weightAll weightFields weightField)

theorem Lambda.weight_eq (lambda : Lambda) :
    lambda.weight = lambda.signature.length + 1 + lambda.body.weight := by
  cases lambda
  rw [Lambda.weight]

theorem Value.weight_leaf : ∀ t : Value, t.leaf.weight = t.weight
  | .injection _ _ inner => by
    rw [leaf, Value.weight_leaf inner, weight]
  | .int .. | .str .. | .record .. | .closure .. | .failure .. => rfl

theorem Value.weight_wrap {leaf t : Value} {v : Variants} (h : leaf.wrap v = some t) :
    t.weight = leaf.weight := by
  induction v generalizing t with
  | leaf ty =>
    simp only [wrap] at h
    split at h
    · rw [Option.some.inj h]
    · contradiction
  | node ty left right ihl ihr =>
    simp only [wrap] at h
    split at h
    · rw [Option.some.inj h]
    split at h
    · obtain ⟨u, hu, rfl⟩ := Option.map_eq_some_iff.mp h
      rw [weight, ihl hu]
    split at h
    · obtain ⟨u, hu, rfl⟩ := Option.map_eq_some_iff.mp h
      rw [weight, ihr hu]
    · contradiction

theorem Registry.weight_view {r : Registry} {ty : Ty} : ∀ {t u : Value},
    r.view ty t = some u → u.weight = t.weight
  | .injection own side inner, u, h => by
    rw [view] at h
    split at h
    · rw [Option.some.inj h]
    · rcases Option.or_eq_some_iff.mp h with h | ⟨_, h⟩
      · rw [Value.weight, Registry.weight_view h]
      · rw [Value.weight, Value.weight_wrap h, Value.weight_leaf]
  | .int .., u, h | .str .., u, h | .record .., u, h | .closure .., u, h | .failure .., u, h => by
    simp only [view] at h
    split at h
    · rw [Option.some.inj h]
    · contradiction

theorem Value.weightAll_append (ts us : List Value) :
    weightAll (ts ++ us) = weightAll ts + weightAll us := by
  induction ts with
  | nil => simp [weightAll]
  | cons t ts ih => simp [weightAll, ih, Nat.add_assoc]

theorem Value.weightFields_eq (fields : List (String × Value)) :
    weightFields fields = weightAll (fields.map (·.2)) + fields.length := by
  induction fields with
  | nil => rfl
  | cons field rest ih =>
    obtain ⟨name, t⟩ := field
    simp only [weightFields, weightField, List.map_cons, weightAll, List.length_cons, ih]
    omega

theorem Value.weight_le_of_mem {t : Value} {ts : List Value} (h : t ∈ ts) :
    t.weight ≤ weightAll ts := by
  induction ts with
  | nil => contradiction
  | cons u ts ih =>
    rw [weightAll]
    rcases List.mem_cons.mp h with rfl | h
    · omega
    · have := ih h
      omega

theorem Registry.weight_readAny {r : Registry} {text : String} {v : Variants} {t : Value}
    (h : r.readAny? text v = some t) : t.weight = 0 := by
  induction v generalizing t with
  | leaf ty =>
    simp only [readAny?, readLeaf?] at h
    split at h
    · split at h
      · obtain ⟨n, _, rfl⟩ := Option.map_eq_some_iff.mp h
        rfl
      · contradiction
    · split at h
      · rw [← Option.some.inj h]; rfl
      · contradiction
    · contradiction
  | node ty left right ihl ihr =>
    rw [readAny?] at h
    rcases Option.or_eq_some_iff.mp h with h | ⟨_, h⟩
    · obtain ⟨u, hu, rfl⟩ := Option.map_eq_some_iff.mp h
      rw [Value.weight, ihl hu]
    · obtain ⟨u, hu, rfl⟩ := Option.map_eq_some_iff.mp h
      rw [Value.weight, ihr hu]

/-- What is handed over is what there was, or a failure. -/
theorem Policy.weight_handOver {p : Policy} {result : Except Failure Value} {t : Value}
    (h : p.handOver result = .ok t) : result = .ok t ∨ t.weight = 0 := by
  unfold handOver at h
  split at h
  · rw [← Except.ok.inj h]; exact .inr rfl
  · exact .inl h

namespace Session

theorem weight_report {s : Session} {e : Failure} {t : Value} (h : s.report e = .ok t) :
    t.weight = 0 := by
  rcases Policy.weight_handOver h with h | h
  · contradiction
  · exact h

theorem weight_operate {s : Session} {op : Operator} {a b t : Value}
    (h : s.operate op a b = .ok t) : t.weight = 0 := by
  rcases Policy.weight_handOver h with h | h
  · unfold Registry.operate at h
    split at h
    · contradiction
    · split at h
      · cases hn : Operator.onInts _ _ _ with
        | error e => rw [hn] at h; contradiction
        | ok n => rw [hn] at h; rw [← Except.ok.inj h]; rfl
      · rw [← Except.ok.inj h]; rfl
      · contradiction
  · exact h

theorem weight_make_value {s : Session} {ty : Ty} {arg t : Value}
    (h : s.make ty (.value arg) = .ok t) : t.weight ≤ arg.weight := by
  rcases Policy.weight_handOver h with h | h
  · simp only [Registry.make] at h
    split at h
    · rename_i hn
      exact Nat.le_of_eq (by rw [← Except.ok.inj h, Registry.weight_view hn])
    · contradiction
  · omega

theorem weight_make_text {s : Session} {ty : Ty} {text : String} {t : Value}
    (h : s.make ty (.text text) = .ok t) : t.weight = 0 := by
  rcases Policy.weight_handOver h with h | h
  · simp only [Registry.make] at h
    split at h
    case h_1 | h_2 =>
      split at h
      · rename_i hr
        rw [← Except.ok.inj h]
        exact Registry.weight_readAny hr
      · contradiction
    all_goals contradiction
  · exact h

theorem weight_lookup {fields : List (String × Value)} {attr : String} {t : Value}
    (h : fields.lookup attr = some t) : t.weight ≤ weightFields fields := by
  induction fields with
  | nil => contradiction
  | cons field rest ih =>
    obtain ⟨name, u⟩ := field
    rw [List.lookup_cons] at h
    simp only [weightFields, weightField]
    split at h
    · rw [Option.some.inj h]; omega
    · have := ih h
      omega

theorem weight_field {s : Session} {arg t : Value} {attr : String}
    (h : s.field arg attr = .ok t) : t.weight ≤ arg.weight := by
  rcases Policy.weight_handOver h with h | h
  · unfold Registry.field at h
    split at h
    · rename_i u hu
      rw [← Except.ok.inj h]
      unfold Value.field? Value.fields? at hu
      split at hu
      · exact weight_lookup hu
      · contradiction
    · contradiction
  · omega

end Session
end TypeAlgebra
