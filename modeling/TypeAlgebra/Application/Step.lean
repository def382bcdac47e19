import TypeAlgebra.Application.Weight

/-! One step of applying a function: an argument more, and the body if that was the last one. A body uses
each of its arguments at most once, so that a step makes no weight, and loses some where the body hands on
to another function. -/
namespace TypeAlgebra
open Value (weightAll)

/-- The body that makes a value of a type; what it gives is settled beforehand. -/
def Body.make (r : Registry) (ty : Ty) (source : Source) : Body :=
  match r.make ty source with
  | .ok value => .constant value
  | .error failure => .report failure

/-- What a body comes to: a result, or another function to apply in its place. -/
inductive Reduction where
  | done (result : Except Failure Value) (session : Session)
  | handOn (function : Value) (args : List Value)

/-- What giving a function one more argument comes to: a result, or a body to run. -/
inductive Offer where
  | settled (result : Except Failure Value) (session : Session)
  | saturated (lambda : Lambda) (args : List Value) (result : Ty)

/-- The text of a leaf; a value with none is shown as a question mark. -/
def Value.leafText (value : Value) : String :=
  match value.leaf with
  | .int _ n => Integer.text n
  | .str _ text => text
  | _ => "?"

namespace Session

/-- Operates on all arguments, from the left. -/
def foldArgs (s : Session) (op : Operator) : List Value → Except Failure Value
  | [] => .error (.expectedValue "nothing")
  | first :: rest => rest.foldlM (s.operate op) first

def first (args : List Value) : Except Failure Value :=
  match args with
  | value :: _ => .ok value
  | [] => .error (.expectedValue "nothing")

/-- Runs a body on the arguments, up to where it hands on to another function. -/
def reduce (s : Session) (args : List Value) : Body → Reduction
  | .argument index => .done (first (args.drop index)) s
  | .constant value => .done (.ok value) s
  | .report failure => .done (s.report failure) s
  | .raise failure => .done (.error failure) s
  | .cast ty => .done ((first args).bind fun arg => s.make ty (.value arg)) s
  | .fold op => .done (s.foldArgs op args) s
  | .concat => .done (s.make .str (.text (String.join (args.map (·.leafText))))) s
  | .field attr => .done ((first args).bind fun arg => s.field arg attr) s
  | .delegate function => .handOn function args
  | .setPolicy policy => .done (first args) { s with policy }
  | .dispatch leftDomain left rightDomain right domain =>
    match args with
    | [] => .done (first []) s
    | arg :: _ =>
      match s.registry.view leftDomain arg, s.registry.view rightDomain arg with
      | some viewed, _ => .handOn left [viewed]
      | none, some viewed => .handOn right [viewed]
      | none, none =>
        .done (s.report (.typeMismatch (s.registry.name domain) (s.registry.name arg.ty))) s
  | .spread function =>
    .handOn function (((args.head?.bind (·.fields?)).getD []).map (·.2))

/-- Gives a function one more argument. A failure, of the argument or the function, comes out again. -/
def offer (s : Session) (function arg : Value) : Offer :=
  match arg, function with
  | .failure failure, _ => .settled (.ok (.failure failure)) s
  | arg, .closure ty lambda applied =>
    match lambda.signature.drop applied.length with
    | slot :: next :: rest =>
      match s.registry.view slot arg with
      | none =>
        .settled (s.report (.typeMismatch (s.registry.name slot) (s.registry.name arg.ty))) s
      | some viewed =>
        match rest with
        | [] => .saturated lambda (applied ++ [viewed]) next
        | _ :: _ =>
          let (ty, registry) := s.registry.functionType (next :: rest)
          .settled (.ok (.closure ty lambda (applied ++ [viewed]))) { s with registry }
    | _ => .settled (s.report (.uncallable ((Value.closure ty lambda applied).display s.registry))) s
  | _, .failure failure => .settled (.ok (.failure failure)) s
  | _, other => .settled (s.report (.uncallable (other.display s.registry))) s

/-- Checks what a body gave against the result type of its function. A failure passes as it is. -/
def settle (ty : Ty) (outcome : Outcome Value) : Outcome Value :=
  outcome.andThen fun value s =>
    if value.isFailure then (.ok value, s)
    else match s.registry.view ty value with
      | some viewed => (.ok viewed, s)
      | none => (s.report (.typeMismatch (s.registry.name ty) (s.registry.name value.ty)), s)

theorem weight_foldlM {s : Session} {op : Operator} {first t : Value} {rest : List Value}
    (h : rest.foldlM (s.operate op) first = .ok t) : t.weight ≤ first.weight := by
  induction rest generalizing first with
  | nil =>
    exact Nat.le_of_eq (by rw [Except.ok.inj h])
  | cons a rest ih =>
    rw [List.foldlM_cons] at h
    cases hb : s.operate op first a with
    | error e => rw [hb] at h; contradiction
    | ok u =>
      rw [hb] at h
      have := ih h
      rw [weight_operate hb] at this
      omega

theorem weight_first {args : List Value} {t : Value} (h : first args = .ok t) : t ∈ args := by
  unfold first at h
  split at h
  · rw [Except.ok.inj h]; exact List.mem_cons_self
  · contradiction

theorem weight_bind_first {args : List Value} {f : Value → Except Failure Value} {t : Value}
    (h : (first args).bind f = .ok t) : ∃ arg ∈ args, f arg = .ok t := by
  cases hf : first args with
  | error e => rw [hf] at h; contradiction
  | ok arg => rw [hf] at h; exact ⟨arg, weight_first hf, h⟩

end Session

/-- What a body comes to weighs no more than so much. -/
def Reduction.Within (bound : Nat) : Reduction → Prop
  | .done result _ => ∀ t, result = .ok t → t.weight ≤ bound
  | .handOn function args => function.weight + weightAll args + args.length ≤ bound

/-- What an offer comes to weighs no more than so much. -/
def Offer.Within (bound : Nat) : Offer → Prop
  | .settled result _ => ∀ t, result = .ok t → t.weight ≤ bound
  | .saturated lambda args _ =>
    args ≠ [] ∧ lambda.body.weight + weightAll args + args.length + 1 ≤ bound

namespace Session

theorem reduce_within (s : Session) {args : List Value} (hargs : args ≠ []) (body : Body) :
    (s.reduce args body).Within (body.weight + weightAll args + args.length) := by
  have hlen : 0 < args.length := List.length_pos_iff.mpr hargs
  cases body with
  | argument index =>
    intro t h
    have := Value.weight_le_of_mem (List.mem_of_mem_drop (weight_first h))
    omega
  | constant value =>
    intro t h
    rw [← Except.ok.inj h, Body.weight]
    omega
  | report e =>
    intro t h
    rw [weight_report h]
    omega
  | raise e =>
    intro t h
    contradiction
  | cast ty =>
    intro t h
    obtain ⟨arg, hmem, h⟩ := weight_bind_first h
    have := weight_make_value h
    have := Value.weight_le_of_mem hmem
    omega
  | fold op =>
    intro t h
    cases args with
    | nil => contradiction
    | cons first rest =>
      have := weight_foldlM h
      have := Value.weight_le_of_mem (List.mem_cons_self (a := first) (l := rest))
      omega
  | concat =>
    intro t h
    rw [weight_make_text h]
    omega
  | field attr =>
    intro t h
    obtain ⟨arg, hmem, h⟩ := weight_bind_first h
    have := weight_field h
    have := Value.weight_le_of_mem hmem
    omega
  | delegate function => exact Nat.le_refl _
  | setPolicy policy =>
    intro t h
    have := Value.weight_le_of_mem (weight_first h)
    omega
  | dispatch leftDomain left rightDomain right domain =>
    cases args with
    | nil => contradiction
    | cons arg rest =>
      simp only [reduce]
      have hb : (Body.dispatch leftDomain left rightDomain right domain).weight =
          left.weight + right.weight := by rw [Body.weight]
      split
      · rename_i hn
        have := Registry.weight_view hn
        simp only [Reduction.Within, weightAll, List.length_cons, List.length_nil]
        omega
      · rename_i hn
        have := Registry.weight_view hn
        simp only [Reduction.Within, weightAll, List.length_cons, List.length_nil]
        omega
      · intro t h
        rw [weight_report h]
        omega
  | spread function =>
    cases args with
    | nil => contradiction
    | cons arg rest =>
      have hb : (Body.spread function).weight = function.weight := by rw [Body.weight]
      have hf : weightAll (((arg.fields?).getD []).map (·.2)) + ((arg.fields?).getD []).length ≤
          arg.weight := by
        cases arg <;> simp [Value.fields?, weightAll, Value.weight, Value.weightFields_eq]
      simp only [reduce, Reduction.Within, List.head?_cons, Option.bind_some, List.length_map,
        List.length_cons, weightAll]
      omega

theorem offer_within (s : Session) (function arg : Value) :
    (s.offer function arg).Within (function.weight + arg.weight) := by
  unfold offer
  split
  · intro t h
    rw [← Except.ok.inj h, Value.weight]
    omega
  · rename_i ty lambda applied _
    have hf : (Value.closure ty lambda applied).weight = lambda.weight + weightAll applied := by
      rw [Value.weight]
    have hl := lambda.weight_eq
    split
    · rename_i slot next rest hdrop
      have hlen : applied.length + 2 ≤ lambda.signature.length := by
        have := congrArg List.length hdrop
        simp only [List.length_drop, List.length_cons] at this
        omega
      split
      · intro t h
        rw [weight_report h]
        omega
      · rename_i viewed hn
        have := Registry.weight_view hn
        split
        · refine ⟨by simp, ?_⟩
          simp only [Value.weightAll_append, weightAll, List.length_append, List.length_cons,
            List.length_nil]
          omega
        · intro t h
          rw [← Except.ok.inj h, Value.weight, Value.weightAll_append, hf]
          simp only [weightAll]
          omega
    · intro t h
      rw [weight_report h]
      omega
  · intro t h
    rw [← Except.ok.inj h, Value.weight]
    omega
  · intro t h
    rw [weight_report h]
    omega

theorem weight_settle {ty : Ty} {outcome : Outcome Value} {t : Value}
    (h : (settle ty outcome).1 = .ok t) : ∃ u, outcome.1 = .ok u ∧ t.weight ≤ u.weight := by
  obtain ⟨result, s⟩ := outcome
  cases result with
  | error e => contradiction
  | ok u =>
    refine ⟨u, rfl, ?_⟩
    simp only [settle, Outcome.andThen] at h
    split at h
    · exact Nat.le_of_eq (by rw [Except.ok.inj h])
    · split at h
      · rename_i hn
        exact Nat.le_of_eq (by rw [← Except.ok.inj h, Registry.weight_view hn])
      · rw [weight_report h]
        exact Nat.zero_le _

/-- A body that hands on leaves less to be applied than there was. -/
theorem weight_handOn {s : Session} {function arg inner : Value} {lambda : Lambda}
    {args xs : List Value} {ty : Ty} (ho : s.offer function arg = .saturated lambda args ty)
    (hr : s.reduce args lambda.body = .handOn inner xs) :
    inner.weight + weightAll xs + xs.length < function.weight + arg.weight := by
  have hoffer := s.offer_within function arg
  rw [ho] at hoffer
  obtain ⟨hargs, hbound⟩ := hoffer
  have hreduce := s.reduce_within hargs lambda.body
  rw [hr] at hreduce
  simp only [Reduction.Within] at hreduce
  omega

end Session
end TypeAlgebra
