import Mathlib.Data.List.Forall2
import TypeAlgebra.Proofs.Layout.Progress
import TypeAlgebra.Stream

/-! Which texts the segments of a layout read, said without a machine: a literal reads itself, and a slot the
shortest text of its type that the next character does not continue. Matching comes to the same. -/
namespace TypeAlgebra

namespace Registry

/-- The text is one of the type, and the character behind it, if there is one, does not continue it. -/
def Ends (r : Registry) (ty : Ty) (text rest : List Char) : Prop :=
  r.accepts ty (.ofList text) ∧ ∀ c, rest.head? = some c → ¬ r.accepts ty (.ofList (text ++ [c]))

/-- After the characters seen, these are the fewest, but not none, with which a text of the type ends. -/
structure Takes (r : Registry) (ty : Ty) (seen text rest : List Char) : Prop where
  nonempty : text ≠ []
  ends : r.Ends ty (seen ++ text) rest
  shortest : ∀ front back, text = front ++ back → front ≠ [] → back ≠ [] →
    ¬ r.Ends ty (seen ++ front) (back ++ rest)

/-- After the characters seen, no text of the type ends anywhere. -/
def Open (r : Registry) (ty : Ty) (seen input : List Char) : Prop :=
  ∀ text rest, input = text ++ rest → text ≠ [] → ¬ r.Ends ty (seen ++ text) rest

variable {r : Registry} {ty : Ty} {seen text rest : List Char} {c : Char}

theorem ends_nil : r.Ends ty text [] ↔ r.accepts ty (.ofList text) := by simp [Ends]

theorem ends_cons : r.Ends ty text (c :: rest) ↔
    r.accepts ty (.ofList text) ∧ ¬ r.accepts ty (.ofList (text ++ [c])) := by
  simp [Ends]

theorem takes_singleton (h : r.Ends ty (seen ++ [c]) rest) : r.Takes ty seen [c] rest where
  nonempty := by simp
  ends := h
  shortest := by
    intro front back heq hfront hback
    have hlength := congrArg List.length heq
    have := List.length_pos_iff.mpr hfront
    have := List.length_pos_iff.mpr hback
    simp only [List.length_append, List.length_cons, List.length_nil] at hlength
    omega

theorem takes_cons (hn : ¬ r.Ends ty (seen ++ [c]) (text ++ rest)) (h : r.Takes ty (seen ++ [c]) text rest) :
    r.Takes ty seen (c :: text) rest where
  nonempty := by simp
  ends := by simpa using h.ends
  shortest := by
    intro front back heq hfront hback
    cases front with
    | nil => contradiction
    | cons d front =>
      rw [List.cons_append, List.cons.injEq] at heq
      obtain ⟨rfl, rfl⟩ := heq
      by_cases hne : front = []
      · subst hne; exact hn
      · simpa using h.shortest front back rfl hne hback

/-- What a slot takes of a text, if a text of its type ends there at all. -/
theorem takes_or_open (r : Registry) (ty : Ty) (seen input : List Char) :
    (∃ text rest, input = text ++ rest ∧ r.Takes ty seen text rest) ∨ r.Open ty seen input := by
  induction input generalizing seen with
  | nil =>
    refine .inr fun text rest heq hne => absurd ?_ hne
    exact (List.append_eq_nil_iff.mp heq.symm).1
  | cons c cs ih =>
    by_cases hends : r.Ends ty (seen ++ [c]) cs
    · exact .inl ⟨[c], cs, rfl, takes_singleton hends⟩
    rcases ih (seen ++ [c]) with ⟨text, rest, rfl, htakes⟩ | hopen
    · exact .inl ⟨c :: text, rest, rfl, takes_cons hends htakes⟩
    · refine .inr fun text rest heq hne => ?_
      cases text with
      | nil => contradiction
      | cons d text =>
        rw [List.cons_append, List.cons.injEq] at heq
        obtain ⟨rfl, rfl⟩ := heq
        by_cases hnil : text = []
        · subst hnil; exact hends
        · simpa using hopen text rest rfl hnil

/-- A slot takes of a text one front at most. -/
theorem Takes.unique {text' rest' : List Char} (h : r.Takes ty seen text rest)
    (h' : r.Takes ty seen text' rest') (heq : text ++ rest = text' ++ rest') :
    text = text' ∧ rest = rest' := by
  rcases List.append_eq_append_iff.mp heq with ⟨more, rfl, rfl⟩ | ⟨more, rfl, rfl⟩ <;>
    by_cases hmore : more = []
  · subst hmore; simp
  · exact absurd h.ends (h'.shortest text more rfl h.nonempty hmore)
  · subst hmore; simp
  · exact absurd h'.ends (h.shortest text' more rfl h'.nonempty hmore)

theorem Open.not_takes (h : r.Open ty seen (text ++ rest)) : ¬ r.Takes ty seen text rest :=
  fun htakes => h text rest rfl htakes.nonempty htakes.ends

end Registry

namespace Layout

/-- What reading a text by segments comes to. -/
inductive Reading where
  /-- All segments are read: the texts of the slots in their order, and what follows the segments. -/
  | all (texts : List (String × String)) (rest : List Char)
  | mismatch (expected got : Char) (offset : Nat)
  /-- The text ends before the segment does; of a literal begun, what is left of it. -/
  | ended (segment : Segment)

/-- The reading of a slot and what follows it, from the reading of what follows it. -/
def Reading.after (name text : String) : Reading → Reading
  | .all texts rest => .all ((name, text) :: texts) rest
  | reading => reading

/-- The reading of a text by segments; characters are counted from an offset. -/
inductive Reads (r : Registry) : Nat → List Segment → List Char → Reading → Prop
  | nil {n : Nat} {rest : List Char} : Reads r n [] rest (.all [] rest)
  | literal {n : Nat} {text rest : List Char} {segments : List Segment} {reading : Reading}
      (h : Reads r (n + text.length) segments rest reading) :
      Reads r n (.literal text :: segments) (text ++ rest) reading
  | differs {n : Nat} {pre post rest : List Char} {expected got : Char} {segments : List Segment}
      (h : got ≠ expected) :
      Reads r n (.literal (pre ++ expected :: post) :: segments) (pre ++ got :: rest)
        (.mismatch expected got (n + pre.length))
  | cut {n : Nat} {pre post : List Char} {segments : List Segment} (h : post ≠ []) :
      Reads r n (.literal (pre ++ post) :: segments) pre (.ended (.literal post))
  | slot {n : Nat} {name : String} {ty : Ty} {text rest : List Char} {segments : List Segment}
      {reading : Reading} (takes : r.Takes ty [] text rest)
      (h : Reads r (n + text.length) segments rest reading) :
      Reads r n (.slot name ty :: segments) (text ++ rest) (reading.after name (.ofList text))
  | unended {n : Nat} {name : String} {ty : Ty} {input : List Char} {segments : List Segment}
      (h : r.Open ty [] input) :
      Reads r n (.slot name ty :: segments) input (.ended (.slot name ty))

/-- A text begins with another, or differs from it somewhere, or ends before it. -/
theorem compare_literal (text input : List Char) :
    (∃ rest, input = text ++ rest) ∨
    (∃ pre expected post got rest, got ≠ expected ∧ text = pre ++ expected :: post ∧
      input = pre ++ got :: rest) ∨
    ∃ post, post ≠ [] ∧ text = input ++ post := by
  induction text generalizing input with
  | nil => exact .inl ⟨input, rfl⟩
  | cons c text ih =>
    cases input with
    | nil => exact .inr (.inr ⟨c :: text, by simp, rfl⟩)
    | cons d input =>
      by_cases hdc : d = c
      · subst hdc
        rcases ih input with ⟨rest, rfl⟩ | ⟨pre, expected, post, got, rest, hne, rfl, rfl⟩ | ⟨post, hne, rfl⟩
        · exact .inl ⟨rest, rfl⟩
        · exact .inr (.inl ⟨d :: pre, expected, post, got, rest, hne, rfl, rfl⟩)
        · exact .inr (.inr ⟨post, hne, rfl⟩)
      · exact .inr (.inl ⟨[], c, text, d, input, hdc, rfl, rfl⟩)

/-- Every text has a reading. -/
theorem exists_reads (r : Registry) (n : Nat) (segments : List Segment) (input : List Char) :
    ∃ reading, Reads r n segments input reading := by
  induction segments generalizing n input with
  | nil => exact ⟨_, .nil⟩
  | cons segment segments ih =>
    cases segment with
    | literal text =>
      rcases compare_literal text input with ⟨rest, rfl⟩ | ⟨pre, expected, post, got, rest, hne, rfl, rfl⟩ |
        ⟨post, hne, rfl⟩
      · obtain ⟨reading, h⟩ := ih (n + text.length) rest
        exact ⟨reading, .literal h⟩
      · exact ⟨_, .differs hne⟩
      · exact ⟨_, .cut hne⟩
    | slot name ty =>
      rcases r.takes_or_open ty [] input with ⟨text, rest, rfl, htakes⟩ | hopen
      · obtain ⟨reading, h⟩ := ih (n + text.length) rest
        exact ⟨_, .slot htakes h⟩
      · exact ⟨_, .unended hopen⟩

/-- Where two texts differ first there is one place and one pair of characters. -/
theorem differs_unique {pre pre' post post' rest rest' : List Char} {expected expected' got got' : Char}
    (hne : got ≠ expected) (hne' : got' ≠ expected')
    (htext : pre ++ expected :: post = pre' ++ expected' :: post')
    (hinput : pre ++ got :: rest = pre' ++ got' :: rest') :
    pre = pre' ∧ expected = expected' ∧ got = got' := by
  induction pre generalizing pre' with
  | nil =>
    cases pre' with
    | nil =>
      rw [List.nil_append, List.nil_append, List.cons.injEq] at htext hinput
      exact ⟨rfl, htext.1, hinput.1⟩
    | cons c pre' =>
      rw [List.nil_append, List.cons_append, List.cons.injEq] at htext hinput
      exact absurd (hinput.1.trans htext.1.symm) hne
  | cons c pre ih =>
    cases pre' with
    | nil =>
      rw [List.nil_append, List.cons_append, List.cons.injEq] at htext hinput
      exact absurd (hinput.1.symm.trans htext.1) hne'
    | cons d pre' =>
      rw [List.cons_append, List.cons_append, List.cons.injEq] at htext hinput
      obtain ⟨hpre, hexpected, hgot⟩ := ih htext.2 hinput.2
      exact ⟨by rw [htext.1, hpre], hexpected, hgot⟩

/-- A text has one reading only. -/
theorem Reads.unique {r : Registry} {n : Nat} {segments : List Segment} {input : List Char}
    {reading reading' : Reading} (h : Reads r n segments input reading)
    (h' : Reads r n segments input reading') : reading = reading' := by
  induction h generalizing reading' with
  | nil => cases h'; rfl
  | @literal n text rest segments reading h ih =>
    generalize hinput : text ++ rest = input at h'
    cases h' with
    | literal h' => exact ih (List.append_cancel_left hinput ▸ h')
    | differs hne =>
      rw [List.append_assoc, List.append_cancel_left_eq] at hinput
      exact absurd (List.cons.inj hinput).1.symm hne
    | cut hne =>
      rw [List.append_assoc, List.append_right_eq_self] at hinput
      exact absurd (List.append_eq_nil_iff.mp hinput).1 hne
  | @differs n pre post rest expected got segments hne =>
    generalize htext : pre ++ expected :: post = text at h'
    generalize hinput : pre ++ got :: rest = input at h'
    cases h' with
    | literal h' =>
      rw [← htext, List.append_assoc, List.append_cancel_left_eq] at hinput
      exact absurd (List.cons.inj hinput).1 hne
    | differs hne' =>
      obtain ⟨rfl, rfl, rfl⟩ := differs_unique hne hne' htext hinput
      rfl
    | cut hne' =>
      rw [← hinput, List.append_assoc, List.append_cancel_left_eq] at htext
      exact absurd (List.cons.inj htext).1.symm hne
  | @cut n pre post segments hne =>
    generalize htext : pre ++ post = text at h'
    cases h' with
    | literal h' =>
      rw [List.append_assoc, List.append_right_eq_self] at htext
      exact absurd (List.append_eq_nil_iff.mp htext).2 hne
    | differs hne' =>
      rw [List.append_assoc, List.append_cancel_left_eq] at htext
      exact absurd (List.cons.inj htext).1 hne'
    | cut hne' => rw [List.append_cancel_left htext]
  | @slot n name ty text rest segments reading takes h ih =>
    generalize hinput : text ++ rest = input at h'
    cases h' with
    | slot takes' h' =>
      obtain ⟨rfl, rfl⟩ := takes.unique takes' hinput
      rw [ih h']
    | unended hopen => exact absurd takes (Registry.Open.not_takes (hinput ▸ hopen))
  | @unended n name ty input segments hopen =>
    cases h' with
    | slot takes' h' => exact absurd takes' hopen.not_takes
    | unended hopen' => rfl

end Layout

namespace Progress

/-- Matching from the front of the segments; where there are none left it has come to an end. -/
def runFrom (r : Registry) (layout segments : List Segment) (fields : List (String × Value)) (n : Nat)
    (input : List Char) : Except Failure (List (String × Value) × List Char) :=
  match segments with
  | [] => .ok (fields, input)
  | segments => (⟨layout, segments, "", fields⟩ : Progress).run r n input

variable {r : Registry} {layout rest : List Segment} {candidate : String} {fields : List (String × Value)}

theorem run_start (hsegments : layout ≠ []) (n : Nat) (input : List Char) :
    (start layout).run r n input = runFrom r layout layout [] n input := by
  cases layout with
  | nil => contradiction
  | cons segment rest => rfl

/-- A step that goes on to the next segment goes on from there. -/
theorem run_of_advance {p q : Progress} {c : Char} {cs : List Char} (hstep : p.step r c cs.head? = q.advance)
    (n : Nat) : p.run r n (c :: cs) = runFrom r q.layout q.todo.tail q.fields (n + 1) cs := by
  unfold run
  rw [hstep]
  unfold advance
  cases q.todo.tail <;> rfl

theorem run_of_pending {p q : Progress} {c : Char} {cs : List Char} (hstep : p.step r c cs.head? = .pending q)
    (n : Nat) : p.run r n (c :: cs) = q.run r (n + 1) cs := by
  rw [run, hstep]

/-- Inside a literal its next character leaves the rest of it. -/
theorem run_literal_cons {c : Char} {text : List Char} (htext : text ≠ []) (n : Nat) (input : List Char) :
    (⟨layout, .literal (c :: text) :: rest, candidate, fields⟩ : Progress).run r n (c :: input) =
      (⟨layout, .literal text :: rest, candidate, fields⟩ : Progress).run r (n + 1) input :=
  run_of_pending (by simp [step, htext]) n

theorem run_literal {text : List Char} (htext : text ≠ []) (n : Nat) (input : List Char) :
    (⟨layout, .literal text :: rest, candidate, fields⟩ : Progress).run r n (text ++ input) =
      runFrom r layout rest fields (n + text.length) input := by
  induction text generalizing n with
  | nil => contradiction
  | cons c text ih =>
    by_cases hlast : text = []
    · subst hlast
      have hstep : (⟨layout, .literal [c] :: rest, candidate, fields⟩ : Progress).step r c input.head? =
          (⟨layout, .literal [c] :: rest, candidate, fields⟩ : Progress).advance := by simp [step]
      exact run_of_advance hstep n
    · rw [List.cons_append, run_literal_cons hlast, ih hlast, List.length_cons]
      congr 1
      omega

theorem run_differs {pre post : List Char} {expected got : Char} (h : got ≠ expected) (n : Nat)
    (input : List Char) :
    (⟨layout, .literal (pre ++ expected :: post) :: rest, candidate, fields⟩ : Progress).run r n
      (pre ++ got :: input) = .error (.literalMismatch expected got (n + pre.length)) := by
  induction pre generalizing n with
  | nil => simp [run, step, h]
  | cons c pre ih =>
    rw [List.cons_append, List.cons_append, run_literal_cons (by simp), ih, List.length_cons]
    congr 2
    omega

theorem run_cut {pre post : List Char} (h : post ≠ []) (n : Nat) :
    (⟨layout, .literal (pre ++ post) :: rest, candidate, fields⟩ : Progress).run r n pre =
      .error (.unexpectedEnd (Segment.literal post).described) := by
  induction pre generalizing n with
  | nil => rfl
  | cons c pre ih => rw [List.cons_append, run_literal_cons (by simp [h]), ih]

section
variable {name : String} {ty : Ty} {seen : List Char} {c : Char}

theorem ofList_push (cs : List Char) (c : Char) : (String.ofList cs).push c = .ofList (cs ++ [c]) := by
  rw [← String.toList_inj]
  simp

/-- A character with which no text ends is added to those seen. -/
theorem step_of_not_ends {after : List Char} (h : ¬ r.Ends ty (seen ++ [c]) after) :
    (⟨layout, .slot name ty :: rest, .ofList seen, fields⟩ : Progress).step r c after.head? =
      .pending ⟨layout, .slot name ty :: rest, .ofList (seen ++ [c]), fields⟩ := by
  simp only [step, ofList_push]
  split
  · rfl
  · rename_i hnext
    have hread : r.read? ty (.ofList (seen ++ [c])) = none := by
      rw [← Option.isNone_iff_eq_none, ← Option.not_isSome, r.isSome_read?, Bool.not_eq_true']
      by_contra haccepts
      refine h ⟨by simpa using haccepts, fun d hd hlonger => hnext ?_⟩
      rw [hd, Option.any_some, hlonger]
    rw [hread]

/-- A character with which a text ends commits the value of the text. -/
theorem step_of_ends {after : List Char} (h : r.Ends ty (seen ++ [c]) after) :
    ∃ value, r.read? ty (.ofList (seen ++ [c])) = some value ∧
      (⟨layout, .slot name ty :: rest, .ofList seen, fields⟩ : Progress).step r c after.head? =
        (⟨layout, .slot name ty :: rest, .ofList (seen ++ [c]),
          Sorted.put name value fields⟩ : Progress).advance := by
  obtain ⟨haccepts, hstops⟩ := h
  obtain ⟨value, hread⟩ := r.read?_of_accepts haccepts
  have hnext : ¬ after.head?.any fun d => r.accepts ty ((String.ofList (seen ++ [c])).push d) := by
    rw [Option.any_eq_true_iff_get]
    rintro ⟨hd, hlonger⟩
    rw [ofList_push] at hlonger
    exact hstops _ (Option.some_get hd).symm hlonger
  refine ⟨value, hread, ?_⟩
  simp only [step, ofList_push seen]
  rw [if_neg hnext, hread]
  cases rest <;> rfl

theorem run_takes {text : List Char} {input : List Char} (h : r.Takes ty seen text input) (n : Nat) :
    ∃ value, r.read? ty (.ofList (seen ++ text)) = some value ∧
      (⟨layout, .slot name ty :: rest, .ofList seen, fields⟩ : Progress).run r n (text ++ input) =
        runFrom r layout rest (Sorted.put name value fields) (n + text.length) input := by
  induction text generalizing seen n with
  | nil => exact absurd rfl h.nonempty
  | cons c text ih =>
    by_cases hlast : text = []
    · subst hlast
      obtain ⟨value, hread, hstep⟩ := step_of_ends h.ends
      exact ⟨value, hread, run_of_advance hstep n⟩
    · have hends : ¬ r.Ends ty (seen ++ [c]) (text ++ input) :=
        h.shortest [c] text rfl (by simp) hlast
      have htail : r.Takes ty (seen ++ [c]) text input := by
        refine ⟨hlast, by simpa using h.ends, fun front back heq hfront hback => ?_⟩
        simpa using h.shortest (c :: front) back (by rw [heq]; rfl) (by simp) hback
      obtain ⟨value, hread, hrun⟩ := ih htail (n + 1)
      refine ⟨value, by simpa using hread, ?_⟩
      rw [List.cons_append, run_of_pending (step_of_not_ends hends), hrun, List.length_cons]
      congr 1
      omega

theorem run_open {input : List Char} (h : r.Open ty seen input) (n : Nat) :
    (⟨layout, .slot name ty :: rest, .ofList seen, fields⟩ : Progress).run r n input =
      .error (.unexpectedEnd (Segment.slot name ty).described) := by
  induction input generalizing seen n with
  | nil => rfl
  | cons c cs ih =>
    have hends : ¬ r.Ends ty (seen ++ [c]) cs := h [c] cs rfl (by simp)
    rw [run_of_pending (step_of_not_ends hends)]
    apply ih
    intro text after heq hne
    simpa using h (c :: text) after (by rw [heq]; rfl) (by simp)

end

end Progress

namespace Layout

/-- The text that the last slot of a name reads. -/
def lastText (texts : List (String × String)) (name : String) : Option String := texts.reverse.lookup name

/-- The result of matching that a reading stands for. A field's value is that of the text its last slot
read; where none read any, it is what it was. -/
def Reading.Gives (r : Registry) (declared : List (String × Ty)) (fields : List (String × Value)) :
    Reading → Except Failure (List (String × Value) × List Char) → Prop
  | .all texts rest, result => ∃ fields', result = .ok (fields', rest) ∧ ∀ name, fields'.lookup name =
      match lastText texts name with
      | some text => (declared.lookup name).bind fun ty => r.read? ty text
      | none => fields.lookup name
  | .mismatch expected got offset, result => result = .error (.literalMismatch expected got offset)
  | .ended segment, result => result = .error (.unexpectedEnd segment.described)

theorem Reading.gives_after {r : Registry} {declared : List (String × Ty)} {fields : List (String × Value)}
    {name text : String} {ty : Ty} {value : Value} (hty : declared.lookup name = some ty)
    (hread : r.read? ty text = some value) {reading : Reading}
    {result : Except Failure (List (String × Value) × List Char)}
    (h : reading.Gives r declared (Sorted.put name value fields) result) :
    (reading.after name text).Gives r declared fields result := by
  cases reading with
  | all texts rest =>
    obtain ⟨fields', hresult, hfields⟩ := h
    refine ⟨fields', hresult, fun other => ?_⟩
    rw [hfields other, lastText, lastText, List.reverse_cons, List.lookup_append, Sorted.lookup_put]
    cases texts.reverse.lookup other with
    | some later => rfl
    | none =>
      simp only [List.lookup_cons, List.lookup_nil, Option.none_or]
      by_cases hname : other == name
      · rw [beq_iff_eq] at hname
        subst hname
        simp [hty, hread]
      · simp [hname]
  | mismatch expected got offset => exact h
  | ended segment => exact h

/-- Matching comes to what the segments read. -/
theorem Reads.gives {r : Registry} {declared : List (String × Ty)} {n : Nat} {segments : List Segment}
    {input : List Char} {reading : Reading} (h : Reads r n segments input reading)
    (hsolid : .literal [] ∉ segments)
    (htyped : ∀ {name ty}, .slot name ty ∈ segments → declared.lookup name = some ty)
    (layout : List Segment) (fields : List (String × Value)) :
    reading.Gives r declared fields (Progress.runFrom r layout segments fields n input) := by
  induction h generalizing fields with
  | nil => exact ⟨fields, rfl, fun name => rfl⟩
  | @literal n text rest segments reading h ih =>
    have htext : text ≠ [] := fun htext => hsolid (by simp [htext])
    have hgives := ih (fun hmem => hsolid (List.mem_cons_of_mem _ hmem))
      (fun hmem => htyped (List.mem_cons_of_mem _ hmem)) fields
    rwa [← Progress.run_literal htext] at hgives
  | differs hne => exact Progress.run_differs hne _ _
  | cut hne => exact Progress.run_cut hne _
  | @slot n name ty text rest segments reading takes h ih =>
    obtain ⟨value, hread, hrun⟩ := Progress.run_takes takes n
    have hgives := ih (fun hmem => hsolid (List.mem_cons_of_mem _ hmem))
      (fun hmem => htyped (List.mem_cons_of_mem _ hmem)) (Sorted.put name value fields)
    rw [← hrun] at hgives
    exact Reading.gives_after (htyped List.mem_cons_self) hread hgives
  | unended hopen => exact Progress.run_open hopen _

end Layout

/-- The record of the product whose fields are made of the texts that there are for their names. -/
def Registry.RecordOf (r : Registry) (product : Ty) (text? : String → Option String) (record : Value) :
    Prop :=
  ∃ declared fields, r.fields? product = some declared ∧ record = .record product fields ∧
    List.Forall₂ (fun field given => given.1 = field.1 ∧
      ∃ text, text? field.1 = some text ∧ r.make field.2 (.text text) = .ok given.2) declared fields

namespace Layout

/-- Where all segments are read there is a record of the texts. -/
theorem Reads.record {r : Registry} {layout : Layout} (hknown : layout.Known r) {n : Nat}
    {input rest : List Char} {texts : List (String × String)}
    (h : Reads r n layout.segments input (.all texts rest)) :
    ∃ fields record, (Progress.start layout.segments).run r n input = .ok (fields, rest) ∧
      r.record layout.product fields = .ok record ∧
      r.RecordOf layout.product (lastText texts) record := by
  obtain ⟨declared, hfits⟩ := hknown.fits
  obtain ⟨fields, hrun, hfields⟩ := h.gives hfits.solid hfits.typed layout.segments []
  rw [← Progress.run_start hfits.nonempty] at hrun
  have hcommitted := Progress.run_sound (Progress.sound_start hfits.nonempty) hrun
  have hrecord := hcommitted.record hfits
    (fun name => (fields.lookup name).getD (.failure (.missingField name)))
    (by intro name value hvalue; simp [hvalue])
  refine ⟨fields, _, hrun, hrecord, declared, _, hfits.declared, rfl, ?_⟩
  rw [List.forall₂_map_right_iff, List.forall₂_same]
  rintro ⟨name, ty⟩ hfield
  refine ⟨rfl, ?_⟩
  obtain ⟨value, hvalue⟩ := hcommitted.found (hfits.slot hfield)
  have hread := (hfields name).symm.trans hvalue
  cases htext : lastText texts name with
  | none => simp [htext] at hread
  | some text =>
    simp only [htext, Sorted.lookup_of_mem hfits.distinct hfield, Option.bind_some] at hread
    exact ⟨text, rfl, by simp [hvalue, r.make_text hread]⟩

theorem readRecord_of_run {s : Session} {layout : Layout} {text : String} {fields : List (String × Value)}
    {rest : List Char} {record : Value}
    (hrun : (Progress.start layout.segments).run s.registry 0 text.toList = .ok (fields, rest))
    (hrecord : s.registry.record layout.product fields = .ok record) :
    s.readRecord layout text = .ok record := by
  unfold Session.readRecord Layout.readRecord
  simp only [hrun, hrecord]
  cases s.policy <;> rfl

/-- A record is read as the segments read the text: its fields are made of the texts of their last slots.
Where the segments cannot be read, the first character that differs is the failure, or the end of the text. This is
said of the field whose slot has not ended, or of the rest of a literal, which is quoted. There is no other failure. -/
theorem readRecord_reads {s : Session} {layout : Layout} (h : layout.Known s.registry) (text : String) :
    ∃ reading, (∀ other, Reads s.registry 0 layout.segments text.toList other ↔ other = reading) ∧
      match reading with
      | .all texts _ => ∃ record, s.readRecord layout text = .ok record ∧
          s.registry.RecordOf layout.product (lastText texts) record
      | .mismatch expected got offset =>
        s.readRecord layout text = s.report (.literalMismatch expected got offset)
      | .ended (.literal left) =>
        s.readRecord layout text = s.report (.unexpectedEnd ("literal " ++ Text.quoted (.ofList left)))
      | .ended (.slot name _) =>
        s.readRecord layout text = s.report (.unexpectedEnd ("field '" ++ name ++ "'")) := by
  obtain ⟨reading, hreads⟩ := exists_reads s.registry 0 layout.segments text.toList
  obtain ⟨declared, hfits⟩ := h.fits
  have hgives := hreads.gives hfits.solid hfits.typed layout.segments []
  rw [← Progress.run_start hfits.nonempty] at hgives
  refine ⟨reading, fun other => ⟨fun hother => hother.unique hreads, fun heq => heq ▸ hreads⟩, ?_⟩
  cases reading with
  | all texts rest =>
    obtain ⟨fields, record, hrun, hrecord, hof⟩ := hreads.record h
    exact ⟨record, readRecord_of_run hrun hrecord, hof⟩
  | mismatch expected got offset =>
    unfold Session.readRecord Layout.readRecord
    rw [hgives]
    rfl
  | ended segment =>
    have hended : s.readRecord layout text = s.report (.unexpectedEnd segment.described) := by
      unfold Session.readRecord Layout.readRecord
      rw [hgives]
      rfl
    cases segment with
    | literal left => rwa [Segment.described_literal] at hended
    | slot name ty => rwa [Segment.described_slot] at hended

/-- What an entry reads is what stands in front of the comma, between this and the semicolon, and behind it. -/
theorem reads_all_entry : Reads entryRegistry 0 entryLayout.segments "7,ab;42.".toList
    (.all [("n", "7"), ("text", "ab"), ("code", "42")] ['.']) := by
  have code : entryRegistry.Takes ⟨4⟩ [] ['4', '2'] ['.'] :=
    Registry.takes_cons (mt Registry.ends_cons.mp (by decide +kernel))
      (Registry.takes_singleton (Registry.ends_cons.mpr (by decide +kernel)))
  have text : entryRegistry.Takes ⟨3⟩ [] ['a', 'b'] [';', '4', '2', '.'] :=
    Registry.takes_cons (mt Registry.ends_cons.mp (by decide +kernel))
      (Registry.takes_singleton (Registry.ends_cons.mpr (by decide +kernel)))
  have number : entryRegistry.Takes .int [] ['7'] [',', 'a', 'b', ';', '4', '2', '.'] :=
    Registry.takes_singleton (Registry.ends_cons.mpr (by decide +kernel))
  have hcode := @Reads.slot _ 5 "code" _ _ _ _ _ code .nil
  have htext := @Reads.slot _ 2 "text" _ _ _ _ _ text (@Reads.literal _ 4 [';'] _ _ _ hcode)
  exact @Reads.slot _ 0 "n" _ _ _ _ _ number (@Reads.literal _ 1 [','] _ _ _ htext)

/-- An entry is read, and what follows it ignored. Where the text ends, or goes on with another character, before the
comma, this is what fails, and with no text at all it is the number that is missed. -/
theorem reads_entry :
    (∃ record, (entrySession .raise).readRecord entryLayout "7,ab;42." = .ok record ∧
      entryRegistry.RecordOf ⟨5⟩ (lastText [("n", "7"), ("text", "ab"), ("code", "42")]) record) ∧
    (entrySession .raise).readRecord entryLayout "7" = .error (.unexpectedEnd "literal \",\"") ∧
    (entrySession .raise).readRecord entryLayout "7;" = .error (.literalMismatch ',' ';' 1) ∧
    (entrySession .raise).readRecord entryLayout "" = .error (.unexpectedEnd "field 'n'") := by
  have hentry : entryLayout.Known (entrySession .raise).registry := known_entryLayout
  have number (rest : List Char) (h : entryRegistry.Ends .int ['7'] rest) : entryRegistry.Takes .int [] ['7'] rest :=
    Registry.takes_singleton h
  refine ⟨?_, ?_, ?_, ?_⟩
  · obtain ⟨reading, hunique, hresult⟩ := readRecord_reads hentry "7,ab;42."
    obtain rfl := (hunique _).mp reads_all_entry
    exact hresult
  · have hreads : Reads entryRegistry 0 entryLayout.segments ['7'] (.ended (.literal [','])) :=
      @Reads.slot _ 0 "n" _ _ [] _ _ (number [] (Registry.ends_nil.mpr (by decide +kernel)))
        (@Reads.cut _ 1 [] [','] _ (by simp))
    have hcomma : "literal " ++ Text.quoted (.ofList [',']) = "literal \",\"" := by decide +kernel
    obtain ⟨reading, hunique, hresult⟩ := readRecord_reads hentry "7"
    obtain rfl := (hunique _).mp hreads
    rw [← hcomma]
    exact hresult
  · have hreads : Reads entryRegistry 0 entryLayout.segments ['7', ';'] (.mismatch ',' ';' 1) :=
      @Reads.slot _ 0 "n" _ _ [';'] _ _ (number [';'] (Registry.ends_cons.mpr (by decide +kernel)))
        (@Reads.differs _ 1 [] [] [] ',' ';' _ (by decide))
    obtain ⟨reading, hunique, hresult⟩ := readRecord_reads hentry "7;"
    obtain rfl := (hunique _).mp hreads
    exact hresult
  · have hreads : Reads entryRegistry 0 entryLayout.segments [] (.ended (.slot "n" .int)) :=
      .unended fun text rest heq hne => absurd (List.append_eq_nil_iff.mp heq.symm).1 hne
    obtain ⟨reading, hunique, hresult⟩ := readRecord_reads hentry ""
    obtain rfl := (hunique _).mp hreads
    exact hresult

end Layout
end TypeAlgebra
