import TypeAlgebra.Proofs.Integer
import TypeAlgebra.Proofs.Layout.Reading
import TypeAlgebra.Proofs.Stream.Iteration

/-! Writing records by a layout, and reading them back. Where what stands behind a slot ends its text, reading
finds again what was written, in whatever chunks it comes. -/
namespace TypeAlgebra

namespace Registry

variable {r : Registry} {ty : Ty} {base : Primitive} {constraints : List Constraint} {text rest : List Char}
  {c : Char}

theorem accepts_number (h : r.get ty = .primitive .int []) (text : List Char) :
    r.accepts ty (.ofList text) = (Integer.ofChars? text).isSome := by
  rw [accepts_primitive h, Primitive.accepts, Integer.ofText?_eq, String.toList_ofList]
  simp

theorem accepts_endsOn (h : r.get ty = .primitive .str [.endsOn c]) (text : List Char) :
    r.accepts ty (.ofList text) ↔ c ∉ text := by
  rw [accepts_primitive h, Primitive.accepts]
  simp [Constraint.holds]

theorem length_of_accepts {size : Nat} (h : r.get ty = .primitive base [.sizeEq size])
    (haccepts : r.accepts ty (.ofList text)) : text.length = size := by
  rw [accepts_primitive h] at haccepts
  simpa [Constraint.holds] using (Bool.and_eq_true_iff.mp haccepts).2

/-- A text is taken whole where each front of it that is a text of the type goes on in the text. -/
theorem takes_of_fronts (hne : text ≠ []) (hends : r.Ends ty text rest)
    (hfronts : ∀ front d back, text = front ++ d :: back → front ≠ [] → r.accepts ty (.ofList front) →
      r.accepts ty (.ofList (front ++ [d]))) : r.Takes ty [] text rest where
  nonempty := hne
  ends := hends
  shortest := by
    rintro front back rfl hfront hback ⟨haccepts, hstops⟩
    cases back with
    | nil => contradiction
    | cons d back => exact hstops d rfl (hfronts front d back rfl hfront haccepts)

theorem takes_number (h : r.get ty = .primitive .int []) (haccepts : r.accepts ty (.ofList text))
    (hrest : ∀ c, rest.head? = some c → ¬ c.isDigit) : r.Takes ty [] text rest := by
  have hnumber := haccepts
  rw [accepts_number h] at hnumber
  apply takes_of_fronts
  · rintro rfl
    contradiction
  · refine ⟨haccepts, fun c hc hlonger => hrest c hc ?_⟩
    rw [accepts_number h] at hlonger
    exact Integer.isDigit_of_isSome_ofChars? hlonger
  · rintro front d back rfl hfront -
    cases front with
    | nil => contradiction
    | cons c front =>
      rw [accepts_number h]
      exact Integer.isSome_ofChars?_front hnumber

theorem takes_endsOn (h : r.get ty = .primitive .str [.endsOn c]) (hne : text ≠ [])
    (haccepts : r.accepts ty (.ofList text)) (hrest : rest.head? = some c) : r.Takes ty [] text rest := by
  have hfree := (accepts_endsOn h text).mp haccepts
  apply takes_of_fronts hne
  · refine ⟨haccepts, fun d hd => ?_⟩
    rw [hrest, Option.some.injEq] at hd
    rw [accepts_endsOn h, hd]
    simp
  · rintro front d back rfl - -
    rw [accepts_endsOn h]
    simp only [List.mem_append, List.mem_cons, not_or] at hfree
    simp [hfree]

theorem takes_sizeEq {size : Nat} (h : r.get ty = .primitive base [.sizeEq size]) (hsize : 1 ≤ size)
    (haccepts : r.accepts ty (.ofList text)) : r.Takes ty [] text rest := by
  have hlength := length_of_accepts h haccepts
  apply takes_of_fronts
  · rintro rfl
    rw [List.length_nil] at hlength
    omega
  · refine ⟨haccepts, fun c hc hlonger => ?_⟩
    have := length_of_accepts h hlonger
    rw [List.length_append, List.length_singleton] at this
    omega
  · rintro front d back rfl - hshorter
    have := length_of_accepts h hshorter
    rw [List.length_append, List.length_cons] at hlength
    omega

end Registry

/-- What stands in a text for the segment, by the texts chosen for the fields. -/
def Segment.render (choice : String → String) : Segment → List Char
  | .literal text => text
  | .slot name _ => (choice name).toList

namespace Layout

def render (layout : Layout) (choice : String → String) : String :=
  .ofList (layout.segments.flatMap (·.render choice))

/-- What ends the text of each slot: for a number a character that is no digit, for a text that stops before a
character this character, and for a text of a given length its length. -/
inductive Printable (r : Registry) : List Segment → Prop
  | nil : Printable r []
  | literal {text : List Char} {rest : List Segment} (h : Printable r rest) :
      Printable r (.literal text :: rest)
  | number {name : String} {ty : Ty} {c : Char} {text : List Char} {rest : List Segment}
      (form : r.get ty = .primitive .int []) (behind : ¬ c.isDigit)
      (h : Printable r (.literal (c :: text) :: rest)) :
      Printable r (.slot name ty :: .literal (c :: text) :: rest)
  | upTo {name : String} {ty : Ty} {c : Char} {text : List Char} {rest : List Segment}
      (form : r.get ty = .primitive .str [.endsOn c]) (h : Printable r (.literal (c :: text) :: rest)) :
      Printable r (.slot name ty :: .literal (c :: text) :: rest)
  | sized {name : String} {ty : Ty} {base : Primitive} {size : Nat} {rest : List Segment}
      (form : r.get ty = .primitive base [.sizeEq size]) (pos : 1 ≤ size) (h : Printable r rest) :
      Printable r (.slot name ty :: rest)

/-- The choice has a text of its type for each slot, which is not empty where it stops before a character. -/
def Fills (r : Registry) (segments : List Segment) (choice : String → String) : Prop :=
  ∀ name ty, .slot name ty ∈ segments → r.accepts ty (choice name) ∧
    ∀ c, r.get ty = .primitive .str [.endsOn c] → choice name ≠ ""

/-- The texts chosen for the slots, in their order. -/
def chosen (choice : String → String) (segments : List Segment) : List (String × String) :=
  (segments.filterMap (·.slotName?)).map fun name => (name, choice name)

variable {r : Registry} {choice : String → String} {segments : List Segment}

theorem Fills.tail {segment : Segment} (h : Fills r (segment :: segments) choice) : Fills r segments choice :=
  fun name ty hmem => h name ty (List.mem_cons_of_mem _ hmem)

theorem reads_slot {n : Nat} {name : String} {ty : Ty} {input trailing : List Char}
    (htakes : r.Takes ty [] (choice name).toList input)
    (h : Reads r (n + (choice name).toList.length) segments input (.all (chosen choice segments) trailing)) :
    Reads r n (.slot name ty :: segments) ((choice name).toList ++ input)
      (.all (chosen choice (.slot name ty :: segments)) trailing) := by
  have hslot := @Reads.slot r n name ty _ _ _ _ htakes h
  rwa [String.ofList_toList] at hslot

/-- What was written is read, and nothing of what follows it. -/
theorem Printable.reads (h : Printable r segments) (hfills : Fills r segments choice) (n : Nat)
    (trailing : List Char) :
    Reads r n segments (segments.flatMap (·.render choice) ++ trailing)
      (.all (chosen choice segments) trailing) := by
  induction h generalizing n with
  | nil => exact .nil
  | literal h ih =>
    rw [List.flatMap_cons, List.append_assoc]
    exact .literal (ih hfills.tail _)
  | @number name ty c text rest form behind h ih =>
    obtain ⟨haccepts, -⟩ := hfills name ty List.mem_cons_self
    rw [List.flatMap_cons, List.append_assoc]
    refine reads_slot (Registry.takes_number form ?_ ?_) (ih hfills.tail _)
    · rwa [String.ofList_toList]
    · rintro d hd
      cases hd
      exact behind
  | @upTo name ty c text rest form h ih =>
    obtain ⟨haccepts, hne⟩ := hfills name ty List.mem_cons_self
    rw [List.flatMap_cons, List.append_assoc]
    refine reads_slot (Registry.takes_endsOn form ?_ ?_ rfl) (ih hfills.tail _)
    · simpa using hne c form
    · rwa [String.ofList_toList]
  | @sized name ty base size rest form pos h ih =>
    obtain ⟨haccepts, -⟩ := hfills name ty List.mem_cons_self
    rw [List.flatMap_cons, List.append_assoc]
    refine reads_slot (Registry.takes_sizeEq form pos ?_) (ih hfills.tail _)
    rwa [String.ofList_toList]

theorem eq_of_lastText_chosen {name text : String} (h : lastText (chosen choice segments) name = some text) :
    text = choice name := by
  obtain ⟨before, after, heq, -⟩ := List.lookup_eq_some_iff.mp h
  have hmem : (name, text) ∈ (chosen choice segments).reverse := by simp [heq]
  simp only [chosen, List.mem_reverse, List.mem_map] at hmem
  obtain ⟨other, -, heq⟩ := hmem
  cases heq
  rfl

end Layout

/-- The record whose fields are made of the texts chosen for them. -/
abbrev Registry.RecordFor (r : Registry) (product : Ty) (choice : String → String) (record : Value) : Prop :=
  r.RecordOf product (fun name => some (choice name)) record

namespace Layout

variable {r : Registry} {layout : Layout} {choice : String → String}

/-- A record that was written is matched, and made of the texts it was written with. -/
theorem Printable.record (hknown : layout.Known r) (h : Printable r layout.segments)
    (hfills : Fills r layout.segments choice) (trailing : List Char) :
    ∃ fields record, (Progress.start layout.segments).run r 0 ((layout.render choice).toList ++ trailing) =
        .ok (fields, trailing) ∧
      r.record layout.product fields = .ok record ∧ r.RecordFor layout.product choice record := by
  have hreads := h.reads hfills 0 trailing
  obtain ⟨fields, record, hrun, hrecord, declared, values, hdeclared, heq, hvalues⟩ := hreads.record hknown
  refine ⟨fields, record, by rwa [render, String.toList_ofList], hrecord, declared, values, hdeclared, heq,
    hvalues.imp fun field given => ?_⟩
  rintro ⟨hname, text, htext, hmake⟩
  cases eq_of_lastText_chosen htext
  exact ⟨hname, _, rfl, hmake⟩

theorem Printable.iterate (hknown : layout.Known r) (h : Printable r layout.segments)
    {choices : List (String → String)} (hfills : ∀ choice ∈ choices, Fills r layout.segments choice) :
    ∃ records, layout.iterate r (String.join (choices.map layout.render)).toList = (records, none) ∧
      List.Forall₂ (r.RecordFor layout.product) choices records := by
  induction choices with
  | nil => exact ⟨[], iterate_nil, .nil⟩
  | cons choice choices ih =>
    obtain ⟨records, hrest, hrecords⟩ := ih fun other hmem => hfills other (List.mem_cons_of_mem _ hmem)
    obtain ⟨fields, record, hrun, hrecord, hfor⟩ := h.record hknown (hfills choice List.mem_cons_self)
      (String.join (choices.map layout.render)).toList
    refine ⟨record :: records, ?_, .cons hfor hrecords⟩
    rw [List.map_cons, String.join_cons, String.toList_append, iterate_ok hrun hrecord, hrest]
    rfl

end Layout

/-- Reading undoes writing. What follows a record makes no difference to reading it alone, and records that
were written one after the other are read one after the other, in whatever chunks they come. -/
theorem Layout.read_render {s : Session} {layout : Layout} (h : layout.Known s.registry)
    (hprintable : Printable s.registry layout.segments) :
    (∀ choice trailing, Fills s.registry layout.segments choice →
      ∃ record, s.readRecord layout (layout.render choice ++ trailing) = .ok record ∧
        s.registry.RecordFor layout.product choice record) ∧
    ∀ choices chunks, (∀ choice ∈ choices, Fills s.registry layout.segments choice) →
      String.join chunks = String.join (choices.map layout.render) →
      ∃ pushed closed, s.pushAll (.start layout) chunks = (pushed, none) ∧ s.close pushed = (closed, none) ∧
        List.Forall₂ (s.registry.RecordFor layout.product) choices closed.records := by
  constructor
  · intro choice trailing hfills
    obtain ⟨fields, record, hrun, hrecord, hfor⟩ := hprintable.record h hfills trailing.toList
    rw [← String.toList_append] at hrun
    exact ⟨record, readRecord_of_run hrun hrecord, hfor⟩
  · intro choices chunks hfills hchunks
    obtain ⟨records, hiterate, hrecords⟩ := hprintable.iterate h hfills
    rw [← hchunks] at hiterate
    have hsound := Stream.sound_start h
    have hidle : (Stream.start layout).Idle := ⟨rfl, rfl⟩
    have hlayout : (Stream.start layout).layout = layout := rfl
    obtain ⟨hnone, hmade⟩ := Stream.drain_iterate hsound hidle (String.join chunks).toList
    rw [hlayout, hiterate] at hnone hmade
    rcases Stream.push_close_cases hsound hidle.held (String.join chunks) with
      ⟨pushed, expected, got, offset, -, -, hdrain⟩ | ⟨pushed, closed, onClose, hpush, hclose, -, hdrain⟩
    · rw [hdrain] at hnone
      contradiction
    · rw [hdrain] at hnone hmade
      have honClose : onClose = none := hnone
      have hclosed : closed.records = records := hmade
      subst honClose hclosed
      refine ⟨pushed, closed, ?_, ?_, hrecords⟩
      · rw [Session.pushAll_eq, Stream.pushAll_eq hidle.steady hsound, hpush, Stream.handOver]
      · rw [Session.close, hclose, Stream.handOver]

def Layout.entryChoice (text : String) (name : String) : String :=
  if name = "n" then "-007" else if name = "text" then text else "+7"

/-- Two entries in chunks that cut the number of each. -/
theorem Layout.read_render_entries :
    ∃ pushed closed,
      (entrySession .raise).pushAll (.start entryLayout) ["-0", "07,a;+7-007", ",b c;+7"] = (pushed, none) ∧
      (entrySession .raise).close pushed = (closed, none) ∧
      List.Forall₂ (entryRegistry.RecordFor ⟨5⟩) [entryChoice "a", entryChoice "b c"] closed.records := by
  have hprintable : Printable entryRegistry entryLayout.segments :=
    .number rfl (by decide) (.literal (.upTo rfl (.literal (.sized rfl (by decide) .nil))))
  have hfills : ∀ choice ∈ [entryChoice "a", entryChoice "b c"],
      Fills entryRegistry entryLayout.segments choice := by
    intro choice hchoice name ty hslot
    simp only [entryLayout, List.mem_cons, List.not_mem_nil, reduceCtorEq, or_false, false_or,
      Segment.slot.injEq] at hchoice hslot
    rcases hchoice with rfl | rfl <;> rcases hslot with ⟨rfl, rfl⟩ | ⟨rfl, rfl⟩ | ⟨rfl, rfl⟩ <;>
      exact ⟨rfl, fun c hc => by decide⟩
  exact (read_render (s := entrySession .raise) known_entryLayout hprintable).2 _ _ hfills rfl

end TypeAlgebra
