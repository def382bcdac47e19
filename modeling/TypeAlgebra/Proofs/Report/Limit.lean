import TypeAlgebra.Proofs.Report.Lines

/-! Reports under a limit. A run is handed all records of its stream after every line, and prints those that it has
not printed yet, so that it prints each once and in order. A limit only cuts the report off: what is printed under it
is the front of what is printed under a later one. -/
namespace TypeAlgebra

/-- The values that reading lines one by one and ending the text come to: records, and failures that were passed on. -/
def Session.valuesOf (s : Session) (layout : Layout) (lines : List String) : List Value :=
  (s.close (s.feed (.start layout) lines)).1.records

/-- No failure is raised for one of the lines, nor where the text ends. -/
def Session.Unbroken (s : Session) (st : Stream) : List String → Prop
  | [] => (s.close st).2 = none
  | line :: rest => (s.push st line).2 = none ∧ s.Unbroken (s.push st line).1 rest

instance instDecidableUnbroken (s : Session) : (st : Stream) → (lines : List String) → Decidable (s.Unbroken st lines)
  | st, [] => inferInstanceAs (Decidable ((s.close st).2 = none))
  | st, line :: rest =>
    have := instDecidableUnbroken s (s.push st line).1 rest
    inferInstanceAs (Decidable ((s.push st line).2 = none ∧ s.Unbroken (s.push st line).1 rest))

namespace Count

/-- Values are counted by their kind. -/
theorem foldl_add (values : List Value) (count : Count) :
    values.foldl add count =
      ⟨count.records + values.countP (!·.isFailure), count.failures + values.countP (·.isFailure)⟩ := by
  induction values generalizing count with
  | nil => rfl
  | cons value rest ih =>
    rw [List.foldl_cons, ih, add, List.countP_cons, List.countP_cons]
    cases value.isFailure <;> simp <;> omega

end Count

namespace Run

variable {s : Session} {r : Registry} {st : Stream} {limit : Option Nat} {values : List Value}

theorem unbroken_of_pass (hs : s.policy = .pass) (st : Stream) (lines : List String) : s.Unbroken st lines := by
  induction lines generalizing st with
  | nil => exact congrArg Prod.snd (close_pass hs st)
  | cons line rest ih => exact ⟨congrArg Prod.snd (push_pass hs st line), ih _⟩

/-- Once the limit is reached, what a stream adds is not allowed any more. -/
theorem allowed_of_reached (hreached : (shown limit r st).count.reached limit) (h : st.records <+: values) :
    allowed limit values = allowed limit st.records := by
  obtain ⟨fresh, rfl⟩ := h
  rw [Count.reached, total_shown] at hreached
  cases limit with
  | none => contradiction
  | some limit =>
    have hlimit : limit ≤ st.records.length := by
      simp only [Option.any_some, allowed, List.length_take, decide_eq_true_eq] at hreached
      omega
    exact List.take_append_of_le_length hlimit

/-- A run goes on to the end of the lines, or stops behind one of them because the limit is reached. -/
theorem follow_unbroken (limit : Option Nat) {lines : List String} (h : s.Unbroken st lines) (number : Nat) :
    ∃ fed, follow s limit (shown limit s.registry st) number (lines.map .ok) = (shown limit s.registry fed, none) ∧
      (s.close (s.feed st lines)).2 = none ∧
      (fed = s.feed st lines ∨
        (shown limit s.registry fed).count.reached limit ∧ fed.records <+: (s.feed st lines).records) := by
  induction lines generalizing st number with
  | nil => exact ⟨st, rfl, h, .inl rfl⟩
  | cons line rest ih =>
    obtain ⟨hpush, hrest⟩ := h
    have hnext : s.push st line = ((s.push st line).1, none) := Prod.ext rfl hpush
    obtain ⟨fed, hfollow, hclose, hfed⟩ := ih hrest (number + 1)
    rw [List.map_cons, follow_shown limit hnext]
    split
    · rename_i hreached
      exact ⟨(s.push st line).1, rfl, hclose, .inr ⟨hreached, records_feed s (s.push st line).1 rest⟩⟩
    · exact ⟨fed, hfollow, hclose, hfed⟩

/-- Under a limit a run prints the first of all values that it would come to. -/
theorem overLines_unbroken {layout : Layout} {lines : List String} (h : s.Unbroken (.start layout) lines)
    (limit : Option Nat) :
    overLines s layout limit (lines.map .ok) = finished s.registry (allowed limit (s.valuesOf layout lines)) := by
  obtain ⟨fed, hfollow, hclose, hfed⟩ := follow_unbroken limit h 1
  have hclosed : s.close (s.feed (.start layout) lines) = ((s.close (s.feed (.start layout) lines)).1, none) :=
    Prod.ext rfl hclose
  have hlast := records_sessionClose s (s.feed (.start layout) lines)
  have hstart : start layout = shown limit s.registry (.start layout) := by
    cases limit <;> simp [shown, start, allowed, Stream.start]
  rw [overLines, hstart, hfollow]
  dsimp only
  by_cases hreached : (shown limit s.registry fed).count.reached limit
  · have hrecords : fed.records <+: s.valuesOf layout lines := by
      rcases hfed with rfl | ⟨-, hfront⟩
      · exact hlast
      · exact hfront.trans hlast
    rw [close, if_pos hreached, finished, allowed_of_reached hreached hrecords]
    rfl
  · obtain rfl : fed = s.feed (.start layout) lines := hfed.resolve_right fun hstopped => hreached hstopped.1
    rw [close_shown limit hreached hclosed]
    rfl

end Run

namespace Line

def outputText? : Line → Option String
  | .output text => some text
  | .notice .. => none

def warning? : Line → Option String
  | .notice .warning message => some message
  | _ => none

end Line

namespace Report

open Run (allowed finished valueLine)

/-- The messages of the warnings before the summary. -/
def warnings (report : Report) : List String := report.lines.dropLast.filterMap (·.warning?)

/-- The first limit stops a run no later than the second. -/
def Within (limit limit' : Option Nat) : Prop := ∀ m ∈ limit', ∃ n ∈ limit, n ≤ m

theorem withEnds_append (front back : List String) : withEnds (front ++ back) = withEnds front ++ withEnds back := by
  unfold withEnds
  induction front with
  | nil => simp
  | cons line rest ih => simp only [List.cons_append, List.map_cons, String.join_cons, ih, String.append_assoc]

theorem outputText?_valueLine (r : Registry) (value : Value) :
    (valueLine r value).outputText? = if value.isFailure then none else some (value.display r) := by
  rw [Value.isFailure, valueLine]
  cases value.failure? <;> rfl

theorem stdout_finished (r : Registry) (values : List Value) :
    (finished r values).stdout = withEnds ((values.filter (!·.isFailure)).map (·.display r)) := by
  have hvalues : (values.map (valueLine r)).filterMap Line.outputText? =
      (values.filter (!·.isFailure)).map (·.display r) := by
    induction values with
    | nil => rfl
    | cons value values ih =>
      rw [List.map_cons, List.filterMap_cons, outputText?_valueLine, ih, List.filter_cons]
      cases value.isFailure <;> rfl
  have hstdout : (finished r values).stdout =
      withEnds ((values.map (valueLine r) ++ [(values.foldl Count.add {}).summary] ++ []).filterMap Line.outputText?) := rfl
  rw [hstdout, List.append_nil, List.filterMap_append, hvalues]
  exact congrArg withEnds (List.append_nil _)

theorem warnings_finished (r : Registry) (values : List Value) :
    (finished r values).warnings = (values.filterMap (·.failure?)).map (·.message) := by
  rw [warnings, finished, List.dropLast_concat]
  induction values with
  | nil => rfl
  | cons value values ih =>
    rw [List.map_cons, List.filterMap_cons, ih, List.filterMap_cons, valueLine]
    cases value.failure? <;> rfl

theorem allowed_prefix {limit limit' : Option Nat} (h : Within limit limit') (values : List Value) :
    allowed limit values <+: allowed limit' values := by
  cases limit' with
  | none =>
    cases limit with
    | none => exact List.prefix_rfl
    | some n => exact List.take_prefix n values
  | some m =>
    obtain ⟨n, rfl, hle⟩ := h m rfl
    exact List.take_prefix_take_left hle

/-- The line that tells of a value: a record is output, a failure a warning. -/
def told (r : Registry) (value : Value) : Line :=
  value.failure?.elim (.output (value.display r)) fun failure => .notice .warning failure.message

/-- The line that tells how many records and failures there were. -/
def counts (records failures : Nat) : Line :=
  .notice (if failures = 0 then .success else .warning) s!"{records} records parsed, {failures} failed"

/-- How reports under limits tell of values. -/
structure TellsFirst (reports : Option Nat → Report) (r : Registry) (values : List Value) : Prop where
  /-- The first values have one line each, in order. Behind them stands how many there were of each kind. -/
  lines : ∀ limit, (reports limit).lines = (allowed limit values).map (told r) ++
    [counts ((allowed limit values).countP (!·.isFailure)) ((allowed limit values).countP (·.isFailure))]
  stdout : ∀ limit, (reports limit).stdout =
    withEnds (((allowed limit values).filter (!·.isFailure)).map (·.display r))
  warnings : ∀ limit, (reports limit).warnings = ((allowed limit values).filterMap (·.failure?)).map (·.message)
  exitCode : ∀ limit, (reports limit).exitCode = 0
  /-- A limit only cuts off. -/
  cut : ∀ {limit limit'}, Within limit limit' →
    (∃ more, (reports limit').stdout = (reports limit).stdout ++ more) ∧
      (reports limit).warnings <+: (reports limit').warnings

theorem valueLine_eq (r : Registry) (value : Value) : valueLine r value = told r value := by
  rw [valueLine, told]
  cases value.failure? <;> rfl

theorem summary_eq (count : Count) : count.summary = counts count.records count.failures := by
  unfold Count.summary counts
  by_cases hnone : count.failures = 0
  · rw [if_pos hnone, if_neg (by omega)]
  · rw [if_neg hnone, if_pos (by omega)]

theorem lines_finished (r : Registry) (values : List Value) :
    (finished r values).lines =
      values.map (told r) ++ [counts (values.countP (!·.isFailure)) (values.countP (·.isFailure))] := by
  rw [finished, Count.foldl_add, summary_eq, Nat.zero_add, Nat.zero_add, funext (valueLine_eq r)]

theorem tellsFirst_finished (r : Registry) (values : List Value) :
    TellsFirst (fun limit => finished r (allowed limit values)) r values where
  lines limit := lines_finished r _
  stdout limit := stdout_finished r _
  warnings limit := warnings_finished r _
  exitCode limit := rfl
  cut := by
    intro limit limit' hwithin
    have hfront := allowed_prefix hwithin values
    constructor
    · obtain ⟨rest, hrest⟩ := (hfront.filter (!·.isFailure)).map (·.display r)
      refine ⟨withEnds rest, ?_⟩
      rw [stdout_finished, stdout_finished, ← hrest, withEnds_append]
    · rw [warnings_finished, warnings_finished]
      exact (hfront.filterMap (·.failure?)).map (·.message)

/-- A limit leaves of the report on a file just the first values that the whole file comes to. Where failures are
raised, this is so if there are none. -/
theorem ofRecords_tellsFirst {files : Opener} {path input text : String} {policy : Option Policy}
    {blueprint : Blueprint} {setup : Setup} (hfile : Blueprint.ofFile files path = .ok blueprint)
    (hsetup : Setup.ofBlueprint blueprint policy = .ok setup) (hinput : files input = .ok (.ok text.toUTF8))
    (hraise : setup.session.policy = .raise → setup.session.Unbroken (.start setup.layout) (File.linesOf text)) :
    TellsFirst (ofRecords files path input policy) setup.session.registry
      (setup.session.valuesOf setup.layout (File.linesOf text)) := by
  have hunbroken : setup.session.Unbroken (.start setup.layout) (File.linesOf text) := by
    cases hpolicy : setup.session.policy with
    | raise => exact hraise hpolicy
    | pass => exact Run.unbroken_of_pass hpolicy _ _
  have hreports : ofRecords files path input policy =
      fun limit => finished setup.session.registry
        (allowed limit (setup.session.valuesOf setup.layout (File.linesOf text))) := by
    funext limit
    rw [ofRecords, hfile]
    simp only [bind, hsetup, Except.mapError, hinput, File.lines_toUTF8]
    exact Run.overLines_unbroken hunbroken limit
  rw [hreports]
  exact tellsFirst_finished _ _

/-- Two of three lines are told of and counted where failures are passed on, one of them by a warning, and where they
are raised and there are none. -/
theorem ofRecords_tellsFirst_numbers :
    ((ofRecords (numbersFiles "5;\n6,\n7;\n") "numbers.toml" "numbers.txt" (some .pass) (some 2)).lines =
        [.output "[5 : int] : entry",
          .notice .warning "failed to match text delimiter: expected ';' but got ',' at offset 4",
          .notice .warning "1 records parsed, 1 failed"] ∧
      (ofRecords (numbersFiles "5;\n6,\n7;\n") "numbers.toml" "numbers.txt" (some .pass) (some 2)).exitCode = 0) ∧
    (ofRecords (numbersFiles "5;\n6;\n7;\n") "numbers.toml" "numbers.txt" (some .raise) (some 2)).lines =
      [.output "[5 : int] : entry", .output "[6 : int] : entry", .notice .success "2 records parsed, 0 failed"] := by
  have hpass : ∃ setup ∈ (Setup.ofBlueprint numbers (some .pass)).toOption, setup.session.policy = .pass ∧
      (let first := allowed (some 2) (setup.session.valuesOf setup.layout (File.linesOf "5;\n6,\n7;\n"))
      first.map (told setup.session.registry) ++ [counts (first.countP (!·.isFailure)) (first.countP (·.isFailure))]) =
        [.output "[5 : int] : entry",
          .notice .warning "failed to match text delimiter: expected ';' but got ',' at offset 4",
          .notice .warning "1 records parsed, 1 failed"] := by decide +kernel
  have hraise : ∃ setup ∈ (Setup.ofBlueprint numbers (some .raise)).toOption,
      setup.session.Unbroken (.start setup.layout) (File.linesOf "5;\n6;\n7;\n") ∧
      (let first := allowed (some 2) (setup.session.valuesOf setup.layout (File.linesOf "5;\n6;\n7;\n"))
      first.map (told setup.session.registry) ++ [counts (first.countP (!·.isFailure)) (first.countP (·.isFailure))]) =
        [.output "[5 : int] : entry", .output "[6 : int] : entry", .notice .success "2 records parsed, 0 failed"] := by
    decide +kernel
  obtain ⟨passing, hpassing, hpolicy, hpassed⟩ := hpass
  obtain ⟨raising, hraising, hunbroken, hraised⟩ := hraise
  have htells := ofRecords_tellsFirst (ofFile_numbers _) (eq_ok_of_mem hpassing) (numbersFiles_input "5;\n6,\n7;\n")
    fun h => nomatch hpolicy.symm.trans h
  have htellsRaised := ofRecords_tellsFirst (ofFile_numbers _) (eq_ok_of_mem hraising)
    (numbersFiles_input "5;\n6;\n7;\n") fun _ => hunbroken
  exact ⟨⟨(htells.lines (some 2)).trans hpassed, htells.exitCode (some 2)⟩,
    (htellsRaised.lines (some 2)).trans hraised⟩

end Report
end TypeAlgebra
