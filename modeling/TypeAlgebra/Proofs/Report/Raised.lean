import TypeAlgebra.Proofs.Report.Lines

/-! What a run prints that raises failures, beside one that passes them on. Up to the line that fails they print the
same. Of that line the one prints nothing: the failure is raised before the records are printed that the line has
completed by then. -/
namespace TypeAlgebra

def Line.isOutput : Line → Bool
  | .output _ => true
  | .notice .. => false

namespace Report

/-- The lines of output. -/
def outputs (report : Report) : List Line := report.lines.filter (·.isOutput)

/-- The lines of output before the first failure that was passed on, and before the summary. -/
def opening (report : Report) : List Line := report.lines.takeWhile (·.isOutput)

end Report

namespace Stream

variable {r : Registry} {st closed : Stream}

/-- The records that the first line to fail has completed by then. -/
def cutOff (r : Registry) (st : Stream) : List String → List Value
  | [] => []
  | line :: rest =>
    match st.push r line with
    | (failed, some _) => failed.records.drop st.records.length
    | (next, none) => cutOff r next rest

/-- The character held back completes a record, or leaves the records as they are. -/
theorem Sound.records_flush (h : st.Sound r) (hbegun : (st.flush r).1.progress.begun) :
    (st.flush r).1.records = st.records := by
  have hempty : ({ st with held := none } : Stream).Sound r := ⟨h.known, h.progress⟩
  unfold Stream.flush at hbegun ⊢
  split
  · rename_i c hheld
    have ht := hempty.take c none
    rw [hheld] at hbegun
    dsimp only at hbegun
    generalize ({ st with held := none } : Stream).take r c none = result at ht hbegun ⊢
    cases ht with
    | pending step begun sound => rfl
    | complete step made =>
      have hstart : (Progress.start st.layout.segments).begun := hbegun
      simp [Progress.begun, Progress.start] at hstart
    | mismatch step => rfl
  · rfl

/-- Where the text ends inside a record, none is completed. -/
theorem records_of_close_failed (h : st.Sound r) (hsteady : st.Steady) {failure : Failure}
    (hclose : st.close r = (closed, some failure)) : closed.records = st.records := by
  have hrecords := h.records_flush
  obtain ⟨-, -, hnone⟩ := h.flush hsteady
  unfold Stream.close at hclose
  cases hresult : st.flush r with
  | mk flushed raised =>
    rw [hresult] at hclose hrecords hnone
    cases hnone
    dsimp only at hclose hrecords
    split at hclose
    · rename_i hbegun
      cases hclose
      exact hrecords hbegun
    · cases hclose

end Stream

namespace Run

variable {s : Session} {r : Registry} {st next : Stream} {values : List Value} {line : String}

theorem outputs_of_clean (h : ∀ value ∈ values, value.failure? = none) :
    ∀ line ∈ values.map (valueLine r), line.isOutput := by
  intro line hline
  obtain ⟨value, hvalue, rfl⟩ := List.mem_map.mp hline
  rw [valueLine, h value hvalue]
  rfl

/-- The output that stands before a failure, or before the summary. -/
theorem opening_finished (h : ∀ value ∈ values, value.failure? = none) (rest : List Value)
    (hrest : rest = [] ∨ ∃ failure more, rest = .failure failure :: more) :
    (finished r (values ++ rest)).opening = values.map (valueLine r) := by
  have houtputs := outputs_of_clean (r := r) h
  rw [Report.opening, finished, List.map_append, List.append_assoc, List.takeWhile_append_of_pos houtputs]
  rcases hrest with rfl | ⟨failure, more, rfl⟩
  · simp [Count.summary, Line.isOutput]
  · simp [valueLine, Value.failure?, Line.isOutput]

theorem outputs_failed (h : st.Clean) (message : String) :
    Report.outputs ⟨(upTo r st).lines, some message⟩ = st.records.map (valueLine r) :=
  List.filter_eq_self.mpr (outputs_of_clean h)

theorem outputs_finished (h : ∀ value ∈ values, value.failure? = none) :
    (finished r values).outputs = values.map (valueLine r) := by
  have hvalues : (values.map (valueLine r)).filter (·.isOutput) = values.map (valueLine r) :=
    List.filter_eq_self.mpr (outputs_of_clean h)
  rw [Report.outputs, finished, List.filter_append, hvalues]
  simp [Count.summary, Line.isOutput]

/-- A run that passes failures on goes on with a failure behind the records there are. -/
theorem opening_of_failed {fed : Stream} (hclean : st.Clean) {failure : Failure}
    (hfed : fed.records = st.records ++ [.failure failure]) (lines : List String) :
    (finished s.registry (s.close (s.feed fed lines)).1.records).opening = st.records.map (valueLine s.registry) := by
  obtain ⟨more, hmore⟩ := (records_feed s fed lines).trans (records_sessionClose s _)
  rw [← hmore, hfed, List.append_assoc]
  exact opening_finished hclean _ (.inr ⟨failure, more, rfl⟩)

theorem push_under (policy : Policy) (hpush : st.push s.registry line = (next, none)) :
    (s.under policy).push st line = (next, none) := by
  rw [Session.push, Session.registry_under, hpush, Stream.handOver]

theorem close_under (policy : Policy) (hclose : st.close s.registry = (next, none)) :
    (s.under policy).close st = (next, none) := by
  rw [Session.close, Session.registry_under, hclose, Stream.handOver]

theorem push_raised {failure : Failure} (hpush : st.push s.registry line = (next, some failure)) :
    (s.under .raise).push st line = (next, some failure) := by
  rw [Session.push, Session.registry_under, hpush]
  rfl

theorem push_passed {failure : Failure} (hpush : st.push s.registry line = (next, some failure)) :
    ((s.under .pass).push st line).1.records = next.records ++ [.failure failure] := by
  rw [Session.push, Session.registry_under, hpush]
  rfl

theorem close_raised {failure : Failure} (hclose : st.close s.registry = (next, some failure)) :
    (s.under .raise).close st = (next, some failure) := by
  rw [Session.close, Session.registry_under, hclose]
  rfl

/-- At the end of the lines both runs print the records there are. -/
theorem conclude_raise_end (h : st.Sound s.registry) (hsteady : st.Steady) (hclean : st.Clean) :
    (finished s.registry ((s.under .pass).close st).1.records).opening =
      (conclude (s.under .raise) (upTo s.registry st, none)).outputs := by
  have hregistry : (s.under .raise).registry = s.registry := rfl
  have hclosed := hclean.close (r := s.registry)
  cases hclose : st.close s.registry with
  | mk closed failure =>
    rw [hclose] at hclosed
    cases failure with
    | none =>
      have hopening := opening_finished (r := s.registry) hclosed [] (.inl rfl)
      rw [List.append_nil] at hopening
      rw [close_under .pass hclose, hopening, conclude, ← hregistry, close_upTo (close_under .raise hclose)]
      exact (outputs_finished hclosed).symm
    | some failure =>
      have hrecords := Stream.records_of_close_failed h hsteady hclose
      rw [Stream.close_passed (s := s.under .pass) rfl hclose,
        opening_finished hclosed _ (.inr ⟨failure, [], rfl⟩), conclude, ← hregistry,
        close_failed (close_raised hclose), hrecords]
      exact (outputs_failed hclean _).symm

/-- Where a line fails, what it has completed by then is printed only if the failure is passed on. -/
theorem conclude_raise_failed (hclean : st.Clean) {failure : Failure}
    (hpush : st.push s.registry line = (next, some failure)) (number : Nat) (rest : List String) :
    (finished s.registry
      ((s.under .pass).close ((s.under .pass).feed ((s.under .pass).push st line).1 rest)).1.records).opening =
      (conclude (s.under .raise)
        (follow (s.under .raise) none (upTo s.registry st) number (.ok line :: rest.map .ok))).outputs ++
        (next.records.drop st.records.length).map (valueLine s.registry) := by
  have hregistry : (s.under .raise).registry = s.registry := rfl
  have hpushed := hclean.push (r := s.registry) line
  obtain ⟨fresh, hfresh⟩ := (Stream.adds_push s.registry st line).records
  rw [hpush] at hpushed hfresh
  have hopening := opening_of_failed (s := s.under .pass) hpushed (push_passed hpush) rest
  rw [Session.registry_under] at hopening
  have hdrop : next.records.drop st.records.length = fresh := by rw [← hfresh, List.drop_left]
  rw [hopening, ← hregistry, follow_failed (push_raised hpush), conclude, hregistry, outputs_failed hclean, hdrop,
    ← hfresh, List.map_append]

/-- Two runs from one stream on, the one raising failures and the other passing them on. -/
theorem conclude_raise (h : st.Sound s.registry) (hsteady : st.Steady) (hclean : st.Clean) (number : Nat)
    (lines : List String) :
    (finished s.registry ((s.under .pass).close ((s.under .pass).feed st lines)).1.records).opening =
      (conclude (s.under .raise)
        (follow (s.under .raise) none (upTo s.registry st) number (lines.map .ok))).outputs ++
        (Stream.cutOff s.registry st lines).map (valueLine s.registry) := by
  have hregistry : (s.under .raise).registry = s.registry := rfl
  induction lines generalizing st number with
  | nil =>
    rw [Session.feed, List.foldl_nil, List.map_nil, follow, Stream.cutOff, List.map_nil, List.append_nil]
    exact conclude_raise_end h hsteady hclean
  | cons line rest ih =>
    have hpushed := hclean.push (r := s.registry) line
    have hfed := h.push line
    rw [Session.feed, List.foldl_cons, ← Session.feed, List.map_cons, Stream.cutOff]
    cases hpush : st.push s.registry line with
    | mk next failure =>
      rw [hpush] at hpushed hfed
      cases failure with
      | none =>
        rw [push_under .pass hpush, ← hregistry, follow_cons (push_under .raise hpush), hregistry]
        exact ih hfed.sound hfed.steady hpushed (number + 1)
      | some failure => exact conclude_raise_failed hclean hpush number rest

end Run

namespace Report

/-- Without a limit, passing failures on prints before the first of them what raising failures prints at all, and
then the records that the line to fail has completed by then. These are lost where failures are raised. -/
theorem ofRecords_raise {files : Opener} {path input text : String} {blueprint : Blueprint} {setup : Setup}
    (hfile : Blueprint.ofFile files path = .ok blueprint) (hsetup : Setup.ofBlueprint blueprint (some .raise) = .ok setup)
    (hinput : files input = .ok (.ok text.toUTF8)) :
    (ofRecords files path input (some .pass) none).opening = (ofRecords files path input (some .raise) none).outputs ++
      (Stream.cutOff setup.session.registry (.start setup.layout) (File.linesOf text)).map
        (Run.valueLine setup.session.registry) := by
  have hknown := Setup.known_of_ok hsetup
  have hreport (policy : Policy) : ofRecords files path input (some policy) none = Run.conclude (setup.session.under policy)
      (Run.follow (setup.session.under policy) none (Run.upTo setup.session.registry (.start setup.layout)) 1
        ((File.linesOf text).map .ok)) := by
    rw [ofRecords, hfile]
    simp only [bind, Setup.ofBlueprint_under hsetup, Except.mapError, hinput, File.lines_toUTF8]
    exact Run.overLines_eq_conclude ..
  have hpass := Run.conclude_pass (s := setup.session.under .pass) rfl (.start setup.layout) 1 (File.linesOf text)
  rw [Session.registry_under] at hpass
  rw [hreport, hreport, hpass]
  exact Run.conclude_raise (Stream.sound_start hknown) (by simp [Stream.Steady, Stream.start]) (Stream.clean_start _) 1 _

/-- Numbers, each before a semicolon. -/
def items : Blueprint where
  record := "item"
  layout := "$n$;"
  fields := [("n", "int")]

def itemsText : String := "[record]\nname = 'item'\nformat = '$n$;'\n[[fields]]\nname = 'n'\ntype = 'int'\n"

/-- The second item of the line is followed by something else. -/
def itemsFiles : Opener := fun path => .ok (.ok (if path = "items.toml" then itemsText else "1;2x;\n").toUTF8)

theorem itemsFiles_input : itemsFiles "items.txt" = .ok (.ok "1;2x;\n".toUTF8) := by
  rw [itemsFiles, if_neg (by decide)]

theorem ofRecords_raise_items : Blueprint.ofFile itemsFiles "items.toml" = .ok items ∧
    (∃ setup, Setup.ofBlueprint items (some .raise) = .ok setup) ∧
    (ofRecords itemsFiles "items.toml" "items.txt" (some .pass) none).opening =
      (ofRecords itemsFiles "items.toml" "items.txt" (some .raise) none).outputs ++ [.output "[1 : int] : item"] := by
  have hfile : Blueprint.ofFile itemsFiles "items.toml" = .ok items := eq_ok_of_mem (by decide +kernel)
  have hitems : ∃ setup ∈ (Setup.ofBlueprint items (some .raise)).toOption,
      (Stream.cutOff setup.session.registry (.start setup.layout) (File.linesOf "1;2x;\n")).map
        (Run.valueLine setup.session.registry) = [.output "[1 : int] : item"] := by decide +kernel
  obtain ⟨setup, hsetup, hcutOff⟩ := hitems
  have hraise := ofRecords_raise hfile (eq_ok_of_mem hsetup) itemsFiles_input
  rw [hcutOff] at hraise
  exact ⟨hfile, ⟨setup, eq_ok_of_mem hsetup⟩, hraise⟩

/-- Raising failures does not print all records that are completed before the first of them. -/
theorem outputs_ne_opening : ¬ ∀ (files : Opener) (path input text : String), files input = .ok (.ok text.toUTF8) →
    (ofRecords files path input (some .raise) none).outputs = (ofRecords files path input (some .pass) none).opening := by
  intro h
  have hsame := h itemsFiles "items.toml" "items.txt" "1;2x;\n" itemsFiles_input
  revert hsame
  decide +kernel

end Report
end TypeAlgebra
