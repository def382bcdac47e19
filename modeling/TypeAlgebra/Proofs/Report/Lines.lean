import TypeAlgebra.Proofs.Report.Run
import TypeAlgebra.Proofs.Setup.Prepared
import TypeAlgebra.Proofs.Stream.Rendering

/-! Reports on files whose records are lines, where failures are passed on. A line that differs from a literal costs
no other line its record. A line that ends inside a record costs all lines behind it theirs: a slot is never given
up, and waits for its text to the end of the file. -/
namespace TypeAlgebra

theorem Layout.failure?_of_readRecord {r : Registry} {layout : Layout} {text : String} {record : Value}
    (h : layout.readRecord r text = .ok record) : record.failure? = none := by
  unfold readRecord at h
  split at h
  · contradiction
  · exact Registry.failure?_of_record h

namespace Report

variable {r : Registry} {layout : Layout} {lines : List String}

/-- How a report tells of lines: each of them has a line of the report up to the first that ends inside a record,
which has the last one before the summary. -/
structure TellsLines (report : Report) (r : Registry) (layout : Layout) (lines : List String) : Prop where
  failure : report.failure = none
  record : ∀ {before line after record}, lines = before ++ line :: after →
    (∀ earlier ∈ before, ¬ layout.EndsInside r earlier) → layout.readRecord r line = .ok record →
      report.lines[before.length]? = some (.output (record.display r))
  mismatch : ∀ {before line after expected got offset}, lines = before ++ line :: after →
    (∀ earlier ∈ before, ¬ layout.EndsInside r earlier) →
    layout.readRecord r line = .error (.literalMismatch expected got offset) →
      ∃ place, report.lines[before.length]? =
        some (.notice .warning (Failure.literalMismatch expected got place).message)
  inside : ∀ {before line after awaited}, lines = before ++ line :: after →
    (∀ earlier ∈ before, ¬ layout.EndsInside r earlier) →
    layout.readRecord r line = .error (.unexpectedEnd awaited) →
      ∃ count : Count, report.lines.drop before.length =
        [.notice .warning (Failure.unexpectedEnd awaited).message, count.summary]
  complete : (∀ line ∈ lines, ¬ layout.EndsInside r line) → report.lines.length = lines.length + 1

/-- A report on the values of lines read one by one tells of the lines. -/
theorem tellsLines_finished (h : layout.Known r) (lines : List String) :
    (Run.finished r (layout.readLines r 0 lines)).TellsLines r layout lines where
  failure := rfl
  record := by
    intro before line after record hlines hbefore hread
    obtain ⟨values, later, hlength, hrest⟩ := Layout.readLines_append h hbefore 0
    rw [hlines, hrest, ← hlength, Layout.readLines, hread]
    simp [Run.finished, Run.valueLine, Layout.failure?_of_readRecord hread]
  mismatch := by
    intro before line after expected got offset hlines hbefore hread
    obtain ⟨values, later, hlength, hrest⟩ := Layout.readLines_append h hbefore 0
    rw [hlines, hrest, ← hlength, Layout.readLines, hread]
    exact ⟨later + offset, by simp [Run.finished, Run.valueLine, Value.failure?]⟩
  inside := by
    intro before line after awaited hlines hbefore hread
    obtain ⟨values, later, hlength, hrest⟩ := Layout.readLines_append h hbefore 0
    rw [hlines, hrest, ← hlength, Layout.readLines, hread]
    exact ⟨(values ++ [Value.failure (.unexpectedEnd awaited)]).foldl Count.add {},
      by simp [Run.finished, Run.valueLine, Value.failure?]⟩
  complete := by
    intro hlines
    obtain ⟨values, later, hlength, hrest⟩ := Layout.readLines_append h hlines 0
    have hall := hrest []
    rw [List.append_nil, Layout.readLines, List.append_nil] at hall
    rw [hall, ← hlength]
    simp [Run.finished]

theorem ofRecords_tellsLines {files : Opener} {path input text : String} {policy : Option Policy}
    {blueprint : Blueprint} {setup : Setup} {format : List Char}
    (hfile : Blueprint.ofFile files path = .ok blueprint) (hsetup : Setup.ofBlueprint blueprint policy = .ok setup)
    (hpolicy : setup.session.policy = .pass) (hlayout : blueprint.layout.toList = format ++ ['\n'])
    (hformat : '\n' ∉ format)
    (hslots : ∀ name ty, .slot name ty ∈ setup.layout.segments → ∀ text : String, '\n' ∈ text.toList →
      ¬ setup.session.registry.accepts ty text)
    (hinput : files input = .ok (.ok text.toUTF8)) :
    (ofRecords files path input policy none).TellsLines setup.session.registry setup.layout (File.linesOf text) := by
  have hknown := Setup.known_of_ok hsetup
  have hone : setup.layout.OneLine setup.session.registry :=
    ⟨hknown, Layout.endsLine_of_ofText (Setup.ofText_of_ok hsetup) hlayout hformat, fun hslot => hslots _ _ hslot _⟩
  have hidle : (Stream.start setup.layout).Idle := ⟨rfl, rfl⟩
  have hvalues := Stream.close_feed hpolicy hone (Stream.sound_start hknown) hidle (File.lined_textLines text.toList)
  rw [ofRecords, hfile]
  simp only [bind, hsetup, Except.mapError, hinput, File.lines_toUTF8]
  rw [Run.overLines_eq_conclude, Run.conclude_pass hpolicy, File.linesOf, hvalues]
  exact tellsLines_finished hknown _

/-- Numbers, each on a line of its own before a semicolon. -/
def numbers : Blueprint where
  record := "entry"
  layout := "$n$;\n"
  fields := [("n", "int")]

def numbersText : String :=
  "[record]\nname = 'entry'\nformat = \"$n$;\\n\"\n[[fields]]\nname = 'n'\ntype = 'int'\n"

/-- The schema under its name, and under any other a file with this text. -/
def numbersFiles (text : String) : Opener := fun path =>
  .ok (.ok (if path = "numbers.toml" then numbersText else text).toUTF8)

theorem ofFile_numbers (text : String) : Blueprint.ofFile (numbersFiles text) "numbers.toml" = .ok numbers := by
  have hread : Blueprint.ofText? numbersText = some numbers := by decide +kernel
  have hfile : numbersFiles text "numbers.toml" = .ok (.ok numbersText.toUTF8) := rfl
  rw [Blueprint.ofFile, hfile]
  simp only [File.text, File.fromUTF8?_toUTF8, hread]

theorem numbersFiles_input (text : String) : numbersFiles text "numbers.txt" = .ok (.ok text.toUTF8) := by
  rw [numbersFiles, if_neg (by decide)]

theorem layout_numbers : numbers.layout.toList = ['$', 'n', '$', ';'] ++ ['\n'] := by decide +kernel

theorem eq_ok_of_mem {ε α : Type} {result : Except ε α} {a : α} (h : a ∈ result.toOption) : result = .ok a := by
  cases result with
  | error e => contradiction
  | ok b => exact congrArg Except.ok (Option.some.inj h)

/-- How the lines of a file of numbers are read on their own. -/
theorem exists_numbers : ∃ setup, Setup.ofBlueprint numbers (some .pass) = .ok setup ∧ setup.session.policy = .pass ∧
    setup.layout.segments = [.slot "n" .int, .literal [';', '\n']] ∧
    (∃ record, setup.layout.readRecord setup.session.registry "5;\n" = .ok record ∧
      record.display setup.session.registry = "[5 : int] : entry") ∧
    ¬ setup.layout.EndsInside setup.session.registry "6,\n" := by
  have hsetup : ∃ setup ∈ (Setup.ofBlueprint numbers (some .pass)).toOption, setup.session.policy = .pass ∧
      setup.layout.segments = [.slot "n" .int, .literal [';', '\n']] ∧
      (∃ record ∈ (setup.layout.readRecord setup.session.registry "5;\n").toOption,
        record.display setup.session.registry = "[5 : int] : entry") ∧
      ¬ setup.layout.EndsInside setup.session.registry "6,\n" := by decide +kernel
  obtain ⟨setup, hok, hpolicy, hsegments, ⟨record, hread, hdisplay⟩, hsecond⟩ := hsetup
  exact ⟨setup, eq_ok_of_mem hok, hpolicy, hsegments, ⟨record, eq_ok_of_mem hread, hdisplay⟩, hsecond⟩

/-- No number has a line feed in it. -/
theorem not_accepts_number {setup : Setup} (h : Setup.ofBlueprint numbers (some .pass) = .ok setup)
    (hsegments : setup.layout.segments = [.slot "n" .int, .literal [';', '\n']]) (name : String) (ty : Ty)
    (hslot : .slot name ty ∈ setup.layout.segments) (text : String) (htext : '\n' ∈ text.toList) :
    ¬ setup.session.registry.accepts ty text := by
  obtain ⟨-, rfl⟩ : name = "n" ∧ ty = .int := by simpa [hsegments] using hslot
  have hget : setup.session.registry.get .int = .primitive .int [] :=
    (Setup.reachable_of_ok h).extends.get (by decide : Registry.initial.Has .int)
  have hnumber := Registry.accepts_number hget text.toList
  rw [String.ofList_toList] at hnumber
  rw [hnumber, Integer.isSome_ofChars?]
  rintro ⟨sign, digits, n, heq, hdigits, hsign⟩
  have hall := (Integer.ofDigits?_eq_some.mp hdigits).2.1
  rw [heq, List.mem_append] at htext
  rcases htext with htext | htext
  · rcases hsign with ⟨rfl, -⟩ | ⟨rfl | rfl, -⟩ <;> simp at htext
  · rw [List.all_eq_true] at hall
    have hdigit := hall '\n' htext
    contradiction

/-- The second line differs from the layout in its last character, and the third is told of all the same. -/
theorem ofRecords_tellsLines_numbers : ∃ setup,
    Blueprint.ofFile (numbersFiles "5;\n6,\n5;\n") "numbers.toml" = .ok numbers ∧
    Setup.ofBlueprint numbers (some .pass) = .ok setup ∧
    (ofRecords (numbersFiles "5;\n6,\n5;\n") "numbers.toml" "numbers.txt" (some .pass) none).lines[2]? =
      some (.output "[5 : int] : entry") := by
  obtain ⟨setup, hsetup, hpolicy, hsegments, ⟨record, hread, hdisplay⟩, hsecond⟩ := exists_numbers
  have hfirst : ¬ setup.layout.EndsInside setup.session.registry "5;\n" := by
    rintro ⟨awaited, hinside⟩
    rw [hread] at hinside
    contradiction
  have hlines : File.linesOf "5;\n6,\n5;\n" = ["5;\n", "6,\n"] ++ "5;\n" :: [] := by decide +kernel
  have htells := ofRecords_tellsLines (ofFile_numbers _) hsetup hpolicy layout_numbers (by decide)
    (not_accepts_number hsetup hsegments) (numbersFiles_input "5;\n6,\n5;\n")
  have htold := htells.record hlines (by simp [hfirst, hsecond]) hread
  rw [hdisplay] at htold
  exact ⟨setup, ofFile_numbers _, hsetup, htold⟩

/-- A line before it that ends inside a record costs a line its record, even though neither differs from the layout
in a literal. -/
theorem not_all_lines_told : ¬ ∀ (files : Opener) (path input text : String) (policy : Option Policy)
    (blueprint : Blueprint) (setup : Setup) (format : List Char), Blueprint.ofFile files path = .ok blueprint →
    Setup.ofBlueprint blueprint policy = .ok setup → setup.session.policy = .pass →
    blueprint.layout.toList = format ++ ['\n'] → '\n' ∉ format →
    (∀ name ty, .slot name ty ∈ setup.layout.segments → ∀ text : String, '\n' ∈ text.toList →
      ¬ setup.session.registry.accepts ty text) →
    files input = .ok (.ok text.toUTF8) →
    ∀ line ∈ File.linesOf text, ∀ record, setup.layout.readRecord setup.session.registry line = .ok record →
      .output (record.display setup.session.registry) ∈ (ofRecords files path input policy none).lines := by
  intro h
  obtain ⟨setup, hsetup, hpolicy, hsegments, ⟨record, hread, hdisplay⟩, -⟩ := exists_numbers
  have htold := h (numbersFiles "x;\n5;\n") "numbers.toml" "numbers.txt" "x;\n5;\n" (some .pass) numbers setup
    ['$', 'n', '$', ';'] (ofFile_numbers _) hsetup hpolicy layout_numbers (by decide)
    (not_accepts_number hsetup hsegments) (numbersFiles_input _) "5;\n" (by decide +kernel) record hread
  rw [hdisplay] at htold
  revert htold
  decide +kernel

end Report
end TypeAlgebra
