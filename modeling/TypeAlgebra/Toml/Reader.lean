import TypeAlgebra.Integer
import TypeAlgebra.Toml.Node

/-! Reading a configuration document: tables, arrays of tables, keys plain, quoted and dotted, strings in
their four forms, integers, arrays and inline tables. Other kinds of value are refused, as is every
document that breaks the grammar. -/
namespace TypeAlgebra.Toml

/-- What is read from the front of a text, and what follows it. -/
abbrev Reader (α : Type) := List Char → Option (α × List Char)

def isBlank (c : Char) : Bool := c = ' ' || c = '\t'

def skipBlanks (text : List Char) : List Char := text.dropWhile isBlank

/-- A line break written with a carriage return counts as a plain one. -/
def foldBreaks : List Char → List Char
  | '\r' :: '\n' :: rest => '\n' :: foldBreaks rest
  | c :: rest => c :: foldBreaks rest
  | [] => []

/-- The end of a line, after a comment if there is one. -/
def lineEnd? (text : List Char) : Option (List Char) :=
  let rest := match text with
    | '#' :: comment => comment.dropWhile fun c => c = '\t' || ' ' ≤ c
    | _ => text
  match rest with
  | '\n' :: rest => some rest
  | [] => some []
  | _ => none

def isBare (c : Char) : Bool := c.isAlphanum || c = '-' || c = '_'

def hexDigit? (c : Char) : Option Nat :=
  if c.isDigit then some (c.toNat - '0'.toNat)
  else if 'a' ≤ c ∧ c ≤ 'f' then some (c.toNat - 'a'.toNat + 10)
  else if 'A' ≤ c ∧ c ≤ 'F' then some (c.toNat - 'A'.toNat + 10)
  else none

/-- The character with a code point of exactly so many hexadecimal digits. -/
def readCodePoint (digits : Nat) : Reader Char := fun text => do
  let (front, rest) := text.splitAt digits
  if front.length < digits then none
  let value ← front.foldlM (fun n c => (hexDigit? c).map (16 * n + ·)) 0
  if value.isValidChar then some (Char.ofNat value, rest) else none

def escaped? : Char → Option Char
  | '\x22' => some '\x22'
  | '\\' => some '\\'
  | 'b' => some '\x08'
  | 'f' => some '\x0c'
  | 'n' => some '\n'
  | 'r' => some '\r'
  | 't' => some '\t'
  | _ => none

/-- What follows a backslash: the characters it stands for. At the end of a line it stands for none and
takes the blanks and breaks after it along. -/
def readEscape (multiline : Bool) : Reader (List Char)
  | 'u' :: rest => (readCodePoint 4 rest).map fun (c, rest) => ([c], rest)
  | 'U' :: rest => (readCodePoint 8 rest).map fun (c, rest) => ([c], rest)
  | c :: rest =>
    if multiline && (isBlank c || c = '\n') then
      match skipBlanks (c :: rest) with
      | '\n' :: rest => some ([], rest.dropWhile fun c => isBlank c || c = '\n')
      | _ => none
    else (escaped? c).map fun c => ([c], rest)
  | [] => none

def mayStand (multiline : Bool) (c : Char) : Bool :=
  c = '\t' || (' ' ≤ c && c ≠ '\x7f') || (multiline && c = '\n')

/-- The end of a string of several lines: three quotes, after up to two that belong to it. -/
def closing? (quote : Char) (text : List Char) : Option (List Char × List Char) :=
  let run := (text.takeWhile (· = quote)).length
  if run < 3 then none
  else
    let extra := min (run - 3) 2
    some (List.replicate extra quote, text.drop (extra + 3))

def readTextWithin (quote : Char) (multiline : Bool) : Nat → Reader (List Char)
  | 0, _ => none
  | _, [] => none
  | steps + 1, c :: rest =>
    if c = quote then
      if multiline then
        match closing? quote (c :: rest) with
        | some ending => some ending
        | none => (readTextWithin quote multiline steps rest).map fun (t, rest) => (c :: t, rest)
      else some ([], rest)
    else if c = '\\' ∧ quote = '\x22' then
      match readEscape multiline rest with
      | none => none
      | some (front, rest) =>
        (readTextWithin quote multiline steps rest).map fun (t, rest) => (front ++ t, rest)
    else if mayStand multiline c then
      (readTextWithin quote multiline steps rest).map fun (t, rest) => (c :: t, rest)
    else none

def readText (quote : Char) (multiline : Bool) : Reader String := fun text =>
  (readTextWithin quote multiline (text.length + 1) text).map fun (t, rest) => (String.ofList t, rest)

/-- A string on one line, from after its first quote. -/
def readLineString (quote : Char) (text : List Char) : Option (String × List Char) :=
  readText quote false text

/-- A string, from after its first quote. The first line break of one of several lines is left out. -/
def readString (quote : Char) : Reader String
  | a :: b :: rest =>
    if a = quote ∧ b = quote then
      readText quote true (match rest with | '\n' :: rest => rest | _ => rest)
    else readLineString quote (a :: b :: rest)
  | rest => readLineString quote rest

def readKey : Reader String
  | [] => none
  | c :: rest =>
    if c = '\x22' ∨ c = '\x27' then
      match rest with
      | a :: b :: _ => if a = c ∧ b = c then none else readLineString c rest
      | _ => readLineString c rest
    else
      let key := (c :: rest).takeWhile isBare
      if key = [] then none else some (String.ofList key, (c :: rest).dropWhile isBare)

/-- Keys with points between them, and blanks around those. -/
def readPathWithin : Nat → Reader (List String)
  | 0, _ => none
  | steps + 1, text => do
    let (key, rest) ← readKey text
    match skipBlanks rest with
    | '.' :: rest =>
      let (keys, rest) ← readPathWithin steps (skipBlanks rest)
      return (key :: keys, rest)
    | rest => return ([key], rest)

def readPath : Reader (List String) := fun text => readPathWithin (text.length + 1) text

/-- The digits of a number, with single underscores between them. -/
def plainDigits? : List Char → Option (List Char)
  | ['_'] => none
  | '_' :: '_' :: _ => none
  | '_' :: rest => plainDigits? rest
  | c :: rest => (plainDigits? rest).map (c :: ·)
  | [] => some []

def digits? (base : Nat) (text : List Char) : Option Nat := do
  if text = [] ∨ text.head? = some '_' then none
  let digits ← plainDigits? text
  digits.foldlM (fun n c => do
    let d ← hexDigit? c
    if d < base then some (base * n + d) else none) 0

def unsigned? (text : List Char) : Option Nat :=
  match text with
  | '0' :: _ :: _ => none
  | _ => digits? 10 text

def integer? (text : List Char) : Option Int :=
  let number := match text with
    | '0' :: 'x' :: digits => (digits? 16 digits).map Int.ofNat
    | '0' :: 'o' :: digits => (digits? 8 digits).map Int.ofNat
    | '0' :: 'b' :: digits => (digits? 2 digits).map Int.ofNat
    | '-' :: digits => (unsigned? digits).map fun n => -(n : Int)
    | digits => (unsigned? digits).map Int.ofNat
  number.filter fun n => Integer.InRange n

def readInteger (text : List Char) : Option (Node × List Char) :=
  let text := match text with | '+' :: rest => rest | _ => text
  (integer? (text.takeWhile isBare)).map fun n => (.integer n, text.dropWhile isBare)

/-- Skips blanks, line breaks and comments. -/
def skipGapWithin : Nat → List Char → Option (List Char)
  | 0, _ => none
  | steps + 1, text =>
    match skipBlanks text with
    | '\n' :: rest => skipGapWithin steps rest
    | '#' :: comment => (lineEnd? ('#' :: comment)).bind (skipGapWithin steps)
    | rest => some rest

def skipGap (text : List Char) : Option (List Char) := skipGapWithin (text.length + 1) text

mutual

def readValueWithin : Nat → Reader Node
  | 0, _ => none
  | _, [] => none
  | steps + 1, c :: rest =>
    if c = '\x22' ∨ c = '\x27' then (readString c rest).map fun (s, rest) => (.string s, rest)
    else if c = '[' then (readItemsWithin steps rest).map fun (items, rest) => (.array items, rest)
    else if c = '\x7b' then
      match skipBlanks rest with
      | '\x7d' :: rest => some (.table false [], rest)
      | rest => (readEntriesWithin steps [] rest).map fun (es, rest) => (.table false es, rest)
    else readInteger (c :: rest)

/-- The items of an array, from after its bracket. -/
def readItemsWithin : Nat → Reader (List Node)
  | 0, _ => none
  | steps + 1, text => do
    match ← skipGap text with
    | ']' :: rest => return ([], rest)
    | text =>
      let (item, rest) ← readValueWithin steps text
      match ← skipGap rest with
      | ',' :: rest =>
        let (items, rest) ← readItemsWithin steps rest
        return (item :: items, rest)
      | ']' :: rest => return ([item], rest)
      | _ => none

/-- The entries of an inline table, at least one, after those read already. -/
def readEntriesWithin : Nat → Entries → Reader Entries
  | 0, _, _ => none
  | steps + 1, entries, text => do
    let (path, rest) ← readPath text
    match skipBlanks rest with
    | '=' :: rest =>
      let (value, rest) ← readValueWithin steps (skipBlanks rest)
      let entries ← addDotted path value entries
      match skipBlanks rest with
      | '\x7d' :: rest => return (entries, rest)
      | ',' :: rest => readEntriesWithin steps entries (skipBlanks rest)
      | _ => none
    | _ => none

end

def readValue : Reader Node := fun text => readValueWithin (text.length + 1) text

/-- A table's header, from after its first bracket: its path, and whether it begins an item. -/
def readHeader (text : List Char) : Option (Section × List Char) := do
  let (isItem, text) := match text with
    | '[' :: rest => (true, rest)
    | _ => (false, text)
  let (path, rest) ← readPath (skipBlanks text)
  match isItem, rest with
  | false, ']' :: rest => return (⟨path, isItem, []⟩, ← lineEnd? (skipBlanks rest))
  | true, ']' :: ']' :: rest => return (⟨path, isItem, []⟩, ← lineEnd? (skipBlanks rest))
  | _, _ => none

/-- The sections of a document, from the one that is being read. -/
def readSectionsWithin : Nat → Section → List Char → Option (List Section)
  | 0, _, _ => none
  | steps + 1, current, text => do
    match ← skipGap text with
    | [] => return [current]
    | '[' :: rest =>
      let (next, rest) ← readHeader rest
      return current :: (← readSectionsWithin steps next rest)
    | text =>
      let (path, rest) ← readPath text
      match skipBlanks rest with
      | '=' :: rest =>
        let (value, rest) ← readValue (skipBlanks rest)
        let entries ← addDotted path value current.entries
        readSectionsWithin steps { current with entries } (← lineEnd? (skipBlanks rest))
      | _ => none

/-- Reads a document; a byte order mark in front is skipped. -/
def read (text : String) : Option Entries := do
  let text := match text.toList with
    | '\ufeff' :: rest => rest
    | text => text
  let text := foldBreaks text
  assemble (← readSectionsWithin (text.length + 1) ⟨[], false, []⟩ text)

end TypeAlgebra.Toml
