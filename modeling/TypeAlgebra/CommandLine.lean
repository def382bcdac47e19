import TypeAlgebra.Policy
import TypeAlgebra.Text.Similarity

/-! The command line: what to do, on which files, under which options. -/
namespace TypeAlgebra

inductive Command where
  | check (schema : String)
  | parse (schema input : String) (policy : Option Policy) (limit : Option Nat)
  deriving DecidableEq

/-- Why arguments are no command. -/
inductive Usage where
  | noCommand
  | misspeltCommand
  | unknownTopic
  | unknownArgument
  | missingArgument
  | emptyValue
  | invalidValue
  | repeatedOption
  | help
  | version
  deriving DecidableEq

namespace Command

structure Arguments where
  positionals : List String := []
  /-- Options in order, each with the value it was given. -/
  options : List (String × Option String) := []

namespace Arguments

def withPositional (a : Arguments) (arg : String) : Arguments :=
  { a with positionals := a.positionals ++ [arg] }

def withOption (a : Arguments) (name : String) (value : Option String) : Arguments :=
  { a with options := a.options ++ [(name, value)] }

/-- The values of an option; one that it lacks does not count. -/
def values (a : Arguments) (name : String) : List (Option String) :=
  (a.options.filter (·.1 = name)).map (·.2)

end Arguments

/-- Whether an argument is written as an option. A hyphen on its own is not. -/
def isOption (arg : String) : Bool :=
  match arg.toList with
  | '-' :: _ :: _ => true
  | _ => false

/-- An option of one hyphen: only those that ask for help or the version are known. -/
def shortOption (c : Char) : Usage :=
  if c = 'h' then .help else if c = 'V' then .version else .unknownArgument

/-- Takes arguments apart: at most `arity` positional ones, and options with values. -/
def scan (known : List String) (arity : Nat) (a : Arguments) : List String → Except Usage Arguments
  | [] => .ok a
  | arg :: rest =>
    match arg.toList with
    | ['-', '-'] =>
      if a.positionals.length + rest.length ≤ arity then
        .ok { a with positionals := a.positionals ++ rest }
      else .error .unknownArgument
    | '-' :: '-' :: text =>
      let name := String.ofList ((text.takeWhile (· ≠ '=')).dropWhile (· = '-'))
      if name = "help" then .error .help
      else if name = "version" then .error .version
      else if name ∉ known then .error .unknownArgument
      else match text.dropWhile (· ≠ '=') with
        | '=' :: value =>
          scan known arity (a.withOption name (some (String.ofList (value.dropWhile (· = '='))))) rest
        | _ =>
          match rest with
          | [] => .ok (a.withOption name none)
          | value :: others =>
            if isOption value then scan known arity (a.withOption name none) (value :: others)
            else scan known arity (a.withOption name (some value)) others
    | '-' :: c :: _ => .error (shortOption c)
    | _ =>
      if a.positionals.length < arity then scan known arity (a.withPositional arg) rest
      else .error .unknownArgument

/-- The value of an option that may be given once. A text that is no value is the worse fault. -/
def option {α : Type} (a : Arguments) (name : String) (value? : String → Option α) :
    Except Usage (Option α) :=
  let given := a.values name
  match (given.filterMap id).mapM value? with
  | none => .error .invalidValue
  | some values => if 1 < given.length then .error .repeatedOption else .ok values.head?

/-- A count that fits in 64 bits; a plus sign may stand in front. -/
def count? (text : String) : Option Nat :=
  let digits := match text.toList with
    | '+' :: digits => digits
    | digits => digits
  if digits ≠ [] ∧ digits.all Char.isDigit then
    some (Nat.ofDigitChars 10 digits 0) |>.filter (· < UInt64.size)
  else none

def policy? (text : String) : Option Policy := (Policy.ofText text).toOption

def names : List String := ["check", "parse", "help"]

/-- What is wrong with a word that stands for a command and is none. -/
def misnomer (word : String) : Usage :=
  if names.any fun name => Text.alike word.toList name.toList then .misspeltCommand else .unknownArgument

/-- What arguments ask for that don't start with a command. -/
def withoutCommand : List String → Usage
  | [] => .noCommand
  | "--" :: word :: _ => misnomer word
  | arg :: rest =>
    if isOption arg then
      match scan [] 0 {} (arg :: rest) with
      | .error usage => usage
      | .ok _ => .noCommand
    else misnomer arg

/-- Help as a command: on the whole, or on one command. -/
def helpOn : List String → Usage
  | [] => .help
  | [name] => if name ∈ names then .help else .unknownTopic
  | _ => .unknownTopic

def ofArguments : List String → Except Usage Command
  | "check" :: rest => do
    match (← scan [] 1 {} rest).positionals with
    | [schema] => return .check schema
    | _ => throw .missingArgument
  | "parse" :: rest => do
    let a ← scan ["policy", "limit"] 2 {} rest
    match a.positionals with
    | [schema, input] =>
      if a.options.any fun (name, _) => (a.values name).all Option.isNone then throw .emptyValue
      return .parse schema input (← option a "policy" policy?) (← option a "limit" count?)
    | _ => throw .missingArgument
  | "help" :: topics => .error (helpOn topics)
  | args => .error (withoutCommand args)

end Command
end TypeAlgebra
