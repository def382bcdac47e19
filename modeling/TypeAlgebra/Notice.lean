/-! Notices: what kind of news a message is, and the lines it is printed on. -/
namespace TypeAlgebra

inductive Notice where
  | info
  | success
  | warning
  | fatal
  deriving DecidableEq

namespace Notice

def label : Notice → String
  | .info => "Info"
  | .success => "Success"
  | .warning => "Warning"
  | .fatal => "Fatal"

/-- Fills a text up to twelve characters from the left. -/
def aligned (text : String) : String :=
  String.ofList (List.replicate (12 - text.length) ' ') ++ text

/-- The lines of a text; a line break may have a carriage return, and the last one may be missing. -/
def splitLines : List Char → List (List Char)
  | [] => []
  | '\n' :: rest => [] :: splitLines rest
  | '\r' :: '\n' :: rest => [] :: splitLines rest
  | c :: rest =>
    match rest, splitLines rest with
    | [], _ => [[c]]
    | _, [] => [[c]]
    | _, line :: others => (c :: line) :: others

/-- The lines a message is printed on. The label stands before the first one. -/
def lines (notice : Notice) (message : String) : List String :=
  let (first, others) := match splitLines message.toList with
    | [] => ([], [])
    | first :: others => (first, others)
  (aligned notice.label ++ " " ++ String.ofList first) ::
    others.map fun line => aligned "" ++ " " ++ String.ofList line

end Notice
end TypeAlgebra
