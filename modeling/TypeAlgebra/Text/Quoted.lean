import TypeAlgebra.Text.Unprintable

/-! Quoted text. The quote in use, the backslash and the common controls are written with a backslash,
characters without a printed form by their code point, all others as they are. -/
namespace TypeAlgebra.Text

def codePoint (c : Char) : List Char :=
  ['\\', 'u', '\x7b'] ++ Nat.toDigits 16 c.toNat ++ ['\x7d']

/-- One character as it stands between two marks `quote`. -/
def escape (quote c : Char) : List Char :=
  if c = '\x00' then ['\\', '0']
  else if c = '\t' then ['\\', 't']
  else if c = '\r' then ['\\', 'r']
  else if c = '\n' then ['\\', 'n']
  else if c = '\\' ∨ c = quote then ['\\', c]
  else if unprintable c then codePoint c
  else [c]

def between (quote : Char) (text : List Char) : String :=
  String.ofList (quote :: text.flatMap (escape quote) ++ [quote])

def quoted (text : String) : String := between '\x22' text.toList

def quotedChar (c : Char) : String := between '\x27' [c]

end TypeAlgebra.Text
