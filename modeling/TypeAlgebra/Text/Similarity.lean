/-! How alike two words are. Letters of one word are paired with equal letters of the other that stand
at nearly the same place. The likeness is the mean of three shares: the letters of the first word that
have a partner, those of the second, and the partners that keep the order. A common beginning takes a
tenth off what is missing, for each of its letters. Two words are alike if that exceeds four fifths. -/
namespace TypeAlgebra.Text

/-- The places in `word` that letters find as partners: each the first place with the same letter that is
free and at most `reach` away. The letters stand from place `i` on. -/
def partners (word : List Char) (reach : Nat) (taken : List Nat) (i : Nat) : List Char → List Nat
  | [] => []
  | c :: rest =>
    let free (j : Nat) : Bool := i ≤ j + reach && j ≤ i + reach && !taken.contains j
    match word.zipIdx.find? fun (d, j) => d = c && free j with
    | some (_, j) => j :: partners word reach (j :: taken) (i + 1) rest
    | none => partners word reach taken (i + 1) rest

/-- How often a place stands before the one that was found just before it. -/
def descents : List Nat → Nat
  | i :: j :: places => (if j < i then 1 else 0) + descents (j :: places)
  | _ => 0

def commonStart : List Char → List Char → Nat
  | c :: a, d :: b => if c = d then commonStart a b + 1 else 0
  | _, _ => 0

/-- Whether two words are alike, or the same. -/
def alike (a b : List Char) : Bool :=
  let places := partners b (max a.length b.length / 2 - 1) [] 0 a
  let paired := places.length
  let whole := 3 * paired * a.length * b.length
  let share := paired * paired * (a.length + b.length)
    + (paired - descents places) * a.length * b.length
  a = b || 10 * share + commonStart a b * (whole - share) > 8 * whole

end TypeAlgebra.Text
