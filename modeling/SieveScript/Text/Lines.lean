/-!
# Lines

A line ends in CRLF. `normalize` writes every line ending so, and `splitLines` cuts a text into
lines that keep their ending, so that nothing is lost (`flatten_splitLines`).
-/

namespace SieveScript

/-- Writes every line feed, with or without a carriage return before it, as CRLF. -/
def normalize : List Char → List Char
  | [] => []
  | '\r' :: '\n' :: cs => '\r' :: '\n' :: normalize cs
  | '\n' :: cs => '\r' :: '\n' :: normalize cs
  | c :: cs => c :: normalize cs

/-- Puts a character in front of the first line. -/
def consLine (c : Char) : List (List Char) → List (List Char)
  | [] => [[c]]
  | line :: lines => (c :: line) :: lines

/-- The lines of a text, each with its CRLF; the last may lack one, and none is empty. -/
def splitLines : List Char → List (List Char)
  | [] => []
  | '\r' :: '\n' :: cs => ['\r', '\n'] :: splitLines cs
  | c :: cs => consLine c (splitLines cs)

@[simp]
theorem flatten_consLine (c : Char) (lines : List (List Char)) :
    (consLine c lines).flatten = c :: lines.flatten := by
  cases lines <;> simp [consLine]

theorem flatten_splitLines (cs : List Char) : (splitLines cs).flatten = cs := by
  fun_induction splitLines cs <;> simp_all

end SieveScript
