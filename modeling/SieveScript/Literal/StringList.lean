import SieveScript.Token.Lexeme
import SieveScript.Literal.Quoted

/-!
# String lists

A string list is written without blanks. Reading looks for quoted strings from the left, each from
where the one before it ended, and passes over whatever stands between them.
-/

namespace SieveScript.StringList

/-- The elements, with a comma between each two. -/
def elements : List String → List Char
  | [] => []
  | [v] => Quoted.encode v
  | v :: w :: vs => Quoted.encode v ++ ',' :: elements (w :: vs)

/-- The token of a list of string values. -/
def encode (values : List String) : List Char :=
  '[' :: elements values ++ [']']

/-- The string values of a token. -/
def decode (cs : List Char) : List String :=
  match cs with
  | [] => []
  | c :: rest =>
    match _h : Lexeme.quoted (c :: rest) with
    | some n => Quoted.decode ((c :: rest).take n) :: decode ((c :: rest).drop n)
    | none => decode rest
termination_by cs.length
decreasing_by
  · have := Lexeme.quoted_pos _h
    simp only [List.length_drop, List.length_cons]
    omega
  · simp

end SieveScript.StringList
