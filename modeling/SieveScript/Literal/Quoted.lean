/-!
# Quoted strings

A quoted string writes a backslash before each backslash and each quote of its value. Reading is
lenient: a backslash before any character stands for that character, and a token without both
quotes is read as it is.
-/

namespace SieveScript.Quoted

/-- Writes a backslash before each backslash and each quote. -/
def escape : List Char → List Char
  | [] => []
  | c :: cs => if c = '\\' ∨ c = '"' then '\\' :: c :: escape cs else c :: escape cs

/-- Takes each escaping backslash away; one at the end escapes nothing and is lost. -/
def unescape : List Char → List Char
  | [] => []
  | ['\\'] => []
  | '\\' :: c :: cs => c :: unescape cs
  | c :: cs => c :: unescape cs

/-- What stands between the quotes of a token, or the token if it lacks one of them. -/
def inner : List Char → List Char
  | '"' :: cs => if cs.getLast? = some '"' then cs.dropLast else '"' :: cs
  | cs => cs

/-- The token of a string value. -/
def encode (value : String) : List Char :=
  '"' :: escape value.toList ++ ['"']

/-- The string value of a token. -/
def decode (token : List Char) : String :=
  String.ofList (unescape (inner token))

theorem unescape_escape (cs : List Char) : unescape (escape cs) = cs := by
  induction cs with
  | nil => rfl
  | cons c cs ih =>
    by_cases h : c = '\\' ∨ c = '"'
    · simp [escape, h, unescape, ih]
    · rw [escape, if_neg h]
      rw [not_or] at h
      rw [unescape] <;> simp_all

theorem inner_quotes (cs : List Char) : inner ('"' :: cs ++ ['"']) = cs := by
  simp [inner]

theorem decode_encode (value : String) : decode (encode value) = value := by
  rw [decode, encode, inner_quotes, unescape_escape, String.ofList_toList]

end SieveScript.Quoted
