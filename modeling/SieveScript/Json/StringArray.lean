import SieveScript.Json

/-!
# Arrays of strings

Reads the text of a JSON array of strings and nothing else. It is strict: no comma at the end, no
control character inside a string, and no half of a surrogate pair.
-/

namespace SieveScript.Json.StringArray

/-- The four characters that JSON allows between tokens. -/
def isSpace (c : Char) : Bool :=
  c == ' ' || c == '\t' || c == '\n' || c == '\r'

/-- The value of a hexadecimal digit. -/
def hexDigit? (c : Char) : Option Nat :=
  if '0' ≤ c ∧ c ≤ '9' then some (c.toNat - '0'.toNat)
  else if 'a' ≤ c ∧ c ≤ 'f' then some (c.toNat - 'a'.toNat + 10)
  else if 'A' ≤ c ∧ c ≤ 'F' then some (c.toNat - 'A'.toNat + 10)
  else none

/-- The value of four hexadecimal digits. -/
def hex4? (a b c d : Char) : Option Nat := do
  let hi := (← hexDigit? a) * 16 + (← hexDigit? b)
  let lo := (← hexDigit? c) * 16 + (← hexDigit? d)
  return hi * 256 + lo

/-- The character that a backslash and another character stand for. -/
def escaped? : Char → Option Char
  | '"' => some '"'
  | '\\' => some '\\'
  | '/' => some '/'
  | 'b' => some '\x08'
  | 'f' => some '\x0c'
  | 'n' => some '\n'
  | 'r' => some '\r'
  | 't' => some '\t'
  | _ => none

/-- The character of a code unit that is no half of a surrogate pair. -/
def unit? (n : Nat) : Option Char :=
  if n < 0xD800 ∨ 0xE000 ≤ n then some (Char.ofNat n) else none

/-- The character of a surrogate pair. -/
def pair? (hi lo : Nat) : Option Char :=
  if 0xD800 ≤ hi ∧ hi < 0xDC00 ∧ 0xDC00 ≤ lo ∧ lo < 0xE000 then
    some (Char.ofNat (0x10000 + (hi - 0xD800) * 0x400 + (lo - 0xDC00)))
  else none

/-- The character that starts a text inside a string, and how many characters it takes there. -/
def char? : List Char → Option (Char × Nat)
  | '\\' :: 'u' :: a :: b :: c :: d :: cs => do
    let n ← hex4? a b c d
    match unit? n, cs with
    | some x, _ => return (x, 6)
    | none, '\\' :: 'u' :: e :: f :: g :: h :: _ =>
      let x ← pair? n (← hex4? e f g h)
      return (x, 12)
    | none, _ => none
  | '\\' :: c :: _ => (escaped? c).map (·, 2)
  | c :: _ => if c.toNat < 0x20 ∨ c = '\\' ∨ c = '"' then none else some (c, 1)
  | [] => none

/-- The value of a string whose opening quote has been read, and what follows its closing quote. -/
def string? (cs : List Char) : Option (List Char × List Char) :=
  match cs with
  | [] => none
  | c :: rest =>
    if c = '"' then some ([], rest)
    else match char? (c :: rest) with
      | none => none
      | some (x, n) => (string? (rest.drop (n - 1))).map fun (s, rest) => (x :: s, rest)
termination_by cs.length
decreasing_by simp only [List.length_drop, List.length_cons]; omega

theorem length_string? {cs s rest : List Char} (h : string? cs = some (s, rest)) :
    rest.length < cs.length := by
  fun_induction string? cs generalizing s with
  | case1 => contradiction
  | case2 rest' => simp_all
  | case3 => contradiction
  | case4 c rest' _ x n _ ih =>
    obtain ⟨⟨s', rest''⟩, hs, he⟩ := Option.map_eq_some_iff.1 h
    cases he
    have := ih hs
    simp only [List.length_drop] at this
    simp only [List.length_cons]
    omega

theorem length_of_dropWhile {p : Char → Bool} {cs rest : List Char} {c : Char}
    (h : cs.dropWhile p = c :: rest) : rest.length < cs.length := by
  have := (List.dropWhile_sublist p (l := cs)).length_le
  rw [h, List.length_cons] at this
  omega

/-- The elements behind the first of an array, up to the end of the text. -/
def more? (cs : List Char) : Option (List String) :=
  match _h₁ : cs.dropWhile isSpace with
  | ']' :: rest => if rest.all isSpace then some [] else none
  | ',' :: rest =>
    match _h₂ : rest.dropWhile isSpace with
    | '"' :: rest =>
      match _h₃ : string? rest with
      | some (s, rest) => (more? rest).map (String.ofList s :: ·)
      | none => none
    | _ => none
  | _ => none
termination_by cs.length
decreasing_by
  have h₁ := length_of_dropWhile _h₁
  have h₂ := length_of_dropWhile _h₂
  have h₃ := length_string? _h₃
  omega

/-- The strings of the text of an array. -/
def parse? (cs : List Char) : Option (List String) :=
  match cs.dropWhile isSpace with
  | '[' :: rest =>
    match rest.dropWhile isSpace with
    | ']' :: rest => if rest.all isSpace then some [] else none
    | '"' :: rest =>
      match string? rest with
      | some (s, rest) => (more? rest).map (String.ofList s :: ·)
      | none => none
    | _ => none
  | _ => none

end SieveScript.Json.StringArray
