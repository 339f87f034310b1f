import SieveScript.Text.Blank

/-!
# Lexemes

Each function here measures how many characters one kind of lexeme takes at the start of a text,
and is `none` where no such lexeme starts. None of them measures zero (`run_pos` and the lemmas
beside it), so a scan that goes on behind a lexeme comes to an end.
-/

namespace SieveScript.Lexeme

/-- A run of characters of one class, if there is at least one. -/
def run (p : Char → Bool) (cs : List Char) : Option Nat :=
  match (cs.takeWhile p).length with
  | 0 => none
  | n + 1 => some (n + 1)

/-- One given character. -/
def single (d : Char) : List Char → Option Nat
  | [] => none
  | c :: _ => if c = d then some 1 else none

/-! ### Strings -/

/-- From inside a quoted string up to its closing quote, which no backslash escapes. -/
def closingQuote : List Char → Option Nat
  | [] => none
  | '"' :: _ => some 1
  | '\\' :: _ :: cs => (closingQuote cs).map (· + 2)
  | _ :: cs => (closingQuote cs).map (· + 1)

/-- A string between double quotes; it may run over several lines. -/
def quoted : List Char → Option Nat
  | '"' :: cs => (closingQuote cs).map (· + 1)
  | _ => none

/-- Where the scan of a string list stands. -/
inductive ListPlace where
  /-- After the bracket: an element or the end may follow. -/
  | opened
  /-- Between the quotes of an element. -/
  | inside
  /-- After a backslash inside an element. -/
  | escaped
  /-- After an element: a comma or the end may follow. -/
  | after
  /-- After a comma: an element has to follow. -/
  | separated
  deriving DecidableEq, Repr

/-- From a place inside a string list up to its closing bracket. -/
def closingBracket : ListPlace → List Char → Option Nat
  | _, [] => none
  | .opened, c :: cs =>
    if c = ']' then some 1
    else if c = '"' then (closingBracket .inside cs).map (· + 1)
    else if isBlank c then (closingBracket .opened cs).map (· + 1)
    else none
  | .inside, c :: cs =>
    if c = '"' then (closingBracket .after cs).map (· + 1)
    else if c = '\\' then (closingBracket .escaped cs).map (· + 1)
    else (closingBracket .inside cs).map (· + 1)
  | .escaped, _ :: cs => (closingBracket .inside cs).map (· + 1)
  | .after, c :: cs =>
    if c = ']' then some 1
    else if c = ',' then (closingBracket .separated cs).map (· + 1)
    else if isBlank c then (closingBracket .after cs).map (· + 1)
    else none
  | .separated, c :: cs =>
    if c = '"' then (closingBracket .inside cs).map (· + 1)
    else if isBlank c then (closingBracket .separated cs).map (· + 1)
    else none

/-- A bracketed list of quoted strings with commas between them. -/
def stringList : List Char → Option Nat
  | '[' :: cs => (closingBracket .opened cs).map (· + 1)
  | _ => none

/-! ### Multi-line text -/

/-- Space or tab. -/
def isIndent (c : Char) : Bool :=
  c == ' ' || c == '\t'

/-- What follows a CRLF. -/
def afterCrlf? : List Char → Option (List Char)
  | '\r' :: '\n' :: cs => some cs
  | _ => none

/-- Splits the opening line of a multi-line text off: the text of the comment on it, if there is
one, and what follows the line. -/
def openingLine? : List Char → Option (Option (List Char) × List Char)
  | t :: e :: x :: t' :: ':' :: cs =>
    if [t, e, x, t'].map Char.toLower = ['t', 'e', 'x', 't'] then
      match cs.dropWhile isIndent with
      | '#' :: ds =>
        (afterCrlf? (ds.dropWhile (!isLineBreak ·))).map
          (some (ds.takeWhile (!isLineBreak ·)), ·)
      | ds => (afterCrlf? ds).map (none, ·)
    else none
  | _ => none

/-- From a place in the body of a multi-line text, at the start of a line or not, to the end of the
first line that is a single dot. Such a line may lack its CRLF only at the end of the text, and a
carriage return or line feed that is no part of a CRLF is refused. -/
def closingDot : (lineStart : Bool) → List Char → Option Nat
  | _, [] => none
  | true, ['.'] => some 1
  | true, '.' :: '\r' :: '\n' :: _ => some 3
  | _, '\r' :: '\n' :: cs => (closingDot true cs).map (· + 2)
  | _, c :: cs => if isLineBreak c then none else (closingDot false cs).map (· + 1)

/-- A `text:` line with the lines below it, up to a line with a single dot. -/
def multiLine (cs : List Char) : Option Nat :=
  match openingLine? cs with
  | none => none
  | some (_, body) => (closingDot true body).map (cs.length - body.length + ·)

/-! ### Comments -/

/-- From `#` to the end of the line. -/
def hashComment : List Char → Option Nat
  | '#' :: cs => some ((cs.takeWhile (!isLineBreak ·)).length + 1)
  | _ => none

/-- From inside a bracket comment up to its first `*/`. -/
def closingStar : List Char → Option Nat
  | [] => none
  | '*' :: '/' :: _ => some 2
  | _ :: cs => (closingStar cs).map (· + 1)

/-- From `/*` to the first `*/` after it. -/
def bracketComment : List Char → Option Nat
  | '/' :: '*' :: cs => (closingStar cs).map (· + 2)
  | _ => none

/-! ### Words and numbers -/

/-- An ASCII letter or an underscore. -/
def isWordStart (c : Char) : Bool :=
  c.isAlpha || c == '_'

/-- An ASCII letter or digit, or an underscore. -/
def isWordChar (c : Char) : Bool :=
  c.isAlphanum || c == '_'

/-- A word: it starts with no digit. -/
def word : List Char → Option Nat
  | c :: cs => if isWordStart c then some ((cs.takeWhile isWordChar).length + 1) else none
  | [] => none

/-- A colon directly before a word. -/
def tag : List Char → Option Nat
  | ':' :: cs => (word cs).map (· + 1)
  | _ => none

/-- A letter that multiplies a number by a power of 1024. -/
def isQuantifier (c : Char) : Bool :=
  c == 'K' || c == 'M' || c == 'G' || c == 'k' || c == 'm' || c == 'g'

/-- ASCII digits with at most one quantifier behind them. -/
def number (cs : List Char) : Option Nat :=
  (run Char.isDigit cs).map fun n =>
    match cs.drop n with
    | c :: _ => if isQuantifier c then n + 1 else n
    | [] => n

/-! ### Every lexeme has a character -/

theorem run_pos {p : Char → Bool} {cs : List Char} {n : Nat} (h : run p cs = some n) : 0 < n := by
  unfold run at h
  split at h
  · contradiction
  · cases h; omega

theorem single_pos {d : Char} {cs : List Char} {n : Nat} (h : single d cs = some n) : 0 < n := by
  unfold single at h
  split at h
  · contradiction
  · split at h
    · cases h; omega
    · contradiction

theorem quoted_pos {cs : List Char} {n : Nat} (h : quoted cs = some n) : 0 < n := by
  unfold quoted at h
  split at h
  · obtain ⟨m, -, rfl⟩ := Option.map_eq_some_iff.1 h; omega
  · contradiction

theorem stringList_pos {cs : List Char} {n : Nat} (h : stringList cs = some n) : 0 < n := by
  unfold stringList at h
  split at h
  · obtain ⟨m, -, rfl⟩ := Option.map_eq_some_iff.1 h; omega
  · contradiction

theorem closingDot_pos {b : Bool} {cs : List Char} {n : Nat} (h : closingDot b cs = some n) :
    0 < n := by
  unfold closingDot at h
  split at h
  · contradiction
  · cases h; omega
  · cases h; omega
  · obtain ⟨m, -, rfl⟩ := Option.map_eq_some_iff.1 h; omega
  · split at h
    · contradiction
    · obtain ⟨m, -, rfl⟩ := Option.map_eq_some_iff.1 h; omega

theorem multiLine_pos {cs : List Char} {n : Nat} (h : multiLine cs = some n) : 0 < n := by
  unfold multiLine at h
  split at h
  · contradiction
  · obtain ⟨m, hm, rfl⟩ := Option.map_eq_some_iff.1 h
    have := closingDot_pos hm
    omega

theorem hashComment_pos {cs : List Char} {n : Nat} (h : hashComment cs = some n) : 0 < n := by
  unfold hashComment at h
  split at h
  · cases h; omega
  · contradiction

theorem bracketComment_pos {cs : List Char} {n : Nat} (h : bracketComment cs = some n) :
    0 < n := by
  unfold bracketComment at h
  split at h
  · obtain ⟨m, -, rfl⟩ := Option.map_eq_some_iff.1 h; omega
  · contradiction

theorem word_pos {cs : List Char} {n : Nat} (h : word cs = some n) : 0 < n := by
  unfold word at h
  split at h
  · split at h
    · cases h; omega
    · contradiction
  · contradiction

theorem tag_pos {cs : List Char} {n : Nat} (h : tag cs = some n) : 0 < n := by
  unfold tag at h
  split at h
  · obtain ⟨m, -, rfl⟩ := Option.map_eq_some_iff.1 h; omega
  · contradiction

theorem number_pos {cs : List Char} {n : Nat} (h : number cs = some n) : 0 < n := by
  obtain ⟨m, hm, hn⟩ := Option.map_eq_some_iff.1 h
  have := run_pos hm
  split at hn
  · split at hn <;> omega
  · omega

end SieveScript.Lexeme
