import SieveScript.Text.Blank
import SieveScript.Text.Bytes
import SieveScript.Token.Lexeme

/-!
# Tokens

`Kind.all` lists the kinds of token in the order in which they are tried: the first that fits at a
place wins. The last two, a run of layout and a run of anything else, fit wherever a character
stands, so a scan never stops early and never skips a character.
-/

namespace SieveScript

/-- The kinds of token. -/
inductive Kind where
  | stringList
  | quoted
  | multiLine
  | hashComment
  | bracketComment
  | blockStart
  | blockEnd
  | leftParen
  | rightParen
  | comma
  | semicolon
  | tag
  | word
  | number
  | layout
  /-- Anything else; no script may hold one. -/
  | unknown
  deriving DecidableEq, Repr

namespace Kind

/-- Every kind, the ones tried first in front. -/
def all : List Kind :=
  [stringList, quoted, multiLine, hashComment, bracketComment, blockStart, blockEnd, leftParen,
    rightParen, comma, semicolon, tag, word, number, layout, unknown]

/-- How many characters a token of this kind takes at the start of a text. -/
def measure : Kind → List Char → Option Nat
  | stringList => Lexeme.stringList
  | quoted => Lexeme.quoted
  | multiLine => Lexeme.multiLine
  | hashComment => Lexeme.hashComment
  | bracketComment => Lexeme.bracketComment
  | blockStart => Lexeme.single '{'
  | blockEnd => Lexeme.single '}'
  | leftParen => Lexeme.single '('
  | rightParen => Lexeme.single ')'
  | comma => Lexeme.single ','
  | semicolon => Lexeme.single ';'
  | tag => Lexeme.tag
  | word => Lexeme.word
  | number => Lexeme.number
  | layout => Lexeme.run isLayout
  | unknown => Lexeme.run (!isLayout ·)

theorem measure_nil (k : Kind) : k.measure [] = none := by
  cases k <;> rfl

theorem measure_pos {k : Kind} {cs : List Char} {n : Nat} (h : k.measure cs = some n) : 0 < n := by
  cases k with
  | stringList => exact Lexeme.stringList_pos h
  | quoted => exact Lexeme.quoted_pos h
  | multiLine => exact Lexeme.multiLine_pos h
  | hashComment => exact Lexeme.hashComment_pos h
  | bracketComment => exact Lexeme.bracketComment_pos h
  | blockStart | blockEnd | leftParen | rightParen | comma | semicolon =>
    exact Lexeme.single_pos h
  | tag => exact Lexeme.tag_pos h
  | word => exact Lexeme.word_pos h
  | number => exact Lexeme.number_pos h
  | layout | unknown => exact Lexeme.run_pos h

end Kind

/-- The kind of the token at the start of a text, and how many characters it takes. -/
def scan (cs : List Char) : Option (Kind × Nat) :=
  Kind.all.findSome? fun k => (k.measure cs).map (k, ·)

theorem scan_nil : scan [] = none := rfl

theorem measure_of_scan {cs : List Char} {k : Kind} {n : Nat} (h : scan cs = some (k, n)) :
    k.measure cs = some n := by
  obtain ⟨k', -, hk⟩ := List.exists_of_findSome?_eq_some h
  obtain ⟨m, hm, he⟩ := Option.map_eq_some_iff.1 hk
  cases he
  exact hm

/-- What follows a token is shorter than what it started. -/
theorem length_drop_of_scan {cs : List Char} {k : Kind} {n : Nat} (h : scan cs = some (k, n)) :
    (cs.drop n).length < cs.length := by
  have hk := measure_of_scan h
  have hn := Kind.measure_pos hk
  cases cs with
  | nil => simp [scan_nil] at h
  | cons c cs => simp only [List.length_drop, List.length_cons]; omega

/-- A token with the place where it starts. -/
structure Token where
  kind : Kind
  lexeme : List Char
  /-- The byte at which the token starts. -/
  offset : Nat
  /-- The line on which the token starts, counted from one. -/
  line : Nat
  deriving DecidableEq, Repr

namespace Token

/-- The byte just behind the token. -/
def stop (t : Token) : Nat :=
  t.offset + byteLength t.lexeme

/-- The token as a string. -/
def text (t : Token) : String :=
  String.ofList t.lexeme

/-- The tokens of a text that starts at the given byte and line. -/
def allFrom (offset line : Nat) (cs : List Char) : List Token :=
  match _h : scan cs with
  | none => []
  | some (kind, n) =>
    let lexeme := cs.take n
    { kind, lexeme, offset, line } ::
      allFrom (offset + byteLength lexeme) (line + lexeme.count '\n') (cs.drop n)
termination_by cs.length
decreasing_by exact length_drop_of_scan _h

/-- The tokens of a text, layout included. -/
def all (cs : List Char) : List Token :=
  allFrom 0 1 cs

/-- The token that starts at a byte of a text, with the byte just behind it; `none` past the end
and inside a character. -/
def at? (text : String) (pos : Nat) : Option (Kind × String × Nat) := do
  let cs ← dropBytes? pos text.toList
  let (kind, n) ← scan cs
  return (kind, String.ofList (cs.take n), pos + byteLength (cs.take n))

end Token

end SieveScript
