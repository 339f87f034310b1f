import SieveScript.Tree.Printer
import SieveScript.Proofs.Comments
import SieveScript.Proofs.Absorbing
import SieveScript.Proofs.Steps

/-!
# A tree is read back as it is written

A tree is `Sound` for a vocabulary if reading may give it: each of its words means what the node is,
and everything written in it is lexical. The text of a sound tree is normalized, and its symbols are
those of the tree, in the order in which they are written (`Item.symbols_encodeAll`).
-/

namespace SieveScript

open Argument

/-! ### Sound trees -/

/-- The word and the comments may come from a normalized text. -/
structure Head.Lexical (h : Head) : Prop where
  word : IsLowerWord h.word.toList
  comments : ∀ c ∈ h.comments, c.Lexical

/-- Reading may give the test. -/
inductive Test.Sound (v : Vocabulary) : Test → Prop
  | leaf {h : Head} {m : Matching} {c : Condition} (head : h.Lexical) (matching : m.Lexical)
      (word : v.Denotes h.word (.condition c.blank)) (lexical : AllLexical c.arguments)
      (quiet : Quiet c.arguments) : Sound v (leaf h m c)
  | negation {h : Head} {m : Matching} {inner : Option Test} (head : h.Lexical)
      (matching : m.Lexical) (word : v.Denotes h.word .negation) (inside : ∀ t ∈ inner, Sound v t) :
      Sound v (negation h m inner)
  | group {h : Head} {m : Matching} {c : Connective} {ts : List Test} (head : h.Lexical)
      (matching : m.Lexical) (word : v.Denotes h.word (.group c)) (members : ∀ t ∈ ts, Sound v t) :
      Sound v (group h m c ts)

/-- Reading may give the item. -/
inductive Item.Sound (v : Vocabulary) : Item → Prop
  | comment {c : Comment} (lexical : c.Lexical) : Sound v (comment c)
  | action {h : Head} {a : Action} (head : h.Lexical) (word : v.Denotes h.word (.action a.blank))
      (fit : a.Fit) : Sound v (action h a)
  | conditional {h : Head} {test : Option Test} {block : List Item} (head : h.Lexical)
      (word : v.meaning h.word = .conditional) (tests : ∀ t ∈ test, t.Sound v)
      (items : ∀ i ∈ block, Sound v i) : Sound v (conditional h test block)

/-! ### The symbols of a tree -/

/-- A word and the comments behind it. -/
def Head.symbols (h : Head) : List Symbol :=
  .word h.word :: h.comments.map .comment

/-- The match type and the comparator. -/
def Matching.symbols (m : Matching) : List Symbol :=
  (m.matchTypeArguments ++ m.comparatorArguments).map .argument

namespace Test

mutual

/-- The symbols of a test, as it is written. -/
def symbols : Test → List Symbol
  | leaf h m c => h.symbols ++ m.symbols ++ c.arguments.map .argument
  | negation h m inner => h.symbols ++ m.symbols ++ symbolsOption inner
  | group h m _ ts => h.symbols ++ m.symbols ++ (.leftParen :: symbolsMembers ts ++ [.rightParen])

/-- The symbols of a test, where there is one. -/
def symbolsOption : Option Test → List Symbol
  | none => []
  | some t => t.symbols

/-- The symbols of the tests of a group. -/
def symbolsMembers : List Test → List Symbol
  | [] => []
  | t :: ts => t.symbols ++ symbolsMore ts

/-- The symbols of the tests behind the first of a group. -/
def symbolsMore : List Test → List Symbol
  | [] => []
  | t :: ts => .comma :: t.symbols ++ symbolsMore ts

end

end Test

namespace Item

mutual

/-- The symbols of an item, as it is written. -/
def symbols : Item → List Symbol
  | comment c => [.comment c]
  | action h a => h.symbols ++ a.arguments.map .argument ++ [.semicolon]
  | conditional h test block =>
    h.symbols ++ Test.symbolsOption test ++ (.blockStart :: symbolsAll block ++ [.blockEnd])

/-- The symbols of items. -/
def symbolsAll : List Item → List Symbol
  | [] => []
  | i :: is => i.symbols ++ symbolsAll is

end

end Item

/-! ### Lexing what is written -/

namespace Token

/-- A punctuation character is a symbol of its own. -/
theorem symbols_punctuation {c : Char} {y : Symbol} (cs : List Char)
    (h : (c, y) ∈ [('{', Symbol.blockStart), ('}', .blockEnd), ('(', .leftParen),
      (')', .rightParen), (',', .comma), (';', .semicolon)]) :
    symbols (c :: cs) = y :: symbols cs := by
  have hsingle : ∀ k : Kind, (∀ k' ∈ Kind.all.takeWhile (· != k), k'.starts c = false) →
      k.measure (c :: cs) = some 1 → k.symbol? [c] = some y → symbols (c :: cs) = y :: symbols cs := by
    intro k hk hm hy
    rw [symbols_of_scan (scan_of_starts hm hk)]
    simp [hy]
  simp only [List.mem_cons, Prod.mk.injEq, List.not_mem_nil, or_false] at h
  rcases h with ⟨rfl, rfl⟩ | ⟨rfl, rfl⟩ | ⟨rfl, rfl⟩ | ⟨rfl, rfl⟩ | ⟨rfl, rfl⟩ | ⟨rfl, rfl⟩
  · exact hsingle .blockStart (by decide) rfl rfl
  · exact hsingle .blockEnd (by decide) rfl rfl
  · exact hsingle .leftParen (by decide) rfl rfl
  · exact hsingle .rightParen (by decide) rfl rfl
  · exact hsingle .comma (by decide) rfl rfl
  · exact hsingle .semicolon (by decide) rfl rfl

theorem symbols_spaced (cs rest : List Char) : symbols (spaced cs ++ rest) = symbols (cs ++ rest) := by
  cases cs with
  | nil => rfl
  | cons c cs => exact symbols_layout (by decide)

theorem symbols_crlf (rest : List Char) : symbols ('\r' :: '\n' :: rest) = symbols rest := by
  rw [symbols_layout (by decide), symbols_layout (by decide)]

theorem symbols_indentation (depth : Nat) (rest : List Char) :
    symbols (Item.indentation depth ++ rest) = symbols rest := by
  induction depth with
  | zero => rfl
  | succ depth ih => exact (symbols_layout (by decide)).trans ih

end Token

theorem Delimited.spaced_append {rest : List Char} (h : Delimited rest) (cs : List Char) :
    Delimited (spaced cs ++ rest) := by
  cases cs with
  | nil => exact h
  | cons c cs => exact delimited_cons (by decide)

section
variable {rest : List Char}

theorem Head.symbols_encode {h : Head} (hh : h.Lexical) (hrest : Delimited rest) :
    Token.symbols (h.encode ++ rest) = h.symbols ++ Token.symbols rest := by
  have hcomments : ∀ cs : List Comment, (∀ c ∈ cs, c.Lexical) →
      Delimited (cs.flatMap Comment.encodeAttached ++ rest) ∧
      Token.symbols (cs.flatMap Comment.encodeAttached ++ rest) =
        cs.map .comment ++ Token.symbols rest := by
    intro cs hcs
    induction cs with
    | nil => exact ⟨hrest, rfl⟩
    | cons c cs ih =>
      obtain ⟨-, ih⟩ := ih fun d hd => hcs d (by simp [hd])
      refine ⟨?_, ?_⟩
      · cases c <;> exact delimited_cons (by decide)
      · rw [List.flatMap_cons, List.append_assoc, Comment.symbols_encodeAttached (hcs c (by simp)), ih]
        rfl
  obtain ⟨hdelimited, hsymbols⟩ := hcomments h.comments hh.comments
  rw [encode, List.append_assoc, hh.word.symbols_append hdelimited, hsymbols, String.ofList_toList]
  rfl

theorem Matching.symbols_encode {m : Matching} (hm : m.Lexical) (hrest : Delimited rest) :
    Token.symbols (m.encode ++ rest) = m.symbols ++ Token.symbols rest := by
  rw [encode, Token.symbols_spaced, symbols_encodeAll hm.allLexical hrest]
  rfl

namespace Test
variable {v : Vocabulary}

/-- The symbols in front of the body of a test. -/
theorem symbols_head_append {h : Head} {m : Matching} (hh : h.Lexical) (hm : m.Lexical)
    (hrest : Delimited rest) (body : List Char) :
    Token.symbols (h.encode ++ m.encode ++ spaced body ++ rest) =
      h.symbols ++ m.symbols ++ Token.symbols (body ++ rest) := by
  have hbody := hrest.spaced_append body
  have hmatching : Delimited (m.encode ++ (spaced body ++ rest)) := hbody.spaced_append _
  rw [List.append_assoc, List.append_assoc, Head.symbols_encode hh hmatching,
    Matching.symbols_encode hm hbody, Token.symbols_spaced, List.append_assoc]

theorem delimited_encodeMore (ts : List Test) (hrest : Delimited rest) :
    Delimited (encodeMore ts ++ rest) := by
  cases ts with
  | nil => exact hrest
  | cons t ts => exact delimited_cons (by decide)

theorem symbols_encodeMore {ts : List Test} (ih : ∀ t ∈ ts, ∀ {rest}, Delimited rest →
      Token.symbols (t.encode ++ rest) = t.symbols ++ Token.symbols rest) (hrest : Delimited rest) :
    Token.symbols (encodeMore ts ++ rest) = symbolsMore ts ++ Token.symbols rest := by
  induction ts with
  | nil => rfl
  | cons t ts ihts =>
    have ht := ih t (by simp) (delimited_encodeMore ts hrest)
    have hts := ihts fun u hu => ih u (by simp [hu])
    simp only [encodeMore, symbolsMore, List.cons_append, List.append_assoc]
    rw [Token.symbols_punctuation (y := .comma) _ (by simp), Token.symbols_layout (by decide), ht, hts]

/-- A sound test is read back as it is written. -/
theorem symbols_encode {t : Test} (h : t.Sound v) (hrest : Delimited rest) :
    Token.symbols (t.encode ++ rest) = t.symbols ++ Token.symbols rest := by
  induction h generalizing rest with
  | @leaf h m c head matching _ lexical _ =>
    rw [encode, symbols_head_append head matching hrest, symbols_encodeAll lexical hrest, symbols,
      ← List.append_assoc]
  | @negation h m inner head matching _ _ ih =>
    have hinner : Token.symbols (encodeOption inner ++ rest) =
        symbolsOption inner ++ Token.symbols rest := by
      cases inner with
      | none => rfl
      | some t => exact ih t rfl hrest
    rw [encode, symbols_head_append head matching hrest, hinner, symbols, ← List.append_assoc]
  | @group h m c ts head matching _ _ ih =>
    have hclose : Token.symbols (')' :: rest) = .rightParen :: Token.symbols rest :=
      Token.symbols_punctuation rest (by simp)
    have hparen : Delimited (')' :: rest) := delimited_cons (by decide)
    have hmembers : Token.symbols (encodeMembers ts ++ ')' :: rest) =
        symbolsMembers ts ++ .rightParen :: Token.symbols rest := by
      cases ts with
      | nil => exact hclose
      | cons t ts =>
        have ht := ih t (by simp) (delimited_encodeMore ts hparen)
        have hts : Token.symbols (encodeMore ts ++ ')' :: rest) =
            symbolsMore ts ++ Token.symbols (')' :: rest) :=
          symbols_encodeMore (fun u hu => ih u (by simp [hu])) hparen
        rw [encodeMembers, symbolsMembers, List.append_assoc, ht, hts, hclose, List.append_assoc]
    have hopen : Token.symbols ('(' :: (encodeMembers ts ++ ')' :: rest)) =
        .leftParen :: (symbolsMembers ts ++ .rightParen :: Token.symbols rest) := by
      rw [Token.symbols_punctuation (y := .leftParen) _ (by simp), hmembers]
    rw [encode, symbols_head_append head matching hrest, symbols]
    simpa using hopen

theorem symbols_encodeOption {o : Option Test} (h : ∀ t ∈ o, t.Sound v) (hrest : Delimited rest) :
    Token.symbols (encodeOption o ++ rest) = symbolsOption o ++ Token.symbols rest := by
  cases o with
  | none => rfl
  | some t => exact symbols_encode (h t rfl) hrest

end Test

namespace Item
variable {v : Vocabulary}

theorem symbols_encodeAll_of_forall {is : List Item} (depth : Nat) (ih : ∀ i ∈ is, ∀ depth rest,
      Token.symbols (encode depth i ++ '\r' :: '\n' :: rest) = i.symbols ++ Token.symbols rest)
    (rest : List Char) :
    Token.symbols (encodeAll depth is ++ rest) = symbolsAll is ++ Token.symbols rest := by
  induction is with
  | nil => rfl
  | cons i is ihis =>
    have hi := ih i (by simp) depth (encodeAll depth is ++ rest)
    have his := ihis fun j hj => ih j (by simp [hj])
    rw [his] at hi
    simpa [encodeAll, symbolsAll] using hi

/-- A sound item is read back as it is written. -/
theorem symbols_encode {i : Item} (h : i.Sound v) (depth : Nat) (rest : List Char) :
    Token.symbols (encode depth i ++ '\r' :: '\n' :: rest) = i.symbols ++ Token.symbols rest := by
  induction h generalizing depth rest with
  | @comment c lexical =>
    rw [encode, List.append_assoc, Token.symbols_indentation,
      Comment.symbols_encode lexical (by simp [isLineBreak]), Token.symbols_crlf]
    rfl
  | @action h a head _ fit =>
    have hsemicolon : Delimited (';' :: '\r' :: '\n' :: rest) := delimited_cons (by decide)
    have hbody := hsemicolon.spaced_append (Argument.encodeAll a.arguments)
    simp only [encode, List.append_assoc, List.singleton_append]
    rw [Token.symbols_indentation, Head.symbols_encode head hbody, Token.symbols_spaced,
      Argument.symbols_encodeAll fit.lexical hsemicolon,
      Token.symbols_punctuation (y := .semicolon) _ (by simp), Token.symbols_crlf]
    simp [symbols]
  | @conditional h test block head _ tests _ ih =>
    have hblock : ∀ tail, Token.symbols (encodeBlock depth block ++ tail) =
        .blockStart :: (symbolsAll block ++ .blockEnd :: Token.symbols tail) := by
      intro tail
      cases block with
      | nil =>
        show Token.symbols (' ' :: '{' :: '}' :: tail) = _
        rw [Token.symbols_layout (by decide), Token.symbols_punctuation (y := .blockStart) _ (by simp),
          Token.symbols_punctuation (y := .blockEnd) _ (by simp)]
        rfl
      | cons i is =>
        have hitems := symbols_encodeAll_of_forall (depth + 1) ih
          (indentation depth ++ '}' :: tail)
        rw [Token.symbols_indentation, Token.symbols_punctuation (y := .blockEnd) _ (by simp)] at hitems
        have hline : encodeBlock depth (i :: is) ++ tail = ' ' :: '{' :: '\r' :: '\n' ::
            (encodeAll (depth + 1) (i :: is) ++ (indentation depth ++ '}' :: tail)) := by
          simp [encodeBlock, encodeAll]
        rw [hline, Token.symbols_layout (by decide),
          Token.symbols_punctuation (y := .blockStart) _ (by simp), Token.symbols_crlf, hitems]
    have hdelimited : Delimited (encodeBlock depth block ++ '\r' :: '\n' :: rest) := by
      cases block <;> exact delimited_cons (by decide)
    have htest := hdelimited.spaced_append (Test.encodeOption test)
    simp only [encode, List.append_assoc]
    rw [Token.symbols_indentation, Head.symbols_encode head htest, Token.symbols_spaced,
      Test.symbols_encodeOption tests hdelimited, hblock, Token.symbols_crlf]
    simp [symbols]

theorem symbols_encodeAll {is : List Item} (h : ∀ i ∈ is, i.Sound v) :
    Token.symbols (encodeAll 0 is) = symbolsAll is := by
  have hall := symbols_encodeAll_of_forall 0 (fun i hi => symbols_encode (h i hi)) []
  simpa using hall

end Item

end

/-! ### Line endings of what is written -/

theorem Normalized.spaced {cs : List Char} (h : Normalized cs) : Normalized (spaced cs) := by
  cases cs with
  | nil => exact h
  | cons c cs =>
    have hspace : Normalized [' '] := by simp [normalized_iff]
    exact hspace.append h

theorem normalized_indentation (depth : Nat) : Normalized (Item.indentation depth) := by
  refine IsLine.normalized fun c hc => ?_
  rw [List.eq_of_mem_replicate hc]
  rfl

theorem Head.Lexical.normalized_encode {h : Head} (hh : h.Lexical) : Normalized h.encode := by
  refine (isLine_of_isWordChar hh.word.chars).normalized.append ?_
  have hcomments := hh.comments
  generalize h.comments = cs at hcomments
  induction cs with
  | nil => exact normalized_nil
  | cons c cs ih =>
    exact (Comment.normalized_encodeAttached (hcomments c (by simp))).append
      (ih fun d hd => hcomments d (by simp [hd]))

theorem Matching.Lexical.normalized_encode {m : Matching} (hm : m.Lexical) : Normalized m.encode :=
  (normalized_encodeAll hm.allLexical).spaced

namespace Test
variable {v : Vocabulary}

theorem normalized_encodeMore {ts : List Test} (h : ∀ t ∈ ts, Normalized t.encode) :
    Normalized (encodeMore ts) := by
  have hcomma : Normalized [',', ' '] := by simp [normalized_iff, MayFollow]
  induction ts with
  | nil => exact normalized_nil
  | cons t ts ih =>
    exact (hcomma.append (h t (by simp))).append (ih fun u hu => h u (by simp [hu]))

theorem normalized_encode {t : Test} (h : t.Sound v) : Normalized t.encode := by
  induction h with
  | leaf head matching _ lexical _ =>
    exact (head.normalized_encode.append matching.normalized_encode).append
      (normalized_encodeAll lexical).spaced
  | @negation h m inner head matching _ _ ih =>
    refine (head.normalized_encode.append matching.normalized_encode).append (Normalized.spaced ?_)
    cases inner with
    | none => exact normalized_nil
    | some t => exact ih t rfl
  | @group h m c ts head matching _ _ ih =>
    have hmembers : Normalized (encodeMembers ts) := by
      cases ts with
      | nil => exact normalized_nil
      | cons t ts => exact (ih t (by simp)).append (normalized_encodeMore fun u hu => ih u (by simp [hu]))
    have hopen : Normalized ['('] := by simp [normalized_iff]
    have hclose : Normalized [')'] := by simp [normalized_iff]
    exact (head.normalized_encode.append matching.normalized_encode).append
      ((hopen.append hmembers).append hclose).spaced

end Test

namespace Item
variable {v : Vocabulary}

theorem normalized_encodeAll_of_forall {is : List Item} (depth : Nat)
    (h : ∀ i ∈ is, ∀ depth, Normalized (encode depth i)) : Normalized (encodeAll depth is) := by
  have hcrlf : Normalized ['\r', '\n'] := by simp [normalized_iff, MayFollow]
  induction is with
  | nil => exact normalized_nil
  | cons i is ih =>
    exact ((h i (by simp) depth).append hcrlf).append (ih fun j hj => h j (by simp [hj]))

theorem normalized_encode {i : Item} (h : i.Sound v) (depth : Nat) : Normalized (encode depth i) := by
  induction h generalizing depth with
  | comment lexical => exact (normalized_indentation depth).append (Comment.normalized_encode lexical)
  | action head _ fit =>
    have hsemicolon : Normalized [';'] := by simp [normalized_iff]
    exact (((normalized_indentation depth).append head.normalized_encode).append
      (Argument.normalized_encodeAll fit.lexical).spaced).append hsemicolon
  | @conditional h test block head _ tests _ ih =>
    have htest : Normalized (Test.encodeOption test) := by
      cases test with
      | none => exact normalized_nil
      | some t => exact Test.normalized_encode (tests t rfl)
    have hblock : Normalized (encodeBlock depth block) := by
      cases block with
      | nil => simp [encodeBlock, normalized_iff, MayFollow]
      | cons i is =>
        have hopen : Normalized [' ', '{', '\r', '\n'] := by simp [normalized_iff, MayFollow]
        have hclose : Normalized ['}'] := by simp [normalized_iff]
        have hitems := normalized_encodeAll_of_forall (depth + 1) ih
        have hlines := ((hopen.append hitems).append (normalized_indentation depth)).append hclose
        simpa [encodeBlock, encodeAll] using hlines
    exact (((normalized_indentation depth).append head.normalized_encode).append htest.spaced).append
      hblock

theorem normalized_encodeAll {is : List Item} (h : ∀ i ∈ is, i.Sound v) :
    Normalized (encodeAll 0 is) :=
  normalized_encodeAll_of_forall 0 fun i hi => normalized_encode (h i hi)

end Item

end SieveScript
