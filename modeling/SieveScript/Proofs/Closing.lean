import SieveScript.Proofs.Quoting
import SieveScript.Proofs.MultiLines
import SieveScript.Proofs.Tiling

/-!
# Where a delimited token ends

`Closes` says which token a delimiter opens: a string, a string list, a comment or a multi-line text
up to the first place that closes it, and something else if nothing does. A quote, a bracket and the
start of a bracket comment that stay open are the first characters of an unknown run; an opening
line without a closing dot starts with the word `text`. `Token.at?_of_opens` says that this token,
and no other one, is found. That nothing closes a token is said of the text, not of the scans: each
scan that succeeds has found a place that closes, so it fails where there is none.
-/

namespace SieveScript

/-! ### What closes a token -/

/-- The word `text`, in any letter case, with its colon, spaces and tabs, a comment if there is one,
and the end of the line. -/
inductive IsOpeningLine : List Char → Prop
  | mk {t e x t' : Char} {ind note : List Char}
      (hl : [t, e, x, t'].map Char.toLower = ['t', 'e', 'x', 't'])
      (hind : ∀ c ∈ ind, Lexeme.isIndent c = true)
      (hnote : note = [] ∨ ∃ com, IsLine com ∧ note = '#' :: com) :
      IsOpeningLine (t :: e :: x :: t' :: ':' :: (ind ++ (note ++ ['\r', '\n'])))

/-- A line that is a single dot, with its CRLF or as the last line of the text. -/
inductive IsDotLine : List Char → List Char → Prop
  | crlf (after : List Char) : IsDotLine ['.', '\r', '\n'] after
  | last : IsDotLine ['.'] []

/-- The end of a bracket comment. -/
def starSlash : List Char :=
  ['*', '/']

/-- The characters up to the next layout. -/
def unknownRun (cs : List Char) : List Char :=
  cs.takeWhile (!isLayout ·)

/-- The kind and the lexeme of the token that a delimiter at the start of a text opens. -/
inductive Closes : List Char → Kind → List Char → Prop
  /-- A string ends with the first quote that no backslash escapes. -/
  | quoted {body : List Char} (h : Quoted.Inside body) (after : List Char) :
      Closes ('"' :: (body ++ '"' :: after)) .quoted ('"' :: (body ++ ['"']))
  | openQuote {cs : List Char} (h : ∀ body after, Quoted.Inside body → cs ≠ body ++ '"' :: after) :
      Closes ('"' :: cs) .unknown (unknownRun ('"' :: cs))
  /-- A bracket comment ends with the first end behind its two opening characters. -/
  | bracketComment {body : List Char} (h : ¬starSlash <:+: body) (after : List Char) :
      Closes ('/' :: '*' :: (body ++ (starSlash ++ after))) .bracketComment
        ('/' :: '*' :: (body ++ starSlash))
  | openComment {cs : List Char} (h : ¬starSlash <:+: cs) :
      Closes ('/' :: '*' :: cs) .unknown (unknownRun ('/' :: '*' :: cs))
  /-- A hash comment ends with its line. -/
  | hashComment {line after : List Char} (h : IsLine line)
      (hafter : ∀ c ∈ after.head?, isLineBreak c = true) :
      Closes ('#' :: (line ++ after)) .hashComment ('#' :: line)
  /-- A string list is whatever beginning of the text is one. -/
  | stringList {qs : List (List Char)} {list : List Char} (h : StringList.Written qs list)
      (after : List Char) : Closes (list ++ after) .stringList list
  | openBracket {cs : List Char}
      (h : ∀ qs list after, StringList.Written qs list → '[' :: cs ≠ list ++ after) :
      Closes ('[' :: cs) .unknown (unknownRun ('[' :: cs))
  /-- A multi-line text ends with the first of its lines that is a single dot. -/
  | multiLine {line dot after : List Char} {ls : List (List Char)} (hline : IsOpeningLine line)
      (hls : ∀ l ∈ ls, IsLine l) (hfirst : ['.'] ∉ ls) (hdot : IsDotLine dot after) :
      Closes (line ++ (joinLines ls ++ (dot ++ after))) .multiLine (line ++ (joinLines ls ++ dot))
  | openLine {line body : List Char} (hline : IsOpeningLine line)
      (h : ∀ ls dot after, (∀ l ∈ ls, IsLine l) → IsDotLine dot after →
        body ≠ joinLines ls ++ (dot ++ after)) :
      Closes (line ++ body) .word (line.take 4)

/-- The text starts with a delimiter that opens a token. -/
inductive Opens : List Char → Prop
  | quote (cs : List Char) : Opens ('"' :: cs)
  | bracketComment (cs : List Char) : Opens ('/' :: '*' :: cs)
  | hash (cs : List Char) : Opens ('#' :: cs)
  | bracket (cs : List Char) : Opens ('[' :: cs)
  | line {line : List Char} (h : IsOpeningLine line) (cs : List Char) : Opens (line ++ cs)

/-! ### The scans find what closes a token -/

namespace Lexeme

theorem closingStar_first {body : List Char} (h : ¬starSlash <:+: body) (after : List Char) :
    closingStar (body ++ (starSlash ++ after)) = some (body.length + 2) := by
  induction body with
  | nil => rfl
  | cons c body ih =>
    rw [List.infix_cons_iff, not_or] at h
    rw [List.cons_append, closingStar, ih h.2]
    · rfl
    · rintro ds rfl hds
      cases body with
      | nil => simp [starSlash] at hds
      | cons d body =>
        rw [List.cons_append, List.cons.injEq] at hds
        exact h.1 ⟨body, by rw [hds.1]; rfl⟩

theorem infix_of_closingStar {cs : List Char} {n : Nat} (h : closingStar cs = some n) :
    starSlash <:+: cs := by
  obtain ⟨t, ht, -, -⟩ := closingStar_eq_some h
  exact ⟨t, cs.drop n, by rw [show t ++ starSlash = cs.take n from ht.symm, List.take_append_drop]⟩

theorem openingLine?_of_isOpeningLine {line : List Char} (h : IsOpeningLine line)
    (body : List Char) : ∃ note, openingLine? (line ++ body) = some (note, body) := by
  obtain ⟨hl, hind, rfl | ⟨com, hcom, rfl⟩⟩ := h
  · exact ⟨none, by simpa using openingLine?_bare hl hind body⟩
  · exact ⟨some com, by simpa using openingLine?_note hl hind hcom body⟩

theorem multiLine_of_isOpeningLine {line : List Char} (h : IsOpeningLine line)
    (body : List Char) : multiLine (line ++ body) = (closingDot true body).map (line.length + ·) := by
  obtain ⟨note, ho⟩ := openingLine?_of_isOpeningLine h body
  rw [multiLine, ho]
  simp

theorem closingDot_of_isDotLine {dot after : List Char} (h : IsDotLine dot after) :
    closingDot true (dot ++ after) = some dot.length := by
  cases h <;> rfl

theorem exists_isDotLine_of_closingDot {cs : List Char} {n : Nat}
    (h : closingDot true cs = some n) :
    ∃ ls dot after, (∀ l ∈ ls, IsLine l) ∧ IsDotLine dot after ∧
      cs = joinLines ls ++ (dot ++ after) := by
  obtain ⟨ls, dot, htake, hdot, hls, -, hend⟩ := closingDot_eq_some h
  have hcs : cs = joinLines ls ++ (dot ++ cs.drop n) := by
    rw [← List.append_assoc, ← htake, List.take_append_drop]
  refine ⟨ls, dot, cs.drop n, hls, ?_, hcs⟩
  rcases hdot with rfl | rfl
  · rw [hend rfl]
    exact .last
  · exact .crlf _

end Lexeme

/-- Of the ends of a comment in a text one is the first. -/
theorem exists_first_starSlash {cs : List Char} (h : starSlash <:+: cs) :
    ∃ body after, ¬starSlash <:+: body ∧ cs = body ++ (starSlash ++ after) := by
  induction cs with
  | nil => simp [starSlash] at h
  | cons c cs ih =>
    by_cases hc : starSlash <+: c :: cs
    · obtain ⟨after, hafter⟩ := hc
      exact ⟨[], after, by simp [starSlash], hafter.symm⟩
    · obtain ⟨body, after, hbody, rfl⟩ := ih ((List.infix_cons_iff.1 h).resolve_left hc)
      refine ⟨c :: body, after, fun hin => ?_, rfl⟩
      rcases List.infix_cons_iff.1 hin with hpre | hin
      · exact hc (hpre.trans ⟨starSlash ++ after, rfl⟩)
      · exact hbody hin

/-- Of the lines that are a single dot one is the first. -/
theorem exists_first_isDotLine {ls : List (List Char)} {dot after : List Char}
    (hls : ∀ l ∈ ls, IsLine l) (hdot : IsDotLine dot after) :
    ∃ ls' dot' after', (∀ l ∈ ls', IsLine l) ∧ ['.'] ∉ ls' ∧ IsDotLine dot' after' ∧
      joinLines ls ++ (dot ++ after) = joinLines ls' ++ (dot' ++ after') := by
  by_cases hmem : ['.'] ∈ ls
  · obtain ⟨xs, ys, rfl, hxs⟩ := List.eq_append_cons_of_mem hmem
    refine ⟨xs, _, joinLines ys ++ (dot ++ after), fun l hl => hls l (by simp [hl]), hxs, .crlf _, ?_⟩
    simp [joinLines]
  · exact ⟨ls, dot, after, hls, hmem, hdot, rfl⟩

/-- A delimiter that opens nothing starts an unknown run. -/
theorem scan_unknownRun {k : Kind} {c : Char} {cs : List Char} (hlayout : isLayout c = false)
    (hc : ∀ k' ∈ Kind.all.takeWhile (· != Kind.unknown), k' ≠ k → k'.starts c = false)
    (h : k.measure (c :: cs) = none) :
    unknownRun (c :: cs) <+: c :: cs ∧
      scan (c :: cs) = some (.unknown, (unknownRun (c :: cs)).length) := by
  refine ⟨List.takeWhile_prefix _, ?_⟩
  rw [scan_unknown hlayout hc h, unknownRun, List.takeWhile_cons_of_pos (by simp [hlayout]),
    List.length_cons]

namespace Closes
variable {rest lexeme : List Char} {k : Kind}

/-- What closes a token is found: the scan fails only where the text has nothing to find. -/
theorem scan_eq (h : Closes rest k lexeme) :
    lexeme <+: rest ∧ scan rest = some (k, lexeme.length) := by
  cases h with
  | @quoted body h after =>
    refine ⟨⟨after, by simp⟩, ?_⟩
    have hscan := scan_quoted (Lexeme.quoted_append (.mk h) after)
    simpa using hscan
  | @openQuote cs h =>
    refine scan_unknownRun (k := .quoted) (by decide) (by decide) ?_
    rw [Kind.measure, Lexeme.quoted, Option.map_eq_none_iff]
    by_contra hne
    obtain ⟨n, hn⟩ := Option.ne_none_iff_exists'.1 hne
    obtain ⟨body, hbody, htake⟩ := Lexeme.exists_inside_of_closingQuote hn
    refine h body (cs.drop n) hbody ?_
    rw [List.append_cons, ← htake, List.take_append_drop]
  | @bracketComment body h after =>
    refine ⟨⟨after, by simp⟩, ?_⟩
    rw [scan_bracketComment (Lexeme.closingStar_first h after)]
    simp [starSlash]
  | @openComment cs h =>
    refine scan_unknownRun (k := .bracketComment) (by decide) (by decide) ?_
    rw [Kind.measure, Lexeme.bracketComment, Option.map_eq_none_iff]
    by_contra hne
    obtain ⟨n, hn⟩ := Option.ne_none_iff_exists'.1 hne
    exact h (Lexeme.infix_of_closingStar hn)
  | @hashComment line after h hafter =>
    have hpos : ∀ c ∈ line, (!isLineBreak c) = true := fun c hc => by rw [h c hc]; rfl
    have hnil : after.takeWhile (!isLineBreak ·) = [] := by
      cases after with
      | nil => rfl
      | cons c after => simp [hafter c rfl]
    refine ⟨⟨after, rfl⟩, ?_⟩
    rw [scan_hashComment, List.takeWhile_append_of_pos hpos, hnil, List.append_nil, List.length_cons]
  | @stringList qs list h after =>
    exact ⟨⟨after, rfl⟩, scan_stringList (Lexeme.stringList_append h after)⟩
  | @openBracket cs h =>
    refine scan_unknownRun (k := .stringList) (by decide) (by decide) ?_
    rw [Kind.measure]
    by_contra hne
    obtain ⟨n, hn⟩ := Option.ne_none_iff_exists'.1 hne
    obtain ⟨qs, hqs⟩ := Lexeme.exists_written_of_stringList hn
    exact h qs _ (('[' :: cs).drop n) hqs (List.take_append_drop n _).symm
  | @multiLine line dot after ls hline hls hfirst hdot =>
    refine ⟨⟨after, by simp⟩, scan_multiLine ?_⟩
    rw [Lexeme.multiLine_of_isOpeningLine hline, Lexeme.closingDot_lines hls hfirst,
      Lexeme.closingDot_of_isDotLine hdot]
    simp
    omega
  | @openLine line body hline h =>
    have hnone : Lexeme.multiLine (line ++ body) = none := by
      rw [Lexeme.multiLine_of_isOpeningLine hline, Option.map_eq_none_iff]
      by_contra hne
      obtain ⟨n, hn⟩ := Option.ne_none_iff_exists'.1 hne
      obtain ⟨ls, dot, after, hls, hdot, hbody⟩ := Lexeme.exists_isDotLine_of_closingDot hn
      exact h ls dot after hls hdot hbody
    have hpre : line.take 4 <+: line := List.take_prefix 4 line
    refine ⟨hpre.trans (List.prefix_append line body), ?_⟩
    obtain ⟨hl, -, -⟩ := hline
    have hstart := Lexeme.isWordStart_of_toLower (List.cons.inj hl).1 (by decide)
    simp only [List.cons_append] at hnone ⊢
    rw [scan_word_of_multiLine hstart hnone, Lexeme.takeWhile_isWordChar_text hl]
    rfl

theorem exists_of_opens (h : Opens rest) : ∃ k lexeme, Closes rest k lexeme := by
  cases h with
  | quote cs =>
    by_cases hclosed : ∃ body after, Quoted.Inside body ∧ cs = body ++ '"' :: after
    · obtain ⟨body, after, hbody, rfl⟩ := hclosed
      exact ⟨_, _, .quoted hbody after⟩
    · exact ⟨_, _, .openQuote fun body after hbody hcs => hclosed ⟨body, after, hbody, hcs⟩⟩
  | bracketComment cs =>
    by_cases hclosed : starSlash <:+: cs
    · obtain ⟨body, after, hbody, rfl⟩ := exists_first_starSlash hclosed
      exact ⟨_, _, .bracketComment hbody after⟩
    · exact ⟨_, _, .openComment hclosed⟩
  | hash cs =>
    have hafter : ∀ c ∈ (cs.dropWhile (!isLineBreak ·)).head?, isLineBreak c = true := by
      intro c hc
      have := List.head?_dropWhile_not (!isLineBreak ·) cs
      rw [Option.mem_def.1 hc] at this
      simpa using this
    have h := hashComment (isLine_takeWhile cs) hafter
    rw [List.takeWhile_append_dropWhile] at h
    exact ⟨_, _, h⟩
  | bracket cs =>
    by_cases hclosed : ∃ qs list after, StringList.Written qs list ∧ '[' :: cs = list ++ after
    · obtain ⟨qs, list, after, hlist, hcs⟩ := hclosed
      rw [hcs]
      exact ⟨_, _, .stringList hlist after⟩
    · exact ⟨_, _, .openBracket fun qs list after hlist hcs => hclosed ⟨qs, list, after, hlist, hcs⟩⟩
  | line hline cs =>
    by_cases hclosed : ∃ ls dot after, (∀ l ∈ ls, IsLine l) ∧ IsDotLine dot after ∧
        cs = joinLines ls ++ (dot ++ after)
    · obtain ⟨ls, dot, after, hls, hdot, rfl⟩ := hclosed
      obtain ⟨ls', dot', after', hls', hfirst, hdot', heq⟩ := exists_first_isDotLine hls hdot
      rw [heq]
      exact ⟨_, _, .multiLine hline hls' hfirst hdot'⟩
    · exact ⟨_, _, .openLine hline fun ls dot after hls hdot hcs =>
        hclosed ⟨ls, dot, after, hls, hdot, hcs⟩⟩

end Closes

namespace Token

/-- At a delimiter that opens a token, the token that closes as `Closes` says is found, and `Closes`
says so of no other one. -/
theorem at?_of_opens {text : String} {before rest : List Char}
    (h : text.toList = before ++ rest) (ho : Opens rest) :
    ∃ k lexeme, Closes rest k lexeme ∧
      at? text (byteLength before) =
        some (k, String.ofList lexeme, byteLength (before ++ lexeme)) ∧
      ∀ k' lexeme', Closes rest k' lexeme' → k' = k ∧ lexeme' = lexeme := by
  obtain ⟨k, lexeme, hcloses⟩ := Closes.exists_of_opens ho
  obtain ⟨hstarts, hscan⟩ := hcloses.scan_eq
  refine ⟨k, lexeme, hcloses, ?_, fun k' lexeme' hcloses' => ?_⟩
  · rw [at?_of_append h, hscan, Option.map_some, byteLength_append]
    simp only
    rw [← List.prefix_iff_eq_take.1 hstarts]
  · obtain ⟨hstarts', hscan'⟩ := hcloses'.scan_eq
    rw [hscan] at hscan'
    obtain ⟨rfl, hlen⟩ := Prod.mk.inj (Option.some.inj hscan')
    exact ⟨rfl, (List.prefix_of_prefix_length_le hstarts' hstarts (by omega)).eq_of_length hlen.symm⟩

/-- An instance at a string list behind a character of two bytes: a bracket and an escaped quote stand
inside its first element. -/
theorem at?_of_opens_bracket :
    let text := "é[ \"a\\\"]\" ,\"b\"] ;"
    let rest := "[ \"a\\\"]\" ,\"b\"] ;".toList
    text.toList = ['é'] ++ rest ∧ Opens rest ∧
      ∃ k lexeme, Closes rest k lexeme ∧
        at? text (byteLength ['é']) =
          some (k, String.ofList lexeme, byteLength (['é'] ++ lexeme)) ∧
        ∀ k' lexeme', Closes rest k' lexeme' → k' = k ∧ lexeme' = lexeme := by
  intro text rest
  have htext : text.toList = ['é'] ++ rest := by decide
  have hopens : Opens rest := .bracket " \"a\\\"]\" ,\"b\"] ;".toList
  exact ⟨htext, hopens, at?_of_opens htext hopens⟩

end Token

end SieveScript
