import Mathlib.Data.List.DropRight
import SieveScript.Proofs.Scanning
import SieveScript.Proofs.LineEndings

/-!
# Comments are read back as they are written

A comment is `Lexical` if some token of a normalized text stands for it: a hash comment is trimmed
and on one line, a bracket comment does not hold the end of one. A lexical comment is read back as it
is written (`Comment.symbols_encode`).
-/

namespace SieveScript

/-! ### Trimming -/

theorem trim_eq_rdropWhile (cs : List Char) :
    trim cs = (cs.dropWhile isBlank).rdropWhile isBlank := rfl

theorem trim_subset (cs : List Char) : trim cs ⊆ cs := by
  intro c hc
  have hpre := List.rdropWhile_prefix isBlank (cs.dropWhile isBlank)
  exact (List.dropWhile_sublist isBlank).subset (hpre.subset hc)

theorem trim_cons_of_isBlank {c : Char} {cs : List Char} (hc : isBlank c = true) :
    trim (c :: cs) = trim cs := by
  rw [trim, List.dropWhile_cons_of_pos hc, trim]

theorem trim_trim (cs : List Char) : trim (trim cs) = trim cs := by
  have hhead : (trim cs).dropWhile isBlank = trim cs := by
    obtain ⟨rest, hrest⟩ : (cs.dropWhile isBlank).rdropWhile isBlank <+: cs.dropWhile isBlank :=
      List.rdropWhile_prefix isBlank _
    have hnot := List.head?_dropWhile_not isBlank cs
    rw [trim_eq_rdropWhile]
    generalize (cs.dropWhile isBlank).rdropWhile isBlank = ds at hrest
    rw [← hrest] at hnot
    cases ds with
    | nil => rfl
    | cons d ds => exact List.dropWhile_cons_of_neg (by simpa using hnot)
  rw [trim_eq_rdropWhile (trim cs), hhead, trim_eq_rdropWhile, List.rdropWhile_idempotent]

namespace Lexeme

/-! ### Bracket comments -/

theorem closingStar_append {cs : List Char} {n : Nat} (h : closingStar cs = some n)
    (ds : List Char) : closingStar (cs ++ ds) = some n := by
  fun_induction closingStar cs generalizing n with
  | case1 => contradiction
  | case2 => exact h
  | case3 c cs hne ih =>
    obtain ⟨m, hm, rfl⟩ := Option.map_eq_some_iff.1 h
    cases cs with
    | nil => contradiction
    | cons d cs =>
      rw [List.cons_append, closingStar, ih hm]
      · rfl
      · rintro es rfl hes
        cases hes
        exact hne _ rfl rfl

/-- A bracket comment ends with the first end of one. -/
theorem closingStar_eq_some {cs : List Char} {n : Nat} (h : closingStar cs = some n) :
    ∃ t, cs.take n = t ++ ['*', '/'] ∧ n = t.length + 2 ∧
      closingStar (t ++ ['*', '/']) = some (t.length + 2) := by
  fun_induction closingStar cs generalizing n with
  | case1 => contradiction
  | case2 cs => cases h; exact ⟨[], rfl, rfl, rfl⟩
  | case3 c cs hne ih =>
    obtain ⟨m, hm, rfl⟩ := Option.map_eq_some_iff.1 h
    obtain ⟨t, ht, rfl, hclose⟩ := ih hm
    refine ⟨c :: t, by simp [ht], by simp, ?_⟩
    rw [List.cons_append, closingStar, hclose]
    · rfl
    · rintro es rfl hes
      cases cs with
      | nil => contradiction
      | cons d cs =>
        rw [hes] at ht
        simp only [List.take_succ_cons, List.cons.injEq] at ht
        exact hne cs rfl (by rw [ht.1])

end Lexeme

namespace Comment

/-- Some token of a normalized text stands for the comment. -/
def Lexical : Comment → Prop
  | hash t => trim t.toList = t.toList ∧ IsLine t.toList
  | bracket t =>
    Normalized t.toList ∧ Lexeme.closingStar (t.toList ++ ['*', '/']) = some (t.toList.length + 2)

theorem lexical_ofHashToken {cs : List Char} (h : IsLine cs) : (ofHashToken ('#' :: cs)).Lexical := by
  simp only [ofHashToken, Lexical, String.toList_ofList]
  exact ⟨trim_trim cs, h.mono (trim_subset cs)⟩

theorem ofBracketToken_eq (t : List Char) :
    ofBracketToken ('/' :: '*' :: (t ++ ['*', '/'])) = bracket (String.ofList t) := by
  have hs : ['*', '/'].isSuffixOf (t ++ ['*', '/']) = true :=
    List.isSuffixOf_iff_suffix.2 (List.suffix_append t _)
  simp [ofBracketToken, hs]

/-- A bracket comment ends where it is closed, whatever follows. -/
theorem symbols_bracket {t : String} {rest : List Char}
    (h : Lexeme.closingStar (t.toList ++ ['*', '/']) = some (t.toList.length + 2)) :
    Token.symbols ((bracket t).encode ++ rest) = .comment (bracket t) :: Token.symbols rest := by
  have hscan : scan ((bracket t).encode ++ rest) =
      some (.bracketComment, (bracket t).encode.length) := by
    have := scan_bracketComment (Lexeme.closingStar_append h rest)
    simpa [encode] using this
  rw [Token.symbols_append_of_scan hscan]
  have hof := ofBracketToken_eq t.toList
  rw [String.ofList_toList] at hof
  show [Symbol.comment (ofBracketToken ('/' :: '*' :: (t.toList ++ ['*', '/'])))] ++ _ = _
  rw [hof]
  rfl

/-- A hash comment runs to the end of its line. -/
theorem symbols_hash {cs rest : List Char} (h : IsLine cs)
    (hrest : ∀ d ∈ rest.head?, isLineBreak d = true) :
    Token.symbols ('#' :: cs ++ rest) = .comment (ofHashToken ('#' :: cs)) :: Token.symbols rest := by
  have htake : (cs ++ rest).takeWhile (!isLineBreak ·) = cs := by
    rw [List.takeWhile_append_of_pos fun c hc => by simp [h c hc]]
    cases rest with
    | nil => simp
    | cons d rest => simp [hrest d (by simp)]
  refine Token.symbols_append_of_scan (k := .hashComment) ?_
  rw [List.cons_append, scan_hashComment, htake, List.length_cons]

/-- A lexical comment is read back as it is written; a hash comment has to end with its line. -/
theorem symbols_encode {c : Comment} (h : c.Lexical) {rest : List Char}
    (hrest : ∀ d ∈ rest.head?, isLineBreak d = true) :
    Token.symbols (c.encode ++ rest) = .comment c :: Token.symbols rest := by
  cases c with
  | hash t =>
    obtain ⟨htrim, hline⟩ := h
    by_cases ht : t = ""
    · subst ht
      have hnil : IsLine [] := by simp [IsLine]
      exact symbols_hash hnil hrest
    · have henc : (hash t).encode = '#' :: (' ' :: t.toList) := by simp [encode, ht]
      have hof : ofHashToken ('#' :: ' ' :: t.toList) = hash t := by
        rw [ofHashToken, trim_cons_of_isBlank (by decide), htrim, String.ofList_toList]
      rw [henc, symbols_hash (hline.cons (by decide)) hrest, hof]
  | bracket t => exact symbols_bracket h.2

theorem symbols_encodeAttached {c : Comment} (h : c.Lexical) (rest : List Char) :
    Token.symbols (c.encodeAttached ++ rest) = .comment c :: Token.symbols rest := by
  cases c with
  | hash t =>
    have hcrlf : Token.symbols ('\r' :: '\n' :: rest) = Token.symbols rest := by
      rw [Token.symbols_layout (by decide), Token.symbols_layout (by decide)]
    rw [encodeAttached, List.cons_append, List.cons_append, List.append_assoc,
      Token.symbols_layout (by decide), symbols_encode h (by simp [isLineBreak])]
    exact congrArg _ hcrlf
  | bracket t =>
    rw [encodeAttached, List.cons_append, Token.symbols_layout (by decide), symbols_bracket h.2]

theorem normalized_encode {c : Comment} (h : c.Lexical) : Normalized c.encode := by
  cases c with
  | hash t =>
    rw [encode]
    split
    · simp [normalized_iff]
    · exact ((h.2.cons (c := ' ') (by decide)).cons (c := '#') (by decide)).normalized
  | bracket t =>
    have hopen : Normalized ['/', '*'] := by simp [normalized_iff, MayFollow]
    have hclose : Normalized ['*', '/'] := by simp [normalized_iff, MayFollow]
    exact (hopen.append h.1).append hclose

theorem normalized_encodeAttached {c : Comment} (h : c.Lexical) : Normalized c.encodeAttached := by
  have hspace : Normalized [' '] := by simp [normalized_iff]
  have hcrlf : Normalized ['\r', '\n'] := by simp [normalized_iff, MayFollow]
  cases c with
  | hash t => exact (hspace.append (normalized_encode h)).append hcrlf
  | bracket t => exact hspace.append (normalized_encode h)

end Comment

end SieveScript
