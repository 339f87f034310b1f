import SieveScript.Proofs.Symbols

/-!
# Which lexeme a text starts with

The first character of a text leaves few kinds of token to choose from (`Kind.measure_eq_none`), so
a lexeme that is measured at the start of a text is the token that is scanned there. The one choice
that a character does not make is between a word and a multi-line text: `text` starts one only
before a colon.
-/

namespace SieveScript

/-! ### Characters of words and numbers -/

/-- What holds of each ASCII character. -/
theorem forall_ascii {p : Char → Prop} (h : ∀ n < 128, p (Char.ofNat n)) {c : Char}
    (hc : c.toNat < 128) : p c := by
  have := h c.toNat hc
  rwa [Char.ofNat_toNat] at this

/-- A character that is not ASCII has no other case. -/
theorem toLower_eq_self {c : Char} (hc : 128 ≤ c.toNat) : c.toLower = c := by
  unfold Char.toLower
  split
  next h =>
    have hle : c.toNat ≤ 'Z'.toNat := h.2
    have hz : 'Z'.toNat < 128 := by decide
    omega
  · rfl

/-- What tells no ASCII letter from its other case tells none. -/
theorem apply_toLower {α : Type} {f : Char → α}
    (h : ∀ n < 128, f (Char.ofNat n).toLower = f (Char.ofNat n)) (c : Char) : f c.toLower = f c := by
  by_cases hc : c.toNat < 128
  · exact forall_ascii (p := fun c => f c.toLower = f c) h hc
  · rw [toLower_eq_self (Nat.not_lt.1 hc)]

theorem toLower_idem (c : Char) : c.toLower.toLower = c.toLower :=
  apply_toLower (by decide) c

namespace Lexeme
variable {c : Char}

theorem toNat_lt_of_isWordChar (hc : isWordChar c = true) : c.toNat < 128 := by
  replace hc : (c.isUpper || c.isLower || c.isDigit || c == '_') = true := hc
  simp only [Bool.or_eq_true, beq_iff_eq] at hc
  rcases hc with ((hc | hc) | hc) | rfl
  · have hle : c.val ≤ 'Z'.val := (of_decide_eq_true hc).2
    exact Nat.lt_of_le_of_lt hle (by decide)
  · have hle : c.val ≤ 'z'.val := of_decide_eq_true (Bool.and_eq_true_iff.1 hc).2
    exact Nat.lt_of_le_of_lt hle (by decide)
  · have hle : c.val ≤ '9'.val := of_decide_eq_true (Bool.and_eq_true_iff.1 hc).2
    exact Nat.lt_of_le_of_lt hle (by decide)
  · decide

theorem isWordChar_of_isWordStart (hc : isWordStart c = true) : isWordChar c = true := by
  simp only [isWordStart, Bool.or_eq_true] at hc
  rcases hc with hc | hc <;> simp [isWordChar, Char.isAlphanum, hc]

theorem isWordChar_of_isDigit (hc : c.isDigit = true) : isWordChar c = true := by
  simp [isWordChar, Char.isAlphanum, hc]

theorem isWordStart_toLower (hc : isWordStart c = true) : isWordStart c.toLower = true :=
  forall_ascii (p := fun c => isWordStart c = true → isWordStart c.toLower = true) (by decide)
    (toNat_lt_of_isWordChar (isWordChar_of_isWordStart hc)) hc

theorem isWordChar_toLower (hc : isWordChar c = true) : isWordChar c.toLower = true :=
  forall_ascii (p := fun c => isWordChar c = true → isWordChar c.toLower = true) (by decide)
    (toNat_lt_of_isWordChar hc) hc

theorem isWordStart_of_toLower {d : Char} (h : c.toLower = d) (hd : isWordStart d = true) :
    isWordStart c = true := by
  unfold Char.toLower at h
  split at h
  next hc =>
    have hupper : c.isUpper = true := decide_eq_true hc
    have halpha : c.isAlpha = true := Bool.or_eq_true_iff.2 (.inl hupper)
    simp [isWordStart, halpha]
  · rw [h]
    exact hd

theorem run_cons_of_not {p : Char → Bool} {cs : List Char} (h : p c = false) :
    run p (c :: cs) = none := by
  simp [run, h]

theorem run_cons {p : Char → Bool} {cs : List Char} (h : p c = true) :
    run p (c :: cs) = some ((cs.takeWhile p).length + 1) := by
  simp [run, h]

theorem run_eq_some {p : Char → Bool} {cs : List Char} {n : Nat} (h : run p cs = some n) :
    n = (cs.takeWhile p).length := by
  unfold run at h
  split at h
  · contradiction
  next m hm => cases h; exact hm.symm

theorem run_of_ne_nil {p : Char → Bool} {cs : List Char} (h : cs.takeWhile p ≠ []) :
    run p cs = some (cs.takeWhile p).length := by
  unfold run
  split
  next hm => exact absurd (List.length_eq_zero_iff.1 hm) h
  next m hm => rw [hm]

/-- An opening line starts with the four letters of `text` and a colon. -/
theorem openingLine?_eq_some {cs : List Char} {r : Option (List Char) × List Char}
    (h : openingLine? cs = some r) :
    ∃ t e x t' ds, cs = t :: e :: x :: t' :: ':' :: ds ∧
      [t, e, x, t'].map Char.toLower = ['t', 'e', 'x', 't'] := by
  unfold openingLine? at h
  split at h
  next t e x t' ds =>
    split at h
    next hl => exact ⟨t, e, x, t', ds, rfl, hl⟩
    · contradiction
  · contradiction

/-- The word of an opening line ends before its colon. -/
theorem takeWhile_isWordChar_text {t e x t' : Char}
    (hl : [t, e, x, t'].map Char.toLower = ['t', 'e', 'x', 't']) (cs : List Char) :
    (e :: x :: t' :: ':' :: cs).takeWhile isWordChar = [e, x, t'] := by
  have hword : ∀ {c d : Char}, c.toLower = d → isWordStart d = true → isWordChar c = true :=
    fun h hd => isWordChar_of_isWordStart (isWordStart_of_toLower h hd)
  simp only [List.map_cons, List.map_nil, List.cons.injEq, and_true] at hl
  obtain ⟨-, he, hx, ht⟩ := hl
  rw [List.takeWhile_cons_of_pos (hword he (by decide)),
    List.takeWhile_cons_of_pos (hword hx (by decide)),
    List.takeWhile_cons_of_pos (hword ht (by decide)), List.takeWhile_cons_of_neg (by decide)]

theorem multiLine_of_openingLine?_eq_none {cs : List Char} (h : openingLine? cs = none) :
    multiLine cs = none := by
  rw [multiLine, h]

end Lexeme

namespace Kind

/-- Whether a token of this kind may start with the character. -/
def starts : Kind → Char → Bool
  | stringList, c => c == '['
  | quoted, c => c == '"'
  | multiLine, c => c.toLower == 't'
  | hashComment, c => c == '#'
  | bracketComment, c => c == '/'
  | blockStart, c => c == '{'
  | blockEnd, c => c == '}'
  | leftParen, c => c == '('
  | rightParen, c => c == ')'
  | comma, c => c == ','
  | semicolon, c => c == ';'
  | tag, c => c == ':'
  | word, c => Lexeme.isWordStart c
  | number, c => c.isDigit
  | layout, c => isLayout c
  | unknown, c => !isLayout c

theorem measure_eq_none {k : Kind} {c : Char} {cs : List Char} (h : k.starts c = false) :
    k.measure (c :: cs) = none := by
  cases k with
  | stringList | quoted | hashComment | bracketComment | tag =>
    simp only [starts, beq_eq_false_iff_ne] at h
    simp only [measure, Lexeme.stringList, Lexeme.quoted, Lexeme.hashComment,
      Lexeme.bracketComment, Lexeme.tag]
    split
    · simp_all
    · rfl
  | multiLine =>
    cases ho : Lexeme.openingLine? (c :: cs) with
    | none => exact Lexeme.multiLine_of_openingLine?_eq_none ho
    | some r =>
      obtain ⟨t, e, x, t', ds, hcs, hl⟩ := Lexeme.openingLine?_eq_some ho
      simp_all [starts]
  | blockStart | blockEnd | leftParen | rightParen | comma | semicolon =>
    simp only [starts, beq_eq_false_iff_ne] at h
    simp [measure, Lexeme.single, h]
  | word =>
    simp only [starts] at h
    simp [measure, Lexeme.word, h]
  | number =>
    simp only [starts] at h
    simp [measure, Lexeme.number, Lexeme.run_cons_of_not h]
  | layout => exact Lexeme.run_cons_of_not h
  | unknown => exact Lexeme.run_cons_of_not h

theorem starts_of_measure {k : Kind} {c : Char} {cs : List Char} {n : Nat}
    (h : k.measure (c :: cs) = some n) : k.starts c = true := by
  cases hc : k.starts c with
  | true => rfl
  | false => rw [measure_eq_none hc] at h; contradiction

end Kind

/-- The first kind that can be measured is the kind of the token. -/
theorem scan_of_measure {k : Kind} {cs : List Char} {n : Nat} (hk : k.measure cs = some n)
    (h : ∀ k' ∈ Kind.all.takeWhile (· != k), k'.measure cs = none) : scan cs = some (k, n) := by
  have hall : Kind.all = Kind.all.takeWhile (· != k) ++ k :: (Kind.all.dropWhile (· != k)).tail := by
    cases k <;> rfl
  have hbefore : (Kind.all.takeWhile (· != k)).findSome? (fun k => (k.measure cs).map (k, ·)) = none :=
    List.findSome?_eq_none_iff.2 fun k' hk' => by rw [h k' hk']; rfl
  rw [scan, hall, List.findSome?_append, hbefore]
  simp [hk]

/-- A token whose kind is settled by its first character. -/
theorem scan_of_starts {k : Kind} {c : Char} {cs : List Char} {n : Nat}
    (hk : k.measure (c :: cs) = some n)
    (h : ∀ k' ∈ Kind.all.takeWhile (· != k), k'.starts c = false) :
    scan (c :: cs) = some (k, n) :=
  scan_of_measure hk fun k' hk' => Kind.measure_eq_none (h k' hk')

section
variable {c : Char} {cs rest : List Char} {n : Nat}

/-- No other kind of token starts with a layout character. -/
theorem scan_layout (hc : isLayout c = true) :
    scan (c :: cs) = some (.layout, (cs.takeWhile isLayout).length + 1) := by
  refine scan_of_starts (Lexeme.run_cons hc) ?_
  simp only [isLayout, Bool.or_eq_true, beq_iff_eq] at hc
  rcases hc with ((rfl | rfl) | rfl) | rfl <;> decide

theorem scan_stringList (h : Lexeme.stringList cs = some n) : scan cs = some (.stringList, n) := by
  exact scan_of_measure h (by simp [Kind.all])

theorem scan_quoted (h : Lexeme.quoted cs = some n) : scan cs = some (.quoted, n) := by
  unfold Lexeme.quoted at h
  split at h
  · exact scan_of_starts (by simpa [Kind.measure, Lexeme.quoted] using h) (by decide)
  · contradiction

theorem scan_multiLine (h : Lexeme.multiLine cs = some n) : scan cs = some (.multiLine, n) := by
  have ho : ∃ r, Lexeme.openingLine? cs = some r := by
    cases ho : Lexeme.openingLine? cs with
    | none => rw [Lexeme.multiLine_of_openingLine?_eq_none ho] at h; contradiction
    | some r => exact ⟨r, rfl⟩
  obtain ⟨r, ho⟩ := ho
  obtain ⟨t, e, x, t', ds, rfl, hl⟩ := Lexeme.openingLine?_eq_some ho
  have ht : t.toLower = 't' := by simp_all
  refine scan_of_starts h ?_
  have hne : ∀ d : Char, d.toLower ≠ 't' → t ≠ d := by
    rintro d hd rfl
    exact hd ht
  simp [Kind.all, Kind.starts, hne '[' (by decide), hne '"' (by decide)]

theorem scan_hashComment :
    scan ('#' :: cs) = some (.hashComment, (cs.takeWhile (!isLineBreak ·)).length + 1) :=
  scan_of_starts rfl (by decide)

theorem scan_bracketComment (h : Lexeme.closingStar cs = some n) :
    scan ('/' :: '*' :: cs) = some (.bracketComment, n + 2) :=
  scan_of_starts (by simp [Kind.measure, Lexeme.bracketComment, h]) (by decide)

theorem scan_tag (h : Lexeme.word cs = some n) : scan (':' :: cs) = some (.tag, n + 1) :=
  scan_of_starts (by simp [Kind.measure, Lexeme.tag, h]) (by decide)

theorem scan_number (hc : c.isDigit = true) (h : Lexeme.number (c :: cs) = some n) :
    scan (c :: cs) = some (.number, n) := by
  refine scan_of_starts h ?_
  refine forall_ascii (p := fun c => c.isDigit = true →
    ∀ k' ∈ Kind.all.takeWhile (· != Kind.number), k'.starts c = false) (by decide +kernel) ?_ hc
  exact Lexeme.toNat_lt_of_isWordChar (Lexeme.isWordChar_of_isDigit hc)

/-- A word is scanned as one unless it starts a multi-line text. -/
theorem scan_word_of_multiLine (hc : Lexeme.isWordStart c = true)
    (hm : Lexeme.multiLine (c :: cs) = none) :
    scan (c :: cs) = some (.word, (cs.takeWhile Lexeme.isWordChar).length + 1) := by
  have hstarts : ∀ k' ∈ Kind.all.takeWhile (· != Kind.word), k' ≠ .multiLine → k'.starts c = false := by
    refine forall_ascii (p := fun c => Lexeme.isWordStart c = true →
      ∀ k' ∈ Kind.all.takeWhile (· != Kind.word), k' ≠ .multiLine → k'.starts c = false)
      (by decide +kernel) ?_ hc
    exact Lexeme.toNat_lt_of_isWordChar (Lexeme.isWordChar_of_isWordStart hc)
  refine scan_of_measure (by simp [Kind.measure, Lexeme.word, hc]) fun k' hk' => ?_
  by_cases hk : k' = .multiLine
  · subst hk
    exact hm
  · exact Kind.measure_eq_none (hstarts k' hk' hk)

theorem scan_word (hc : Lexeme.isWordStart c = true) (hm : Lexeme.openingLine? (c :: cs) = none) :
    scan (c :: cs) = some (.word, (cs.takeWhile Lexeme.isWordChar).length + 1) :=
  scan_word_of_multiLine hc (Lexeme.multiLine_of_openingLine?_eq_none hm)

/-- A character that can only start tokens of one kind, and starts none of it, is unknown. -/
theorem scan_unknown {k : Kind} (hlayout : isLayout c = false)
    (hc : ∀ k' ∈ Kind.all.takeWhile (· != Kind.unknown), k' ≠ k → k'.starts c = false)
    (h : k.measure (c :: cs) = none) :
    scan (c :: cs) = some (.unknown, (cs.takeWhile (!isLayout ·)).length + 1) := by
  have hrun : Lexeme.run (!isLayout ·) (c :: cs) = some _ := Lexeme.run_cons (by simp [hlayout])
  refine scan_of_measure (k := .unknown) hrun fun k' hk' => ?_
  by_cases hk : k' = k
  · rw [hk]
    exact h
  · exact Kind.measure_eq_none (hc k' hk' hk)

/-- Layout has no symbols. -/
theorem Token.symbols_layout (hc : isLayout c = true) : symbols (c :: cs) = symbols cs := by
  have hdrop : ∀ {c cs}, isLayout c = true → symbols (c :: cs) = symbols (cs.dropWhile isLayout) := by
    intro c cs hc
    have hcs : (cs.takeWhile isLayout ++ cs.dropWhile isLayout).drop (cs.takeWhile isLayout).length =
        cs.dropWhile isLayout := List.drop_left
    rw [List.takeWhile_append_dropWhile] at hcs
    rw [symbols_of_scan (scan_layout hc), List.drop_succ_cons, hcs]
    rfl
  rw [hdrop hc]
  cases cs with
  | nil => rfl
  | cons d ds =>
    by_cases hd : isLayout d = true
    · rw [hdrop hd, List.dropWhile_cons_of_pos hd]
    · rw [List.dropWhile_cons_of_neg hd]

end

end SieveScript
