import SieveScript.Proofs.Strings
import SieveScript.Proofs.MultiLines

/-!
# Symbols are read back as they are written

A word, an argument or a symbol is `Lexical` if it can come from a normalized text. Every symbol of
such a text is (`Token.lexical_of_mem_symbols`), and what is lexical is read back as it is written
(`Argument.symbols_encode` and the lemmas before it). A word, a tag and a number end where a
delimiter follows; all others end by themselves.
-/

namespace SieveScript

/-- The characters that end a word, a tag or a number. -/
def delimiters : List Char :=
  [' ', ';', ',', ')']

/-- What may stand behind a word, a tag or a number without being read as a part of it. -/
def Delimited (rest : List Char) : Prop :=
  ∀ c ∈ rest.head?, c ∈ delimiters

@[simp]
theorem delimited_nil : Delimited [] := by
  simp [Delimited]

theorem delimited_cons {c : Char} {cs : List Char} (h : c ∈ delimiters) : Delimited (c :: cs) := by
  simpa [Delimited] using h

namespace Delimited
variable {rest : List Char}

/-- A run of characters of a class without delimiters ends at a delimiter. -/
theorem takeWhile_append (h : Delimited rest) {p : Char → Bool} (hp : delimiters.all (!p ·) = true)
    {cs : List Char} (hcs : ∀ c ∈ cs, p c = true) : (cs ++ rest).takeWhile p = cs := by
  rw [List.takeWhile_append_of_pos hcs]
  cases rest with
  | nil => simp
  | cons c rest =>
    have hc : (!p c) = true := List.all_eq_true.1 hp c (h c (by simp))
    simp_all

end Delimited

theorem isLine_of_isWordChar {cs : List Char} (h : ∀ c ∈ cs, Lexeme.isWordChar c = true) : IsLine cs :=
  fun c hc => forall_ascii (p := fun c => Lexeme.isWordChar c = true → isLineBreak c = false)
    (by decide) (Lexeme.toNat_lt_of_isWordChar (h c hc)) (h c hc)

/-! ### Words -/

/-- The text is a word in lower case. -/
structure IsLowerWord (w : List Char) : Prop where
  ne_nil : w ≠ []
  start : ∀ c ∈ w.head?, Lexeme.isWordStart c = true
  chars : ∀ c ∈ w, Lexeme.isWordChar c = true
  lower : w.map Char.toLower = w

instance (w : List Char) : Decidable (IsLowerWord w) :=
  decidable_of_iff (w ≠ [] ∧ w.head?.all Lexeme.isWordStart = true ∧
      w.all Lexeme.isWordChar = true ∧ w.map Char.toLower = w)
    ⟨fun ⟨h₁, h₂, h₃, h₄⟩ => ⟨h₁, (Option.all_eq_true _ _).1 h₂, List.all_eq_true.1 h₃, h₄⟩,
      fun ⟨h₁, h₂, h₃, h₄⟩ => ⟨h₁, (Option.all_eq_true _ _).2 h₂, List.all_eq_true.2 h₃, h₄⟩⟩

namespace IsLowerWord
variable {w rest : List Char}

/-- A word starts no multi-line text unless a colon follows. -/
theorem openingLine?_eq_none (h : IsLowerWord w) (hrest : Delimited rest) :
    Lexeme.openingLine? (w ++ rest) = none := by
  cases ho : Lexeme.openingLine? (w ++ rest) with
  | none => rfl
  | some r =>
    exfalso
    obtain ⟨t, e, x, t', ds, heq, hl⟩ := Lexeme.openingLine?_eq_some ho
    have hlow : ∀ d ∈ [t, e, x, t', ':'], d.toLower ∈ ['t', 'e', 'x', 't', ':'] := by
      simp_all
    have hcolon : ':' ∉ w := fun hw => absurd (h.chars ':' hw) (by decide)
    -- the word is cut off before the colon by a letter, which is no delimiter, or by the colon
    replace heq : w ++ rest = [t, e, x, t', ':'] ++ ds := heq
    rcases List.append_eq_append_iff.1 heq with
      ⟨bs, hbs, hr⟩ | ⟨bs, hbs, hr⟩
    · cases bs with
      | nil => exact hcolon (by rw [List.append_nil] at hbs; simp [← hbs])
      | cons b bs =>
        have hb := hlow b (by rw [hbs]; simp)
        have hnone : delimiters.all (fun d => !(['t', 'e', 'x', 't', ':'].contains d.toLower)) = true := by
          decide
        have hd := List.all_eq_true.1 hnone b (hrest b (by simp [hr]))
        simp_all
    · exact hcolon (by simp [hbs])

theorem scan_append (h : IsLowerWord w) (hrest : Delimited rest) :
    scan (w ++ rest) = some (.word, w.length) := by
  have ho := h.openingLine?_eq_none hrest
  obtain ⟨c, ds, rfl⟩ := List.exists_cons_of_ne_nil h.ne_nil
  have hds : (ds ++ rest).takeWhile Lexeme.isWordChar = ds :=
    hrest.takeWhile_append (by decide) fun d hd => h.chars d (List.mem_cons_of_mem c hd)
  rw [List.cons_append] at ho ⊢
  rw [scan_word (h.start c rfl) ho, hds, List.length_cons]

theorem symbols_append (h : IsLowerWord w) (hrest : Delimited rest) :
    Token.symbols (w ++ rest) = .word (String.ofList w) :: Token.symbols rest := by
  rw [Token.symbols_append_of_scan (h.scan_append hrest)]
  show [Symbol.word (String.ofList (w.map Char.toLower))] ++ _ = _
  rw [h.lower]
  rfl

theorem symbols_tag (h : IsLowerWord w) (hrest : Delimited rest) :
    Token.symbols (':' :: w ++ rest) =
      .argument (.tag (String.ofList (':' :: w))) :: Token.symbols rest := by
  have hw : Lexeme.word (w ++ rest) = some w.length := by
    obtain ⟨c, ds, rfl⟩ := List.exists_cons_of_ne_nil h.ne_nil
    have hds : (ds ++ rest).takeWhile Lexeme.isWordChar = ds :=
      hrest.takeWhile_append (by decide) fun d hd => h.chars d (List.mem_cons_of_mem c hd)
    rw [List.cons_append, Lexeme.word, if_pos (h.start c rfl), hds, List.length_cons]
  rw [Token.symbols_append_of_scan (scan_tag hw)]
  show [Symbol.argument (.tag (String.ofList ((':' :: w).map Char.toLower)))] ++ _ = _
  rw [List.map_cons, h.lower]
  rfl

end IsLowerWord

theorem isLowerWord_of_word {cs : List Char} {n : Nat} (h : Lexeme.word cs = some n) :
    IsLowerWord ((cs.take n).map Char.toLower) := by
  cases cs with
  | nil => contradiction
  | cons c cs =>
    rw [Lexeme.word] at h
    split at h
    next hc =>
      cases h
      have htake : (c :: cs).take ((cs.takeWhile Lexeme.isWordChar).length + 1) =
          c :: cs.takeWhile Lexeme.isWordChar := by
        have hpre : cs.takeWhile Lexeme.isWordChar <+: cs := List.takeWhile_prefix _
        rw [List.take_succ_cons, ← List.prefix_iff_eq_take.1 hpre]
      have hchars : ∀ d ∈ c :: cs.takeWhile Lexeme.isWordChar, Lexeme.isWordChar d = true :=
        List.forall_mem_cons.2 ⟨Lexeme.isWordChar_of_isWordStart hc, fun d hd => List.mem_takeWhile_imp hd⟩
      rw [htake]
      refine ⟨by simp, ?_, ?_, ?_⟩
      · simpa using Lexeme.isWordStart_toLower hc
      · intro d hd
        obtain ⟨d', hd', rfl⟩ := List.mem_map.1 hd
        exact Lexeme.isWordChar_toLower (hchars d' hd')
      · rw [List.map_map]
        exact List.map_congr_left fun d _ => toLower_idem d
    · contradiction

/-! ### Numbers -/

/-- One or more digits and at most one quantifier. -/
def IsNumber (cs : List Char) : Prop :=
  ∃ ds q, cs = ds ++ q ∧ ds ≠ [] ∧ (∀ d ∈ ds, d.isDigit = true) ∧
    (q = [] ∨ ∃ c, q = [c] ∧ Lexeme.isQuantifier c = true)

theorem isNumber_of_number {cs : List Char} {n : Nat} (h : Lexeme.number cs = some n) :
    IsNumber (cs.take n) := by
  obtain ⟨m, hm, hn⟩ := Option.map_eq_some_iff.1 h
  have hpos := Lexeme.run_pos hm
  have hlen := Lexeme.run_eq_some hm
  have hdigits : ∀ d ∈ cs.takeWhile Char.isDigit, d.isDigit = true := fun d hd =>
    List.mem_takeWhile_imp hd
  have hcs := List.takeWhile_append_dropWhile (p := Char.isDigit) (l := cs)
  generalize cs.takeWhile Char.isDigit = ds at hlen hdigits hcs
  generalize cs.dropWhile Char.isDigit = es at hcs
  have hne : ds ≠ [] := by
    rintro rfl
    simp [hlen] at hpos
  rw [← hcs, hlen, List.drop_left] at hn
  rw [← hcs]
  cases es with
  | nil =>
    simp only at hn
    exact ⟨ds, [], by simp [← hn], hne, hdigits, .inl rfl⟩
  | cons c es =>
    simp only at hn
    split at hn
    next hc =>
      refine ⟨ds, [c], ?_, hne, hdigits, .inr ⟨c, rfl, hc⟩⟩
      rw [← hn, List.take_length_add_append]
      rfl
    · exact ⟨ds, [], by simp [← hn], hne, hdigits, .inl rfl⟩

namespace IsNumber
variable {cs rest : List Char}

theorem chars (h : IsNumber cs) : ∀ c ∈ cs, Lexeme.isWordChar c = true := by
  obtain ⟨ds, q, rfl, -, hds, hq⟩ := h
  intro c hc
  rcases List.mem_append.1 hc with hc | hc
  · exact Lexeme.isWordChar_of_isDigit (hds c hc)
  · rcases hq with rfl | ⟨d, rfl, hd⟩
    · simp at hc
    · rw [List.mem_singleton.1 hc]
      simp only [Lexeme.isQuantifier, Bool.or_eq_true, beq_iff_eq] at hd
      rcases hd with ((((rfl | rfl) | rfl) | rfl) | rfl) | rfl <;> decide

theorem number_append (h : IsNumber cs) (hrest : Delimited rest) :
    Lexeme.number (cs ++ rest) = some cs.length := by
  obtain ⟨ds, q, rfl, hne, hds, hq⟩ := h
  have htake : (ds ++ q ++ rest).takeWhile Char.isDigit = ds := by
    rcases hq with rfl | ⟨c, rfl, hc⟩
    · rw [List.append_nil]
      exact hrest.takeWhile_append (by decide) hds
    · have hnd : c.isDigit = false := by
        simp only [Lexeme.isQuantifier, Bool.or_eq_true, beq_iff_eq] at hc
        rcases hc with ((((rfl | rfl) | rfl) | rfl) | rfl) | rfl <;> decide
      rw [List.append_assoc, List.takeWhile_append_of_pos hds]
      simp [hnd]
  rw [Lexeme.number, Lexeme.run_of_ne_nil (by rw [htake]; exact hne), htake, Option.map_some,
    List.append_assoc, List.drop_left]
  rcases hq with rfl | ⟨c, rfl, hc⟩
  · cases rest with
    | nil => simp
    | cons c rest =>
      have hnone : delimiters.all (!Lexeme.isQuantifier ·) = true := by decide
      have hc := List.all_eq_true.1 hnone c (hrest c rfl)
      simp_all
  · simp [hc]

theorem symbols_append (h : IsNumber cs) (hrest : Delimited rest) :
    Token.symbols (cs ++ rest) = .argument (.number ⟨String.ofList cs⟩) :: Token.symbols rest := by
  have hn := h.number_append hrest
  obtain ⟨ds, q, rfl, hne, hds, -⟩ := h
  obtain ⟨d, ds, rfl⟩ := List.exists_cons_of_ne_nil hne
  exact Token.symbols_append_of_scan (k := .number) (scan_number (hds d (by simp)) hn)

end IsNumber

/-! ### Arguments -/

namespace Argument

/-- Some token of a normalized text stands for the argument. -/
def Lexical : Argument → Prop
  | tag t => ∃ w, IsLowerWord w ∧ t = String.ofList (':' :: w)
  | string v => Normalized v.toList
  | multiLine m => m.Lexical
  | strings vs => ∀ v ∈ vs, Normalized v.toList
  | number n => IsNumber n.text.toList

/-- Some token stands for the argument, though perhaps none of a normalized text does. -/
def Legible : Argument → Prop
  | tag t => ∃ w, IsLowerWord w ∧ t = String.ofList (':' :: w)
  | string _ | strings _ => True
  | multiLine m => m.Lexical
  | number n => IsNumber n.text.toList

theorem Lexical.legible {a : Argument} (h : a.Lexical) : a.Legible := by
  cases a with
  | tag | multiLine | number => exact h
  | string | strings => trivial

namespace Legible

/-- A legible argument is read back as it is written. -/
theorem symbols_append {a : Argument} (h : a.Legible) {rest : List Char} (hrest : Delimited rest) :
    Token.symbols (a.encode ++ rest) = .argument a :: Token.symbols rest := by
  cases a with
  | tag t =>
    obtain ⟨w, hw, rfl⟩ := h
    rw [encode, String.toList_ofList, hw.symbols_tag hrest]
  | string v =>
    rw [encode, Token.symbols_append_of_scan (scan_quoted (Lexeme.quoted_encode v rest))]
    show [Symbol.argument (.string (Quoted.decode (Quoted.encode v)))] ++ _ = _
    rw [Quoted.decode_encode]
    rfl
  | multiLine m =>
    rw [encode, Token.symbols_append_of_scan (scan_multiLine (MultiLine.multiLine_encode h rest))]
    show [Symbol.argument (.multiLine (MultiLine.decode m.encode))] ++ _ = _
    rw [MultiLine.decode_encode h]
    rfl
  | strings vs =>
    rw [encode, Token.symbols_append_of_scan (scan_stringList (Lexeme.stringList_encode vs rest))]
    show [Symbol.argument (.strings (StringList.decode (StringList.encode vs)))] ++ _ = _
    rw [StringList.decode_encode]
    rfl
  | number n =>
    have hn := IsNumber.symbols_append h hrest
    rwa [String.ofList_toList] at hn

theorem symbols_encodeAll {as : List Argument} (h : ∀ a ∈ as, a.Legible) {rest : List Char}
    (hrest : Delimited rest) :
    Token.symbols (encodeAll as ++ rest) = as.map .argument ++ Token.symbols rest := by
  fun_induction encodeAll as with
  | case1 => rfl
  | case2 a => exact symbols_append (h a (by simp)) hrest
  | case3 a b as ih =>
    rw [List.append_assoc, List.cons_append, symbols_append (h a (by simp)) (delimited_cons (by decide)),
      Token.symbols_layout (by decide), ih fun c hc => h c (List.mem_cons_of_mem a hc)]
    rfl

end Legible

/-- A lexical argument is read back as it is written. -/
theorem symbols_encode {a : Argument} (h : a.Lexical) {rest : List Char} (hrest : Delimited rest) :
    Token.symbols (a.encode ++ rest) = .argument a :: Token.symbols rest :=
  h.legible.symbols_append hrest

theorem symbols_encodeAll {as : List Argument} (h : ∀ a ∈ as, a.Lexical) {rest : List Char}
    (hrest : Delimited rest) :
    Token.symbols (encodeAll as ++ rest) = as.map .argument ++ Token.symbols rest :=
  Legible.symbols_encodeAll (fun a ha => (h a ha).legible) hrest

theorem normalized_encode {a : Argument} (h : a.Lexical) : Normalized a.encode := by
  cases a with
  | tag t =>
    obtain ⟨w, hw, rfl⟩ := h
    rw [encode, String.toList_ofList]
    exact ((isLine_of_isWordChar hw.chars).cons (by decide)).normalized
  | string v => exact Quoted.normalized_encode h
  | multiLine m => exact MultiLine.normalized_encode h
  | strings vs => exact StringList.normalized_encode h
  | number n => exact (isLine_of_isWordChar (IsNumber.chars h)).normalized

theorem normalized_encodeAll {as : List Argument} (h : ∀ a ∈ as, a.Lexical) :
    Normalized (encodeAll as) := by
  fun_induction encodeAll as with
  | case1 => exact normalized_nil
  | case2 a => exact normalized_encode (h a (by simp))
  | case3 a b as ih =>
    have hspace : Normalized [' '] := by simp [normalized_iff]
    exact (normalized_encode (h a (by simp))).append
      (hspace.append (ih fun c hc => h c (List.mem_cons_of_mem a hc)))

section
variable {a : Argument}

theorem normalized_of_string? (h : a.Lexical) {v : String} (hv : a.string? = some v) :
    Normalized v.toList := by
  unfold string? at hv
  split at hv
  · cases hv; exact h
  · cases hv; exact MultiLine.normalized_value h
  · cases hv; exact h v (by simp)
  · contradiction

theorem normalized_of_strings? (h : a.Lexical) {vs : List String} (hvs : a.strings? = some vs) :
    ∀ v ∈ vs, Normalized v.toList := by
  unfold strings? at hvs
  split at hvs
  · cases hvs; exact h
  · cases hvs; exact List.forall_mem_singleton.2 h
  · cases hvs; exact List.forall_mem_singleton.2 (MultiLine.normalized_value h)
  · contradiction

theorem lexical_of_text? (h : a.Lexical) {t : Text} (ht : a.text? = some t) : (ofText t).Lexical := by
  unfold text? at ht
  split at ht
  · cases ht; exact h
  · obtain ⟨v, hv, rfl⟩ := Option.map_eq_some_iff.1 ht
    exact normalized_of_string? h hv

theorem isNumber_of_number? (h : a.Lexical) {n : Number} (hn : a.number? = some n) :
    IsNumber n.text.toList := by
  unfold number? at hn
  split at hn
  · cases hn; exact h
  · contradiction

end

end Argument

/-! ### Symbols -/

namespace Symbol

/-- Some token of a normalized text stands for the symbol. -/
def Lexical : Symbol → Prop
  | word w => IsLowerWord w.toList
  | argument a => a.Lexical
  | comment c => c.Lexical
  | _ => True

end Symbol

/-- A comment between slash and star that a text holds without parted line endings. -/
theorem Comment.lexical_ofBracketToken {cs : List Char} (h : cs.IsChain MayFollow) {n : Nat}
    (hn : Lexeme.bracketComment cs = some n) : (ofBracketToken (cs.take n)).Lexical := by
  rw [Lexeme.bracketComment.eq_def] at hn
  split at hn
  next ds =>
    obtain ⟨m, hm, rfl⟩ := Option.map_eq_some_iff.1 hn
    obtain ⟨t, ht, -, hclose⟩ := Lexeme.closingStar_eq_some hm
    have htake : ('/' :: '*' :: ds).take (m + 2) = '/' :: '*' :: (t ++ ['*', '/']) := by
      rw [List.take_succ_cons, List.take_succ_cons, ht]
    rw [htake, ofBracketToken_eq]
    refine ⟨?_, by rwa [String.toList_ofList]⟩
    rw [String.toList_ofList]
    -- the text stands behind the star of the opening
    have hpart : '*' :: t <:+: '/' :: '*' :: ds := by
      refine ⟨['/'], ['*', '/'] ++ ds.drop m, ?_⟩
      conv_rhs => rw [← List.take_append_drop (m + 2) ('/' :: '*' :: ds), htake]
      simp
    have hchain := List.IsChain.infix h hpart
    exact Normalized.tail hchain (by decide)
  · contradiction

/-- A token of a text without parted line endings stands for a lexical symbol. -/
theorem Kind.lexical_of_symbol? {cs : List Char} (h : cs.IsChain MayFollow) {k : Kind} {n : Nat}
    (hk : k.measure cs = some n) {y : Symbol} (hy : k.symbol? (cs.take n) = some y) : y.Lexical := by
  cases cs with
  | nil => rw [measure_nil] at hk; contradiction
  | cons c cs =>
  have hstart := starts_of_measure hk
  obtain ⟨m, rfl⟩ := Nat.exists_eq_add_one_of_ne_zero (Nat.pos_iff_ne_zero.1 (measure_pos hk))
  cases k with
  | stringList => cases hy; exact StringList.normalized_decode (h.take _)
  | quoted =>
    obtain rfl : c = '"' := beq_iff_eq.1 hstart
    cases hy
    exact Quoted.normalized_decode (normalized_iff.2 ⟨by simp, h.take _⟩)
  | multiLine => cases hy; exact MultiLine.lexical_decode hk
  | hashComment =>
    obtain rfl : c = '#' := beq_iff_eq.1 hstart
    cases hk
    cases hy
    have hpre : (cs.takeWhile (!isLineBreak ·)) <+: cs := List.takeWhile_prefix _
    refine Comment.lexical_ofHashToken fun d hd => ?_
    rw [← List.prefix_iff_eq_take.1 hpre] at hd
    simpa using List.mem_takeWhile_imp hd
  | bracketComment =>
    obtain rfl : c = '/' := beq_iff_eq.1 hstart
    cases hy
    exact Comment.lexical_ofBracketToken h hk
  | tag =>
    obtain rfl : c = ':' := beq_iff_eq.1 hstart
    obtain ⟨m', hm, heq⟩ := Option.map_eq_some_iff.1 hk
    cases heq
    cases hy
    exact ⟨_, isLowerWord_of_word hm, rfl⟩
  | word =>
    cases hy
    show IsLowerWord (String.toList (String.ofList _))
    rw [String.toList_ofList]
    exact isLowerWord_of_word hk
  | number =>
    cases hy
    show IsNumber (String.toList (String.ofList _))
    rw [String.toList_ofList]
    exact isNumber_of_number hk
  | layout => contradiction
  | blockStart | blockEnd | leftParen | rightParen | comma | semicolon | unknown =>
    cases hy
    trivial

theorem Token.lexical_of_mem_symbols {cs : List Char} (h : Normalized cs) :
    ∀ y ∈ symbols cs, y.Lexical := by
  suffices hs : ∀ o l, cs.IsChain MayFollow → ∀ y ∈ (allFrom o l cs).filterMap symbol?, y.Lexical from
    hs 0 1 (normalized_iff.1 h).2
  clear h
  intro o l h
  fun_induction allFrom o l cs with
  | case1 => simp
  | case2 o l cs k n hscan lexeme ih =>
    intro y hy
    rcases List.mem_filterMap.1 hy with ⟨t, ht, hty⟩
    rcases List.mem_cons.1 ht with rfl | ht
    · exact Kind.lexical_of_symbol? h (measure_of_scan hscan) hty
    · exact ih (h.drop n) y (List.mem_filterMap.2 ⟨t, ht, hty⟩)

end SieveScript
