import SieveScript.Proofs.Skeleton

/-!
# A script cut behind a token

A lexeme other than an unknown run is measured alike in a text and in any beginning of it that
holds the lexeme (`Kind.measure_take`): it looks behind its last character only to see that it
ends there, and the end of the text does as well. What a cut could still change is which kind is
tried with success. Only a multi-line text goes before a kind that starts with the same character;
but where its opening line stands and its dot is missing, the colon of `text:` is an unknown token
(`scan_colon`), which no script has. So the tokens of a script that is cut behind one of them are
those up to it (`Token.exists_cut`).
-/

namespace SieveScript

namespace Lexeme
variable {cs : List Char} {n m : Nat}

theorem takeWhile_take (p : Char → Bool) (cs : List Char) (m : Nat) :
    (cs.take m).takeWhile p = (cs.takeWhile p).take m := by
  induction cs generalizing m with
  | nil => simp
  | cons c cs ih =>
    cases m with
    | zero => simp
    | succ m => by_cases hc : p c = true <;> simp [hc, ih]

theorem length_takeWhile_take {p : Char → Bool} (hm : (cs.takeWhile p).length ≤ m) :
    ((cs.take m).takeWhile p).length = (cs.takeWhile p).length := by
  rw [takeWhile_take, List.length_take, Nat.min_eq_right hm]

theorem run_take {p : Char → Bool} (h : run p cs = some n) (hm : n ≤ m) :
    run p (cs.take m) = some n := by
  have hlen := run_eq_some h
  rw [run, length_takeWhile_take (hlen ▸ hm)]
  exact h

theorem single_take {d : Char} (h : single d cs = some n) (hm : n ≤ m) :
    single d (cs.take m) = some n := by
  obtain ⟨m, rfl⟩ := Nat.exists_eq_add_of_lt (Nat.lt_of_lt_of_le (single_pos h) hm)
  cases cs with
  | nil => contradiction
  | cons c cs => simpa [single] using h

theorem closingQuote_take (h : closingQuote cs = some n) (hm : n ≤ m) :
    closingQuote (cs.take m) = some n := by
  fun_induction closingQuote cs generalizing n m with
  | case1 => contradiction
  | case2 cs =>
    cases h
    obtain ⟨m, rfl⟩ := Nat.exists_eq_add_of_le' hm
    rfl
  | case3 c cs ih =>
    obtain ⟨k, hk, rfl⟩ := Option.map_eq_some_iff.1 h
    obtain ⟨m, rfl⟩ := Nat.exists_eq_add_of_le' (Nat.le_of_add_left_le hm)
    rw [List.take_succ_cons, List.take_succ_cons, closingQuote, ih hk (Nat.le_of_add_le_add_right hm)]
    rfl
  | case4 c cs hquote hslash ih =>
    obtain ⟨k, hk, rfl⟩ := Option.map_eq_some_iff.1 h
    obtain ⟨m, rfl⟩ := Nat.exists_eq_add_of_le' (Nat.le_of_add_left_le hm)
    rw [List.take_succ_cons, closingQuote, ih hk (Nat.le_of_add_le_add_right hm)]
    · rfl
    · exact hquote
    · rintro d ds rfl hds
      cases cs with
      | nil => simp at hds
      | cons c cs => exact hslash c cs rfl rfl

theorem quoted_take (h : quoted cs = some n) (hm : n ≤ m) : quoted (cs.take m) = some n := by
  unfold quoted at h
  split at h
  · obtain ⟨k, hk, rfl⟩ := Option.map_eq_some_iff.1 h
    obtain ⟨m, rfl⟩ := Nat.exists_eq_add_of_le' (Nat.le_of_add_left_le hm)
    rw [List.take_succ_cons, quoted, closingQuote_take hk (Nat.le_of_add_le_add_right hm)]
    rfl
  · contradiction

/-- Each place of a string list but the last leads to another one character on. -/
theorem closingBracket_take {place : ListPlace} (h : closingBracket place cs = some n) (hm : n ≤ m) :
    closingBracket place (cs.take m) = some n := by
  fun_induction closingBracket place cs generalizing n m
  all_goals first
    | contradiction
    | cases h
      obtain ⟨m, rfl⟩ := Nat.exists_eq_add_of_le' hm
      simp_all [closingBracket]
    | obtain ⟨k, hk, rfl⟩ := Option.map_eq_some_iff.1 h
      obtain ⟨m, rfl⟩ := Nat.exists_eq_add_of_le' (Nat.le_of_add_left_le hm)
      simp_all [closingBracket]

theorem stringList_take (h : stringList cs = some n) (hm : n ≤ m) :
    stringList (cs.take m) = some n := by
  unfold stringList at h
  split at h
  · obtain ⟨k, hk, rfl⟩ := Option.map_eq_some_iff.1 h
    obtain ⟨m, rfl⟩ := Nat.exists_eq_add_of_le' (Nat.le_of_add_left_le hm)
    rw [List.take_succ_cons, stringList, closingBracket_take hk (Nat.le_of_add_le_add_right hm)]
    rfl
  · contradiction

theorem closingDot_take {b : Bool} (h : closingDot b cs = some n) (hm : n ≤ m) :
    closingDot b (cs.take m) = some n := by
  fun_induction closingDot b cs generalizing n m with
  | case1 => contradiction
  | case2 =>
    cases h
    obtain ⟨m, rfl⟩ := Nat.exists_eq_add_of_le' hm
    rw [List.take_succ_cons, List.take_nil, closingDot]
  | case3 cs =>
    cases h
    obtain ⟨m, rfl⟩ := Nat.exists_eq_add_of_le' hm
    rfl
  | case4 b cs ih =>
    obtain ⟨k, hk, rfl⟩ := Option.map_eq_some_iff.1 h
    obtain ⟨m, rfl⟩ := Nat.exists_eq_add_of_le' (Nat.le_of_add_left_le hm)
    rw [List.take_succ_cons, List.take_succ_cons, closingDot, ih hk (Nat.le_of_add_le_add_right hm)]
    rfl
  | case5 => contradiction
  | case6 b c cs hcrlf hc hdot hdotLine ih =>
    obtain ⟨k, hk, rfl⟩ := Option.map_eq_some_iff.1 h
    obtain ⟨m, rfl⟩ := Nat.exists_eq_add_of_le' (Nat.le_of_add_left_le hm)
    have hrest := ih hk (Nat.le_of_add_le_add_right hm)
    rw [List.take_succ_cons, closingDot_cons (by simpa using hc), hrest]
    · rfl
    · -- A dot that ends no line in the whole text could end the cut one. But then the closing dot
      -- would not be found in what is left of it.
      rintro rfl rfl
      refine ⟨fun hnil => ?_, fun ds hds => ?_⟩
      · rw [hnil] at hrest
        contradiction
      · have hcs := List.take_append_drop m cs
        rw [hds] at hcs
        exact hdotLine _ rfl rfl hcs.symm

theorem multiLine_take (h : multiLine cs = some n) (hm : n ≤ m) :
    multiLine (cs.take m) = some n := by
  unfold multiLine at h
  split at h
  · contradiction
  next note body ho =>
    obtain ⟨k, hk, rfl⟩ := Option.map_eq_some_iff.1 h
    obtain ⟨line, rfl, hline, -⟩ := openingLine?_append ho
    rw [List.length_append, Nat.add_sub_cancel] at hm ⊢
    rw [List.take_append, List.take_of_length_le (by omega), multiLine, hline]
    simp only
    rw [closingDot_take hk (by omega), List.length_append, Nat.add_sub_cancel]
    rfl

/-- A text that is cut short opens no multi-line text that the whole does not open. -/
theorem openingLine?_take (h : openingLine? cs = none) (m : Nat) :
    openingLine? (cs.take m) = none := by
  cases ho : openingLine? (cs.take m) with
  | none => rfl
  | some r =>
    obtain ⟨line, hcs, hline, -⟩ := openingLine?_append ho
    rw [← List.take_append_drop m cs, hcs, List.append_assoc, hline] at h
    contradiction

theorem hashComment_take (h : hashComment cs = some n) (hm : n ≤ m) :
    hashComment (cs.take m) = some n := by
  unfold hashComment at h
  split at h
  · cases h
    obtain ⟨m, rfl⟩ := Nat.exists_eq_add_of_le' (Nat.le_of_add_left_le hm)
    rw [List.take_succ_cons, hashComment, length_takeWhile_take (Nat.le_of_add_le_add_right hm)]
  · contradiction

theorem closingStar_take (h : closingStar cs = some n) (hm : n ≤ m) :
    closingStar (cs.take m) = some n := by
  fun_induction closingStar cs generalizing n m with
  | case1 => contradiction
  | case2 cs =>
    cases h
    obtain ⟨m, rfl⟩ := Nat.exists_eq_add_of_le' hm
    rfl
  | case3 c cs hstar ih =>
    obtain ⟨k, hk, rfl⟩ := Option.map_eq_some_iff.1 h
    obtain ⟨m, rfl⟩ := Nat.exists_eq_add_of_le' (Nat.le_of_add_left_le hm)
    rw [List.take_succ_cons, closingStar, ih hk (Nat.le_of_add_le_add_right hm)]
    · rfl
    · rintro ds rfl hds
      have hcs := List.take_append_drop m cs
      rw [hds] at hcs
      exact hstar _ rfl hcs.symm

theorem bracketComment_take (h : bracketComment cs = some n) (hm : n ≤ m) :
    bracketComment (cs.take m) = some n := by
  unfold bracketComment at h
  split at h
  · obtain ⟨k, hk, rfl⟩ := Option.map_eq_some_iff.1 h
    obtain ⟨m, rfl⟩ := Nat.exists_eq_add_of_le' (Nat.le_of_add_left_le hm)
    rw [List.take_succ_cons, List.take_succ_cons, bracketComment,
      closingStar_take hk (Nat.le_of_add_le_add_right hm)]
    rfl
  · contradiction

theorem word_take (h : word cs = some n) (hm : n ≤ m) : word (cs.take m) = some n := by
  cases cs with
  | nil => contradiction
  | cons c cs =>
    rw [word] at h
    split at h
    next hc =>
      cases h
      obtain ⟨m, rfl⟩ := Nat.exists_eq_add_of_le' (Nat.le_of_add_left_le hm)
      rw [List.take_succ_cons, word, if_pos hc,
        length_takeWhile_take (Nat.le_of_add_le_add_right hm)]
    · contradiction

theorem tag_take (h : tag cs = some n) (hm : n ≤ m) : tag (cs.take m) = some n := by
  unfold tag at h
  split at h
  · obtain ⟨k, hk, rfl⟩ := Option.map_eq_some_iff.1 h
    obtain ⟨m, rfl⟩ := Nat.exists_eq_add_of_le' (Nat.le_of_add_left_le hm)
    rw [List.take_succ_cons, tag, word_take hk (Nat.le_of_add_le_add_right hm)]
    rfl
  · contradiction

theorem number_take (h : number cs = some n) (hm : n ≤ m) : number (cs.take m) = some n := by
  obtain ⟨k, hk, hn⟩ := Option.map_eq_some_iff.1 h
  have hkm : k ≤ m := by
    split at hn
    · split at hn <;> omega
    · omega
  rw [number, run_take hk hkm, Option.map_some, List.drop_take, Option.some.injEq]
  split at hn
  next c ds hdrop =>
    rw [hdrop]
    cases hj : m - k with
    | zero => split at hn <;> simp only [List.take_zero] <;> omega
    | succ j => exact hn
  next hdrop =>
    rw [hdrop, List.take_nil]
    exact hn

/-- The word of an opening line ends before its colon, and no tag starts there. -/
theorem tag_of_openingLine? {r : Option (List Char) × List Char} (h : openingLine? cs = some r)
    (hw : word cs = some n) : ∃ ds, cs.drop n = ':' :: ds ∧ tag (':' :: ds) = none := by
  obtain ⟨t, e, x, t', ds, rfl, hl⟩ := openingLine?_eq_some h
  refine ⟨ds, ?_, ?_⟩
  · rw [word] at hw
    split at hw
    · cases hw
      rw [takeWhile_isWordChar_text hl]
      rfl
    · contradiction
  · cases ds with
    | nil => rfl
    | cons c ds =>
      have hc : isWordStart c = false := by
        by_contra hc
        have hne : ∀ d, isWordStart d = false → c ≠ d := by
          rintro d hd rfl
          exact hc hd
        have hind : ¬isIndent c = true := by
          simp [isIndent, hne ' ' (by decide), hne '\t' (by decide)]
        rw [openingLine?, if_pos hl, List.dropWhile_cons_of_neg hind] at h
        split at h
        next hds => exact hne '#' (by decide) (List.cons.inj hds).1
        · obtain ⟨body, hbody, -⟩ := Option.map_eq_some_iff.1 h
          exact hne '\r' (by decide) (List.cons.inj (afterCrlf?_eq_some hbody)).1
      simp [tag, word, hc]

end Lexeme

namespace Kind
variable {k : Kind} {cs : List Char} {n m : Nat}

/-- A lexeme is measured alike in a text and in any beginning of it that holds the lexeme. -/
theorem measure_take (h : k.measure cs = some n) (hm : n ≤ m) : k.measure (cs.take m) = some n := by
  cases k with
  | stringList => exact Lexeme.stringList_take h hm
  | quoted => exact Lexeme.quoted_take h hm
  | multiLine => exact Lexeme.multiLine_take h hm
  | hashComment => exact Lexeme.hashComment_take h hm
  | bracketComment => exact Lexeme.bracketComment_take h hm
  | blockStart | blockEnd | leftParen | rightParen | comma | semicolon =>
    exact Lexeme.single_take h hm
  | tag => exact Lexeme.tag_take h hm
  | word => exact Lexeme.word_take h hm
  | number => exact Lexeme.number_take h hm
  | layout | unknown => exact Lexeme.run_take h hm

end Kind

/-- What is measured is what is scanned, but for a word that may open a multi-line text. -/
theorem scan_of_measure_of_ne {k : Kind} {cs : List Char} {n : Nat} (hk : k ≠ .unknown)
    (hw : k = .word → Lexeme.openingLine? cs = none) (h : k.measure cs = some n) :
    scan cs = some (k, n) := by
  cases cs with
  | nil => rw [Kind.measure_nil] at h; contradiction
  | cons c cs =>
    have hc := Kind.starts_of_measure h
    cases k with
    | multiLine => exact scan_multiLine h
    | number => exact scan_number hc h
    | word =>
      have hs := scan_word hc (hw rfl)
      rw [measure_of_scan hs] at h
      cases h
      exact hs
    | layout =>
      have hs : scan (c :: cs) = _ := scan_layout hc
      rw [measure_of_scan hs] at h
      cases h
      exact hs
    | unknown => contradiction
    | _ =>
      rw [Kind.starts, beq_iff_eq] at hc
      subst hc
      exact scan_of_starts h (by decide)

/-- A colon that starts no tag is an unknown token. -/
theorem scan_colon {cs : List Char} (h : Lexeme.tag (':' :: cs) = none) :
    ∃ n, scan (':' :: cs) = some (.unknown, n) :=
  ⟨_, scan_unknown (k := .tag) (by decide) (by decide) h⟩

namespace Token
variable {o l : Nat} {cs : List Char} {n : Nat}

/-- A word that is followed by no unknown token opens no multi-line text. -/
theorem openingLine?_eq_none (hw : scan cs = some (.word, n))
    (hu : ∀ t ∈ allFrom o l (cs.drop n), t.kind ≠ .unknown) : Lexeme.openingLine? cs = none := by
  by_contra ho
  obtain ⟨r, hr⟩ := Option.ne_none_iff_exists'.1 ho
  obtain ⟨ds, hds, htag⟩ := Lexeme.tag_of_openingLine? hr (measure_of_scan hw)
  obtain ⟨m, hm⟩ := scan_colon htag
  rw [hds, allFrom_of_scan hm] at hu
  exact hu _ List.mem_cons_self rfl

/-- The first token of a text without unknown ones is that of any beginning which holds it. -/
theorem scan_take {k : Kind} {m : Nat} (h : scan cs = some (k, n))
    (hu : ∀ t ∈ allFrom o l cs, t.kind ≠ .unknown) (hm : n ≤ m) : scan (cs.take m) = some (k, n) := by
  rw [allFrom_of_scan h, List.forall_mem_cons] at hu
  refine scan_of_measure_of_ne hu.1 ?_ (Kind.measure_take (measure_of_scan h) hm)
  rintro rfl
  exact Lexeme.openingLine?_take (openingLine?_eq_none h hu.2) m

theorem allFrom_take {k : Kind} (h : scan cs = some (k, n))
    (hu : ∀ t ∈ allFrom o l cs, t.kind ≠ .unknown) (m : Nat) :
    allFrom o l (cs.take (n + m)) =
      { kind := k, lexeme := cs.take n, offset := o, line := l } ::
        allFrom (o + byteLength (cs.take n)) (l + (cs.take n).count '\n') ((cs.drop n).take m) := by
  have hle := Nat.le_add_right n m
  rw [allFrom_of_scan (scan_take h hu hle), List.take_take, Nat.min_eq_left hle, List.drop_take,
    Nat.add_sub_cancel_left]

/-- A text without unknown tokens, cut behind one of its tokens, has the tokens up to that one. -/
theorem exists_cut {before after : List Token} {t : Token}
    (hu : ∀ t ∈ allFrom o l cs, t.kind ≠ .unknown) (h : allFrom o l cs = before ++ t :: after) :
    ∃ m, o + byteLength (cs.take m) = t.stop ∧ allFrom o l (cs.take m) = before ++ [t] := by
  induction before generalizing o l cs with
  | nil =>
    cases hscan : scan cs with
    | none => simp [allFrom_of_scan_eq_none hscan] at h
    | some r =>
      obtain ⟨k, n⟩ := r
      have htake := allFrom_take hscan hu 0
      rw [List.take_zero, allFrom_of_scan_eq_none scan_nil] at htake
      rw [allFrom_of_scan hscan, List.nil_append, List.cons.injEq] at h
      rw [h.1] at htake
      refine ⟨n, ?_, htake⟩
      rw [← h.1]
      rfl
  | cons b before ih =>
    cases hscan : scan cs with
    | none => simp [allFrom_of_scan_eq_none hscan] at h
    | some r =>
      obtain ⟨k, n⟩ := r
      have hsplit := allFrom_of_scan (o := o) (l := l) hscan
      rw [hsplit, List.cons_append, List.cons.injEq] at h
      obtain ⟨m, hstop, hcut⟩ := ih (fun t ht => hu t (by simp [hsplit, ht])) h.2
      refine ⟨n + m, ?_, ?_⟩
      · rw [List.take_add, byteLength_append, ← Nat.add_assoc, hstop]
      · rw [allFrom_take hscan hu, hcut, h.1]
        rfl

end Token

theorem Normalized.take {cs : List Char} (h : Normalized cs) (m : Nat) : Normalized (cs.take m) :=
  List.IsChain.take h (m + 1)

namespace State
variable {v : Vocabulary} {s s' : State}

theorem ne_unknown_of_run {ts : List Token} (h : run v s ts = .ok s') :
    ∀ t ∈ ts, t.kind ≠ .unknown := by
  fun_induction run v s ts with
  | case1 => simp
  | case2 s t ts ht ih =>
    refine List.forall_mem_cons.2 ⟨fun hk => ?_, ih h⟩
    simp [Token.symbol?, hk] at ht
  | case3 s t ts y ht s₁ h₁ ih =>
    refine List.forall_mem_cons.2 ⟨fun hk => ?_, ih h⟩
    simp only [Token.symbol?, hk, Option.some.injEq] at ht
    subst ht
    contradiction
  | case4 => contradiction

/-- What is read symbol by symbol is read up to any of them. -/
theorem exists_steps_of_append {xs ys : List Symbol} (h : steps v s (xs ++ ys) = .ok s') :
    ∃ s₁, steps v s xs = .ok s₁ ∧ steps v s₁ ys = .ok s' := by
  fun_induction steps v s xs with
  | case1 s => exact ⟨s, rfl, h⟩
  | case2 s y xs s₁ h₁ ih =>
    rw [List.cons_append, steps_cons_of_ok h₁] at h
    exact ih h
  | case3 s y xs f hf =>
    rw [List.cons_append, steps, hf] at h
    contradiction

end State

namespace Script

theorem words_of_parse {capabilities : List String} {name text : String} {s : Script}
    (h : parse capabilities name text = .ok s) :
    s.nodes.filterMap (fun n => n.2.word?) =
      (Token.symbols (normalize text.toList)).filterMap Symbol.word? :=
  Tally.filterMap_of_read Tally.attaches_words (Vocabulary.blank_ofCapabilities capabilities)
    Tally.words_node (Tally.words_symbol _) h

/-- A script that is read can be cut behind any of its tokens: the text up to there has the tokens
up to there, is read as well, and the words of its tree are the first of those of the whole. -/
theorem parse_cut {capabilities : List String} {name text : String} {s : Script}
    (h : parse capabilities name text = .ok s) {before after : List Token} {t : Token}
    (ht : Token.all (normalize text.toList) = before ++ t :: after) :
    ∃ cut rest, normalize text.toList = cut ++ rest ∧ byteLength cut = t.stop ∧
      normalize cut = cut ∧ Token.all cut = before ++ [t] ∧
      ∃ q, parse capabilities name (String.ofList cut) = .ok q ∧
        q.nodes.filterMap (fun n => n.2.word?) <+: s.nodes.filterMap (fun n => n.2.word?) := by
  obtain ⟨st, hst, -⟩ := read_eq_ok_iff.1 h
  have hrun := State.run_eq_ok_iff.2 hst
  obtain ⟨m, hstop, htokens⟩ := Token.exists_cut (State.ne_unknown_of_run hrun) ht
  have hnorm := ((normalized_normalize text.toList).take m).normalize_eq
  refine ⟨(normalize text.toList).take m, (normalize text.toList).drop m,
    (List.take_append_drop m _).symm, by simpa using hstop, hnorm, htokens, ?_⟩
  generalize (normalize text.toList).take m = cut at hnorm htokens
  have hsymbols : Token.symbols (normalize text.toList) =
      Token.symbols cut ++ after.filterMap Token.symbol? := by
    rw [Token.symbols, Token.symbols, ht, Token.all, htokens, ← List.filterMap_append]
    simp
  rw [hsymbols] at hst
  obtain ⟨st', hst', -⟩ := State.exists_steps_of_append hst
  have hread : parse capabilities name (String.ofList cut) = .ok st'.finish :=
    read_eq_ok_iff.2 ⟨st', by rw [String.toList_ofList, hnorm, hst'], rfl⟩
  refine ⟨st'.finish, hread, ?_⟩
  rw [words_of_parse h, words_of_parse hread, String.toList_ofList, hnorm, hsymbols,
    List.filterMap_append]
  exact List.prefix_append _ _

/-- An instance with a cut behind the closing dot of a multi-line text, inside a block. -/
theorem parse_cut_multiLine :
    let text := "if true \x7b reject text:\n.\n; keep; \x7d"
    let before := Token.all "if true \x7b reject ".toList
    let t : Token := { kind := .multiLine, lexeme := "text:\r\n.\r\n".toList, offset := 17, line := 1 }
    ∃ s after, parse ["reject"] "" text = .ok s ∧
      Token.all (normalize text.toList) = before ++ t :: after ∧
      ∃ cut rest, normalize text.toList = cut ++ rest ∧ byteLength cut = t.stop ∧
        normalize cut = cut ∧ Token.all cut = before ++ [t] ∧
        ∃ q, parse ["reject"] "" (String.ofList cut) = .ok q ∧
          q.nodes.filterMap (fun n => n.2.word?) <+: s.nodes.filterMap (fun n => n.2.word?) := by
  intro text before t
  obtain ⟨s, hs⟩ : ∃ s, parse ["reject"] "" text = .ok s := by
    have hok : (parse ["reject"] "" text).isOk = true := by decide +kernel
    cases hp : parse ["reject"] "" text with
    | ok s => exact ⟨s, rfl⟩
    | error e => rw [hp] at hok; contradiction
  have ht : Token.all (normalize text.toList) =
      before ++ t :: (Token.all (normalize text.toList)).drop 9 := by decide +kernel
  exact ⟨s, _, hs, ht, parse_cut hs ht⟩

end Script

end SieveScript
