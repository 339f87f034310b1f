import SieveScript.Proofs.Lexical
import SieveScript.Proofs.Tiling

/-!
# The case of letters in words and tags

No kind of token looks at the case of a letter: a text in lower case is measured like the text
itself (`Kind.measure_map_toLower`), though a word may compete with a multi-line text and a letter
with the end of a number. So texts that differ in letter case only are cut at the same places
(`Token.allFrom_map_toLower`). If they differ inside words and tags only, their symbols are the same,
for these two kinds of token are read in lower case, and whatever is read of one text is read of the
other (`Script.parse_of_respelled`).
-/

namespace SieveScript

/-! ### Characters -/

section
variable {c d : Char}

/-- A letter stays a letter, and anything else stays as it is. -/
theorem toLower_cases (c : Char) : c.toLower = c ∨ c.isAlpha = true ∧ c.toLower.isAlpha = true := by
  by_cases hc : c.toNat < 128
  · exact forall_ascii (p := fun c => c.toLower = c ∨ c.isAlpha = true ∧ c.toLower.isAlpha = true)
      (by decide) hc
  · exact .inl (toLower_eq_self (Nat.not_lt.1 hc))

theorem toLower_eq_iff (hd : d.isAlpha = false) : c.toLower = d ↔ c = d := by
  rcases toLower_cases c with h | ⟨hc, hlower⟩
  · rw [h]
  · constructor
    · rintro rfl
      simp_all
    · rintro rfl
      simp_all

theorem utf8Size_toLower (c : Char) : c.toLower.utf8Size = c.utf8Size :=
  apply_toLower (by decide) c

theorem isLineBreak_toLower (c : Char) : isLineBreak c.toLower = isLineBreak c :=
  apply_toLower (by decide) c

theorem isBlank_toLower (c : Char) : isBlank c.toLower = isBlank c :=
  apply_toLower (by decide) c

theorem isLayout_toLower (c : Char) : isLayout c.toLower = isLayout c :=
  apply_toLower (by decide) c

end

/-! ### Texts -/

section
variable {p : Char → Bool}

theorem takeWhile_map_toLower (hp : ∀ c, p c.toLower = p c) (cs : List Char) :
    (cs.map Char.toLower).takeWhile p = (cs.takeWhile p).map Char.toLower := by
  have hcomp : p ∘ Char.toLower = p := funext hp
  rw [List.takeWhile_map, hcomp]

theorem dropWhile_map_toLower (hp : ∀ c, p c.toLower = p c) (cs : List Char) :
    (cs.map Char.toLower).dropWhile p = (cs.dropWhile p).map Char.toLower := by
  have hcomp : p ∘ Char.toLower = p := funext hp
  rw [List.dropWhile_map, hcomp]

end

theorem map_toLower_eq_cons {cs ds : List Char} {d : Char} (hd : d.isAlpha = false)
    (h : cs.map Char.toLower = d :: ds) : ∃ es, cs = d :: es ∧ es.map Char.toLower = ds := by
  obtain ⟨c, es, rfl, hc, hes⟩ := List.map_eq_cons_iff.1 h
  obtain rfl := (toLower_eq_iff hd).1 hc
  exact ⟨es, rfl, hes⟩

theorem byteLength_map_toLower (cs : List Char) : byteLength (cs.map Char.toLower) = byteLength cs := by
  induction cs with
  | nil => rfl
  | cons c cs ih => rw [List.map_cons, byteLength_cons, byteLength_cons, utf8Size_toLower, ih]

theorem window_map_toLower (lo hi pos : Nat) (cs : List Char) :
    window lo hi pos (cs.map Char.toLower) = (window lo hi pos cs).map Char.toLower := by
  induction cs generalizing pos with
  | nil => rfl
  | cons c cs ih =>
    simp only [List.map_cons, window, utf8Size_toLower, ih]
    split <;> rfl

theorem count_map_toLower {d : Char} (hd : d.isAlpha = false) (cs : List Char) :
    (cs.map Char.toLower).count d = cs.count d := by
  induction cs with
  | nil => rfl
  | cons c cs ih => simp only [List.map_cons, List.count_cons, ih, beq_iff_eq, toLower_eq_iff hd]

theorem normalized_map_toLower {cs : List Char} :
    Normalized (cs.map Char.toLower) ↔ Normalized cs := by
  have hfollow : ∀ c d : Char, MayFollow c.toLower d.toLower ↔ MayFollow c d := by
    intro c d
    rw [MayFollow, MayFollow, toLower_eq_iff (by decide), toLower_eq_iff (by decide)]
  have hspace : ' ' :: cs.map Char.toLower = (' ' :: cs).map Char.toLower := rfl
  rw [Normalized, Normalized, hspace, List.isChain_map]
  simp only [hfollow]

/-! ### Lexemes -/

namespace Lexeme

theorem run_map_toLower {p : Char → Bool} (hp : ∀ c, p c.toLower = p c) (cs : List Char) :
    run p (cs.map Char.toLower) = run p cs := by
  rw [run, run, takeWhile_map_toLower hp, List.length_map]

theorem single_map_toLower {d : Char} (hd : d.isAlpha = false) (cs : List Char) :
    single d (cs.map Char.toLower) = single d cs := by
  cases cs with
  | nil => rfl
  | cons c cs => simp only [List.map_cons, single, toLower_eq_iff hd]

theorem closingQuote_map_toLower (cs : List Char) :
    closingQuote (cs.map Char.toLower) = closingQuote cs := by
  fun_induction closingQuote cs with
  | case1 => rfl
  | case2 cs => rfl
  | case3 c cs ih => exact congrArg _ ih
  | case4 c cs hquote hslash ih =>
    rw [List.map_cons, closingQuote, ih]
    · exact fun h => hquote ((toLower_eq_iff (by decide)).1 h)
    · intro d ds h hds
      obtain ⟨d', ds', rfl, -⟩ := List.map_eq_cons_iff.1 hds
      exact hslash d' ds' ((toLower_eq_iff (by decide)).1 h) rfl

theorem quoted_map_toLower (cs : List Char) : quoted (cs.map Char.toLower) = quoted cs := by
  fun_cases quoted cs with
  | case1 cs => exact congrArg (Option.map (· + 1)) (closingQuote_map_toLower cs)
  | case2 cs h =>
    rw [quoted]
    intro ds hds
    obtain ⟨es, rfl, -⟩ := map_toLower_eq_cons (by decide) hds
    exact h es rfl

theorem closingBracket_map_toLower (place : ListPlace) (cs : List Char) :
    closingBracket place (cs.map Char.toLower) = closingBracket place cs := by
  induction cs generalizing place with
  | nil => cases place <;> rfl
  | cons c cs ih => cases place <;> simp [closingBracket, ih, toLower_eq_iff, isBlank_toLower]

theorem stringList_map_toLower (cs : List Char) :
    stringList (cs.map Char.toLower) = stringList cs := by
  fun_cases stringList cs with
  | case1 cs => exact congrArg (Option.map (· + 1)) (closingBracket_map_toLower .opened cs)
  | case2 cs h =>
    rw [stringList]
    intro ds hds
    obtain ⟨es, rfl, -⟩ := map_toLower_eq_cons (by decide) hds
    exact h es rfl

theorem isIndent_toLower (c : Char) : isIndent c.toLower = isIndent c :=
  apply_toLower (by decide) c

theorem afterCrlf?_map_toLower (cs : List Char) :
    afterCrlf? (cs.map Char.toLower) = (afterCrlf? cs).map (·.map Char.toLower) := by
  fun_cases afterCrlf? cs with
  | case1 cs => rfl
  | case2 cs h =>
    rw [afterCrlf?]
    · rfl
    · intro ds hds
      obtain ⟨es, rfl, hes⟩ := map_toLower_eq_cons (by decide) hds
      obtain ⟨fs, rfl, -⟩ := map_toLower_eq_cons (by decide) hes
      exact h fs rfl

/-- The text of an opening line is lowered with it, and nothing else changes. -/
theorem openingLine?_map_toLower (cs : List Char) :
    openingLine? (cs.map Char.toLower) =
      (openingLine? cs).map fun r => (r.1.map (·.map Char.toLower), r.2.map Char.toLower) := by
  have hbreak : ∀ c, (!isLineBreak c.toLower) = !isLineBreak c := fun c => by rw [isLineBreak_toLower]
  have hmap : ∀ t e x t' : Char, [t.toLower, e.toLower, x.toLower, t'.toLower].map Char.toLower =
      [t, e, x, t'].map Char.toLower := by
    intro t e x t'
    simp only [List.map_cons, List.map_nil, toLower_idem]
  fun_cases openingLine? cs with
  | case1 t e x t' cs hl ds hds =>
    have hlower := dropWhile_map_toLower isIndent_toLower cs
    rw [hds, List.map_cons] at hlower
    rw [List.map_cons, List.map_cons, List.map_cons, List.map_cons, List.map_cons]
    show openingLine? (_ :: _ :: _ :: _ :: ':' :: _) = _
    rw [openingLine?, if_pos ((hmap t e x t').trans hl), hlower]
    show (afterCrlf? _).map _ = _
    rw [dropWhile_map_toLower hbreak, takeWhile_map_toLower hbreak, afterCrlf?_map_toLower,
      Option.map_map, Option.map_map]
    rfl
  | case2 t e x t' cs hl hds =>
    show openingLine? (t.toLower :: e.toLower :: x.toLower :: t'.toLower :: ':' :: _) = _
    rw [openingLine?, if_pos ((hmap t e x t').trans hl), dropWhile_map_toLower isIndent_toLower]
    split
    next ds heq =>
      obtain ⟨es, hes, -⟩ := map_toLower_eq_cons (by decide) heq
      exact absurd hes (hds es)
    · rw [afterCrlf?_map_toLower, Option.map_map, Option.map_map]
      rfl
  | case3 t e x t' cs hl =>
    show openingLine? (t.toLower :: e.toLower :: x.toLower :: t'.toLower :: ':' :: _) = _
    rw [openingLine?, if_neg fun h => hl ((hmap t e x t').symm.trans h)]
    rfl
  | case4 cs h =>
    rw [Option.map_none, Option.eq_none_iff_forall_ne_some]
    intro r hr
    obtain ⟨t, e, x, t', ds, hcs, -⟩ := openingLine?_eq_some hr
    obtain ⟨t, cs, rfl, -, hcs⟩ := List.map_eq_cons_iff.1 hcs
    obtain ⟨e, cs, rfl, -, hcs⟩ := List.map_eq_cons_iff.1 hcs
    obtain ⟨x, cs, rfl, -, hcs⟩ := List.map_eq_cons_iff.1 hcs
    obtain ⟨t', cs, rfl, -, hcs⟩ := List.map_eq_cons_iff.1 hcs
    obtain ⟨es, rfl, -⟩ := map_toLower_eq_cons (by decide) hcs
    exact h t e x t' es rfl

theorem closingDot_map_toLower (b : Bool) (cs : List Char) :
    closingDot b (cs.map Char.toLower) = closingDot b cs := by
  fun_induction closingDot b cs with
  | case1 b => cases b <;> rfl
  | case2 => rfl
  | case3 cs => rfl
  | case4 b cs ih =>
    show closingDot b ('\r' :: '\n' :: cs.map Char.toLower) = _
    rw [closingDot, ih]
  | case5 b c cs hcrlf hc hdot hdotLine =>
    -- a carriage return or line feed has no other case
    have hlower : c.toLower = c := by
      rcases Bool.or_eq_true_iff.1 hc with hc | hc <;> rw [beq_iff_eq.1 hc] <;> rfl
    rw [List.map_cons, hlower, closingDot, if_pos hc]
    · intro ds hr hds
      obtain ⟨es, rfl, -⟩ := map_toLower_eq_cons (by decide) hds
      exact hcrlf es hr rfl
    · exact fun hb hd hnil => hdot hb hd (List.map_eq_nil_iff.1 hnil)
    · intro ds hb hd hds
      obtain ⟨es, rfl, hes⟩ := map_toLower_eq_cons (by decide) hds
      obtain ⟨fs, rfl, -⟩ := map_toLower_eq_cons (by decide) hes
      exact hdotLine fs hb hd rfl
  | case6 b c cs hcrlf hc hdot hdotLine ih =>
    rw [List.map_cons, closingDot_cons, ih]
    · simpa [isLineBreak_toLower] using hc
    · intro hb hd
      have hd := (toLower_eq_iff (by decide)).1 hd
      refine ⟨fun hnil => hdot hb hd (List.map_eq_nil_iff.1 hnil), fun ds hds => ?_⟩
      obtain ⟨es, rfl, hes⟩ := map_toLower_eq_cons (by decide) hds
      obtain ⟨fs, rfl, -⟩ := map_toLower_eq_cons (by decide) hes
      exact hdotLine fs hb hd rfl

theorem multiLine_map_toLower (cs : List Char) : multiLine (cs.map Char.toLower) = multiLine cs := by
  rw [multiLine, multiLine, openingLine?_map_toLower]
  cases openingLine? cs with
  | none => rfl
  | some r =>
    simp only [Option.map_some]
    rw [closingDot_map_toLower, List.length_map, List.length_map]

theorem hashComment_map_toLower (cs : List Char) :
    hashComment (cs.map Char.toLower) = hashComment cs := by
  have hbreak : ∀ c, (!isLineBreak c.toLower) = !isLineBreak c := fun c => by rw [isLineBreak_toLower]
  fun_cases hashComment cs with
  | case1 cs =>
    show some _ = _
    rw [takeWhile_map_toLower hbreak, List.length_map]
  | case2 cs h =>
    rw [hashComment]
    intro ds hds
    obtain ⟨es, rfl, -⟩ := map_toLower_eq_cons (by decide) hds
    exact h es rfl

theorem closingStar_map_toLower (cs : List Char) :
    closingStar (cs.map Char.toLower) = closingStar cs := by
  fun_induction closingStar cs with
  | case1 => rfl
  | case2 cs => rfl
  | case3 c cs h ih =>
    rw [List.map_cons, closingStar, ih]
    intro ds hc hds
    obtain ⟨es, rfl, -⟩ := map_toLower_eq_cons (by decide) hds
    exact h es ((toLower_eq_iff (by decide)).1 hc) rfl

theorem bracketComment_map_toLower (cs : List Char) :
    bracketComment (cs.map Char.toLower) = bracketComment cs := by
  fun_cases bracketComment cs with
  | case1 cs => exact congrArg (Option.map (· + 2)) (closingStar_map_toLower cs)
  | case2 cs h =>
    rw [bracketComment]
    intro ds hds
    obtain ⟨es, rfl, hes⟩ := map_toLower_eq_cons (by decide) hds
    obtain ⟨fs, rfl, -⟩ := map_toLower_eq_cons (by decide) hes
    exact h fs rfl

theorem word_map_toLower (cs : List Char) : word (cs.map Char.toLower) = word cs := by
  have hstart : ∀ c : Char, isWordStart c.toLower = isWordStart c := apply_toLower (by decide)
  have hchar : ∀ c : Char, isWordChar c.toLower = isWordChar c := apply_toLower (by decide)
  cases cs with
  | nil => rfl
  | cons c cs => rw [List.map_cons, word, word, hstart, takeWhile_map_toLower hchar, List.length_map]

theorem tag_map_toLower (cs : List Char) : tag (cs.map Char.toLower) = tag cs := by
  fun_cases tag cs with
  | case1 cs => exact congrArg (Option.map (· + 1)) (word_map_toLower cs)
  | case2 cs h =>
    rw [tag]
    intro ds hds
    obtain ⟨es, rfl, -⟩ := map_toLower_eq_cons (by decide) hds
    exact h es rfl

theorem number_map_toLower (cs : List Char) : number (cs.map Char.toLower) = number cs := by
  have hquantifier : ∀ c : Char, isQuantifier c.toLower = isQuantifier c := apply_toLower (by decide)
  rw [number, number, run_map_toLower (apply_toLower (by decide))]
  congr 1
  funext n
  rw [← List.map_drop]
  cases cs.drop n with
  | nil => rfl
  | cons c cs => simp only [List.map_cons, hquantifier]

end Lexeme

theorem Kind.measure_map_toLower (k : Kind) (cs : List Char) :
    k.measure (cs.map Char.toLower) = k.measure cs := by
  cases k with
  | stringList => exact Lexeme.stringList_map_toLower cs
  | quoted => exact Lexeme.quoted_map_toLower cs
  | multiLine => exact Lexeme.multiLine_map_toLower cs
  | hashComment => exact Lexeme.hashComment_map_toLower cs
  | bracketComment => exact Lexeme.bracketComment_map_toLower cs
  | blockStart | blockEnd | leftParen | rightParen | comma | semicolon =>
    exact Lexeme.single_map_toLower (by decide) cs
  | tag => exact Lexeme.tag_map_toLower cs
  | word => exact Lexeme.word_map_toLower cs
  | number => exact Lexeme.number_map_toLower cs
  | layout => exact Lexeme.run_map_toLower isLayout_toLower cs
  | unknown => exact Lexeme.run_map_toLower (fun c => by rw [isLayout_toLower]) cs

theorem scan_map_toLower (cs : List Char) : scan (cs.map Char.toLower) = scan cs := by
  simp only [scan, Kind.measure_map_toLower]

/-! ### Tokens -/

namespace Token

/-- The token in lower case. -/
def lowered (t : Token) : Token :=
  { t with lexeme := t.lexeme.map Char.toLower }

theorem allFrom_map_toLower (o l : Nat) (cs : List Char) :
    allFrom o l (cs.map Char.toLower) = (allFrom o l cs).map lowered := by
  fun_induction allFrom o l cs with
  | case1 o l cs h =>
    rw [allFrom_of_scan_eq_none ((scan_map_toLower cs).trans h)]
    rfl
  | case2 o l cs k n h lexeme ih =>
    rw [allFrom_of_scan ((scan_map_toLower cs).trans h), ← List.map_take, ← List.map_drop,
      byteLength_map_toLower, count_map_toLower (by decide), ih, List.map_cons]
    rfl

/-- The text is that of the token, but for the case of letters if the token is a word or a tag. -/
def RespelledAs (t : Token) (cs : List Char) : Prop :=
  if t.kind = .word ∨ t.kind = .tag then cs.map Char.toLower = t.lexeme.map Char.toLower
  else cs = t.lexeme

instance (t : Token) (cs : List Char) : Decidable (t.RespelledAs cs) :=
  inferInstanceAs (Decidable (if t.kind = .word ∨ t.kind = .tag then
    cs.map Char.toLower = t.lexeme.map Char.toLower else cs = t.lexeme))

/-- The text is that of the tokens, but for the case of letters inside words and tags. -/
def Respelled (ts : List Token) (cs : List Char) : Prop :=
  ∃ lexemes, List.Forall₂ RespelledAs ts lexemes ∧ cs = lexemes.flatten

/-- The second token stands where the first does, and is respelled. -/
structure Alike (t u : Token) : Prop where
  kind : u.kind = t.kind
  offset : u.offset = t.offset
  line : u.line = t.line
  lexeme : t.RespelledAs u.lexeme

variable {t u : Token} {ts us : List Token} {cs ds : List Char} {ls : List (List Char)}

theorem RespelledAs.map_toLower (h : t.RespelledAs cs) :
    cs.map Char.toLower = t.lexeme.map Char.toLower := by
  unfold RespelledAs at h
  split at h
  · exact h
  · rw [h]

theorem map_toLower_of_forall₂ (h : List.Forall₂ RespelledAs ts ls) :
    ls.flatten.map Char.toLower = (lexemes ts).map Char.toLower := by
  induction h with
  | nil => rfl
  | cons ht _ ih =>
    rw [List.flatten_cons, lexemes_cons, List.map_append, List.map_append, ht.map_toLower, ih]

theorem map_length_of_forall₂ (h : List.Forall₂ RespelledAs ts ls) :
    ls.map List.length = ts.map (·.lexeme.length) := by
  induction h with
  | nil => rfl
  | cons ht _ ih =>
    have hlen := congrArg List.length ht.map_toLower
    rw [List.length_map, List.length_map] at hlen
    rw [List.map_cons, List.map_cons, hlen, ih]

/-- Lexemes of the same lengths that make up the same text are the same. -/
theorem map_lexeme_of_forall₂ (hlower : us.map lowered = ts.map lowered)
    (h : List.Forall₂ RespelledAs ts ls) (htext : lexemes us = ls.flatten) : us.map lexeme = ls := by
  have hlen : ∀ ts : List Token, ts.map (·.lexeme.length) = (ts.map lowered).map (·.lexeme.length) := by
    intro ts
    simp [lowered, Function.comp_def]
  refine List.eq_iff_flatten_eq.2 ⟨htext, ?_⟩
  rw [map_length_of_forall₂ h, hlen ts, ← hlower, ← hlen us, List.map_map]
  rfl

theorem forall₂_alike (hlower : us.map lowered = ts.map lowered)
    (h : List.Forall₂ RespelledAs ts (us.map lexeme)) : List.Forall₂ Alike ts us := by
  induction us generalizing ts with
  | nil =>
    obtain rfl := List.map_eq_nil_iff.1 hlower.symm
    exact .nil
  | cons u us ih =>
    obtain ⟨t, ts, rfl, ht, hts⟩ := List.map_eq_cons_iff.1 hlower.symm
    obtain ⟨hu, hus⟩ := List.forall₂_cons.1 h
    simp only [lowered, Token.mk.injEq] at ht
    obtain ⟨hkind, -, hoffset, hline⟩ := ht
    exact .cons ⟨hkind.symm, hoffset.symm, hline.symm, hu⟩ (ih hts.symm hus)

/-- A respelled text has the same tokens in the same places, each respelled. -/
theorem Respelled.forall₂ (h : Respelled (all cs) ds) : List.Forall₂ Alike (all cs) (all ds) := by
  obtain ⟨ls, hls, rfl⟩ := h
  have htext : lexemes (all cs) = cs := lexemes_allFrom 0 1 cs
  have hlower : (all ls.flatten).map lowered = (all cs).map lowered := by
    rw [all, all, ← allFrom_map_toLower, ← allFrom_map_toLower, map_toLower_of_forall₂ hls, htext]
  refine forall₂_alike hlower ?_
  rwa [map_lexeme_of_forall₂ hlower hls (lexemes_allFrom 0 1 ls.flatten)]

theorem Alike.symbol?_eq (h : t.Alike u) : u.symbol? = t.symbol? := by
  obtain ⟨k, lexeme, o, l⟩ := t
  obtain ⟨k', lexeme', o', l'⟩ := u
  obtain ⟨rfl, -, -, hlexeme⟩ := h
  have hlower := hlexeme.map_toLower
  unfold RespelledAs at hlexeme
  split at hlexeme
  next hk =>
    simp only at hk hlower
    rcases hk with rfl | rfl <;> simp [symbol?, lower, hlower]
  next hk =>
    simp only at hlexeme
    rw [hlexeme]
    rfl

theorem Alike.stop_eq (h : t.Alike u) : u.stop = t.stop := by
  rw [stop, stop, h.offset, ← byteLength_map_toLower, h.lexeme.map_toLower, byteLength_map_toLower]

end Token

/-! ### Reading -/

/-- Tokens with the same symbols are read alike, and the same one is at fault. -/
theorem State.run_of_forall₂ {v : Vocabulary} {R : Token → Token → Prop}
    (hR : ∀ t u, R t u → u.symbol? = t.symbol?) {ts us : List Token} (h : List.Forall₂ R ts us)
    (s : State) :
    (∃ s', run v s ts = .ok s' ∧ run v s us = .ok s') ∨
    ∃ f t u, R t u ∧ run v s ts = .error (f, t) ∧ run v s us = .error (f, u) := by
  induction h generalizing s with
  | nil => exact .inl ⟨s, rfl, rfl⟩
  | @cons t u ts us ht _ ih =>
    rw [run, run, hR t u ht]
    cases t.symbol? with
    | none => exact ih s
    | some y =>
      simp only
      cases s.step v y with
      | ok s' => exact ih s'
      | error f => exact .inr ⟨f, t, u, ht, rfl, rfl⟩

namespace Script

theorem normalize_of_respelled {text cs : List Char} (h : Token.Respelled (Token.all (normalize text)) cs) :
    normalize cs = cs := by
  obtain ⟨ls, hls, rfl⟩ := h
  refine Normalized.normalize_eq (normalized_map_toLower.1 ?_)
  rw [Token.map_toLower_of_forall₂ hls, normalized_map_toLower, Token.all, Token.lexemes_allFrom]
  exact normalized_normalize text

/-- Both are the same script, or both are errors with the same report, of which the second may show
its text in letters of another case. -/
inductive ReadAlike : Except SyntaxError Script → Except SyntaxError Script → Prop
  | ok (s : Script) : ReadAlike (.ok s) (.ok s)
  | error {e e' : SyntaxError} (message : e'.fault.message = e.fault.message)
      (line : e'.line = e.line) (describe : e'.describe = e.describe)
      (snippet : e'.snippet.toList.map Char.toLower = e.snippet.toList.map Char.toLower) :
      ReadAlike (.error e) (.error e')

/-- The case of letters inside words and tags changes neither the script that is read nor the error. -/
theorem parse_of_respelled {caps : List String} {name text text' : String}
    (h : Token.Respelled (Token.all (normalize text.toList)) text'.toList) :
    ReadAlike (parse caps name text) (parse caps name text') := by
  have hnormal := normalize_of_respelled h
  have hlower : text'.toList.map Char.toLower = (normalize text.toList).map Char.toLower := by
    obtain ⟨ls, hls, htext⟩ := h
    rw [htext, Token.map_toLower_of_forall₂ hls, Token.all, Token.lexemes_allFrom]
  rw [parse, parse, read, read, hnormal]
  rcases State.run_of_forall₂ (v := .ofCapabilities caps) (fun t u => Token.Alike.symbol?_eq) h.forall₂ {}
    with ⟨s, hs, hs'⟩ | ⟨f, t, u, htu, ht, hu⟩
  · rw [hs, hs']
    exact .ok s.finish
  · rw [ht, hu]
    refine .error rfl htu.line ?_ ?_
    · simp only [SyntaxError.describe, SyntaxError.ofFault, htu.line]
    · simp only [SyntaxError.ofFault, String.toList_ofList]
      rw [htu.stop_eq, ← window_map_toLower, hlower, window_map_toLower]

/-- An instance with a word that could open a multi-line text and a number in front of a word, and one
where a test stands inside an action. -/
theorem parse_of_respelled_text :
    let text := "IF Text :Is 1k \x7b\nKeep; \x7d"
    let text' := "if tEXT :iS 1k \x7b\r\nKEEP; \x7d"
    let wrong := "stop;\nKeep :Copy Header"
    let wrong' := "STOP;\r\nkeep :COPY hEADER"
    Token.Respelled (Token.all (normalize text.toList)) text'.toList ∧
    ReadAlike (parse [] "a" text) (parse [] "a" text') ∧
    Token.Respelled (Token.all (normalize wrong.toList)) wrong'.toList ∧
    ReadAlike (parse [] "a" wrong) (parse [] "a" wrong') := by
  intro text text' wrong wrong'
  have h : Token.Respelled (Token.all (normalize text.toList)) text'.toList := by
    refine ⟨[['i', 'f'], [' '], ['t', 'E', 'X', 'T'], [' '], [':', 'i', 'S'], [' '], ['1', 'k'], [' '],
      ['\x7b'], ['\r', '\n'], ['K', 'E', 'E', 'P'], [';'], [' '], ['\x7d']], ?_, by decide⟩
    decide +kernel
  have hwrong : Token.Respelled (Token.all (normalize wrong.toList)) wrong'.toList := by
    refine ⟨[['S', 'T', 'O', 'P'], [';'], ['\r', '\n'], ['k', 'e', 'e', 'p'], [' '],
      [':', 'C', 'O', 'P', 'Y'], [' '], ['h', 'E', 'A', 'D', 'E', 'R']], ?_, by decide⟩
    decide +kernel
  exact ⟨h, parse_of_respelled h, hwrong, parse_of_respelled hwrong⟩

end Script

end SieveScript
