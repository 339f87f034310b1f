import SieveScript.Proofs.Lexical

/-!
# Values with any line endings

A value that is put into a tree by hand may hold line endings that reading never gives. The text of
the tree is normalized before it is read, so what is read back is not the value but its `reread`: the
same with its line endings normalized and, in a multi-line text, with an end to its last line. For
strings in quotes this holds of every value, since the text of the one is normalized to the text of
the other (`NormalizesTo`). A multi-line text has to be `contained`. Dots are doubled at the start of
what CRLF divides, so a dot behind any other line feed is left alone and may end the text, and a
carriage return on its own cannot stand in a multi-line text at all. `ReadsAs` says of a text what its
symbols are (`Argument.readsAs_encodeAll`).
-/

namespace SieveScript

/-! ### Normalizing a text piece by piece -/

theorem normalize_append {xs ys : List Char}
    (h : xs.getLast? = some '\r' → ys.head? ≠ some '\n') :
    normalize (xs ++ ys) = normalize xs ++ normalize ys := by
  fun_induction normalize xs with
  | case1 => rfl
  | case2 cs ih =>
    have hcs : cs.getLast? = some '\r' → ys.head? ≠ some '\n' := fun hl =>
      h (by simp [List.getLast?_cons, hl])
    rw [List.cons_append, List.cons_append, normalize, ih hcs]
    rfl
  | case3 cs ih =>
    have hcs : cs.getLast? = some '\r' → ys.head? ≠ some '\n' := fun hl =>
      h (by simp [List.getLast?_cons, hl])
    rw [List.cons_append, normalize, ih hcs]
    rfl
  | case4 c cs hcrlf hlf ih =>
    have hcs : cs.getLast? = some '\r' → ys.head? ≠ some '\n' := fun hl =>
      h (by simp [List.getLast?_cons, hl])
    rw [List.cons_append, normalize, ih hcs]
    · rfl
    · -- a line feed behind the last carriage return would be the first character of `ys`
      rintro ds rfl hds
      cases cs with
      | nil => exact h rfl (by rw [show ys = '\n' :: ds from hds]; rfl)
      | cons d cs =>
        cases hds
        exact hcrlf cs rfl rfl
    · exact hlf

/-- The first text does not start with a line feed, and is normalized to the second one. -/
structure NormalizesTo (xs ys : List Char) : Prop where
  head : xs.head? ≠ some '\n'
  eq : normalize xs = ys

namespace NormalizesTo
variable {xs ys xs' ys' : List Char}

theorem of_normalized (h : Normalized xs) : NormalizesTo xs xs :=
  ⟨(normalized_iff.1 h).1, h.normalize_eq⟩

theorem append (h : NormalizesTo xs ys) (h' : NormalizesTo xs' ys') :
    NormalizesTo (xs ++ xs') (ys ++ ys') := by
  refine ⟨?_, ?_⟩
  · cases xs with
    | nil => exact h'.head
    | cons c xs => exact h.head
  · rw [normalize_append fun _ => h'.head, h.eq, h'.eq]

theorem cons {c : Char} (hc : isLineBreak c = false) (h : NormalizesTo xs ys) :
    NormalizesTo (c :: xs) (c :: ys) := by
  have hline : IsLine [c] := by simpa [IsLine] using hc
  exact (of_normalized hline.normalized).append h

end NormalizesTo

/-! ### Quoted strings and string lists -/

namespace Quoted

/-- The value that is read back. -/
def reread (value : String) : String :=
  String.ofList (normalize value.toList)

theorem reread_eq {value : String} (h : Normalized value.toList) : reread value = value := by
  rw [reread, h.normalize_eq, String.ofList_toList]

theorem normalized_reread (value : String) : Normalized (reread value).toList := by
  rw [reread, String.toList_ofList]
  exact normalized_normalize _

theorem normalize_escape (cs : List Char) : normalize (escape cs) = escape (normalize cs) := by
  fun_induction normalize cs with
  | case1 => rfl
  | case2 cs ih => simp [escape, normalize, ih]
  | case3 cs ih => simp [escape, normalize, ih]
  | case4 c cs hcrlf hlf ih =>
    by_cases hc : c = '\\' ∨ c = '"'
    · have hplain : c ≠ '\r' := by rcases hc with rfl | rfl <;> decide
      rw [escape, if_pos hc, escape, if_pos hc, normalize, normalize, ih]
      all_goals simp_all
    · rw [escape, if_neg hc, escape, if_neg hc, normalize, ih]
      · -- what stands behind a carriage return is escaped as it is
        rintro ds rfl hds
        cases cs with
        | nil => contradiction
        | cons d cs =>
          rw [escape] at hds
          split at hds
          · simp at hds
          · cases hds
            exact hcrlf cs rfl rfl
      · exact hlf

theorem normalizesTo_encode (value : String) : NormalizesTo (encode value) (encode (reread value)) := by
  have hopen : normalize (escape value.toList ++ ['"']) = escape (normalize value.toList) ++ ['"'] := by
    rw [normalize_append (by simp), normalize_escape]
    rfl
  refine ⟨by simp [encode], ?_⟩
  rw [encode, encode, reread, String.toList_ofList, List.cons_append, List.cons_append, normalize, hopen]
  all_goals simp

end Quoted

namespace StringList

/-- What is read back of a list of strings. -/
def reread (vs : List String) : List String :=
  vs.map Quoted.reread

theorem normalizesTo_elements (vs : List String) :
    NormalizesTo (elements vs) (elements (reread vs)) := by
  fun_induction elements vs with
  | case1 => exact .of_normalized normalized_nil
  | case2 v => exact Quoted.normalizesTo_encode v
  | case3 v w vs ih => exact (Quoted.normalizesTo_encode v).append (ih.cons (by decide))

theorem normalizesTo_encode (vs : List String) :
    NormalizesTo (encode vs) (encode (reread vs)) := by
  have hclose : NormalizesTo [']'] [']'] := .of_normalized (by simp [normalized_iff])
  exact ((normalizesTo_elements vs).append hclose).cons (by decide)

end StringList

/-! ### Multi-line texts -/

namespace MultiLine

/-- The first line of the text is a single dot. -/
def isDotLine (cs : List Char) : Bool :=
  cs.takeWhile (!isLineBreak ·) == ['.']

/-- Every carriage return has a line feed behind it, and no line behind a line feed without a
carriage return is a single dot. -/
def contained : List Char → Bool
  | [] => true
  | '\r' :: '\n' :: cs => contained cs
  | '\n' :: cs => !isDotLine cs && contained cs
  | c :: cs => c ≠ '\r' && contained cs

/-- What is read back of a line in which there are line feeds: they end lines, and of two dots at the
start of such a line one is lost. -/
def rereadLine : List Char → List Char
  | [] => []
  | '\r' :: '\n' :: cs => '\r' :: '\n' :: rereadLine cs
  | '\n' :: cs => '\r' :: '\n' :: unstuff (rereadLine cs)
  | c :: cs => c :: rereadLine cs

/-- What is read back of a multi-line text. -/
def reread (m : MultiLine) : MultiLine :=
  { m with value := String.ofList ((splitLines m.value.toList).flatMap (rereadLine ∘ endLine)) }

theorem isDotLine_append {b rest : List Char} (h : ∀ c ∈ rest.head?, isLineBreak c = true) :
    isDotLine (b ++ rest) = isDotLine b := by
  have hrest : rest.takeWhile (!isLineBreak ·) = [] := by
    cases rest with
    | nil => rfl
    | cons c rest => simp [h c rfl]
  rw [isDotLine, isDotLine, List.takeWhile_append, hrest, List.append_nil]
  split
  next hlen =>
    have hpre : b.takeWhile (!isLineBreak ·) <+: b := List.takeWhile_prefix _
    rw [hpre.eq_of_length hlen]
  · rfl

/-- A line without CRLF is the last one. -/
theorem eq_nil_of_splitLines {cs l : List Char} {ls : List (List Char)} (h : splitLines cs = l :: ls)
    (hl : ¬ ['\r', '\n'] <:+ l) : ls = [] := by
  fun_induction splitLines cs generalizing l with
  | case1 => contradiction
  | case2 cs ih =>
    cases h
    exact absurd (List.suffix_refl _) hl
  | case3 c cs _ ih =>
    generalize splitLines cs = ks at h ih
    cases ks with
    | nil =>
      cases h
      rfl
    | cons k ks =>
      cases h
      exact ih rfl fun hk => hl (hk.trans (List.suffix_cons c k))

/-- A part of a contained text in which there is no CRLF. -/
structure IsPart (b : List Char) : Prop where
  noReturn : '\r' ∉ b
  contained : contained b = true

theorem contained_cons {c : Char} {cs : List Char} (hcrlf : ∀ ds, c = '\r' → cs ≠ '\n' :: ds) :
    contained (c :: cs) = true ↔
      c ≠ '\r' ∧ contained cs = true ∧ (c = '\n' → isDotLine cs = false) := by
  by_cases hc : c = '\n'
  · subst hc
    rw [contained]
    simp [and_comm]
  · rw [contained]
    · simp [hc]
    · exact fun ds hr hds => hcrlf ds hr hds
    · exact hc

/-- The lines of a contained text are parts of it, each with its CRLF but perhaps the last. -/
theorem isPart_of_mem_splitLines {cs : List Char} (h : contained cs = true) :
    ∀ l ∈ splitLines cs, ∃ b, IsPart b ∧ (l = b ++ ['\r', '\n'] ∨ l = b) := by
  fun_induction splitLines cs with
  | case1 => simp
  | case2 cs ih =>
    rw [contained] at h
    exact List.forall_mem_cons.2 ⟨⟨[], ⟨by simp, rfl⟩, .inl rfl⟩, ih h⟩
  | case3 c cs hcrlf ih =>
    obtain ⟨hc, hcs, hdot⟩ := (contained_cons fun ds hr hds => hcrlf ds hr hds).1 h
    have ih := ih hcs
    have hflat := flatten_splitLines cs
    have hlast := @eq_nil_of_splitLines cs
    generalize splitLines cs = ls at ih hflat hlast
    cases ls with
    | nil =>
      have hpart : IsPart [c] :=
        ⟨by simpa using hc.symm, (contained_cons (by simp)).2 ⟨hc, rfl, fun _ => rfl⟩⟩
      exact List.forall_mem_singleton.2 ⟨[c], hpart, .inr rfl⟩
    | cons l ls =>
      obtain ⟨⟨b, hb, hl⟩, hls⟩ := List.forall_mem_cons.1 ih
      -- behind `b` the text ends or goes on with CRLF, so a dot line in `b` is one in the text
      have hno : c = '\n' → isDotLine b = false := by
        intro hn
        rw [← hdot hn, ← hflat]
        rcases hl with rfl | rfl
        · rw [List.flatten_cons, List.append_assoc, isDotLine_append (by simp [isLineBreak])]
        · rw [hlast rfl fun hs => hb.noReturn (hs.subset (by simp))]
          simp
      have hpart : IsPart (c :: b) := by
        refine ⟨by simpa using ⟨hc.symm, hb.noReturn⟩, (contained_cons ?_).2 ⟨hc, hb.contained, hno⟩⟩
        exact fun _ hr => absurd hr hc
      refine List.forall_mem_cons.2 ⟨⟨c :: b, hpart, ?_⟩, hls⟩
      exact hl.imp (congrArg (c :: ·)) (congrArg (c :: ·))

theorem stuff_of_head {l : List Char} (h : l.head? ≠ some '.') : stuff l = l := by
  cases l with
  | nil => rfl
  | cons c l =>
    have hc : c ≠ '.' := by simpa using h
    simp [stuff, hc]

theorem stuff_of_dot {l : List Char} (h : l.head? = some '.') : stuff l = '.' :: l := by
  obtain ⟨l', rfl⟩ := List.head?_eq_some_iff.1 h
  rfl

/-- The lines that a part is written as. Only the first may be a single dot, and the others are read
back without the second dot at their start. -/
theorem exists_lines_of_isPart {b : List Char} (h : IsPart b) :
    ∃ l ls, l = b.takeWhile (!isLineBreak ·) ∧ (∀ k ∈ ls, IsLine k ∧ k ≠ ['.']) ∧
      normalize (b ++ ['\r', '\n']) = joinLines (l :: ls) ∧
      rereadLine (b ++ ['\r', '\n']) = joinLines (l :: ls.map unstuff) := by
  -- `l` is the line that the next character in front belongs to, unless that is a line feed
  induction b with
  | nil => exact ⟨[], [], rfl, by simp, rfl, rfl⟩
  | cons c b ih =>
    have hreturn : c ≠ '\r' ∧ '\r' ∉ b := by simpa [eq_comm] using h.noReturn
    obtain ⟨-, hb, hdot⟩ := (contained_cons fun _ hr => absurd hr hreturn.1).1 h.contained
    obtain ⟨l, ls, hl, hls, hnorm, hreread⟩ := ih ⟨hreturn.2, hb⟩
    have hline : IsLine l := hl ▸ isLine_takeWhile b
    by_cases hc : c = '\n'
    · subst hc
      have hne : l ≠ ['.'] := by simpa [isDotLine, ← hl] using hdot rfl
      refine ⟨[], l :: ls, rfl, List.forall_mem_cons.2 ⟨⟨hline, hne⟩, hls⟩, ?_, ?_⟩
      · rw [List.cons_append, normalize, hnorm, joinLines_cons []]
        rfl
      · rw [List.cons_append, rereadLine, hreread, joinLines_cons l, unstuff_line, List.map_cons,
          joinLines_cons [], joinLines_cons]
        rfl
    · have hbreak : isLineBreak c = false := by simp [isLineBreak, hc, hreturn.1]
      refine ⟨c :: l, ls, by simp [hbreak, hl], hls, ?_, ?_⟩
      · rw [List.cons_append, normalize, hnorm, joinLines_cons, joinLines_cons]
        · rfl
        · exact fun ds hr => absurd hr hreturn.1
        · exact hc
      · rw [List.cons_append, rereadLine, hreread, joinLines_cons, joinLines_cons]
        · rfl
        · exact fun ds hr => absurd hr hreturn.1
        · exact hc

/-- Doubling the dot in front of a part is doubling it in front of the first of its lines. -/
theorem exists_lines_stuff {b : List Char} (h : IsPart b) :
    ∃ ls, (∀ l ∈ ls, IsLine l) ∧ ['.'] ∉ ls ∧ normalize (stuff b ++ ['\r', '\n']) = joinLines ls ∧
      rereadLine (b ++ ['\r', '\n']) = joinLines (ls.map unstuff) := by
  obtain ⟨l, ls, hl, hls, hnorm, hreread⟩ := exists_lines_of_isPart h
  have hline : IsLine l := hl ▸ isLine_takeWhile b
  have hhead : l.head? = some '.' ↔ b.head? = some '.' := by
    rw [hl]
    cases b with
    | nil => rfl
    | cons c b =>
      by_cases hc : isLineBreak c = true
      · have hne : c ≠ '.' := by
          rintro rfl
          exact absurd hc (by decide)
        simp [hc, hne]
      · simp [hc]
  have hdots : ['.'] ∉ stuff l :: ls := by
    refine List.not_mem_cons_of_ne_of_not_mem ?_ fun hm => (hls _ hm).2 rfl
    exact fun hs => dot_notMem_map_stuff [l] (by simp [← hs])
  have hlines : ∀ k ∈ stuff l :: ls, IsLine k :=
    List.forall_mem_cons.2 ⟨isLine_stuff hline, fun k hk => (hls k hk).1⟩
  refine ⟨stuff l :: ls, hlines, hdots, ?_, ?_⟩
  · by_cases hb : b.head? = some '.'
    · rw [stuff_of_dot hb, stuff_of_dot (hhead.2 hb), List.cons_append, normalize, hnorm]
      all_goals simp
    · rw [stuff_of_head hb, stuff_of_head (mt hhead.1 hb), hnorm]
  · rw [hreread, List.map_cons, unstuff_stuff]

theorem endLine_of_isPart {b l : List Char} (h : '\r' ∉ b) (hl : l = b ++ ['\r', '\n'] ∨ l = b) :
    endLine l = b ++ ['\r', '\n'] := by
  rcases hl with rfl | rfl
  · exact endLine_append b
  · refine if_neg fun hsuffix => h ?_
    exact (List.isSuffixOf_iff_suffix.1 hsuffix).subset (by simp)

theorem endLine_stuff_of_isPart {b l : List Char} (h : '\r' ∉ b)
    (hl : l = b ++ ['\r', '\n'] ∨ l = b) : endLine (stuff l) = stuff b ++ ['\r', '\n'] := by
  have hreturn : '\r' ∉ stuff b := by
    by_cases hdot : b.head? = some '.'
    · rw [stuff_of_dot hdot]
      simpa using h
    · rwa [stuff_of_head hdot]
  refine endLine_of_isPart hreturn (hl.imp ?_ (congrArg stuff))
  rintro rfl
  exact stuff_append b

/-- The lines that a text of parts is written as, and as which it is read back. -/
theorem exists_lines_flatMap {ls : List (List Char)}
    (h : ∀ l ∈ ls, ∃ b, IsPart b ∧ (l = b ++ ['\r', '\n'] ∨ l = b)) :
    ∃ ks, (∀ k ∈ ks, IsLine k) ∧ ['.'] ∉ ks ∧
      normalize (ls.flatMap fun l => endLine (stuff l)) = joinLines ks ∧
      ls.flatMap (rereadLine ∘ endLine) = joinLines (ks.map unstuff) := by
  induction ls with
  | nil => exact ⟨[], by simp, by simp, rfl, rfl⟩
  | cons l ls ih =>
    obtain ⟨⟨b, hb, hl⟩, hls⟩ := List.forall_mem_cons.1 h
    obtain ⟨ks, hks, hdots, hnorm, hreread⟩ := ih hls
    obtain ⟨ks', hks', hdots', hnorm', hreread'⟩ := exists_lines_stuff hb
    refine ⟨ks' ++ ks, List.forall_mem_append.2 ⟨hks', hks⟩, by simp [hdots, hdots'], ?_, ?_⟩
    · rw [List.flatMap_cons, endLine_stuff_of_isPart hb.noReturn hl, normalize_append (by simp), hnorm',
        hnorm]
      simp [joinLines]
    · rw [List.flatMap_cons, Function.comp_apply, endLine_of_isPart hb.noReturn hl, hreread', hreread]
      simp [joinLines]

/-- The token of a contained text, with its line endings normalized, stands for what `reread` says. -/
theorem exists_token {m : MultiLine} (hc : contained m.value.toList = true)
    (hcomment : ∀ c ∈ m.comment, c.toList ≠ [] ∧ trim c.toList = c.toList ∧ IsLine c.toList) :
    ∃ ls, (∀ l ∈ ls, IsLine l) ∧ ['.'] ∉ ls ∧ normalize m.encode = token m.comment ls ∧
      m.reread.value.toList = joinLines (ls.map unstuff) := by
  obtain ⟨ls, hls, hdots, hbody, hvalue⟩ := exists_lines_flatMap (isPart_of_mem_splitLines hc)
  refine ⟨ls, hls, hdots, ?_, by rw [reread, String.toList_ofList, hvalue]⟩
  have hopen : Normalized (['t', 'e', 'x', 't', ':'] ++ encodeComment m.comment ++ ['\r', '\n']) := by
    have hword : IsLine ['t', 'e', 'x', 't', ':'] := by decide
    have hcrlf : Normalized ['\r', '\n'] := by simp [normalized_iff, MayFollow]
    have hnote := normalized_encodeComment fun c hc => (hcomment c hc).2.2
    exact (hword.normalized.append hnote).append hcrlf
  have hlast : (['t', 'e', 'x', 't', ':'] ++ encodeComment m.comment ++ ['\r', '\n']).getLast? =
      some '\n' := by
    rw [List.getLast?_append_of_ne_nil _ (by simp)]
    rfl
  rw [encode, List.append_assoc, normalize_append fun hr => absurd (hlast.symm.trans hr) (by decide),
    hopen.normalize_eq, normalize_append (by simp), hbody]
  simp [token, normalize]

end MultiLine

/-! ### Texts as symbols -/

/-- In front of any text that `P` holds of, the text is read as the symbols once its line endings are
normalized. -/
structure ReadsAs (P : List Char → Prop) (xs : List Char) (ys : List Symbol) : Prop where
  head : xs.head? ≠ some '\n'
  symbols : ∀ rest, P rest → Token.symbols (normalize xs ++ rest) = ys ++ Token.symbols rest

theorem NormalizesTo.readsAs {P : List Char → Prop} {xs xs' : List Char} {ys : List Symbol}
    (h : NormalizesTo xs xs')
    (hs : ∀ rest, P rest → Token.symbols (xs' ++ rest) = ys ++ Token.symbols rest) : ReadsAs P xs ys :=
  ⟨h.head, fun rest hrest => by rw [h.eq, hs rest hrest]⟩

theorem Delimited.normalize_append {xs rest : List Char} (h : Delimited xs)
    (hrest : xs = [] → Delimited rest) : Delimited (normalize xs ++ rest) := by
  cases xs with
  | nil => exact hrest rfl
  | cons c xs =>
    have hc : c ∈ delimiters := h c rfl
    have hne : c ≠ '\r' ∧ c ≠ '\n' := by
      refine ⟨?_, ?_⟩ <;>
      · rintro rfl
        exact absurd hc (by decide)
    rw [normalize]
    · exact delimited_cons hc
    · exact fun ds hr => absurd hr hne.1
    · exact hne.2

namespace ReadsAs
variable {P Q : List Char → Prop} {xs xs' : List Char} {ys ys' : List Symbol}

theorem append_of (h : ReadsAs P xs ys) (h' : ReadsAs Q xs' ys')
    (hP : ∀ rest, Q rest → P (normalize xs' ++ rest)) : ReadsAs Q (xs ++ xs') (ys ++ ys') := by
  refine ⟨?_, fun rest hrest => ?_⟩
  · cases xs with
    | nil => exact h'.head
    | cons c xs => exact h.head
  · rw [normalize_append fun _ => h'.head, List.append_assoc, h.symbols _ (hP rest hrest),
      h'.symbols rest hrest, List.append_assoc]

theorem append (h : ReadsAs Delimited xs ys) (h' : ReadsAs Delimited xs' ys') (hd : Delimited xs') :
    ReadsAs Delimited (xs ++ xs') (ys ++ ys') :=
  h.append_of h' fun _ hrest => hd.normalize_append fun _ => hrest

/-- A text that ends by itself may stand in front of any other. -/
theorem followed (h : ReadsAs (fun _ => True) xs ys) (h' : ReadsAs P xs' ys') :
    ReadsAs P (xs ++ xs') (ys ++ ys') :=
  h.append_of h' fun _ _ => trivial

theorem nil : ReadsAs P [] [] :=
  ⟨by simp, fun _ _ => rfl⟩

theorem space (h : ReadsAs P xs ys) : ReadsAs P (' ' :: xs) ys := by
  have hspace : Normalized [' '] := by simp [normalized_iff]
  have hread : ReadsAs (fun _ => True) [' '] [] :=
    (NormalizesTo.of_normalized hspace).readsAs fun _ _ => Token.symbols_layout (by decide)
  exact hread.followed h

end ReadsAs

/-! ### Arguments -/

namespace Argument

def reread : Argument → Argument
  | string v => string (Quoted.reread v)
  | multiLine m => multiLine m.reread
  | strings vs => strings (StringList.reread vs)
  | a => a

/-- The arguments differ only in the texts of their strings. -/
inductive SameForm : Argument → Argument → Prop
  | tag {t : String} : SameForm (tag t) (tag t)
  | string {v w : String} : SameForm (string v) (string w)
  | multiLine {m n : MultiLine} (comment : n.comment = m.comment) : SameForm (multiLine m) (multiLine n)
  | strings {vs ws : List String} (length : ws.length = vs.length) : SameForm (strings vs) (strings ws)
  | number {n : Number} : SameForm (number n) (number n)

theorem SameForm.refl (a : Argument) : SameForm a a := by
  cases a <;> constructor <;> rfl

/-- The argument is contained, if it is a multi-line text. -/
def contained : Argument → Bool
  | multiLine m => MultiLine.contained m.value.toList
  | _ => true

theorem lexical_reread {a b : Argument} (h : SameForm a b) (ha : a.Lexical) (hb : b.contained = true) :
    b.reread.Lexical := by
  cases h with
  | tag | number => exact ha
  | string => exact Quoted.normalized_reread _
  | strings =>
    intro v hv
    obtain ⟨w, -, rfl⟩ := List.mem_map.1 hv
    exact Quoted.normalized_reread w
  | @multiLine m n hcomment =>
    have hc := ha.comment
    rw [← hcomment] at hc
    obtain ⟨ls, hls, -, -, hvalue⟩ := MultiLine.exists_token hb hc
    refine ⟨⟨ls.map MultiLine.unstuff, hvalue, ?_⟩, hc⟩
    exact List.forall_mem_map.2 fun l hl => MultiLine.isLine_unstuff (hls l hl)

theorem readsAs_encode {a b : Argument} (h : SameForm a b) (ha : a.Lexical) (hb : b.contained = true) :
    ReadsAs Delimited b.encode [.argument b.reread] := by
  have hreread := lexical_reread h ha hb
  cases h with
  | tag | number =>
    exact (NormalizesTo.of_normalized (normalized_encode ha)).readsAs fun rest => symbols_encode ha
  | @string v w =>
    exact (Quoted.normalizesTo_encode w).readsAs fun rest => symbols_encode hreread
  | @strings vs ws =>
    exact (StringList.normalizesTo_encode ws).readsAs fun rest => symbols_encode hreread
  | @multiLine m n hcomment =>
    have hc := ha.comment
    rw [← hcomment] at hc
    obtain ⟨ls, hls, hdots, hnorm, hvalue⟩ := MultiLine.exists_token hb hc
    have hdecode : MultiLine.decode (MultiLine.token n.comment ls) = n.reread := by
      rw [MultiLine.decode_token hc hls, ← hvalue, String.ofList_toList]
      rfl
    refine ⟨by simp [encode, MultiLine.encode], fun rest hrest => ?_⟩
    rw [encode, hnorm,
      Token.symbols_append_of_scan (scan_multiLine (MultiLine.multiLine_token hc hls hdots rest))]
    show [Symbol.argument (.multiLine (MultiLine.decode (MultiLine.token n.comment ls)))] ++ _ = _
    rw [hdecode]
    rfl

theorem readsAs_encodeAll {as bs : List Argument} (h : List.Forall₂ SameForm as bs)
    (has : ∀ a ∈ as, a.Lexical) (hbs : ∀ b ∈ bs, b.contained = true) :
    ReadsAs Delimited (encodeAll bs) ((bs.map reread).map .argument) := by
  induction h with
  | nil => exact .nil
  | @cons a b as bs hab h ih =>
    obtain ⟨ha, has⟩ := List.forall_mem_cons.1 has
    obtain ⟨hb, hbs⟩ := List.forall_mem_cons.1 hbs
    have hfirst := readsAs_encode hab ha hb
    cases h with
    | nil => exact hfirst
    | cons => exact hfirst.append (ih has hbs).space (delimited_cons (by decide))

theorem allLexical_reread {as bs : List Argument} (h : List.Forall₂ SameForm as bs)
    (has : ∀ a ∈ as, a.Lexical) (hbs : ∀ b ∈ bs, b.contained = true) :
    ∀ b ∈ bs.map reread, b.Lexical := by
  induction h with
  | nil => simp
  | cons hab _ ih =>
    obtain ⟨ha, has⟩ := List.forall_mem_cons.1 has
    obtain ⟨hb, hbs⟩ := List.forall_mem_cons.1 hbs
    exact List.forall_mem_cons.2 ⟨lexical_reread hab ha hb, ih has hbs⟩

end Argument

end SieveScript
