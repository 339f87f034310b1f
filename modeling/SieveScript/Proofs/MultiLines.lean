import SieveScript.Proofs.Comments

/-!
# Multi-line texts are read back as they are written

The value of a multi-line text is a list of lines, each with its CRLF (`joinLines`). A line that
starts with a dot is written with a second one, so no line of the value ends the text
(`Lexeme.closingDot_joinLines`), and reading takes that dot away again. A multi-line text is
`Lexical` if some token stands for it.
-/

namespace SieveScript

theorem isLine_takeWhile (cs : List Char) : IsLine (cs.takeWhile (!isLineBreak ·)) :=
  fun c hc => by simpa using List.mem_takeWhile_imp hc

/-- Lines one behind the other, each with its CRLF. -/
def joinLines (ls : List (List Char)) : List Char :=
  ls.flatMap (· ++ ['\r', '\n'])

@[simp]
theorem joinLines_nil : joinLines [] = [] := rfl

@[simp]
theorem joinLines_cons (l : List Char) (ls : List (List Char)) :
    joinLines (l :: ls) = l ++ '\r' :: '\n' :: joinLines ls := by
  simp [joinLines]

theorem splitLines_line {l : List Char} (h : IsLine l) (rest : List Char) :
    splitLines (l ++ '\r' :: '\n' :: rest) = (l ++ ['\r', '\n']) :: splitLines rest := by
  induction l with
  | nil => rfl
  | cons c l ih =>
    have hl : IsLine l := h.mono (List.subset_cons_self c l)
    rw [List.cons_append, splitLines, ih hl]
    · rfl
    · rintro cs rfl
      exact absurd rfl h.ne_return

theorem splitLines_joinLines_append {ls : List (List Char)} (h : ∀ l ∈ ls, IsLine l)
    (rest : List Char) :
    splitLines (joinLines ls ++ rest) = ls.map (· ++ ['\r', '\n']) ++ splitLines rest := by
  induction ls with
  | nil => rfl
  | cons l ls ih =>
    obtain ⟨hl, hls⟩ := List.forall_mem_cons.1 h
    rw [joinLines_cons, List.append_assoc, List.cons_append, List.cons_append,
      splitLines_line hl, ih hls]
    rfl

theorem splitLines_joinLines {ls : List (List Char)} (h : ∀ l ∈ ls, IsLine l) :
    splitLines (joinLines ls) = ls.map (· ++ ['\r', '\n']) := by
  simpa [splitLines] using splitLines_joinLines_append h []

theorem normalized_joinLines {ls : List (List Char)} (h : ∀ l ∈ ls, IsLine l) :
    Normalized (joinLines ls) := by
  induction ls with
  | nil => exact normalized_nil
  | cons l ls ih =>
    have hcrlf : Normalized ['\r', '\n'] := by simp [normalized_iff, MayFollow]
    rw [joinLines_cons]
    exact (h l (by simp)).normalized.append (hcrlf.append (ih fun l' hl' => h l' (by simp [hl'])))

namespace MultiLine

/-! ### Stuffing -/

theorem isLine_stuff {l : List Char} (h : IsLine l) : IsLine (stuff l) := by
  unfold stuff
  split
  · exact h.cons (by decide)
  · exact h

theorem isLine_unstuff {l : List Char} (h : IsLine l) : IsLine (unstuff l) := by
  unfold unstuff
  split
  next l => exact h.mono (List.subset_cons_self _ _)
  · exact h

theorem stuff_append (l : List Char) : stuff (l ++ ['\r', '\n']) = stuff l ++ ['\r', '\n'] := by
  cases l with
  | nil => rfl
  | cons c l => by_cases hc : c = '.' <;> simp [stuff, hc]

theorem unstuff_line (l rest : List Char) :
    unstuff (l ++ '\r' :: '\n' :: rest) = unstuff l ++ '\r' :: '\n' :: rest := by
  match l with
  | [] => rfl
  | [c] => by_cases hc : c = '.' <;> simp [unstuff, hc]
  | c :: d :: l => by_cases hc : c = '.' <;> by_cases hd : d = '.' <;> simp [unstuff, hc, hd]

theorem unstuff_stuff (l : List Char) : unstuff (stuff l) = l := by
  cases l with
  | nil => rfl
  | cons c l => by_cases hc : c = '.' <;> simp [stuff, unstuff, hc]

theorem endLine_append (l : List Char) : endLine (l ++ ['\r', '\n']) = l ++ ['\r', '\n'] := by
  rw [endLine, if_pos (List.isSuffixOf_iff_suffix.2 (List.suffix_append l _))]

theorem flatMap_endLine_stuff {ls : List (List Char)} (h : ∀ l ∈ ls, IsLine l) :
    (splitLines (joinLines ls)).flatMap (fun line => endLine (stuff line)) =
      joinLines (ls.map stuff) := by
  rw [splitLines_joinLines h, joinLines, List.flatMap_map, List.flatMap_map]
  refine List.flatMap_congr fun l _ => ?_
  rw [stuff_append, endLine_append]

theorem decodeBody_joinLines {ls : List (List Char)} (h : ∀ l ∈ ls, IsLine l) :
    decodeBody (joinLines ls) = String.ofList (joinLines (ls.map unstuff)) := by
  rw [decodeBody, splitLines_joinLines h, joinLines, List.flatMap_map, List.flatMap_map]
  congr 1
  exact List.flatMap_congr fun l _ => unstuff_line l []

end MultiLine

namespace Lexeme

/-! ### The closing dot -/

theorem closingDot_cons {b : Bool} {c : Char} {cs : List Char} (hc : isLineBreak c = false)
    (hdot : b = true → c = '.' → cs ≠ [] ∧ ∀ ds, cs ≠ '\r' :: '\n' :: ds) :
    closingDot b (c :: cs) = (closingDot false cs).map (· + 1) := by
  rw [closingDot, hc]
  · rfl
  · rintro ds rfl -
    exact absurd hc (by decide)
  · rintro rfl rfl rfl
    exact absurd rfl (hdot rfl rfl).1
  · rintro ds rfl rfl rfl
    exact absurd rfl ((hdot rfl rfl).2 ds)

/-- Inside a line, the scan for the closing dot goes on at the next line. -/
theorem closingDot_false_line {l : List Char} (h : IsLine l) (rest : List Char) :
    closingDot false (l ++ '\r' :: '\n' :: rest) = (closingDot true rest).map (· + (l.length + 2)) := by
  induction l with
  | nil => simp [closingDot]
  | cons c l ih =>
    rw [List.cons_append, closingDot_cons (h c (by simp)) (by simp),
      ih (h.mono (List.subset_cons_self c l)), Option.map_map]
    rfl

theorem closingDot_true_line {l : List Char} (h : IsLine l) (hdot : l ≠ ['.']) (rest : List Char) :
    closingDot true (l ++ '\r' :: '\n' :: rest) = (closingDot true rest).map (· + (l.length + 2)) := by
  cases l with
  | nil => simp [closingDot]
  | cons c l =>
    have hl : IsLine l := h.mono (List.subset_cons_self c l)
    rw [List.cons_append, closingDot_cons (h c (by simp)), closingDot_false_line hl, Option.map_map]
    · rfl
    · rintro - rfl
      refine ⟨by simp, fun ds hds => ?_⟩
      cases l with
      | nil => exact hdot rfl
      | cons d l => exact hl.ne_return (List.cons.inj hds).1

/-- Lines of which none is a single dot do not end a text. -/
theorem closingDot_lines {ls : List (List Char)} (h : ∀ l ∈ ls, IsLine l) (hdot : ['.'] ∉ ls)
    (rest : List Char) :
    closingDot true (joinLines ls ++ rest) =
      (closingDot true rest).map (· + (joinLines ls).length) := by
  induction ls with
  | nil => simp
  | cons l ls ih =>
    obtain ⟨hl, hls⟩ := List.forall_mem_cons.1 h
    obtain ⟨hne, hdots⟩ := not_or.1 (mt List.mem_cons.2 hdot)
    rw [joinLines_cons, List.append_assoc, List.cons_append, List.cons_append,
      closingDot_true_line hl (Ne.symm hne), ih hls hdots, Option.map_map]
    congr 1
    funext n
    simp only [Function.comp_apply, List.length_append, List.length_cons]
    omega

theorem closingDot_joinLines {ls : List (List Char)} (h : ∀ l ∈ ls, IsLine l) (hdot : ['.'] ∉ ls)
    (rest : List Char) :
    closingDot true (joinLines ls ++ '.' :: '\r' :: '\n' :: rest) =
      some ((joinLines ls).length + 3) := by
  rw [closingDot_lines h hdot, closingDot, Option.map_some, Nat.add_comm]

/-- What stands before the closing dot are lines, and a dot without a CRLF ends the text. -/
theorem closingDot_eq_some {b : Bool} {cs : List Char} {n : Nat} (h : closingDot b cs = some n) :
    ∃ ls dot, cs.take n = joinLines ls ++ dot ∧ (dot = ['.'] ∨ dot = ['.', '\r', '\n']) ∧
      (∀ l ∈ ls, IsLine l) ∧ (b = false → ls ≠ []) ∧ (dot = ['.'] → cs.drop n = []) := by
  fun_induction closingDot b cs generalizing n with
  | case1 => contradiction
  | case2 => cases h; exact ⟨[], ['.'], by simp⟩
  | case3 cs => cases h; exact ⟨[], ['.', '\r', '\n'], by simp⟩
  | case4 b cs ih =>
    obtain ⟨m, hm, rfl⟩ := Option.map_eq_some_iff.1 h
    obtain ⟨ls, dot, hcs, hdot, hls, -, hend⟩ := ih hm
    refine ⟨[] :: ls, dot, by simp [hcs], hdot, ?_, by simp, hend⟩
    exact List.forall_mem_cons.2 ⟨by simp [IsLine], hls⟩
  | case5 => contradiction
  | case6 b c cs _ hc _ _ ih =>
    obtain ⟨m, hm, rfl⟩ := Option.map_eq_some_iff.1 h
    obtain ⟨ls, dot, hcs, hdot, hls, hne, hend⟩ := ih hm
    obtain ⟨l, ls, rfl⟩ := List.exists_cons_of_ne_nil (hne rfl)
    rw [List.forall_mem_cons] at hls
    refine ⟨(c :: l) :: ls, dot, by simp [hcs], hdot, ?_, by simp, hend⟩
    exact List.forall_mem_cons.2 ⟨hls.1.cons (by simpa using hc), hls.2⟩

/-! ### The opening line -/

theorem afterCrlf?_eq_some {cs ds : List Char} (h : afterCrlf? cs = some ds) :
    cs = '\r' :: '\n' :: ds := by
  unfold afterCrlf? at h
  split at h
  · cases h; rfl
  · contradiction

section
variable {t e x t' : Char} {ind : List Char}

theorem openingLine?_note (hl : [t, e, x, t'].map Char.toLower = ['t', 'e', 'x', 't'])
    (hind : ∀ c ∈ ind, isIndent c = true) {com : List Char} (hcom : IsLine com) (body : List Char) :
    openingLine? (t :: e :: x :: t' :: ':' :: (ind ++ '#' :: com ++ '\r' :: '\n' :: body)) =
      some (some com, body) := by
  have hdrop : (ind ++ '#' :: com ++ '\r' :: '\n' :: body).dropWhile isIndent =
      '#' :: (com ++ '\r' :: '\n' :: body) := by
    rw [List.append_assoc, List.dropWhile_append_of_pos hind]
    rfl
  have hpos : ∀ c ∈ com, (!isLineBreak c) = true := fun c hc => by rw [hcom c hc]; rfl
  rw [openingLine?, if_pos hl, hdrop]
  simp only
  rw [List.dropWhile_append_of_pos hpos, List.takeWhile_append_of_pos hpos]
  simp [isLineBreak, afterCrlf?]

theorem openingLine?_bare (hl : [t, e, x, t'].map Char.toLower = ['t', 'e', 'x', 't'])
    (hind : ∀ c ∈ ind, isIndent c = true) (body : List Char) :
    openingLine? (t :: e :: x :: t' :: ':' :: (ind ++ '\r' :: '\n' :: body)) = some (none, body) := by
  have hdrop : (ind ++ '\r' :: '\n' :: body).dropWhile isIndent = '\r' :: '\n' :: body := by
    rw [List.dropWhile_append_of_pos hind]
    rfl
  rw [openingLine?, if_pos hl, hdrop]
  rfl

end

/-- The opening line does not depend on what follows it. -/
theorem openingLine?_append {cs body : List Char} {note : Option (List Char)}
    (h : openingLine? cs = some (note, body)) :
    ∃ line, cs = line ++ body ∧ (∀ body', openingLine? (line ++ body') = some (note, body')) ∧
      ∀ c ∈ note, IsLine c := by
  obtain ⟨t, e, x, t', ds, rfl, hl⟩ := openingLine?_eq_some h
  rw [openingLine?, if_pos hl] at h
  have hind : ∀ c ∈ ds.takeWhile isIndent, isIndent c = true := fun c hc => List.mem_takeWhile_imp hc
  have hds := List.takeWhile_append_dropWhile (p := isIndent) (l := ds)
  generalize ds.takeWhile isIndent = ind at hind hds
  split at h
  next es hes =>
    obtain ⟨body₁, hbody, heq⟩ := Option.map_eq_some_iff.1 h
    cases heq
    have hline := isLine_takeWhile es
    have hes' := List.takeWhile_append_dropWhile (p := (!isLineBreak ·)) (l := es)
    rw [afterCrlf?_eq_some hbody] at hes'
    generalize es.takeWhile (!isLineBreak ·) = com at hline hes'
    refine ⟨[t, e, x, t', ':'] ++ ind ++ '#' :: com ++ ['\r', '\n'], ?_, fun body' => ?_, ?_⟩
    · rw [← hds, hes, ← hes']
      simp
    · simpa using openingLine?_note hl hind hline body'
    · simpa using hline
  next hes =>
    obtain ⟨body₁, hbody, heq⟩ := Option.map_eq_some_iff.1 h
    cases heq
    rw [afterCrlf?_eq_some hbody] at hds
    refine ⟨[t, e, x, t', ':'] ++ ind ++ ['\r', '\n'], ?_, fun body' => ?_, by simp⟩
    · rw [← hds]
      simp
    · simpa using openingLine?_bare hl hind body'

/-- A multi-line text as a token: an opening line, lines and a dot. -/
theorem multiLine_eq_some {cs : List Char} {n : Nat} (h : multiLine cs = some n) :
    ∃ note ls dot, openingLine? (cs.take n) = some (note, joinLines ls ++ dot) ∧
      (dot = ['.'] ∨ dot = ['.', '\r', '\n']) ∧ (∀ l ∈ ls, IsLine l) ∧ ∀ c ∈ note, IsLine c := by
  unfold multiLine at h
  split at h
  · contradiction
  next note body ho =>
    obtain ⟨m, hm, rfl⟩ := Option.map_eq_some_iff.1 h
    obtain ⟨line, rfl, hline, hnote⟩ := openingLine?_append ho
    obtain ⟨ls, dot, hbody, hdot, hls, -⟩ := closingDot_eq_some hm
    refine ⟨note, ls, dot, ?_, hdot, hls, hnote⟩
    have htake : (line ++ body).take ((line ++ body).length - body.length + m) =
        line ++ (joinLines ls ++ dot) := by
      rw [List.length_append, Nat.add_sub_cancel, List.take_length_add_append, hbody]
    rw [htake, hline]

end Lexeme

namespace MultiLine

/-- Some token stands for the text: its value is made of whole lines, and its comment is trimmed and
stands on one line. -/
structure Lexical (m : MultiLine) : Prop where
  value : ∃ ls, m.value.toList = joinLines ls ∧ ∀ l ∈ ls, IsLine l
  comment : ∀ c ∈ m.comment, c.toList ≠ [] ∧ trim c.toList = c.toList ∧ IsLine c.toList

theorem dropDot_append {cs dot : List Char} (h : dot = ['.'] ∨ dot = ['.', '\r', '\n']) :
    dropDot (cs ++ dot) = cs := by
  rcases h with rfl | rfl
  · have hlast : ¬ ['.', '\r', '\n'].isSuffixOf (cs ++ ['.']) = true := by
      rw [List.isSuffixOf_iff_suffix]
      rintro ⟨ds, hds⟩
      simpa using congrArg List.getLast? hds
    rw [dropDot, if_neg hlast, if_pos (List.isSuffixOf_iff_suffix.2 (List.suffix_append cs _))]
    simp
  · rw [dropDot, if_pos (List.isSuffixOf_iff_suffix.2 (List.suffix_append cs _))]
    simp

theorem comment?_eq_some {cs : List Char} (h : IsLine cs) {c : String} (hc : comment? cs = some c) :
    c.toList ≠ [] ∧ trim c.toList = c.toList ∧ IsLine c.toList := by
  have htrim := trim_trim cs
  have hline := h.mono (trim_subset cs)
  unfold comment? at hc
  split at hc
  · contradiction
  next d ds hd =>
    cases hc
    rw [hd] at htrim hline
    simp only [String.toList_ofList]
    exact ⟨by simp, htrim, hline⟩

/-- A token of a multi-line text stands for a lexical one. -/
theorem lexical_decode {cs : List Char} {n : Nat} (h : Lexeme.multiLine cs = some n) :
    (decode (cs.take n)).Lexical := by
  obtain ⟨note, ls, dot, ho, hdot, hls, hnote⟩ := Lexeme.multiLine_eq_some h
  have hdecode : decode (cs.take n) =
      { value := String.ofList (joinLines (ls.map unstuff)), comment := note.bind comment? } := by
    rw [decode, ho]
    simp only
    rw [dropDot_append hdot, decodeBody_joinLines hls]
  rw [hdecode]
  refine ⟨⟨ls.map unstuff, String.toList_ofList, ?_⟩, fun c hc => ?_⟩
  · intro l hl
    obtain ⟨l', hl', rfl⟩ := List.mem_map.1 hl
    exact isLine_unstuff (hls l' hl')
  · obtain ⟨com, hcom, hc⟩ := Option.bind_eq_some_iff.1 hc
    exact comment?_eq_some (hnote com hcom) hc

/-! ### Tokens -/

/-- The token with the given lines in it. -/
def token (comment : Option String) (ls : List (List Char)) : List Char :=
  ['t', 'e', 'x', 't', ':'] ++ encodeComment comment ++
    '\r' :: '\n' :: (joinLines ls ++ ['.', '\r', '\n'])

section
variable {comment : Option String} {ls : List (List Char)}

/-- The opening line that is written is read back. -/
theorem openingLine?_token
    (hc : ∀ c ∈ comment, c.toList ≠ [] ∧ trim c.toList = c.toList ∧ IsLine c.toList)
    (ls : List (List Char)) (rest : List Char) :
    ∃ note, note.bind comment? = comment ∧ Lexeme.openingLine? (token comment ls ++ rest) =
      some (note, joinLines ls ++ '.' :: '\r' :: '\n' :: rest) := by
  cases comment with
  | none =>
    refine ⟨none, rfl, ?_⟩
    have hind : ∀ c ∈ ([] : List Char), Lexeme.isIndent c = true := by simp
    simpa [token, encodeComment] using Lexeme.openingLine?_bare (by decide) hind
      (joinLines ls ++ '.' :: '\r' :: '\n' :: rest)
  | some c =>
    obtain ⟨hne, htrim, hline⟩ := hc c rfl
    refine ⟨some (' ' :: c.toList), ?_, ?_⟩
    · obtain ⟨d, ds, hd⟩ := List.exists_cons_of_ne_nil hne
      rw [Option.bind_some, comment?, trim_cons_of_isBlank (by decide), htrim, hd]
      simp only
      rw [← hd, String.ofList_toList]
    · have hind : ∀ c ∈ [' '], Lexeme.isIndent c = true := by simp [Lexeme.isIndent]
      simpa [token, encodeComment] using Lexeme.openingLine?_note (by decide) hind
        (hline.cons (c := ' ') (by decide)) (joinLines ls ++ '.' :: '\r' :: '\n' :: rest)

theorem decode_token
    (hc : ∀ c ∈ comment, c.toList ≠ [] ∧ trim c.toList = c.toList ∧ IsLine c.toList)
    (hls : ∀ l ∈ ls, IsLine l) :
    decode (token comment ls) = { value := String.ofList (joinLines (ls.map unstuff)), comment } := by
  obtain ⟨note, hnote, ho⟩ := openingLine?_token hc ls []
  rw [List.append_nil] at ho
  rw [decode, ho]
  simp only
  rw [dropDot_append (.inr rfl), decodeBody_joinLines hls, hnote]

theorem multiLine_token
    (hc : ∀ c ∈ comment, c.toList ≠ [] ∧ trim c.toList = c.toList ∧ IsLine c.toList)
    (hls : ∀ l ∈ ls, IsLine l) (hdot : ['.'] ∉ ls) (rest : List Char) :
    Lexeme.multiLine (token comment ls ++ rest) = some (token comment ls).length := by
  obtain ⟨note, -, ho⟩ := openingLine?_token hc ls rest
  rw [Lexeme.multiLine, ho]
  simp only
  rw [Lexeme.closingDot_joinLines hls hdot]
  simp [token]
  omega

theorem normalized_encodeComment {comment : Option String} (h : ∀ c ∈ comment, IsLine c.toList) :
    Normalized (encodeComment comment) := by
  cases hc : comment with
  | none => exact normalized_nil
  | some c =>
    have hline := h c hc
    exact (((hline.cons (c := ' ') (by decide)).cons (c := '#') (by decide)).cons (c := ' ')
      (by decide)).normalized

theorem normalized_token (hc : ∀ c ∈ comment, IsLine c.toList) (hls : ∀ l ∈ ls, IsLine l) :
    Normalized (token comment ls) := by
  have hcrlf : Normalized ['\r', '\n'] := by simp [normalized_iff, MayFollow]
  have hdot : Normalized ['.', '\r', '\n'] := by simp [normalized_iff, MayFollow]
  have hword : IsLine ['t', 'e', 'x', 't', ':'] := by decide
  exact (hword.normalized.append (normalized_encodeComment hc)).append
    (hcrlf.append ((normalized_joinLines hls).append hdot))

end

/-! ### Texts -/

theorem isLine_of_mem_map_stuff {ls : List (List Char)} (h : ∀ l ∈ ls, IsLine l) :
    ∀ l ∈ ls.map stuff, IsLine l :=
  List.forall_mem_map.2 fun l hl => isLine_stuff (h l hl)

theorem dot_notMem_map_stuff (ls : List (List Char)) : ['.'] ∉ ls.map stuff := by
  rw [List.mem_map]
  rintro ⟨l, -, hl⟩
  unfold stuff at hl
  split at hl
  · simp at hl
  next hno => exact hno [] hl

/-- Stuffed lines are read back as they were. -/
theorem decode_token_map_stuff {comment : Option String} {ls : List (List Char)}
    (hc : ∀ c ∈ comment, c.toList ≠ [] ∧ trim c.toList = c.toList ∧ IsLine c.toList)
    (hls : ∀ l ∈ ls, IsLine l) :
    decode (token comment (ls.map stuff)) = { value := String.ofList (joinLines ls), comment } := by
  have hid : (ls.map stuff).map unstuff = ls := by
    rw [List.map_map]
    exact List.map_id'' unstuff_stuff ls
  rw [decode_token hc (isLine_of_mem_map_stuff hls), hid]

theorem encode_eq {m : MultiLine} {ls : List (List Char)} (hv : m.value.toList = joinLines ls)
    (hls : ∀ l ∈ ls, IsLine l) : m.encode = token m.comment (ls.map stuff) := by
  rw [encode, hv, flatMap_endLine_stuff hls]
  simp [token]

/-- A lexical text is read back as it is written. -/
theorem decode_encode {m : MultiLine} (h : m.Lexical) : decode m.encode = m := by
  obtain ⟨ls, hv, hls⟩ := h.value
  rw [encode_eq hv hls, decode_token_map_stuff h.comment hls, ← hv, String.ofList_toList]

theorem multiLine_encode {m : MultiLine} (h : m.Lexical) (rest : List Char) :
    Lexeme.multiLine (m.encode ++ rest) = some m.encode.length := by
  obtain ⟨ls, hv, hls⟩ := h.value
  rw [encode_eq hv hls]
  exact multiLine_token h.comment (isLine_of_mem_map_stuff hls) (dot_notMem_map_stuff ls) rest

theorem normalized_encode {m : MultiLine} (h : m.Lexical) : Normalized m.encode := by
  obtain ⟨ls, hv, hls⟩ := h.value
  rw [encode_eq hv hls]
  exact normalized_token (fun c hc => (h.comment c hc).2.2) (isLine_of_mem_map_stuff hls)

theorem normalized_value {m : MultiLine} (h : m.Lexical) : Normalized m.value.toList := by
  obtain ⟨ls, hv, hls⟩ := h.value
  rw [hv]
  exact normalized_joinLines hls

end MultiLine

end SieveScript
