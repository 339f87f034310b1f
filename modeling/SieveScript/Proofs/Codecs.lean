import SieveScript.Proofs.Strings
import SieveScript.Proofs.MultiLines
import SieveScript.Proofs.Tiling

/-!
# A value is found again in any text

What is written of a string, of a list of strings or of a multi-line text is one token wherever it
stands in front of a text, and the token decodes to what was written. No value of a string is
excepted (`Token.at?_strings`): whatever quotes, backslashes, brackets or line breaks it holds, it ends
where its writing ends. A multi-line text may hold any lines (`Token.at?_multiLine`). A line break
is a part of the value only as CRLF, and a value whose last line lacks it gets one.
-/

namespace SieveScript

namespace Token

/-- A text that is one token in front of another text is found at its start. -/
theorem at?_of_scan_append {k : Kind} {cs : List Char} {rest : String}
    (h : scan (cs ++ rest.toList) = some (k, cs.length)) :
    at? (String.ofList cs ++ rest) 0 = some (k, String.ofList cs, byteLength cs) := by
  have htext : (String.ofList cs ++ rest).toList = [] ++ (cs ++ rest.toList) := by simp
  have hat := at?_of_append htext
  rw [h] at hat
  simpa using hat

/-- Strings and lists of strings are found and decoded as they were written. A token that is a list
in some other writing has elements, and decodes to what these decode to, in their order. -/
theorem at?_strings :
    (∀ v rest : String,
      at? (String.ofList (Quoted.encode v) ++ rest) 0 =
        some (.quoted, String.ofList (Quoted.encode v), byteLength (Quoted.encode v)) ∧
      Quoted.decode (Quoted.encode v) = v) ∧
    (∀ (vs : List String) (rest : String),
      at? (String.ofList (StringList.encode vs) ++ rest) 0 =
        some (.stringList, String.ofList (StringList.encode vs), byteLength (StringList.encode vs)) ∧
      StringList.decode (StringList.encode vs) = vs) ∧
    ∀ (text lexeme : String) (pos next : Nat), at? text pos = some (.stringList, lexeme, next) →
      (∃ qs, StringList.Written qs lexeme.toList) ∧
      ∀ qs, StringList.Written qs lexeme.toList →
        StringList.decode lexeme.toList = qs.map Quoted.decode := by
  refine ⟨fun v rest => ⟨?_, Quoted.decode_encode v⟩, fun vs rest => ⟨?_, StringList.decode_encode vs⟩,
    fun text lexeme pos next h => ⟨?_, fun qs hqs => StringList.decode_of_written hqs⟩⟩
  · exact at?_of_scan_append (scan_quoted (Lexeme.quoted_encode v rest.toList))
  · exact at?_of_scan_append (scan_stringList (Lexeme.stringList_encode vs rest.toList))
  · obtain ⟨pre, rest, htext, rfl, -⟩ := exists_of_at? h
    rw [at?_of_append htext] at h
    obtain ⟨⟨k, n⟩, hscan, heq⟩ := Option.map_eq_some_iff.1 h
    cases heq
    rw [String.toList_ofList]
    exact Lexeme.exists_written_of_stringList (measure_of_scan hscan)

/-- An instance at a list with blanks in it, of which the first element holds an escaped quote and a
bracket. -/
theorem at?_strings_bracket :
    let text := "x[ \"a\\\"]\" ,\"b\"];"
    let lexeme := "[ \"a\\\"]\" ,\"b\"]"
    at? text 1 = some (.stringList, lexeme, 15) ∧ (∃ qs, StringList.Written qs lexeme.toList) ∧
      ∀ qs, StringList.Written qs lexeme.toList →
        StringList.decode lexeme.toList = qs.map Quoted.decode := by
  intro text lexeme
  have h : at? text 1 = some (.stringList, lexeme, 15) := by decide +kernel
  exact ⟨h, at?_strings.2.2 text lexeme 1 15 h⟩

end Token

/-! ### Multi-line texts -/

/-- Carriage returns and line feeds stand in the text only as CRLF. -/
inductive Paired : List Char → Prop
  | nil : Paired []
  | crlf {cs : List Char} (h : Paired cs) : Paired ('\r' :: '\n' :: cs)
  | plain {c : Char} {cs : List Char} (hc : isLineBreak c = false) (h : Paired cs) : Paired (c :: cs)

/-- The lines of the text, of which the last lacks its CRLF. -/
theorem Paired.exists_lines {cs : List Char} (h : Paired cs) :
    ∃ ls l, cs = joinLines ls ++ l ∧ (∀ k ∈ ls, IsLine k) ∧ IsLine l := by
  induction h with
  | nil => exact ⟨[], [], rfl, by simp, by simp [IsLine]⟩
  | @crlf cs _ ih =>
    obtain ⟨ls, l, rfl, hls, hl⟩ := ih
    exact ⟨[] :: ls, l, rfl, List.forall_mem_cons.2 ⟨by simp [IsLine], hls⟩, hl⟩
  | @plain c cs hc _ ih =>
    obtain ⟨ls, l, rfl, hls, hl⟩ := ih
    cases ls with
    | nil => exact ⟨[], c :: l, rfl, by simp, hl.cons hc⟩
    | cons k ls =>
      obtain ⟨hk, hls⟩ := List.forall_mem_cons.1 hls
      exact ⟨(c :: k) :: ls, l, rfl, List.forall_mem_cons.2 ⟨hk.cons hc, hls⟩, hl⟩

theorem splitLines_of_isLine {l : List Char} (h : IsLine l) (hne : l ≠ []) : splitLines l = [l] := by
  induction l with
  | nil => contradiction
  | cons c l ih =>
    have hl : IsLine l := h.mono (List.subset_cons_self c l)
    rw [splitLines]
    · by_cases hnil : l = []
      · rw [hnil]
        rfl
      · rw [ih hl hnil]
        rfl
    · rintro cs rfl
      exact absurd rfl h.ne_return

namespace MultiLine

/-- Ends the last line of a value in CRLF, if there is one. -/
def endText (v : String) : String :=
  if v = "" ∨ ['\r', '\n'] <:+ v.toList then v else v ++ "\r\n"

theorem crlf_suffix_joinLines {ls : List (List Char)} (h : ls ≠ []) : ['\r', '\n'] <:+ joinLines ls := by
  obtain ⟨k, l, rfl⟩ := (List.eq_nil_or_concat ls).resolve_left h
  exact ⟨joinLines k ++ l, by simp [joinLines]⟩

theorem endText_of_joinLines {v : String} {ls : List (List Char)} (h : v.toList = joinLines ls) :
    endText v = v := by
  refine if_pos ?_
  by_cases hls : ls = []
  · refine .inl (String.toList_inj.1 ?_)
    rw [h, hls]
    rfl
  · exact .inr (h ▸ crlf_suffix_joinLines hls)

theorem endText_of_line {v : String} {ls : List (List Char)} {l : List Char}
    (h : v.toList = joinLines ls ++ l) (hl : IsLine l) (hne : l ≠ []) : endText v = v ++ "\r\n" := by
  refine if_neg (not_or.2 ⟨?_, ?_⟩)
  · rintro rfl
    exact hne (List.append_eq_nil_iff.1 h.symm).2
  · rw [h]
    rintro ⟨k, hk⟩
    obtain ⟨l, c, rfl⟩ := (List.eq_nil_or_concat l).resolve_left hne
    have hlast := congrArg List.getLast? hk
    have hc := hl c (by simp)
    simp [← List.append_assoc] at hlast
    simp [← hlast, isLineBreak] at hc

theorem endLine_of_isLine {l : List Char} (h : IsLine l) : endLine l = l ++ ['\r', '\n'] := by
  refine if_neg fun hs => ?_
  obtain ⟨k, rfl⟩ := List.isSuffixOf_iff_suffix.1 hs
  have hr := h '\r' (by simp)
  simp [isLineBreak] at hr

/-- What is written of a value are the lines of its completed text. -/
theorem exists_encode_eq {m : MultiLine} (h : Paired m.value.toList) :
    ∃ ls, (∀ l ∈ ls, IsLine l) ∧ m.encode = token m.comment (ls.map stuff) ∧
      String.ofList (joinLines ls) = endText m.value := by
  obtain ⟨ls, l, hv, hls, hl⟩ := h.exists_lines
  by_cases hne : l = []
  · rw [hne, List.append_nil] at hv
    refine ⟨ls, hls, encode_eq hv hls, ?_⟩
    rw [endText_of_joinLines hv, ← hv, String.ofList_toList]
  · refine ⟨ls ++ [l], List.forall_mem_append.2 ⟨hls, by simpa using hl⟩, ?_, ?_⟩
    · rw [encode, hv, splitLines_joinLines_append hls, splitLines_of_isLine hl hne,
        ← splitLines_joinLines hls, List.flatMap_append, flatMap_endLine_stuff hls,
        List.flatMap_singleton, endLine_of_isLine (isLine_stuff hl)]
      simp [token, joinLines]
    · rw [endText_of_line hv hl hne]
      apply String.toList_inj.1
      rw [String.toList_append, hv]
      simp [joinLines]

end MultiLine

namespace Token

variable {v : String} {comment : Option String}

/-- A text whose line breaks are CRLF, with a comment that is trimmed and stands on one line, is found
and decoded as it was written. Its last line comes back with a CRLF. -/
theorem at?_multiLine (hv : Paired v.toList)
    (hc : ∀ c ∈ comment, c.toList ≠ [] ∧ trim c.toList = c.toList ∧ IsLine c.toList) (rest : String) :
    at? (String.ofList (MultiLine.encode { value := v, comment }) ++ rest) 0 =
      some (.multiLine, String.ofList (MultiLine.encode { value := v, comment }),
        byteLength (MultiLine.encode { value := v, comment })) ∧
    MultiLine.decode (MultiLine.encode { value := v, comment }) =
      { value := MultiLine.endText v, comment } := by
  obtain ⟨ls, hls, hencode, htext⟩ := MultiLine.exists_encode_eq (m := { value := v, comment }) hv
  rw [hencode]
  constructor
  · exact at?_of_scan_append (scan_multiLine (MultiLine.multiLine_token hc
      (MultiLine.isLine_of_mem_map_stuff hls) (MultiLine.dot_notMem_map_stuff ls) rest.toList))
  · rw [MultiLine.decode_token_map_stuff hc hls, htext]

/-- An instance at a text with a line that is a single dot, an empty line and a last line without a
CRLF. -/
theorem at?_multiLine_dots :
    let m : MultiLine := { value := ".\r\n\r\n..x", comment := some "é" }
    Paired m.value.toList ∧
      (∀ c ∈ m.comment, c.toList ≠ [] ∧ trim c.toList = c.toList ∧ IsLine c.toList) ∧
      at? (String.ofList m.encode ++ ";") 0 =
        some (.multiLine, String.ofList m.encode, byteLength m.encode) ∧
      MultiLine.decode m.encode =
        { value := MultiLine.endText ".\r\n\r\n..x", comment := some "é" } := by
  intro m
  have htext : m.value.toList = ['.', '\r', '\n', '\r', '\n', '.', '.', 'x'] := by decide
  have hv : Paired m.value.toList := by
    rw [htext]
    exact .plain (by decide) (.crlf (.crlf (.plain (by decide) (.plain (by decide)
      (.plain (by decide) .nil)))))
  have hc : ∀ c ∈ m.comment, c.toList ≠ [] ∧ trim c.toList = c.toList ∧ IsLine c.toList := by
    rintro c ⟨⟩
    exact ⟨by decide, by decide, by decide⟩
  exact ⟨hv, hc, at?_multiLine hv hc ";"⟩

end Token

end SieveScript
