import SieveScript.Proofs.Quoting
import SieveScript.Proofs.LineEndings

/-!
# Strings are read back as they are written

What is written of a string or of a list of strings is in the grammar (`Quoted.isQuoted_encode`,
`StringList.written_encode`), so its token ends where its writing ends, whatever follows. It decodes
to the value that was written. Decoding a list looks for quoted strings and not for elements, and
finds the elements nevertheless (`StringList.decode_of_written`).
-/

namespace SieveScript

namespace Quoted

theorem inside_escape (cs : List Char) : Inside (escape cs) := by
  induction cs with
  | nil => exact .nil
  | cons c cs ih =>
    rw [escape]
    split
    · exact .escaped c ih
    next hc =>
      rw [not_or] at hc
      exact .plain hc.2 hc.1 ih

theorem isQuoted_encode (v : String) : IsQuoted (encode v) :=
  .mk (inside_escape v.toList)

end Quoted

namespace StringList

theorem elements_map_encode (v : String) (vs : List String) :
    Elements ((v :: vs).map Quoted.encode) (elements (v :: vs)) := by
  induction vs generalizing v with
  | nil => exact .single (Quoted.isQuoted_encode v)
  | cons w vs ih => exact .cons (Quoted.isQuoted_encode v) isBlanks_nil isBlanks_nil (ih w)

theorem written_encode (vs : List String) : Written (vs.map Quoted.encode) (encode vs) := by
  cases vs with
  | nil => exact .empty isBlanks_nil
  | cons v vs => exact .list isBlanks_nil (elements_map_encode v vs) isBlanks_nil

end StringList

namespace Lexeme

theorem quoted_encode (v : String) (rest : List Char) :
    quoted (Quoted.encode v ++ rest) = some (Quoted.encode v).length :=
  quoted_append (Quoted.isQuoted_encode v) rest

theorem stringList_encode (vs : List String) (rest : List Char) :
    stringList (StringList.encode vs ++ rest) = some (StringList.encode vs).length :=
  stringList_append (StringList.written_encode vs) rest

end Lexeme

namespace StringList

theorem decode_of_quoted {cs : List Char} {n : Nat} (h : Lexeme.quoted cs = some n) :
    decode cs = Quoted.decode (cs.take n) :: decode (cs.drop n) := by
  rw [decode.eq_def]
  split
  · contradiction
  · split
    · simp_all
    · simp_all

theorem decode_cons_of_ne {c : Char} {cs : List Char} (h : c ≠ '"') : decode (c :: cs) = decode cs := by
  have hq : Lexeme.quoted (c :: cs) = none := Kind.measure_eq_none (k := .quoted) (by simp [Kind.starts, h])
  rw [decode]
  split
  · simp_all
  · rfl

theorem decode_quoted_append {q : List Char} (h : Quoted.IsQuoted q) (rest : List Char) :
    decode (q ++ rest) = Quoted.decode q :: decode rest := by
  rw [decode_of_quoted (Lexeme.quoted_append h rest), List.take_left, List.drop_left]

theorem decode_blanks {ws : List Char} (h : IsBlanks ws) (rest : List Char) :
    decode (ws ++ rest) = decode rest := by
  induction ws with
  | nil => rfl
  | cons c ws ih =>
    obtain ⟨hc, hws⟩ := List.forall_mem_cons.1 h
    rw [List.cons_append, decode_cons_of_ne (Lexeme.ne_of_isBlank hc (by decide)), ih hws]

theorem decode_elements {qs : List (List Char)} {es : List Char} (h : Elements qs es)
    (rest : List Char) : decode (es ++ rest) = qs.map Quoted.decode ++ decode rest := by
  induction h with
  | single hq => exact decode_quoted_append hq rest
  | cons hq hws hws' _ ih =>
    simp only [List.append_assoc, List.cons_append]
    rw [decode_quoted_append hq, decode_blanks hws, decode_cons_of_ne (by decide),
      decode_blanks hws', ih]
    rfl

/-- A list decodes to what its elements decode to, one by one. -/
theorem decode_of_written {qs : List (List Char)} {l : List Char} (h : Written qs l) :
    decode l = qs.map Quoted.decode := by
  have hclose : decode [']'] = [] := by simp [decode_cons_of_ne, decode]
  cases h with
  | empty hws => rw [decode_cons_of_ne (by decide), decode_blanks hws, hclose]; rfl
  | list hws hes hws' =>
    rw [decode_cons_of_ne (by decide), decode_blanks hws, decode_elements hes, decode_blanks hws',
      hclose, List.append_nil]

theorem decode_encode (vs : List String) : decode (encode vs) = vs := by
  rw [decode_of_written (written_encode vs), List.map_map]
  exact List.map_id'' Quoted.decode_encode vs

theorem normalized_elements {vs : List String} (h : ∀ v ∈ vs, Normalized v.toList) :
    Normalized (elements vs) := by
  fun_induction elements vs with
  | case1 => exact normalized_nil
  | case2 v => exact Quoted.normalized_encode (h v (by simp))
  | case3 v w vs ih =>
    have hcomma : Normalized [','] := by simp [normalized_iff]
    exact (Quoted.normalized_encode (h v (by simp))).append
      (hcomma.append (ih fun u hu => h u (List.mem_cons_of_mem v hu)))

/-- What is written of normalized strings is normalized. -/
theorem normalized_encode {vs : List String} (h : ∀ v ∈ vs, Normalized v.toList) :
    Normalized (encode vs) := by
  have hopen : Normalized ['['] := by simp [normalized_iff]
  have hclose : Normalized [']'] := by simp [normalized_iff]
  exact hopen.append ((normalized_elements h).append hclose)

/-- The values of a token of a normalized text are normalized. -/
theorem normalized_decode {cs : List Char} (h : cs.IsChain MayFollow) :
    ∀ v ∈ decode cs, Normalized v.toList := by
  fun_induction decode cs with
  | case1 => simp
  | case2 c rest n hq ih =>
    intro v hv
    rcases List.mem_cons.1 hv with rfl | hv
    · refine Quoted.normalized_decode (normalized_iff.2 ⟨?_, h.take n⟩)
      have hc : c = '"' := beq_iff_eq.1 (Kind.starts_of_measure (k := .quoted) hq)
      obtain ⟨m, rfl⟩ := Nat.exists_eq_add_of_lt (Lexeme.quoted_pos hq)
      simp [hc]
    · exact ih (h.drop n) v hv
  | case3 c rest _ ih => exact ih (List.isChain_of_isChain_cons h)

end StringList

end SieveScript
