import Mathlib.Data.List.Chain
import SieveScript.Proofs.Symbols

/-!
# Tokens tile a text

Some kind of token fits wherever a character stands (`exists_scan`), so the lexemes of a text are the
text, and a token stands where the lexemes before it end: `Token.exists_scan_of_split` says so of its
byte and its line, and all about neighbours, first and last token follows. `Token.at?` finds a token
at each boundary between characters but the last, and nowhere else. Boundaries are the library's,
those of the UTF-8 form of a string (`String.Pos.Raw.IsValid`).
-/

namespace SieveScript

/-! ### Bytes -/

theorem utf8ByteSize_ofList (cs : List Char) : (String.ofList cs).utf8ByteSize = byteLength cs := by
  induction cs with
  | nil => rfl
  | cons c cs ih =>
    rw [String.ofList_cons, String.utf8ByteSize_append, String.utf8ByteSize_singleton, ih,
      byteLength_cons]

theorem utf8ByteSize_eq (s : String) : s.utf8ByteSize = byteLength s.toList := by
  rw [← utf8ByteSize_ofList, String.ofList_toList]

theorem byteLength_pos {cs : List Char} (h : cs ≠ []) : 0 < byteLength cs := by
  cases cs with
  | nil => contradiction
  | cons c cs =>
    have := c.utf8Size_pos
    rw [byteLength_cons]
    omega

theorem dropBytes?_append (pre rest : List Char) :
    dropBytes? (byteLength pre) (pre ++ rest) = some rest := by
  induction pre with
  | nil => simp [dropBytes?]
  | cons c pre ih =>
    obtain ⟨n, hn⟩ := Nat.exists_eq_add_one_of_ne_zero (Nat.pos_iff_ne_zero.1 c.utf8Size_pos)
    have hsum : byteLength (c :: pre) = n + byteLength pre + 1 := by rw [byteLength_cons]; omega
    have hle : c.utf8Size ≤ n + byteLength pre + 1 := by omega
    have hsub : n + byteLength pre + 1 - c.utf8Size = byteLength pre := by omega
    rw [hsum, List.cons_append, dropBytes?, if_pos hle, hsub, ih]

theorem append_of_dropBytes? {n : Nat} {cs rest : List Char} (h : dropBytes? n cs = some rest) :
    ∃ pre, cs = pre ++ rest ∧ byteLength pre = n := by
  fun_induction dropBytes? n cs with
  | case1 cs =>
    cases h
    exact ⟨[], rfl, rfl⟩
  | case2 => contradiction
  | case3 n c cs hle ih =>
    obtain ⟨pre, rfl, hpre⟩ := ih h
    refine ⟨c :: pre, rfl, ?_⟩
    rw [byteLength_cons, hpre]
    omega
  | case4 => contradiction

/-! ### Scanning goes on to the end -/

/-- Layout or an unknown run fits, if nothing else does. -/
theorem exists_scan {cs : List Char} (h : cs ≠ []) : ∃ k n, scan cs = some (k, n) := by
  obtain ⟨c, cs, rfl⟩ := List.exists_cons_of_ne_nil h
  have hsome : (scan (c :: cs)).isSome = true := by
    rw [scan, List.findSome?_isSome_iff]
    by_cases hc : isLayout c = true
    · exact ⟨.layout, by decide, by simp [Kind.measure, Lexeme.run, hc]⟩
    · exact ⟨.unknown, by decide, by simp [Kind.measure, Lexeme.run, hc]⟩
  obtain ⟨⟨k, n⟩, hr⟩ := Option.isSome_iff_exists.1 hsome
  exact ⟨k, n, hr⟩

theorem take_ne_nil_of_scan {cs : List Char} {k : Kind} {n : Nat} (h : scan cs = some (k, n)) :
    cs.take n ≠ [] := by
  have hn := Kind.measure_pos (measure_of_scan h)
  rw [Ne, List.take_eq_nil_iff]
  rintro (rfl | rfl)
  · omega
  · contradiction

namespace Token

/-- The text that tokens stand for. -/
def lexemes (ts : List Token) : List Char :=
  ts.flatMap lexeme

theorem lexemes_append (ts us : List Token) : lexemes (ts ++ us) = lexemes ts ++ lexemes us :=
  List.flatMap_append

theorem lexemes_cons (t : Token) (ts : List Token) : lexemes (t :: ts) = t.lexeme ++ lexemes ts :=
  List.flatMap_cons

theorem lexemes_allFrom (o l : Nat) (cs : List Char) : lexemes (allFrom o l cs) = cs := by
  fun_induction allFrom o l cs with
  | case1 o l cs h =>
    have hcs : cs = [] := by
      by_contra hne
      obtain ⟨k, n, hs⟩ := exists_scan hne
      rw [h] at hs
      contradiction
    rw [hcs]
    rfl
  | case2 o l cs k n h lexeme ih => rw [lexemes_cons, ih, List.take_append_drop]

/-- A token is scanned where the lexemes before it end, and knows its byte and its line. -/
theorem exists_scan_of_split {o l : Nat} {cs : List Char} {before after : List Token} {t : Token}
    (h : allFrom o l cs = before ++ t :: after) :
    ∃ rest n, cs = lexemes before ++ rest ∧ scan rest = some (t.kind, n) ∧
      t.lexeme = rest.take n ∧ t.offset = o + byteLength (lexemes before) ∧
      t.line = l + (lexemes before).count '\n' := by
  induction before generalizing o l cs with
  | nil =>
    cases hs : scan cs with
    | none => simp [allFrom_of_scan_eq_none hs] at h
    | some r =>
      rw [allFrom_of_scan hs, List.nil_append, List.cons.injEq] at h
      obtain ⟨rfl, -⟩ := h
      exact ⟨cs, r.2, rfl, hs, rfl, rfl, rfl⟩
  | cons b before ih =>
    cases hs : scan cs with
    | none => simp [allFrom_of_scan_eq_none hs] at h
    | some r =>
      rw [allFrom_of_scan hs, List.cons_append, List.cons.injEq] at h
      obtain ⟨rfl, h⟩ := h
      obtain ⟨rest, n, hrest, hscan, hlexeme, hoffset, hline⟩ := ih h
      refine ⟨rest, n, ?_, hscan, hlexeme, ?_, ?_⟩
      · rw [lexemes_cons, List.append_assoc, ← hrest, List.take_append_drop]
      · rw [hoffset, lexemes_cons, byteLength_append, Nat.add_assoc]
      · rw [hline, lexemes_cons, List.count_append, Nat.add_assoc]

/-- The tokens lie one behind the other from the first byte of a text to its last, and each knows
its line. -/
structure Tiles (ts : List Token) (cs : List Char) : Prop where
  nonempty : ∀ t ∈ ts, t.lexeme ≠ []
  first : ∀ t ∈ ts.head?, t.offset = 0
  adjacent : ts.IsChain fun t u => u.offset = t.stop
  last : ∀ t ∈ ts.getLast?, t.stop = byteLength cs
  lexemes : lexemes ts = cs
  line : ∀ t ∈ ts, ∃ before after, cs = before ++ t.lexeme ++ after ∧
    byteLength before = t.offset ∧ t.line = 1 + before.count '\n'

theorem tiles_all (cs : List Char) : Tiles (all cs) cs := by
  have hcs : lexemes (all cs) = cs := lexemes_allFrom 0 1 cs
  constructor
  case nonempty =>
    intro t ht
    obtain ⟨before, after, h⟩ := List.append_of_mem ht
    obtain ⟨rest, n, -, hscan, hlexeme, -⟩ := exists_scan_of_split h
    rw [hlexeme]
    exact take_ne_nil_of_scan hscan
  case first =>
    intro t ht
    obtain ⟨after, h⟩ := List.head?_eq_some_iff.1 ht
    rw [← List.nil_append (t :: after)] at h
    obtain ⟨-, -, -, -, -, hoffset, -⟩ := exists_scan_of_split h
    exact hoffset
  case adjacent =>
    refine List.isChain_iff_forall_rel_of_append_cons_cons.2 fun t u before after h => ?_
    obtain ⟨-, -, -, -, -, ht, -⟩ := exists_scan_of_split h
    rw [List.append_cons] at h
    obtain ⟨-, -, -, -, -, hu, -⟩ := exists_scan_of_split h
    rw [lexemes_append, byteLength_append] at hu
    rw [hu, stop, ht, Nat.add_assoc]
    simp [lexemes]
  case last =>
    intro t ht
    obtain ⟨before, h⟩ := List.getLast?_eq_some_iff.1 ht
    obtain ⟨-, -, -, -, -, hoffset, -⟩ := exists_scan_of_split h
    rw [h, lexemes_append] at hcs
    rw [stop, hoffset, ← hcs, byteLength_append]
    simp [lexemes]
  case lexemes => exact hcs
  case line =>
    intro t ht
    obtain ⟨before, after, h⟩ := List.append_of_mem ht
    obtain ⟨-, -, -, -, -, hoffset, hline⟩ := exists_scan_of_split h
    refine ⟨lexemes before, lexemes after, ?_, ?_, hline⟩
    · rw [← hcs, h, lexemes_append, lexemes_cons, List.append_assoc]
    · rw [hoffset, Nat.zero_add]

/-! ### The token at a byte -/

theorem at?_of_append {text : String} {pre rest : List Char} (h : text.toList = pre ++ rest) :
    at? text (byteLength pre) = (scan rest).map fun (k, n) =>
      (k, String.ofList (rest.take n), byteLength pre + byteLength (rest.take n)) := by
  rw [at?, h, dropBytes?_append]
  show (scan rest).bind _ = _
  cases scan rest <;> rfl

theorem exists_of_at? {text : String} {pos : Nat} {r : Kind × String × Nat}
    (h : at? text pos = some r) :
    ∃ pre rest, text.toList = pre ++ rest ∧ byteLength pre = pos ∧ rest ≠ [] := by
  obtain ⟨rest, hrest, h⟩ := Option.bind_eq_some_iff.1 h
  obtain ⟨pre, htext, hpos⟩ := append_of_dropBytes? hrest
  refine ⟨pre, rest, htext, hpos, ?_⟩
  rintro rfl
  contradiction

/-- A boundary before the end of a text parts it in two, of which the second is not empty. -/
theorem isValid_and_lt_iff {text : String} {pos : Nat} :
    String.Pos.Raw.IsValid text ⟨pos⟩ ∧ pos < text.utf8ByteSize ↔
      ∃ pre rest, text.toList = pre ++ rest ∧ byteLength pre = pos ∧ rest ≠ [] := by
  rw [String.Pos.Raw.isValid_iff_exists_append]
  constructor
  · rintro ⟨⟨pre, rest, rfl, hpos⟩, hlt⟩
    obtain rfl : pos = pre.utf8ByteSize := congrArg String.Pos.Raw.byteIdx hpos
    refine ⟨pre.toList, rest.toList, String.toList_append, (utf8ByteSize_eq pre).symm, ?_⟩
    intro hnil
    rw [String.utf8ByteSize_append, utf8ByteSize_eq rest, hnil] at hlt
    simp at hlt
  · rintro ⟨pre, rest, htext, rfl, hne⟩
    have hpos := byteLength_pos hne
    refine ⟨⟨String.ofList pre, String.ofList rest, ?_, ?_⟩, ?_⟩
    · rw [← String.ofList_append, ← htext, String.ofList_toList]
    · exact String.Pos.Raw.ext (utf8ByteSize_ofList pre).symm
    · rw [utf8ByteSize_eq, htext, byteLength_append]
      omega

theorem at?_eq_none {text : String} {pos : Nat}
    (h : ¬(String.Pos.Raw.IsValid text ⟨pos⟩ ∧ pos < text.utf8ByteSize)) : at? text pos = none := by
  rw [isValid_and_lt_iff] at h
  by_contra hne
  obtain ⟨r, hr⟩ := Option.ne_none_iff_exists'.1 hne
  exact h (exists_of_at? hr)

/-- At a boundary before the end a token starts, and it ends at a later one. -/
theorem exists_at? {text : String} {pos : Nat}
    (h : String.Pos.Raw.IsValid text ⟨pos⟩ ∧ pos < text.utf8ByteSize) :
    ∃ k lexeme next, at? text pos = some (k, lexeme, next) ∧ pos < next ∧
      String.Pos.Raw.IsValid text ⟨next⟩ ∧
      ∃ before after, text = before ++ lexeme ++ after ∧ before.utf8ByteSize = pos ∧
        (before ++ lexeme).utf8ByteSize = next := by
  obtain ⟨pre, rest, htext, rfl, hne⟩ := isValid_and_lt_iff.1 h
  obtain ⟨k, n, hscan⟩ := exists_scan hne
  have hpos := byteLength_pos (take_ne_nil_of_scan hscan)
  have hsplit : text = String.ofList pre ++ String.ofList (rest.take n) ++ String.ofList (rest.drop n) := by
    rw [← String.ofList_append, ← String.ofList_append, List.append_assoc, List.take_append_drop,
      ← htext, String.ofList_toList]
  have hnext : (String.ofList pre ++ String.ofList (rest.take n)).utf8ByteSize =
      byteLength pre + byteLength (rest.take n) := by
    rw [String.utf8ByteSize_append, utf8ByteSize_ofList, utf8ByteSize_ofList]
  refine ⟨k, _, _, by rw [at?_of_append htext, hscan]; rfl, by omega, ?_, _, _, hsplit,
    utf8ByteSize_ofList pre, hnext⟩
  exact String.Pos.Raw.isValid_iff_exists_append.2 ⟨_, _, hsplit, String.Pos.Raw.ext hnext.symm⟩

/-- The tokens of a text are what is found at their bytes. -/
theorem at?_offset {text : String} {t : Token} (ht : t ∈ all text.toList) :
    at? text t.offset = some (t.kind, t.text, t.stop) := by
  obtain ⟨before, after, h⟩ := List.append_of_mem ht
  obtain ⟨rest, n, htext, hscan, hlexeme, hoffset, -⟩ := exists_scan_of_split h
  rw [Nat.zero_add] at hoffset
  rw [hoffset, at?_of_append htext, hscan, Token.text, stop, hlexeme, hoffset]
  rfl

/-- The tokens of a normalized text tile it, and each is found at its byte. In any text, normalized
or not, a token is found at each boundary before the end, and none past the end or inside a
character. -/
theorem tiles_normalize (text : String) :
    Tiles (all (normalize text.toList)) (normalize text.toList) ∧
    (∀ t ∈ all (normalize text.toList),
      at? (String.ofList (normalize text.toList)) t.offset = some (t.kind, t.text, t.stop)) ∧
    ∀ pos,
      (String.Pos.Raw.IsValid text ⟨pos⟩ ∧ pos < text.utf8ByteSize →
        ∃ k lexeme next, at? text pos = some (k, lexeme, next) ∧ pos < next ∧
          String.Pos.Raw.IsValid text ⟨next⟩ ∧
          ∃ before after, text = before ++ lexeme ++ after ∧ before.utf8ByteSize = pos ∧
            (before ++ lexeme).utf8ByteSize = next) ∧
      (text.utf8ByteSize ≤ pos ∨ ¬String.Pos.Raw.IsValid text ⟨pos⟩ → at? text pos = none) := by
  refine ⟨tiles_all _, fun t ht => at?_offset ?_, fun pos => ⟨exists_at?, fun h => at?_eq_none ?_⟩⟩
  · rwa [String.toList_ofList]
  · rintro ⟨hvalid, hlt⟩
    rcases h with hle | hnot
    · omega
    · exact hnot hvalid

end Token

end SieveScript
