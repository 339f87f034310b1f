import Mathlib.Order.Bounds.Defs
import SieveScript.Proofs.Tiling

/-!
# Errors point at the first token at fault

Reading stops at the first token that cannot stand where it stands, and the error tells the line of
that token and shows the text around its end. The text is shown in whole characters: both ends of a
range of bytes are moved outwards until they are boundaries, and the text is cut there
(`SyntaxError.snippet?`). A cut inside a character would fail, and none does. What is cut out is the
`window` of the text, and there is no smaller piece that covers the range.
-/

namespace SieveScript

/-! ### Boundaries -/

/-- A character starts at the byte, or the text ends there. -/
def isBoundary (cs : List Char) (n : Nat) : Bool :=
  (dropBytes? n cs).isSome

/-- The first boundary met going back from a byte. The start of a text is one. -/
def lastBoundary (cs : List Char) : Nat → Nat
  | 0 => 0
  | n + 1 => if isBoundary cs (n + 1) then n + 1 else lastBoundary cs n

/-- The first boundary met going on from a byte of the text. The end of a text is one. -/
def firstBoundary (cs : List Char) (n : Nat) : Nat :=
  if n < byteLength cs ∧ isBoundary cs n = false then firstBoundary cs (n + 1) else n
termination_by byteLength cs - n

/-- The text from a byte to a later one, if both are boundaries. -/
def slice? (cs : List Char) (b e : Nat) : Option (List Char) := do
  let rest ← dropBytes? b cs
  let after ← dropBytes? e cs
  if b ≤ e then some (rest.take (rest.length - after.length)) else none

variable {cs w : List Char} {n b e lo hi pos : Nat}

theorem isBoundary_iff : isBoundary cs n = true ↔
    ∃ before after, cs = before ++ after ∧ byteLength before = n := by
  rw [isBoundary, Option.isSome_iff_exists]
  constructor
  · rintro ⟨after, h⟩
    obtain ⟨before, hcs, hn⟩ := append_of_dropBytes? h
    exact ⟨before, after, hcs, hn⟩
  · rintro ⟨before, after, rfl, rfl⟩
    exact ⟨after, dropBytes?_append before after⟩

theorem isBoundary_byteLength (before after : List Char) :
    isBoundary (before ++ after) (byteLength before) = true :=
  isBoundary_iff.2 ⟨before, after, rfl, rfl⟩

theorem isBoundary_zero (cs : List Char) : isBoundary cs 0 = true :=
  isBoundary_byteLength [] cs

theorem isBoundary_end (cs : List Char) : isBoundary cs (byteLength cs) = true := by
  simpa using isBoundary_byteLength cs []

theorem le_of_isBoundary (h : isBoundary cs n = true) : n ≤ byteLength cs := by
  obtain ⟨before, after, rfl, rfl⟩ := isBoundary_iff.1 h
  rw [byteLength_append]
  exact Nat.le_add_right _ _

theorem isGreatest_lastBoundary (cs : List Char) (n : Nat) :
    IsGreatest {b | isBoundary cs b = true ∧ b ≤ n} (lastBoundary cs n) := by
  induction n with
  | zero => exact ⟨⟨isBoundary_zero cs, le_rfl⟩, fun b hb => hb.2⟩
  | succ n ih =>
    rw [lastBoundary]
    split
    next h => exact ⟨⟨h, le_rfl⟩, fun b hb => hb.2⟩
    next h =>
      refine ⟨⟨ih.1.1, Nat.le_succ_of_le ih.1.2⟩, fun b hb => ih.2 ⟨hb.1, ?_⟩⟩
      have hne : b ≠ n + 1 := by
        rintro rfl
        exact h hb.1
      have := hb.2
      omega

theorem isLeast_firstBoundary (h : n ≤ byteLength cs) :
    IsLeast {e | isBoundary cs e = true ∧ n ≤ e} (firstBoundary cs n) := by
  fun_induction firstBoundary cs n with
  | case1 n hn ih =>
    have ih := ih hn.1
    refine ⟨⟨ih.1.1, Nat.le_of_succ_le ih.1.2⟩, fun e he => ih.2 ⟨he.1, ?_⟩⟩
    have hne : e ≠ n := by
      rintro rfl
      exact Bool.false_ne_true (hn.2.symm.trans he.1)
    have := he.2
    omega
  | case2 n hn =>
    refine ⟨⟨?_, le_rfl⟩, fun e he => he.2⟩
    by_contra hno
    rw [Bool.not_eq_true] at hno
    obtain rfl : n = byteLength cs := le_antisymm h (not_lt.1 fun hlt => hn ⟨hlt, hno⟩)
    exact Bool.false_ne_true (hno.symm.trans (isBoundary_end cs))

/-! A boundary is never far, since no character has more than four bytes. -/

theorem exists_char (h : n < byteLength cs) :
    ∃ before c after, cs = before ++ c :: after ∧ byteLength before ≤ n ∧
      n < byteLength before + c.utf8Size := by
  induction cs generalizing n with
  | nil => contradiction
  | cons c cs ih =>
    by_cases hc : n < c.utf8Size
    · exact ⟨[], c, cs, rfl, Nat.zero_le n, by simpa using hc⟩
    · rw [byteLength_cons] at h
      obtain ⟨before, d, after, rfl, hle, hlt⟩ := ih (n := n - c.utf8Size) (by omega)
      refine ⟨c :: before, d, after, rfl, ?_, ?_⟩
      · rw [byteLength_cons]
        omega
      · rw [byteLength_cons]
        omega

theorem le_lastBoundary_add (h : n ≤ byteLength cs) : n ≤ lastBoundary cs n + 3 := by
  have hgreatest := (isGreatest_lastBoundary cs n).2
  rcases Nat.lt_or_eq_of_le h with hlt | rfl
  · obtain ⟨before, c, after, rfl, hle, hlt⟩ := exists_char hlt
    have hb := hgreatest ⟨isBoundary_byteLength before (c :: after), hle⟩
    have hc := c.utf8Size_le_four
    omega
  · have hb := hgreatest ⟨isBoundary_end cs, le_rfl⟩
    omega

theorem firstBoundary_le_add (h : n ≤ byteLength cs) : firstBoundary cs n ≤ n + 3 := by
  have hleast := (isLeast_firstBoundary h).2
  rcases Nat.lt_or_eq_of_le h with hlt | rfl
  · obtain ⟨before, c, after, rfl, hle, hlt⟩ := exists_char hlt
    have hc := c.utf8Size_le_four
    rcases Nat.lt_or_eq_of_le hle with hlt' | rfl
    · have hb := isBoundary_byteLength (before ++ [c]) after
      rw [List.append_assoc, List.singleton_append] at hb
      have he := hleast ⟨hb, by simpa using hlt.le⟩
      simp only [byteLength_append, byteLength_cons, byteLength_nil] at he
      omega
    · have he := hleast ⟨isBoundary_byteLength before (c :: after), le_rfl⟩
      omega
  · have he := hleast ⟨isBoundary_end cs, le_rfl⟩
    omega

/-! ### Slices -/

theorem exists_append_of_byteLength_le {before rest before' after : List Char}
    (h : before ++ rest = before' ++ after) (hle : byteLength before ≤ byteLength before') :
    ∃ w, before' = before ++ w ∧ rest = w ++ after := by
  rcases List.append_eq_append_iff.1 h with ⟨w, hw, hrest⟩ | ⟨w, rfl, rfl⟩
  · exact ⟨w, hw, hrest⟩
  · have hnil : w = [] := by
      by_contra hne
      have := byteLength_pos hne
      rw [byteLength_append] at hle
      omega
    exact ⟨[], by simp [hnil], by simp [hnil]⟩

/-- A slice is a piece of the text that starts and ends where it is cut. -/
theorem slice?_eq_some_iff : slice? cs b e = some w ↔
    ∃ before after, cs = before ++ (w ++ after) ∧ byteLength before = b ∧
      byteLength (before ++ w) = e := by
  constructor
  · intro h
    obtain ⟨rest, hrest, h⟩ := Option.bind_eq_some_iff.1 h
    obtain ⟨after, hafter, h⟩ := Option.bind_eq_some_iff.1 h
    obtain ⟨hle, hw⟩ := Option.ite_none_right_eq_some.1 h
    obtain ⟨before, hcs, rfl⟩ := append_of_dropBytes? hrest
    obtain ⟨before', hcs', rfl⟩ := append_of_dropBytes? hafter
    obtain ⟨u, rfl, rfl⟩ := exists_append_of_byteLength_le (hcs.symm.trans hcs') hle
    obtain rfl : u = w := by simpa using hw
    exact ⟨before, after, hcs, rfl, rfl⟩
  · rintro ⟨before, after, rfl, rfl, rfl⟩
    have hafter := dropBytes?_append (before ++ w) after
    rw [List.append_assoc, byteLength_append] at hafter
    simp [slice?, dropBytes?_append, hafter]

theorem exists_slice? (hb : isBoundary cs b = true) (he : isBoundary cs e = true) (hle : b ≤ e) :
    ∃ w, slice? cs b e = some w := by
  obtain ⟨before, rest, hcs, rfl⟩ := isBoundary_iff.1 hb
  obtain ⟨before', after, hcs', rfl⟩ := isBoundary_iff.1 he
  obtain ⟨w, rfl, rfl⟩ := exists_append_of_byteLength_le (hcs.symm.trans hcs') hle
  exact ⟨w, slice?_eq_some_iff.2 ⟨before, after, hcs, rfl, rfl⟩⟩

/-- A piece of the text that covers the bytes from `lo` to `hi`, and is part of every such piece. -/
def IsSmallestCover (cs : List Char) (lo hi : Nat) (w : List Char) : Prop :=
  ∃ b e, slice? cs b e = some w ∧ b ≤ lo ∧ hi ≤ e ∧
    ∀ b' e' w', slice? cs b' e' = some w' → b' ≤ lo → hi ≤ e' → b' ≤ b ∧ e ≤ e'

theorem isSmallestCover_of_slice? (hb : IsGreatest {b | isBoundary cs b = true ∧ b ≤ lo} b)
    (he : IsLeast {e | isBoundary cs e = true ∧ hi ≤ e} e) (h : slice? cs b e = some w) :
    IsSmallestCover cs lo hi w := by
  refine ⟨b, e, h, hb.1.2, he.1.2, fun b' e' w' h' hlo hhi => ?_⟩
  obtain ⟨before, after, rfl, rfl, rfl⟩ := slice?_eq_some_iff.1 h'
  have hend := isBoundary_byteLength (before ++ w') after
  rw [List.append_assoc] at hend
  exact ⟨hb.2 ⟨isBoundary_byteLength before _, hlo⟩, he.2 ⟨hend, hhi⟩⟩

/-! ### Windows -/

theorem window_append (xs ys : List Char) :
    window lo hi pos (xs ++ ys) = window lo hi pos xs ++ window lo hi (pos + byteLength xs) ys := by
  induction xs generalizing pos with
  | nil => rfl
  | cons c xs ih =>
    rw [List.cons_append, window, window, ih, byteLength_cons, Nat.add_assoc]
    split <;> rfl

theorem window_of_le_start (h : pos + byteLength cs ≤ lo) : window lo hi pos cs = [] := by
  induction cs generalizing pos with
  | nil => rfl
  | cons c cs ih =>
    rw [byteLength_cons] at h
    have hc : ¬lo < pos + c.utf8Size := by omega
    rw [window, ih (by omega)]
    simp [hc]

theorem window_of_end_le (h : hi ≤ pos) : window lo hi pos cs = [] := by
  induction cs generalizing pos with
  | nil => rfl
  | cons c cs ih =>
    rw [window, ih (by omega)]
    simp [h]

theorem window_eq_self (h : ∀ u c v, cs = u ++ c :: v →
    lo < pos + byteLength (u ++ [c]) ∧ pos + byteLength u < hi) : window lo hi pos cs = cs := by
  induction cs generalizing pos with
  | nil => rfl
  | cons c cs ih =>
    have hc : lo < pos + c.utf8Size ∧ pos < hi := by simpa using h [] c cs rfl
    rw [window, ih]
    · simp [hc]
    · intro u d v hcs
      have hd := h (c :: u) d v (by rw [hcs]; rfl)
      simpa [Nat.add_assoc] using hd

/-- What is cut out at the boundaries around a range of bytes is the window of the range. -/
theorem window_eq_of_slice? (hb : IsGreatest {b | isBoundary cs b = true ∧ b ≤ lo} b)
    (he : IsLeast {e | isBoundary cs e = true ∧ min hi (byteLength cs) ≤ e} e)
    (h : slice? cs b e = some w) : window lo hi 0 cs = w := by
  obtain ⟨before, after, hcs, rfl, rfl⟩ := slice?_eq_some_iff.1 h
  have hbefore : window lo hi 0 before = [] :=
    window_of_le_start (by simpa using hb.1.2)
  have hafter : window lo hi (byteLength before + byteLength w) after = [] := by
    have hend := he.1.2
    by_cases hhi : hi ≤ byteLength before + byteLength w
    · exact window_of_end_le hhi
    · have hnil : after = [] := by
        by_contra hne
        have := byteLength_pos hne
        rw [hcs, byteLength_append, byteLength_append, byteLength_append] at hend
        omega
      rw [hnil]
      rfl
  -- within the slice there is a boundary on both sides of each character
  have hmid : window lo hi (byteLength before) w = w := by
    refine window_eq_self fun u c v hw => ?_
    have hc := c.utf8Size_pos
    have hstart := isBoundary_byteLength (before ++ u) (c :: v ++ after)
    have hstop := isBoundary_byteLength (before ++ u ++ [c]) (v ++ after)
    rw [show before ++ u ++ (c :: v ++ after) = cs by rw [hcs, hw]; simp] at hstart
    rw [show before ++ u ++ [c] ++ (v ++ after) = cs by rw [hcs, hw]; simp] at hstop
    constructor
    · by_contra hle
      have := hb.2 ⟨hstop, by simp only [byteLength_append] at hle ⊢; omega⟩
      simp only [byteLength_append, byteLength_cons, byteLength_nil] at this
      omega
    · by_contra hle
      have := he.2 ⟨hstart, by simp only [byteLength_append]; omega⟩
      simp only [hw, byteLength_append, byteLength_cons] at this
      omega
  rw [hcs, window_append, window_append, Nat.zero_add, hbefore, hmid, hafter, List.nil_append,
    List.append_nil]

namespace SyntaxError

/-- The text around a byte, cut at the boundaries around what is to be shown. -/
def snippet? (cs : List Char) (stop : Nat) : Option (List Char) :=
  slice? cs (lastBoundary cs (stop - shown.1))
    (firstBoundary cs (min (stop + shown.2) (byteLength cs)))

/-- Cutting out a snippet never fails. What is cut out is the smallest piece of the text that covers
the 20 bytes before and the 10 bytes behind, as far as there are any, and has at most 36 bytes. -/
theorem snippet?_eq (cs : List Char) (stop : Nat) :
    snippet? cs stop = some (window (stop - 20) (stop + 10) 0 cs) ∧
      IsSmallestCover cs (stop - 20) (min (stop + 10) (byteLength cs))
        (window (stop - 20) (stop + 10) 0 cs) ∧
      byteLength (window (stop - 20) (stop + 10) 0 cs) ≤ 36 := by
  have hmin : min (stop + 10) (byteLength cs) ≤ byteLength cs := Nat.min_le_right _ _
  have hb := isGreatest_lastBoundary cs (stop - 20)
  have he := isLeast_firstBoundary hmin
  have hstart := hb.1.2
  have hstop := he.1.2
  have hin := le_of_isBoundary hb.1.1
  obtain ⟨w, hw⟩ := exists_slice? hb.1.1 he.1.1 (by omega)
  rw [window_eq_of_slice? hb he hw]
  refine ⟨hw, isSmallestCover_of_slice? hb he hw, ?_⟩
  obtain ⟨before, after, -, hbefore, hcut⟩ := slice?_eq_some_iff.1 hw
  have hhi := firstBoundary_le_add hmin
  rw [byteLength_append] at hcut
  -- a range that starts behind the text is empty
  by_cases hlo : stop - 20 ≤ byteLength cs
  · have := le_lastBoundary_add hlo
    omega
  · have := hb.2 ⟨isBoundary_end cs, (not_le.1 hlo).le⟩
    have := he.2 ⟨isBoundary_end cs, hmin⟩
    omega

end SyntaxError

namespace State

/-- The token at fault is the first that cannot be read. -/
theorem exists_step_of_run_eq_error {v : Vocabulary} {s : State} {ts : List Token} {f : Fault}
    {t : Token} (h : run v s ts = .error (f, t)) :
    ∃ before after s' y, ts = before ++ t :: after ∧ run v s before = .ok s' ∧
      t.symbol? = some y ∧ s'.step v y = .error f := by
  fun_induction run v s ts with
  | case1 => contradiction
  | case2 s u ts hu ih =>
    obtain ⟨before, after, s', y, rfl, hrun, hy, hstep⟩ := ih h
    exact ⟨u :: before, after, s', y, rfl, by rw [run, hu]; exact hrun, hy, hstep⟩
  | case3 s u ts x hu s₁ hx ih =>
    obtain ⟨before, after, s', y, rfl, hrun, hy, hstep⟩ := ih h
    exact ⟨u :: before, after, s', y, rfl, by rw [run, hu]; simp only [hx]; exact hrun, hy, hstep⟩
  | case4 s u ts y hu f' hy =>
    cases h
    exact ⟨[], ts, s, y, rfl, rfl, hu, hy⟩

end State

/-! ### Errors -/

/-- The error is that token `t` of the text cannot be read where it stands, with its line and the text
around its end. -/
structure SyntaxError.PointsAt (e : SyntaxError) (v : Vocabulary) (name : String) (cs : List Char)
    (before : List Token) (t : Token) (after : List Token) : Prop where
  tokens : Token.all cs = before ++ t :: after
  text : cs = Token.lexemes before ++ (t.lexeme ++ Token.lexemes after)
  stop : t.stop = byteLength (Token.lexemes before ++ t.lexeme)
  /-- All tokens in front of `t` are read, and then it is at fault. -/
  fault : ∃ s y, State.run v {} before = .ok s ∧ t.symbol? = some y ∧ s.step v y = .error e.fault
  script : e.script = name
  line : e.line = 1 + (Token.lexemes before).count '\n'
  snippet : SyntaxError.snippet? cs t.stop = some e.snippet.toList
  cover : IsSmallestCover cs (t.stop - 20) (min (t.stop + 10) (byteLength cs)) e.snippet.toList
  size : e.snippet.utf8ByteSize ≤ 36

namespace Script

/-- No snippet of any text is cut inside a character, and none is longer than 36 bytes. If a text
cannot be read, the error points at its first token at fault. -/
theorem pointsAt_of_parse :
    (∀ (cs : List Char) (stop : Nat), ∃ w, SyntaxError.snippet? cs stop = some w ∧ byteLength w ≤ 36) ∧
    ∀ (capabilities : List String) (name text : String) (e : SyntaxError),
      parse capabilities name text = .error e →
      ∃ before t after,
        e.PointsAt (.ofCapabilities capabilities) name (normalize text.toList) before t after := by
  refine ⟨fun cs stop => ?_, fun capabilities name text e h => ?_⟩
  · obtain ⟨hsnippet, -, hsize⟩ := SyntaxError.snippet?_eq cs stop
    exact ⟨_, hsnippet, hsize⟩
  · rw [parse, read] at h
    generalize normalize text.toList = cs at h ⊢
    split at h
    · contradiction
    next f t hrun =>
      cases h
      obtain ⟨before, after, s, y, htokens, hbefore, hy, hstep⟩ :=
        State.exists_step_of_run_eq_error hrun
      obtain ⟨rest, n, -, -, -, hoffset, hline⟩ := Token.exists_scan_of_split htokens
      obtain ⟨hsnippet, hcover, hsize⟩ := SyntaxError.snippet?_eq cs t.stop
      have htext : cs = Token.lexemes before ++ (t.lexeme ++ Token.lexemes after) := by
        rw [← Token.lexemes_cons, ← Token.lexemes_append, ← htokens]
        exact (Token.lexemes_allFrom 0 1 cs).symm
      rw [← String.toList_ofList (l := window (t.stop - 20) (t.stop + 10) 0 cs)] at hsnippet hcover
      rw [← utf8ByteSize_ofList] at hsize
      exact ⟨before, t, after, htokens, htext, by rw [Token.stop, hoffset]; simp,
        ⟨s, y, hbefore, hy, hstep⟩, rfl, hline, hsnippet, hcover, hsize⟩

/-- An instance at a text of which the snippet is cut beside characters of two and of four bytes. -/
theorem pointsAt_of_parse_blockEnd :
    let text := "keep;\n# ééééééééé\n\x7d 😀😀😀😀"
    let e : SyntaxError :=
      { fault := .blockEndMisplaced, script := "a", line := 3, snippet := "ééééééééé\r\n\x7d 😀😀😀" }
    parse [] "a" text = .error e ∧ ∃ before t after,
      e.PointsAt (.ofCapabilities []) "a" (normalize text.toList) before t after := by
  intro text e
  have h : parse [] "a" text = .error e := by decide +kernel
  exact ⟨h, pointsAt_of_parse.2 [] "a" text e h⟩

end Script

end SieveScript
