import Mathlib.Data.List.Chain
import SieveScript.Text.Blank
import SieveScript.Text.Lines
import SieveScript.Literal.Quoted

/-!
# Line endings

In a `Normalized` text every line feed has a carriage return before it. `normalize` makes a text
such (`normalized_normalize`) and changes none that is (`Normalized.normalize_eq`). Normalized texts
may be put one behind the other and cut anywhere but inside a line ending, and the value of a quoted
string in a normalized text is normalized too: no escape can part the two characters.
-/

namespace SieveScript

/-- The second character is no line feed, or the first is the carriage return of its ending. -/
def MayFollow (c d : Char) : Prop :=
  d = '\n' → c = '\r'

/-- Every line feed has a carriage return before it. -/
def Normalized (cs : List Char) : Prop :=
  (' ' :: cs).IsChain MayFollow

theorem normalized_iff {cs : List Char} :
    Normalized cs ↔ cs.head? ≠ some '\n' ∧ cs.IsChain MayFollow := by
  rw [Normalized, List.isChain_cons]
  refine and_congr_left fun _ => ⟨fun h hn => ?_, fun h d hd hn => ?_⟩
  · exact absurd (h '\n' hn rfl) (by decide)
  · exact absurd (hn ▸ hd) h

@[simp]
theorem normalized_nil : Normalized [] := by
  simp [normalized_iff]

theorem isChain_normalize (c : Char) (cs : List Char) :
    (c :: normalize cs).IsChain MayFollow := by
  fun_induction normalize cs generalizing c with
  | case1 => simp
  | case2 cs ih =>
    refine List.isChain_cons_cons.2 ⟨?_, List.isChain_cons_cons.2 ⟨fun _ => rfl, ih '\n'⟩⟩
    rintro ⟨⟩
  | case3 cs ih =>
    refine List.isChain_cons_cons.2 ⟨?_, List.isChain_cons_cons.2 ⟨fun _ => rfl, ih '\n'⟩⟩
    rintro ⟨⟩
  | case4 d cs _ hd ih => exact List.isChain_cons_cons.2 ⟨fun h => absurd h hd, ih d⟩

theorem normalized_normalize (cs : List Char) : Normalized (normalize cs) :=
  isChain_normalize ' ' cs

namespace Normalized
variable {cs ds : List Char}

theorem normalize_eq (h : Normalized cs) : normalize cs = cs := by
  rw [normalized_iff] at h
  obtain ⟨hhead, hchain⟩ := h
  fun_induction normalize cs with
  | case1 => rfl
  | case2 cs ih =>
    obtain ⟨-, hchain⟩ := List.isChain_cons_cons.1 hchain
    obtain ⟨hnext, hchain⟩ := List.isChain_cons.1 hchain
    rw [ih (fun hn => absurd (hnext '\n' hn rfl) (by decide)) hchain]
  | case3 cs ih => simp at hhead
  | case4 d cs hcrlf hd ih =>
    obtain ⟨hnext, hchain⟩ := List.isChain_cons.1 hchain
    -- a line feed behind `d` would make the two a line ending
    rw [ih (fun hn => ?_) hchain]
    obtain ⟨ds, rfl⟩ := List.head?_eq_some_iff.1 hn
    exact hcrlf ds (hnext '\n' hn rfl) rfl

theorem append (h : Normalized cs) (h' : Normalized ds) : Normalized (cs ++ ds) := by
  rw [normalized_iff] at h'
  rw [Normalized, ← List.cons_append]
  refine List.IsChain.append h h'.2 ?_
  intro c _ d hd hn
  exact absurd (hn ▸ hd) h'.1

theorem tail {c : Char} (h : (c :: cs).IsChain MayFollow) (hc : c ≠ '\r') : Normalized cs := by
  obtain ⟨hnext, hchain⟩ := List.isChain_cons.1 h
  exact normalized_iff.2 ⟨fun hn => hc (hnext '\n' hn rfl), hchain⟩

end Normalized

/-- No line ends in the text. -/
def IsLine (cs : List Char) : Prop :=
  ∀ c ∈ cs, isLineBreak c = false

instance (cs : List Char) : Decidable (IsLine cs) :=
  decidable_of_iff (cs.all (!isLineBreak ·) = true) (by simp [IsLine])

namespace IsLine
variable {cs ds : List Char}

theorem mono (h : IsLine cs) (hs : ds ⊆ cs) : IsLine ds :=
  fun c hc => h c (hs hc)

theorem cons {c : Char} (hc : isLineBreak c = false) (h : IsLine cs) : IsLine (c :: cs) :=
  List.forall_mem_cons.2 ⟨hc, h⟩

theorem ne_return {c : Char} (h : IsLine (c :: cs)) : c ≠ '\r' := by
  rintro rfl
  exact absurd (h '\r' (by simp)) (by decide)

theorem normalized (h : IsLine cs) : Normalized cs := by
  have hn : '\n' ∉ cs := fun hn => absurd (h '\n' hn) (by decide)
  refine normalized_iff.2 ⟨fun hh => hn (List.mem_of_mem_head? hh), ?_⟩
  clear h
  induction cs with
  | nil => simp
  | cons c cs ih =>
    have hcs : '\n' ∉ cs := fun hc => hn (List.mem_cons_of_mem c hc)
    exact List.isChain_cons.2 ⟨fun d hd h => absurd (h ▸ List.mem_of_mem_head? hd) hcs, ih hcs⟩

end IsLine

/-! ### Quoted strings -/

namespace Quoted

theorem isChain_unescape {c : Char} {cs : List Char} (h : (c :: cs).IsChain MayFollow) :
    (c :: unescape cs).IsChain MayFollow := by
  fun_induction unescape cs generalizing c with
  | case1 => simp
  | case2 => simp
  | case3 d cs ih =>
    obtain ⟨-, h⟩ := List.isChain_cons_cons.1 h
    obtain ⟨hd, h⟩ := List.isChain_cons_cons.1 h
    -- no line feed stands behind a backslash
    exact List.isChain_cons_cons.2 ⟨fun hn => absurd (hd hn) (by decide), ih h⟩
  | case4 d cs _ _ ih =>
    obtain ⟨hd, h⟩ := List.isChain_cons_cons.1 h
    exact List.isChain_cons_cons.2 ⟨hd, ih h⟩

theorem normalized_unescape {cs : List Char} (h : Normalized cs) : Normalized (unescape cs) :=
  isChain_unescape h

/-- The value of a token of a normalized text is normalized. -/
theorem normalized_decode {cs : List Char} (h : Normalized cs) : Normalized (decode cs).toList := by
  rw [decode, String.toList_ofList]
  refine normalized_unescape ?_
  unfold inner
  split
  next cs =>
    split
    · have hpre : cs.dropLast <+: cs := List.dropLast_prefix cs
      refine Normalized.tail (c := '"') ?_ (by decide)
      exact List.IsChain.prefix (normalized_iff.1 h).2 ((List.prefix_cons_inj '"').2 hpre)
    · exact h
  · exact h

/-- What is written of a normalized string is normalized. -/
theorem isChain_escape {c : Char} {cs : List Char} (h : (c :: cs).IsChain MayFollow) :
    (c :: escape cs).IsChain MayFollow := by
  induction cs generalizing c with
  | nil => exact h
  | cons d cs ih =>
    obtain ⟨hd, h⟩ := List.isChain_cons_cons.1 h
    rw [escape]
    split
    next hesc =>
      have hn : d ≠ '\n' := by rcases hesc with rfl | rfl <;> decide
      refine List.isChain_cons_cons.2 ⟨fun h => absurd h (by decide), ?_⟩
      exact List.isChain_cons_cons.2 ⟨fun h => absurd h hn, ih h⟩
    · exact List.isChain_cons_cons.2 ⟨hd, ih h⟩

theorem normalized_encode {value : String} (h : Normalized value.toList) :
    Normalized (encode value) := by
  rw [encode, ← List.singleton_append]
  refine (Normalized.append ?_ ?_).append ?_
  · simp [normalized_iff]
  · exact isChain_escape h
  · simp [normalized_iff]

end Quoted

end SieveScript
