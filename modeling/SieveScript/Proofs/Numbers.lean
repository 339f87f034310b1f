import Mathlib.Algebra.Group.Nat.Defs
import SieveScript.Proofs.Lexical
import SieveScript.Proofs.Tiling

/-!
# The values of numbers

A number is written as one or more decimal digits with at most one quantifier behind them
(`Number.Spells`). Its value is the exact product, unless it does not fit in 64 bits
(`Number.value_of_spells`). The digits are read first and multiplied then, and either may be too
large; but a product is no smaller than its first factor, so the product alone decides.
-/

namespace SieveScript

namespace Number

/-- What decimal digits stand for. -/
def decimal : List Char → Nat
  | [] => 0
  | d :: ds => (d.toNat - '0'.toNat) * 10 ^ ds.length + decimal ds

/-- What may stand behind the digits, and the power of two that it multiplies by. -/
def quantifiers : List (List Char × Nat) :=
  [([], 0), (['K'], 10), (['k'], 10), (['M'], 20), (['m'], 20), (['G'], 30), (['g'], 30)]

/-- The text is the number `v` in decimal, perhaps with zeros in front, and a quantifier that
multiplies it by `2 ^ s`. -/
def Spells (cs : List Char) (v s : Nat) : Prop :=
  ∃ ds q, cs = ds ++ q ∧ ds ≠ [] ∧ (∀ d ∈ ds, d.isDigit = true) ∧ decimal ds = v ∧
    (q, s) ∈ quantifiers

variable {cs ds q : List Char} {v s : Nat}

theorem ofDigitChars_eq_decimal (ds : List Char) : Nat.ofDigitChars 10 ds 0 = decimal ds := by
  induction ds with
  | nil => rfl
  | cons d ds ih =>
    rw [Nat.ofDigitChars_cons, Nat.ofDigitChars_eq_ofDigitChars_zero, ih, decimal, Nat.mul_zero,
      Nat.zero_add, Nat.mul_comm]

/-! ### Digits and quantifiers -/

theorem shift?_of_isDigit {c : Char} (hc : c.isDigit = true) : shift? c = none :=
  forall_ascii (p := fun c => c.isDigit = true → shift? c = none) (by decide)
    (Lexeme.toNat_lt_of_isWordChar (Lexeme.isWordChar_of_isDigit hc)) hc

theorem splitQuantifier_append (hne : ds ≠ []) (hds : ∀ d ∈ ds, d.isDigit = true)
    (hq : (q, s) ∈ quantifiers) : splitQuantifier (ds ++ q) = (ds, s) := by
  have hcases : ∀ p ∈ quantifiers, p = ([], 0) ∨
      p.1.length = 1 ∧ p.1.getLast?.bind shift? = some p.2 := by decide
  rcases hcases _ hq with heq | ⟨hlen, hshift⟩
  · cases heq
    -- the last character is a digit, and no digit is a quantifier
    have hlast := List.getLast?_eq_some_getLast hne
    have hnone := shift?_of_isDigit (hds _ (List.getLast_mem hne))
    simp [splitQuantifier, hlast, hnone]
  · obtain ⟨c, rfl⟩ := List.length_eq_one_iff.1 hlen
    simp_all [splitQuantifier]

theorem signed?_of_digits (hne : ds ≠ []) (hds : ∀ d ∈ ds, d.isDigit = true) :
    signed? ds = fit (decimal ds) := by
  have hdecimal : decimal? ds = fit (decimal ds) := by
    rw [decimal?, if_pos ⟨hne, List.all_eq_true.2 hds⟩, ofDigitChars_eq_decimal]
  unfold signed?
  split
  next cs => exact absurd (hds '+' (by simp)) (by decide)
  · exact hdecimal

/-- Whether a product fits shows in the product alone. -/
theorem fit_bind_shift (v s : Nat) : (fit v).bind (fun v => fit (v <<< s)) = fit (v * 2 ^ s) := by
  have hle : v ≤ v * 2 ^ s := Nat.le_mul_of_pos_right v (Nat.two_pow_pos s)
  unfold fit
  split
  next hv => rw [Option.bind_some, Nat.shiftLeft_eq]
  next hv => rw [if_neg (by omega), Option.bind_none]

theorem value_of_spells {n : Number} (h : Spells n.text.toList v s) : n.value = fit (v * 2 ^ s) := by
  obtain ⟨ds, q, hcs, hne, hds, rfl, hq⟩ := h
  rw [value, hcs, splitQuantifier_append hne hds hq]
  simp only
  rw [signed?_of_digits hne hds, fit_bind_shift]

/-! ### Which texts are numbers -/

theorem exists_spells (h : IsNumber cs) : ∃ v s, Spells cs v s := by
  obtain ⟨ds, q, rfl, hne, hds, hq⟩ := h
  have hs : ∃ s, (q, s) ∈ quantifiers := by
    rcases hq with rfl | ⟨c, rfl, hc⟩
    · exact ⟨0, by decide⟩
    · simp only [Lexeme.isQuantifier, Bool.or_eq_true, beq_iff_eq] at hc
      rcases hc with ((((rfl | rfl) | rfl) | rfl) | rfl) | rfl <;> simp [quantifiers]
  obtain ⟨s, hs⟩ := hs
  exact ⟨_, s, ds, q, rfl, hne, hds, rfl, hs⟩

theorem exists_spells_of_scan {n : Nat} (h : scan cs = some (.number, n)) :
    ∃ v s, Spells (cs.take n) v s :=
  exists_spells (isNumber_of_number (measure_of_scan h))

theorem spells_ofNat (v : Nat) : Spells (ofNat v).text.toList v 0 := by
  refine ⟨Nat.toDigits 10 v, [], ?_, Nat.toDigits_ne_nil, ?_, ?_, by decide⟩
  · rw [ofNat, String.toList_ofList, List.append_nil]
  · exact fun d hd => Nat.isDigit_of_mem_toDigits (by decide) (by decide) hd
  · rw [← ofDigitChars_eq_decimal, Nat.ofDigitChars_ten_toDigits]

/-- A number has the value that its digits and its quantifier stand for if it is below `2 ^ 64`, and
else none. Every number token of a text, wherever it is looked for, is written so, and so is every
value of 64 bits. -/
theorem value_exact :
    (∀ (n : Number) (v s : Nat), Spells n.text.toList v s →
      n.value = if v * 2 ^ s < 2 ^ 64 then some (v * 2 ^ s) else none) ∧
    (∀ (cs : List Char) (t : Token), t ∈ Token.all cs → t.kind = .number →
      ∃ v s, Spells t.lexeme v s) ∧
    (∀ (text : String) (pos : Nat) (lexeme : String) (next : Nat),
      Token.at? text pos = some (.number, lexeme, next) → ∃ v s, Spells lexeme.toList v s) ∧
    ∀ v : UInt64, (ofNat v.toNat).value = some v.toNat := by
  refine ⟨fun n v s h => value_of_spells h, fun cs t ht hk => ?_, fun text pos lexeme next h => ?_,
    fun v => ?_⟩
  · obtain ⟨before, after, hall⟩ := List.append_of_mem ht
    obtain ⟨rest, n, -, hscan, hlexeme, -⟩ := Token.exists_scan_of_split hall
    rw [hk] at hscan
    rw [hlexeme]
    exact exists_spells_of_scan hscan
  · obtain ⟨pre, rest, htext, rfl, -⟩ := Token.exists_of_at? h
    rw [Token.at?_of_append htext] at h
    obtain ⟨⟨k, n⟩, hscan, heq⟩ := Option.map_eq_some_iff.1 h
    cases heq
    rw [String.toList_ofList]
    exact exists_spells_of_scan hscan
  · rw [value_of_spells (spells_ofNat v.toNat), fit, Nat.pow_zero, Nat.mul_one,
      if_pos v.toNat_lt]

/-- Instances on both sides of the limit, and a token in the middle of a text. -/
theorem value_exact_limits :
    let below : Number := ⟨"017179869183g"⟩
    let above : Number := ⟨"18014398509481984K"⟩
    let cs := "size :over 020M;".toList
    let t : Token := { kind := .number, lexeme := "020M".toList, offset := 11, line := 1 }
    Spells below.text.toList 17179869183 30 ∧ below.value = some 18446744072635809792 ∧
    Spells above.text.toList 18014398509481984 10 ∧ above.value = none ∧
    t ∈ Token.all cs ∧ (∃ v s, Spells t.lexeme v s) ∧
    Token.at? (String.ofList cs) 12 = some (.number, "20M", 15) ∧ ∃ v s, Spells "20M".toList v s := by
  intro below above cs t
  have hbelow : Spells below.text.toList 17179869183 30 :=
    ⟨"017179869183".toList, ['g'], by decide, by decide, List.all_eq_true.1 rfl, rfl, by decide⟩
  have habove : Spells above.text.toList 18014398509481984 10 :=
    ⟨"18014398509481984".toList, ['K'], by decide, by decide, List.all_eq_true.1 rfl, rfl, by decide⟩
  have ht : t ∈ Token.all cs := by decide +kernel
  have hat : Token.at? (String.ofList cs) 12 = some (.number, "20M", 15) := by decide +kernel
  obtain ⟨hvalue, htoken, hplace, -⟩ := value_exact
  exact ⟨hbelow, hvalue below _ _ hbelow, habove, hvalue above _ _ habove, ht, htoken cs t ht rfl,
    hat, hplace _ _ _ _ hat⟩

end Number

end SieveScript
