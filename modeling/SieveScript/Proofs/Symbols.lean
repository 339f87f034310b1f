import SieveScript.Reading

/-!
# The symbols of a text

Reading sees nothing of a token but its symbol. `Token.symbols` lists the symbols of a text,
`State.steps` reads a list of symbols one by one, and `State.run_eq_ok_iff` says that this is what
reading the tokens of the text comes to. The rest is about how the symbols of a text begin when its
first lexeme is known: `Token.symbols_of_scan` in general, `Token.symbols_layout` for layout, which
has none.
-/

namespace SieveScript

namespace Kind

/-- The symbol of a lexeme of this kind. -/
def symbol? (k : Kind) (lexeme : List Char) : Option Symbol :=
  Token.symbol? { kind := k, lexeme, offset := 0, line := 0 }

end Kind

namespace Token

theorem symbol?_eq (t : Token) : t.symbol? = t.kind.symbol? t.lexeme := rfl

/-- The symbols of a text: its tokens but for layout, decoded. -/
def symbols (cs : List Char) : List Symbol :=
  (all cs).filterMap symbol?

theorem allFrom_of_scan_eq_none {o l : Nat} {cs : List Char} (h : scan cs = none) :
    allFrom o l cs = [] := by
  rw [allFrom]
  split
  · rfl
  · simp_all

theorem allFrom_of_scan {o l : Nat} {cs : List Char} {k : Kind} {n : Nat}
    (h : scan cs = some (k, n)) :
    allFrom o l cs =
      { kind := k, lexeme := cs.take n, offset := o, line := l } ::
        allFrom (o + byteLength (cs.take n)) (l + (cs.take n).count '\n') (cs.drop n) := by
  rw [allFrom]
  split
  · simp_all
  next k' n' h' =>
    rw [h] at h'
    cases h'
    rfl

/-- Where a text starts does not change its symbols. -/
theorem filterMap_symbol?_allFrom (o l : Nat) (cs : List Char) :
    (allFrom o l cs).filterMap symbol? = symbols cs := by
  suffices h : ∀ o' l', (allFrom o l cs).filterMap symbol? =
      (allFrom o' l' cs).filterMap symbol? from h 0 1
  fun_induction allFrom o l cs with
  | case1 o l cs h =>
    intro o' l'
    rw [allFrom_of_scan_eq_none h]
  | case2 o l cs k n h lexeme ih =>
    intro o' l'
    rw [allFrom_of_scan h, List.filterMap_cons, List.filterMap_cons, symbol?_eq, symbol?_eq]
    simp only
    rw [ih]

@[simp]
theorem symbols_nil : symbols [] = [] := by
  rw [symbols, all, allFrom_of_scan_eq_none scan_nil]
  rfl

theorem symbols_of_scan {cs : List Char} {k : Kind} {n : Nat} (h : scan cs = some (k, n)) :
    symbols cs = (k.symbol? (cs.take n)).toList ++ symbols (cs.drop n) := by
  rw [symbols, all, allFrom_of_scan h, List.filterMap_cons, symbol?_eq, filterMap_symbol?_allFrom]
  cases k.symbol? (cs.take n) <;> rfl

/-- The symbols of a text that starts with a lexeme of its own. -/
theorem symbols_append_of_scan {cs rest : List Char} {k : Kind}
    (h : scan (cs ++ rest) = some (k, cs.length)) :
    symbols (cs ++ rest) = (k.symbol? cs).toList ++ symbols rest := by
  rw [symbols_of_scan h, List.take_left, List.drop_left]

end Token

namespace State

/-- Reads symbols; the first fault ends the reading. -/
def steps (v : Vocabulary) : State → List Symbol → Except Fault State
  | s, [] => .ok s
  | s, y :: ys =>
    match s.step v y with
    | .ok s' => steps v s' ys
    | .error f => .error f

variable {v : Vocabulary} {s s' : State}

@[simp]
theorem steps_nil : steps v s [] = .ok s := rfl

theorem steps_cons_of_ok {y : Symbol} {ys : List Symbol} (h : s.step v y = .ok s') :
    steps v s (y :: ys) = steps v s' ys := by
  rw [steps, h]

theorem steps_append {xs ys : List Symbol} (h : steps v s xs = .ok s') :
    steps v s (xs ++ ys) = steps v s' ys := by
  fun_induction steps v s xs with
  | case1 s => cases h; rfl
  | case2 s y xs s₁ h₁ ih => rw [List.cons_append, steps_cons_of_ok h₁, ih h]
  | case3 => contradiction

/-- Reading tokens is reading their symbols. -/
theorem run_eq_ok_iff {ts : List Token} :
    run v s ts = .ok s' ↔ steps v s (ts.filterMap Token.symbol?) = .ok s' := by
  fun_induction run v s ts with
  | case1 s => simp
  | case2 s t ts h ih => rw [List.filterMap_cons_none h, ih]
  | case3 s t ts y h s₁ h₁ ih => rw [List.filterMap_cons_some h, steps_cons_of_ok h₁, ih]
  | case4 s t ts y h f h₁ => simp [List.filterMap_cons_some h, steps, h₁]

end State

namespace Script

/-- A script is read when its symbols are. -/
theorem read_eq_ok_iff {v : Vocabulary} {name text : String} {s : Script} :
    read v name text = .ok s ↔
      ∃ st, State.steps v {} (Token.symbols (normalize text.toList)) = .ok st ∧ st.finish = s := by
  rw [read]
  cases h : State.run v {} (Token.all (normalize text.toList)) with
  | ok st =>
    have h' := State.run_eq_ok_iff.1 h
    simp [Token.symbols, h']
  | error e =>
    refine ⟨fun h' => by simp at h', ?_⟩
    rintro ⟨st, h', -⟩
    rw [Token.symbols, ← State.run_eq_ok_iff, h] at h'
    contradiction

end Script

end SieveScript
