import SieveScript.Proofs.Scanning

/-!
# The grammar of strings

What a quoted string and a list of them look like, said without a scan. The scans agree with the
grammar in both directions: a text of the grammar is measured whole, whatever follows it
(`Lexeme.quoted_append`, `Lexeme.stringList_append`), and what is measured is a text of the grammar
(`Lexeme.exists_inside_of_closingQuote`, `Lexeme.exists_written_of_stringList`). So no text of the
grammar is the beginning of another.
-/

namespace SieveScript

namespace Quoted

/-- What may stand between the quotes of a string: a backslash with the character that it escapes,
or a character that is neither a backslash nor a quote, again and again. -/
inductive Inside : List Char → Prop
  | nil : Inside []
  | escaped (c : Char) {cs : List Char} (h : Inside cs) : Inside ('\\' :: c :: cs)
  | plain {c : Char} {cs : List Char} (hquote : c ≠ '"') (hslash : c ≠ '\\') (h : Inside cs) :
      Inside (c :: cs)

/-- A string with its quotes. -/
inductive IsQuoted : List Char → Prop
  | mk {body : List Char} (h : Inside body) : IsQuoted ('"' :: (body ++ ['"']))

end Quoted

/-- Nothing but blank characters. -/
def IsBlanks (cs : List Char) : Prop :=
  ∀ c ∈ cs, isBlank c = true

theorem isBlanks_nil : IsBlanks [] := by
  simp [IsBlanks]

theorem IsBlanks.cons {c : Char} {ws : List Char} (hc : isBlank c = true) (h : IsBlanks ws) :
    IsBlanks (c :: ws) :=
  List.forall_mem_cons.2 ⟨hc, h⟩

namespace StringList

/-- Quoted strings with a comma between each two, and blanks around the commas. -/
inductive Elements : List (List Char) → List Char → Prop
  | single {q : List Char} (hq : Quoted.IsQuoted q) : Elements [q] q
  | cons {q ws ws' es : List Char} {qs : List (List Char)} (hq : Quoted.IsQuoted q)
      (hws : IsBlanks ws) (hws' : IsBlanks ws') (h : Elements qs es) :
      Elements (q :: qs) (q ++ (ws ++ ',' :: (ws' ++ es)))

/-- The given quoted strings between brackets: `[ ws* (quoted (ws* , ws* quoted)*)? ws* ]`. -/
inductive Written : List (List Char) → List Char → Prop
  | empty {ws : List Char} (hws : IsBlanks ws) : Written [] ('[' :: (ws ++ [']']))
  | list {ws ws' es : List Char} {qs : List (List Char)} (hws : IsBlanks ws) (h : Elements qs es)
      (hws' : IsBlanks ws') : Written qs ('[' :: (ws ++ (es ++ (ws' ++ [']']))))

end StringList

namespace Lexeme

open Quoted StringList

/-! ### Quoted strings -/

theorem closingQuote_inside {body : List Char} (h : Inside body) (rest : List Char) :
    closingQuote (body ++ '"' :: rest) = some (body.length + 1) := by
  induction h with
  | nil => rfl
  | escaped c _ ih => simp [closingQuote, ih]
  | plain hquote hslash _ ih =>
    rw [List.cons_append, closingQuote, ih]
    · rfl
    · exact hquote
    · intro d ds hd
      exact absurd hd hslash

theorem exists_inside_of_closingQuote {cs : List Char} {n : Nat} (h : closingQuote cs = some n) :
    ∃ body, Inside body ∧ cs.take n = body ++ ['"'] := by
  fun_induction closingQuote cs generalizing n with
  | case1 => contradiction
  | case2 cs => cases h; exact ⟨[], .nil, rfl⟩
  | case3 c cs ih =>
    obtain ⟨m, hm, rfl⟩ := Option.map_eq_some_iff.1 h
    obtain ⟨body, hbody, htake⟩ := ih hm
    exact ⟨'\\' :: c :: body, .escaped c hbody, by simp [htake]⟩
  | case4 c cs hquote hslash ih =>
    obtain ⟨m, hm, rfl⟩ := Option.map_eq_some_iff.1 h
    obtain ⟨body, hbody, htake⟩ := ih hm
    -- a backslash with nothing behind it is followed by no quote
    have hne : c ≠ '\\' := by
      rintro rfl
      cases cs with
      | nil => contradiction
      | cons d ds => exact hslash d ds rfl rfl
    exact ⟨c :: body, .plain hquote hne hbody, by simp [htake]⟩

theorem quoted_append {q : List Char} (h : IsQuoted q) (rest : List Char) :
    quoted (q ++ rest) = some q.length := by
  obtain ⟨h⟩ := h
  simp [quoted, closingQuote_inside h]

/-! ### String lists -/

theorem ne_of_isBlank {c d : Char} (hc : isBlank c = true) (hd : isBlank d = false) : c ≠ d := by
  rintro rfl
  rw [hc] at hd
  contradiction

/-- Between the elements of a list blanks are passed over. -/
theorem closingBracket_blanks {p : ListPlace} (hin : p ≠ .inside) (hesc : p ≠ .escaped)
    {ws : List Char} (h : IsBlanks ws) (rest : List Char) :
    closingBracket p (ws ++ rest) = (closingBracket p rest).map (· + ws.length) := by
  induction ws with
  | nil => simp
  | cons c ws ih =>
    obtain ⟨hc, hws⟩ := List.forall_mem_cons.1 h
    have hbracket : c ≠ ']' := ne_of_isBlank hc (by decide)
    have hquote : c ≠ '"' := ne_of_isBlank hc (by decide)
    have hcomma : c ≠ ',' := ne_of_isBlank hc (by decide)
    have hstep : closingBracket p (c :: (ws ++ rest)) =
        (closingBracket p (ws ++ rest)).map (· + 1) := by
      cases p <;> simp_all [closingBracket]
    rw [List.cons_append, hstep, ih hws, Option.map_map]
    rfl

/-- From inside an element a string leads behind its quote. -/
theorem closingBracket_inside {body : List Char} (h : Inside body) (rest : List Char) :
    closingBracket .inside (body ++ '"' :: rest) =
      (closingBracket .after rest).map (· + (body.length + 1)) := by
  induction h with
  | nil => simp [closingBracket]
  | escaped c _ ih => simp [closingBracket, ih, Option.map_map, Function.comp_def, Nat.add_assoc]
  | plain hquote hslash _ ih =>
    simp [closingBracket, hquote, hslash, ih, Option.map_map, Function.comp_def, Nat.add_assoc]

/-- Where an element may stand, a quoted string leads behind it. -/
theorem closingBracket_quoted {p : ListPlace} (hp : p = .opened ∨ p = .separated) {q : List Char}
    (h : IsQuoted q) (rest : List Char) :
    closingBracket p (q ++ rest) = (closingBracket .after rest).map (· + q.length) := by
  obtain ⟨h⟩ := h
  rcases hp with rfl | rfl <;>
    simp [closingBracket, closingBracket_inside h, Option.map_map, Function.comp_def, Nat.add_assoc]

theorem closingBracket_elements {p : ListPlace} (hp : p = .opened ∨ p = .separated)
    {qs : List (List Char)} {es : List Char} (h : Elements qs es) (rest : List Char) :
    closingBracket p (es ++ rest) = (closingBracket .after rest).map (· + es.length) := by
  induction h generalizing p with
  | single hq => exact closingBracket_quoted hp hq rest
  | @cons q ws ws' es qs hq hws hws' _ ih =>
    have hcomma : closingBracket .after (',' :: (ws' ++ (es ++ rest))) =
        (closingBracket .separated (ws' ++ (es ++ rest))).map (· + 1) := by
      simp [closingBracket]
    simp only [List.append_assoc, List.cons_append]
    rw [closingBracket_quoted hp hq, closingBracket_blanks (by decide) (by decide) hws, hcomma,
      closingBracket_blanks (by decide) (by decide) hws', ih (.inr rfl)]
    simp only [Option.map_map, List.length_append, List.length_cons]
    congr 1
    funext n
    simp only [Function.comp_apply]
    omega

theorem stringList_append {qs : List (List Char)} {l : List Char} (h : Written qs l)
    (rest : List Char) : stringList (l ++ rest) = some l.length := by
  cases h with
  | empty hws =>
    simp only [List.cons_append, List.append_assoc, stringList]
    rw [closingBracket_blanks (by decide) (by decide) hws]
    simp [closingBracket]
    omega
  | list hws hes hws' =>
    simp only [List.cons_append, List.append_assoc, stringList]
    rw [closingBracket_blanks (by decide) (by decide) hws, closingBracket_elements (.inl rfl) hes,
      closingBracket_blanks (by decide) (by decide) hws']
    simp [closingBracket]
    omega

/-- Elements with blanks around them, up to the closing bracket. -/
def Members (cs : List Char) : Prop :=
  ∃ ws qs es ws', IsBlanks ws ∧ Elements qs es ∧ IsBlanks ws' ∧ cs = ws ++ (es ++ (ws' ++ [']']))

/-- What follows an element: the closing bracket, or a comma and more elements. -/
def Behind (cs : List Char) : Prop :=
  ∃ ws, IsBlanks ws ∧ (cs = ws ++ [']'] ∨ ∃ ds, Members ds ∧ cs = ws ++ ',' :: ds)

/-- The rest of an element and what follows it. -/
def Within (cs : List Char) : Prop :=
  ∃ body ds, Inside body ∧ Behind ds ∧ cs = body ++ '"' :: ds

/-- What leads from a place inside a string list to its closing bracket. -/
def Leads : ListPlace → List Char → Prop
  | .opened, cs => ∃ qs, Written qs ('[' :: cs)
  | .inside, cs => Within cs
  | .escaped, cs => ∃ c ds, Within ds ∧ cs = c :: ds
  | .after, cs => Behind cs
  | .separated, cs => Members cs

/-- An element with what follows it is a list of elements. -/
theorem members_of_within {cs : List Char} (h : Within cs) : Members ('"' :: cs) := by
  obtain ⟨body, ds, hbody, ⟨ws, hws, hds⟩, rfl⟩ := h
  have hq := IsQuoted.mk hbody
  rcases hds with rfl | ⟨ds, ⟨ws₁, qs, es, ws₂, hws₁, hes, hws₂, rfl⟩, rfl⟩
  · exact ⟨[], _, _, ws, isBlanks_nil, .single hq, hws, by simp⟩
  · exact ⟨[], _, _, ws₂, isBlanks_nil, .cons hq hws hws₁ hes, hws₂, by simp⟩

theorem Members.blank {c : Char} {cs : List Char} (hc : isBlank c = true) (h : Members cs) :
    Members (c :: cs) := by
  obtain ⟨ws, qs, es, ws', hws, hes, hws', rfl⟩ := h
  exact ⟨c :: ws, qs, es, ws', hws.cons hc, hes, hws', rfl⟩

theorem leads_of_closingBracket {p : ListPlace} {cs : List Char} {n : Nat}
    (h : closingBracket p cs = some n) : Leads p (cs.take n) := by
  fun_induction closingBracket p cs generalizing n with
  | case1 | case5 | case13 | case16 => contradiction
  | case2 cs => cases h; exact ⟨[], @Written.empty [] isBlanks_nil⟩
  | case3 cs _ ih =>
    obtain ⟨m, hm, rfl⟩ := Option.map_eq_some_iff.1 h
    obtain ⟨ws, qs, es, ws', hws, hes, hws', heq⟩ := members_of_within (ih hm)
    refine ⟨qs, ?_⟩
    rw [List.take_succ_cons, heq]
    exact .list hws hes hws'
  | case4 c cs _ _ hc ih =>
    obtain ⟨m, hm, rfl⟩ := Option.map_eq_some_iff.1 h
    obtain ⟨qs, hqs⟩ := ih hm
    refine ⟨qs, ?_⟩
    rw [List.take_succ_cons]
    generalize cs.take m = ds at hqs
    cases hqs with
    | empty hws => exact .empty (hws.cons hc)
    | list hws hes hws' => exact .list (hws.cons hc) hes hws'
  | case6 cs ih =>
    obtain ⟨m, hm, rfl⟩ := Option.map_eq_some_iff.1 h
    exact ⟨[], _, .nil, ih hm, rfl⟩
  | case7 cs _ ih =>
    obtain ⟨m, hm, rfl⟩ := Option.map_eq_some_iff.1 h
    obtain ⟨c, ds, ⟨body, es, hbody, hes, rfl⟩, heq⟩ := ih hm
    exact ⟨'\\' :: c :: body, es, .escaped c hbody, hes, by rw [List.take_succ_cons, heq]; rfl⟩
  | case8 c cs hquote hslash ih =>
    obtain ⟨m, hm, rfl⟩ := Option.map_eq_some_iff.1 h
    obtain ⟨body, es, hbody, hes, heq⟩ := ih hm
    exact ⟨c :: body, es, .plain hquote hslash hbody, hes, by rw [List.take_succ_cons, heq]; rfl⟩
  | case9 c cs ih =>
    obtain ⟨m, hm, rfl⟩ := Option.map_eq_some_iff.1 h
    exact ⟨c, _, ih hm, rfl⟩
  | case10 cs => cases h; exact ⟨[], isBlanks_nil, .inl rfl⟩
  | case11 cs _ ih =>
    obtain ⟨m, hm, rfl⟩ := Option.map_eq_some_iff.1 h
    exact ⟨[], isBlanks_nil, .inr ⟨_, ih hm, rfl⟩⟩
  | case12 c cs _ _ hc ih =>
    obtain ⟨m, hm, rfl⟩ := Option.map_eq_some_iff.1 h
    obtain ⟨ws, hws, hds⟩ := ih hm
    rw [List.take_succ_cons]
    refine ⟨c :: ws, hws.cons hc, ?_⟩
    rcases hds with heq | ⟨ds, hds, heq⟩
    · exact .inl (by rw [heq]; rfl)
    · exact .inr ⟨ds, hds, by rw [heq]; rfl⟩
  | case14 cs ih =>
    obtain ⟨m, hm, rfl⟩ := Option.map_eq_some_iff.1 h
    exact members_of_within (ih hm)
  | case15 c cs _ hc ih =>
    obtain ⟨m, hm, rfl⟩ := Option.map_eq_some_iff.1 h
    exact (ih hm).blank hc

theorem exists_written_of_stringList {cs : List Char} {n : Nat} (h : stringList cs = some n) :
    ∃ qs, Written qs (cs.take n) := by
  unfold stringList at h
  split at h
  · obtain ⟨m, hm, rfl⟩ := Option.map_eq_some_iff.1 h
    exact leads_of_closingBracket hm
  · contradiction

end Lexeme

end SieveScript
