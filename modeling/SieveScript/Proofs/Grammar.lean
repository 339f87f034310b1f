import SieveScript.Proofs.Shape

/-!
# The grammar of scripts

`Derives` is the grammar that reading follows, over the symbols of a script without its comments:

* a script is a list of items, and an item is an action with arguments and a semicolon, or a
  conditional with at most one test and a block of items;
* a test is a leaf with arguments, `not` with arguments and at most one test, or `allof` or `anyof`
  with arguments and, in parentheses, elements with commas between them, behind which arguments may
  stand again;
* an element is a list of arguments and at most one test.

The arguments of a test, and of an active `deleteheader`, have to be `Admissible`. What is derived
can be read (`Shape.accepts_of_derives`). For the other direction, `Shape.Completes` says what may follow
where something is open: each symbol that is read can be put in front of what completes the state
behind it (`Shape.completes_of_step`), and whatever is open can be completed, so what can be read is what
begins a derivable sequence (`Shape.run_isSome_iff`).
-/

namespace SieveScript

/-! ### Terminals -/

namespace Argument

/-- Each argument may arrive while those before it wait. -/
def Admissible : List Argument → List Argument → Prop
  | _, [] => True
  | ws, a :: as => Fits ws a ∧ Admissible (buffer ws a) as

end Argument

namespace Vocabulary

/-- The word has an active definition, of a test. -/
def IsActiveTest (v : Vocabulary) (w : String) : Prop :=
  ∃ d, v.find? w = some d ∧ d.prototype.isTest = true

/-- The word has an active definition, of an action. -/
def IsActiveCommand (v : Vocabulary) (w : String) : Prop :=
  ∃ d, v.find? w = some d ∧ d.prototype.isTest = false

/-- The word is an action where a command may stand. -/
def IsAction (v : Vocabulary) (w : String) : Prop :=
  w ∉ conditionalWords ∧ ¬ v.IsActiveTest w

/-- The word is a test without tests inside it where a test may stand. -/
def IsLeaf (v : Vocabulary) (w : String) : Prop :=
  w ∉ conditionalWords ∧ w ∉ ["not", "allof", "anyof"] ∧ ¬ v.IsActiveCommand w

/-- The word is an action that takes match types and comparators: only `deleteheader` is one. -/
def TakesMatching (v : Vocabulary) (w : String) : Prop :=
  w = "deleteheader" ∧ (v.find? w).isSome = true

end Vocabulary

/-! ### Derivations -/

/-- What the symbols of a script are derived from: the items of a script or a block, a test, at most one
test, and what stands in the parentheses of `allof` or `anyof`. -/
inductive Nonterminal where
  | items
  | test
  | optionalTest
  | elements

/-- The grammar of scripts: the symbols are derived from the nonterminal. -/
inductive Derives (v : Vocabulary) : Nonterminal → List Symbol → Prop
  | nil : Derives v .items []
  | action {w : String} {args : List Argument} {is : List Symbol} (word : v.IsAction w)
      (admissible : v.TakesMatching w → Argument.Admissible [] args) (rest : Derives v .items is) :
      Derives v .items (.word w :: args.map .argument ++ .semicolon :: is)
  | conditional {w : String} {t block is : List Symbol} (word : w ∈ Vocabulary.conditionalWords)
      (test : Derives v .optionalTest t) (items : Derives v .items block) (rest : Derives v .items is) :
      Derives v .items (.word w :: t ++ .blockStart :: block ++ .blockEnd :: is)
  | leaf {w : String} {args : List Argument} (word : v.IsLeaf w)
      (admissible : Argument.Admissible [] args) : Derives v .test (.word w :: args.map .argument)
  | negation {args : List Argument} {t : List Symbol} (admissible : Argument.Admissible [] args)
      (test : Derives v .optionalTest t) :
      Derives v .test (.word "not" :: args.map .argument ++ t)
  | bare {w : String} {args : List Argument} (word : w = "allof" ∨ w = "anyof")
      (admissible : Argument.Admissible [] args) : Derives v .test (.word w :: args.map .argument)
  | group {w : String} {args after : List Argument} {es : List Symbol} (word : w = "allof" ∨ w = "anyof")
      (admissible : Argument.Admissible [] args) (elements : Derives v .elements es)
      (admissible' : Argument.Admissible [] after) :
      Derives v .test (.word w :: args.map .argument ++ .leftParen :: es ++
        .rightParen :: after.map .argument)
  | none : Derives v .optionalTest []
  | some {t : List Symbol} (test : Derives v .test t) : Derives v .optionalTest t
  | last {args : List Argument} {t : List Symbol} (admissible : Argument.Admissible [] args)
      (test : Derives v .optionalTest t) : Derives v .elements (args.map .argument ++ t)
  | cons {args : List Argument} {t es : List Symbol} (admissible : Argument.Admissible [] args)
      (test : Derives v .optionalTest t) (rest : Derives v .elements es) :
      Derives v .elements (args.map .argument ++ t ++ .comma :: es)

/-! ### Words of the standard vocabularies -/

/-- The action that the prototype describes takes match types and comparators. -/
def Prototype.takesMatching : Prototype → Bool
  | action a => a.matching?.isSome
  | _ => false

/-- The words of the grammar mean what they should, and no others do. -/
structure Vocabulary.Standard (v : Vocabulary) : Prop where
  negation : ∀ w d, v.find? w = some d →
    (Tip.ofPrototype? d.prototype = some .negation ↔ w = "not")
  group : ∀ w d, v.find? w = some d →
    (Tip.ofPrototype? d.prototype = some (.group .missing) ↔ w = "allof" ∨ w = "anyof")
  matching : ∀ w d, v.find? w = some d → (d.prototype.takesMatching = true ↔ w = "deleteheader")
  known : ∀ w ∈ ["not", "allof", "anyof"], (v.find? w).isSome = true

/-- Where a test may stand, the word opens a test of this kind. -/
def Vocabulary.Opens (v : Vocabulary) (w : String) : Tip → Prop
  | .leaf => v.IsLeaf w
  | .negation => w = "not"
  | .group p => p = .missing ∧ (w = "allof" ∨ w = "anyof")

namespace Vocabulary

theorem standard_ofCapabilities (caps : List String) : (ofCapabilities caps).Standard := by
  have hmem : ∀ w d, (ofCapabilities caps).find? w = some d → d ∈ Definition.all ∧ d.word = w := by
    intro w d hd
    have hall := (List.mem_filter.1 (List.mem_of_find?_eq_some hd)).1
    have hword := List.find?_some hd
    exact ⟨hall, by simpa using hword⟩
  have hall : ∀ d ∈ Definition.all,
      (Tip.ofPrototype? d.prototype = some .negation ↔ d.word = "not") ∧
      (Tip.ofPrototype? d.prototype = some (.group .missing) ↔ d.word = "allof" ∨ d.word = "anyof") ∧
      (d.prototype.takesMatching = true ↔ d.word = "deleteheader") := by
    decide
  refine ⟨fun w d hd => ?_, fun w d hd => ?_, fun w d hd => ?_, fun w hw => ?_⟩
  · obtain ⟨hm, rfl⟩ := hmem w d hd
    exact (hall d hm).1
  · obtain ⟨hm, rfl⟩ := hmem w d hd
    exact (hall d hm).2.1
  · obtain ⟨hm, rfl⟩ := hmem w d hd
    exact (hall d hm).2.2
  · rw [find?, List.find?_isSome]
    have hfree : ∃ d ∈ Definition.all, d.requires = [] ∧ d.word = w := by
      revert w
      decide
    obtain ⟨d, hd, hrequires, hword⟩ := hfree
    exact ⟨d, List.mem_filter.2 ⟨hd, by simp [Definition.isActive, hrequires]⟩, by simp [hword]⟩

variable {v : Vocabulary} {w : String}

theorem meaning_of_mem (h : w ∈ conditionalWords) : v.meaning w = .conditional := by
  rw [meaning, if_pos (List.contains_iff_mem.2 h)]

theorem meaning_of_not_mem (h : w ∉ conditionalWords) :
    v.meaning w = match v.find? w with
      | some d => .defined d
      | none => .unknown := by
  rw [meaning]
  exact if_neg (by simpa using h)

theorem mem_of_meaning_eq_conditional (h : v.meaning w = .conditional) : w ∈ conditionalWords := by
  by_contra hw
  rw [meaning_of_not_mem hw] at h
  split at h <;> contradiction

theorem isAction_iff : v.IsAction w ↔ ∃ a, v.Denotes w (.action a) := by
  by_cases hw : w ∈ conditionalWords
  · simp [IsAction, Denotes, hw, meaning_of_mem hw]
  rw [IsAction, IsActiveTest]
  simp only [Denotes, meaning_of_not_mem hw, hw, not_false_eq_true, true_and]
  cases hd : v.find? w with
  | none => simp
  | some d =>
    cases hp : d.prototype <;> simp [hp, Prototype.isTest]

theorem takesMatching_iff (hv : v.Standard) {a : Action} (h : v.Denotes w (.action a)) :
    a.matching?.isSome = true ↔ v.TakesMatching w := by
  have hw : w ∉ conditionalWords := fun hw => by simp [Denotes, meaning_of_mem hw] at h
  rw [TakesMatching]
  rw [Denotes, meaning_of_not_mem hw] at h
  cases hd : v.find? w with
  | none =>
    rw [hd] at h
    rcases h with h | h <;> cases h
    simp [Action.matching?]
  | some d =>
    rw [hd] at h
    have hm := hv.matching w d hd
    rw [h] at hm
    rw [Prototype.takesMatching] at hm
    simp [hm]

theorem opens_iff_of_find? (hv : v.Standard) {d : Definition} (hw : w ∉ conditionalWords)
    (hd : v.find? w = some d) {tip : Tip} :
    v.Opens w tip ↔ Tip.ofPrototype? d.prototype = some tip := by
  have hneg := hv.negation w d hd
  have hgroup := hv.group w d hd
  cases tip with
  | negation => exact hneg.symm
  | group p =>
    rw [Opens, ← hgroup]
    cases d.prototype <;> simp [Tip.ofPrototype?, eq_comm]
  | leaf =>
    have hcommand : v.IsActiveCommand w ↔ Tip.ofPrototype? d.prototype = none := by
      rw [IsActiveCommand, hd]
      cases hp : d.prototype <;> simp [hp, Prototype.isTest, Tip.ofPrototype?]
    simp only [Opens, IsLeaf, hw, hcommand, List.mem_cons, List.not_mem_nil, or_false, not_or,
      not_false_eq_true, true_and]
    rw [← hneg, ← not_or, ← hgroup]
    cases d.prototype <;> simp [Tip.ofPrototype?]

theorem opens_iff (hv : v.Standard) {tip : Tip} :
    v.Opens w tip ↔ ∃ p, v.Denotes w p ∧ Tip.ofPrototype? p = some tip := by
  by_cases hw : w ∈ conditionalWords
  · simp only [Denotes, meaning_of_mem hw, false_and, exists_false, iff_false]
    cases tip with
    | leaf => exact fun h => h.1 hw
    | negation =>
      rintro rfl
      simp [conditionalWords] at hw
    | group p => rintro ⟨-, rfl | rfl⟩ <;> simp [conditionalWords] at hw
  cases hd : v.find? w with
  | some d => simp [opens_iff_of_find? hv hw hd, Denotes, meaning_of_not_mem hw, hd]
  | none =>
    have hknown : w ∉ ["not", "allof", "anyof"] := by
      intro hmem
      have := hv.known w hmem
      simp [hd] at this
    have hcommand : ¬ v.IsActiveCommand w := by simp [IsActiveCommand, hd]
    have hp : (∃ p, v.Denotes w p ∧ Tip.ofPrototype? p = some tip) ↔ tip = .leaf := by
      simp [Denotes, meaning_of_not_mem hw, hd, or_and_right, exists_or, Tip.ofPrototype?, eq_comm]
    rw [hp]
    cases tip with
    | leaf => simpa using ⟨hw, hknown, hcommand⟩
    | negation =>
      simp only [reduceCtorEq, iff_false]
      rintro rfl
      simp at hknown
    | group p =>
      simp only [reduceCtorEq, iff_false]
      rintro ⟨-, rfl | rfl⟩ <;> simp at hknown

end Vocabulary

namespace Shape
variable {v : Vocabulary} {x x' : Shape} {w : String}

theorem slot?_of_free (h : x.statement = none) : x.slot? = none := by
  rw [slot?, h]

theorem cases_of_start (hv : v.Standard) {p : Prototype} (hp : v.Denotes w p)
    (h : x.start p = some x') :
    (x.statement = none ∧ v.IsAction w ∧ ∃ b, (b = true ↔ v.TakesMatching w) ∧
        x' = { x with statement := some (.action b []) }) ∨
      ∃ outer tip, x.slot? = some outer ∧ v.Opens w tip ∧
        x' = { x with statement := some (.test outer tip []) } := by
  cases htip : Tip.ofPrototype? p with
  | none =>
    cases p with
    | action a =>
      rw [start] at h
      split at h
      next hfree =>
        cases h
        exact .inl ⟨hfree, Vocabulary.isAction_iff.2 ⟨a, hp⟩, _, Vocabulary.takesMatching_iff hv hp, rfl⟩
      · contradiction
    | _ => contradiction
  | some tip =>
    rw [start_of_tip htip] at h
    obtain ⟨outer, hslot, rfl⟩ := Option.map_eq_some_iff.1 h
    exact .inr ⟨outer, tip, hslot, (Vocabulary.opens_iff hv).2 ⟨p, hp, htip⟩, rfl⟩

theorem word_eq_some_iff (hv : v.Standard) :
    x.word v w = some x' ↔
      x.statement = none ∧
        (w ∈ Vocabulary.conditionalWords ∧ x' = { x with statement := some .conditional } ∨
          v.IsAction w ∧ ∃ b, (b = true ↔ v.TakesMatching w) ∧
            x' = { x with statement := some (.action b []) }) ∨
      ∃ outer tip, x.slot? = some outer ∧ v.Opens w tip ∧
        x' = { x with statement := some (.test outer tip []) } := by
  constructor
  · intro h
    have hcases : ∀ p, v.Denotes w p → x.start p = some x' → _ := fun p => cases_of_start hv
    rw [word] at h
    split at h
    next hm =>
      split at h
      next hfree =>
        cases h
        exact .inl ⟨hfree, .inl ⟨Vocabulary.mem_of_meaning_eq_conditional hm, rfl⟩⟩
      · contradiction
    next d hm =>
      have hp := Vocabulary.denotes_of_defined hm
      exact (hcases _ hp h).imp_left fun h => ⟨h.1, .inr h.2⟩
    next hm =>
      have hp := Vocabulary.denotes_placeholder hm x.slot?.isSome
      exact (hcases _ hp h).imp_left fun h => ⟨h.1, .inr h.2⟩
  · rintro (⟨hfree, ⟨hw, rfl⟩ | ⟨hw, b, hb, rfl⟩⟩ | ⟨outer, tip, hslot, htip, rfl⟩)
    · rw [word, Vocabulary.meaning_of_mem hw, hfree]
      rfl
    · obtain ⟨a, ha⟩ := Vocabulary.isAction_iff.1 hw
      have hab : a.matching?.isSome = b := by
        rw [Bool.eq_iff_iff, hb, Vocabulary.takesMatching_iff hv ha]
      rw [word_eq_start ha fun _ => by rw [slot?_of_free hfree]; rfl, start, if_pos hfree, hab]
    · obtain ⟨p, hp, htip⟩ := (Vocabulary.opens_iff hv).1 htip
      rw [word_eq_start hp fun _ => ?_, start_of_tip htip, hslot]
      · rfl
      · rw [hslot]
        cases p <;> first | contradiction | rfl

/-! ### What is derived can be read -/

/-- Behind a test that stands inside the given ones: nothing but negations is open around it. -/
def Behind (n : Nat) (outer : List Frame) (x : Shape) : Prop :=
  ∃ negations tip ws, x = ⟨n, some (.test (negations ++ outer) tip ws)⟩ ∧
    (∀ f ∈ negations, f = .negation) ∧ tip ≠ .group .opened

/-- The symbols are read as one test wherever a test may stand. -/
def AcceptsTest (v : Vocabulary) (ys : List Symbol) : Prop :=
  ∀ x outer, x.slot? = some outer → ∃ x', run v x ys = some x' ∧ Behind x.blocks outer x'

/-- The symbols are read as what the nonterminal stands for. -/
def Accepts (v : Vocabulary) : Nonterminal → List Symbol → Prop
  | .items, ys => ∀ n, run v ⟨n, none⟩ ys = some ⟨n, none⟩
  | .test, ys => AcceptsTest v ys
  | .optionalTest, ys => ys = [] ∨ AcceptsTest v ys
  | .elements, ys => ∀ n outer, run v ⟨n, some (.test outer (.group .opened) [])⟩ (ys ++ [.rightParen]) =
      some ⟨n, some (.test outer (.group .closed) [])⟩

theorem run_singleton (y : Symbol) : run v x [y] = x.step v y := by
  rw [run]
  cases x.step v y <;> rfl

theorem run_cons {y : Symbol} (h : x.step v y = some x') (ys : List Symbol) :
    run v x (y :: ys) = run v x' ys := by
  rw [run, h, Option.bind_some]

theorem run_append_of_run {xs : List Symbol} (h : run v x xs = some x') (ys : List Symbol) :
    run v x (xs ++ ys) = run v x' ys := by
  rw [run_append, h, Option.bind_some]

theorem run_arguments (n : Nat) (outer : List Frame) (tip : Tip) {ws args : List Argument}
    (h : Argument.Admissible ws args) :
    ∃ ws', run v ⟨n, some (.test outer tip ws)⟩ (args.map .argument) =
      some ⟨n, some (.test outer tip ws')⟩ := by
  induction args generalizing ws with
  | nil => exact ⟨ws, rfl⟩
  | cons a args ih =>
    obtain ⟨hfits, hrest⟩ := h
    obtain ⟨ws', hrun⟩ := ih hrest
    have hstep : step v ⟨n, some (.test outer tip ws)⟩ (.argument a) =
        some ⟨n, some (.test outer tip (Argument.buffer ws a))⟩ := if_pos hfits
    exact ⟨ws', (run_cons hstep _).trans hrun⟩

theorem run_action_arguments {n : Nat} {b : Bool} {ws args : List Argument}
    (h : b = true → Argument.Admissible ws args) :
    ∃ ws', run v ⟨n, some (.action b ws)⟩ (args.map .argument) = some ⟨n, some (.action b ws')⟩ := by
  induction args generalizing ws with
  | nil => exact ⟨ws, rfl⟩
  | cons a args ih =>
    cases b with
    | false =>
      obtain ⟨ws', hrun⟩ := @ih (ws ++ [a]) (by simp)
      exact ⟨ws', (run_cons rfl _).trans hrun⟩
    | true =>
      obtain ⟨hfits, hrest⟩ := h rfl
      obtain ⟨ws', hrun⟩ := ih fun _ => hrest
      have hstep : step v ⟨n, some (.action true ws)⟩ (.argument a) =
          some ⟨n, some (.action true (Argument.buffer ws a))⟩ := if_pos hfits
      exact ⟨ws', (run_cons hstep _).trans hrun⟩

theorem atGroup_of_ne {n : Nat} {outer : List Frame} {tip : Tip} {ws : List Argument} {p : Parens}
    (h : tip ≠ .group .opened) :
    atGroup ⟨n, some (.test outer tip ws)⟩ p =
      (Frame.climb outer).map fun outer => ⟨n, some (.test outer (.group p) [])⟩ := by
  rcases tip with _ | _ | _ | _ | _ <;> first | contradiction | rfl

namespace Behind
variable {n : Nat} {outer : List Frame}

theorem of_tip {tip : Tip} (h : tip ≠ .group .opened) (ws : List Argument) :
    Behind n outer ⟨n, some (.test outer tip ws)⟩ :=
  ⟨[], tip, ws, rfl, by simp, h⟩

theorem of_negation (h : Behind n (.negation :: outer) x) : Behind n outer x := by
  obtain ⟨negations, tip, ws, rfl, hneg, htip⟩ := h
  refine ⟨negations ++ [.negation], tip, ws, by simp, ?_, htip⟩
  intro f hf
  rcases List.mem_append.1 hf with hf | hf
  · exact hneg f hf
  · exact List.mem_singleton.1 hf

theorem blockStart (h : Behind n [] x) : x.step v .blockStart = some ⟨n + 1, none⟩ := by
  obtain ⟨negations, tip, ws, rfl, hneg, htip⟩ := h
  have hmem : .group ∉ tip.frame?.toList ++ (negations ++ []) := by
    intro hmem
    rw [List.append_nil, List.mem_append] at hmem
    rcases hmem with hmem | hmem
    · rcases tip with _ | _ | p
      · simp [Tip.frame?] at hmem
      · simp [Tip.frame?] at hmem
      · cases p <;> simp [Tip.frame?] at hmem htip
    · have := hneg _ hmem
      contradiction
  exact if_neg hmem

theorem atGroup (h : Behind n (.group :: outer) x) (p : Parens) :
    x.atGroup p = some ⟨n, some (.test outer (.group p) [])⟩ := by
  obtain ⟨negations, tip, ws, rfl, hneg, htip⟩ := h
  have hclimb : Frame.climb (negations ++ .group :: outer) = some outer := by
    induction negations with
    | nil => rfl
    | cons f negations ih =>
      obtain rfl : f = .negation := hneg f (by simp)
      exact ih fun f hf => hneg f (by simp [hf])
  rw [atGroup_of_ne htip, hclimb, Option.map_some]

end Behind

theorem run_test (hv : v.Standard) {outer : List Frame} {args : List Argument}
    (hslot : x.slot? = some outer) (tip : Tip) (hw : v.Opens w tip) (hargs : Argument.Admissible [] args) :
    ∃ ws, run v x (.word w :: args.map .argument) = some ⟨x.blocks, some (.test outer tip ws)⟩ := by
  have hword : x.step v (.word w) = some ⟨x.blocks, some (.test outer tip [])⟩ :=
    (word_eq_some_iff hv).2 (.inr ⟨outer, tip, hslot, hw, rfl⟩)
  rw [run_cons hword]
  exact run_arguments x.blocks outer tip hargs

/-- An element of a group, up to the comma or the parenthesis behind it. -/
theorem run_element (n : Nat) (outer : List Frame) {args : List Argument} {t : List Symbol}
    (hargs : Argument.Admissible [] args) (ht : Accepts v .optionalTest t) (p : Parens) :
    ∃ x', run v ⟨n, some (.test outer (.group .opened) [])⟩ (args.map .argument ++ t) = some x' ∧
      x'.atGroup p = some ⟨n, some (.test outer (.group p) [])⟩ := by
  obtain ⟨ws, hrun⟩ := run_arguments (v := v) n outer (.group .opened) hargs
  rw [run_append_of_run hrun]
  rcases ht with rfl | ht
  · exact ⟨_, rfl, rfl⟩
  · obtain ⟨x', hrun', hx⟩ := ht ⟨n, some (.test outer (.group .opened) ws)⟩ (.group :: outer) rfl
    exact ⟨x', hrun', hx.atGroup p⟩

theorem run_action (hv : v.Standard) (n : Nat) {args : List Argument} (hw : v.IsAction w)
    (hargs : v.TakesMatching w → Argument.Admissible [] args) :
    ∃ x', run v ⟨n, none⟩ (.word w :: args.map .argument) = some x' ∧
      x'.step v .semicolon = some ⟨n, none⟩ := by
  obtain ⟨b, hb⟩ : ∃ b : Bool, b = true ↔ v.TakesMatching w := by
    by_cases h : v.TakesMatching w
    · exact ⟨true, by simp [h]⟩
    · exact ⟨false, by simp [h]⟩
  have hword : step v ⟨n, none⟩ (.word w) = some ⟨n, some (.action b [])⟩ :=
    (word_eq_some_iff hv).2 (.inl ⟨rfl, .inr ⟨hw, b, hb, rfl⟩⟩)
  obtain ⟨ws, hrun⟩ := run_action_arguments (v := v) (n := n) fun h => hargs (hb.1 h)
  exact ⟨_, (run_cons hword _).trans hrun, rfl⟩

theorem run_condition (hv : v.Standard) (n : Nat) {t : List Symbol}
    (hw : w ∈ Vocabulary.conditionalWords) (ht : Accepts v .optionalTest t) :
    ∃ x', run v ⟨n, none⟩ (.word w :: t) = some x' ∧ x'.step v .blockStart = some ⟨n + 1, none⟩ := by
  have hword : step v ⟨n, none⟩ (.word w) = some ⟨n, some .conditional⟩ :=
    (word_eq_some_iff hv).2 (.inl ⟨rfl, .inl ⟨hw, rfl⟩⟩)
  rw [run_cons hword]
  rcases ht with rfl | ht
  · exact ⟨_, rfl, rfl⟩
  · obtain ⟨x', hrun, hx⟩ := ht ⟨n, some .conditional⟩ [] rfl
    exact ⟨x', hrun, hx.blockStart⟩

/-- What is derived from a nonterminal is read as what it stands for. -/
theorem accepts_of_derives (hv : v.Standard) {N : Nonterminal} {ys : List Symbol}
    (h : Derives v N ys) : Accepts v N ys := by
  induction h with
  | nil => exact fun n => rfl
  | @action w args is word admissible rest ih =>
    intro n
    obtain ⟨x', hrun, hx⟩ := run_action hv n word admissible
    rw [run_append_of_run hrun, run_cons hx]
    exact ih n
  | @conditional w t block is word test items rest ihTest ihItems ih =>
    intro n
    obtain ⟨x', hrun, hx⟩ := run_condition hv n word ihTest
    have hend : step v ⟨n + 1, none⟩ .blockEnd = some ⟨n, none⟩ := rfl
    rw [List.append_assoc, run_append_of_run hrun, List.cons_append, run_cons hx,
      run_append_of_run (ihItems (n + 1)), run_cons hend]
    exact ih n
  | leaf word admissible =>
    intro x outer hslot
    obtain ⟨ws, hrun⟩ := run_test hv hslot .leaf word admissible
    exact ⟨_, hrun, .of_tip (by simp) _⟩
  | negation admissible test ih =>
    intro x outer hslot
    obtain ⟨ws, hrun⟩ := run_test hv hslot .negation rfl admissible
    rw [run_append_of_run hrun]
    rcases ih with rfl | ih
    · exact ⟨_, rfl, .of_tip (by simp) _⟩
    · obtain ⟨x', hrun', hx⟩ := ih ⟨x.blocks, some (.test outer .negation ws)⟩ (.negation :: outer) rfl
      exact ⟨x', hrun', hx.of_negation⟩
  | bare word admissible =>
    intro x outer hslot
    obtain ⟨ws, hrun⟩ := run_test hv hslot (.group .missing) ⟨rfl, word⟩ admissible
    exact ⟨_, hrun, .of_tip (by simp) _⟩
  | group word admissible elements admissible' ih =>
    intro x outer hslot
    obtain ⟨ws, hrun⟩ := run_test hv hslot (.group .missing) ⟨rfl, word⟩ admissible
    have hparen : step v ⟨x.blocks, some (.test outer (.group .missing) ws)⟩ .leftParen =
      some ⟨x.blocks, some (.test outer (.group .opened) [])⟩ := rfl
    obtain ⟨ws', hafter⟩ := run_arguments (v := v) x.blocks outer (.group .closed) admissible'
    have hx : Behind x.blocks outer ⟨x.blocks, some (.test outer (.group .closed) ws')⟩ :=
      .of_tip (by simp) ws'
    refine ⟨_, ?_, hx⟩
    rw [List.append_assoc, run_append_of_run hrun, List.cons_append, run_cons hparen,
      List.append_cons, run_append_of_run (ih x.blocks outer)]
    exact hafter
  | none => exact .inl rfl
  | some test ih => exact .inr ih
  | last admissible test ih =>
    intro n outer
    obtain ⟨x', hrun, hx⟩ := run_element n outer admissible ih .closed
    rw [run_append_of_run hrun, run_singleton]
    exact hx
  | cons admissible test rest ihTest ih =>
    intro n outer
    obtain ⟨x', hrun, hx⟩ := run_element n outer admissible ihTest .opened
    have hcomma : step v x' .comma = some ⟨n, some (.test outer (.group .opened) [])⟩ := hx
    rw [List.append_assoc, run_append_of_run hrun, List.cons_append, run_cons hcomma]
    exact ih n outer

end Shape

/-! ### What completes a script that is partly read -/

/-- What may follow where so many blocks are open and nothing else is. -/
def CompletesBlocks (v : Vocabulary) : Nat → List Symbol → Prop
  | 0, zs => Derives v .items zs
  | n + 1, zs => ∃ block rest, zs = block ++ .blockEnd :: rest ∧ Derives v .items block ∧
      CompletesBlocks v n rest

/-- What may follow the open parenthesis of a group, up to the end of the group. -/
def CompletesGroup (v : Vocabulary) (ws : List Argument) (zs : List Symbol) : Prop :=
  ∃ (args after : List Argument) (t others : List Symbol),
    zs = args.map .argument ++ t ++ others ++ .rightParen :: after.map .argument ∧
    Argument.Admissible ws args ∧ Derives v .optionalTest t ∧
    (others = [] ∨ ∃ es, others = .comma :: es ∧ Derives v .elements es) ∧
    Argument.Admissible [] after

/-- What may follow while a test is innermost, up to its end. -/
def CompletesTip (v : Vocabulary) (ws : List Argument) : Tip → List Symbol → Prop
  | .leaf, zs | .group .closed, zs =>
    ∃ args, zs = args.map .argument ∧ Argument.Admissible ws args
  | .negation, zs => ∃ (args : List Argument) (t : List Symbol), zs = args.map .argument ++ t ∧
      Argument.Admissible ws args ∧ Derives v .optionalTest t
  | .group .missing, zs => ∃ (args : List Argument) (rest : List Symbol),
      zs = args.map .argument ++ rest ∧ Argument.Admissible ws args ∧
      (rest = [] ∨ ∃ es, rest = .leftParen :: es ∧ CompletesGroup v [] es)
  | .group .opened, zs => CompletesGroup v ws zs

/-- What may follow a finished test, up to the end of the outermost test around it. -/
def CompletesFrames (v : Vocabulary) : List Frame → List Symbol → Prop
  | [], zs => zs = []
  | .negation :: outer, zs => CompletesFrames v outer zs
  | .group :: outer, zs => ∃ (others : List Symbol) (after : List Argument) (rest : List Symbol),
      zs = others ++ .rightParen :: after.map .argument ++ rest ∧
      (others = [] ∨ ∃ es, others = .comma :: es ∧ Derives v .elements es) ∧
      Argument.Admissible [] after ∧ CompletesFrames v outer rest

/-- What may follow where something of the given shape is open, up to the end of a script. -/
def Shape.Completes (v : Vocabulary) (x : Shape) (zs : List Symbol) : Prop :=
  match x.statement with
  | none => CompletesBlocks v x.blocks zs
  | some (.action b ws) => ∃ (args : List Argument) (rest : List Symbol),
      zs = args.map .argument ++ .semicolon :: rest ∧ (b = true → Argument.Admissible ws args) ∧
      CompletesBlocks v x.blocks rest
  | some .conditional => ∃ t rest, zs = t ++ .blockStart :: rest ∧ Derives v .optionalTest t ∧
      CompletesBlocks v (x.blocks + 1) rest
  | some (.test outer tip ws) => ∃ inside behind rest, zs = inside ++ behind ++ .blockStart :: rest ∧
      CompletesTip v ws tip inside ∧ CompletesFrames v outer behind ∧
      CompletesBlocks v (x.blocks + 1) rest

section
variable {v : Vocabulary} {w : String}

theorem CompletesBlocks.item {n : Nat} {zs : List Symbol} (h : CompletesBlocks v n zs)
    (item : List Symbol) (hitem : ∀ is, Derives v .items is → Derives v .items (item ++ is)) :
    CompletesBlocks v n (item ++ zs) := by
  cases n with
  | zero => exact hitem zs h
  | succ n =>
    obtain ⟨block, rest, rfl, hblock, hrest⟩ := h
    exact ⟨item ++ block, rest, by simp, hitem block hblock, hrest⟩

theorem CompletesGroup.elements {zs : List Symbol} (h : CompletesGroup v [] zs) :
    ∃ (es : List Symbol) (after : List Argument), zs = es ++ .rightParen :: after.map .argument ∧
      Derives v .elements es ∧ Argument.Admissible [] after := by
  obtain ⟨args, after, t, others, rfl, hargs, ht, rfl | ⟨es, rfl, hes⟩, hafter⟩ := h
  · exact ⟨_, after, by simp, .last hargs ht, hafter⟩
  · exact ⟨_, after, by simp, .cons hargs ht hes, hafter⟩

/-- A word in front of what completes the test that it opens gives a test. -/
theorem CompletesTip.test {tip : Tip} {zs : List Symbol} (hw : v.Opens w tip)
    (h : CompletesTip v [] tip zs) : Derives v .test (.word w :: zs) := by
  cases tip with
  | leaf =>
    obtain ⟨args, rfl, hargs⟩ := h
    exact .leaf hw hargs
  | negation =>
    obtain ⟨args, t, rfl, hargs, ht⟩ := h
    cases hw
    exact .negation hargs ht
  | group p =>
    obtain ⟨rfl, hw⟩ := hw
    obtain ⟨args, rest, rfl, hargs, hrest⟩ := h
    rcases hrest with rfl | ⟨zs, rfl, hzs⟩
    · rw [List.append_nil]
      exact .bare hw hargs
    · obtain ⟨es, after, rfl, hes, hafter⟩ := hzs.elements
      have htest := Derives.group hw hargs hes hafter
      rwa [List.append_assoc] at htest

theorem CompletesTip.argument {tip : Tip} {ws : List Argument} {a : Argument} {zs : List Symbol}
    (hfits : Argument.Fits ws a) (h : CompletesTip v (Argument.buffer ws a) tip zs) :
    CompletesTip v ws tip (.argument a :: zs) := by
  cases tip with
  | leaf =>
    obtain ⟨args, rfl, hargs⟩ := h
    exact ⟨a :: args, rfl, hfits, hargs⟩
  | negation =>
    obtain ⟨args, t, rfl, hargs, ht⟩ := h
    exact ⟨a :: args, t, rfl, ⟨hfits, hargs⟩, ht⟩
  | group p =>
    cases p with
    | missing =>
      obtain ⟨args, rest, rfl, hargs, hrest⟩ := h
      exact ⟨a :: args, rest, rfl, ⟨hfits, hargs⟩, hrest⟩
    | opened =>
      obtain ⟨args, after, t, others, rfl, hargs, hrest⟩ := h
      exact ⟨a :: args, after, t, others, rfl, ⟨hfits, hargs⟩, hrest⟩
    | closed =>
      obtain ⟨args, rfl, hargs⟩ := h
      exact ⟨a :: args, rfl, hfits, hargs⟩

theorem CompletesTip.nil {tip : Tip} (ws : List Argument) (h : tip ≠ .group .opened) :
    CompletesTip v ws tip [] := by
  match tip with
  | .leaf | .group .closed => exact ⟨[], rfl, trivial⟩
  | .negation => exact ⟨[], [], rfl, trivial, .none⟩
  | .group .missing => exact ⟨[], [], rfl, trivial, .inl rfl⟩
  | .group .opened => contradiction

theorem CompletesFrames.nil {outer : List Frame} (h : .group ∉ outer) :
    CompletesFrames v outer [] := by
  induction outer with
  | nil => rfl
  | cons f outer ih =>
    rw [List.mem_cons, not_or] at h
    cases f with
    | negation => exact ih h.2
    | group => exact absurd rfl h.1

theorem CompletesFrames.of_climb {outer outer' : List Frame} {zs : List Symbol}
    (hclimb : Frame.climb outer = some outer') (h : CompletesFrames v (.group :: outer') zs) :
    CompletesFrames v outer zs := by
  fun_induction Frame.climb outer with
  | case1 => contradiction
  | case2 outer ih => exact ih hclimb
  | case3 outer => cases hclimb; exact h

end

namespace Shape
variable {v : Vocabulary} {x x' : Shape} {y : Symbol} {zs : List Symbol}

theorem completes_word (hv : v.Standard) {w : String} (h : x.word v w = some x')
    (hzs : x'.Completes v zs) : x.Completes v (.word w :: zs) := by
  obtain ⟨n, st⟩ := x
  rcases (word_eq_some_iff hv).1 h with ⟨hfree, ⟨hw, rfl⟩ | ⟨hw, b, hb, rfl⟩⟩ |
    ⟨outer, tip, hslot, hw, rfl⟩
  · cases hfree
    obtain ⟨t, rest, rfl, ht, block, rest, rfl, hblock, hrest⟩ := hzs
    have hitem := hrest.item (.word w :: t ++ .blockStart :: block ++ [.blockEnd])
      fun is his => by simpa using Derives.conditional hw ht hblock his
    simpa [Completes] using hitem
  · cases hfree
    obtain ⟨args, rest, rfl, hargs, hrest⟩ := hzs
    have hitem := hrest.item (.word w :: args.map .argument ++ [.semicolon])
      fun is his => by simpa using Derives.action hw (fun ht => hargs (hb.2 ht)) his
    simpa [Completes] using hitem
  · obtain ⟨inside, behind, rest, rfl, hinside, hbehind, hrest⟩ := hzs
    -- The new test ends with `inside`; what completes the tests around it comes behind that.
    have htest := Derives.some (hinside.test hw)
    rcases st with _ | _ | _ | ⟨outer, tip, ws⟩
    · contradiction
    · contradiction
    · cases hslot
      cases hbehind
      exact ⟨_, rest, by simp, htest, hrest⟩
    · obtain ⟨f, hf, rfl⟩ := Option.map_eq_some_iff.1 hslot
      rcases tip with _ | _ | _ | _ | _ <;> cases hf
      · exact ⟨_, behind, rest, rfl, ⟨[], _, rfl, trivial, htest⟩, hbehind, hrest⟩
      · obtain ⟨others, after, behind, rfl, hothers, hafter, hbehind⟩ := hbehind
        refine ⟨.word w :: inside ++ others ++ .rightParen :: after.map .argument, behind, rest,
          by simp, ?_, hbehind, hrest⟩
        exact ⟨[], after, _, others, rfl, trivial, htest, hothers, hafter⟩

theorem completes_argument {a : Argument} (h : x.argument a = some x') (hzs : x'.Completes v zs) :
    x.Completes v (.argument a :: zs) := by
  obtain ⟨n, st⟩ := x
  rcases st with _ | ⟨_ | _, ws⟩ | _ | ⟨outer, tip, ws⟩
  · contradiction
  · cases h
    obtain ⟨args, rest, rfl, -, hrest⟩ := hzs
    exact ⟨a :: args, rest, rfl, by simp, hrest⟩
  · simp only [argument] at h
    split at h
    next hfits =>
      cases h
      obtain ⟨args, rest, rfl, hargs, hrest⟩ := hzs
      exact ⟨a :: args, rest, rfl, fun hb => ⟨hfits, hargs hb⟩, hrest⟩
    · contradiction
  · contradiction
  · simp only [argument] at h
    split at h
    next hfits =>
      cases h
      obtain ⟨inside, behind, rest, rfl, hinside, hrest⟩ := hzs
      exact ⟨.argument a :: inside, behind, rest, rfl, hinside.argument hfits, hrest⟩
    · contradiction

theorem completes_blockStart (h : x.step v .blockStart = some x') (hzs : x'.Completes v zs) :
    x.Completes v (.blockStart :: zs) := by
  obtain ⟨n, st⟩ := x
  rcases st with _ | _ | _ | ⟨outer, tip, ws⟩
  · contradiction
  · contradiction
  · cases h
    exact ⟨[], zs, rfl, .none, hzs⟩
  · simp only [step] at h
    split at h
    · contradiction
    next hmem =>
      cases h
      rw [List.mem_append, not_or] at hmem
      have htip : tip ≠ .group .opened := by
        rintro rfl
        simp [Tip.frame?] at hmem
      exact ⟨[], [], zs, rfl, .nil ws htip, .nil hmem.2, hzs⟩

/-- What may follow a comma or a closing parenthesis at the nearest open group. -/
theorem completes_atGroup {p : Parens} (h : x.atGroup p = some x') (hzs : x'.Completes v zs)
    (hy : ∀ inside, CompletesTip v [] (.group p) inside → ∃ others after,
      y :: inside = others ++ .rightParen :: after.map .argument ∧
        (others = [] ∨ ∃ es, others = .comma :: es ∧ Derives v .elements es) ∧
        Argument.Admissible [] after) :
    x.Completes v (y :: zs) := by
  obtain ⟨n, st⟩ := x
  rcases st with _ | _ | _ | ⟨outer, tip, ws⟩
  · contradiction
  · contradiction
  · contradiction
  -- Either the group is innermost itself, or the test inside it and all negations on the way end here.
  by_cases htip : tip = .group .opened
  · subst htip
    cases h
    obtain ⟨inside, behind, rest, rfl, hinside, hrest⟩ := hzs
    obtain ⟨others, after, heq, hothers, hafter⟩ := hy inside hinside
    refine ⟨y :: inside, behind, rest, rfl, ⟨[], after, [], others, ?_⟩, hrest⟩
    exact ⟨by simpa using heq, trivial, .none, hothers, hafter⟩
  · rw [atGroup_of_ne htip] at h
    obtain ⟨outer', hclimb, rfl⟩ := Option.map_eq_some_iff.1 h
    obtain ⟨inside, behind, rest, rfl, hinside, hbehind, hrest⟩ := hzs
    obtain ⟨others, after, heq, hothers, hafter⟩ := hy inside hinside
    refine ⟨[], y :: inside ++ behind, rest, by simp, .nil ws htip, .of_climb hclimb ?_, hrest⟩
    exact ⟨others, after, behind, by rw [heq], hothers, hafter, hbehind⟩

/-- What a symbol may be put in front of completes what was open before it. -/
theorem completes_of_step (hv : v.Standard) (h : x.step v y = some x') (hzs : x'.Completes v zs)
    (hy : y.isComment = false) : x.Completes v (y :: zs) := by
  cases y with
  | word w => exact completes_word hv h hzs
  | argument a => exact completes_argument h hzs
  | comment c => contradiction
  | semicolon =>
    obtain ⟨n, st⟩ := x
    rcases st with _ | ⟨b, ws⟩ | _ | ⟨outer, tip, ws⟩ <;> cases h
    exact ⟨[], zs, rfl, fun _ => trivial, hzs⟩
  | blockStart => exact completes_blockStart h hzs
  | blockEnd =>
    obtain ⟨_ | n, st⟩ := x <;> cases st <;> cases h
    exact ⟨[], zs, rfl, .nil, hzs⟩
  | leftParen =>
    obtain ⟨n, st⟩ := x
    rcases st with _ | _ | _ | ⟨outer, _ | _ | _ | _ | _, ws⟩ <;> cases h
    obtain ⟨inside, behind, rest, rfl, hinside, hrest⟩ := hzs
    refine ⟨.leftParen :: inside, behind, rest, rfl, ?_, hrest⟩
    exact ⟨[], _, rfl, trivial, .inr ⟨inside, rfl, hinside⟩⟩
  | rightParen =>
    refine completes_atGroup h hzs fun inside hinside => ?_
    obtain ⟨after, rfl, hafter⟩ := hinside
    exact ⟨[], after, rfl, .inl rfl, hafter⟩
  | comma =>
    refine completes_atGroup h hzs fun inside hinside => ?_
    obtain ⟨es, after, rfl, hes, hafter⟩ := CompletesGroup.elements hinside
    exact ⟨.comma :: es, after, rfl, .inr ⟨es, rfl, hes⟩, hafter⟩
  | unknown t => contradiction

theorem exists_completes (x : Shape) : ∃ zs, x.Completes v zs := by
  have hblocks : ∀ n, ∃ zs, CompletesBlocks v n zs := by
    intro n
    induction n with
    | zero => exact ⟨[], .nil⟩
    | succ n ih =>
      obtain ⟨zs, h⟩ := ih
      exact ⟨.blockEnd :: zs, [], zs, rfl, .nil, h⟩
  have hframes : ∀ outer, ∃ zs, CompletesFrames v outer zs := by
    intro outer
    induction outer with
    | nil => exact ⟨[], rfl⟩
    | cons f outer ih =>
      obtain ⟨zs, h⟩ := ih
      cases f with
      | negation => exact ⟨zs, h⟩
      | group => exact ⟨.rightParen :: zs, [], [], zs, rfl, .inl rfl, trivial, h⟩
  have htip : ∀ tip ws, ∃ zs, CompletesTip v ws tip zs := by
    intro tip ws
    by_cases h : tip = .group .opened
    · subst h
      exact ⟨[.rightParen], [], [], [], [], rfl, trivial, .none, .inl rfl, trivial⟩
    · exact ⟨[], .nil ws h⟩
  obtain ⟨n, st⟩ := x
  rcases st with _ | ⟨b, ws⟩ | _ | ⟨outer, tip, ws⟩
  · exact hblocks n
  · obtain ⟨rest, hrest⟩ := hblocks n
    exact ⟨_, [], rest, rfl, fun _ => trivial, hrest⟩
  · obtain ⟨rest, hrest⟩ := hblocks (n + 1)
    exact ⟨_, [], rest, rfl, .none, hrest⟩
  · obtain ⟨inside, hinside⟩ := htip tip ws
    obtain ⟨behind, hbehind⟩ := hframes outer
    obtain ⟨rest, hrest⟩ := hblocks (n + 1)
    exact ⟨_, inside, behind, rest, rfl, hinside, hbehind, hrest⟩

theorem completes_of_run (hv : v.Standard) {ys : List Symbol} (h : run v x ys = some x')
    (hys : ∀ y ∈ ys, y.isComment = false) (hzs : x'.Completes v zs) : x.Completes v (ys ++ zs) := by
  induction ys generalizing x with
  | nil =>
    cases h
    exact hzs
  | cons y ys ih =>
    obtain ⟨x₁, hstep, hrun⟩ := Option.bind_eq_some_iff.1 h
    have hrest := ih hrun fun y hy => hys y (List.mem_cons_of_mem _ hy)
    exact completes_of_step hv hstep hrest (hys y List.mem_cons_self)

/-- The symbols that can be read from the start are those that begin a derivable sequence. -/
theorem run_isSome_iff (hv : v.Standard) {ys : List Symbol} (hys : ∀ y ∈ ys, y.isComment = false) :
    (run v {} ys).isSome = true ↔ ∃ rest, Derives v .items (ys ++ rest) := by
  constructor
  · intro h
    obtain ⟨x, hx⟩ := Option.isSome_iff_exists.1 h
    obtain ⟨zs, hzs⟩ := exists_completes (v := v) x
    exact ⟨zs, completes_of_run hv hx hys hzs⟩
  · rintro ⟨rest, h⟩
    have hrun := accepts_of_derives hv h 0
    rw [run_append] at hrun
    cases hx : run v {} ys with
    | some x => rfl
    | none =>
      rw [hx] at hrun
      contradiction

end Shape

/-! ### What is read -/

namespace Token

/-- The symbols of a text without its comments. -/
def skeleton (cs : List Char) : List Symbol :=
  (symbols cs).filter (!·.isComment)

end Token

namespace Derives

theorem unknown_not_mem {v : Vocabulary} {N : Nonterminal} {ys : List Symbol} (h : Derives v N ys)
    (t : String) : .unknown t ∉ ys := by
  induction h <;> simp_all

end Derives

namespace Script

/-- A text is read exactly when all its tokens are known and its symbols, without the comments, begin
a sequence that the grammar derives. -/
theorem parse_isOk_iff_derives (capabilities : List String) (name text : String) :
    (∃ s, parse capabilities name text = .ok s) ↔
      (∀ t ∈ Token.all (normalize text.toList), t.kind ≠ .unknown) ∧
        ∃ rest, Derives (.ofCapabilities capabilities) .items
          (Token.skeleton (normalize text.toList) ++ rest) := by
  set v := Vocabulary.ofCapabilities capabilities
  set cs := normalize text.toList
  have hv : v.Standard := Vocabulary.standard_ofCapabilities capabilities
  have hsteps : (∃ s, parse capabilities name text = .ok s) ↔
      ∃ s, State.steps v {} (Token.symbols cs) = .ok s := by
    constructor
    · rintro ⟨s, h⟩
      obtain ⟨s, hs, -⟩ := read_eq_ok_iff.1 h
      exact ⟨s, hs⟩
    · rintro ⟨s, hs⟩
      exact ⟨s.finish, read_eq_ok_iff.2 ⟨s, hs, rfl⟩⟩
  have hread : (∃ s, parse capabilities name text = .ok s) ↔
      ∃ rest, Derives v .items (Token.skeleton cs ++ rest) := by
    rw [← Shape.run_isSome_iff hv (by simp [Token.skeleton]), Token.skeleton, Shape.run_filter,
      hsteps, State.steps_isOk_iff]
    rfl
  rw [hread]
  refine ⟨fun h => ⟨?_, h⟩, fun h => h.2⟩
  obtain ⟨rest, h⟩ := h
  intro t ht hunknown
  have hmem : .unknown t.text ∈ Token.skeleton cs := by
    refine List.mem_filter.2 ⟨List.mem_filterMap.2 ⟨t, ht, ?_⟩, rfl⟩
    rw [Token.symbol?, hunknown]
  exact h.unknown_not_mem _ (List.mem_append_left rest hmem)

end Script

end SieveScript
