import SieveScript.Proofs.Symbols

/-!
# What a symbol can do

`State.Reads` lists all that reading a symbol may do to a script that is partly read, apart from the
capabilities that are noted on the way. Every step does one of these things (`State.reads_of_step`),
and each of them is done whatever the capabilities are (`State.Reads.leads`). What holds of every
state is shown by cases on `Reads`, and that something is read by putting such steps together
(`State.Leads`).
-/

namespace SieveScript

namespace Vocabulary

/-- A word that is not one of the grammar's may stand for what the prototype describes. -/
def Denotes (v : Vocabulary) (word : String) (p : Prototype) : Prop :=
  match v.meaning word with
  | .conditional => False
  | .defined d => d.prototype = p
  | .unknown => p = .action (.placeholder []) ∨ p = .condition (.placeholder [])

variable {v : Vocabulary} {w : String}

theorem denotes_of_defined {d : Definition} (h : v.meaning w = .defined d) :
    v.Denotes w d.prototype := by
  rw [Denotes, h]

theorem denotes_placeholder (h : v.meaning w = .unknown) (isTest : Bool) :
    v.Denotes w (if isTest then .condition (.placeholder []) else .action (.placeholder [])) := by
  rw [Denotes, h]
  cases isTest
  · exact .inl rfl
  · exact .inr rfl

end Vocabulary

namespace Prototype

/-- The open test that a prototype describes, for a word. -/
def openTest? (word : String) : Prototype → Option OpenTest
  | action _ => none
  | condition c => some (.leaf { word } {} c)
  | negation => some (.negation { word } {})
  | group c => some (.group { word } {} c .missing [])

end Prototype

namespace State

/-- The conditional and the tests around the place where a test may stand. -/
def slot? (s : State) : Option (Head × List Enclosing) :=
  match s.statement with
  | some (.conditional h) => some (h, [])
  | some (.testing h p) => p.inner.enclose?.map fun e => (h, e :: p.outer)
  | _ => none

/-- Makes the path what is being read. -/
def testing (s : State) (h : Head) (p : TestPath) : State :=
  { s with statement := some (.testing h p) }

/-- What reading a symbol may do, apart from the capabilities it notes. -/
inductive Reads (v : Vocabulary) (s : State) : Symbol → State → Prop
  | conditional {w : String} (word : v.meaning w = .conditional) (free : s.statement = none) :
      Reads v s (.word w) { s with statement := some (.conditional { word := w }) }
  | action {w : String} {a : Action} (word : v.Denotes w (.action a)) (free : s.statement = none) :
      Reads v s (.word w) { s with statement := some (.action { word := w } a []) }
  | test {w : String} {p : Prototype} {t : OpenTest} {h : Head} {outer : List Enclosing}
      (word : v.Denotes w p) (opens : p.openTest? w = some t) (slot : s.slot? = some (h, outer)) :
      Reads v s (.word w) { s with statement := some (.testing h { outer, inner := t }) }
  | argument {h : Head} {a : Action} {args : List Argument} {b : Argument}
      (here : s.statement = some (.action h a args)) (plain : a.matching? = none) :
      Reads v s (.argument b) { s with statement := some (.action h a (args ++ [b])) }
  | absorbed {h : Head} {a : Action} {args args' : List Argument} {b : Argument} {m m' : Matching}
      {need : Option String} (here : s.statement = some (.action h a args))
      (matching : a.matching? = some m) (absorb : m.absorb args b = .ok (m', args', need)) :
      Reads v s (.argument b) { s with statement := some (.action h (a.withMatching m') args') }
  | tested {h : Head} {p : TestPath} {args' : List Argument} {b : Argument} {m' : Matching}
      {need : Option String} (here : s.statement = some (.testing h p))
      (absorb : p.inner.matching.absorb p.waiting b = .ok (m', args', need)) :
      Reads v s (.argument b) { s with
        statement := some (.testing h { p with inner := p.inner.withMatching m', waiting := args' }) }
  | comment {c : Comment} : Reads v s (.comment c) (s.comment c)
  | semicolon {h : Head} {a : Action} {args : List Argument}
      (here : s.statement = some (.action h a args)) :
      Reads v s .semicolon ({ s with statement := none }.add (.action h (a.take.run args).1))
  | blockStart {h : Head} (here : s.statement = some (.conditional h)) :
      Reads v s .blockStart (s.openBlock h none)
  | testEnd {h : Head} {p : TestPath} (here : s.statement = some (.testing h p))
      (closed : p.hasOpenGroup = false) : Reads v s .blockStart (s.openBlock h (some p.close))
  | blockEnd {b : OpenBlock} {bs : List OpenBlock} (free : s.statement = none)
      (here : s.blocks = b :: bs) : Reads v s .blockEnd ({ s with blocks := bs }.add b.close)
  | leftParen {h g : Head} {outer : List Enclosing} {m : Matching} {c : Connective} {ts : List Test}
      {args : List Argument}
      (here : s.statement = some (.testing h ⟨outer, .group g m c .missing ts, args⟩)) :
      Reads v s .leftParen
        { s with statement := some (.testing h { outer, inner := .group g m c .opened ts }) }
  | rightParen {h : Head} {p : TestPath} {g : OpenGroup} (here : s.statement = some (.testing h p))
      (group : p.nearestGroup? = some g) :
      Reads v s .rightParen { s with statement := some (.testing h (g.toPath .closed)) }
  | comma {h : Head} {p : TestPath} {g : OpenGroup} (here : s.statement = some (.testing h p))
      (group : p.nearestGroup? = some g) :
      Reads v s .comma { s with statement := some (.testing h (g.toPath .opened)) }

variable {v : Vocabulary} {s s' : State}

/-! ### Capabilities change nothing else -/

theorem exists_needAll_eq (s : State) (caps : List String) :
    ∃ r, s.needAll caps = { s with requires := r } := by
  induction caps generalizing s with
  | nil => exact ⟨s.requires, rfl⟩
  | cons c caps ih =>
    have hneed : ∃ r, s.need c = { s with requires := r } := by
      rw [need]
      split
      · exact ⟨s.requires, rfl⟩
      · exact ⟨_, rfl⟩
    obtain ⟨r, hr⟩ := hneed
    obtain ⟨r', hr'⟩ := ih (s.need c)
    exact ⟨r', by rw [needAll, List.foldl_cons, ← needAll, hr', hr]⟩

theorem add_with_requires (s : State) (i : Item) (r : List String) :
    { s with requires := r }.add i = { s.add i with requires := r } := by
  obtain ⟨is, _ | ⟨b, bs⟩, st, rs⟩ := s <;> rfl

theorem comment_with_requires (s : State) (c : Comment) (r : List String) :
    { s with requires := r }.comment c = { s.comment c with requires := r } := by
  obtain ⟨is, bs, st, rs⟩ := s
  cases st with
  | none => exact add_with_requires ⟨is, bs, none, rs⟩ _ r
  | some st => cases st <;> rfl

/-! ### Every step is one of these -/

theorem startCommand_eq_ok {w : String} {c : Statement} (h : s.startCommand w c = .ok s') :
    s.statement = none ∧ s' = { s with statement := some c } := by
  rw [startCommand] at h
  split at h
  next hs =>
    cases h
    exact ⟨hs, rfl⟩
  · contradiction

theorem startTest_eq_ok {w : String} {t : OpenTest} (h : s.startTest w t = .ok s') :
    ∃ hd outer, s.slot? = some (hd, outer) ∧
      s' = { s with statement := some (.testing hd { outer, inner := t }) } := by
  rw [startTest] at h
  split at h
  · split at h <;> contradiction
  next hd hs =>
    cases h
    exact ⟨hd, [], by rw [slot?, hs], rfl⟩
  next hd p hs =>
    split at h
    next p' hp =>
      cases h
      obtain ⟨e, he, rfl⟩ := Option.map_eq_some_iff.1 hp
      exact ⟨hd, e :: p.outer, by rw [slot?, hs]; simp [he], rfl⟩
    · contradiction
  · contradiction

theorem startTest_of_slot? {h : Head} {outer : List Enclosing} (hs : s.slot? = some (h, outer))
    (w : String) (t : OpenTest) :
    s.startTest w t = .ok { s with statement := some (.testing h { outer, inner := t }) } := by
  rw [slot?] at hs
  split at hs
  next hd hst =>
    cases hs
    rw [startTest, hst]
  next hd p hst =>
    obtain ⟨e, he, heq⟩ := Option.map_eq_some_iff.1 hs
    cases heq
    simp [startTest, hst, TestPath.enter?, he]
  · contradiction

theorem isSome_slot? (s : State) : s.slot?.isSome = s.expectsTest := by
  rw [slot?, expectsTest]
  cases s.statement with
  | none => rfl
  | some st => cases st <;> simp [Statement.expectsTest]

/-- Starting a node opens an action where nothing is open, or a test where one may stand. -/
theorem start_eq_ok {w : String} {p : Prototype} (h : s.start w p = .ok s') :
    (∃ a, p = .action a ∧ s.statement = none ∧
      s' = { s with statement := some (.action { word := w } a []) }) ∨
    (∃ t hd outer, p.openTest? w = some t ∧ s.slot? = some (hd, outer) ∧
      s' = { s with statement := some (.testing hd { outer, inner := t }) }) := by
  cases p with
  | action a =>
    obtain ⟨hs, rfl⟩ := startCommand_eq_ok h
    exact .inl ⟨a, rfl, hs, rfl⟩
  | _ =>
    obtain ⟨hd, outer, hs, rfl⟩ := startTest_eq_ok h
    exact .inr ⟨_, hd, outer, rfl, hs, rfl⟩

theorem start_of_openTest? {w : String} {p : Prototype} {t : OpenTest} (hp : p.openTest? w = some t)
    {h : Head} {outer : List Enclosing} (hs : s.slot? = some (h, outer)) :
    s.start w p = .ok { s with statement := some (.testing h { outer, inner := t }) } := by
  cases p with
  | action a => contradiction
  | _ =>
    cases hp
    exact startTest_of_slot? hs w _

theorem word_eq_ok_of_conditional {w : String} (hw : v.meaning w = .conditional)
    (h : s.word v w = .ok s') :
    s.statement = none ∧ s' = { s with statement := some (.conditional { word := w }) } := by
  rw [word, hw] at h
  exact startCommand_eq_ok h

/-- Reading a word that does not start a conditional starts a node that it may stand for. -/
theorem word_eq_ok {w : String} (hw : v.meaning w ≠ .conditional) (h : s.word v w = .ok s') :
    ∃ p r, v.Denotes w p ∧ { s with requires := r }.start w p = .ok s' := by
  rw [word] at h
  split at h
  next hm => exact absurd hm hw
  next d hm =>
    obtain ⟨r, hr⟩ := exists_needAll_eq s d.requires
    rw [hr] at h
    exact ⟨d.prototype, r, Vocabulary.denotes_of_defined hm, h⟩
  next hm => exact ⟨_, s.requires, Vocabulary.denotes_placeholder hm s.expectsTest, h⟩

/-- An argument waits, or it is absorbed by the matching of an action or of a test. -/
theorem argument_eq_ok {b : Argument} (h : s.argument b = .ok s') :
    (∃ hd a args, s.statement = some (.action hd a args) ∧ a.matching? = none ∧
      s' = { s with statement := some (.action hd a (args ++ [b])) }) ∨
    (∃ hd a args m m' args' need, s.statement = some (.action hd a args) ∧ a.matching? = some m ∧
      m.absorb args b = .ok (m', args', need) ∧
      s' = { s.needAll need.toList with
        statement := some (.action hd (a.withMatching m') args') }) ∨
    ∃ hd p m' args' need, s.statement = some (.testing hd p) ∧
      p.inner.matching.absorb p.waiting b = .ok (m', args', need) ∧
      s' = { s.needAll need.toList with
        statement := some (.testing hd { p with inner := p.inner.withMatching m', waiting := args' }) } := by
  rw [argument] at h
  split at h
  · contradiction
  · contradiction
  next hd a args hs =>
    split at h
    next hm =>
      cases h
      exact .inl ⟨hd, a, args, hs, hm, rfl⟩
    next m hm =>
      cases hab : m.absorb args b with
      | error f => rw [hab] at h; contradiction
      | ok r =>
        obtain ⟨m', args', need⟩ := r
        rw [hab] at h
        cases h
        exact .inr (.inl ⟨hd, a, args, m, m', args', need, hs, hm, hab, rfl⟩)
  next hd p hs =>
    cases hab : p.inner.matching.absorb p.waiting b with
    | error f => rw [hab] at h; contradiction
    | ok r =>
      obtain ⟨m', args', need⟩ := r
      rw [hab] at h
      cases h
      exact .inr (.inr ⟨hd, p, m', args', need, hs, hab, rfl⟩)

theorem semicolon_eq_ok (h : s.semicolon = .ok s') :
    ∃ hd a args, s.statement = some (.action hd a args) ∧
      s' = ({ s with statement := none }.needAll (Statement.action hd a args).close.declares).add
        (Statement.action hd a args).close := by
  rw [semicolon] at h
  split at h
  next hd a args hs =>
    cases h
    exact ⟨hd, a, args, hs, rfl⟩
  · contradiction

theorem blockStart_eq_ok (h : s.blockStart = .ok s') :
    (∃ hd, s.statement = some (.conditional hd) ∧ s' = s.openBlock hd none) ∨
    ∃ hd p, s.statement = some (.testing hd p) ∧ p.hasOpenGroup = false ∧
      s' = s.openBlock hd (some p.close) := by
  rw [blockStart] at h
  split at h
  next hd hs =>
    cases h
    exact .inl ⟨hd, hs, rfl⟩
  next hd p hs =>
    split at h
    · contradiction
    next hp =>
      cases h
      exact .inr ⟨hd, p, hs, by simpa using hp, rfl⟩
  · contradiction

theorem blockEnd_eq_ok (h : s.blockEnd = .ok s') :
    ∃ b bs, s.statement = none ∧ s.blocks = b :: bs ∧ s' = { s with blocks := bs }.add b.close := by
  rw [blockEnd] at h
  split at h
  next b bs hs hb =>
    cases h
    exact ⟨b, bs, hs, hb, rfl⟩
  · contradiction

theorem leftParen_eq_ok (h : s.leftParen = .ok s') :
    ∃ hd outer g m c ts args, s.statement = some (.testing hd ⟨outer, .group g m c .missing ts, args⟩) ∧
      s' = { s with statement := some (.testing hd { outer, inner := .group g m c .opened ts }) } := by
  rw [leftParen] at h
  split at h
  next hs =>
    cases h
    exact ⟨_, _, _, _, _, _, _, hs, rfl⟩
  · contradiction

theorem atGroup_eq_ok {p : Parens} {f : Fault} (h : s.atGroup p f = .ok s') :
    ∃ hd path g, s.statement = some (.testing hd path) ∧ path.nearestGroup? = some g ∧
      s' = { s with statement := some (.testing hd (g.toPath p)) } := by
  rw [atGroup] at h
  split at h
  next hd path hs =>
    split at h
    next g hg =>
      cases h
      exact ⟨hd, path, g, hs, hg, rfl⟩
    · contradiction
  · contradiction

/-- Every step is one that `Reads` lists. -/
theorem reads_of_step {y : Symbol} (h : s.step v y = .ok s') :
    ∃ s₁, Reads v s y s₁ ∧ s' = { s₁ with requires := s'.requires } := by
  cases y with
  | word w =>
    by_cases hw : v.meaning w = .conditional
    · obtain ⟨hs, rfl⟩ := word_eq_ok_of_conditional hw h
      exact ⟨_, .conditional hw hs, rfl⟩
    · obtain ⟨p, r, hp, h⟩ := word_eq_ok hw h
      rcases start_eq_ok h with ⟨a, rfl, hs, rfl⟩ | ⟨t, hd, outer, ht, hs, rfl⟩
      · exact ⟨_, .action hp hs, rfl⟩
      · exact ⟨_, .test hp ht hs, rfl⟩
  | argument b =>
    rcases argument_eq_ok h with ⟨hd, a, args, hs, hm, rfl⟩ |
      ⟨hd, a, args, m, m', args', need, hs, hm, hab, rfl⟩ | ⟨hd, p, m', args', need, hs, hab, rfl⟩
    · exact ⟨_, .argument hs hm, rfl⟩
    · obtain ⟨r, hr⟩ := exists_needAll_eq s need.toList
      exact ⟨_, .absorbed hs hm hab, by rw [hr]⟩
    · obtain ⟨r, hr⟩ := exists_needAll_eq s need.toList
      exact ⟨_, .tested hs hab, by rw [hr]⟩
  | comment c =>
    cases h
    exact ⟨_, .comment, rfl⟩
  | semicolon =>
    obtain ⟨hd, a, args, hs, rfl⟩ := semicolon_eq_ok h
    obtain ⟨r, hr⟩ := exists_needAll_eq { s with statement := none }
      (Statement.action hd a args).close.declares
    refine ⟨_, .semicolon hs, ?_⟩
    rw [hr, add_with_requires]
    rfl
  | blockStart =>
    rcases blockStart_eq_ok h with ⟨hd, hs, rfl⟩ | ⟨hd, p, hs, hp, rfl⟩
    · exact ⟨_, .blockStart hs, rfl⟩
    · exact ⟨_, .testEnd hs hp, rfl⟩
  | blockEnd =>
    obtain ⟨b, bs, hs, hb, rfl⟩ := blockEnd_eq_ok h
    exact ⟨_, .blockEnd hs hb, rfl⟩
  | leftParen =>
    obtain ⟨hd, outer, g, m, c, ts, args, hs, rfl⟩ := leftParen_eq_ok h
    exact ⟨_, .leftParen hs, rfl⟩
  | rightParen =>
    obtain ⟨hd, p, g, hs, hg, rfl⟩ := atGroup_eq_ok h
    exact ⟨_, .rightParen hs hg, rfl⟩
  | comma =>
    obtain ⟨hd, p, g, hs, hg, rfl⟩ := atGroup_eq_ok h
    exact ⟨_, .comma hs hg, rfl⟩
  | unknown t => contradiction

/-! ### Putting steps together -/

/-- Whatever capabilities have been met, reading the symbols leads from one state to the other. -/
def Leads (v : Vocabulary) (s : State) (ys : List Symbol) (s' : State) : Prop :=
  ∀ r, ∃ r', steps v { s with requires := r } ys = .ok { s' with requires := r' }

namespace Leads
variable {s₁ : State} {xs ys : List Symbol}

theorem nil : Leads v s [] s :=
  fun r => ⟨r, rfl⟩

theorem trans (h : Leads v s xs s₁) (h' : Leads v s₁ ys s') : Leads v s (xs ++ ys) s' := by
  intro r
  obtain ⟨r₁, h₁⟩ := h r
  obtain ⟨r', h₂⟩ := h' r₁
  exact ⟨r', by rw [steps_append h₁, h₂]⟩

theorem congr (h : Leads v s xs s₁) (hy : xs = ys) (hs : s₁ = s') : Leads v s ys s' :=
  hy ▸ hs ▸ h

theorem of_step {y : Symbol}
    (h : ∀ r, ∃ r', { s with requires := r }.step v y = .ok { s' with requires := r' }) :
    Leads v s [y] s' := by
  intro r
  obtain ⟨r', h⟩ := h r
  exact ⟨r', steps_cons_of_ok h⟩

end Leads

/-- Reading a word starts a node that it may stand for, where that node may stand. -/
theorem leads_word {w : String} {p : Prototype} (hp : v.Denotes w p)
    (htest : v.meaning w = .unknown → p.isTest = s.expectsTest)
    (h : ∀ r, { s with requires := r }.start w p = .ok { s' with requires := r }) :
    Leads v s [.word w] s' := by
  refine .of_step fun r => ?_
  rw [Vocabulary.Denotes] at hp
  cases hm : v.meaning w with
  | conditional => rw [hm] at hp; contradiction
  | defined d =>
    rw [hm] at hp
    obtain ⟨r', hr⟩ := exists_needAll_eq { s with requires := r } d.requires
    refine ⟨r', ?_⟩
    simp only [step, State.word, hm, hr, hp]
    exact h r'
  | unknown =>
    rw [hm] at hp
    refine ⟨r, ?_⟩
    have hexp : { s with requires := r }.expectsTest = p.isTest := (htest hm).symm
    simp only [step, State.word, hm, hexp]
    rcases hp with rfl | rfl <;> exact h r

/-- What `Reads` lists can be done, whatever capabilities have been met. -/
theorem Reads.leads {y : Symbol} (h : Reads v s y s') : Leads v s [y] s' := by
  cases h with
  | @conditional w word free =>
    refine .of_step fun r => ⟨r, ?_⟩
    simp [step, State.word, word, startCommand, free]
  | @action w a word free =>
    refine leads_word word (fun _ => ?_) fun r => ?_
    · simp [Prototype.isTest, expectsTest, free]
    · simp [start, startCommand, free]
  | @test w p t h outer word opens slot =>
    refine leads_word word (fun _ => ?_) fun r => start_of_openTest? opens slot
    rw [← isSome_slot?, slot]
    cases p <;> first | contradiction | rfl
  | argument here plain =>
    refine .of_step fun r => ⟨r, ?_⟩
    simp [step, State.argument, here, plain]
  | @absorbed h a args args' b m m' need here matching absorb =>
    refine .of_step fun r => ?_
    obtain ⟨r', hr⟩ := exists_needAll_eq { s with requires := r } need.toList
    refine ⟨r', ?_⟩
    simp only [step, State.argument, here, matching, absorb, bind, Except.bind, pure, Except.pure]
      at hr ⊢
    rw [hr]
  | @tested h p args' b m' need here absorb =>
    refine .of_step fun r => ?_
    obtain ⟨r', hr⟩ := exists_needAll_eq { s with requires := r } need.toList
    refine ⟨r', ?_⟩
    simp only [step, State.argument, here, absorb, bind, Except.bind, pure, Except.pure] at hr ⊢
    rw [hr]
  | @comment c => exact .of_step fun r => ⟨r, congrArg _ (comment_with_requires s c r)⟩
  | @semicolon h a args here =>
    refine .of_step fun r => ?_
    obtain ⟨r', hr⟩ := exists_needAll_eq { s with statement := none, requires := r }
      (Statement.action h a args).close.declares
    refine ⟨r', ?_⟩
    simp only [step, State.semicolon, here] at hr ⊢
    rw [hr]
    exact congrArg _ (add_with_requires { s with statement := none } _ r')
  | blockStart here =>
    refine .of_step fun r => ⟨r, ?_⟩
    simp [step, State.blockStart, here, openBlock]
  | testEnd here closed =>
    refine .of_step fun r => ⟨r, ?_⟩
    simp [step, State.blockStart, here, closed, openBlock]
  | @blockEnd b bs free here =>
    refine .of_step fun r => ⟨r, ?_⟩
    have hadd := add_with_requires { s with blocks := bs } b.close r
    simp only [step, State.blockEnd, free, here] at hadd ⊢
    exact congrArg _ hadd
  | leftParen here =>
    refine .of_step fun r => ⟨r, ?_⟩
    simp [step, State.leftParen, here]
  | rightParen here group =>
    refine .of_step fun r => ⟨r, ?_⟩
    simp [step, atGroup, here, group]
  | comma here group =>
    refine .of_step fun r => ⟨r, ?_⟩
    simp [step, atGroup, here, group]

end State

end SieveScript
