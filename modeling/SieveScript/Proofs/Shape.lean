import SieveScript.Proofs.Absorbing
import SieveScript.Proofs.Steps

/-!
# The shape of a state

Whether a symbol may be read depends on little: how many blocks are open, what kind of statement is
being read, which tests on the path are negations and which are groups, and the arguments that wait.
`State.shape` keeps that much of a state and `Shape.step` reads a symbol with it. A state can read a
symbol exactly when its shape can, and the shapes agree behind it (`State.steps_isOk_iff`). Comments do
nothing to a shape, so they may be left out (`Shape.run_filter`).
-/

namespace SieveScript

/-! ### Arguments -/

namespace Argument

/-- The argument may arrive while the given ones wait on a node that has a matching. -/
def Fits (waiting : List Argument) (a : Argument) : Prop :=
  a.isMatchType = true ∨
    (∀ t ∈ waiting.getLast?.bind tag?, t = ":value" ∨ t = ":count" →
      (a.string?.bind Relation.ofWord?).isSome = true) ∧
    (∀ t ∈ waiting.getLast?.bind tag?, t = ":comparator" → a.string?.isSome = true)

/-- The arguments that wait behind one that has arrived. -/
def buffer (waiting : List Argument) (a : Argument) : List Argument :=
  if a.isMatchType then waiting
  else if waiting.getLast?.any isLinking then waiting.dropLast
  else waiting ++ [a]

instance (ws : List Argument) (a : Argument) : Decidable (Fits ws a) :=
  inferInstanceAs (Decidable (_ ∨ _ ∧ _))

end Argument

namespace Matching

open Argument
variable {m m' : Matching} {ws ws' : List Argument} {a : Argument} {need : Option String}

theorem fits_of_absorb (h : absorb m ws a = .ok (m', ws', need)) : Fits ws a ∧ ws' = buffer ws a := by
  rcases absorb_cases h with ⟨t, ht, -, rfl⟩ | ⟨ha, hr, -, rfl⟩ | ⟨ha, rfl, c, hc, -⟩ |
    ⟨ha, t, k, ht, rfl, hk, -⟩
  · have ha : a.isMatchType = true := by simp [isMatchType, ht]
    exact ⟨.inl ha, by simp [buffer, ha]⟩
  · have hlast : ws.getLast?.any isLinking = false := by
      cases hl : ws.getLast? with
      | none => rfl
      | some b => exact hr b hl
    refine ⟨.inr ⟨fun t ht hv => ?_, fun t ht hv => ?_⟩, by simp [buffer, ha, hlast]⟩
    all_goals
      obtain ⟨b, hb, hbt⟩ := Option.bind_eq_some_iff.1 ht
      have hb' := hr b hb
      simp only [isLinking, hbt, linkingTags] at hb'
      rcases hv with rfl | rfl <;> simp at hb'
  · refine ⟨.inr ⟨fun t ht hv => ?_, fun t ht hv => by simp [hc]⟩, ?_⟩
    · rw [List.getLast?_concat, Option.bind_some, tag?_tag] at ht
      cases ht
      simp at hv
    · simp [buffer, ha, isLinking, tag?, linkingTags]
  · refine ⟨.inr ⟨fun _ _ _ => ?_, fun t' ht' hv => ?_⟩, ?_⟩
    · obtain ⟨r, hr, -⟩ := Option.bind_eq_some_iff.1 hk
      simp [hr]
    · rw [List.getLast?_concat, Option.bind_some, tag?_tag] at ht'
      cases ht'
      simp [hv] at ht
    · rcases ht with rfl | rfl <;> simp [buffer, ha, isLinking, tag?, linkingTags]

theorem absorb_of_fits (h : Fits ws a) : ∃ r, absorb m ws a = .ok r := by
  cases ht : a.tag?.bind MatchType.ofTag? with
  | some t => exact ⟨_, absorb_matchType ht⟩
  | none =>
    have ha : a.isMatchType = false := by simp [isMatchType, ht]
    rcases h with h | ⟨hrel, hcomp⟩
    · rw [ha] at h
      contradiction
    by_cases hw : Ready ws
    · exact ⟨_, absorb_of_ready ha hw⟩
    obtain ⟨init, t, rfl, rfl | hvc⟩ := exists_of_not_ready hw
    · rw [absorb_comparator ha]
      have hs := hcomp ":comparator" (by simp [tag?]) rfl
      obtain ⟨c, hc⟩ := Option.isSome_iff_exists.1 hs
      exact ⟨_, by rw [hc]⟩
    · rw [absorb_relation ha hvc]
      have hs := hrel t (by simp [tag?]) hvc
      obtain ⟨r, hr⟩ := Option.isSome_iff_exists.1 hs
      rw [hr]
      rcases hvc with rfl | rfl <;> exact ⟨_, rfl⟩

end Matching

/-! ### Shapes -/

/-- A test around the innermost open one. -/
inductive Frame where
  | negation
  | group
  deriving DecidableEq

/-- The innermost open test. -/
inductive Tip where
  | leaf
  | negation
  | group (parens : Parens)
  deriving DecidableEq

/-- The kind of statement that is being read, and the arguments that wait. -/
inductive Outline where
  | action (matching : Bool) (waiting : List Argument)
  | conditional
  | test (outer : List Frame) (tip : Tip) (waiting : List Argument)
  deriving DecidableEq

/-- What decides which symbols may be read. -/
structure Shape where
  blocks : Nat := 0
  statement : Option Outline := none
  deriving DecidableEq

namespace Enclosing

/-- The kind of a test around the innermost one. -/
def frame : Enclosing → Frame
  | negation .. => .negation
  | group .. => .group

end Enclosing

namespace OpenTest

/-- The kind of an open test. -/
def tip : OpenTest → Tip
  | leaf .. => .leaf
  | negation .. => .negation
  | group _ _ _ p _ => .group p

end OpenTest

namespace Statement

/-- The kind of a statement. Of an action it counts whether it takes match types. -/
def outline : Statement → Outline
  | action _ a args => .action a.matching?.isSome args
  | conditional _ => .conditional
  | testing _ p => .test (p.outer.map Enclosing.frame) p.inner.tip p.waiting

end Statement

namespace State

/-- What decides which symbols a state may read. -/
def shape (s : State) : Shape where
  blocks := s.blocks.length
  statement := s.statement.map Statement.outline

end State

namespace Tip

/-- The test as what surrounds another one. -/
def frame? : Tip → Option Frame
  | negation => some .negation
  | group .opened => some .group
  | _ => none

/-- The kind of test that a prototype describes. -/
def ofPrototype? : Prototype → Option Tip
  | .action _ => none
  | .condition _ => some leaf
  | .negation => some negation
  | .group _ => some (group .missing)

end Tip

namespace Frame

/-- The tests around the nearest open group. -/
def climb : List Frame → Option (List Frame)
  | [] => none
  | negation :: outer => climb outer
  | group :: outer => some outer

end Frame

namespace Shape

/-- The tests around the place where a test may stand. -/
def slot? (x : Shape) : Option (List Frame) :=
  match x.statement with
  | some .conditional => some []
  | some (.test outer tip _) => tip.frame?.map (· :: outer)
  | _ => none

/-- Starts the node that a prototype describes, where it may stand. -/
def start (x : Shape) : Prototype → Option Shape
  | .action a =>
    if x.statement = none then some { x with statement := some (.action a.matching?.isSome []) }
    else none
  | p => (Tip.ofPrototype? p).bind fun tip =>
    x.slot?.map fun outer => { x with statement := some (.test outer tip []) }

/-- Reads a word. -/
def word (v : Vocabulary) (x : Shape) (w : String) : Option Shape :=
  match v.meaning w with
  | .conditional =>
    if x.statement = none then some { x with statement := some .conditional } else none
  | .defined d => x.start d.prototype
  | .unknown =>
    x.start (if x.slot?.isSome then .condition (.placeholder []) else .action (.placeholder []))

/-- Reads an argument. -/
def argument (x : Shape) (a : Argument) : Option Shape :=
  match x.statement with
  | some (.action false ws) => some { x with statement := some (.action false (ws ++ [a])) }
  | some (.action true ws) =>
    if Argument.Fits ws a then
      some { x with statement := some (.action true (Argument.buffer ws a)) }
    else none
  | some (.test outer tip ws) =>
    if Argument.Fits ws a then
      some { x with statement := some (.test outer tip (Argument.buffer ws a)) }
    else none
  | _ => none

/-- Closes what is open inside the nearest open group. -/
def atGroup (x : Shape) (p : Parens) : Option Shape :=
  match x.statement with
  | some (.test outer (.group .opened) _) => some { x with statement := some (.test outer (.group p) []) }
  | some (.test outer _ _) =>
    (Frame.climb outer).map fun outer => { x with statement := some (.test outer (.group p) []) }
  | _ => none

/-- Reads a symbol, if it may stand here. -/
def step (v : Vocabulary) (x : Shape) : Symbol → Option Shape
  | .word w => x.word v w
  | .argument a => x.argument a
  | .comment _ => some x
  | .semicolon =>
    match x.statement with
    | some (.action ..) => some { x with statement := none }
    | _ => none
  | .blockStart =>
    match x.statement with
    | some .conditional => some { blocks := x.blocks + 1 }
    | some (.test outer tip _) =>
      if .group ∈ tip.frame?.toList ++ outer then none else some { blocks := x.blocks + 1 }
    | _ => none
  | .blockEnd =>
    match x.statement, x.blocks with
    | none, n + 1 => some { blocks := n }
    | _, _ => none
  | .leftParen =>
    match x.statement with
    | some (.test outer (.group .missing) _) =>
      some { x with statement := some (.test outer (.group .opened) []) }
    | _ => none
  | .rightParen => x.atGroup .closed
  | .comma => x.atGroup .opened
  | .unknown _ => none

/-- Reads symbols, up to the first that may not stand where it is. -/
def run (v : Vocabulary) : Shape → List Symbol → Option Shape
  | x, [] => some x
  | x, y :: ys => (x.step v y).bind fun x' => run v x' ys

end Shape

namespace Shape
variable {v : Vocabulary} {x : Shape} {w : String} {p : Prototype}

theorem start_of_tip {tip : Tip} (h : Tip.ofPrototype? p = some tip) :
    x.start p = x.slot?.map fun outer => { x with statement := some (.test outer tip []) } := by
  cases p with
  | action a => contradiction
  | _ => cases h; rfl

/-- A word that is not known is read as what may stand there, and all others as what they mean. -/
theorem word_eq_start (hw : v.Denotes w p) (hp : v.meaning w = .unknown → p.isTest = x.slot?.isSome) :
    x.word v w = x.start p := by
  rw [Vocabulary.Denotes] at hw
  rw [word]
  cases hm : v.meaning w with
  | conditional =>
    rw [hm] at hw
    contradiction
  | defined d =>
    rw [hm] at hw
    rw [← hw]
  | unknown =>
    rw [hm] at hw
    have hslot := hp hm
    rcases hw with rfl | rfl <;> rw [← hslot] <;> rfl

end Shape

/-! ### A state and its shape -/

namespace State
variable {v : Vocabulary} {s s' : State}

theorem slot?_shape (s : State) : s.shape.slot? = s.slot?.map fun r => r.2.map Enclosing.frame := by
  obtain ⟨items, blocks, st, rs⟩ := s
  cases st with
  | none => rfl
  | some st =>
    cases st with
    | action => rfl
    | conditional => rfl
    | testing h p =>
      obtain ⟨outer, inner, args⟩ := p
      cases inner with
      | leaf => rfl
      | negation => rfl
      | group hd m c ps ts => cases ps <;> rfl

theorem shape_climb (t : Test) (outer : List Enclosing) :
    (TestPath.climb t outer).map (fun g => g.outer.map Enclosing.frame) =
      Frame.climb (outer.map Enclosing.frame) := by
  fun_induction TestPath.climb t outer with
  | case1 => rfl
  | case2 t h m outer ih => exact ih
  | case3 => rfl

theorem shape_nearestGroup? {h : Head} {p : TestPath} (hs : s.statement = some (.testing h p))
    (ps : Parens) :
    s.shape.atGroup ps = p.nearestGroup?.map fun g =>
      { s with statement := some (.testing h (g.toPath ps)) }.shape := by
  obtain ⟨items, blocks, st, rs⟩ := s
  cases hs
  obtain ⟨outer, inner, args⟩ := p
  have hclimb := shape_climb (TestPath.fill ⟨outer, inner, args⟩).1 outer
  rcases inner with _ | _ | ⟨hd, m, c, _ | _ | _, ts⟩
  case group.opened => rfl
  all_goals
    show (Frame.climb (outer.map Enclosing.frame)).map _ = Option.map _ (TestPath.climb _ outer)
    rw [← hclimb, Option.map_map]
    rfl

theorem mem_group_iff (p : TestPath) :
    .group ∈ p.inner.tip.frame?.toList ++ p.outer.map Enclosing.frame ↔ p.hasOpenGroup = true := by
  have hframe : p.inner.tip.frame? = p.inner.enclose?.map Enclosing.frame := by
    rcases p.inner with _ | _ | ⟨hd, m, c, _ | _ | _, ts⟩ <;> rfl
  have hlist : p.inner.tip.frame?.toList ++ p.outer.map Enclosing.frame =
      (p.inner.enclose?.toList ++ p.outer).map Enclosing.frame := by
    rw [List.map_append, hframe]
    cases p.inner.enclose? <;> rfl
  rw [hlist, TestPath.hasOpenGroup, List.any_eq_true, List.mem_map]
  refine exists_congr fun e => and_congr_right fun _ => ?_
  cases e <;> simp [Enclosing.frame]

theorem shape_add (s : State) (i : Item) : (s.add i).shape = s.shape := by
  obtain ⟨items, _ | ⟨b, bs⟩, st, rs⟩ := s <;> rfl

theorem shape_comment (s : State) (c : Comment) : (s.comment c).shape = s.shape := by
  obtain ⟨items, blocks, st, rs⟩ := s
  cases st with
  | none => exact shape_add _ _
  | some st =>
    cases st with
    | action => rfl
    | conditional => rfl
    | testing h p =>
      obtain ⟨outer, inner, args⟩ := p
      cases inner <;> rfl

theorem tip_openTest? (w : String) (p : Prototype) :
    Tip.ofPrototype? p = (p.openTest? w).map OpenTest.tip := by
  cases p <;> rfl

/-- What reading a symbol may do, it does to the shape as well. -/
theorem Reads.shape {y : Symbol} (h : Reads v s y s') : s.shape.step v y = some s'.shape := by
  obtain ⟨items, blocks, st, rs⟩ := s
  cases h with
  | conditional word free =>
    cases free
    simp [Shape.step, Shape.word, word, State.shape, Statement.outline]
  | @action w a word free =>
    cases free
    refine (Shape.word_eq_start word fun _ => rfl).trans ?_
    simp [Shape.start, State.shape, Statement.outline]
  | @test w p t h outer word opens slot =>
    have hslot : (State.mk items blocks st rs).shape.slot? = some (outer.map Enclosing.frame) := by
      rw [slot?_shape, slot]
      rfl
    have htip : Tip.ofPrototype? p = some t.tip := by rw [tip_openTest? w, opens]; rfl
    refine (Shape.word_eq_start word fun _ => ?_).trans ?_
    · rw [hslot]
      cases p <;> first | contradiction | rfl
    · rw [Shape.start_of_tip htip, hslot]
      rfl
  | @argument h a args b here plain =>
    cases here
    simp [Shape.step, Shape.argument, State.shape, Statement.outline, plain]
  | @absorbed h a args args' b m m' need here matching absorb =>
    cases here
    obtain ⟨hf, rfl⟩ := Matching.fits_of_absorb absorb
    have hm : (a.withMatching m').matching?.isSome = true := by
      cases a <;> first | contradiction | rfl
    simp [Shape.step, Shape.argument, State.shape, Statement.outline, matching, hm, hf]
  | @tested h p args' b m' need here absorb =>
    cases here
    obtain ⟨hf, rfl⟩ := Matching.fits_of_absorb absorb
    have ht : (p.inner.withMatching m').tip = p.inner.tip := by cases p.inner <;> rfl
    simp [Shape.step, Shape.argument, State.shape, Statement.outline, ht, hf]
  | comment => exact congrArg some (shape_comment _ _).symm
  | semicolon here =>
    cases here
    rw [shape_add]
    rfl
  | blockStart here =>
    cases here
    rfl
  | @testEnd h p here closed =>
    cases here
    have hmem : .group ∉ p.inner.tip.frame?.toList ++ p.outer.map Enclosing.frame := by
      rw [mem_group_iff, closed]
      simp
    simp only [Shape.step, State.shape, Option.map_some, Statement.outline]
    rw [if_neg hmem]
    rfl
  | blockEnd free here =>
    cases free
    cases here
    rw [shape_add]
    rfl
  | leftParen here =>
    cases here
    rfl
  | rightParen here group | comma here group =>
    refine (shape_nearestGroup? here _).trans ?_
    rw [group]
    rfl

theorem exists_reads_of_start {w : String} {p : Prototype} (hw : v.Denotes w p) {x : Shape}
    (h : s.shape.start p = some x) : ∃ s', Reads v s (.word w) s' := by
  cases ht : p.openTest? w with
  | none =>
    cases p with
    | action a =>
      simp only [Shape.start, State.shape, Option.map_eq_none_iff] at h
      split at h
      next hs => exact ⟨_, .action hw hs⟩
      · contradiction
    | _ => contradiction
  | some t =>
    have htip : Tip.ofPrototype? p = some t.tip := by rw [tip_openTest? w, ht]; rfl
    rw [Shape.start_of_tip htip] at h
    obtain ⟨outer, ho, -⟩ := Option.map_eq_some_iff.1 h
    rw [slot?_shape] at ho
    obtain ⟨⟨hd, outer⟩, hs, -⟩ := Option.map_eq_some_iff.1 ho
    exact ⟨_, .test hw ht hs⟩

theorem exists_reads_of_word {w : String} {x : Shape} (h : s.shape.word v w = some x) :
    ∃ s', Reads v s (.word w) s' := by
  rw [Shape.word] at h
  split at h
  next hm =>
    simp only [State.shape, Option.map_eq_none_iff] at h
    split at h
    next hs => exact ⟨_, .conditional hm hs⟩
    · contradiction
  next d hm => exact exists_reads_of_start (Vocabulary.denotes_of_defined hm) h
  next hm => exact exists_reads_of_start (Vocabulary.denotes_placeholder hm _) h

theorem exists_reads_of_argument {b : Argument} {x : Shape} (h : s.shape.argument b = some x) :
    ∃ s', Reads v s (.argument b) s' := by
  rw [Shape.argument] at h
  cases hs : s.statement with
  | none => simp [State.shape, hs] at h
  | some st =>
    cases st with
    | action hd a args =>
      cases hm : a.matching? with
      | none => exact ⟨_, .argument hs hm⟩
      | some m =>
        simp only [State.shape, hs, Option.map_some, Statement.outline, hm, Option.isSome_some] at h
        split at h
        next hf =>
          obtain ⟨⟨m', args', need⟩, hr⟩ := Matching.absorb_of_fits (m := m) hf
          exact ⟨_, .absorbed hs hm hr⟩
        · contradiction
    | conditional hd => simp [State.shape, hs, Statement.outline] at h
    | testing hd p =>
      simp only [State.shape, hs, Option.map_some, Statement.outline] at h
      split at h
      next hf =>
        obtain ⟨⟨m', args', need⟩, hr⟩ := Matching.absorb_of_fits (m := p.inner.matching) hf
        exact ⟨_, .tested hs hr⟩
      · contradiction

theorem exists_reads_of_semicolon {x : Shape} (h : s.shape.step v .semicolon = some x) :
    ∃ s', Reads v s .semicolon s' := by
  rw [Shape.step, State.shape] at h
  cases hs : s.statement with
  | none => simp [hs] at h
  | some st =>
    cases st with
    | action hd a args => exact ⟨_, .semicolon hs⟩
    | conditional hd => simp [hs, Statement.outline] at h
    | testing hd p => simp [hs, Statement.outline] at h

theorem exists_reads_of_blockStart {x : Shape} (h : s.shape.step v .blockStart = some x) :
    ∃ s', Reads v s .blockStart s' := by
  rw [Shape.step, State.shape] at h
  cases hs : s.statement with
  | none => simp [hs] at h
  | some st =>
    cases st with
    | action hd a args => simp [hs, Statement.outline] at h
    | conditional hd => exact ⟨_, .blockStart hs⟩
    | testing hd p =>
      simp only [hs, Option.map_some, Statement.outline] at h
      split at h
      · contradiction
      next hmem =>
        rw [mem_group_iff, Bool.not_eq_true] at hmem
        exact ⟨_, .testEnd hs hmem⟩

theorem exists_reads_of_leftParen {x : Shape} (h : s.shape.step v .leftParen = some x) :
    ∃ s', Reads v s .leftParen s' := by
  simp only [Shape.step, State.shape] at h
  split at h
  next outer args hs =>
    obtain ⟨st, hst, ho⟩ := Option.map_eq_some_iff.1 hs
    rcases st with _ | _ | ⟨hd, outer, inner, args⟩
    · cases ho
    · cases ho
    · rcases inner with _ | _ | ⟨g, m, c, _ | _ | _, ts⟩ <;> cases ho
      exact ⟨_, .leftParen hst⟩
  · contradiction

theorem exists_nearestGroup_of_atGroup {p : Parens} {x : Shape} (h : s.shape.atGroup p = some x) :
    ∃ hd path g, s.statement = some (.testing hd path) ∧ path.nearestGroup? = some g := by
  cases hs : s.statement with
  | none => simp [Shape.atGroup, State.shape, hs] at h
  | some st =>
    cases st with
    | action hd a args => simp [Shape.atGroup, State.shape, hs, Statement.outline] at h
    | conditional hd => simp [Shape.atGroup, State.shape, hs, Statement.outline] at h
    | testing hd path =>
      rw [shape_nearestGroup? hs] at h
      obtain ⟨g, hg, -⟩ := Option.map_eq_some_iff.1 h
      exact ⟨hd, path, g, rfl, hg⟩

/-- What a shape can read, every state of that shape can. -/
theorem exists_reads_of_shape {y : Symbol} {x : Shape} (h : s.shape.step v y = some x) :
    ∃ s', Reads v s y s' := by
  cases y with
  | word w => exact exists_reads_of_word h
  | argument b => exact exists_reads_of_argument h
  | comment c => exact ⟨_, .comment⟩
  | semicolon => exact exists_reads_of_semicolon h
  | blockStart => exact exists_reads_of_blockStart h
  | blockEnd =>
    cases hs : s.statement with
    | none =>
      cases hb : s.blocks with
      | nil => simp [Shape.step, State.shape, hs, hb] at h
      | cons b bs => exact ⟨_, .blockEnd hs hb⟩
    | some st => simp [Shape.step, State.shape, hs] at h
  | leftParen => exact exists_reads_of_leftParen h
  | rightParen =>
    obtain ⟨hd, path, g, hs, hg⟩ := exists_nearestGroup_of_atGroup h
    exact ⟨_, .rightParen hs hg⟩
  | comma =>
    obtain ⟨hd, path, g, hs, hg⟩ := exists_nearestGroup_of_atGroup h
    exact ⟨_, .comma hs hg⟩
  | unknown t => contradiction

theorem shape_of_step {y : Symbol} (h : s.step v y = .ok s') : s.shape.step v y = some s'.shape := by
  obtain ⟨s₁, hr, heq⟩ := reads_of_step h
  rw [hr.shape, heq]
  rfl

theorem step_isOk_of_shape {y : Symbol} (h : (s.shape.step v y).isSome = true) :
    ∃ s', s.step v y = .ok s' := by
  obtain ⟨x, hx⟩ := Option.isSome_iff_exists.1 h
  obtain ⟨s₁, hr⟩ := exists_reads_of_shape hx
  obtain ⟨r, hs⟩ := hr.leads s.requires
  cases hstep : s.step v y with
  | ok s' => exact ⟨s', rfl⟩
  | error f => rw [steps, hstep] at hs; contradiction

/-- A state can read symbols exactly when its shape can. -/
theorem steps_isOk_iff {ys : List Symbol} :
    (∃ s', steps v s ys = .ok s') ↔ (s.shape.run v ys).isSome = true := by
  induction ys generalizing s with
  | nil => simp [Shape.run]
  | cons y ys ih =>
    cases hstep : s.step v y with
    | ok s₁ => rw [steps_cons_of_ok hstep, Shape.run, shape_of_step hstep, Option.bind_some, ih]
    | error f =>
      have hnone : s.shape.step v y = none := by
        rw [← Option.not_isSome_iff_eq_none]
        intro hx
        obtain ⟨s', hok⟩ := step_isOk_of_shape hx
        rw [hstep] at hok
        contradiction
      simp [steps, hstep, Shape.run, hnone]

end State

/-- The symbol is a comment. -/
def Symbol.isComment : Symbol → Bool
  | comment _ => true
  | _ => false

namespace Shape
variable {v : Vocabulary} {x : Shape}

/-- Comments change nothing. -/
theorem run_filter (ys : List Symbol) : x.run v (ys.filter (!·.isComment)) = x.run v ys := by
  induction ys generalizing x with
  | nil => rfl
  | cons y ys ih =>
    cases y with
    | comment c => exact ih
    | _ => exact bind_congr fun x' => ih

theorem run_append {xs ys : List Symbol} : x.run v (xs ++ ys) = (x.run v xs).bind (run v · ys) := by
  induction xs generalizing x with
  | nil => rfl
  | cons y xs ih =>
    rw [List.cons_append, run, run, Option.bind_assoc]
    exact bind_congr fun x' => ih

end Shape

end SieveScript
