import SieveScript.Proofs.Levels

/-!
# Reading by places is reading

A step of the track of a state is the track of a step of the state (`State.step_track`), with one
lemma for each thing a symbol can do. So a run from the start passes through tracks of states only
(`Track.run_track`), and it fails where the script is at fault and nowhere else.
-/

namespace SieveScript

/-! ### Words -/

namespace Track
variable {items : List Item} {l : Level} {ls : List Level} {args : List Argument} {rs : List String}
  {n : Node} {w parent : String}

theorem attachItem_refused {i : Item} (hn : resolve items (l :: ls) = some n)
    (hl : ¬ (l.role = .conditional ∧ l.blockOpen = true)) (hw : i.head?.map Head.word = some w)
    (hparent : l.word = parent) :
    attachItem ⟨items, l :: ls, args, rs⟩ w i = .error (.fault (.commandNotAllowed w parent)) := by
  simp only [attachItem, hn, hw, Option.getD_some, if_neg hl, hparent]
  cases n <;> rfl

theorem attachTest_refused {t : Test} (hn : resolve items (l :: ls) = some n)
    (hl : l.expectsTest = false) (hw : t.head.word = w) (hparent : l.word = parent) :
    attachTest ⟨items, l :: ls, args, rs⟩ w t = .error (.fault (.testNotAllowed w parent)) := by
  have hcond : ¬ (l.role = .conditional ∧ l.blockOpen = false) := by
    rintro ⟨hr, hb⟩
    simp [Level.expectsTest, hr, hb] at hl
  have hneg : l.role ≠ .negation := by
    intro hr
    simp [Level.expectsTest, hr] at hl
  have hgroup : ¬ (l.role = .group ∧ l.parens = .opened) := by
    rintro ⟨hr, hp⟩
    simp [Level.expectsTest, hr, hp] at hl
  simp only [attachTest, hn, hw, hparent, if_neg hcond, if_neg hneg, if_neg hgroup]
  cases n <;> rfl

theorem attachTest_conditional {tree : Item → List Item} (h : ItemAt tree (l :: ls)) {hd : Head}
    {is : List Item} (hr : l.role = .conditional) (hb : l.blockOpen = false) (t : Test) :
    attachTest ⟨tree (.conditional hd none is), l :: ls, args, rs⟩ w t =
      .ok ⟨tree (.conditional hd (some t) is), .fresh w (.test t) .test :: l :: ls, args, rs⟩ := by
  simp only [attachTest, h.resolve (.conditional hd none is) rfl, h.edit, if_pos (And.intro hr hb)]
  rfl

theorem attachTest_negation {tree : Test → List Item} (h : TestAt tree (l :: ls)) {hd : Head}
    {m : Matching} (hr : l.role = .negation) (t : Test) :
    attachTest ⟨tree (.negation hd m none), l :: ls, args, rs⟩ w t =
      .ok ⟨tree (.negation hd m (some t)), .fresh w (.test t) .test :: l :: ls, args, rs⟩ := by
  simp only [attachTest, h.resolve (.negation hd m none), h.edit (.negation hd m none), if_pos hr]
  rfl

theorem attachTest_group {tree : Test → List Item} (h : TestAt tree (l :: ls)) {hd : Head}
    {m : Matching} {c : Connective} {ts : List Test} (hr : l.role = .group) (hp : l.parens = .opened)
    (t : Test) :
    attachTest ⟨tree (.group hd m c ts), l :: ls, args, rs⟩ w t =
      .ok ⟨tree (.group hd m c (ts ++ [t])), .fresh w (.test t) (.member ts.length) :: l :: ls, args,
        rs⟩ := by
  have hneg : l.role ≠ .negation := by simp [hr]
  simp only [attachTest, h.resolve (.group hd m c ts), h.edit (.group hd m c ts), if_neg hneg,
    if_pos (And.intro hr hp)]
  rfl

end Track

namespace State

/-- Starting a command is putting its item into the tree. -/
theorem attachItem_track (s : State) {w : String} {c : Statement}
    (hword : c.item.head?.map Head.word = some w) (hwaiting : c.waiting = [])
    (hlevels : ∀ place, c.levels place = [Level.fresh w (.item c.item) place]) :
    s.fill.track.attachItem w c.item = tracked (s.startCommand w c) := by
  obtain ⟨items, bs, st, rs⟩ := s
  cases st with
  | none =>
    have htrack : track ⟨items, bs, some c, rs⟩ =
        ⟨tree items bs c.item, Level.fresh w (.item c.item) (next items bs) :: blockLevels items bs, [], rs⟩ := by
      simp [track, hlevels, hwaiting, tree]
    rw [startCommand, tracked, htrack]
    cases bs with
    | nil => rw [fill, Option.map_none, track_nil]; rfl
    | cons b bs =>
      have hat := itemAt_conditional items bs b.head true
      rw [fill, Option.map_none, track_block]
      simp only [Track.attachItem, hat.resolve b.close rfl, hat.edit]
      rfl
  | some st =>
    rw [startCommand, tracked, fill, Option.map_some]
    cases st with
    | action hd a args =>
      rw [Statement.fill, track_action]
      exact Track.attachItem_refused ((itemAt_tree rfl).resolve _ rfl) (by simp) hword rfl
    | conditional hd =>
      rw [Statement.fill, track_conditional]
      exact Track.attachItem_refused ((itemAt_tree rfl).resolve _ rfl) (by simp [Level.conditional]) hword rfl
    | testing hd p =>
      rw [Statement.fill, track_testing]
      refine Track.attachItem_refused ((testAt_levels hd _).resolve _) ?_ hword ?_
      · cases p.inner <;> simp [OpenTest.fill, OpenTest.level]
      · rw [OpenTest.level_fill]
        cases h : p.inner <;> simp [Statement.word, OpenTest.level, OpenTest.head, h]

theorem attachTest_track (s : State) {w : String} {o : OpenTest} (hword : o.head.word = w)
    (hlevel : ∀ place, o.level place = Level.fresh w (.test o.toTest) place) :
    s.fill.track.attachTest w o.toTest = tracked (s.startTest w o) := by
  obtain ⟨items, bs, st, rs⟩ := s
  have hhead : o.toTest.head.word = w := by
    rw [← hword]
    cases o <;> rfl
  cases st with
  | none =>
    cases bs with
    | nil =>
      rw [fill, Option.map_none, track_nil]
      simp only [Track.attachTest, hhead]
      rfl
    | cons b bs =>
      rw [fill, Option.map_none, track_block]
      exact Track.attachTest_refused ((itemAt_tree rfl).resolve _ rfl) rfl hhead rfl
  | some st =>
    rw [fill, Option.map_some]
    cases st with
    | action hd a args =>
      rw [Statement.fill, track_action]
      exact Track.attachTest_refused ((itemAt_tree rfl).resolve _ rfl) rfl hhead rfl
    | conditional hd =>
      rw [Statement.fill, startTest, tracked, track_conditional, track_testing]
      simp only [TestPath.levels, hlevel]
      exact Track.attachTest_conditional (itemAt_tree rfl) rfl rfl o.toTest
    | testing hd p =>
      obtain ⟨outer, inner, args⟩ := p
      rw [Statement.fill, track_testing]
      cases inner with
      | leaf g m c => exact Track.attachTest_refused ((testAt_levels hd _).resolve _) rfl hhead rfl
      | negation g m =>
        refine (Track.attachTest_negation (testAt_levels hd ⟨outer, .negation g m, []⟩) rfl o.toTest).trans ?_
        simp only [startTest, TestPath.enter?, OpenTest.enclose?, Option.map_some, tracked, track_testing,
          TestPath.levels, hlevel]
        rfl
      | group g m c ps ts =>
        cases ps with
        | missing => exact Track.attachTest_refused ((testAt_levels hd _).resolve _) rfl hhead rfl
        | opened =>
          refine (Track.attachTest_group (testAt_levels hd ⟨outer, .group g m c .opened ts, []⟩) rfl rfl
            o.toTest).trans ?_
          simp only [startTest, TestPath.enter?, OpenTest.enclose?, Option.map_some, tracked,
            track_testing, TestPath.levels, hlevel]
          rfl
        | closed => exact Track.attachTest_refused ((testAt_levels hd _).resolve _) rfl hhead rfl

theorem need_track (s : State) (c : String) : (s.need c).track = s.track.need c := by
  unfold need Track.need
  show track (if s.requires.contains c then _ else _) = if s.requires.contains c then _ else _
  split <;> rfl

theorem needAll_track (s : State) (cs : List String) : (s.needAll cs).track = s.track.needAll cs := by
  induction cs generalizing s with
  | nil => rfl
  | cons c cs ih =>
    show ((s.need c).needAll cs).track = (s.track.need c).needAll cs
    rw [ih, need_track]

theorem needAll_withStatement (s : State) (cs : List String) (st : Option Statement) :
    { s with statement := st }.needAll cs = { s.needAll cs with statement := st } := by
  induction cs generalizing s with
  | nil => rfl
  | cons c cs ih =>
    have hneed : { s with statement := st }.need c = { s.need c with statement := st } := by
      unfold need
      show (if s.requires.contains c then _ else _) = _
      split <;> rfl
    show ({ s with statement := st }.need c).needAll cs = { (s.need c).needAll cs with statement := st }
    rw [hneed, ih]

theorem statement_needAll (s : State) (cs : List String) : (s.needAll cs).statement = s.statement := by
  obtain ⟨r, hr⟩ := exists_needAll_eq s cs
  rw [hr]

theorem needAll_fill (s : State) (cs : List String) : (s.needAll cs).fill = s.fill.needAll cs := by
  rw [fill, fill, statement_needAll]
  exact (needAll_withStatement s cs _).symm

theorem start_track (s : State) (w : String) (p : Prototype) :
    s.fill.track.attach w (p.fresh w) = tracked (s.start w p) := by
  cases p with
  | action a => exact attachItem_track s (c := .action { word := w } a []) rfl rfl fun _ => rfl
  | condition c => exact attachTest_track s (o := .leaf { word := w } {} c) rfl fun _ => rfl
  | negation => exact attachTest_track s (o := .negation { word := w } {}) rfl fun _ => rfl
  | group c => exact attachTest_track s (o := .group { word := w } {} c .missing []) rfl fun _ => rfl

theorem expectsTest_track (s : State) :
    s.fill.track.levels.head?.any Level.expectsTest = s.expectsTest := by
  obtain ⟨items, bs, st, rs⟩ := s
  cases st with
  | none => cases bs <;> rfl
  | some st =>
    cases st with
    | action hd a args => rfl
    | conditional hd => rfl
    | testing hd p =>
      obtain ⟨outer, inner, args⟩ := p
      rcases inner with _ | _ | ⟨g, m, c, _ | _ | _, ts⟩ <;> rfl

theorem word_track {v : Vocabulary} {s : State} (h : s.Idle) (w : String) :
    s.track.word v w = tracked (s.word v w) := by
  rw [Track.word, flush_track h, word]
  cases hm : v.meaning w with
  | conditional => exact attachItem_track s (c := .conditional { word := w }) rfl rfl fun _ => rfl
  | defined d =>
    have hd : d.fresh = d.prototype.fresh w := by rw [Definition.fresh, Vocabulary.word_of_meaning hm]
    simp only
    rw [hd, ← needAll_track, ← needAll_fill]
    exact start_track _ w d.prototype
  | unknown =>
    simp only [expectsTest_track]
    rw [← start_track]
    cases s.expectsTest <;> rfl

end State

/-! ### Arguments -/

namespace Track

theorem needAll_mk (items : List Item) (ls : List Level) (args : List Argument) (rs cs : List String) :
    needAll ⟨items, ls, args, rs⟩ cs = ⟨items, ls, args, (needAll { requires := rs } cs).requires⟩ := by
  induction cs generalizing rs with
  | nil => rfl
  | cons c cs ih =>
    have hneed : ∀ items ls args, need ⟨items, ls, args, rs⟩ c =
        ⟨items, ls, args, if rs.contains c then rs else rs ++ [c]⟩ := by
      intro items ls args
      unfold need
      simp only
      split <;> rfl
    show needAll (need ⟨items, ls, args, rs⟩ c) cs = ⟨items, ls, args, (needAll (need ⟨[], [], [], rs⟩ c) cs).requires⟩
    rw [hneed, hneed, ih]

/-- Where the innermost node has a matching, an argument does what `Matching.absorb` says. -/
theorem matchArgument_eq (tree : Matching → List Item) {items : List Item} {ls : List Level}
    {m : Matching} (hself : tree m = items)
    (h : ∀ f args rs, changeMatching ⟨items, ls, args, rs⟩ f = .ok ⟨tree (f m), ls, args, rs⟩)
    (args : List Argument) (rs : List String) (a : Argument) :
    matchArgument ⟨items, ls, args, rs⟩ a =
      match m.absorb args a with
      | .ok (m', args', need) => .ok (needAll ⟨tree m', ls, args', rs⟩ need.toList)
      | .error f => .error (.fault f) := by
  subst hself
  have htype : ∀ t args rs, setMatchType ⟨tree m, ls, args, rs⟩ t =
      .ok (needAll ⟨tree { m with matchType := some t }, ls, args, rs⟩ t.capability?.toList) := by
    intro t args rs
    rw [setMatchType, needAll_mk, h, needAll_mk (tree _)]
  have hcomparator : ∀ c args rs, setComparator ⟨tree m, ls, args, rs⟩ c =
      .ok (needAll ⟨tree { m with comparator := some c }, ls, args, rs⟩
        (Matching.comparatorCapability? c).toList) := by
    intro c args rs
    rw [setComparator, needAll_mk, h, needAll_mk (tree _)]
  rw [matchArgument, Matching.absorb]
  cases ht : a.tag?.bind MatchType.ofTag? with
  | some t => exact htype t args rs
  | none =>
    simp only
    -- Both sides look at the last waiting argument, so the cases are split for both at once.
    generalize args.getLast?.bind Argument.tag? = last
    split
    · cases a.string? with
      | some c => exact hcomparator c args.dropLast rs
      | none => rfl
    next tag hne =>
      by_cases htag : tag = ":value" ∨ tag = ":count"
      · simp only [if_pos htag]
        cases (a.string?.bind Relation.ofWord?).bind (MatchType.ofRelation? tag) with
        | some t => exact htype t args.dropLast rs
        | none => rfl
      · simp only [if_neg htag]
        rfl
    · rfl

theorem changeMatching_item {tree : Item → List Item} {ls : List Level} (h : ItemAt tree ls) {hd : Head}
    {a : Action} {m : Matching} (hm : a.matching? = some m) (f : Matching → Matching)
    (args : List Argument) (rs : List String) :
    changeMatching ⟨tree (.action hd a), ls, args, rs⟩ f =
      .ok ⟨tree (.action hd (a.withMatching (f m))), ls, args, rs⟩ := by
  simp only [changeMatching, h.resolve (.action hd a) rfl, Node.matching?, Item.matching?, hm, h.edit,
    Edit.matching]
  rfl

theorem changeMatching_test {tree : Test → List Item} {ls : List Level} (h : TestAt tree ls)
    (o : OpenTest) (f : Matching → Matching) (args : List Argument) (rs : List String) :
    changeMatching ⟨tree o.toTest, ls, args, rs⟩ f =
      .ok ⟨tree (o.withMatching (f o.matching)).toTest, ls, args, rs⟩ := by
  have hedit : (Edit.matching f).test o.toTest = (o.withMatching (f o.matching)).toTest := by
    cases o <;> rfl
  simp only [changeMatching, h.resolve o.toTest, h.edit o.toTest, hedit]
  rfl

end Track

namespace State

theorem tracked_absorb (s : State) (m : Matching) (args : List Argument) (b : Argument)
    (g : Matching → List Argument → Statement) :
    tracked (do
        let (m, args, capability) ← m.absorb args b
        return { s.needAll capability.toList with statement := some (g m args) }) =
      match m.absorb args b with
      | .ok (m', args', need) =>
        .ok ({ s with statement := some (g m' args') }.track.needAll need.toList)
      | .error f => .error (.fault f) := by
  cases m.absorb args b with
  | error f => rfl
  | ok r =>
    obtain ⟨m', args', need⟩ := r
    show Except.ok (track { s.needAll need.toList with statement := some (g m' args') }) = _
    rw [← needAll_withStatement, needAll_track]

theorem argument_track (s : State) (b : Argument) : s.track.argument b = tracked (s.argument b) := by
  obtain ⟨items, bs, st, rs⟩ := s
  cases st with
  | none => cases bs <;> rfl
  | some st =>
    cases st with
    | action hd a args =>
      rw [track_action]
      cases hm : a.matching? with
      | none =>
        simp only [Track.argument, argument, tracked, track_action, hm]
        rfl
      | some m =>
        have hself : a.withMatching m = a := by
          cases a <;> first | contradiction | (cases hm; rfl)
        have hsome : ∀ m', (a.withMatching m').matching?.isSome = true := by
          intro m'
          cases a <;> first | contradiction | rfl
        have hstate := tracked_absorb ⟨items, bs, some (.action hd a args), rs⟩ m args b
          fun m' args' => .action hd (a.withMatching m') args'
        have hat := itemAt_action items bs hd true
        have htrack := Track.matchArgument_eq (fun m => tree items bs (.action hd (a.withMatching m)))
          (by rw [hself]) (Track.changeMatching_item hat hm) args rs b
        simp only [argument, hm]
        refine Eq.trans htrack (Eq.trans ?_ hstate.symm)
        simp only [track_action, hsome]
    | conditional hd => rfl
    | testing hd p =>
      have hself : p.inner.withMatching p.inner.matching = p.inner := by cases p.inner <;> rfl
      have hlevel : ∀ m place, (p.inner.withMatching m).level place = p.inner.level place := by
        intro m place
        cases p.inner <;> rfl
      have hlevels : p.levels = p.inner.level (TestPath.placeIn p.outer) :: TestPath.outerLevels p.outer := rfl
      have hrole : (p.inner.level (TestPath.placeIn p.outer)).role ≠ .conditional := by
        cases p.inner <;> simp [OpenTest.level]
      have hmatcher : (p.inner.level (TestPath.placeIn p.outer)).matcher = true := by
        cases p.inner <;> rfl
      have hstate := tracked_absorb ⟨items, bs, some (.testing hd p), rs⟩ p.inner.matching p.waiting b
        fun m' args' => .testing hd { p with inner := p.inner.withMatching m', waiting := args' }
      have htrack := Track.matchArgument_eq (fun m => tree items bs (.conditional hd
        (some (TestPath.wrap p.outer (p.inner.withMatching m).toTest)) [])) (by rw [hself])
        (Track.changeMatching_test (testAt_levels hd p) p.inner) p.waiting rs b
      rw [track_testing, Track.argument, hlevels, List.cons_append]
      simp only [if_neg hrole, if_pos hmatcher]
      refine Eq.trans htrack (Eq.trans ?_ hstate.symm)
      simp only [track_testing, TestPath.levels, hlevel]

/-! ### Comments, semicolons and the ends of blocks -/

theorem track_add (items : List Item) (bs : List OpenBlock) (rs : List String) (i : Item) :
    (add ⟨items, bs, none, rs⟩ i).track = ⟨tree items bs i, blockLevels items bs, [], rs⟩ := by
  cases bs with
  | nil => exact track_nil
  | cons b bs => exact track_block

theorem track_add_needAll (items : List Item) (bs : List OpenBlock) (ls : List Level)
    (rs cs : List String) (i : Item) :
    ((needAll ⟨items, bs, none, rs⟩ cs).add i).track =
      { Track.needAll ⟨tree items bs i, ls, [], rs⟩ cs with levels := blockLevels items bs } := by
  obtain ⟨r, hr⟩ := exists_needAll_eq ⟨items, bs, none, rs⟩ cs
  have hrequires : r = (Track.needAll { requires := rs } cs).requires := by
    have htrack := congrArg Track.requires (needAll_track ⟨items, bs, none, rs⟩ cs)
    rw [hr, track, Track.needAll_mk] at htrack
    exact htrack
  rw [hr, track_add, Track.needAll_mk, hrequires]

theorem comment_track (s : State) (c : Comment) : s.track.comment c = (s.comment c).track := by
  obtain ⟨items, bs, st, rs⟩ := s
  cases st with
  | none =>
    rw [State.comment, track_add]
    cases bs with
    | nil => rw [track_nil]; rfl
    | cons b bs =>
      have hat := itemAt_conditional items bs b.head true
      rw [track_block]
      simp only [Track.comment, hat.resolve b.close rfl, hat.edit]
      rfl
  | some st =>
    cases st with
    | action hd a args =>
      have hat := itemAt_action items bs hd a.matching?.isSome
      rw [State.comment, track_action, track_action]
      simp only [Track.comment, hat.resolve (.action hd a) rfl, hat.edit]
      rfl
    | conditional hd =>
      have hat := itemAt_conditional items bs hd false
      rw [State.comment, track_conditional, track_conditional]
      simp only [Track.comment, hat.resolve (.conditional hd none []) rfl, hat.edit]
      rfl
    | testing hd p =>
      have hat := @testAt_levels items bs hd p
      have hedit : ∀ b, (Edit.comment b c).test p.inner.toTest =
          (p.inner.withHead (attach c p.inner.head)).toTest := by
        intro b
        cases p.inner <;> rfl
      have hlevel : ∀ place, (p.inner.withHead (attach c p.inner.head)).level place = p.inner.level place := by
        intro place
        cases p.inner <;> rfl
      rw [State.comment, track_testing, track_testing]
      simp only [TestPath.levels, List.cons_append, hlevel] at hat ⊢
      simp only [Track.comment, hat.resolve p.inner.toTest, hat.edit p.inner.toTest, hedit]

theorem semicolon_track {s : State} (h : s.Idle) : s.track.semicolon = tracked s.semicolon := by
  have hflush := flush_track h
  obtain ⟨items, bs, st, rs⟩ := s
  cases st with
  | none => cases bs <;> rfl
  | some st =>
    cases st with
    | action hd a args =>
      have hat := itemAt_action items bs hd (a.take.run args).1.matching?.isSome
      rw [fill, Option.map_some, Statement.fill, track_action, track_action] at hflush
      rw [State.semicolon, tracked, track_add_needAll, track_action]
      simp only [Track.semicolon, ↓reduceIte, hflush, hat.resolve (.action hd (a.take.run args).1) rfl]
      rfl
    | conditional hd => rfl
    | testing hd p =>
      obtain ⟨outer, inner, args⟩ := p
      cases inner <;> rfl

theorem blockEnd_track (s : State) : s.track.blockEnd = tracked s.blockEnd := by
  obtain ⟨items, bs, st, rs⟩ := s
  cases st with
  | none =>
    cases bs with
    | nil => rfl
    | cons b bs =>
      rw [track_block, State.blockEnd, tracked, track_add]
      rfl
  | some st =>
    cases st with
    | action hd a args => rfl
    | conditional hd => rfl
    | testing hd p =>
      obtain ⟨outer, inner, args⟩ := p
      cases inner <;> rfl

end State

/-! ### Parentheses and the starts of blocks -/

namespace TestPath
variable {place : Place} {hd : Head} {ls : List Level}

/-- The parenthesis of some group is open. -/
def anyGroup : List Enclosing → Bool
  | [] => false
  | .negation .. :: outer => anyGroup outer
  | .group .. :: _ => true

theorem hasOpenGroup_eq (p : TestPath) : p.hasOpenGroup = anyGroup (p.inner.enclose?.toList ++ p.outer) := by
  rw [hasOpenGroup]
  generalize p.inner.enclose?.toList ++ p.outer = outer
  induction outer with
  | nil => rfl
  | cons e outer ih =>
    cases e with
    | negation h m => exact ih
    | group h m c ts => rfl

theorem startBlock_outerLevels (outer : List Enclosing) :
    Track.startBlock (outerLevels outer ++ .conditional place hd false :: ls) =
      if anyGroup outer then .error (.fault .groupNotClosed) else .ok (.conditional place hd true :: ls) := by
  induction outer with
  | nil => rfl
  | cons e outer ih =>
    cases e with
    | negation h m => exact ih
    | group h m c ts => rfl

theorem startBlock_levels (p : TestPath) :
    Track.startBlock (p.levels ++ .conditional place hd false :: ls) =
      if p.hasOpenGroup then .error (.fault .groupNotClosed)
      else .ok (.conditional place hd true :: ls) := by
  rw [hasOpenGroup_eq]
  obtain ⟨outer, inner, args⟩ := p
  rcases inner with _ | _ | ⟨g, m, c, _ | _ | _, ts⟩
  case group.opened => rfl
  all_goals exact startBlock_outerLevels outer

theorem openGroup_outerLevels (outer : List Enclosing) :
    Track.openGroup (outerLevels outer ++ .conditional place hd false :: ls) =
      .error (.fault .leftParenMisplaced) := by
  induction outer with
  | nil => rfl
  | cons e outer ih =>
    cases e with
    | negation h m => exact ih
    | group h m c ts => rfl

theorem openGroup_levels (p : TestPath) (h : ∀ g m c ts, p.inner ≠ .group g m c .missing ts) :
    Track.openGroup (p.levels ++ .conditional place hd false :: ls) =
      .error (.fault .leftParenMisplaced) := by
  obtain ⟨outer, inner, args⟩ := p
  rcases inner with _ | _ | ⟨g, m, c, _ | _ | _, ts⟩
  · exact openGroup_outerLevels outer
  · exact openGroup_outerLevels outer
  · exact absurd rfl (h g m c ts)
  · rfl
  · rfl

theorem unwind_outerLevels (ps : Parens) (f : Fault) (t : Test) (outer : List Enclosing) :
    Track.unwind ps f (outerLevels outer ++ .conditional place hd false :: ls) =
      match climb t outer with
      | some g => .ok ((g.toPath ps).levels ++ .conditional place hd false :: ls)
      | none => .error (.fault f) := by
  -- The levels do not depend on `t`, which is only there because climbing builds the tree as well.
  fun_induction climb t outer with
  | case1 t => rfl
  | case2 t h m outer ih => exact ih
  | case3 t h m c ts outer => rfl

theorem unwind_levels (ps : Parens) (f : Fault) (p : TestPath) :
    Track.unwind ps f (p.levels ++ .conditional place hd false :: ls) =
      match p.nearestGroup? with
      | some g => .ok ((g.toPath ps).levels ++ .conditional place hd false :: ls)
      | none => .error (.fault f) := by
  obtain ⟨outer, inner, args⟩ := p
  rcases inner with _ | _ | ⟨g, m, c, _ | _ | _, ts⟩
  case group.opened => rfl
  all_goals exact unwind_outerLevels ps f _ outer

theorem wrap_of_climb {t : Test} {outer : List Enclosing} {g : OpenGroup} (h : climb t outer = some g)
    (ps : Parens) : wrap outer t = wrap g.outer (g.toPath ps).inner.toTest := by
  fun_induction climb t outer with
  | case1 => contradiction
  | case2 t h' m outer ih => exact ih h
  | case3 t h' m c ts outer =>
    cases h
    rfl

theorem wrap_of_nearestGroup? {p : TestPath} {g : OpenGroup} (h : p.nearestGroup? = some g)
    (ps : Parens) : wrap p.outer p.fill.1 = wrap g.outer (g.toPath ps).inner.toTest := by
  obtain ⟨outer, inner, args⟩ := p
  rcases inner with _ | _ | ⟨g, m, c, _ | _ | _, ts⟩
  case group.opened =>
    cases h
    rfl
  all_goals exact wrap_of_climb h ps

end TestPath

namespace State

theorem fill_testing (items : List Item) (bs : List OpenBlock) (hd : Head) (p : TestPath) (rs : List String) :
    (fill ⟨items, bs, some (.testing hd p), rs⟩).track =
      ⟨tree items bs (.conditional hd (some (TestPath.wrap p.outer p.fill.1)) []),
        p.levels ++ .conditional (next items bs) hd false :: blockLevels items bs, [], rs⟩ := by
  rw [fill, Option.map_some, Statement.fill, track_testing]
  simp only [TestPath.levels, OpenTest.level_fill, OpenTest.toTest_fill]
  rfl

theorem blockStart_track {s : State} (h : s.Idle) :
    s.track.relevel Track.startBlock = tracked s.blockStart := by
  rw [Track.relevel, flush_track h]
  obtain ⟨items, bs, st, rs⟩ := s
  cases st with
  | none => cases bs <;> rfl
  | some st =>
    cases st with
    | action hd a args => cases bs <;> rfl
    | conditional hd =>
      rw [State.blockStart, tracked, openBlock, track_block]
      rfl
    | testing hd p =>
      rw [fill_testing, State.blockStart]
      simp only [TestPath.startBlock_levels]
      cases p.hasOpenGroup with
      | true => rfl
      | false =>
        simp only [Bool.false_eq_true, ↓reduceIte, tracked, openBlock, track_block]
        rfl

theorem leftParen_track {s : State} (h : s.Idle) :
    s.track.relevel Track.openGroup = tracked s.leftParen := by
  rw [Track.relevel, flush_track h]
  obtain ⟨items, bs, st, rs⟩ := s
  cases st with
  | none => cases bs <;> rfl
  | some st =>
    cases st with
    | action hd a args => rfl
    | conditional hd => rfl
    | testing hd p =>
      obtain ⟨outer, inner, args⟩ := p
      rw [fill_testing]
      rcases inner with ⟨g, m, c⟩ | ⟨g, m⟩ | ⟨g, m, c, _ | _ | _, ts⟩
      case group.missing =>
        rw [State.leftParen, tracked, track_testing]
        rfl
      all_goals
        rw [State.leftParen]
        simp only
        rw [TestPath.openGroup_levels _ (by simp)]
        rfl

theorem atGroup_track {s : State} (h : s.Idle) (ps : Parens) (f : Fault) :
    s.track.relevel (Track.unwind ps f) = tracked (s.atGroup ps f) := by
  rw [Track.relevel, flush_track h]
  obtain ⟨items, bs, st, rs⟩ := s
  cases st with
  | none => cases bs <;> rfl
  | some st =>
    cases st with
    | action hd a args => rfl
    | conditional hd => rfl
    | testing hd p =>
      rw [fill_testing, State.atGroup]
      simp only [TestPath.unwind_levels]
      cases hg : p.nearestGroup? with
      | none => rfl
      | some g =>
        simp only [tracked, track_testing, TestPath.wrap_of_nearestGroup? hg ps]
        rfl

/-- A step of the track of a state is the track of a step of the state. -/
theorem step_track {v : Vocabulary} {s : State} (h : s.Idle) (y : Symbol) :
    s.track.step v y = tracked (s.step v y) := by
  cases y with
  | word w => exact word_track h w
  | argument a => exact argument_track s a
  | comment c => exact congrArg Except.ok (comment_track s c)
  | semicolon => exact semicolon_track h
  | blockStart => exact blockStart_track h
  | blockEnd => exact blockEnd_track s
  | leftParen => exact leftParen_track h
  | rightParen => exact atGroup_track h .closed .rightParenMisplaced
  | comma => exact atGroup_track h .opened .commaMisplaced
  | unknown t => rfl

end State

/-! ### Open nodes are not changed by giving them nothing -/

theorem Action.take_blank_nil (a : Action) : (a.blank.take.run []).1 = a.blank := by
  cases a <;> rfl

theorem Action.take_withMatching_nil (a : Action) (m : Matching) :
    ((a.withMatching m).take.run []).1 = (a.take.run []).1.withMatching m := by
  cases a <;> rfl

theorem Condition.take_blank_nil (c : Condition) : (c.blank.take.run []).1 = c.blank := by
  cases c <;> rfl

theorem OpenTest.fill_withHead (o : OpenTest) (h : Head) (args : List Argument) :
    (o.withHead h).fill args = (o.fill args).withHead h := by
  cases o <;> rfl

theorem OpenTest.fill_withMatching (o : OpenTest) (m : Matching) (args : List Argument) :
    (o.withMatching m).fill args = (o.fill args).withMatching m := by
  cases o <;> rfl

namespace State
variable {v : Vocabulary} {s s' : State}

theorem idle_of_free (h : s.statement = none) : s.Idle := by
  intro c hc
  rw [h] at hc
  contradiction

theorem statement_add (s : State) (i : Item) : (s.add i).statement = s.statement := by
  obtain ⟨items, _ | ⟨b, bs⟩, st, rs⟩ := s <;> rfl

theorem Idle.withStatement {c : Statement} (hc : c.Idle) : Idle { s with statement := some c } := by
  rintro _ ⟨⟩
  exact hc

theorem Idle.comment (h : s.Idle) (c : Comment) : (s.comment c).Idle := by
  rw [State.comment]
  split
  next hs => exact idle_of_free ((statement_add s _).trans hs)
  next hd a args hs =>
    have ha : (a.take.run []).1 = a := h _ hs
    exact withStatement ha
  next hd hs => exact withStatement trivial
  next hd p hs =>
    have hp : p.inner.fill [] = p.inner := h _ hs
    have hfill := OpenTest.fill_withHead p.inner (attach c p.inner.head) []
    rw [hp] at hfill
    exact withStatement hfill

theorem Idle.reads (hv : v.Blank) (h : s.Idle) {y : Symbol} (hr : Reads v s y s') : s'.Idle := by
  cases hr with
  | conditional word free => exact withStatement trivial
  | @action w a word free =>
    refine withStatement ?_
    have hblank := word.blank_action hv
    have htake := Action.take_blank_nil a
    rwa [hblank] at htake
  | @test w p t hd outer word opens slot =>
    refine withStatement ?_
    show t.fill [] = t
    cases p with
    | action a => contradiction
    | condition c =>
      cases opens
      have hblank := word.blank_condition hv
      have htake := Condition.take_blank_nil c
      rw [hblank] at htake
      rw [OpenTest.fill, htake]
    | negation => cases opens; rfl
    | group c => cases opens; rfl
  | @argument hd a args b here plain =>
    have ha : (a.take.run []).1 = a := h _ here
    exact withStatement ha
  | @absorbed hd a args args' b m m' need here matching absorb =>
    have ha : (a.take.run []).1 = a := h _ here
    refine withStatement ?_
    show ((a.withMatching m').take.run []).1 = a.withMatching m'
    rw [Action.take_withMatching_nil, ha]
  | @tested hd p args' b m' need here absorb =>
    have hp : p.inner.fill [] = p.inner := h _ here
    have hfill := OpenTest.fill_withMatching p.inner m' []
    rw [hp] at hfill
    exact withStatement hfill
  | comment => exact h.comment _
  | semicolon here => exact idle_of_free (statement_add _ _)
  | blockStart here => exact idle_of_free rfl
  | testEnd here closed => exact idle_of_free rfl
  | blockEnd free here => exact idle_of_free ((statement_add _ _).trans free)
  | leftParen here => exact withStatement rfl
  | rightParen here group | comma here group => exact withStatement rfl

theorem Idle.step (hv : v.Blank) (h : s.Idle) {y : Symbol} (hs : s.step v y = .ok s') : s'.Idle := by
  obtain ⟨s₁, hr, heq⟩ := reads_of_step hs
  have hidle := h.reads hv hr
  rw [heq]
  exact hidle

/-- Giving the last waiting arguments to the innermost node gives the items of the script. -/
theorem items_flush_track (h : s.Idle) : s.track.flush.items = s.finish.items := by
  rw [flush_track h]
  obtain ⟨items, bs, st, rs⟩ := s
  cases st with
  | none => rfl
  | some st =>
    cases st with
    | action hd a args => rfl
    | conditional hd => rfl
    | testing hd p => rw [fill_testing]; rfl

end State

namespace Track

/-- Reading by places from the track of a state is reading from the state. -/
theorem run_track {v : Vocabulary} (hv : v.Blank) {s : State} (h : s.Idle) (ts : List Token) :
    run v s.track ts =
      match State.run v s ts with
      | .ok s' => .ok s'.track
      | .error (f, t) => .error (.fault f, t) := by
  induction ts generalizing s with
  | nil => rfl
  | cons t ts ih =>
    rw [run, State.run]
    cases t.symbol? with
    | none => exact ih h
    | some y =>
      simp only [State.step_track h]
      cases hs : s.step v y with
      | ok s₁ => exact ih (h.step hv hs)
      | error f => rfl

theorem idle_of_run {v : Vocabulary} (hv : v.Blank) {s s' : State} (h : s.Idle) {ts : List Token}
    (hs : State.run v s ts = .ok s') : s'.Idle := by
  fun_induction State.run v s ts with
  | case1 s => cases hs; exact h
  | case2 s t ts ht ih => exact ih h hs
  | case3 s t ts y ht s₁ h₁ ih => exact ih (h.step hv h₁) hs
  | case4 => contradiction

end Track

end SieveScript
