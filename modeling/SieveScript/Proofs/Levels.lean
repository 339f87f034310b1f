import SieveScript.Proofs.Track
import SieveScript.Proofs.Soundness

/-!
# The levels of a state

`State.track` puts the open nodes of a state into the tree, as they stand and without the arguments
that wait, and lists their levels. The levels lead to the nodes they were made for: `ItemAt` and
`TestAt` say so of all trees that differ in one node only, and are built up level by level. Waiting
arguments are given to a node only where there are any, so `State.flush_track` needs that giving
nothing to a node which is open does not change it (`State.Idle`).
-/

namespace SieveScript

/-! ### What the levels lead to -/

theorem resolve_cons {items : List Item} {l : Level} {ls : List Level} (h : ls ≠ []) :
    resolve items (l :: ls) = (resolve items ls).bind (·.descend? l.place) := by
  cases ls with
  | nil => contradiction
  | cons => rfl

theorem edit_cons {items : List Item} {l : Level} {ls : List Level} (h : ls ≠ []) (e : Edit) :
    edit items (l :: ls) e = edit items ls (e.under l.place) := by
  cases ls with
  | nil => contradiction
  | cons => rfl

theorem modify_concat {α : Type} (xs : List α) (x : α) (f : α → α) :
    (xs ++ [x]).modify xs.length f = xs ++ [f x] := by
  induction xs with
  | nil => rfl
  | cons y xs ih => rw [List.cons_append, List.length_cons, List.modify_succ_cons, ih, List.cons_append]

/-- In the trees with an item in a certain place, the levels lead to that item. -/
structure ItemAt (tree : Item → List Item) (ls : List Level) : Prop where
  resolve : ∀ i, i.isCommand = true → resolve (tree i) ls = some (.item i)
  edit : ∀ i e, edit (tree i) ls e = tree (e.item i)

/-- In the trees with a test in a certain place, the levels lead to that test. -/
structure TestAt (tree : Test → List Item) (ls : List Level) : Prop where
  resolve : ∀ t, resolve (tree t) ls = some (.test t)
  edit : ∀ t e, edit (tree t) ls e = tree (e.test t)

theorem Node.command?_concat {is : List Item} {i : Item} (h : i.isCommand = true) :
    command? (is ++ [i]) is.length = some (.item i) := by
  rw [command?, List.getElem?_concat_length]
  cases i with
  | comment => contradiction
  | _ => rfl

section
variable {l : Level} {ls : List Level}

theorem ItemAt.top {is : List Item} (hl : l.place = .top is.length) :
    ItemAt (fun i => is ++ [i]) [l] := by
  constructor
  · intro i hi
    rw [SieveScript.resolve, hl]
    exact Node.command?_concat hi
  · intro i e
    rw [SieveScript.edit, hl]
    exact modify_concat is i e.item

theorem ItemAt.ne_nil {tree : Item → List Item} (h : ItemAt tree ls) : ls ≠ [] := by
  rintro rfl
  have := h.resolve (.action { word := "" } .stop) rfl
  contradiction

theorem TestAt.ne_nil {tree : Test → List Item} (h : TestAt tree ls) : ls ≠ [] := by
  rintro rfl
  have := h.resolve (.negation { word := "" } {} none)
  contradiction

theorem ItemAt.child {tree : Item → List Item} (h : ItemAt tree ls) {hd : Head} {t : Option Test}
    {is : List Item} (hl : l.place = .child is.length) :
    ItemAt (fun i => tree (.conditional hd t (is ++ [i]))) (l :: ls) := by
  constructor
  · intro i hi
    rw [resolve_cons h.ne_nil, h.resolve _ rfl, hl]
    exact Node.command?_concat hi
  · intro i e
    rw [edit_cons h.ne_nil, h.edit, hl]
    simp only [Edit.under]
    rw [modify_concat]

theorem ItemAt.condition {tree : Item → List Item} (h : ItemAt tree ls) {hd : Head} {is : List Item}
    (hl : l.place = .test) : TestAt (fun t => tree (.conditional hd (some t) is)) (l :: ls) := by
  constructor
  · intro t
    rw [resolve_cons h.ne_nil, h.resolve _ rfl, hl]
    rfl
  · intro t e
    rw [edit_cons h.ne_nil, h.edit, hl]
    rfl

theorem TestAt.negation {tree : Test → List Item} (h : TestAt tree ls) {hd : Head} {m : Matching}
    (hl : l.place = .test) : TestAt (fun t => tree (.negation hd m (some t))) (l :: ls) := by
  constructor
  · intro t
    rw [resolve_cons h.ne_nil, h.resolve, hl]
    rfl
  · intro t e
    rw [edit_cons h.ne_nil, h.edit, hl]
    rfl

theorem TestAt.member {tree : Test → List Item} (h : TestAt tree ls) {hd : Head} {m : Matching}
    {c : Connective} {ts : List Test} (hl : l.place = .member ts.length) :
    TestAt (fun t => tree (.group hd m c (ts ++ [t]))) (l :: ls) := by
  constructor
  · intro t
    rw [resolve_cons h.ne_nil, h.resolve, hl]
    simp [Node.descend?]
  · intro t e
    rw [edit_cons h.ne_nil, h.edit, hl]
    simp only [Edit.under]
    rw [modify_concat]

end

/-! ### The track of a state -/

namespace Enclosing

/-- Where the next test inside stands. -/
def place : Enclosing → Place
  | negation .. => .test
  | group _ _ _ ts => .member ts.length

/-- The level of a test around the innermost one, at a place. -/
def level (place : Place) : Enclosing → Level
  | negation h _ => { place, role := .negation, word := h.word, matcher := true }
  | group h _ _ _ => { place, role := .group, word := h.word, parens := .opened, matcher := true }

end Enclosing

namespace OpenTest

/-- The level of an open test, at a place. -/
def level (place : Place) : OpenTest → Level
  | leaf h _ _ => { place, role := .leaf, word := h.word, matcher := true }
  | negation h _ => { place, role := .negation, word := h.word, matcher := true }
  | group h _ _ parens _ => { place, role := .group, word := h.word, parens, matcher := true }

/-- The test with arguments given to its body. -/
def fill (args : List Argument) : OpenTest → OpenTest
  | leaf h m c => leaf h m (c.take.run args).1
  | t => t

end OpenTest

namespace TestPath

/-- Where a test stands that has the given tests around it. -/
def placeIn : List Enclosing → Place
  | [] => .test
  | e :: _ => e.place

/-- The levels of the tests around the innermost one. -/
def outerLevels : List Enclosing → List Level
  | [] => []
  | e :: outer => e.level (placeIn outer) :: outerLevels outer

/-- The levels of all tests on the path. -/
def levels (p : TestPath) : List Level :=
  p.inner.level (placeIn p.outer) :: outerLevels p.outer

/-- The whole test around an inner one. -/
def wrap (outer : List Enclosing) (t : Test) : Test :=
  outer.foldl (fun t e => e.close t) t

end TestPath

namespace Level

/-- The level of a conditional. -/
def conditional (place : Place) (h : Head) (blockOpen : Bool) : Level :=
  { place, role := .conditional, word := h.word, blockOpen, matcher := false }

/-- The level of a node that has just been put into the tree. -/
def fresh (w : String) (n : Node) (place : Place) : Level :=
  { place, role := n.role, word := w, matcher := n.matching?.isSome }

end Level

namespace Statement

/-- The statement as an item, without the arguments that wait. -/
def item : Statement → Item
  | action h a _ => .action h a
  | conditional h => .conditional h none []
  | testing h p => .conditional h (some (TestPath.wrap p.outer p.inner.toTest)) []

/-- The levels of all nodes that are open in the statement. -/
def levels (place : Place) : Statement → List Level
  | action h a _ => [{ place, role := .action, word := h.word, matcher := a.matching?.isSome }]
  | conditional h => [.conditional place h false]
  | testing h p => p.levels ++ [.conditional place h false]

/-- The arguments that wait for the innermost node. -/
def waiting : Statement → List Argument
  | action _ _ args => args
  | conditional _ => []
  | testing _ p => p.waiting

/-- The statement with the waiting arguments given to its innermost node. -/
def fill : Statement → Statement
  | action h a args => action h (a.take.run args).1 []
  | conditional h => conditional h
  | testing h p => testing h { p with inner := p.inner.fill p.waiting, waiting := [] }

/-- Giving nothing to the innermost node does not change it. -/
def Idle : Statement → Prop
  | action _ a _ => (a.take.run []).1 = a
  | conditional _ => True
  | testing _ p => p.inner.fill [] = p.inner

end Statement

namespace State

/-- Where the next item of the innermost block stands. -/
def next (items : List Item) : List OpenBlock → Place
  | [] => .top items.length
  | b :: _ => .child b.items.length

/-- The levels of the conditionals whose blocks are open. -/
def blockLevels (items : List Item) : List OpenBlock → List Level
  | [] => []
  | b :: bs => .conditional (next items bs) b.head true :: blockLevels items bs

/-- The items of a script with an item at the end of the innermost block. -/
def tree (items : List Item) (bs : List OpenBlock) (i : Item) : List Item :=
  items ++ (closeBlocks (some i) bs).toList

/-- The state as a tree with all nodes and a stack of levels. -/
def track (s : State) : Track where
  items := s.items ++ (closeBlocks (s.statement.map Statement.item) s.blocks).toList
  levels := s.statement.elim [] (·.levels (next s.items s.blocks)) ++ blockLevels s.items s.blocks
  pending := s.statement.elim [] Statement.waiting
  requires := s.requires

/-- The state with the waiting arguments given to the innermost node. -/
def fill (s : State) : State :=
  { s with statement := s.statement.map Statement.fill }

/-- Giving nothing to the innermost node does not change it. -/
def Idle (s : State) : Prop :=
  ∀ c ∈ s.statement, c.Idle

/-- The outcome of a step, as that of a step of the track. -/
def tracked : Except Fault State → Except Failure Track
  | .ok s => .ok s.track
  | .error f => .error (.fault f)

end State

/-! ### The levels of a state lead to its nodes -/

namespace State
variable {items : List Item} {bs : List OpenBlock} {l : Level}

theorem itemAt_tree (hl : l.place = next items bs) : ItemAt (tree items bs) (l :: blockLevels items bs) := by
  induction bs generalizing l with
  | nil => exact .top hl
  | cons b bs ih => exact (ih (l := .conditional (next items bs) b.head true) rfl).child hl

theorem itemAt_conditional (items : List Item) (bs : List OpenBlock) (hd : Head) (b : Bool) :
    ItemAt (tree items bs) (.conditional (next items bs) hd b :: blockLevels items bs) :=
  itemAt_tree rfl

theorem itemAt_action (items : List Item) (bs : List OpenBlock) (hd : Head) (matcher : Bool) :
    ItemAt (tree items bs) ({ place := next items bs, role := .action, word := hd.word, matcher } ::
      blockLevels items bs) :=
  itemAt_tree rfl

theorem testAt_wrap {tree : Item → List Item} {ls : List Level} (h : ItemAt tree ls) (hd : Head)
    {outer : List Enclosing} (hl : l.place = TestPath.placeIn outer) :
    TestAt (fun t => tree (.conditional hd (some (TestPath.wrap outer t)) []))
      (l :: (TestPath.outerLevels outer ++ ls)) := by
  induction outer generalizing l with
  | nil => exact h.condition hl
  | cons e outer ih =>
    have hrest := ih (l := e.level (TestPath.placeIn outer)) (by cases e <;> rfl)
    cases e with
    | negation hd m => exact hrest.negation hl
    | group hd m c ts => exact hrest.member hl

theorem testAt_levels (h : Head) (p : TestPath) :
    TestAt (fun t => tree items bs (.conditional h (some (TestPath.wrap p.outer t)) []))
      (p.levels ++ .conditional (next items bs) h false :: blockLevels items bs) := by
  refine testAt_wrap (itemAt_conditional items bs h false) h ?_
  cases p.inner <;> rfl

/-! ### The track of each kind of state -/

variable {rs : List String}

theorem track_nil : track ⟨items, [], none, rs⟩ = ⟨items, [], [], rs⟩ := by
  simp [track, closeBlocks, blockLevels]

theorem track_block {b : OpenBlock} :
    track ⟨items, b :: bs, none, rs⟩ =
      ⟨tree items bs b.close, .conditional (next items bs) b.head true :: blockLevels items bs, [], rs⟩ := by
  simp [track, closeBlocks, blockLevels, tree]

theorem track_action {h : Head} {a : Action} {args : List Argument} :
    track ⟨items, bs, some (.action h a args), rs⟩ =
      ⟨tree items bs (.action h a),
        { place := next items bs, role := .action, word := h.word, matcher := a.matching?.isSome } ::
          blockLevels items bs, args, rs⟩ := rfl

theorem track_conditional {h : Head} :
    track ⟨items, bs, some (.conditional h), rs⟩ =
      ⟨tree items bs (.conditional h none []),
        .conditional (next items bs) h false :: blockLevels items bs, [], rs⟩ := rfl

theorem track_testing {h : Head} {p : TestPath} :
    track ⟨items, bs, some (.testing h p), rs⟩ =
      ⟨tree items bs (.conditional h (some (TestPath.wrap p.outer p.inner.toTest)) []),
        p.levels ++ .conditional (next items bs) h false :: blockLevels items bs, p.waiting, rs⟩ := by
  simp [track, Statement.levels, Statement.item, Statement.waiting, tree]

end State

/-! ### Giving arguments -/

theorem ItemAt.flush {tree : Item → List Item} {ls : List Level} (h : ItemAt tree ls) {i : Item}
    (hi : i.isCommand = true) {args : List Argument} (hargs : args ≠ []) (rs : List String) :
    Track.flush ⟨tree i, ls, args, rs⟩ = ⟨tree (i.take.run args).1, ls, [], rs⟩ := by
  rw [Track.flush, if_neg hargs]
  simp only [h.resolve i hi, h.edit, Edit.take]

theorem TestAt.flush {tree : Test → List Item} {ls : List Level} (h : TestAt tree ls) (t : Test)
    {args : List Argument} (hargs : args ≠ []) (rs : List String) :
    Track.flush ⟨tree t, ls, args, rs⟩ = ⟨tree (t.take.run args).1, ls, [], rs⟩ := by
  rw [Track.flush, if_neg hargs]
  simp only [h.resolve t, h.edit t, Edit.take]

theorem OpenTest.toTest_fill (t : OpenTest) (args : List Argument) :
    (t.fill args).toTest = (t.toTest.take.run args).1 := by
  cases t <;> rfl

theorem OpenTest.level_fill (t : OpenTest) (args : List Argument) (place : Place) :
    (t.fill args).level place = t.level place := by
  cases t <;> rfl

theorem Action.matching?_take (a : Action) (args : List Argument) :
    (a.take.run args).1.matching?.isSome = a.matching?.isSome := by
  cases a <;> rfl

namespace State

theorem flush_track {s : State} (h : s.Idle) : s.track.flush = s.fill.track := by
  obtain ⟨items, bs, st, rs⟩ := s
  cases st with
  | none => rfl
  | some st =>
    have hst := h st rfl
    cases st with
    | action hd a args =>
      rw [fill, Option.map_some, Statement.fill, track_action, track_action, Action.matching?_take]
      -- Where nothing waits the node is left alone, and idle nodes do not notice.
      by_cases hargs : args = []
      · subst hargs
        rw [show (a.take.run []).1 = a from hst]
        rfl
      · exact (itemAt_tree rfl).flush rfl hargs rs
    | conditional hd => rfl
    | testing hd p =>
      rw [fill, Option.map_some, Statement.fill, track_testing, track_testing]
      simp only [TestPath.levels, OpenTest.level_fill, OpenTest.toTest_fill]
      by_cases hargs : p.waiting = []
      · rw [hargs, ← OpenTest.toTest_fill, show p.inner.fill [] = p.inner from hst]
        rfl
      · exact (testAt_levels hd p).flush p.inner.toTest hargs rs

end State

end SieveScript
