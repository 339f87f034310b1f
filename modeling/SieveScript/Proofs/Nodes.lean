import SieveScript.Tree.View
import SieveScript.Proofs.Steps
import SieveScript.Proofs.Filling

/-!
# What holds of every node

`Item.Every P` says that `P` holds of an item and of all nodes inside it, and `State.Every P` that it
holds of all nodes read so far, the open ones as they stand. A property is `Local` if it depends on
what a node says about itself: its word, its matching, whether it is a placeholder, and what it
declares. What is inside a node and which comments are attached to it does not matter then, so a
local property of all nodes survives the closing of what is open.
-/

namespace SieveScript

namespace Node

/-- The capabilities that the node declares. -/
def declares : Node → List String
  | item i => i.declares
  | test _ => []

/-- The nodes say the same about themselves. -/
structure Alike (n n' : Node) : Prop where
  word : n'.word? = n.word?
  matching : n'.matching? = n.matching?
  placeholder : n'.placeholder? = n.placeholder?
  declares : n'.declares = n.declares

/-- The property depends on what a node says about itself. -/
def Local (P : Node → Prop) : Prop :=
  ∀ ⦃n n'⦄, P n → Alike n n' → P n'

end Node

/-! ### Trees -/

/-- The property holds of a test and of the tests inside it. -/
inductive Test.Every (P : Node → Prop) : Test → Prop
  | leaf {h : Head} {m : Matching} {c : Condition} (here : P (.test (leaf h m c))) :
      Every P (leaf h m c)
  | negation {h : Head} {m : Matching} {inner : Option Test} (here : P (.test (negation h m inner)))
      (inside : ∀ t ∈ inner, Every P t) : Every P (negation h m inner)
  | group {h : Head} {m : Matching} {c : Connective} {ts : List Test}
      (here : P (.test (group h m c ts))) (members : ∀ t ∈ ts, Every P t) : Every P (group h m c ts)

/-- The property holds of an item and of all that is inside it. -/
inductive Item.Every (P : Node → Prop) : Item → Prop
  | comment {c : Comment} (here : P (.item (comment c))) : Every P (comment c)
  | action {h : Head} {a : Action} (here : P (.item (action h a))) : Every P (action h a)
  | conditional {h : Head} {test : Option Test} {block : List Item}
      (here : P (.item (conditional h test block))) (tests : ∀ t ∈ test, t.Every P)
      (items : ∀ i ∈ block, Every P i) : Every P (conditional h test block)

section
variable {P Q : Node → Prop}

theorem Test.Every.here {t : Test} (h : t.Every P) : P (.test t) := by
  cases h <;> assumption

theorem Test.Every.mono (hPQ : ∀ n, P n → Q n) {t : Test} (h : t.Every P) : t.Every Q := by
  induction h with
  | leaf here => exact .leaf (hPQ _ here)
  | negation here _ ih => exact .negation (hPQ _ here) ih
  | group here _ ih => exact .group (hPQ _ here) ih

theorem Item.Every.mono (hPQ : ∀ n, P n → Q n) {i : Item} (h : i.Every P) : i.Every Q := by
  induction h with
  | comment here => exact .comment (hPQ _ here)
  | action here => exact .action (hPQ _ here)
  | conditional here tests _ ih => exact .conditional (hPQ _ here) (fun t ht => (tests t ht).mono hPQ) ih

mutual

theorem Test.every_iff_nodesAt (depth : Nat) :
    (t : Test) → (t.Every P ↔ ∀ n ∈ t.nodesAt depth, P n.2)
  | .leaf h m c => by
    rw [Test.nodesAt, List.forall_mem_singleton]
    exact ⟨Test.Every.here, .leaf⟩
  | .negation h m inner => by
    rw [Test.nodesAt, List.forall_mem_cons, ← Test.every_iff_nodesAtOption (depth + 1) inner]
    refine ⟨?_, fun h => .negation h.1 h.2⟩
    rintro ⟨⟩
    exact ⟨‹_›, ‹_›⟩
  | .group h m c ts => by
    rw [Test.nodesAt, List.forall_mem_cons, ← Test.every_iff_nodesAtList (depth + 1) ts]
    refine ⟨?_, fun h => .group h.1 h.2⟩
    rintro ⟨⟩
    exact ⟨‹_›, ‹_›⟩

theorem Test.every_iff_nodesAtOption (depth : Nat) :
    (o : Option Test) → ((∀ t ∈ o, t.Every P) ↔ ∀ n ∈ Test.nodesAtOption depth o, P n.2)
  | none => by simp [Test.nodesAtOption]
  | some t => by
    rw [Test.nodesAtOption, ← Test.every_iff_nodesAt depth t]
    simp

theorem Test.every_iff_nodesAtList (depth : Nat) :
    (ts : List Test) → ((∀ t ∈ ts, t.Every P) ↔ ∀ n ∈ Test.nodesAtList depth ts, P n.2)
  | [] => by simp [Test.nodesAtList]
  | t :: ts => by
    rw [Test.nodesAtList, List.forall_mem_cons, List.forall_mem_append,
      ← Test.every_iff_nodesAt depth t, ← Test.every_iff_nodesAtList depth ts]

end

mutual

theorem Item.every_iff_nodesAt (depth : Nat) :
    (i : Item) → (i.Every P ↔ ∀ n ∈ i.nodesAt depth, P n.2)
  | .comment c => by
    rw [Item.nodesAt, List.forall_mem_singleton]
    refine ⟨?_, .comment⟩
    rintro ⟨⟩
    assumption
  | .action h a => by
    rw [Item.nodesAt, List.forall_mem_singleton]
    refine ⟨?_, .action⟩
    rintro ⟨⟩
    assumption
  | .conditional h test block => by
    rw [Item.nodesAt, List.forall_mem_cons, List.forall_mem_append,
      ← Test.every_iff_nodesAtOption (depth + 1) test, ← Item.every_iff_nodesAtList (depth + 1) block]
    refine ⟨?_, fun h => .conditional h.1 h.2.1 h.2.2⟩
    rintro ⟨⟩
    exact ⟨‹_›, ‹_›, ‹_›⟩

theorem Item.every_iff_nodesAtList (depth : Nat) :
    (is : List Item) → ((∀ i ∈ is, i.Every P) ↔ ∀ n ∈ Item.nodesAtList depth is, P n.2)
  | [] => by simp [Item.nodesAtList]
  | i :: is => by
    rw [Item.nodesAtList, List.forall_mem_cons, List.forall_mem_append,
      ← Item.every_iff_nodesAt depth i, ← Item.every_iff_nodesAtList depth is]

end

/-- The property holds of all nodes of a script. -/
theorem Script.every_iff_nodes {s : Script} :
    (∀ i ∈ s.items, i.Every P) ↔ ∀ n ∈ s.nodes, P n.2 :=
  Item.every_iff_nodesAtList 0 s.items

end

/-! ### What is open -/

/-- The property holds of the test around another one, if it holds of that. -/
def Enclosing.Every (P : Node → Prop) (e : Enclosing) : Prop :=
  ∀ t : Test, t.Every P → (e.close t).Every P

/-- All tests on the path have the property, as do those inside them. -/
structure TestPath.Every (P : Node → Prop) (p : TestPath) : Prop where
  outer : ∀ e ∈ p.outer, e.Every P
  inner : p.inner.toTest.Every P

/-- All nodes that are open in the statement have the property, as do those inside them. -/
def Statement.Every (P : Node → Prop) : Statement → Prop
  | action h a _ => P (.item (.action h a))
  | conditional h => P (.item (.conditional h none []))
  | testing h p => P (.item (.conditional h none [])) ∧ p.Every P

/-- All nodes that have been read have the property. -/
structure State.Every (P : Node → Prop) (s : State) : Prop where
  items : ∀ i ∈ s.items, i.Every P
  blocks : ∀ b ∈ s.blocks, b.close.Every P
  statement : ∀ c ∈ s.statement, c.Every P

variable {P : Node → Prop}

/-! ### Closing what is open -/

theorem Test.Every.negation_inner (hP : Node.Local P) {h : Head} {m : Matching} {inner : Option Test}
    (ht : (Test.negation h m inner).Every P) {t : Test} (hi : t.Every P) :
    (Test.negation h m (some t)).Every P := by
  refine .negation (hP ht.here ⟨rfl, rfl, rfl, rfl⟩) ?_
  rintro _ ⟨⟩
  exact hi

theorem Test.Every.group_concat (hP : Node.Local P) {h : Head} {m : Matching} {c : Connective}
    {ts : List Test} (ht : (Test.group h m c ts).Every P) {t : Test} (hi : t.Every P) :
    (Test.group h m c (ts ++ [t])).Every P := by
  cases ht with
  | group here members =>
    exact .group (hP here ⟨rfl, rfl, rfl, rfl⟩)
      (List.forall_mem_append.2 ⟨members, List.forall_mem_singleton.2 hi⟩)

theorem OpenTest.every_enclose? (hP : Node.Local P) {o : OpenTest} (h : o.toTest.Every P)
    {e : Enclosing} (he : o.enclose? = some e) : e.Every P := by
  intro t ht
  cases o with
  | leaf hd m c => contradiction
  | negation hd m =>
    cases he
    exact h.negation_inner hP ht
  | group hd m c ps ts =>
    cases ps with
    | opened =>
      cases he
      exact h.group_concat hP ht
    | _ => contradiction

namespace OpenTest
variable {o : OpenTest}

theorem every_withHead (hP : Node.Local P) (h : o.toTest.Every P) {hd : Head}
    (hw : hd.word = o.head.word) : (o.withHead hd).toTest.Every P := by
  have halike : Node.Alike (.test o.toTest) (.test (o.withHead hd).toTest) := by
    cases o with
    | leaf hd' m c =>
      exact ⟨congrArg some hw, rfl,
        congrArg (fun w => if c.isPlaceholder then some w else none) hw, rfl⟩
    | negation hd' m => exact ⟨congrArg some hw, rfl, rfl, rfl⟩
    | group hd' m c ps ts => exact ⟨congrArg some hw, rfl, rfl, rfl⟩
  have here := hP h.here halike
  cases o with
  | leaf hd' m c => exact .leaf here
  | negation hd' m => exact .negation here (by simp)
  | group hd' m c ps ts =>
    cases h with
    | group _ members => exact .group here members

theorem every_withMatching (h : o.toTest.Every P) {m : Matching}
    (here : P (.test (o.withMatching m).toTest)) : (o.withMatching m).toTest.Every P := by
  cases o with
  | leaf hd m' c => exact .leaf here
  | negation hd m' => exact .negation here (by simp)
  | group hd m' c ps ts =>
    cases h with
    | group _ members => exact .group here members

end OpenTest

namespace TestPath
variable {p : TestPath}

theorem Every.fill (hP : Node.Local P) (h : p.Every P) : p.fill.1.Every P := by
  obtain ⟨outer, inner, args⟩ := p
  have hi := h.inner
  cases inner with
  | leaf hd m c =>
    refine Test.Every.leaf (hP hi.here ⟨rfl, rfl, ?_, rfl⟩)
    exact congrArg (fun b => if b then some hd.word else none) (c.isPlaceholder_take args)
  | negation hd m => exact hi
  | group hd m c ps ts => exact hi

theorem every_foldl_close {outer : List Enclosing} (ho : ∀ e ∈ outer, e.Every P) {t : Test}
    (ht : t.Every P) : (outer.foldl (fun t e => e.close t) t).Every P := by
  induction outer generalizing t with
  | nil => exact ht
  | cons e outer ih =>
    obtain ⟨he, ho⟩ := List.forall_mem_cons.1 ho
    exact ih ho (he t ht)

theorem Every.close (hP : Node.Local P) (h : p.Every P) : p.close.Every P :=
  every_foldl_close h.outer (h.fill hP)

theorem every_climb {outer : List Enclosing} (ho : ∀ e ∈ outer, e.Every P) {t : Test}
    (ht : t.Every P) {g : OpenGroup} (hg : climb t outer = some g) (ps : Parens) :
    (g.toPath ps).Every P := by
  fun_induction climb t outer with
  | case1 => contradiction
  | case2 t h m outer ih =>
    obtain ⟨he, ho⟩ := List.forall_mem_cons.1 ho
    exact ih ho (he t ht) hg
  | case3 t h m c ts outer =>
    cases hg
    obtain ⟨he, ho⟩ := List.forall_mem_cons.1 ho
    exact ⟨ho, he t ht⟩

theorem Every.nearestGroup? (hP : Node.Local P) (h : p.Every P) {g : OpenGroup}
    (hg : p.nearestGroup? = some g) (ps : Parens) : (g.toPath ps).Every P := by
  rw [TestPath.nearestGroup?] at hg
  split at hg
  next hi =>
    cases hg
    have hinner := h.inner
    rw [hi] at hinner
    exact ⟨h.outer, hinner⟩
  · exact every_climb h.outer (h.fill hP) hg ps

end TestPath

theorem OpenBlock.Every.append (hP : Node.Local P) {b : OpenBlock} (h : b.close.Every P)
    {is : List Item} (his : ∀ i ∈ is, i.Every P) :
    { b with items := b.items ++ is }.close.Every P := by
  cases h with
  | conditional here tests items =>
    exact .conditional (hP here ⟨rfl, rfl, rfl, rfl⟩) tests (List.forall_mem_append.2 ⟨items, his⟩)

namespace State
variable {s : State}

theorem Every.add (hP : Node.Local P) (h : s.Every P) {i : Item} (hi : i.Every P) :
    (s.add i).Every P := by
  obtain ⟨items, _ | ⟨b, bs⟩, st, rs⟩ := s
  · exact ⟨List.forall_mem_append.2 ⟨h.items, List.forall_mem_singleton.2 hi⟩, h.blocks, h.statement⟩
  · obtain ⟨hb, hbs⟩ := List.forall_mem_cons.1 h.blocks
    have hb' := OpenBlock.Every.append hP hb (List.forall_mem_singleton.2 hi)
    exact ⟨h.items, List.forall_mem_cons.2 ⟨hb', hbs⟩, h.statement⟩

theorem Every.withStatement (h : s.Every P) {c : Statement} (hc : c.Every P) :
    { s with statement := some c }.Every P :=
  ⟨h.items, h.blocks, by rintro _ ⟨⟩; exact hc⟩

theorem Every.withoutStatement (h : s.Every P) : { s with statement := none }.Every P :=
  ⟨h.items, h.blocks, by simp⟩

theorem Every.openBlock (hP : Node.Local P) (h : s.Every P) {hd : Head}
    (hhd : P (.item (.conditional hd none []))) {o : Option Test} (ho : ∀ t ∈ o, t.Every P) :
    (s.openBlock hd o).Every P := by
  have hblock : (OpenBlock.close { head := hd, test := o }).Every P :=
    .conditional (hP hhd ⟨rfl, rfl, rfl, rfl⟩) ho (by simp)
  exact ⟨h.items, List.forall_mem_cons.2 ⟨hblock, h.blocks⟩, by simp [State.openBlock]⟩

theorem Every.slot? (hP : Node.Local P) (h : s.Every P) {hd : Head} {outer : List Enclosing}
    (hs : s.slot? = some (hd, outer)) :
    P (.item (.conditional hd none [])) ∧ ∀ e ∈ outer, e.Every P := by
  rw [State.slot?] at hs
  split at hs
  next hst =>
    cases hs
    exact ⟨h.statement _ hst, by simp⟩
  next p hst =>
    obtain ⟨e, he, heq⟩ := Option.map_eq_some_iff.1 hs
    cases heq
    obtain ⟨hhd, hp⟩ := h.statement _ hst
    exact ⟨hhd, List.forall_mem_cons.2 ⟨OpenTest.every_enclose? hP hp.inner he, hp.outer⟩⟩
  · contradiction

theorem Every.comment (hP : Node.Local P) (h : s.Every P) {c : Comment}
    (hc : P (.item (.comment c))) : (s.comment c).Every P := by
  obtain ⟨items, blocks, st, rs⟩ := s
  cases st with
  | none => exact h.add hP (.comment hc)
  | some st =>
    have hst := h.statement st rfl
    cases st with
    | action hd a args => exact h.withStatement (hP hst ⟨rfl, rfl, rfl, by cases a <;> rfl⟩)
    | conditional hd => exact h.withStatement (hP hst ⟨rfl, rfl, rfl, rfl⟩)
    | testing hd p =>
      exact h.withStatement ⟨hst.1, hst.2.outer, OpenTest.every_withHead hP hst.2.inner rfl⟩

theorem every_closeBlocks (hP : Node.Local P) {bs : List OpenBlock} (hbs : ∀ b ∈ bs, b.close.Every P)
    {inner : Option Item} (hi : ∀ i ∈ inner, i.Every P) : ∀ i ∈ closeBlocks inner bs, i.Every P := by
  induction bs generalizing inner with
  | nil => exact hi
  | cons b bs ih =>
    obtain ⟨hb, hbs⟩ := List.forall_mem_cons.1 hbs
    refine ih hbs ?_
    rintro _ ⟨⟩
    exact OpenBlock.Every.append hP hb fun i hi' => hi i (Option.mem_toList.1 hi')

end State

end SieveScript
