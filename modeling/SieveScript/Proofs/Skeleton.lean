import Mathlib.Algebra.FreeMonoid.Basic
import Mathlib.Algebra.Order.Group.Multiset
import SieveScript.Tree.View
import SieveScript.Proofs.Soundness

/-!
# The skeleton of a script

Nothing that stands in a script gets lost on the way into the tree: neither a word, nor a comment, nor
the fact that a word is not known. A `Tally` adds up something for each word and each comment of a
tree, in the order of `Script.nodes`. Reading a symbol adds at the end what the symbol counts for
(`Tally.state_reads`), because whatever is open is the last part of all that is around it. Only a
comment may go to a node that has other nodes behind it, so a tally has to allow for that
(`Tally.Attaches`): words and unknown words do because they ignore comments, and comments do when
their order does not matter.
-/

namespace SieveScript

namespace Prototype

/-- The prototype describes a placeholder. -/
def isPlaceholder : Prototype → Bool
  | action a => a.isPlaceholder
  | condition c => c.isPlaceholder
  | negation | group _ => false

end Prototype

theorem Vocabulary.Denotes.isPlaceholder {v : Vocabulary} {w : String} {p : Prototype}
    (h : v.Denotes w p) (hv : v.Blank) : p.isPlaceholder = decide (v.meaning w = .unknown) := by
  rw [Denotes] at h
  split at h
  · contradiction
  next d hd =>
    have hb := hv d (mem_of_meaning hd)
    rw [h] at hb
    cases p <;> simp_all [Prototype.isBlank, Prototype.isPlaceholder]
  next hm =>
    rw [hm]
    rcases h with rfl | rfl <;> rfl

/-- What the words and the comments of a tree count for. The words that are not known are marked. -/
structure Tally (M : Type) where
  head : Head → Bool → M
  comment : Comment → M

namespace Tally
variable {M : Type} [AddMonoid M] (f : Tally M)

/-- What the word of a node counts for, without what is inside it. -/
def node : Node → M
  | .item (.comment c) => f.comment c
  | .item (.action h a) => f.head h a.isPlaceholder
  | .item (.conditional h _ _) => f.head h false
  | .test (.leaf h _ c) => f.head h c.isPlaceholder
  | .test (.negation h _ _) | .test (.group h _ _ _) => f.head h false

/-! ### Trees -/

mutual

/-- What a test and the tests inside it count for. -/
def test : Test → M
  | .leaf h _ c => f.head h c.isPlaceholder
  | .negation h _ inner => f.head h false + option inner
  | .group h _ _ ts => f.head h false + tests ts

def option : Option Test → M
  | none => 0
  | some t => test t

def tests : List Test → M
  | [] => 0
  | t :: ts => test t + tests ts

end

mutual

/-- What an item and what is inside it count for. -/
def item : Item → M
  | .comment c => f.comment c
  | .action h a => f.head h a.isPlaceholder
  | .conditional h t block => f.head h false + f.option t + items block

def items : List Item → M
  | [] => 0
  | i :: is => item i + items is

end

/-- What a list of nodes counts for. -/
def nodes (ns : List (Nat × Node)) : M :=
  (ns.map fun n => f.node n.2).sum

theorem nodes_cons (n : Nat × Node) (ns : List (Nat × Node)) :
    f.nodes (n :: ns) = f.node n.2 + f.nodes ns := by
  simp [nodes]

theorem nodes_append (ns ms : List (Nat × Node)) : f.nodes (ns ++ ms) = f.nodes ns + f.nodes ms := by
  simp [nodes]

mutual

theorem nodes_nodesAt (depth : Nat) : (t : Test) → f.nodes (t.nodesAt depth) = f.test t
  | .leaf h m c => by simp [Test.nodesAt, nodes, node, test]
  | .negation h m inner => by
    rw [Test.nodesAt, nodes_cons, nodes_nodesAtOption (depth + 1) inner, test, node]
  | .group h m c ts => by
    rw [Test.nodesAt, nodes_cons, nodes_nodesAtList (depth + 1) ts, test, node]

theorem nodes_nodesAtOption (depth : Nat) : (o : Option Test) → f.nodes (Test.nodesAtOption depth o) = f.option o
  | none => by simp [Test.nodesAtOption, nodes, option]
  | some t => by rw [Test.nodesAtOption, nodes_nodesAt depth t, option]

theorem nodes_nodesAtList (depth : Nat) : (ts : List Test) → f.nodes (Test.nodesAtList depth ts) = f.tests ts
  | [] => by simp [Test.nodesAtList, nodes, tests]
  | t :: ts => by
    rw [Test.nodesAtList, nodes_append, nodes_nodesAt depth t, nodes_nodesAtList depth ts, tests]

end

mutual

theorem nodes_item (depth : Nat) : (i : Item) → f.nodes (i.nodesAt depth) = f.item i
  | .comment c => by simp [Item.nodesAt, nodes, node, item]
  | .action h a => by simp [Item.nodesAt, nodes, node, item]
  | .conditional h t block => by
    rw [Item.nodesAt, nodes_cons, nodes_append, nodes_nodesAtOption, nodes_items (depth + 1) block, item,
      node, add_assoc]

theorem nodes_items (depth : Nat) : (is : List Item) → f.nodes (Item.nodesAtList depth is) = f.items is
  | [] => by simp [Item.nodesAtList, nodes, items]
  | i :: is => by
    rw [Item.nodesAtList, nodes_append, nodes_item depth i, nodes_items depth is, items]

end

theorem tests_append (ts us : List Test) : f.tests (ts ++ us) = f.tests ts + f.tests us := by
  induction ts with
  | nil => simp [tests]
  | cons t ts ih => rw [List.cons_append, tests, tests, ih, add_assoc]

theorem items_append (is js : List Item) : f.items (is ++ js) = f.items is + f.items js := by
  induction is with
  | nil => simp [items]
  | cons i is ih => rw [List.cons_append, items, items, ih, add_assoc]

theorem tests_singleton (t : Test) : f.tests [t] = f.test t := by
  simp [tests]

theorem items_singleton (i : Item) : f.items [i] = f.item i := by
  simp [items]

/-! ### States -/

/-- What a test around the innermost one counts for, with its finished members. -/
def enclosing : Enclosing → M
  | .negation h _ => f.head h false
  | .group h _ _ ts => f.head h false + f.tests ts

/-- What the tests around the innermost one count for, the outermost first. -/
def outer : List Enclosing → M
  | [] => 0
  | e :: es => outer es + f.enclosing e

/-- What a statement counts for. -/
def statement : Option Statement → M
  | none => 0
  | some (.action h a _) => f.head h a.isPlaceholder
  | some (.conditional h) => f.head h false
  | some (.testing h p) => f.head h false + f.outer p.outer + f.test p.inner.toTest

/-- What the open blocks count for, the outermost first. -/
def blocks : List OpenBlock → M
  | [] => 0
  | b :: bs => blocks bs + (f.head b.head false + f.option b.test + f.items b.items)

/-- What has been read so far counts for. -/
def state (s : State) : M :=
  f.items s.items + f.blocks s.blocks + f.statement s.statement

theorem test_close (e : Enclosing) (t : Test) : f.test (e.close t) = f.enclosing e + f.test t := by
  cases e with
  | negation h m => simp [Enclosing.close, test, option, enclosing]
  | group h m c ts => simp [Enclosing.close, test, enclosing, tests_append, tests_singleton, add_assoc]

theorem test_foldl_close (es : List Enclosing) (t : Test) :
    f.test (es.foldl (fun t e => e.close t) t) = f.outer es + f.test t := by
  induction es generalizing t with
  | nil => simp [outer]
  | cons e es ih => rw [List.foldl_cons, ih, test_close, outer, add_assoc]

theorem test_take (t : Test) (args : List Argument) : f.test (t.take.run args).1 = f.test t := by
  cases t with
  | leaf h m c =>
    have hp : (c.take.run args).1.isPlaceholder = c.isPlaceholder := by cases c <;> rfl
    show f.test (.leaf h m (c.take.run args).1) = f.test (.leaf h m c)
    rw [test, test, hp]
  | negation h m inner => rfl
  | group h m c ts => rfl

theorem test_closePath (p : TestPath) :
    f.test p.close = f.outer p.outer + f.test p.inner.toTest := by
  rw [TestPath.close, test_foldl_close, TestPath.fill, test_take]

theorem item_close (c : Statement) : f.item c.close = f.statement (some c) := by
  cases c with
  | action h a args =>
    have hp : (a.take.run args).1.isPlaceholder = a.isPlaceholder := by cases a <;> rfl
    rw [Statement.close, item, hp, statement]
  | conditional h => simp [Statement.close, item, option, items, statement]
  | testing h p =>
    simp [Statement.close, item, option, items, statement, test_closePath, add_assoc]

theorem items_closeBlocks (bs : List OpenBlock) (inner : Option Item) :
    f.items (State.closeBlocks inner bs).toList = f.blocks bs + f.items inner.toList := by
  induction bs generalizing inner with
  | nil => simp [State.closeBlocks, blocks]
  | cons b bs ih =>
    rw [State.closeBlocks, ih, Option.toList_some, items_singleton, OpenBlock.close, item, items_append,
      blocks]
    simp only [add_assoc]

theorem items_finish (s : State) : f.items s.finish.items = f.state s := by
  have hstatement : f.items (s.statement.map Statement.close).toList = f.statement s.statement := by
    cases s.statement with
    | none => rfl
    | some c => rw [Option.map_some, Option.toList_some, items_singleton, item_close]
  rw [State.finish, items_append, items_closeBlocks, hstatement, state, add_assoc]

/-! ### One symbol -/

/-- What a symbol adds. -/
def symbol (v : Vocabulary) : Symbol → M
  | .word w => f.head { word := w } (v.meaning w = .unknown)
  | .comment c => f.comment c
  | _ => 0

/-- A comment attached to a node counts as if it came behind all other nodes. -/
structure Attaches : Prop where
  attach : ∀ c h b x, f.head (State.attach c h) b + x = f.head h b + x + f.comment c

variable {v : Vocabulary} {s s' : State}

theorem state_add (s : State) (hs : s.statement = none) (i : Item) :
    f.state (s.add i) = f.state s + f.item i := by
  obtain ⟨is, bs, st, rs⟩ := s
  cases hs
  cases bs with
  | nil => simp [State.add, state, items_append, items_singleton, blocks, statement]
  | cons b bs => simp [State.add, state, items_append, items_singleton, blocks, statement, add_assoc]

theorem outer_climb {t : Test} {es : List Enclosing} {g : OpenGroup} (h : TestPath.climb t es = some g) :
    f.outer es + f.test t = f.outer g.outer + f.head g.head false + f.tests g.members := by
  fun_induction TestPath.climb t es with
  | case1 => contradiction
  | case2 t hd m es ih =>
    rw [← ih h, outer, test, option, enclosing, add_assoc]
  | case3 t hd m c ts es =>
    cases h
    simp only [outer, enclosing, tests_append, tests_singleton, add_assoc]

theorem statement_nearestGroup? {hd : Head} {p : TestPath} {g : OpenGroup} (h : p.nearestGroup? = some g)
    (ps : Parens) :
    f.statement (some (.testing hd (g.toPath ps))) = f.statement (some (.testing hd p)) := by
  have hgroup : f.outer g.outer + f.test (g.toPath ps).inner.toTest =
      f.outer p.outer + f.test p.inner.toTest := by
    rw [TestPath.nearestGroup?] at h
    split at h
    next hi =>
      cases h
      rw [hi]
      rfl
    next =>
      rw [← f.test_take p.inner.toTest p.waiting]
      exact (add_assoc _ _ _).symm.trans (f.outer_climb h).symm
  rw [statement, statement, add_assoc, add_assoc]
  exact congrArg (f.head hd false + ·) hgroup

theorem statement_slot? {hd : Head} {es : List Enclosing} (h : s.slot? = some (hd, es)) :
    f.statement s.statement = f.head hd false + f.outer es := by
  rw [State.slot?] at h
  split at h
  next hs =>
    cases h
    rw [hs, statement, outer, add_zero]
  next p hs =>
    obtain ⟨e, he, heq⟩ := Option.map_eq_some_iff.1 h
    cases heq
    have henclosing : f.test p.inner.toTest = f.enclosing e := by
      unfold OpenTest.enclose? at he
      split at he
      next hi => cases he; rw [hi]; simp [OpenTest.toTest, test, option, enclosing]
      next hi => cases he; rw [hi]; simp [OpenTest.toTest, test, enclosing]
      · contradiction
    rw [hs, statement, outer, henclosing, add_assoc]
  · contradiction

theorem test_openTest? {w : String} {p : Prototype} {t : OpenTest} (h : p.openTest? w = some t) :
    f.test t.toTest = f.head { word := w } p.isPlaceholder := by
  cases p with
  | action a => contradiction
  | condition c => cases h; rfl
  | negation => cases h; simp [OpenTest.toTest, test, option, Prototype.isPlaceholder]
  | group c => cases h; simp [OpenTest.toTest, test, tests, Prototype.isPlaceholder]

theorem state_comment (hf : f.Attaches) (s : State) (c : Comment) :
    f.state (s.comment c) = f.state s + f.comment c := by
  obtain ⟨is, bs, st, rs⟩ := s
  have hlast := fun h b => hf.attach c h b 0
  simp only [add_zero] at hlast
  cases st with
  | none => exact f.state_add _ rfl (.comment c)
  | some st =>
    cases st with
    | action h a args => simp only [State.comment, state, statement, hlast, add_assoc]
    | conditional h => simp only [State.comment, state, statement, hlast, add_assoc]
    | testing h p =>
      -- The members of a group stand behind its head, so here the comment has to pass them.
      have htest : f.test (p.inner.withHead (State.attach c p.inner.head)).toTest =
          f.test p.inner.toTest + f.comment c := by
        cases p.inner with
        | leaf g m d => exact hlast g _
        | negation g m =>
          simp only [OpenTest.withHead, OpenTest.head, OpenTest.toTest, test]
          exact hf.attach c g false _
        | group g m d ps ts =>
          simp only [OpenTest.withHead, OpenTest.head, OpenTest.toTest, test]
          exact hf.attach c g false _
      simp only [State.comment, state, statement, htest, add_assoc]

/-- What a symbol counts for is added at the end. -/
theorem state_reads (hf : f.Attaches) (hv : v.Blank) {y : Symbol} (h : State.Reads v s y s') :
    f.state s' = f.state s + f.symbol v y := by
  have hset : ∀ c, f.state { s with statement := c } = f.items s.items + f.blocks s.blocks + f.statement c :=
    fun c => rfl
  have hzero : ∀ {m : M}, m = f.state s → m = f.state s + 0 := fun h => h.trans (add_zero _).symm
  cases h with
  | @conditional w word free =>
    have hm : decide (v.meaning w = .unknown) = false := by simp [word]
    rw [hset, state, free, symbol, hm, statement, statement, add_zero]
  | @action w a word free =>
    have hp := word.isPlaceholder hv
    rw [hset, state, free, symbol, ← hp, statement, statement, add_zero]
    rfl
  | @test w p t hd outer word opens slot =>
    have hp := word.isPlaceholder hv
    rw [hset, state, f.statement_slot? slot, symbol, ← hp, ← f.test_openTest? opens, statement]
    simp only [add_assoc]
  | argument here plain =>
    refine hzero ?_
    rw [hset, state, here]
    rfl
  | @absorbed hd a args args' b m m' need here matching absorb =>
    have hp : (a.withMatching m').isPlaceholder = a.isPlaceholder := by cases a <;> rfl
    refine hzero ?_
    rw [hset, state, here, statement, statement, hp]
  | @tested hd p args' b m' need here absorb =>
    have ht : f.test (p.inner.withMatching m').toTest = f.test p.inner.toTest := by
      cases p.inner <;> simp [OpenTest.withMatching, OpenTest.toTest, Tally.test]
    refine hzero ?_
    rw [hset, state, here, statement, statement, ht]
  | comment => exact f.state_comment hf s _
  | @semicolon hd a args here =>
    refine hzero ?_
    rw [f.state_add _ rfl, hset, state, here, ← item_close]
    simp [statement, Statement.close]
  | @blockStart hd here =>
    refine hzero ?_
    simp [state, State.openBlock, blocks, statement, option, items, here, add_assoc]
  | @testEnd hd p here closed =>
    refine hzero ?_
    simp [state, State.openBlock, blocks, statement, option, items, here, test_closePath, add_assoc]
  | @blockEnd b bs free here =>
    refine hzero ?_
    rw [f.state_add { s with blocks := bs } free]
    simp [state, free, here, blocks, statement, OpenBlock.close, item, add_assoc]
  | leftParen here =>
    refine hzero ?_
    rw [hset, state, here]
    rfl
  | rightParen here group | comma here group =>
    refine hzero ?_
    rw [hset, state, here, f.statement_nearestGroup? group]

theorem state_steps (hf : f.Attaches) (hv : v.Blank) {ys : List Symbol}
    (h : State.steps v s ys = .ok s') : f.state s' = f.state s + (ys.map (f.symbol v)).sum := by
  fun_induction State.steps v s ys with
  | case1 s =>
    cases h
    simp
  | case2 s y ys s₁ h₁ ih =>
    obtain ⟨s₂, hr, heq⟩ := State.reads_of_step h₁
    have hstep : f.state s₁ = f.state s + f.symbol v y := by
      rw [← f.state_reads hf hv hr, heq]
      rfl
    rw [ih h, hstep, List.map_cons, List.sum_cons, add_assoc]
  | case3 => contradiction

/-- The nodes of a script that was read count for what its symbols do. -/
theorem nodes_of_read (hf : f.Attaches) (hv : v.Blank) {name text : String} {s : Script}
    (h : Script.read v name text = .ok s) :
    f.nodes s.nodes = ((Token.symbols (normalize text.toList)).map (f.symbol v)).sum := by
  obtain ⟨st, hst, rfl⟩ := Script.read_eq_ok_iff.1 h
  rw [Script.nodes, nodes_items, items_finish, f.state_steps hf hv hst]
  simp [state, items, blocks, statement]

end Tally

/-! ### Words, comments and unknown words -/

namespace Node

/-- The comments of a node, or the comment itself. -/
def comments : Node → List Comment
  | item (.comment c) => [c]
  | item (.action h _) | item (.conditional h _ _) => h.comments
  | test t => t.head.comments

end Node

namespace Symbol

/-- The word that a symbol is. -/
def word? : Symbol → Option String
  | word w => some w
  | _ => none

/-- The comment that a symbol is. -/
def comment? : Symbol → Option Comment
  | comment c => some c
  | _ => none

/-- The word that a symbol is, if the word is not known. -/
def unknownWord? (v : Vocabulary) : Symbol → Option String
  | word w => if v.meaning w = .unknown then some w else none
  | _ => none

end Symbol

namespace Token

/-- The word of a token, in lower case. -/
def word? (t : Token) : Option String :=
  if t.kind = .word then some t.lower else none

/-- The comment that a token holds. -/
def comment? (t : Token) : Option Comment :=
  match t.kind with
  | .hashComment => some (.ofHashToken t.lexeme)
  | .bracketComment => some (.ofBracketToken t.lexeme)
  | _ => none

theorem filterMap_word? (cs : List Char) :
    (symbols cs).filterMap Symbol.word? = (all cs).filterMap word? := by
  rw [symbols, List.filterMap_filterMap]
  refine List.filterMap_congr fun t _ => ?_
  rw [symbol?, word?]
  cases t.kind <;> rfl

theorem filterMap_comment? (cs : List Char) :
    (symbols cs).filterMap Symbol.comment? = (all cs).filterMap comment? := by
  rw [symbols, List.filterMap_filterMap]
  refine List.filterMap_congr fun t _ => ?_
  rw [symbol?, comment?]
  cases t.kind <;> rfl

end Token

namespace Tally

/-- The words of a tree, in order. -/
def words : Tally (FreeAddMonoid String) where
  head h _ := .of h.word
  comment _ := 0

/-- The words of a tree that are not known, in order. -/
def unknownWords : Tally (FreeAddMonoid String) where
  head h unknown := if unknown then .of h.word else 0
  comment _ := 0

/-- The comments of a tree, in any order. -/
def comments : Tally (Multiset Comment) where
  head h _ := h.comments
  comment c := {c}

theorem attaches_words : words.Attaches :=
  ⟨fun _ _ _ _ => (add_zero _).symm⟩

theorem attaches_unknownWords : unknownWords.Attaches :=
  ⟨fun _ _ _ _ => (add_zero _).symm⟩

theorem attaches_comments : comments.Attaches := by
  refine ⟨fun c h b x => ?_⟩
  show ((h.comments ++ [c] : List Comment) : Multiset Comment) + x = h.comments + x + {c}
  rw [← Multiset.coe_add, Multiset.coe_singleton, add_right_comm]

theorem sum_map_of {α : Type} (xs : List α) (g : α → Option String) :
    (xs.map fun x => ((g x).elim 0 .of : FreeAddMonoid String)).sum = .ofList (xs.filterMap g) := by
  induction xs with
  | nil => rfl
  | cons x xs ih =>
    rw [List.map_cons, List.sum_cons, ih]
    cases hx : g x with
    | none => rw [List.filterMap_cons_none hx]; exact zero_add _
    | some w => rw [List.filterMap_cons_some hx]; rfl

theorem filterMap_of_read {f : Tally (FreeAddMonoid String)} (hf : f.Attaches) {v : Vocabulary}
    (hv : v.Blank) {g : Node → Option String} {k : Symbol → Option String}
    (hg : ∀ n, f.node n = (g n).elim 0 .of) (hk : ∀ y, f.symbol v y = (k y).elim 0 .of)
    {name text : String} {s : Script} (h : Script.read v name text = .ok s) :
    s.nodes.filterMap (fun n => g n.2) = (Token.symbols (normalize text.toList)).filterMap k := by
  have hsum := f.nodes_of_read hf hv h
  rw [nodes, funext hk] at hsum
  simp only [hg] at hsum
  rw [sum_map_of _ fun n : Nat × Node => g n.2, sum_map_of _ k] at hsum
  exact FreeAddMonoid.ofList.injective hsum

theorem words_node (n : Node) : words.node n = n.word?.elim 0 .of := by
  rcases n with (_ | _ | _) | (_ | _ | _) <;> rfl

theorem words_symbol (v : Vocabulary) (y : Symbol) : words.symbol v y = y.word?.elim 0 .of := by
  cases y <;> rfl

theorem unknownWords_node (n : Node) : unknownWords.node n = n.placeholder?.elim 0 .of := by
  rcases n with (_ | ⟨h, a⟩ | _) | (⟨h, m, c⟩ | _ | _)
  case item.action =>
    simp only [node, unknownWords, Node.placeholder?, Item.isPlaceholder, Item.head?]
    by_cases ha : a.isPlaceholder = true <;> simp [ha]
  case test.leaf =>
    simp only [node, unknownWords, Node.placeholder?, Test.isPlaceholder, Test.head]
    by_cases hc : c.isPlaceholder = true <;> simp [hc]
  all_goals rfl

theorem unknownWords_symbol (v : Vocabulary) (y : Symbol) :
    unknownWords.symbol v y = (y.unknownWord? v).elim 0 .of := by
  cases y with
  | word w =>
    simp only [symbol, unknownWords, Symbol.unknownWord?]
    by_cases hw : v.meaning w = .unknown <;> simp [hw]
  | _ => rfl

theorem comments_nodes (ns : List (Nat × Node)) :
    comments.nodes ns = (ns.flatMap fun n => n.2.comments : List Comment) := by
  induction ns with
  | nil => rfl
  | cons n ns ih =>
    have hnode : comments.node n.2 = (n.2.comments : Multiset Comment) := by
      rcases n with ⟨d, (_ | _ | _) | (_ | _ | _)⟩ <;> rfl
    rw [nodes_cons, ih, hnode, List.flatMap_cons, Multiset.coe_add]

theorem comments_symbols (v : Vocabulary) (ys : List Symbol) :
    (ys.map (comments.symbol v)).sum = (ys.filterMap Symbol.comment? : List Comment) := by
  induction ys with
  | nil => rfl
  | cons y ys ih =>
    rw [List.map_cons, List.sum_cons, ih]
    cases y with
    | comment c => rfl
    | _ => exact zero_add _

end Tally

/-! ### Notices -/

namespace Notice

/-- The word that a notice reports as not known. -/
def placeholder? : Notice → Option String
  | placeholder _ w => some w
  | _ => none

end Notice

namespace State
variable {v : Vocabulary} {s s' : State}

theorem filterMap_unused (s : State) : s.unused.filterMap Notice.placeholder? = [] := by
  rw [unused]
  split
  · rfl
  · split <;> rfl

theorem filterMap_notices (s : State) (line : Nat) (y : Symbol) :
    (s.notices v line y).filterMap Notice.placeholder? = (y.unknownWord? v).toList := by
  cases y with
  | word w =>
    rw [notices, List.filterMap_append, filterMap_unused, unknownWord, Symbol.unknownWord?]
    cases v.meaning w <;> rfl
  | semicolon =>
    rw [notices]
    split
    · exact filterMap_unused s
    · rfl
  | blockStart | leftParen | rightParen | comma => exact filterMap_unused s
  | argument | comment | blockEnd | unknown => rfl

/-- The words that are reported while tokens are read are the unknown ones among them. -/
theorem filterMap_trace {ts : List Token} (h : run v s ts = .ok s') :
    (trace v s ts).filterMap Notice.placeholder? =
      (ts.filterMap Token.symbol?).filterMap (Symbol.unknownWord? v) := by
  fun_induction run v s ts with
  | case1 s =>
    rw [trace, lastNotices, List.filterMap_append, List.filterMap_append, filterMap_unused]
    split <;> rfl
  | case2 s t ts ht ih =>
    rw [trace, ht, List.filterMap_cons_none ht]
    exact ih h
  | case3 s t ts y ht s₁ h₁ ih =>
    rw [trace, ht, List.filterMap_cons_some ht]
    simp only [h₁]
    rw [List.filterMap_append, filterMap_notices, ih h, List.filterMap_cons]
    cases y.unknownWord? v <;> rfl
  | case4 => contradiction

end State

namespace Script

/-- The words of a script that was read, in the order of its nodes, are the words of its text; its
comments are those of its text; and its placeholders are the words that were reported as unknown. -/
theorem skeleton_of_parse {capabilities : List String} {name text : String} {s : Script}
    (h : parse capabilities name text = .ok s) :
    s.nodes.filterMap (fun n => n.2.word?) =
        (Token.all (normalize text.toList)).filterMap Token.word? ∧
      (s.nodes.flatMap fun n => n.2.comments).Perm
        ((Token.all (normalize text.toList)).filterMap Token.comment?) ∧
      s.placeholders = (trace (.ofCapabilities capabilities) text).filterMap Notice.placeholder? := by
  have hv := Vocabulary.blank_ofCapabilities capabilities
  refine ⟨?_, ?_, ?_⟩
  · rw [← Token.filterMap_word?]
    exact Tally.filterMap_of_read Tally.attaches_words hv Tally.words_node
      (Tally.words_symbol _) h
  · rw [← Token.filterMap_comment?, ← Multiset.coe_eq_coe, ← Tally.comments_nodes,
      Tally.comments.nodes_of_read Tally.attaches_comments hv h, Tally.comments_symbols]
  · obtain ⟨st, hst, -⟩ := read_eq_ok_iff.1 h
    have hrun := State.run_eq_ok_iff.2 hst
    rw [trace, List.filterMap_cons_none rfl, State.filterMap_trace hrun]
    exact Tally.filterMap_of_read Tally.attaches_unknownWords hv Tally.unknownWords_node
      (Tally.unknownWords_symbol _) h

/-- An instance with an unknown word, and a comment that goes to a node in front of others. -/
theorem skeleton_of_parse_group :
    let text := "if anyof (true, foo) # c\n { keep; }"
    let s : Script := { items := [.conditional { word := "if" }
      (some (.group { word := "anyof", comments := [.hash "c"] } {} .any
        [.leaf { word := "true" } {} .always, .leaf { word := "foo" } {} (.placeholder [])]))
      [.action { word := "keep" } (.keep none)]] }
    parse [] "" text = .ok s ∧
      s.nodes.filterMap (fun n => n.2.word?) =
        (Token.all (normalize text.toList)).filterMap Token.word? ∧
      (s.nodes.flatMap fun n => n.2.comments).Perm
        ((Token.all (normalize text.toList)).filterMap Token.comment?) ∧
      s.placeholders = (trace (.ofCapabilities []) text).filterMap Notice.placeholder? := by
  intro text s
  have h : parse [] "" text = .ok s := by decide +kernel
  exact ⟨h, skeleton_of_parse h⟩

end Script

end SieveScript
