import SieveScript.Tree

/-!
# A script that is partly read

`State` holds the finished items and the path to what is still open: the open blocks, and the
statement that is being read in the innermost of them. Each open node is of a type that has a place
for what may still follow and for nothing else, so a group around an open test has its parenthesis
open, a condition or an action has nothing open inside it, and arguments wait only where an action
or a test is innermost. `State.finish` closes all that is open.
-/

namespace SieveScript

/-- How far the parentheses of a group have been read. -/
inductive Parens where
  | missing
  | opened
  | closed
  deriving DecidableEq, Repr

/-- A test around the innermost open one. A group is one whose parenthesis is open. -/
inductive Enclosing where
  | negation (head : Head) (matching : Matching)
  | group (head : Head) (matching : Matching) (connective : Connective) (members : List Test)
  deriving DecidableEq, Repr

namespace Enclosing

/-- The test around another one that is finished. -/
def close (inner : Test) : Enclosing → Test
  | negation h m => .negation h m (some inner)
  | group h m c ts => .group h m c (ts ++ [inner])

end Enclosing

/-- The innermost open test. A negation here has no test yet. -/
inductive OpenTest where
  | leaf (head : Head) (matching : Matching) (condition : Condition)
  | negation (head : Head) (matching : Matching)
  | group (head : Head) (matching : Matching) (connective : Connective) (parens : Parens)
      (members : List Test)
  deriving DecidableEq, Repr

namespace OpenTest

/-- The word and the comments of the test. -/
def head : OpenTest → Head
  | leaf h _ _ | negation h _ | group h _ _ _ _ => h

/-- Replaces the word and the comments of the test. -/
def withHead (h : Head) : OpenTest → OpenTest
  | leaf _ m c => leaf h m c
  | negation _ m => negation h m
  | group _ m c p ts => group h m c p ts

/-- The match type and the comparator of the test. -/
def matching : OpenTest → Matching
  | leaf _ m _ | negation _ m | group _ m _ _ _ => m

/-- Replaces the match type and the comparator of the test. -/
def withMatching (m : Matching) : OpenTest → OpenTest
  | leaf h _ c => leaf h m c
  | negation h _ => negation h m
  | group h _ c p ts => group h m c p ts

/-- The test, finished as it stands. -/
def toTest : OpenTest → Test
  | leaf h m c => .leaf h m c
  | negation h m => .negation h m none
  | group h m c _ ts => .group h m c ts

/-- The test as what surrounds another one, if it has a place for it. -/
def enclose? : OpenTest → Option Enclosing
  | negation h m => some (.negation h m)
  | group h m c .opened ts => some (.group h m c ts)
  | _ => none

end OpenTest

/-- The path from the test of a conditional to the innermost open test. -/
structure TestPath where
  /-- The tests around the innermost one, the nearest first. -/
  outer : List Enclosing := []
  inner : OpenTest
  /-- The arguments of the innermost test that have been read. -/
  waiting : List Argument := []
  deriving DecidableEq, Repr

/-- A group whose parenthesis is open, with nothing open inside it. -/
structure OpenGroup where
  outer : List Enclosing
  head : Head
  matching : Matching
  connective : Connective
  members : List Test
  deriving DecidableEq, Repr

namespace OpenGroup

/-- The path that ends at the group. -/
def toPath (g : OpenGroup) (p : Parens) : TestPath :=
  { outer := g.outer, inner := .group g.head g.matching g.connective p g.members }

end OpenGroup

namespace TestPath

/-- Gives the waiting arguments to the innermost test; what it leaves comes second. -/
def fill (p : TestPath) : Test × List Argument :=
  p.inner.toTest.take.run p.waiting

/-- The whole test, with all that is open closed. -/
def close (p : TestPath) : Test :=
  p.outer.foldl (fun t e => e.close t) p.fill.1

/-- Whether the parenthesis of some group on the path is open. -/
def hasOpenGroup (p : TestPath) : Bool :=
  (p.inner.enclose?.toList ++ p.outer).any fun
    | .group .. => true
    | .negation .. => false

/-- Closes a finished test and the negations around it, up to the nearest open group. -/
def climb (inner : Test) : List Enclosing → Option OpenGroup
  | [] => none
  | .negation h m :: outer => climb (.negation h m (some inner)) outer
  | .group head matching connective ts :: outer =>
    some { outer, head, matching, connective, members := ts ++ [inner] }

/-- Closes what is open inside the nearest open group. -/
def nearestGroup? (p : TestPath) : Option OpenGroup :=
  match p.inner with
  | .group head matching connective .opened members =>
    some { outer := p.outer, head, matching, connective, members }
  | _ => climb p.fill.1 p.outer

/-- Starts a test inside the innermost one, if that has a place for it. -/
def enter? (p : TestPath) (t : OpenTest) : Option TestPath :=
  p.inner.enclose?.map fun e => { outer := e :: p.outer, inner := t }

/-- The number of open tests. -/
def depth (p : TestPath) : Nat :=
  p.outer.length + 1

end TestPath

/-- What is being read in the innermost block. -/
inductive Statement where
  /-- An action, with the arguments read so far. -/
  | action (head : Head) (action : Action) (waiting : List Argument)
  /-- A conditional that has neither a test nor a block yet. -/
  | conditional (head : Head)
  /-- A conditional whose test is being read. -/
  | testing (head : Head) (path : TestPath)
  deriving DecidableEq, Repr

namespace Statement

/-- The word of the innermost open node. -/
def word : Statement → String
  | action h _ _ | conditional h => h.word
  | testing _ p => p.inner.head.word

/-- The statement with all that is open closed. -/
def close : Statement → Item
  | action h a args => .action h (a.take.run args).1
  | conditional h => .conditional h none []
  | testing h p => .conditional h (some p.close) []

/-- The waiting arguments that the innermost node does not understand. -/
def leftover : Statement → List Argument
  | action _ a args => (a.take.run args).2
  | conditional _ => []
  | testing _ p => p.fill.2

/-- The innermost node has a place for a test. -/
def expectsTest : Statement → Bool
  | action .. => false
  | conditional _ => true
  | testing _ p => p.inner.enclose?.isSome

/-- The number of open nodes. -/
def depth : Statement → Nat
  | action .. | conditional _ => 1
  | testing _ p => p.depth + 1

end Statement

/-- A conditional whose block is open. -/
structure OpenBlock where
  head : Head
  test : Option Test
  items : List Item := []
  deriving DecidableEq, Repr

namespace OpenBlock

/-- The conditional with its block closed. -/
def close (b : OpenBlock) : Item :=
  .conditional b.head b.test b.items

end OpenBlock

/-- What has been read of a script. -/
structure State where
  /-- The finished items outside all blocks. -/
  items : List Item := []
  /-- The open blocks, the innermost first. -/
  blocks : List OpenBlock := []
  /-- What is being read in the innermost block. -/
  statement : Option Statement := none
  /-- The capabilities met so far. -/
  requires : List String := []
  deriving DecidableEq, Repr

namespace State

/-- Adds a finished item to the innermost block. -/
def add (s : State) (i : Item) : State :=
  match s.blocks with
  | [] => { s with items := s.items ++ [i] }
  | b :: bs => { s with blocks := { b with items := b.items ++ [i] } :: bs }

/-- Adds a capability that has not been met yet. -/
def need (s : State) (capability : String) : State :=
  if s.requires.contains capability then s
  else { s with requires := s.requires ++ [capability] }

/-- Adds capabilities one by one. -/
def needAll (s : State) (capabilities : List String) : State :=
  capabilities.foldl need s

/-- The number of open nodes. -/
def depth (s : State) : Nat :=
  s.blocks.length + s.statement.elim 0 Statement.depth

/-- Closes open blocks around an item, from the innermost out. -/
def closeBlocks (inner : Option Item) : List OpenBlock → Option Item
  | [] => inner
  | b :: bs => closeBlocks (some { b with items := b.items ++ inner.toList }.close) bs

/-- The script, with all that is open closed. -/
def finish (s : State) : Script where
  items := s.items ++ (closeBlocks (s.statement.map Statement.close) s.blocks).toList
  requires := s.requires

end State

end SieveScript
