import SieveScript.Tree

/-!
# Views of a tree

The nodes of a tree in the order in which their words stand in a script: a node comes before what
is inside it, the test of a conditional before its block. What a node is asked for whatever its kind
stands here too.
-/

namespace SieveScript

namespace Test

mutual

/-- A test and the tests inside it, each with its depth. -/
def nodesAt (depth : Nat) : Test → List (Nat × Node)
  | leaf h m c => [(depth, .test (leaf h m c))]
  | negation h m inner => (depth, .test (negation h m inner)) :: nodesAtOption (depth + 1) inner
  | group h m c ts => (depth, .test (group h m c ts)) :: nodesAtList (depth + 1) ts

/-- The nodes of a test, where there is one. -/
def nodesAtOption (depth : Nat) : Option Test → List (Nat × Node)
  | none => []
  | some t => nodesAt depth t

/-- The nodes of the tests of a group. -/
def nodesAtList (depth : Nat) : List Test → List (Nat × Node)
  | [] => []
  | t :: ts => nodesAt depth t ++ nodesAtList depth ts

end

end Test

namespace Item

mutual

/-- An item and what is inside it, each with its depth. -/
def nodesAt (depth : Nat) : Item → List (Nat × Node)
  | comment c => [(depth, .item (comment c))]
  | action h a => [(depth, .item (action h a))]
  | conditional h test block =>
    (depth, .item (conditional h test block)) ::
      (Test.nodesAtOption (depth + 1) test ++ nodesAtList (depth + 1) block)

/-- The nodes of a list of items. -/
def nodesAtList (depth : Nat) : List Item → List (Nat × Node)
  | [] => []
  | i :: is => nodesAt depth i ++ nodesAtList depth is

end

end Item

namespace Item

/-- The match type and the comparator of an action that takes them. -/
def matching? : Item → Option Matching
  | action _ a => a.matching?
  | _ => none

end Item

namespace Node

/-- The word of a node. -/
def word? : Node → Option String
  | item i => i.head?.map Head.word
  | test t => some t.head.word

/-- The match type and the comparator of a node that takes them. -/
def matching? : Node → Option Matching
  | item i => i.matching?
  | test t => some t.matching

/-- The word of a node that stands for one that is not known. -/
def placeholder? : Node → Option String
  | item i => if i.isPlaceholder then i.head?.map Head.word else none
  | test t => if t.isPlaceholder then some t.head.word else none

end Node

namespace Script

/-- The nodes of a script, each with its depth. -/
def nodes (s : Script) : List (Nat × Node) :=
  Item.nodesAtList 0 s.items

/-- The words that are not known, in the order in which they stand. -/
def placeholders (s : Script) : List String :=
  s.nodes.filterMap fun (_, n) => n.placeholder?

end Script

end SieveScript
