import SieveScript.Comment
import SieveScript.Matching
import SieveScript.Action
import SieveScript.Condition

/-!
# The tree of a script

A script is a list of items: comments, actions, and conditionals with a test and a block of items.
A test is a condition, a negation or a group of tests. Each node keeps the word it was written with
and the comments that stand behind that word. Equality of trees is decidable
(`Test.decEq`, `Item.decEq`).
-/

namespace SieveScript

/-- The word of a node, in lower case, and the comments attached to it. -/
structure Head where
  word : String
  comments : List Comment := []
  deriving DecidableEq, Repr

/-- Whether all or any of the tests in a group have to hold. -/
inductive Connective where
  | all
  | any
  deriving DecidableEq, Repr

/-- A test. The test of a negation is missing while nothing follows the word. -/
inductive Test where
  | leaf (head : Head) (matching : Matching) (condition : Condition)
  | negation (head : Head) (matching : Matching) (inner : Option Test)
  | group (head : Head) (matching : Matching) (connective : Connective) (members : List Test)
  deriving Repr

/-- An entry of a script or of a block. -/
inductive Item where
  | comment (c : Comment)
  | action (head : Head) (action : Action)
  /-- `if`, `elsif` or `else`. -/
  | conditional (head : Head) (test : Option Test) (block : List Item)
  deriving Repr

/-! ### Equality -/

mutual

/-- Equality of tests is decidable. -/
def Test.decEq : (s t : Test) → Decidable (s = t)
  | .leaf h m c, .leaf h' m' c' =>
    decidable_of_iff (h = h' ∧ m = m' ∧ c = c') (by simp)
  | .negation h m s, .negation h' m' t =>
    have := Test.decEqOption s t
    decidable_of_iff (h = h' ∧ m = m' ∧ s = t) (by simp)
  | .group h m c ss, .group h' m' c' ts =>
    have := Test.decEqList ss ts
    decidable_of_iff (h = h' ∧ m = m' ∧ c = c' ∧ ss = ts) (by simp)
  | .leaf .., .negation .. | .leaf .., .group .. | .negation .., .leaf ..
  | .negation .., .group .. | .group .., .leaf .. | .group .., .negation .. =>
    isFalse (by simp)

/-- Equality of optional tests is decidable. -/
def Test.decEqOption : (s t : Option Test) → Decidable (s = t)
  | none, none => isTrue rfl
  | some s, some t =>
    have := Test.decEq s t
    decidable_of_iff (s = t) (by simp)
  | none, some _ | some _, none => isFalse (by simp)

/-- Equality of lists of tests is decidable. -/
def Test.decEqList : (ss ts : List Test) → Decidable (ss = ts)
  | [], [] => isTrue rfl
  | s :: ss, t :: ts =>
    have := Test.decEq s t
    have := Test.decEqList ss ts
    decidable_of_iff (s = t ∧ ss = ts) (by simp)
  | [], _ :: _ | _ :: _, [] => isFalse (by simp)

end

instance : DecidableEq Test := Test.decEq

mutual

/-- Equality of items is decidable. -/
def Item.decEq : (i j : Item) → Decidable (i = j)
  | .comment c, .comment c' => decidable_of_iff (c = c') (by simp)
  | .action h a, .action h' a' => decidable_of_iff (h = h' ∧ a = a') (by simp)
  | .conditional h t is, .conditional h' t' js =>
    have := Item.decEqList is js
    decidable_of_iff (h = h' ∧ t = t' ∧ is = js) (by simp)
  | .comment _, .action .. | .comment _, .conditional .. | .action .., .comment _
  | .action .., .conditional .. | .conditional .., .comment _ | .conditional .., .action .. =>
    isFalse (by simp)

/-- Equality of lists of items is decidable. -/
def Item.decEqList : (is js : List Item) → Decidable (is = js)
  | [], [] => isTrue rfl
  | i :: is, j :: js =>
    have := Item.decEq i j
    have := Item.decEqList is js
    decidable_of_iff (i = j ∧ is = js) (by simp)
  | [], _ :: _ | _ :: _, [] => isFalse (by simp)

end

instance : DecidableEq Item := Item.decEq

/-- A script: its items, and the capabilities it needs, each once and in the order in which they
were met. -/
structure Script where
  items : List Item := []
  requires : List String := []
  deriving DecidableEq, Repr

/-! ### Parts of a node -/

namespace Test

/-- The word and the comments of a test. -/
def head : Test → Head
  | leaf h _ _ | negation h _ _ | group h _ _ _ => h

/-- The match type and the comparator of a test. -/
def matching : Test → Matching
  | leaf _ m _ | negation _ m _ | group _ m _ _ => m

/-- The tests of a group. -/
def members? : Test → Option (List Test)
  | group _ _ _ ts => some ts
  | _ => none

/-- The test stands for a word that is not known. -/
def isPlaceholder : Test → Bool
  | leaf _ _ c => c.isPlaceholder
  | _ => false

/-- Gives arguments to the body of a test. Negations and groups understand none. -/
def take : Test → Taking Test
  | leaf h m c => return leaf h m (← c.take)
  | t => return t

end Test

namespace Item

/-- The word and the comments of a command. -/
def head? : Item → Option Head
  | comment _ => none
  | action h _ | conditional h _ _ => some h

/-- The item is a command and no comment. -/
def isCommand (i : Item) : Bool :=
  i.head?.isSome

/-- The command stands for a word that is not known. -/
def isPlaceholder : Item → Bool
  | action _ a => a.isPlaceholder
  | _ => false

/-- The capabilities that a `require` declares. -/
def declares : Item → List String
  | action _ (.require capabilities) => capabilities
  | _ => []

/-- Gives arguments to the body of a command. A conditional understands none. -/
def take : Item → Taking Item
  | action h a => return action h (← a.take)
  | i => return i

end Item

/-- A node of a tree, or a comment between nodes. -/
inductive Node where
  | item (i : Item)
  | test (t : Test)
  deriving DecidableEq, Repr

namespace Node

/-- Gives arguments to the body of a node. -/
def take : Node → Taking Node
  | item i => return item (← i.take)
  | test t => return test (← t.take)

end Node

end SieveScript
