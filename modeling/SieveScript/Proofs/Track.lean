import SieveScript.Tree.View
import SieveScript.Proofs.Symbols

/-!
# Keeping track of the open nodes by their places

Another way to read a script: the tree holds all nodes, the open ones included, and a stack of levels
says where the open nodes are. Each level has the place of its node in the node below, and copies of
what has to be known about it. `resolve` follows the places down from the items of the script,
`edit` changes the node that they lead to, and `Track.step` reads a symbol. Here a step may also fail
because the places lead nowhere or to a node of another kind; that this never happens, and that the
stack and the tree agree in every state, is shown from `State` in `SieveScript.Proofs.OpenPath`.
-/

namespace SieveScript

/-! ### Places -/

/-- Where a node stands in the node around it, or among the items of the script. -/
inductive Place where
  | top (index : Nat)
  | child (index : Nat)
  | test
  | member (index : Nat)
  deriving DecidableEq

/-- The kinds of nodes that can be open. -/
inductive Role where
  | conditional
  | action
  | negation
  | group
  | leaf
  deriving DecidableEq

/-- An open node: its place in the node below, and what has to be known about it there. -/
structure Level where
  place : Place
  role : Role
  word : String
  /-- The block of a conditional has started. -/
  blockOpen : Bool := false
  /-- How far the parentheses of a group have been read. -/
  parens : Parens := .missing
  /-- The node takes match types and comparators. -/
  matcher : Bool
  deriving DecidableEq

namespace Role

/-- Nodes of this kind stand among items. -/
def isCommand : Role → Bool
  | conditional | action => true
  | _ => false

end Role

namespace Level

/-- A test may stand in the node. A negation takes none any more once it has one, but then the test is
what is innermost. -/
def expectsTest (l : Level) : Bool :=
  match l.role with
  | .conditional => !l.blockOpen
  | .negation => true
  | .group => l.parens = .opened
  | .action | .leaf => false

end Level

namespace Node

/-- The kind of a node. -/
def role : Node → Role
  | item (.conditional ..) => .conditional
  | item _ => .action
  | test (.negation ..) => .negation
  | test (.group ..) => .group
  | test (.leaf ..) => .leaf

/-- The command at a place of a list, if it is no comment. -/
def command? (items : List Item) (i : Nat) : Option Node :=
  match items[i]? with
  | some (.comment _) | none => none
  | some i => some (item i)

/-- The node at a place inside a node. -/
def descend? : Node → Place → Option Node
  | item (.conditional _ _ block), .child i => command? block i
  | item (.conditional _ t _), .test => t.map test
  | test (.negation _ _ t), .test => t.map test
  | test (.group _ _ _ ts), .member i => ts[i]?.map test
  | _, _ => none

end Node

/-- The node that the levels lead to; the innermost level comes first. -/
def resolve (items : List Item) : List Level → Option Node
  | [] => none
  | [l] =>
    match l.place with
    | .top i => Node.command? items i
    | _ => none
  | l :: ls => (resolve items ls).bind (·.descend? l.place)

/-- A change of a node, whatever its kind. -/
structure Edit where
  item : Item → Item := id
  test : Test → Test := id

namespace Edit

/-- The change of a node that changes what stands at a place inside it. -/
def under (p : Place) (e : Edit) : Edit where
  item
    | .conditional h t block =>
      match p with
      | .child i => .conditional h t (block.modify i e.item)
      | .test => .conditional h (t.map e.test) block
      | _ => .conditional h t block
    | i => i
  test
    | .negation h m t =>
      match p with
      | .test => .negation h m (t.map e.test)
      | _ => .negation h m t
    | .group h m c ts =>
      match p with
      | .member i => .group h m c (ts.modify i e.test)
      | _ => .group h m c ts
    | t => t

/-- Gives arguments to the body; those that it does not understand are lost. -/
def take (args : List Argument) : Edit where
  item i := (i.take.run args).1
  test t := (t.take.run args).1

/-- Changes the match type and the comparator, where there are any. -/
def matching (f : Matching → Matching) : Edit where
  item
    | .action h a =>
      match a.matching? with
      | some m => .action h (a.withMatching (f m))
      | none => .action h a
    | i => i
  test
    | .leaf h m c => .leaf h (f m) c
    | .negation h m t => .negation h (f m) t
    | .group h m c ts => .group h (f m) c ts

/-- Attaches a comment; where a block is open, it goes into the block. -/
def comment (blockOpen : Bool) (c : Comment) : Edit where
  item
    | .conditional h t block =>
      if blockOpen then .conditional h t (block ++ [.comment c])
      else .conditional (State.attach c h) t block
    | .action h a => .action (State.attach c h) a
    | i => i
  test
    | .leaf h m d => .leaf (State.attach c h) m d
    | .negation h m t => .negation (State.attach c h) m t
    | .group h m d ts => .group (State.attach c h) m d ts

/-- Puts a test into the place that a node has for one. -/
def adoptTest (t : Test) : Edit where
  item
    | .conditional h _ block => .conditional h (some t) block
    | i => i
  test
    | .negation h m _ => .negation h m (some t)
    | .group h m c ts => .group h m c (ts ++ [t])
    | s => s

/-- Puts an item behind the others of a block. -/
def adoptItem (i : Item) : Edit where
  item
    | .conditional h t block => .conditional h t (block ++ [i])
    | j => j

end Edit

/-- Changes the node that the levels lead to; the innermost level comes first. -/
def edit (items : List Item) : List Level → Edit → List Item
  | [], _ => items
  | [l], e =>
    match l.place with
    | .top i => items.modify i e.item
    | _ => items
  | l :: ls, e => edit items ls (e.under l.place)

/-! ### Failures -/

/-- Why reading stops: a fault of the script, or something that ought not to happen. -/
inductive Failure where
  | fault (f : Fault)
  /-- The levels do not lead to an open node of their kind. -/
  | lost
  /-- The node has a test already. -/
  | secondTest (word kind : String)
  /-- The node has no match type, although its level says so. -/
  | noMatching
  deriving DecidableEq

namespace Failure

/-- The report of a failure. -/
def message : Failure → String
  | fault f => f.message
  | lost => "Parser lost track of the open command"
  | secondTest word kind => "Only one test allowed in \"" ++ word ++ "\" " ++ kind
  | noMatching => "Match type not allowed here"

end Failure

/-! ### Reading -/

/-- The tree so far, the open nodes with the innermost first, the arguments of the innermost node that
wait, and the capabilities met. -/
structure Track where
  items : List Item := []
  levels : List Level := []
  pending : List Argument := []
  requires : List String := []
  deriving DecidableEq

namespace Track

/-- Adds a capability that has not been met yet. -/
def need (x : Track) (capability : String) : Track :=
  if x.requires.contains capability then x
  else { x with requires := x.requires ++ [capability] }

/-- Adds capabilities one by one. -/
def needAll (x : Track) (capabilities : List String) : Track :=
  capabilities.foldl need x

/-- Gives the waiting arguments to the innermost node. They are lost where there is none. -/
def flush (x : Track) : Track :=
  if x.pending = [] then x
  else match resolve x.items x.levels with
    | some _ => { x with items := edit x.items x.levels (.take x.pending), pending := [] }
    | none => { x with pending := [] }

/-- Opens a node that has been put at a place. -/
def push (x : Track) (w : String) (n : Node) (place : Place) : Track :=
  { x with levels := { place, role := n.role, word := w, matcher := n.matching?.isSome } :: x.levels }

/-- Puts a test into the innermost node and opens it. Whether a test may stand there is decided by the
level alone, and then the node that the levels lead to has to have a place for it. -/
def attachTest (x : Track) (w : String) (t : Test) : Except Failure Track :=
  match x.levels with
  | [] => .error (.fault (.testOutside t.head.word))
  | l :: _ =>
    match resolve x.items x.levels with
    | none => .error .lost
    | some (.item i) =>
      if l.role = .conditional ∧ l.blockOpen = false then
        match i with
        | .conditional _ none _ =>
          .ok ({ x with items := edit x.items x.levels (.adoptTest t) }.push w (.test t) .test)
        | .conditional _ (some _) _ => .error (.secondTest l.word "command")
        | _ => .error .lost
      else .error (.fault (.testNotAllowed t.head.word l.word))
    | some (.test s) =>
      if l.role = .negation then
        match s with
        | .negation _ _ none =>
          .ok ({ x with items := edit x.items x.levels (.adoptTest t) }.push w (.test t) .test)
        | .negation _ _ (some _) => .error (.secondTest "not" "test")
        | _ => .error .lost
      else if l.role = .group ∧ l.parens = .opened then
        match s with
        | .group _ _ _ ts =>
          .ok ({ x with items := edit x.items x.levels (.adoptTest t) }.push w (.test t)
            (.member ts.length))
        | _ => .error .lost
      else .error (.fault (.testNotAllowed t.head.word l.word))

/-- Puts a command behind the items of the script or of the innermost block, and opens it. -/
def attachItem (x : Track) (w : String) (i : Item) : Except Failure Track :=
  match x.levels with
  | [] => .ok ({ x with items := x.items ++ [i] }.push w (.item i) (.top x.items.length))
  | l :: _ =>
    let word := (i.head?.map Head.word).getD w
    match resolve x.items x.levels with
    | none => .error .lost
    | some (.item j) =>
      if l.role = .conditional ∧ l.blockOpen = true then
        match j with
        | .conditional _ _ block =>
          .ok ({ x with items := edit x.items x.levels (.adoptItem i) }.push w (.item i)
            (.child block.length))
        | _ => .error .lost
      else .error (.fault (.commandNotAllowed word l.word))
    | some (.test _) => .error (.fault (.commandNotAllowed word l.word))

/-- Puts a node where it may stand and opens it. -/
def attach (x : Track) (w : String) : Node → Except Failure Track
  | .item i => x.attachItem w i
  | .test t => x.attachTest w t

/-- Reads a word: the innermost node gets the arguments that wait, and a node for the word is opened. A
word that is not known is a test where a test may stand, else an action. -/
def word (v : Vocabulary) (x : Track) (w : String) : Except Failure Track :=
  let x := x.flush
  match v.meaning w with
  | .conditional => x.attach w (.item (.conditional { word := w } none []))
  | .defined d => (x.needAll d.requires).attach w d.fresh
  | .unknown =>
    x.attach w (if x.levels.head?.any Level.expectsTest then .test (.leaf { word := w } {} (.placeholder []))
      else .item (.action { word := w } (.placeholder [])))

/-- Changes the match type or the comparator of the innermost node. -/
def changeMatching (x : Track) (f : Matching → Matching) : Except Failure Track :=
  match resolve x.items x.levels with
  | none => .error (.fault .argumentOutside)
  | some n =>
    if n.matching?.isSome then .ok { x with items := edit x.items x.levels (.matching f) }
    else .error .noMatching

/-- Notes what a match type needs and gives it to the innermost node. -/
def setMatchType (x : Track) (t : MatchType) : Except Failure Track :=
  (x.needAll t.capability?.toList).changeMatching fun m => { m with matchType := some t }

/-- Notes what a comparator needs and gives it to the innermost node. -/
def setComparator (x : Track) (c : String) : Except Failure Track :=
  (x.needAll (Matching.comparatorCapability? c).toList).changeMatching fun m => { m with comparator := some c }

/-- Reads an argument of a node that takes match types and comparators. -/
def matchArgument (x : Track) (a : Argument) : Except Failure Track :=
  match a.tag?.bind MatchType.ofTag? with
  | some t => x.setMatchType t
  | none =>
    match x.pending.getLast?.bind Argument.tag? with
    | some ":comparator" =>
      match a.string? with
      | some c => { x with pending := x.pending.dropLast }.setComparator c
      | none => .error (.fault (.invalidComparator a))
    | some tag =>
      if tag = ":value" ∨ tag = ":count" then
        match (a.string?.bind Relation.ofWord?).bind (MatchType.ofRelation? tag) with
        | some t => { x with pending := x.pending.dropLast }.setMatchType t
        | none => .error (.fault (.invalidRelation tag a))
      else .ok { x with pending := x.pending ++ [a] }
    | none => .ok { x with pending := x.pending ++ [a] }

/-- Reads an argument: it waits for the end of the innermost node, unless that node takes match types and
comparators and this is one. -/
def argument (x : Track) (a : Argument) : Except Failure Track :=
  match x.levels with
  | [] => .error (.fault .argumentOutside)
  | l :: _ =>
    if l.role = .conditional then .error (.fault .argumentOutside)
    else if l.matcher then x.matchArgument a
    else .ok { x with pending := x.pending ++ [a] }

/-- Reads a comment. It is lost where the levels lead nowhere. -/
def comment (x : Track) (c : Comment) : Track :=
  match x.levels with
  | [] => { x with items := x.items ++ [.comment c] }
  | l :: _ =>
    match resolve x.items x.levels with
    | some _ => { x with items := edit x.items x.levels (.comment l.blockOpen c) }
    | none => x

/-- Reads a semicolon: it ends an action, and a `require` tells what it declares. -/
def semicolon (x : Track) : Except Failure Track :=
  match x.levels with
  | [] => .error (.fault .semicolonMisplaced)
  | l :: ls =>
    if l.role = .action then
      let x := x.flush
      match resolve x.items x.levels with
      | some (.item i) => .ok { x.needAll i.declares with levels := ls }
      | _ => .ok { x with levels := ls }
    else .error (.fault .semicolonMisplaced)

/-- The levels from the innermost conditional on, with its block started. -/
def startBlock : List Level → Except Failure (List Level)
  | [] => .error (.fault .blockStartMisplaced)
  | l :: ls =>
    if l.role = .conditional then
      if l.blockOpen then .error (.fault .blockStartMisplaced)
      else .ok ({ l with blockOpen := true } :: ls)
    else if l.role = .group ∧ l.parens = .opened then .error (.fault .groupNotClosed)
    else startBlock ls

/-- The levels from a group without a parenthesis on, with its parenthesis opened. -/
def openGroup : List Level → Except Failure (List Level)
  | [] => .error (.fault .leftParenMisplaced)
  | l :: ls =>
    if l.role = .group ∧ l.parens = .missing then .ok ({ l with parens := .opened } :: ls)
    else if l.role = .leaf ∨ l.role = .negation then openGroup ls
    else .error (.fault .leftParenMisplaced)

/-- The levels from the innermost group with an open parenthesis on, with the parenthesis as given. -/
def unwind (p : Parens) (f : Fault) : List Level → Except Failure (List Level)
  | [] => .error (.fault f)
  | l :: ls =>
    if l.role = .group ∧ l.parens = .opened then .ok ({ l with parens := p } :: ls)
    else if l.role = .leaf ∨ l.role = .negation ∨ l.role = .group then unwind p f ls
    else .error (.fault f)

/-- Gives the innermost node the arguments that wait and changes the levels. -/
def relevel (x : Track) (f : List Level → Except Failure (List Level)) : Except Failure Track := do
  let x := x.flush
  return { x with levels := ← f x.levels }

/-- Reads the end of a block. Nothing can wait here, so nothing is given to the node. -/
def blockEnd (x : Track) : Except Failure Track :=
  match x.levels with
  | [] => .error (.fault .blockEndMisplaced)
  | l :: ls =>
    if l.role = .conditional ∧ l.blockOpen = true then .ok { x with levels := ls }
    else .error (.fault .blockEndMisplaced)

/-- Reads a symbol. -/
def step (v : Vocabulary) (x : Track) : Symbol → Except Failure Track
  | .word w => x.word v w
  | .argument a => x.argument a
  | .comment c => .ok (x.comment c)
  | .semicolon => x.semicolon
  | .blockStart => x.relevel startBlock
  | .blockEnd => x.blockEnd
  | .leftParen => x.relevel openGroup
  | .rightParen => x.relevel (unwind .closed .rightParenMisplaced)
  | .comma => x.relevel (unwind .opened .commaMisplaced)
  | .unknown t => .error (.fault (.invalidToken t))

/-- Reads tokens; a failure comes with the token that it is met at. -/
def run (v : Vocabulary) : Track → List Token → Except (Failure × Token) Track
  | x, [] => .ok x
  | x, t :: ts =>
    match t.symbol? with
    | none => run v x ts
    | some y =>
      match x.step v y with
      | .ok x' => run v x' ts
      | .error f => .error (f, t)

end Track

end SieveScript
