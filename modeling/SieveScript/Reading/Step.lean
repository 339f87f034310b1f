import SieveScript.Vocabulary
import SieveScript.Reading.Symbol
import SieveScript.Reading.Fault
import SieveScript.Reading.State

/-!
# Reading one symbol

`State.step` says what a symbol does to a script that is partly read, or why it cannot stand there.
-/

namespace SieveScript

namespace Matching

/-- What an argument does to a node with a match type and a comparator, given the arguments that
wait: the new matching, the arguments that wait then, and a capability that is needed. A match type
takes effect wherever it stands; `:value`, `:count` and `:comparator` take the argument behind
them. -/
def absorb (m : Matching) (waiting : List Argument) (a : Argument) :
    Except Fault (Matching × List Argument × Option String) :=
  match a.tag?.bind MatchType.ofTag? with
  | some t => .ok ({ m with matchType := some t }, waiting, t.capability?)
  | none =>
    match waiting.getLast?.bind Argument.tag? with
    | some ":comparator" =>
      match a.string? with
      | some c =>
        .ok ({ m with comparator := some c }, waiting.dropLast, comparatorCapability? c)
      | none => .error (.invalidComparator a)
    | some tag =>
      if tag = ":value" ∨ tag = ":count" then
        match (a.string?.bind Relation.ofWord?).bind (MatchType.ofRelation? tag) with
        | some t => .ok ({ m with matchType := some t }, waiting.dropLast, t.capability?)
        | none => .error (.invalidRelation tag a)
      else .ok (m, waiting ++ [a], none)
    | none => .ok (m, waiting ++ [a], none)

end Matching

/-- What a word means in a script. -/
inductive Meaning where
  /-- `if`, `elsif` or `else`. -/
  | conditional
  | defined (d : Definition)
  | unknown
  deriving DecidableEq, Repr

namespace Vocabulary

/-- The words that start a conditional. -/
def conditionalWords : List String :=
  ["if", "elsif", "else"]

/-- What a word means. -/
def meaning (v : Vocabulary) (word : String) : Meaning :=
  if conditionalWords.contains word then .conditional
  else match v.find? word with
    | some d => .defined d
    | none => .unknown

end Vocabulary

namespace State

/-- Starts a command in the innermost block. -/
def startCommand (s : State) (word : String) (c : Statement) : Except Fault State :=
  match s.statement with
  | none => .ok { s with statement := some c }
  | some parent => .error (.commandNotAllowed word parent.word)

/-- Starts a test in the innermost open node. -/
def startTest (s : State) (word : String) (t : OpenTest) : Except Fault State :=
  match s.statement with
  | none =>
    match s.blocks with
    | [] => .error (.testOutside word)
    | b :: _ => .error (.testNotAllowed word b.head.word)
  | some (.conditional h) => .ok { s with statement := some (.testing h { inner := t }) }
  | some (.testing h p) =>
    match p.enter? t with
    | some p' => .ok { s with statement := some (.testing h p') }
    | none => .error (.testNotAllowed word p.inner.head.word)
  | some (.action h _ _) => .error (.testNotAllowed word h.word)

/-- Starts the node that a prototype describes. -/
def start (s : State) (word : String) : Prototype → Except Fault State
  | .action a => s.startCommand word (.action { word } a [])
  | .condition c => s.startTest word (.leaf { word } {} c)
  | .negation => s.startTest word (.negation { word } {})
  | .group c => s.startTest word (.group { word } {} c .missing [])

/-- A test may stand here. -/
def expectsTest (s : State) : Bool :=
  s.statement.any Statement.expectsTest

/-- Reads a word. One that is not known starts a test where a test may stand, else an action. -/
def word (v : Vocabulary) (s : State) (w : String) : Except Fault State :=
  match v.meaning w with
  | .conditional => s.startCommand w (.conditional { word := w })
  | .defined d => (s.needAll d.requires).start w d.prototype
  | .unknown =>
    s.start w (if s.expectsTest then .condition (.placeholder []) else .action (.placeholder []))

/-- Reads an argument. -/
def argument (s : State) (a : Argument) : Except Fault State :=
  match s.statement with
  | none | some (.conditional _) => .error .argumentOutside
  | some (.action h act args) =>
    match act.matching? with
    | none => .ok { s with statement := some (.action h act (args ++ [a])) }
    | some m => do
      let (m, args, capability) ← m.absorb args a
      return { s.needAll capability.toList with
        statement := some (.action h (act.withMatching m) args) }
  | some (.testing h p) => do
    let (m, args, capability) ← p.inner.matching.absorb p.waiting a
    return { s.needAll capability.toList with
      statement := some (.testing h { p with inner := p.inner.withMatching m, waiting := args }) }

/-- Attaches a comment to a node. -/
def attach (c : Comment) (h : Head) : Head :=
  { h with comments := h.comments ++ [c] }

/-- Reads a comment: it belongs to the innermost open node, or stands between commands. -/
def comment (s : State) (c : Comment) : State :=
  match s.statement with
  | none => s.add (.comment c)
  | some (.action h a args) => { s with statement := some (.action (attach c h) a args) }
  | some (.conditional h) => { s with statement := some (.conditional (attach c h)) }
  | some (.testing h p) =>
    let inner := p.inner.withHead (attach c p.inner.head)
    { s with statement := some (.testing h { p with inner }) }

/-- Reads a semicolon: it ends an action. -/
def semicolon (s : State) : Except Fault State :=
  match s.statement with
  | some (.action h a args) =>
    let i := (Statement.action h a args).close
    .ok (({ s with statement := none }.needAll i.declares).add i)
  | _ => .error .semicolonMisplaced

/-- Opens the block of a conditional. -/
def openBlock (s : State) (h : Head) (test : Option Test) : State :=
  { s with blocks := { head := h, test } :: s.blocks, statement := none }

/-- Reads the start of a block: it ends the test of a conditional. -/
def blockStart (s : State) : Except Fault State :=
  match s.statement with
  | some (.conditional h) => .ok (s.openBlock h none)
  | some (.testing h p) =>
    if p.hasOpenGroup then .error .groupNotClosed else .ok (s.openBlock h (some p.close))
  | _ => .error .blockStartMisplaced

/-- Reads the end of a block: it ends a conditional. -/
def blockEnd (s : State) : Except Fault State :=
  match s.statement, s.blocks with
  | none, b :: bs => .ok ({ s with blocks := bs }.add b.close)
  | _, _ => .error .blockEndMisplaced

/-- Reads an opening parenthesis: it stands behind `allof` or `anyof`. -/
def leftParen (s : State) : Except Fault State :=
  match s.statement with
  | some (.testing h { outer, inner := .group g m c .missing ts, .. }) =>
    .ok { s with statement := some (.testing h { outer, inner := .group g m c .opened ts }) }
  | _ => .error .leftParenMisplaced

/-- Closes what is open inside the nearest open group. -/
def atGroup (s : State) (p : Parens) (f : Fault) : Except Fault State :=
  match s.statement with
  | some (.testing h path) =>
    match path.nearestGroup? with
    | some g => .ok { s with statement := some (.testing h (g.toPath p)) }
    | none => .error f
  | _ => .error f

/-- Reads a symbol. -/
def step (v : Vocabulary) (s : State) : Symbol → Except Fault State
  | .word w => s.word v w
  | .argument a => s.argument a
  | .comment c => .ok (s.comment c)
  | .semicolon => s.semicolon
  | .blockStart => s.blockStart
  | .blockEnd => s.blockEnd
  | .leftParen => s.leftParen
  | .rightParen => s.atGroup .closed .rightParenMisplaced
  | .comma => s.atGroup .opened .commaMisplaced
  | .unknown t => .error (.invalidToken t)

end State

end SieveScript
