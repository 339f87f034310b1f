import SieveScript.LogEntry
import SieveScript.Reading.Step

/-!
# Notices

What a reader of a script may want to know although it is no fault: words that are not known,
arguments that no node understood, and nodes that were still open at the end. `Notice.entry` words a
notice for the log; only what may be a mistake of the script is a warning.
-/

namespace SieveScript

/-- Something to report about a script. -/
inductive Notice where
  /-- Reading starts, with so many active definitions. -/
  | started (definitions : Nat)
  /-- A word that is not known or not active stands on a line. -/
  | placeholder (line : Nat) (word : String)
  /-- The node of a word left some of its arguments. -/
  | unusedArguments (word : String) (unused : List Argument)
  /-- The script ended while so many nodes were open. -/
  | leftOpen (depth : Nat)
  /-- Reading ended, with so many items outside blocks, and these capabilities are needed. -/
  | finished (items : Nat) (requires : List String)
  deriving DecidableEq, Repr

namespace Notice

/-- The notice about a script in the log. -/
def entry (script : String) : Notice → LogEntry
  | started n =>
    { level := .debug, message := "parsing script",
      fields := [("script", .text script), ("active", .number n)] }
  | placeholder line w =>
    { level := .warning, message := "unknown or inactive identifier, keeping a placeholder",
      fields := [("script", .text script), ("line", .number line), ("identifier", .text w)] }
  | unusedArguments w args =>
    { level := .warning, message := "arguments not understood",
      fields := [("script", .text script), ("identifier", .text w),
        ("unused", .texts (args.map fun a => String.ofList a.encode))] }
  | leftOpen n =>
    { level := .debug, message := "script ended with open commands",
      fields := [("script", .text script), ("open", .number n)] }
  | finished n capabilities =>
    { level := .debug, message := "parsed script",
      fields := [("script", .text script), ("items", .number n), ("requires", .texts capabilities)] }

end Notice

namespace State

/-- The notice about waiting arguments that the innermost node does not understand. -/
def unused (s : State) : List Notice :=
  match s.statement with
  | none => []
  | some c => if c.leftover = [] then [] else [.unusedArguments c.word c.leftover]

/-- The notice about a word that is not known. -/
def unknownWord (v : Vocabulary) (line : Nat) (w : String) : List Notice :=
  match v.meaning w with
  | .unknown => [.placeholder line w]
  | _ => []

/-- The notices that a symbol on a line gives rise to, also where it is at fault. -/
def notices (v : Vocabulary) (s : State) (line : Nat) : Symbol → List Notice
  | .word w => s.unused ++ unknownWord v line w
  | .semicolon =>
    match s.statement with
    | some (.action ..) => s.unused
    | _ => []
  | .blockStart | .leftParen | .rightParen | .comma => s.unused
  | .argument _ | .comment _ | .blockEnd | .unknown _ => []

/-- The notices at the end of a script. -/
def lastNotices (s : State) : List Notice :=
  s.unused ++ if s.depth = 0 then [] else [.leftOpen s.depth]

end State

end SieveScript
