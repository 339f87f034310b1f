import SieveScript.Tree

/-!
# The vocabulary

The words that scripts may use, each with the capabilities it needs and the node it stands for. A
vocabulary holds the definitions that a list of capabilities makes active. The words `if`, `elsif`
and `else` are not defined here: they belong to the grammar.
-/

namespace SieveScript

/-- What a word stands for, with nothing filled in. -/
inductive Prototype where
  | action (a : Action)
  | condition (c : Condition)
  | negation
  | group (c : Connective)
  deriving DecidableEq, Repr

namespace Prototype

/-- The word stands for a test. -/
def isTest : Prototype → Bool
  | action _ => false
  | _ => true

/-- The node of a word, with nothing filled in. -/
def fresh (word : String) : Prototype → Node
  | action a => .item (.action { word } a)
  | condition c => .test (.leaf { word } {} c)
  | negation => .test (.negation { word } {} none)
  | group c => .test (.group { word } {} c [])

end Prototype

/-- A word, the capabilities that all have to be there for it, and what it stands for. -/
structure Definition where
  word : String
  requires : List String
  prototype : Prototype
  deriving DecidableEq, Repr

namespace Definition

open Prototype

/-- Every definition. -/
def all : List Definition :=
  [⟨"require", [], action (.require [])⟩,
   ⟨"stop", [], action .stop⟩,
   ⟨"keep", [], action (.keep none)⟩,
   ⟨"discard", [], action .discard⟩,
   ⟨"fileinto", ["fileinto"], action (.fileInto {})⟩,
   ⟨"redirect", [], action (.redirect {})⟩,
   ⟨"address", [], condition (.address {})⟩,
   ⟨"allof", [], group .all⟩,
   ⟨"anyof", [], group .any⟩,
   ⟨"envelope", ["envelope"], condition (.envelope {})⟩,
   ⟨"exists", [], condition (.headerExists [])⟩,
   ⟨"false", [], condition .never⟩,
   ⟨"header", [], condition (.header {})⟩,
   ⟨"not", [], negation⟩,
   ⟨"size", [], condition (.size {})⟩,
   ⟨"true", [], condition .always⟩,
   ⟨"body", ["body"], condition (.body {})⟩,
   ⟨"environment", ["environment"], condition (.environment {})⟩,
   ⟨"set", ["variables"], action (.assign {})⟩,
   ⟨"string", ["variables"], condition (.strings {})⟩,
   ⟨"vacation", ["vacation"], action (.vacation {})⟩,
   ⟨"setflag", ["imap4flags"], action (.setFlags {})⟩,
   ⟨"addflag", ["imap4flags"], action (.addFlags {})⟩,
   ⟨"removeflag", ["imap4flags"], action (.removeFlags {})⟩,
   ⟨"hasflag", ["imap4flags"], condition (.hasFlag {})⟩,
   ⟨"spamtest", ["spamtest"], condition (.spam {})⟩,
   ⟨"virustest", ["virustest"], condition (.virus "")⟩,
   ⟨"date", ["date"], condition (.date {})⟩,
   ⟨"currentdate", ["date"], condition (.currentDate {})⟩,
   ⟨"addheader", ["editheader"], action (.addHeader {})⟩,
   ⟨"deleteheader", ["editheader"], action (.deleteHeader {})⟩,
   ⟨"ereject", ["ereject"], action (.earlyReject (.quoted ""))⟩,
   ⟨"reject", ["reject"], action (.reject (.quoted ""))⟩,
   ⟨"notify", ["enotify"], action (.notify {})⟩,
   ⟨"valid_notify_method", ["enotify"], condition (.validMethod [])⟩,
   ⟨"notify_method_capability", ["enotify"], condition (.methodCapability {})⟩,
   ⟨"ihave", ["ihave"], condition (.available [])⟩,
   ⟨"error", ["ihave"], action (.error "")⟩,
   ⟨"mailboxexists", ["mailbox"], condition (.mailboxExists [])⟩,
   ⟨"metadata", ["mboxmetadata"], condition (.metadata {})⟩,
   ⟨"metadataexists", ["mboxmetadata"], condition (.metadataExists {})⟩,
   ⟨"include", ["include"], action (.inclusion {})⟩,
   ⟨"return", ["include"], action .leave⟩]

/-- All capabilities that the word needs are in the list. -/
def isActive (capabilities : List String) (d : Definition) : Bool :=
  d.requires.all capabilities.contains

/-- A fresh node of the word. -/
def fresh (d : Definition) : Node :=
  d.prototype.fresh d.word

end Definition

/-- The definitions that may be used. -/
structure Vocabulary where
  definitions : List Definition
  deriving DecidableEq, Repr

namespace Vocabulary

/-- Every capability that a definition needs, sorted and each once. -/
def allCapabilities : List String :=
  (Definition.all.flatMap Definition.requires).eraseDups.mergeSort (· ≤ ·)

/-- The definitions that the capabilities make active. -/
def ofCapabilities (capabilities : List String) : Vocabulary :=
  ⟨Definition.all.filter (Definition.isActive capabilities)⟩

/-- The definition of a word. -/
def find? (v : Vocabulary) (word : String) : Option Definition :=
  v.definitions.find? (·.word == word)

/-- The definitions that are not active. -/
def inactive (v : Vocabulary) : List Definition :=
  Definition.all.filter fun d => (v.find? d.word).isNone

end Vocabulary

end SieveScript
