import SieveScript.Proofs.Rereading
import SieveScript.Proofs.Nodes
import SieveScript.Proofs.RoundTrip

/-!
# Strings that are put into a tree

In a tree that was read, the texts of strings may be replaced by any others (`Item.Rewords` with
`Argument.SameForm`). The tree is then still read back as it is but for the line endings in these
texts, whatever quotes, backslashes, brackets or line breaks are in them: no string ends before its
end, so nothing of it becomes a part of the tree. Only a multi-line text has to be `contained`: what
stands behind an escaped dot line is read as script otherwise (`Script.not_rewords_of_dot_line`).
-/

namespace SieveScript

open Argument

/-! ### What is read back of a node -/

/-- What is read back of a text. -/
def Text.reread : Text → Text
  | quoted v => quoted (Quoted.reread v)
  | multiLine m => multiLine m.reread

/-- What is read back of a match type and a comparator. -/
def Matching.reread (m : Matching) : Matching :=
  { m with comparator := m.comparator.map Quoted.reread }

def Condition.Transform.reread : Condition.Transform → Condition.Transform
  | content types => content (StringList.reread types)
  | t => t

def Condition.Zone.reread : Condition.Zone → Condition.Zone
  | offset text => offset (Quoted.reread text)
  | z => z

/-- What is read back of a condition: every value in it is read back by itself. -/
def Condition.reread : Condition → Condition
  | address c =>
    address { c with headers := StringList.reread c.headers, keys := StringList.reread c.keys }
  | envelope c =>
    envelope { c with headers := StringList.reread c.headers, keys := StringList.reread c.keys }
  | headerExists names => headerExists (StringList.reread names)
  | never => never
  | header c => header { names := StringList.reread c.names, keys := StringList.reread c.keys }
  | size c => size c
  | always => always
  | body c =>
    body { transform := c.transform.map Transform.reread, keys := StringList.reread c.keys }
  | environment c =>
    environment { name := Quoted.reread c.name, keys := StringList.reread c.keys }
  | strings c =>
    strings { sources := StringList.reread c.sources, keys := StringList.reread c.keys }
  | hasFlag c =>
    hasFlag { sources := c.sources.map StringList.reread, flags := StringList.reread c.flags }
  | spam c => spam { c with value := Quoted.reread c.value }
  | virus value => virus (Quoted.reread value)
  | date c =>
    date { zone := c.zone.map Zone.reread, header := Quoted.reread c.header,
           part := Quoted.reread c.part, keys := StringList.reread c.keys }
  | currentDate c =>
    currentDate { zone := c.zone.map Zone.reread, part := Quoted.reread c.part,
                  keys := StringList.reread c.keys }
  | validMethod uris => validMethod (StringList.reread uris)
  | methodCapability c =>
    methodCapability { uri := Quoted.reread c.uri, capability := Quoted.reread c.capability,
                       keys := StringList.reread c.keys }
  | available capabilities => available (StringList.reread capabilities)
  | mailboxExists names => mailboxExists (StringList.reread names)
  | metadata c =>
    metadata { mailbox := Quoted.reread c.mailbox, name := Quoted.reread c.name,
               keys := StringList.reread c.keys }
  | metadataExists c =>
    metadataExists { mailbox := Quoted.reread c.mailbox, names := StringList.reread c.names }
  | placeholder args => placeholder (args.map Argument.reread)

def Action.Flags.reread (a : Action.Flags) : Action.Flags :=
  { target := a.target.map Quoted.reread, flags := StringList.reread a.flags }

/-- What is read back of an action: every value in it is read back by itself. -/
def Action.reread : Action → Action
  | require capabilities => require (StringList.reread capabilities)
  | stop => stop
  | keep flags => keep (flags.map StringList.reread)
  | discard => discard
  | fileInto a =>
    fileInto { a with flags := a.flags.map StringList.reread, mailbox := Quoted.reread a.mailbox }
  | redirect a => redirect { a with address := Quoted.reread a.address }
  | assign a => assign { a with name := Quoted.reread a.name, value := Quoted.reread a.value }
  | vacation a =>
    vacation { a with subject := a.subject.map Quoted.reread, sender := a.sender.map Quoted.reread,
                      addresses := a.addresses.map StringList.reread,
                      handle := a.handle.map Quoted.reread, reason := a.reason.reread }
  | setFlags a => setFlags a.reread
  | addFlags a => addFlags a.reread
  | removeFlags a => removeFlags a.reread
  | addHeader a => addHeader { a with field := Quoted.reread a.field, value := Quoted.reread a.value }
  | deleteHeader a =>
    deleteHeader { a with matching := a.matching.reread, field := Quoted.reread a.field,
                          patterns := a.patterns.map StringList.reread }
  | reject reason => reject reason.reread
  | earlyReject reason => earlyReject reason.reread
  | notify a =>
    notify { sender := a.sender.map Quoted.reread, importance := a.importance.map Quoted.reread,
             options := a.options.map StringList.reread, message := a.message.map Quoted.reread,
             method := Quoted.reread a.method }
  | error message => error (Quoted.reread message)
  | inclusion a => inclusion { a with script := Quoted.reread a.script }
  | leave => leave
  | placeholder args => placeholder (args.map Argument.reread)

namespace Argument

@[simp]
theorem reread_tag (t : String) : (tag t).reread = tag t := rfl

@[simp]
theorem reread_string (v : String) : (string v).reread = string (Quoted.reread v) := rfl

@[simp]
theorem reread_strings (vs : List String) : (strings vs).reread = strings (StringList.reread vs) := rfl

@[simp]
theorem reread_number (n : Number) : (number n).reread = number n := rfl

@[simp]
theorem reread_ofText (t : Text) : (ofText t).reread = ofText t.reread := by
  cases t <;> rfl

@[simp]
theorem map_reread_ofFlag (name : String) (b : Bool) :
    (ofFlag name b).map reread = ofFlag name b := by
  cases b <;> rfl

theorem map_reread_ofTagged {α : Type} {f : α → α} {value : α → Argument}
    (h : ∀ x, (value x).reread = value (f x)) (name : String) (o : Option α) :
    (ofTagged name value o).map reread = ofTagged name value (o.map f) := by
  cases o with
  | none => rfl
  | some x => simp [ofTagged, h]

theorem map_reread_toList {α : Type} {f : α → α} {value : α → Argument}
    (h : ∀ x, (value x).reread = value (f x)) (o : Option α) :
    (o.map value).toList.map reread = ((o.map f).map value).toList := by
  cases o with
  | none => rfl
  | some x => simp [h]

end Argument

namespace Matching

theorem comparatorArguments_reread (m : Matching) :
    m.reread.comparatorArguments = m.comparatorArguments.map Argument.reread :=
  (map_reread_ofTagged reread_string ":comparator" m.comparator).symm

/-- The words of relations are read back as they are. -/
theorem map_reread_matchTypeArguments (m : Matching) :
    m.matchTypeArguments.map Argument.reread = m.matchTypeArguments := by
  have hword : ∀ r : Relation, Quoted.reread r.word = r.word := fun r => by
    cases r <;> exact Quoted.reread_eq (IsLine.normalized (by decide))
  cases hm : m.matchType with
  | none => simp [matchTypeArguments, hm]
  | some t =>
    rw [matchTypeArguments, hm]
    cases t <;> simp [MatchType.arguments, hword]

end Matching

namespace Condition

@[simp]
theorem blank_reread (c : Condition) : c.reread.blank = c.blank := by
  cases c <;> rfl

theorem arguments_reread (c : Condition) : c.reread.arguments = c.arguments.map Argument.reread := by
  cases c with
  | address c | envelope c =>
    obtain ⟨_ | p, hs, ks⟩ := c <;> simp [reread, arguments, Address.arguments]
  | body c =>
    obtain ⟨_ | t, ks⟩ := c
    · simp [reread, arguments, Body.arguments]
    · cases t <;> simp [reread, arguments, Body.arguments, Transform.reread, Transform.arguments]
  | date c =>
    obtain ⟨_ | z, hd, p, ks⟩ := c
    · simp [reread, arguments, Date.arguments]
    · cases z <;> simp [reread, arguments, Date.arguments, Zone.reread, Zone.arguments]
  | currentDate c =>
    obtain ⟨_ | z, p, ks⟩ := c
    · simp [reread, arguments, CurrentDate.arguments]
    · cases z <;> simp [reread, arguments, CurrentDate.arguments, Zone.reread, Zone.arguments]
  | hasFlag c =>
    simp [reread, arguments, HasFlag.arguments, map_reread_toList reread_strings]
  | _ => simp [reread, arguments, Header.arguments, Size.arguments, Environment.arguments,
      Strings.arguments, SpamScore.arguments, MethodCapability.arguments, Metadata.arguments,
      MetadataExists.arguments]

end Condition

namespace Action

@[simp]
theorem blank_reread (a : Action) : a.reread.blank = a.blank := by
  cases a <;> rfl

theorem arguments_reread (a : Action) : a.reread.arguments = a.arguments.map Argument.reread := by
  cases a with
  | deleteHeader a =>
    have hmatch : a.matching.reread.matchTypeArguments = a.matching.matchTypeArguments := rfl
    simp [reread, arguments, DeleteHeader.arguments, Matching.comparatorArguments_reread, hmatch,
      Matching.map_reread_matchTypeArguments, map_reread_ofTagged reread_number,
      map_reread_toList reread_strings]
  | inclusion a =>
    obtain ⟨_ | l, o, p, s⟩ := a <;> simp [reread, arguments, Inclusion.arguments]
  | _ => simp [reread, arguments, FileInto.arguments, Redirect.arguments, Assign.arguments,
      Vacation.arguments, Flags.reread, Flags.arguments, AddHeader.arguments, Notify.arguments,
      map_reread_ofTagged reread_string, map_reread_ofTagged reread_strings,
      map_reread_ofTagged reread_number, map_reread_toList reread_string]

theorem matchType_reread (a : Action) :
    a.reread.matching?.map Matching.matchType = a.matching?.map Matching.matchType := by
  cases a <;> rfl

end Action

/-! ### Trees that differ in their arguments -/

section
variable (R : Argument → Argument → Prop)

/-- The matchings differ at most in the name of the comparator. -/
structure Matching.Rewords (m m' : Matching) : Prop where
  matchType : m'.matchType = m.matchType
  comparator : List.Forall₂ R m.comparatorArguments m'.comparatorArguments

/-- The conditions differ only in their arguments. -/
structure Condition.Rewords (c c' : Condition) : Prop where
  blank : c'.blank = c.blank
  arguments : List.Forall₂ R c.arguments c'.arguments

/-- The actions differ only in their arguments, and not in the match type. -/
structure Action.Rewords (a a' : Action) : Prop where
  blank : a'.blank = a.blank
  matchType : a'.matching?.map Matching.matchType = a.matching?.map Matching.matchType
  arguments : List.Forall₂ R a.arguments a'.arguments

/-- The tests have the same words, comments and tests inside them, and their arguments are related. -/
inductive Test.Rewords : Test → Test → Prop
  | leaf {h : Head} {m m' : Matching} {c c' : Condition} (matching : m.Rewords R m')
      (body : c.Rewords R c') : Rewords (leaf h m c) (leaf h m' c')
  | negation {h : Head} {m m' : Matching} {t t' : Option Test} (matching : m.Rewords R m')
      (inside : Option.Rel Rewords t t') : Rewords (negation h m t) (negation h m' t')
  | group {h : Head} {m m' : Matching} {c : Connective} {ts ts' : List Test}
      (matching : m.Rewords R m') (members : List.Forall₂ Rewords ts ts') :
      Rewords (group h m c ts) (group h m' c ts')

/-- The items have the same words, comments, tests and blocks, and their arguments are related. -/
inductive Item.Rewords : Item → Item → Prop
  | comment {c : Comment} : Rewords (comment c) (comment c)
  | action {h : Head} {a a' : Action} (body : a.Rewords R a') : Rewords (action h a) (action h a')
  | conditional {h : Head} {t t' : Option Test} {is is' : List Item}
      (tests : Option.Rel (Test.Rewords R) t t') (items : List.Forall₂ Rewords is is') :
      Rewords (conditional h t is) (conditional h t' is')

end

/-- The arguments of a node. Those of a matching are none of them. -/
def Node.arguments : Node → List Argument
  | item (.action _ a) => a.arguments
  | test (.leaf _ _ c) => c.arguments
  | _ => []

/-- The multi-line texts of the node are contained. -/
def Node.contained (n : Node) : Bool :=
  n.arguments.all Argument.contained

/-! ### Nodes -/

namespace Argument
variable {as bs : List Argument}

theorem tag?_reread (a : Argument) : a.reread.tag? = a.tag? := by
  cases a <;> rfl

theorem map_tag?_of_sameForm (h : List.Forall₂ SameForm as bs) : bs.map tag? = as.map tag? := by
  induction h with
  | nil => rfl
  | cons hab _ ih =>
    rw [List.map_cons, List.map_cons, ih]
    cases hab <;> rfl

theorem map_tag?_reread (h : List.Forall₂ SameForm as bs) :
    (bs.map reread).map tag? = as.map tag? := by
  rw [List.map_map, ← map_tag?_of_sameForm h]
  exact List.map_congr_left fun b _ => tag?_reread b

theorem forall_of_map_tag? (h : bs.map tag? = as.map tag?) {p : Option String → Bool}
    (hp : ∀ a ∈ as, p a.tag? = false) : ∀ b ∈ bs, p b.tag? = false := by
  intro b hb
  have hmem : b.tag? ∈ as.map tag? := h ▸ List.mem_map_of_mem hb
  obtain ⟨a, ha, hab⟩ := List.mem_map.1 hmem
  rw [← hab]
  exact hp a ha

/-- What may wait depends on the tags only. -/
theorem Quiet.of_map_tag? (h : bs.map tag? = as.map tag?) (hq : Quiet as) : Quiet bs := by
  have hlast : bs.dropLast.map tag? = as.dropLast.map tag? := by
    rw [List.map_dropLast, List.map_dropLast, h]
  exact ⟨forall_of_map_tag? (p := fun t => (t.bind MatchType.ofTag?).isSome) h hq.noMatchType,
    forall_of_map_tag? (p := fun t => t.any linkingTags.contains) hlast hq.linkingLast⟩

theorem forall₂_reread (as : List Argument) :
    List.Forall₂ (fun a b => b = a.reread) as (as.map reread) :=
  List.forall₂_map_right_iff.2 (List.forall₂_same.2 fun _ _ => rfl)

end Argument

namespace ReadsAs
variable {P : List Char → Prop} {xs : List Char} {ys : List Symbol}

theorem spaced (h : ReadsAs P xs ys) : ReadsAs P (spaced xs) ys := by
  cases xs with
  | nil => exact h
  | cons c xs => exact h.space

theorem of_any (h : ReadsAs (fun _ => True) xs ys) : ReadsAs P xs ys :=
  ⟨h.head, fun rest _ => h.symbols rest trivial⟩

end ReadsAs

theorem delimited_spaced (xs : List Char) : Delimited (spaced xs) := by
  cases xs with
  | nil => exact delimited_nil
  | cons c xs => exact delimited_cons (by decide)

namespace Matching
variable {m m' : Matching}

theorem Rewords.sameForm (h : m.Rewords SameForm m') :
    List.Forall₂ SameForm (m.matchTypeArguments ++ m.comparatorArguments)
      (m'.matchTypeArguments ++ m'.comparatorArguments) := by
  rw [matchTypeArguments, matchTypeArguments, h.matchType]
  exact List.rel_append (List.forall₂_same.2 fun a _ => .refl a) h.comparator

theorem contained_arguments (m : Matching) :
    ∀ a ∈ m.matchTypeArguments ++ m.comparatorArguments, a.contained = true := by
  refine List.forall_mem_append.2 ⟨?_, ?_⟩
  · cases hm : m.matchType with
    | none => simp [matchTypeArguments, hm]
    | some t =>
      rw [matchTypeArguments, hm]
      cases t <;> simp [MatchType.arguments, Argument.contained]
  · cases hm : m.comparator <;> simp [comparatorArguments, hm, ofTagged, Argument.contained]

theorem rewords_reread (m : Matching) : m.Rewords (fun a b => b = a.reread) m.reread :=
  ⟨rfl, comparatorArguments_reread m ▸ forall₂_reread _⟩

theorem lexical_reread (m : Matching) : m.reread.Lexical := by
  intro c hc
  obtain ⟨d, -, rfl⟩ := Option.map_eq_some_iff.1 hc
  exact Quoted.normalized_reread d

theorem readsAs_encode (h : m.Rewords SameForm m') (hm : m.Lexical) :
    ReadsAs Delimited m'.encode m'.reread.symbols := by
  have hread := readsAs_encodeAll h.sameForm hm.allLexical (contained_arguments m')
  rw [List.map_append, map_reread_matchTypeArguments, ← comparatorArguments_reread] at hread
  exact hread.spaced

end Matching

namespace Condition

theorem rewords_reread (c : Condition) : c.Rewords (fun a b => b = a.reread) c.reread :=
  ⟨blank_reread c, arguments_reread c ▸ forall₂_reread _⟩

end Condition

namespace Action
variable {a a' : Action}

theorem rewords_reread (a : Action) : a.Rewords (fun a b => b = a.reread) a.reread :=
  ⟨blank_reread a, matchType_reread a, arguments_reread a ▸ forall₂_reread _⟩

/-- An assignment holds no tags but its modifiers. -/
theorem Assign.filterMap_tag? (b : Assign) : b.arguments.filterMap tag? = b.modifiers := by
  have hmap : (b.modifiers.map Argument.tag).filterMap tag? = b.modifiers := by
    rw [List.filterMap_map]
    exact List.filterMap_some
  rw [Assign.arguments, List.filterMap_append, hmap]
  exact List.append_nil _

theorem fit_reread (h : a.Rewords SameForm a') (ha : a.Fit)
    (hc : ∀ b ∈ a'.arguments, b.contained = true) : a'.reread.Fit := by
  refine ⟨?_, ?_⟩
  · rw [arguments_reread]
    exact allLexical_reread h.arguments ha.lexical hc
  · -- the modifiers are the tags of an assignment, and no tag is replaced
    intro b' hb'
    obtain ⟨b, rfl⟩ : ∃ b, a = assign b := by
      have hblank : a.blank = (assign b').blank := by rw [← h.blank, ← blank_reread, hb']
      cases a <;> simp_all [blank]
    have htags := map_tag?_reread h.arguments
    rw [← arguments_reread, hb'] at htags
    have hmodifiers : b'.modifiers = b.modifiers := by
      have hsome := congrArg (List.filterMap id) htags
      rw [List.filterMap_map, List.filterMap_map, Function.id_comp] at hsome
      rw [← b.filterMap_tag?, ← b'.filterMap_tag?]
      exact hsome
    rw [hmodifiers]
    exact ha.modifiers b rfl

end Action

/-! ### Trees -/

section
variable {α β γ : Type} {R : α → β → Prop} {Q : β → γ → Prop} {P : γ → Prop}

theorem exists_forall₂ {as : List α} {bs : List β} (h : List.Forall₂ R as bs)
    (hq : ∀ a ∈ as, ∀ b ∈ bs, R a b → ∃ c, Q b c) : ∃ cs, List.Forall₂ Q bs cs := by
  induction h with
  | nil => exact ⟨[], .nil⟩
  | @cons a b as bs hab _ ih =>
    obtain ⟨c, hc⟩ := hq a (by simp) b (by simp) hab
    obtain ⟨cs, hcs⟩ := ih fun a ha b hb => hq a (by simp [ha]) b (by simp [hb])
    exact ⟨c :: cs, .cons hc hcs⟩

theorem exists_optionRel {o : Option α} {o' : Option β} (h : Option.Rel R o o')
    (hq : ∀ a ∈ o, ∀ b ∈ o', R a b → ∃ c, Q b c) : ∃ o'', Option.Rel Q o' o'' := by
  cases h with
  | none => exact ⟨none, .none⟩
  | some hab =>
    obtain ⟨c, hc⟩ := hq _ rfl _ rfl hab
    exact ⟨some c, .some hc⟩

theorem forall_right_of_forall₂ {bs : List β} {cs : List γ} (h : List.Forall₂ Q bs cs)
    (hp : ∀ b c, Q b c → P c) : ∀ c ∈ cs, P c := by
  induction h with
  | nil => simp
  | cons hbc _ ih => exact List.forall_mem_cons.2 ⟨hp _ _ hbc, ih⟩

end

theorem ReadsAs.punctuation {c : Char} {y : Symbol}
    (h : (c, y) ∈ [('{', Symbol.blockStart), ('}', .blockEnd), ('(', .leftParen),
      (')', .rightParen), (',', .comma), (';', .semicolon)]) : ReadsAs (fun _ => True) [c] [y] := by
  have hc : isLineBreak c = false := by
    simp only [List.mem_cons, Prod.mk.injEq, List.not_mem_nil, or_false] at h
    rcases h with ⟨rfl, -⟩ | ⟨rfl, -⟩ | ⟨rfl, -⟩ | ⟨rfl, -⟩ | ⟨rfl, -⟩ | ⟨rfl, -⟩ <;> decide
  have hline : IsLine [c] := by simpa [IsLine] using hc
  exact (NormalizesTo.of_normalized hline.normalized).readsAs fun rest _ =>
    Token.symbols_punctuation rest h

theorem Head.readsAs_encode {h : Head} (hh : h.Lexical) : ReadsAs Delimited h.encode h.symbols :=
  (NormalizesTo.of_normalized hh.normalized_encode).readsAs fun _ => symbols_encode hh

/-- The second test is what is read back of the first. -/
structure Test.Rereads (v : Vocabulary) (t u : Test) : Prop where
  rewords : t.Rewords (fun a b => b = a.reread) u
  sound : u.Sound v
  text : ReadsAs Delimited t.encode u.symbols

/-- The second item is what is read back of the first. -/
structure Item.Rereads (v : Vocabulary) (i j : Item) : Prop where
  rewords : i.Rewords (fun a b => b = a.reread) j
  sound : j.Sound v
  text : ∀ depth, ReadsAs (fun _ => True) (i.encode depth ++ ['\r', '\n']) j.symbols

variable {v : Vocabulary}

namespace Test

/-- A test is read back if what stands behind its word and its matching is. -/
theorem readsAs_head {h : Head} {m m' : Matching} (hh : h.Lexical) (hm : m.Lexical)
    (hr : m.Rewords SameForm m') {xs : List Char} {ys : List Symbol} (hbody : ReadsAs Delimited xs ys) :
    ReadsAs Delimited (h.encode ++ m'.encode ++ spaced xs) (h.symbols ++ m'.reread.symbols ++ ys) := by
  have hfront := (Head.readsAs_encode hh).append (Matching.readsAs_encode hr hm) (delimited_spaced _)
  exact hfront.append hbody.spaced (delimited_spaced xs)

theorem delimited_encodeMore_nil (ts : List Test) : Delimited (encodeMore ts) := by
  simpa using delimited_encodeMore ts delimited_nil

theorem readsAs_encodeMore {ts us : List Test} (h : List.Forall₂ (Rereads v) ts us) :
    ReadsAs Delimited (encodeMore ts) (symbolsMore us) := by
  induction h with
  | nil => exact .nil
  | @cons t u ts us htu _ ih =>
    have hcomma : ReadsAs (fun _ => True) [','] [.comma] := .punctuation (by simp)
    have hrest := htu.text.append ih (delimited_encodeMore_nil ts)
    exact hcomma.followed hrest.space

theorem readsAs_encodeMembers {ts us : List Test} (h : List.Forall₂ (Rereads v) ts us) :
    ReadsAs Delimited (encodeMembers ts) (symbolsMembers us) := by
  cases h with
  | nil => exact .nil
  | cons htu h => exact htu.text.append (readsAs_encodeMore h) (delimited_encodeMore_nil _)

theorem readsAs_encodeOption {o o' : Option Test} (h : Option.Rel (Rereads v) o o') :
    ReadsAs Delimited (encodeOption o) (symbolsOption o') := by
  cases h with
  | none => exact .nil
  | some htu => exact htu.text

theorem rewords_of_rereads {o o' : Option Test} (h : Option.Rel (Rereads v) o o') :
    Option.Rel (Rewords fun a b => b = a.reread) o o' := by
  cases h with
  | none => exact .none
  | some htu => exact .some htu.rewords

theorem sound_of_rereads {o o' : Option Test} (h : Option.Rel (Rereads v) o o') :
    ∀ u ∈ o', u.Sound v := by
  cases h with
  | none => simp
  | some htu =>
    rintro _ ⟨⟩
    exact htu.sound

/-- A test in which the texts of strings are replaced is read back. -/
theorem exists_rereads {s t : Test} (hs : s.Sound v) (h : s.Rewords SameForm t)
    (hc : t.Every (·.contained)) : ∃ u, t.Rereads v u := by
  -- induction on the test that was read: what is not replaced is sound because it stands there
  induction hs generalizing t with
  | @leaf hd m c head matching word lexical quiet =>
    cases h with
    | @leaf _ _ m' _ c' hm hbody =>
      have hcontained : ∀ a ∈ c'.arguments, a.contained = true := List.all_eq_true.1 hc.here
      have hlexical : AllLexical c'.reread.arguments := by
        rw [Condition.arguments_reread]
        exact allLexical_reread hbody.arguments lexical hcontained
      have hquiet : Quiet c'.reread.arguments := by
        rw [Condition.arguments_reread]
        exact quiet.of_map_tag? (map_tag?_reread hbody.arguments)
      have hword : v.Denotes hd.word (.condition c'.reread.blank) := by
        rwa [Condition.blank_reread, hbody.blank]
      have htext := readsAs_encodeAll hbody.arguments lexical hcontained
      rw [← Condition.arguments_reread] at htext
      exact ⟨leaf hd m'.reread c'.reread, .leaf m'.rewords_reread c'.rewords_reread,
        .leaf head m'.lexical_reread hword hlexical hquiet, readsAs_head head matching hm htext⟩
  | @negation hd m inner head matching word _ ih =>
    cases h with
    | @negation _ _ m' _ inner' hm hinside =>
      cases hc with
      | negation _ hinner =>
        obtain ⟨o, ho⟩ := exists_optionRel hinside fun s hs t ht hst => ih s hs hst (hinner t ht)
        exact ⟨negation hd m'.reread o, .negation m'.rewords_reread (rewords_of_rereads ho),
          .negation head m'.lexical_reread word (sound_of_rereads ho),
          readsAs_head head matching hm (readsAs_encodeOption ho)⟩
  | @group hd m c ts head matching word _ ih =>
    cases h with
    | @group _ _ m' _ _ ts' hm hmembers =>
      cases hc with
      | group _ hts =>
        obtain ⟨us, hus⟩ := exists_forall₂ hmembers fun s hs t ht hst => ih s hs hst (hts t ht)
        have hsound : ∀ u ∈ us, u.Sound v := forall_right_of_forall₂ hus fun _ _ htu => htu.sound
        have hopen : ReadsAs (fun _ => True) ['('] [.leftParen] := .punctuation (by simp)
        have hclose : ReadsAs (fun _ => True) [')'] [.rightParen] := .punctuation (by simp)
        have hbody := hopen.followed
          ((readsAs_encodeMembers hus).append hclose.of_any (delimited_cons (by decide)))
        exact ⟨group hd m'.reread c us, .group m'.rewords_reread (hus.imp fun _ _ htu => htu.rewords),
          .group head m'.lexical_reread word hsound, readsAs_head head matching hm hbody⟩

end Test

namespace Item

theorem readsAs_encodeAll {is js : List Item} (h : List.Forall₂ (Rereads v) is js) (depth : Nat) :
    ReadsAs (fun _ => True) (encodeAll depth is) (symbolsAll js) := by
  induction h with
  | nil => exact .nil
  | cons hij _ ih => exact (hij.text depth).followed ih

theorem readsAs_indentation (depth : Nat) : ReadsAs (fun _ => True) (indentation depth) [] :=
  (NormalizesTo.of_normalized (normalized_indentation depth)).readsAs fun rest _ =>
    Token.symbols_indentation depth rest

theorem readsAs_crlf : ReadsAs (fun _ => True) ['\r', '\n'] [] := by
  have hcrlf : Normalized ['\r', '\n'] := by simp [normalized_iff, MayFollow]
  exact (NormalizesTo.of_normalized hcrlf).readsAs fun rest _ => Token.symbols_crlf rest

theorem readsAs_encodeBlock {is js : List Item} (h : List.Forall₂ (Rereads v) is js) (depth : Nat) :
    ReadsAs (fun _ => True) (encodeBlock depth is) (.blockStart :: symbolsAll js ++ [.blockEnd]) := by
  have hopen : ReadsAs (fun _ => True) ['{'] [.blockStart] := .punctuation (by simp)
  have hclose : ReadsAs (fun _ => True) ['}'] [.blockEnd] := .punctuation (by simp)
  cases h with
  | nil => exact hopen.space.followed hclose
  | @cons i j is js hij h =>
    have hitems := readsAs_encodeAll (.cons hij h) (depth + 1)
    have hend := (readsAs_indentation depth).followed hclose
    have hlines := (hopen.space.followed readsAs_crlf).followed (hitems.followed hend)
    simpa [encodeBlock, encodeAll] using hlines

/-- A command is read back if what stands behind its word is, up to the end of its last line. -/
theorem readsAs_command {hd : Head} (hh : hd.Lexical) {xs xs' : List Char} {ys ys' : List Symbol}
    (hbody : ReadsAs Delimited xs ys) (hend : ReadsAs (fun _ => True) xs' ys')
    (hd' : xs' ≠ [] ∧ Delimited xs') (depth : Nat) :
    ReadsAs (fun _ => True) (indentation depth ++ hd.encode ++ spaced xs ++ xs' ++ ['\r', '\n'])
      (hd.symbols ++ ys ++ ys') := by
  have hfront := (Head.readsAs_encode hh).append hbody.spaced (delimited_spaced xs)
  have hline := hfront.append_of hend fun rest _ => hd'.2.normalize_append fun hn => absurd hn hd'.1
  simpa using (readsAs_indentation depth).followed (hline.followed readsAs_crlf)

/-- An item in which the texts of strings are replaced is read back. -/
theorem exists_rereads {s t : Item} (hs : s.Sound v) (h : s.Rewords SameForm t)
    (hc : t.Every (·.contained)) : ∃ u, t.Rereads v u := by
  induction hs generalizing t with
  | @comment c lexical =>
    cases h with
    | comment =>
      have hsound : (comment c).Sound v := .comment lexical
      refine ⟨comment c, .comment, hsound, fun depth => ?_⟩
      have hcrlf : Normalized ['\r', '\n'] := by simp [normalized_iff, MayFollow]
      refine (NormalizesTo.of_normalized ((normalized_encode hsound depth).append hcrlf)).readsAs
        fun rest _ => ?_
      simpa using symbols_encode hsound depth rest
  | @action hd a head word fit =>
    cases h with
    | @action _ _ a' hbody =>
      have hcontained : ∀ b ∈ a'.arguments, b.contained = true := by
        cases hc with
        | action here => exact List.all_eq_true.1 here
      have hword : v.Denotes hd.word (.action a'.reread.blank) := by
        rwa [Action.blank_reread, hbody.blank]
      have htext := Argument.readsAs_encodeAll hbody.arguments fit.lexical hcontained
      rw [← Action.arguments_reread] at htext
      have hend : ReadsAs (fun _ => True) [';'] [.semicolon] := .punctuation (by simp)
      refine ⟨action hd a'.reread, .action a'.rewords_reread,
        .action head hword (Action.fit_reread hbody fit hcontained), fun depth => ?_⟩
      exact readsAs_command head htext hend ⟨by simp, delimited_cons (by decide)⟩ depth
  | @conditional hd test block head word tests _ ih =>
    cases h with
    | @conditional _ _ test' _ block' htest hblock =>
      cases hc with
      | conditional _ htests hitems =>
        obtain ⟨o, ho⟩ := exists_optionRel htest fun s hs t ht hst =>
          Test.exists_rereads (tests s hs) hst (htests t ht)
        obtain ⟨js, hjs⟩ := exists_forall₂ hblock fun s hs t ht hst => ih s hs hst (hitems t ht)
        have hsound : ∀ j ∈ js, j.Sound v := forall_right_of_forall₂ hjs fun _ _ hij => hij.sound
        refine ⟨conditional hd o js,
          .conditional (Test.rewords_of_rereads ho) (hjs.imp fun _ _ hij => hij.rewords),
          .conditional head word (Test.sound_of_rereads ho) hsound, fun depth => ?_⟩
        have hopen : encodeBlock depth block' ≠ [] ∧ Delimited (encodeBlock depth block') := by
          cases block' <;> exact ⟨by simp [encodeBlock], delimited_cons (by decide)⟩
        have hblock := readsAs_encodeBlock hjs depth
        exact readsAs_command head (Test.readsAs_encodeOption ho) hblock hopen depth

end Item

namespace Script

/-- Strings do not break out of the tree: whatever their texts are replaced by, the script is read
back with the same words, comments and nesting, and with these texts up to their line endings. -/
theorem parse_render_of_rewords {caps : List String} {name text : String} {s t : Script}
    (h : parse caps name text = .ok s) (ht : List.Forall₂ (Item.Rewords SameForm) s.items t.items)
    (hc : ∀ n ∈ t.nodes, n.2.contained = true) :
    ∃ q, parse caps name t.render = .ok q ∧
      List.Forall₂ (Item.Rewords fun a b => b = a.reread) t.items q.items := by
  have hsound := sound_of_read (Vocabulary.blank_ofCapabilities caps) h
  have hevery : ∀ j ∈ t.items, j.Every (·.contained) := every_iff_nodes.2 hc
  obtain ⟨is, his⟩ := exists_forall₂ ht fun i hi j hj hij =>
    Item.exists_rereads (hsound i hi) hij (hevery j hj)
  have hsymbols : Token.symbols (normalize t.render.toList) = Item.symbolsAll is := by
    rw [render, String.toList_ofList]
    simpa using (Item.readsAs_encodeAll his 0).symbols [] trivial
  have hback : ∀ i ∈ is, i.Sound (.ofCapabilities caps) :=
    forall_right_of_forall₂ his fun _ _ hij => hij.sound
  obtain ⟨r, -, hparse⟩ := parse_of_symbols hback hsymbols
  exact ⟨_, hparse name, his.imp fun _ _ hij => hij.rewords⟩

theorem parse_render_of_rewords_reject :
    let tree (keys : List String) (reason : String) : Script :=
      { items := [.conditional { word := "if" }
          (some (.leaf { word := "header" } {} (.header { names := ["a"], keys })))
          [.action { word := "reject" } (.reject (.multiLine { value := reason }))]]
        requires := ["reject"] }
    let t := tree ["\"]\x7b\r"] ".\n..\n.c"
    parse ["reject"] "" "if header \"a\" \"b\" \x7breject text:\r\n.\r\n;\x7d" = .ok (tree ["b"] "") ∧
      List.Forall₂ (Item.Rewords SameForm) (tree ["b"] "").items t.items ∧
      (∀ n ∈ t.nodes, n.2.contained = true) ∧
      ∃ q, parse ["reject"] "" t.render = .ok q ∧
        List.Forall₂ (Item.Rewords fun a b => b = a.reread) t.items q.items := by
  intro tree t
  have h : parse ["reject"] "" "if header \"a\" \"b\" \x7breject text:\r\n.\r\n;\x7d" =
      .ok (tree ["b"] "") := by decide +kernel
  have htest : Test.Rewords SameForm
      (.leaf { word := "header" } {} (.header { names := ["a"], keys := ["b"] }))
      (.leaf { word := "header" } {} (.header { names := ["a"], keys := ["\"]\x7b\r"] })) :=
    .leaf ⟨rfl, .nil⟩ ⟨rfl, .cons (.strings rfl) (.cons (.strings rfl) .nil)⟩
  have haction : Item.Rewords SameForm
      (.action { word := "reject" } (.reject (.multiLine { value := "" })))
      (.action { word := "reject" } (.reject (.multiLine { value := ".\n..\n.c" }))) :=
    .action ⟨rfl, rfl, .cons (.multiLine rfl) .nil⟩
  have ht : List.Forall₂ (Item.Rewords SameForm) (tree ["b"] "").items t.items :=
    .cons (.conditional (.some htest) (.cons haction .nil)) .nil
  have hc : ∀ n ∈ t.nodes, n.2.contained = true := by decide +kernel
  exact ⟨h, ht, hc, parse_render_of_rewords h ht hc⟩

/-- A dot on a line of its own ends a multi-line text if the line feed before it has no carriage
return: what stands behind it becomes a command. -/
theorem not_rewords_of_dot_line :
    let tree (reason : String) : Script :=
      { items := [.action { word := "reject" } (.reject (.multiLine { value := reason }))]
        requires := ["reject"] }
    let t := tree "\n.\n;x text:"
    parse ["reject"] "" "reject text:\r\n.\r\n;" = .ok (tree "") ∧
      List.Forall₂ (Item.Rewords SameForm) (tree "").items t.items ∧
      ¬ ∃ q, parse ["reject"] "" t.render = .ok q ∧
        List.Forall₂ (Item.Rewords fun _ _ => True) t.items q.items := by
  intro tree t
  have h : parse ["reject"] "" "reject text:\r\n.\r\n;" = .ok (tree "") := by decide +kernel
  have ht : parse ["reject"] "" t.render = .ok { tree "\r\n" with
      items := (tree "\r\n").items ++
        [.action { word := "x" } (.placeholder [.multiLine { value := "" }])] } := by decide +kernel
  refine ⟨h, .cons (.action ⟨rfl, rfl, .cons (.multiLine rfl) .nil⟩) .nil, ?_⟩
  rintro ⟨q, hq, hitems⟩
  cases ht.symm.trans hq
  exact absurd hitems.length_eq (by decide)

end Script

end SieveScript
