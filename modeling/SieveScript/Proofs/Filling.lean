import SieveScript.Action
import SieveScript.Condition
import SieveScript.Proofs.Taking

/-!
# A node takes back what it holds

For each kind of node, `take_arguments` says that a node filled from the arguments of another one
becomes that one and leaves nothing, and `keeps_take` that a node filled from lexical arguments holds
lexical arguments. The optional parts that are told apart by their tags (`Transform`, `Zone`) are
taken back in front of anything that is free of these tags. `Action.take_ownArguments`,
`Action.keeps_take` and their like for conditions put the kinds together.
-/

namespace SieveScript

open Argument Taking

namespace Action

namespace FileInto

theorem take_arguments (a b : FileInto) : b.take.run a.arguments = (a, []) := by
  simp [take, arguments]

theorem keeps_take {a : FileInto} (h : AllLexical a.arguments) :
    Keeps a.take fun a => AllLexical a.arguments := by
  refine (keeps_taggedStrings _).bind fun flags hflags => ?_
  refine (keeps_flag _).bind fun copy _ => ?_
  refine (keeps_flag _).bind fun create _ => ?_
  refine keeps_popString.bind fun mailbox hmailbox => keeps_pure ?_
  simp_all +decide [arguments, allLexical_ofFlag, allLexical_ofTagged, lexical_tag]

end FileInto

namespace Redirect

theorem take_arguments (a b : Redirect) : b.take.run a.arguments = (a, []) := by
  simp [take, arguments]

theorem keeps_take {a : Redirect} (h : AllLexical a.arguments) :
    Keeps a.take fun a => AllLexical a.arguments := by
  refine (keeps_flag _).bind fun copy _ => ?_
  refine keeps_popString.bind fun address haddress => keeps_pure ?_
  simp_all +decide [arguments, allLexical_ofFlag, lexical_tag]

end Redirect

namespace Vacation

theorem take_arguments (a b : Vacation) : b.take.run a.arguments = (a, []) := by
  simp [take, arguments]

theorem keeps_take {a : Vacation} (h : AllLexical a.arguments) :
    Keeps a.take fun a => AllLexical a.arguments := by
  refine (keeps_taggedNumber _).bind fun days hdays => ?_
  refine (keeps_taggedNumber _).bind fun seconds hseconds => ?_
  refine (keeps_taggedString _).bind fun subject hsubject => ?_
  refine (keeps_taggedString _).bind fun sender hsender => ?_
  refine (keeps_taggedStrings _).bind fun addresses haddresses => ?_
  refine (keeps_taggedString _).bind fun handle hhandle => ?_
  refine (keeps_flag _).bind fun mime _ => ?_
  refine keeps_popText.bind fun reason hreason => keeps_pure ?_
  simp_all +decide [arguments, allLexical_ofFlag, allLexical_ofTagged, lexical_tag]

end Vacation

namespace Notify

theorem take_arguments (a b : Notify) : b.take.run a.arguments = (a, []) := by
  simp [take, arguments]

theorem keeps_take {a : Notify} (h : AllLexical a.arguments) :
    Keeps a.take fun a => AllLexical a.arguments := by
  refine (keeps_taggedString _).bind fun sender hsender => ?_
  refine (keeps_taggedString _).bind fun importance himportance => ?_
  refine (keeps_taggedStrings _).bind fun options hoptions => ?_
  refine (keeps_taggedString _).bind fun message hmessage => ?_
  refine keeps_popString.bind fun method hmethod => keeps_pure ?_
  simp_all +decide [arguments, allLexical_ofTagged, lexical_tag]

end Notify

namespace Assign

theorem take_arguments (a : Assign) (h : ∀ t ∈ a.modifiers, t ∈ modifierTags) :
    ({} : Assign).take.run a.arguments = (a, []) := by
  simp [take, arguments, allOf_map_tag h]

theorem lexical_modifier {t : String} (h : t ∈ modifierTags) : (tag t).Lexical :=
  have hall : modifierTags.all
      (fun t => t.toList.head? = some ':' ∧ IsLowerWord t.toList.tail) = true := by decide
  lexical_tag (of_decide_eq_true (List.all_eq_true.1 hall t h))

theorem keeps_take {a : Assign} (h : AllLexical a.arguments) (hm : ∀ t ∈ a.modifiers, t ∈ modifierTags) :
    Keeps a.take fun a => AllLexical a.arguments ∧ ∀ t ∈ a.modifiers, t ∈ modifierTags := by
  refine (keeps_allOf _).bind fun modifiers hmodifiers => ?_
  refine keeps_popString.bind fun value hvalue => ?_
  refine keeps_popString.bind fun name hname => keeps_pure ?_
  have htags : ∀ t ∈ a.modifiers ++ modifiers, t ∈ modifierTags :=
    List.forall_mem_append.2 ⟨hm, hmodifiers⟩
  refine ⟨allLexical_append.2 ⟨?_, ?_⟩, htags⟩
  · intro b hb
    obtain ⟨t, ht, rfl⟩ := List.mem_map.1 hb
    exact lexical_modifier (htags t ht)
  · simp_all [arguments]

end Assign

namespace Flags

theorem take_arguments (a b : Flags) : b.take.run a.arguments = (a, []) := by
  obtain ⟨_ | t, fs⟩ := a <;> simp [take, arguments]

theorem keeps_take {a : Flags} (h : AllLexical a.arguments) :
    Keeps a.take fun a => AllLexical a.arguments := by
  refine keeps_popStrings.bind fun flags hflags => ?_
  refine keeps_popString.bind fun target htarget => keeps_pure ?_
  simp_all +decide [arguments, allLexical_toList_map]

end Flags

namespace AddHeader

theorem take_arguments (a b : AddHeader) : b.take.run a.arguments = (a, []) := by
  simp [take, arguments]

theorem keeps_take {a : AddHeader} (h : AllLexical a.arguments) :
    Keeps a.take fun a => AllLexical a.arguments := by
  refine (keeps_flag _).bind fun last _ => ?_
  refine keeps_popString.bind fun value hvalue => ?_
  refine keeps_popString.bind fun field hfield => keeps_pure ?_
  simp_all +decide [arguments, allLexical_ofFlag, lexical_tag]

end AddHeader

namespace DeleteHeader

/-- What the action holds apart from its matching. -/
def ownArguments (a : DeleteHeader) : List Argument :=
  ofTagged ":index" .number a.index ++ ofFlag ":last" a.last ++ [.string a.field] ++
    (a.patterns.map .strings).toList

theorem take_ownArguments (a : DeleteHeader) :
    ({ matching := a.matching } : DeleteHeader).take.run a.ownArguments = (a, []) := by
  obtain ⟨i, l, m, f, _ | ps⟩ := a <;> simp [take, ownArguments]

theorem keeps_take {a : DeleteHeader} (h : AllLexical a.arguments) :
    Keeps a.take fun a => AllLexical a.arguments := by
  refine (keeps_taggedNumber _).bind fun index hindex => ?_
  refine (keeps_flag _).bind fun last _ => ?_
  refine keeps_popStrings.bind fun trailing htrailing => ?_
  refine keeps_popString.bind fun name hname => ?_
  cases name with
  | some field =>
    apply keeps_pure
    simp_all +decide [arguments, allLexical_ofFlag, allLexical_ofTagged, lexical_tag, allLexical_toList_map]
  | none =>
    have hfirst : ∀ v ∈ trailing.bind List.head?, Normalized v.toList := by
      intro v hv
      obtain ⟨vs, hvs, hv⟩ := Option.bind_eq_some_iff.1 hv
      exact htrailing vs hvs v (List.mem_of_mem_head? hv)
    apply keeps_pure
    simp_all +decide [arguments, allLexical_ofFlag, allLexical_ofTagged, lexical_tag]

end DeleteHeader

theorem Location.lexical_tag (l : Location) : (Argument.tag l.tag).Lexical :=
  Argument.lexical_tag (by cases l <;> decide)

namespace Inclusion

theorem take_arguments (a b : Inclusion) : b.take.run a.arguments = (a, []) := by
  obtain ⟨_ | l, o, p, t⟩ := a
  · simp [take, arguments, oneOf_of_free]
  · cases l <;> simp [take, arguments, oneOf_tag, Location.tag, Location.ofTag?]

theorem keeps_take {a : Inclusion} (h : AllLexical a.arguments) :
    Keeps a.take fun a => AllLexical a.arguments := by
  refine (keeps_oneOf _).bind fun location _ => ?_
  refine (keeps_flag _).bind fun once _ => ?_
  refine (keeps_flag _).bind fun optional _ => ?_
  refine keeps_popString.bind fun script hscript => keeps_pure ?_
  have hlocation := allLexical_toList_map (o := location.bind Location.ofTag?) fun l _ => l.lexical_tag
  simp_all +decide [arguments, allLexical_ofFlag, lexical_tag]

end Inclusion

end Action

namespace Condition

theorem AddressPart.lexical_tag (p : AddressPart) : (Argument.tag p.tag).Lexical :=
  Argument.lexical_tag (by cases p <;> decide)

namespace Address

theorem take_arguments (c b : Address) : b.take.run c.arguments = (c, []) := by
  obtain ⟨_ | p, hs, ks⟩ := c
  · simp [take, arguments, oneOf_of_free]
  · cases p <;> simp [take, arguments, oneOf_tag, AddressPart.tag, AddressPart.ofTag?]

theorem keeps_take {c : Address} (h : AllLexical c.arguments) :
    Keeps c.take fun c => AllLexical c.arguments := by
  refine (keeps_oneOf _).bind fun part _ => ?_
  refine keeps_popStrings.bind fun keys hkeys => ?_
  refine keeps_popStrings.bind fun headers hheaders => keeps_pure ?_
  have hpart := allLexical_toList_map (o := part.bind AddressPart.ofTag?) fun p _ => p.lexical_tag
  simp_all [arguments]

end Address

namespace Header

theorem take_arguments (c b : Header) : b.take.run c.arguments = (c, []) := by
  simp [take, arguments]

theorem keeps_take {c : Header} (h : AllLexical c.arguments) :
    Keeps c.take fun c => AllLexical c.arguments := by
  refine keeps_popStrings.bind fun keys hkeys => ?_
  refine keeps_popStrings.bind fun names hnames => keeps_pure ?_
  simp_all [arguments]

end Header

theorem Side.lexical_tag (s : Side) : (Argument.tag s.tag).Lexical :=
  Argument.lexical_tag (by cases s <;> decide)

namespace Size

theorem take_arguments (c b : Size) : b.take.run c.arguments = (c, []) := by
  obtain ⟨s, n⟩ := c
  cases s <;> simp [take, arguments, oneOf_tag, Side.tag, Side.ofTag?]

theorem keeps_take {c : Size} (h : AllLexical c.arguments) :
    Keeps c.take fun c => AllLexical c.arguments := by
  refine (keeps_oneOf _).bind fun side _ => ?_
  refine keeps_popNumber.bind fun limit hlimit => keeps_pure ?_
  simp_all [arguments, Side.lexical_tag]

end Size

namespace Transform

@[simp]
theorem take_arguments (t : Option Transform) {ys : List Argument} (hc : Free ":content" ys)
    (hr : Free ":raw" ys) (ht : Free ":text" ys) :
    take.run (t.elim [] arguments ++ ys) = (t, ys) := by
  obtain _ | (_ | ts | _) := t
  · simp [take, hc, hr, ht]
  · simp [take, arguments, hc, hr]
  · simp [take, arguments, tagged_tag strings?_strings]
  · simp [take, arguments, hc, hr, ht]

theorem keeps_take : Keeps take fun t => AllLexical (t.elim [] arguments) := by
  refine (keeps_taggedStrings _).bind fun types htypes => ?_
  cases types with
  | some types =>
    apply keeps_pure
    simp_all +decide [arguments, lexical_tag]
  | none =>
    refine (keeps_flag _).bind fun raw _ => ?_
    cases raw with
    | true => exact keeps_pure (by simp +decide [arguments, lexical_tag])
    | false =>
      refine (keeps_flag _).bind fun text _ => ?_
      cases text <;> exact keeps_pure (by simp +decide [arguments, lexical_tag])

end Transform

namespace Body

theorem take_arguments (c b : Body) : b.take.run c.arguments = (c, []) := by
  simp [take, arguments]

theorem keeps_take {c : Body} (h : AllLexical c.arguments) :
    Keeps c.take fun c => AllLexical c.arguments := by
  refine Transform.keeps_take.bind fun transform htransform => ?_
  refine keeps_popStrings.bind fun keys hkeys => keeps_pure ?_
  simp_all [arguments]

end Body

namespace HasFlag

theorem take_arguments (c b : HasFlag) : b.take.run c.arguments = (c, []) := by
  obtain ⟨_ | t, fs⟩ := c <;> simp [take, arguments]

theorem keeps_take {c : HasFlag} (h : AllLexical c.arguments) :
    Keeps c.take fun c => AllLexical c.arguments := by
  refine keeps_popStrings.bind fun flags hflags => ?_
  refine keeps_popStrings.bind fun sources hsources => keeps_pure ?_
  simp_all [arguments, allLexical_toList_map]

end HasFlag

namespace SpamScore

theorem take_arguments (c b : SpamScore) : b.take.run c.arguments = (c, []) := by
  simp [take, arguments]

theorem keeps_take {c : SpamScore} (h : AllLexical c.arguments) :
    Keeps c.take fun c => AllLexical c.arguments := by
  refine (keeps_flag _).bind fun percent _ => ?_
  refine keeps_popString.bind fun value hvalue => keeps_pure ?_
  simp_all +decide [arguments, allLexical_ofFlag, lexical_tag]

end SpamScore

namespace Zone

@[simp]
theorem take_arguments (z : Option Zone) {ys : List Argument} (hz : Free ":zone" ys)
    (ho : Free ":originalzone" ys) : take.run (z.elim [] arguments ++ ys) = (z, ys) := by
  obtain _ | (t | _) := z
  · simp [take, hz, ho]
  · simp [take, arguments, tagged_tag string?_string]
  · simp [take, arguments, hz, ho]

theorem keeps_take : Keeps take fun z => AllLexical (z.elim [] arguments) := by
  refine (keeps_taggedString _).bind fun text htext => ?_
  cases text with
  | some text =>
    apply keeps_pure
    simp_all +decide [arguments, lexical_tag]
  | none =>
    refine (keeps_flag _).bind fun own _ => ?_
    cases own <;> exact keeps_pure (by simp +decide [arguments, lexical_tag])

end Zone

namespace Date

theorem take_arguments (c b : Date) : b.take.run c.arguments = (c, []) := by
  simp [take, arguments]

theorem keeps_take {c : Date} (h : AllLexical c.arguments) :
    Keeps c.take fun c => AllLexical c.arguments := by
  refine Zone.keeps_take.bind fun zone hzone => ?_
  refine keeps_popStrings.bind fun keys hkeys => ?_
  refine keeps_popString.bind fun part hpart => ?_
  refine keeps_popString.bind fun header hheader => keeps_pure ?_
  simp_all [arguments]

end Date

namespace CurrentDate

theorem take_arguments (c b : CurrentDate) : b.take.run c.arguments = (c, []) := by
  simp [take, arguments]

theorem keeps_take {c : CurrentDate} (h : AllLexical c.arguments) :
    Keeps c.take fun c => AllLexical c.arguments := by
  refine Zone.keeps_take.bind fun zone hzone => ?_
  refine keeps_popStrings.bind fun keys hkeys => ?_
  refine keeps_popString.bind fun part hpart => keeps_pure ?_
  simp_all [arguments]

end CurrentDate

namespace Environment

theorem take_arguments (c b : Environment) : b.take.run c.arguments = (c, []) := by
  simp [take, arguments]

theorem keeps_take {c : Environment} (h : AllLexical c.arguments) :
    Keeps c.take fun c => AllLexical c.arguments := by
  refine keeps_popStrings.bind fun keys hkeys => ?_
  refine keeps_popString.bind fun name hname => keeps_pure ?_
  simp_all [arguments]

end Environment

namespace Strings

theorem take_arguments (c b : Strings) : b.take.run c.arguments = (c, []) := by
  simp [take, arguments]

theorem keeps_take {c : Strings} (h : AllLexical c.arguments) :
    Keeps c.take fun c => AllLexical c.arguments := by
  refine keeps_popStrings.bind fun keys hkeys => ?_
  refine keeps_popStrings.bind fun sources hsources => keeps_pure ?_
  simp_all [arguments]

end Strings

namespace MethodCapability

theorem take_arguments (c b : MethodCapability) : b.take.run c.arguments = (c, []) := by
  simp [take, arguments]

theorem keeps_take {c : MethodCapability} (h : AllLexical c.arguments) :
    Keeps c.take fun c => AllLexical c.arguments := by
  refine keeps_popStrings.bind fun keys hkeys => ?_
  refine keeps_popString.bind fun capability hcapability => ?_
  refine keeps_popString.bind fun uri huri => keeps_pure ?_
  simp_all [arguments]

end MethodCapability

namespace Metadata

theorem take_arguments (c b : Metadata) : b.take.run c.arguments = (c, []) := by
  simp [take, arguments]

theorem keeps_take {c : Metadata} (h : AllLexical c.arguments) :
    Keeps c.take fun c => AllLexical c.arguments := by
  refine keeps_popStrings.bind fun keys hkeys => ?_
  refine keeps_popString.bind fun name hname => ?_
  refine keeps_popString.bind fun mailbox hmailbox => keeps_pure ?_
  simp_all [arguments]

end Metadata

namespace MetadataExists

theorem take_arguments (c b : MetadataExists) : b.take.run c.arguments = (c, []) := by
  simp [take, arguments]

theorem keeps_take {c : MetadataExists} (h : AllLexical c.arguments) :
    Keeps c.take fun c => AllLexical c.arguments := by
  refine keeps_popStrings.bind fun names hnames => ?_
  refine keeps_popString.bind fun mailbox hmailbox => keeps_pure ?_
  simp_all [arguments]

end MetadataExists

end Condition

/-! ### Actions -/

namespace Action

/-- The action with nothing filled in. -/
def blank : Action → Action
  | require _ => require []
  | stop => stop
  | keep _ => keep none
  | discard => discard
  | fileInto _ => fileInto {}
  | redirect _ => redirect {}
  | assign _ => assign {}
  | vacation _ => vacation {}
  | setFlags _ => setFlags {}
  | addFlags _ => addFlags {}
  | removeFlags _ => removeFlags {}
  | addHeader _ => addHeader {}
  | deleteHeader _ => deleteHeader {}
  | reject _ => reject (.quoted "")
  | earlyReject _ => earlyReject (.quoted "")
  | notify _ => notify {}
  | error _ => error ""
  | inclusion _ => inclusion {}
  | leave => leave
  | placeholder _ => placeholder []

/-- The arguments are lexical, and modifiers are modifiers. -/
structure Fit (a : Action) : Prop where
  lexical : AllLexical a.arguments
  modifiers : ∀ b, a = assign b → ∀ t ∈ b.modifiers, t ∈ Assign.modifierTags

/-- What the action holds apart from its matching. -/
def ownArguments : Action → List Argument
  | deleteHeader a => a.ownArguments
  | a => a.arguments

variable {a : Action}

@[simp]
theorem blank_withMatching (m : Matching) : (a.withMatching m).blank = a.blank := by
  cases a <;> rfl

@[simp]
theorem blank_take (args : List Argument) : (a.take.run args).1.blank = a.blank := by
  cases a <;> rfl

theorem isPlaceholder_take (a : Action) (args : List Argument) :
    (a.take.run args).1.isPlaceholder = a.isPlaceholder := by
  cases a <;> rfl

theorem take_ownArguments (h : ∀ b, a = assign b → ∀ t ∈ b.modifiers, t ∈ Assign.modifierTags) :
    (a.blank.withMatching (a.matching?.getD {})).take.run a.ownArguments = (a, []) := by
  cases a with
  | fileInto a => simp [blank, withMatching, take, ownArguments, arguments, FileInto.take_arguments]
  | redirect a => simp [blank, withMatching, take, ownArguments, arguments, Redirect.take_arguments]
  | assign a =>
    simp [blank, withMatching, take, ownArguments, arguments, Assign.take_arguments a (h a rfl)]
  | vacation a => simp [blank, withMatching, take, ownArguments, arguments, Vacation.take_arguments]
  | setFlags a | addFlags a | removeFlags a =>
    simp [blank, withMatching, take, ownArguments, arguments, Flags.take_arguments]
  | addHeader a => simp [blank, withMatching, take, ownArguments, arguments, AddHeader.take_arguments]
  | deleteHeader a =>
    simp [blank, withMatching, take, ownArguments, matching?, DeleteHeader.take_ownArguments]
  | notify a => simp [blank, withMatching, take, ownArguments, arguments, Notify.take_arguments]
  | inclusion a => simp [blank, withMatching, take, ownArguments, arguments, Inclusion.take_arguments]
  | placeholder args => rfl
  | keep flags =>
    have hf : (tagged strings? ":flags").run (ofTagged ":flags" .strings flags ++ []) = (flags, []) :=
      tagged_ofTagged (fun _ => strings?_strings) flags free_nil
    rw [List.append_nil] at hf
    simp [blank, withMatching, take, ownArguments, arguments, hf]
  | _ => simp [blank, withMatching, take, ownArguments, arguments]

theorem fit_blank : a.blank.Fit := by
  have hquoted : (ofText (.quoted "")).Lexical := normalized_nil
  constructor
  · cases a <;>
      simp [blank, arguments, FileInto.arguments, Redirect.arguments, Vacation.arguments,
        Notify.arguments, Assign.arguments, Flags.arguments, AddHeader.arguments,
        DeleteHeader.arguments, Matching.matchTypeArguments, Matching.comparatorArguments,
        Inclusion.arguments, ofFlag, ofTagged, hquoted]
  · cases a <;> simp [blank]

theorem fit_withMatching (h : a.Fit) {m : Matching}
    (hm : AllLexical (m.matchTypeArguments ++ m.comparatorArguments)) : (a.withMatching m).Fit := by
  cases a with
  | deleteHeader a =>
    refine ⟨?_, by simp [withMatching]⟩
    have hl := h.lexical
    simp_all [arguments, withMatching, DeleteHeader.arguments, Matching.matchTypeArguments, Matching.comparatorArguments]
  | _ => exact h

theorem keeps_take (h : a.Fit) : Keeps a.take Fit := by
  have hl := h.lexical
  cases a with
  | assign a =>
    refine (Assign.keeps_take hl (h.modifiers a rfl)).bind fun b hb => keeps_pure ⟨hb.1, ?_⟩
    rintro _ ⟨⟩
    exact hb.2
  | fileInto a => exact (FileInto.keeps_take hl).bind fun b hb => keeps_pure ⟨hb, by simp⟩
  | redirect a => exact (Redirect.keeps_take hl).bind fun b hb => keeps_pure ⟨hb, by simp⟩
  | vacation a => exact (Vacation.keeps_take hl).bind fun b hb => keeps_pure ⟨hb, by simp⟩
  | setFlags a | addFlags a | removeFlags a =>
    exact (Flags.keeps_take hl).bind fun b hb => keeps_pure ⟨hb, by simp⟩
  | addHeader a => exact (AddHeader.keeps_take hl).bind fun b hb => keeps_pure ⟨hb, by simp⟩
  | deleteHeader a => exact (DeleteHeader.keeps_take hl).bind fun b hb => keeps_pure ⟨hb, by simp⟩
  | notify a => exact (Notify.keeps_take hl).bind fun b hb => keeps_pure ⟨hb, by simp⟩
  | inclusion a => exact (Inclusion.keeps_take hl).bind fun b hb => keeps_pure ⟨hb, by simp⟩
  | require vs =>
    refine keeps_popStrings.bind fun o ho => keeps_pure ⟨?_, by simp⟩
    simp_all [arguments]
  | keep flags =>
    refine (keeps_taggedStrings _).bind fun o ho => keeps_pure ⟨?_, by simp⟩
    simp_all +decide [arguments, allLexical_ofTagged, lexical_tag]
  | reject t | earlyReject t =>
    refine keeps_popText.bind fun o ho => keeps_pure ⟨?_, by simp⟩
    simp_all [arguments]
  | error t =>
    refine keeps_popString.bind fun o ho => keeps_pure ⟨?_, by simp⟩
    simp_all [arguments]
  | placeholder args =>
    exact keeps_everything.bind fun more hmore => keeps_pure ⟨allLexical_append.2 ⟨hl, hmore⟩, by simp⟩
  | stop | discard | leave => exact keeps_pure h

end Action

/-! ### Conditions -/

namespace Condition

/-- The condition with nothing filled in. -/
def blank : Condition → Condition
  | address _ => address {}
  | envelope _ => envelope {}
  | headerExists _ => headerExists []
  | never => never
  | header _ => header {}
  | size _ => size {}
  | always => always
  | body _ => body {}
  | environment _ => environment {}
  | strings _ => strings {}
  | hasFlag _ => hasFlag {}
  | spam _ => spam {}
  | virus _ => virus ""
  | date _ => date {}
  | currentDate _ => currentDate {}
  | validMethod _ => validMethod []
  | methodCapability _ => methodCapability {}
  | available _ => available []
  | mailboxExists _ => mailboxExists []
  | metadata _ => metadata {}
  | metadataExists _ => metadataExists {}
  | placeholder _ => placeholder []

variable {c : Condition}

@[simp]
theorem blank_take (args : List Argument) : (c.take.run args).1.blank = c.blank := by
  cases c <;> rfl

theorem isPlaceholder_take (c : Condition) (args : List Argument) :
    (c.take.run args).1.isPlaceholder = c.isPlaceholder := by
  cases c <;> rfl

theorem take_arguments (c : Condition) : c.blank.take.run c.arguments = (c, []) := by
  cases c with
  | address c | envelope c => simp [blank, take, arguments, Address.take_arguments]
  | header c => simp [blank, take, arguments, Header.take_arguments]
  | size c => simp [blank, take, arguments, Size.take_arguments]
  | body c => simp [blank, take, arguments, Body.take_arguments]
  | environment c => simp [blank, take, arguments, Environment.take_arguments]
  | strings c => simp [blank, take, arguments, Strings.take_arguments]
  | hasFlag c => simp [blank, take, arguments, HasFlag.take_arguments]
  | spam c => simp [blank, take, arguments, SpamScore.take_arguments]
  | date c => simp [blank, take, arguments, Date.take_arguments]
  | currentDate c => simp [blank, take, arguments, CurrentDate.take_arguments]
  | methodCapability c => simp [blank, take, arguments, MethodCapability.take_arguments]
  | metadata c => simp [blank, take, arguments, Metadata.take_arguments]
  | metadataExists c => simp [blank, take, arguments, MetadataExists.take_arguments]
  | placeholder args => rfl
  | _ => simp [blank, take, arguments]

theorem allLexical_blank : AllLexical c.blank.arguments := by
  have hside : (tag Side.above.tag).Lexical := Side.lexical_tag _
  have hzero : IsNumber ['0'] := ⟨['0'], [], rfl, by simp, by simp, .inl rfl⟩
  cases c <;>
    simp [blank, arguments, Address.arguments, Header.arguments, Size.arguments, Body.arguments,
      Environment.arguments, Strings.arguments, HasFlag.arguments, SpamScore.arguments,
      Date.arguments, CurrentDate.arguments, MethodCapability.arguments, Metadata.arguments,
      MetadataExists.arguments, ofFlag, hside, hzero]

theorem keeps_take (h : AllLexical c.arguments) : Keeps c.take fun c => AllLexical c.arguments := by
  cases c with
  | address c | envelope c => exact (Address.keeps_take h).bind fun _ hd => keeps_pure hd
  | header c => exact (Header.keeps_take h).bind fun _ hd => keeps_pure hd
  | size c => exact (Size.keeps_take h).bind fun _ hd => keeps_pure hd
  | body c => exact (Body.keeps_take h).bind fun _ hd => keeps_pure hd
  | environment c => exact (Environment.keeps_take h).bind fun _ hd => keeps_pure hd
  | strings c => exact (Strings.keeps_take h).bind fun _ hd => keeps_pure hd
  | hasFlag c => exact (HasFlag.keeps_take h).bind fun _ hd => keeps_pure hd
  | spam c => exact (SpamScore.keeps_take h).bind fun _ hd => keeps_pure hd
  | date c => exact (Date.keeps_take h).bind fun _ hd => keeps_pure hd
  | currentDate c => exact (CurrentDate.keeps_take h).bind fun _ hd => keeps_pure hd
  | methodCapability c => exact (MethodCapability.keeps_take h).bind fun _ hd => keeps_pure hd
  | metadata c => exact (Metadata.keeps_take h).bind fun _ hd => keeps_pure hd
  | metadataExists c => exact (MetadataExists.keeps_take h).bind fun _ hd => keeps_pure hd
  | headerExists vs | validMethod vs | available vs | mailboxExists vs =>
    refine keeps_popStrings.bind fun o ho => keeps_pure ?_
    simp_all [arguments]
  | virus t =>
    refine keeps_popString.bind fun o ho => keeps_pure ?_
    simp_all [arguments]
  | placeholder args =>
    exact keeps_everything.bind fun more hmore => keeps_pure (allLexical_append.2 ⟨h, hmore⟩)
  | never | always => exact keeps_pure h

end Condition

end SieveScript
