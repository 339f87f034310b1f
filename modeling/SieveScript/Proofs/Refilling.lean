import SieveScript.Tree.Printer
import SieveScript.Proofs.Filling

/-!
# The text of a node fills a node

The body of an action or of a condition is written as arguments. Where its values can be written at
all (`Node.Legible`), the tokens of that text are arguments and layout, and a node with nothing filled
in that takes these arguments becomes the first one and leaves nothing
(`Node.readsInto_encodeBody`). The text is taken as it is, its line endings are not normalized, so
strings may hold any characters. That the tags a node writes of its own are legible is no condition
but a fact about its tables (`Action.tagsLegible_arguments`, `Condition.tagsLegible_arguments`).
-/

namespace SieveScript

namespace Argument

/-- The numbers and the multi-line texts among the arguments can be written. -/
structure ValuesLegible (args : List Argument) : Prop where
  numbers : ∀ n, number n ∈ args → IsNumber n.text.toList
  multiLines : ∀ m, multiLine m ∈ args → m.Lexical

/-- The tags among the arguments can be written. -/
def TagsLegible (args : List Argument) : Prop :=
  ∀ t, tag t ∈ args → (tag t).Legible

theorem ValuesLegible.legible {args : List Argument} (h : ValuesLegible args)
    (ht : TagsLegible args) : ∀ a ∈ args, a.Legible := by
  intro a ha
  cases a with
  | tag t => exact ht t ha
  | string v => trivial
  | multiLine m => exact h.multiLines m ha
  | strings vs => trivial
  | number n => exact h.numbers n ha

section
variable {xs ys : List Argument}

@[simp]
theorem tagsLegible_nil : TagsLegible [] := by
  simp [TagsLegible]

@[simp]
theorem tagsLegible_append : TagsLegible (xs ++ ys) ↔ TagsLegible xs ∧ TagsLegible ys := by
  simp only [TagsLegible, List.mem_append, or_imp, forall_and]

theorem tagsLegible_cons {a : Argument} :
    TagsLegible (a :: xs) ↔ (∀ t, a = tag t → (tag t).Legible) ∧ TagsLegible xs := by
  simp only [TagsLegible, List.mem_cons, or_imp, forall_and, eq_comm]

/-- A value is no tag. -/
@[simp]
theorem tagsLegible_cons_of_tag?_eq_none {a : Argument} (h : a.tag? = none) :
    TagsLegible (a :: xs) ↔ TagsLegible xs := by
  rw [tagsLegible_cons, and_iff_right]
  rintro t rfl
  contradiction

theorem tagsLegible_cons_tag {t : String} (h : (tag t).Legible) :
    TagsLegible (tag t :: xs) ↔ TagsLegible xs := by
  rw [tagsLegible_cons, and_iff_right]
  rintro _ ⟨⟩
  exact h

theorem tagsLegible_ofFlag {name : String} {b : Bool} (h : (tag name).Legible) :
    TagsLegible (ofFlag name b) := by
  cases b <;> simp [ofFlag, tagsLegible_cons_tag h]

theorem tagsLegible_ofTagged {α : Type} {name : String} {value : α → Argument} {o : Option α}
    (h : (tag name).Legible) (hv : ∀ x, (value x).tag? = none) : TagsLegible (ofTagged name value o) := by
  cases o <;> simp [ofTagged, tagsLegible_cons_tag h, hv]

theorem tagsLegible_toList_map {α : Type} {value : α → Argument} {o : Option α}
    (hv : ∀ x, TagsLegible [value x]) : TagsLegible (o.map value).toList := by
  cases o <;> simp [hv]

theorem legible_tag {t : String} (h : t.toList.head? = some ':' ∧ IsLowerWord t.toList.tail) :
    (tag t).Legible :=
  (lexical_tag h).legible

end

end Argument

open Argument Taking

namespace Action

/-- All that the action holds can be written: its numbers and multi-line texts, the modifiers of an
assignment and the tags of a placeholder. It has no match type and no comparator, since no action
takes these itself. -/
structure Legible (a : Action) : Prop where
  values : ValuesLegible a.arguments
  modifiers : ∀ b, a = assign b → ∀ t ∈ b.modifiers, t ∈ Assign.modifierTags
  tags : ∀ args, a = placeholder args → TagsLegible args
  matching : ∀ b, a = deleteHeader b → b.matching = {}

variable {a : Action}

theorem tagsLegible_arguments (h : a.Legible) : TagsLegible a.arguments := by
  cases a with
  | assign a =>
    refine tagsLegible_append.2 ⟨?_, by simp⟩
    intro t ht
    obtain ⟨t', ht', heq⟩ := List.mem_map.1 ht
    cases heq
    exact (Assign.lexical_modifier (h.modifiers a rfl t ht')).legible
  | deleteHeader a =>
    have hm := h.matching a rfl
    have hcomparator : a.matching.comparatorArguments = [] := by rw [hm]; rfl
    have htype : a.matching.matchTypeArguments = [] := by rw [hm]; rfl
    simp +decide [arguments, DeleteHeader.arguments, hcomparator, htype, tagsLegible_ofFlag,
      tagsLegible_ofTagged, legible_tag, tagsLegible_toList_map]
  | inclusion a =>
    have hl : ∀ l : Location, TagsLegible [tag l.tag] := fun l =>
      (tagsLegible_cons_tag (Location.lexical_tag l).legible).2 tagsLegible_nil
    simp +decide [arguments, Inclusion.arguments, tagsLegible_ofFlag, legible_tag,
      tagsLegible_toList_map hl]
  | placeholder args => exact h.tags args rfl
  | _ =>
    simp +decide [arguments, FileInto.arguments, Redirect.arguments, Vacation.arguments,
      Flags.arguments, AddHeader.arguments, Notify.arguments, tagsLegible_ofFlag,
      tagsLegible_ofTagged, tagsLegible_toList_map, legible_tag]

/-- A legible action has no matching, so all its arguments are its own. -/
theorem Legible.take_arguments (h : a.Legible) : a.blank.take.run a.arguments = (a, []) := by
  have hmatching : a.matching?.getD {} = {} := by
    cases a with
    | deleteHeader b => exact h.matching b rfl
    | _ => rfl
  have hblank : a.blank.withMatching {} = a.blank := by cases a <;> rfl
  have hown : a.ownArguments = a.arguments := by
    cases a with
    | deleteHeader b =>
      simp [ownArguments, arguments, DeleteHeader.ownArguments, DeleteHeader.arguments,
        h.matching b rfl, Matching.comparatorArguments, Matching.matchTypeArguments, ofTagged]
    | _ => rfl
  have htake := take_ownArguments h.modifiers
  rwa [hmatching, hblank, hown] at htake

end Action

namespace Condition

/-- The values of the condition can be written, and the tags of a placeholder. -/
structure Legible (c : Condition) : Prop where
  values : ValuesLegible c.arguments
  tags : ∀ args, c = placeholder args → TagsLegible args

theorem Transform.tagsLegible_arguments (t : Transform) : TagsLegible t.arguments := by
  cases t <;> simp +decide [arguments, tagsLegible_cons_tag, legible_tag]

theorem Zone.tagsLegible_arguments (z : Zone) : TagsLegible z.arguments := by
  cases z <;> simp +decide [arguments, tagsLegible_cons_tag, legible_tag]

variable {c : Condition}

theorem tagsLegible_arguments (h : c.Legible) : TagsLegible c.arguments := by
  cases c with
  | address c | envelope c =>
    have hp : ∀ p : AddressPart, TagsLegible [tag p.tag] := fun p =>
      (tagsLegible_cons_tag (AddressPart.lexical_tag p).legible).2 tagsLegible_nil
    simp [arguments, Address.arguments, tagsLegible_toList_map hp]
  | size c =>
    simp [arguments, Size.arguments, tagsLegible_cons_tag (Side.lexical_tag c.side).legible]
  | body c =>
    obtain ⟨_ | t, keys⟩ := c <;>
      simp [arguments, Body.arguments, Transform.tagsLegible_arguments]
  | date c =>
    obtain ⟨_ | z, _⟩ := c <;> simp [arguments, Date.arguments, Zone.tagsLegible_arguments]
  | currentDate c =>
    obtain ⟨_ | z, _⟩ := c <;> simp [arguments, CurrentDate.arguments, Zone.tagsLegible_arguments]
  | placeholder args => exact h.tags args rfl
  | _ =>
    simp +decide [arguments, Header.arguments, Environment.arguments, Strings.arguments,
      HasFlag.arguments, SpamScore.arguments, MethodCapability.arguments, Metadata.arguments,
      MetadataExists.arguments, tagsLegible_ofFlag, tagsLegible_toList_map, legible_tag]

end Condition

/-! ### The text of arguments -/

namespace Token

/-- The argument that the token stands for. -/
def argument? (t : Token) : Option Argument :=
  match t.symbol? with
  | some (.argument a) => some a
  | _ => none

/-- The tokens of a text whose symbols are arguments are arguments and layout. -/
theorem arguments_of_symbols {cs : List Char} {args : List Argument}
    (h : symbols cs = args.map .argument) :
    (all cs).filterMap argument? = args ∧ ∀ t ∈ all cs, t.kind = .layout ∨ t.argument?.isSome := by
  have hargument : ∀ t ∈ all cs, ∀ y, t.symbol? = some y → ∃ a, y = .argument a := by
    intro t ht y hy
    have hmem : y ∈ args.map Symbol.argument := h ▸ List.mem_filterMap.2 ⟨t, ht, hy⟩
    obtain ⟨a, -, rfl⟩ := List.mem_map.1 hmem
    exact ⟨a, rfl⟩
  constructor
  · have hmap : ((all cs).filterMap argument?).map Symbol.argument = symbols cs := by
      rw [List.map_filterMap, symbols]
      refine List.filterMap_congr fun t ht => ?_
      cases hy : t.symbol? with
      | none => simp [argument?, hy]
      | some y =>
        obtain ⟨a, rfl⟩ := hargument t ht y hy
        simp [argument?, hy]
    exact List.map_injective_iff.2 (fun _ _ => Symbol.argument.inj) (hmap.trans h)
  · intro t ht
    cases hy : t.symbol? with
    | none =>
      left
      cases hk : t.kind <;> simp_all [symbol?]
    | some y =>
      right
      obtain ⟨a, rfl⟩ := hargument t ht y hy
      simp [argument?, hy]

end Token

/-- The text is made of arguments and layout, and what takes the arguments becomes `x` and leaves
none of them. -/
structure ReadsInto {α : Type} (text : List Char) (take : Taking α) (x : α) : Prop where
  tokens : ∀ t ∈ Token.all text, t.kind = .layout ∨ t.argument?.isSome
  taken : take.run ((Token.all text).filterMap Token.argument?) = (x, [])

theorem readsInto_encodeAll {α : Type} {args : List Argument} {take : Taking α} {x : α}
    (h : ∀ a ∈ args, a.Legible) (ht : take.run args = (x, [])) :
    ReadsInto (encodeAll args) take x := by
  have hsymbols := Legible.symbols_encodeAll h delimited_nil
  rw [List.append_nil, Token.symbols_nil, List.append_nil] at hsymbols
  obtain ⟨hargs, htokens⟩ := Token.arguments_of_symbols hsymbols
  exact ⟨htokens, by rw [hargs, ht]⟩

/-! ### Nodes -/

namespace Node

/-- What is written of the body of a node. -/
def encodeBody : Node → List Char
  | item i => i.encodeBody
  | test t => t.encodeBody

/-- The node with nothing filled in. -/
def blank : Node → Node
  | item (.action h a) => item (.action h a.blank)
  | test (.leaf h m c) => test (.leaf h m c.blank)
  | n => n

/-- The node is an action or a condition, and all it holds can be written. -/
inductive Legible : Node → Prop
  | action {h : Head} {a : Action} (ha : a.Legible) : Legible (item (.action h a))
  | leaf {h : Head} {m : Matching} {c : Condition} (hc : c.Legible) : Legible (test (.leaf h m c))

/-- A node reads back what it writes. -/
theorem readsInto_encodeBody {n : Node} (h : n.Legible) : ReadsInto n.encodeBody n.blank.take n := by
  cases h with
  | action ha =>
    refine readsInto_encodeAll (ha.values.legible (Action.tagsLegible_arguments ha)) ?_
    simp [blank, take, Item.take, ha.take_arguments]
  | leaf hc =>
    refine readsInto_encodeAll (hc.values.legible (Condition.tagsLegible_arguments hc)) ?_
    simp [blank, take, Test.take, Condition.take_arguments]

/-- An answer of two lines, one of them with a dot in front, in a text with a comment. -/
theorem readsInto_encodeBody_vacation :
    let reason : MultiLine := { value := ".away\r\n\r\n", comment := some "x" }
    let n : Node := item (.action { word := "vacation" }
      (.vacation { days := some ⟨"7"⟩, subject := some "a\rb", reason := .multiLine reason }))
    n.Legible ∧ ReadsInto n.encodeBody n.blank.take n := by
  intro reason n
  have hreason : reason.Lexical := by
    refine ⟨⟨[".away".toList, []], by decide, by decide⟩, ?_⟩
    rintro _ ⟨⟩
    decide
  have hdays : IsNumber "7".toList := ⟨['7'], [], rfl, by simp, by simp, .inl rfl⟩
  have hn : n.Legible := by
    refine .action ⟨⟨?_, ?_⟩, by simp, by simp, by simp⟩
    · simpa [Action.arguments, Action.Vacation.arguments, ofTagged, ofFlag, ofText] using hdays
    · simpa [Action.arguments, Action.Vacation.arguments, ofTagged, ofFlag, ofText] using hreason
  exact ⟨hn, readsInto_encodeBody hn⟩

end Node

end SieveScript
