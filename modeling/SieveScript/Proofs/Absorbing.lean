import SieveScript.Reading.Step
import SieveScript.Proofs.Filling

/-!
# Absorbing arguments

What a list of arguments does to a matching, one by one (`Matching.absorbAll`). The arguments that
wait are always `Quiet`: no match type is among them, and a tag that takes the argument behind it is
the last of them if it is there at all (`Matching.quiet_of_absorb`). Absorbing quiet arguments gives
them back as they are, and absorbing those that a matching is written as gives it back.
-/

namespace SieveScript

namespace Argument

theorem tag?_tag (t : String) : (tag t).tag? = some t := rfl

/-- The tags that take the argument behind them. -/
def linkingTags : List String :=
  [":value", ":count", ":comparator"]

/-- The argument is a match type that has no value. -/
def isMatchType (a : Argument) : Bool :=
  (a.tag?.bind MatchType.ofTag?).isSome

/-- The argument is a tag that takes the argument behind it. -/
def isLinking (a : Argument) : Bool :=
  a.tag?.any linkingTags.contains

/-- The argument has nothing to do with matching. -/
def Plain (a : Argument) : Prop :=
  a.isMatchType = false ∧ a.isLinking = false

/-- The next argument is not taken by the last one. -/
def Ready (waiting : List Argument) : Prop :=
  ∀ a ∈ waiting.getLast?, a.isLinking = false

/-- Arguments as they may wait. -/
structure Quiet (args : List Argument) : Prop where
  noMatchType : ∀ a ∈ args, a.isMatchType = false
  linkingLast : ∀ a ∈ args.dropLast, a.isLinking = false

section
variable {args : List Argument}

theorem ready_nil : Ready [] := by
  simp [Ready]

theorem ready_of_forall_plain (h : ∀ a ∈ args, a.Plain) : Ready args :=
  fun a ha => (h a (List.mem_of_getLast? ha)).2

theorem Ready.append {ws : List Argument} (hw : Ready ws) (h : ∀ a ∈ args, a.Plain) :
    Ready (ws ++ args) := by
  cases args with
  | nil => rwa [List.append_nil]
  | cons a as =>
    intro b hb
    rw [List.getLast?_append_of_ne_nil ws (by simp)] at hb
    exact ready_of_forall_plain h b hb

theorem quiet_nil : Quiet [] :=
  ⟨by simp, by simp⟩

theorem quiet_of_forall_plain (h : ∀ a ∈ args, a.Plain) : Quiet args :=
  ⟨fun a ha => (h a ha).1, fun a ha => (h a (List.dropLast_subset args ha)).2⟩

theorem Quiet.plain_dropLast (h : Quiet args) : ∀ a ∈ args.dropLast, a.Plain :=
  fun a ha => ⟨h.noMatchType a (List.dropLast_subset args ha), h.linkingLast a ha⟩

theorem Quiet.plain_of_ready (h : Quiet args) (hr : Ready args) : ∀ a ∈ args, a.Plain := by
  intro a ha
  rcases List.eq_nil_or_concat args with rfl | ⟨init, b, rfl⟩
  · simp at ha
  · rw [List.concat_eq_append] at *
    rcases List.mem_append.1 ha with ha | ha
    · exact h.plain_dropLast a (by rwa [List.dropLast_concat])
    · rw [List.mem_singleton.1 ha]
      exact ⟨h.noMatchType b (by simp), hr b (by simp)⟩

end

@[simp]
theorem plain_string (v : String) : (string v).Plain :=
  ⟨rfl, rfl⟩

@[simp]
theorem plain_strings (vs : List String) : (strings vs).Plain :=
  ⟨rfl, rfl⟩

@[simp]
theorem plain_number (n : Number) : (number n).Plain :=
  ⟨rfl, rfl⟩

instance (a : Argument) : Decidable a.Plain :=
  inferInstanceAs (Decidable (_ ∧ _))

theorem plain_of_mem_ofFlag {name : String} (h : (tag name).Plain) {b : Bool} :
    ∀ a ∈ ofFlag name b, a.Plain := by
  cases b <;> simp [ofFlag, h]

theorem plain_of_mem_ofTagged {α : Type} {name : String} {value : α → Argument} (h : (tag name).Plain)
    (hv : ∀ x, (value x).Plain) {o : Option α} : ∀ a ∈ ofTagged name value o, a.Plain := by
  cases o <;> simp [ofTagged, h, hv]

end Argument

namespace Matching

open Argument
variable {m m' : Matching} {ws ws' : List Argument} {a : Argument} {need : Option String}

theorem absorb_matchType {t : MatchType} (h : a.tag?.bind MatchType.ofTag? = some t) :
    absorb m ws a = .ok ({ m with matchType := some t }, ws, t.capability?) := by
  simp only [absorb, h]

theorem absorb_of_ready (ha : a.isMatchType = false) (hw : Ready ws) :
    absorb m ws a = .ok (m, ws ++ [a], none) := by
  have hno : a.tag?.bind MatchType.ofTag? = none := by simpa [isMatchType] using ha
  cases hl : ws.getLast?.bind tag? with
  | none => simp only [absorb, hno, hl]
  | some t =>
    obtain ⟨b, hb, ht⟩ := Option.bind_eq_some_iff.1 hl
    have hlink : t ∉ linkingTags := by
      have := hw b hb
      simpa [isLinking, ht] using this
    simp only [linkingTags, List.mem_cons, List.not_mem_nil, or_false, not_or] at hlink
    obtain ⟨hv, hc, hco⟩ := hlink
    simp only [absorb, hno, hl]
    rw [if_neg (by simp [hv, hc])]

theorem absorb_comparator (ha : a.isMatchType = false) :
    absorb m (ws ++ [.tag ":comparator"]) a =
      match a.string? with
      | some c => .ok ({ m with comparator := some c }, ws, comparatorCapability? c)
      | none => .error (.invalidComparator a) := by
  have hno : a.tag?.bind MatchType.ofTag? = none := by simpa [isMatchType] using ha
  cases hs : a.string? <;>
    simp only [absorb, hno, hs, List.getLast?_concat, Option.bind_some, tag?_tag, List.dropLast_concat]

theorem absorb_relation (ha : a.isMatchType = false) {t : String} (ht : t = ":value" ∨ t = ":count") :
    absorb m (ws ++ [.tag t]) a =
      match (a.string?.bind Relation.ofWord?).bind (MatchType.ofRelation? t) with
      | some k => .ok ({ m with matchType := some k }, ws, k.capability?)
      | none => .error (.invalidRelation t a) := by
  have hno : a.tag?.bind MatchType.ofTag? = none := by simpa [isMatchType] using ha
  simp only [absorb, hno, List.getLast?_concat, Option.bind_some, tag?_tag, List.dropLast_concat]
  rcases ht with rfl | rfl <;> rfl

theorem exists_of_not_ready (h : ¬ Ready ws) :
    ∃ init t, ws = init ++ [.tag t] ∧ (t = ":comparator" ∨ t = ":value" ∨ t = ":count") := by
  rcases List.eq_nil_or_concat ws with rfl | ⟨init, b, rfl⟩
  · exact absurd ready_nil h
  · rw [List.concat_eq_append] at *
    have hb : b.isLinking = true := by
      rw [← Bool.not_eq_false]
      exact fun hb => h fun c hc => by
        rw [List.getLast?_concat, Option.mem_some] at hc
        exact hc ▸ hb
    cases b with
    | tag t =>
      have ht : t ∈ linkingTags := by simpa [isLinking, tag?] using hb
      simp only [linkingTags, List.mem_cons, List.not_mem_nil, or_false] at ht
      exact ⟨init, t, rfl, by tauto⟩
    | _ => cases hb

/-- What absorbing an argument may come to. -/
theorem absorb_cases (h : absorb m ws a = .ok (m', ws', need)) :
    (∃ t, a.tag?.bind MatchType.ofTag? = some t ∧ m' = { m with matchType := some t } ∧ ws' = ws) ∨
    (a.isMatchType = false ∧ Ready ws ∧ m' = m ∧ ws' = ws ++ [a]) ∨
    (a.isMatchType = false ∧ ws = ws' ++ [.tag ":comparator"] ∧
      ∃ c, a.string? = some c ∧ m' = { m with comparator := some c }) ∨
    (a.isMatchType = false ∧ ∃ t k, (t = ":value" ∨ t = ":count") ∧ ws = ws' ++ [.tag t] ∧
      (a.string?.bind Relation.ofWord?).bind (MatchType.ofRelation? t) = some k ∧
      m' = { m with matchType := some k }) := by
  cases ht : a.tag?.bind MatchType.ofTag? with
  | some t =>
    rw [absorb_matchType ht] at h
    cases h
    exact .inl ⟨t, rfl, rfl, rfl⟩
  | none =>
    have ha : a.isMatchType = false := by simp [isMatchType, ht]
    refine .inr ?_
    by_cases hw : Ready ws
    · rw [absorb_of_ready ha hw] at h
      cases h
      exact .inl ⟨ha, hw, rfl, rfl⟩
    · obtain ⟨init, t, rfl, rfl | hvc⟩ := exists_of_not_ready hw
      · rw [absorb_comparator ha] at h
        split at h
        next c hc =>
          cases h
          exact .inr (.inl ⟨ha, rfl, c, hc, rfl⟩)
        · contradiction
      · rw [absorb_relation ha hvc] at h
        split at h
        next k hk =>
          cases h
          exact .inr (.inr ⟨ha, t, k, hvc, rfl, hk, rfl⟩)
        · contradiction

theorem quiet_of_absorb (h : absorb m ws a = .ok (m', ws', need)) (hq : Quiet ws) : Quiet ws' := by
  rcases absorb_cases h with ⟨t, -, -, rfl⟩ | ⟨ha, hr, -, rfl⟩ | ⟨-, rfl, -⟩ | ⟨-, t, k, -, rfl, -⟩
  · exact hq
  · refine ⟨?_, ?_⟩
    · simpa [or_imp, forall_and, ha] using hq.noMatchType
    · rw [List.dropLast_concat]
      exact fun b hb => (hq.plain_of_ready hr b hb).2
  all_goals
    have hplain := hq.plain_dropLast
    rw [List.dropLast_concat] at hplain
    exact quiet_of_forall_plain hplain

/-! ### Lists of arguments -/

/-- Absorbs arguments one by one, whatever capabilities they need. -/
def absorbAll : Matching → List Argument → List Argument → Except Fault (Matching × List Argument)
  | m, ws, [] => .ok (m, ws)
  | m, ws, a :: as =>
    match absorb m ws a with
    | .ok (m', ws', _) => absorbAll m' ws' as
    | .error f => .error f

theorem absorbAll_nil : absorbAll m ws [] = .ok (m, ws) := rfl

theorem absorbAll_cons {as : List Argument} (h : absorb m ws a = .ok (m', ws', need)) :
    absorbAll m ws (a :: as) = absorbAll m' ws' as := by
  rw [absorbAll, h]

theorem absorbAll_append {as bs : List Argument} (h : absorbAll m ws as = .ok (m', ws')) :
    absorbAll m ws (as ++ bs) = absorbAll m' ws' bs := by
  fun_induction absorbAll m ws as with
  | case1 => cases h; rfl
  | case2 m ws a as m₁ ws₁ need h₁ ih => rw [List.cons_append, absorbAll_cons h₁, ih h]
  | case3 => contradiction

theorem absorbAll_plain {as : List Argument} (h : ∀ a ∈ as, a.Plain) (hw : Ready ws) :
    absorbAll m ws as = .ok (m, ws ++ as) := by
  induction as generalizing ws with
  | nil => rw [absorbAll_nil, List.append_nil]
  | cons a as ih =>
    have ha := h a (by simp)
    have hready : Ready (ws ++ [a]) := hw.append (by simpa using ha)
    rw [absorbAll_cons (absorb_of_ready ha.1 hw), ih (fun b hb => h b (by simp [hb])) hready,
      List.append_assoc, List.singleton_append]

theorem absorbAll_quiet {as : List Argument} (h : Quiet as) : absorbAll m [] as = .ok (m, as) := by
  rcases List.eq_nil_or_concat as with rfl | ⟨init, a, rfl⟩
  · rfl
  · rw [List.concat_eq_append] at *
    have hinit := h.plain_dropLast
    rw [List.dropLast_concat] at hinit
    rw [absorbAll_append (absorbAll_plain hinit ready_nil), List.nil_append,
      absorbAll_cons (absorb_of_ready (h.noMatchType a (by simp)) (ready_of_forall_plain hinit)),
      absorbAll_nil]

theorem absorbAll_linked {t : String} (ht : (tag t).isMatchType = false) (hw : Ready ws)
    (h : absorb m (ws ++ [.tag t]) a = .ok (m', ws', need)) :
    absorbAll m ws [.tag t, a] = .ok (m', ws') := by
  rw [absorbAll_cons (absorb_of_ready ht hw), absorbAll_cons h, absorbAll_nil]

theorem absorbAll_matchType (t : MatchType) (hw : Ready ws) :
    absorbAll m ws t.arguments = .ok ({ m with matchType := some t }, ws) := by
  cases t with
  | value r => exact absorbAll_linked rfl hw ((absorb_relation rfl (.inl rfl)).trans (by cases r <;> rfl))
  | count r => exact absorbAll_linked rfl hw ((absorb_relation rfl (.inr rfl)).trans (by cases r <;> rfl))
  | _ => exact absorbAll_cons (absorb_matchType rfl)

theorem absorbAll_matchTypeArguments (hm : m.matchType = none) (hw : Ready ws) (n : Matching) :
    absorbAll m ws n.matchTypeArguments = .ok ({ m with matchType := n.matchType }, ws) := by
  cases hn : n.matchType with
  | none =>
    obtain ⟨t, c⟩ := m
    cases hm
    rw [matchTypeArguments, hn]
    rfl
  | some t =>
    rw [matchTypeArguments, hn]
    exact absorbAll_matchType t hw

theorem absorbAll_comparatorArguments (hm : m.comparator = none) (hw : Ready ws) (n : Matching) :
    absorbAll m ws n.comparatorArguments = .ok ({ m with comparator := n.comparator }, ws) := by
  cases hn : n.comparator with
  | none =>
    obtain ⟨t, c⟩ := m
    cases hm
    rw [comparatorArguments, hn]
    rfl
  | some c =>
    rw [comparatorArguments, hn]
    exact absorbAll_linked rfl hw (absorb_comparator rfl)

/-- A matching is absorbed as it is written in front of the arguments of a test. -/
theorem absorbAll_arguments {as : List Argument} (h : Quiet as) :
    absorbAll {} [] (m.matchTypeArguments ++ m.comparatorArguments ++ as) = .ok (m, as) := by
  rw [List.append_assoc, absorbAll_append (absorbAll_matchTypeArguments rfl ready_nil m),
    absorbAll_append (absorbAll_comparatorArguments rfl ready_nil m), absorbAll_quiet h]

/-! ### Lexical matchings -/

/-- The comparator may come from a normalized text. -/
def Lexical (m : Matching) : Prop :=
  ∀ c ∈ m.comparator, Normalized c.toList

theorem lexical_empty : Lexical {} := by
  simp [Lexical]

theorem Lexical.allLexical (h : m.Lexical) :
    AllLexical (m.matchTypeArguments ++ m.comparatorArguments) := by
  refine allLexical_append.2 ⟨?_, allLexical_ofTagged (lexical_tag (by decide)) h⟩
  have hword : ∀ r : Relation, (string r.word).Lexical := fun r => by
    cases r <;> exact IsLine.normalized (by decide)
  cases hm : m.matchType with
  | none => simp [matchTypeArguments, hm]
  | some t =>
    rw [matchTypeArguments, hm]
    cases t <;> simp +decide [MatchType.arguments, lexical_tag, hword, -lexical_string]

theorem lexical_of_absorb (h : absorb m ws a = .ok (m', ws', need)) (hm : m.Lexical) (ha : a.Lexical) :
    m'.Lexical := by
  rcases absorb_cases h with ⟨t, -, rfl, -⟩ | ⟨-, -, rfl, -⟩ | ⟨-, -, c, hc, rfl⟩ |
    ⟨-, t, k, -, -, -, rfl⟩
  · exact hm
  · exact hm
  · rintro _ ⟨⟩
    exact normalized_of_string? ha hc
  · exact hm

theorem allLexical_of_absorb (h : absorb m ws a = .ok (m', ws', need)) (hws : AllLexical ws)
    (ha : a.Lexical) : AllLexical ws' := by
  rcases absorb_cases h with ⟨t, -, -, rfl⟩ | ⟨-, -, -, rfl⟩ | ⟨-, rfl, -⟩ | ⟨-, t, k, -, rfl, -⟩
  · exact hws
  · exact allLexical_append.2 ⟨hws, by simpa using ha⟩
  · exact (allLexical_append.1 hws).1
  · exact (allLexical_append.1 hws).1

end Matching

/-! ### Nodes -/

open Argument

/-- What a condition of a known word holds has nothing to do with matching. -/
theorem Condition.plain_arguments {c : Condition} (h : c.isPlaceholder = false) :
    ∀ a ∈ c.arguments, a.Plain := by
  cases c with
  | address c | envelope c =>
    obtain ⟨_ | p, hs, ks⟩ := c
    · simp [arguments, Address.arguments]
    · cases p <;> simp +decide [arguments, Address.arguments, AddressPart.tag]
  | size c =>
    obtain ⟨s, n⟩ := c
    cases s <;> simp +decide [arguments, Size.arguments, Side.tag]
  | body c =>
    obtain ⟨_ | t, ks⟩ := c
    · simp [arguments, Body.arguments]
    · cases t <;> simp +decide [arguments, Body.arguments, Transform.arguments]
  | date c =>
    obtain ⟨_ | z, hd, p, ks⟩ := c
    · simp [arguments, Date.arguments]
    · cases z <;> simp +decide [arguments, Date.arguments, Zone.arguments]
  | currentDate c =>
    obtain ⟨_ | z, p, ks⟩ := c
    · simp [arguments, CurrentDate.arguments]
    · cases z <;> simp +decide [arguments, CurrentDate.arguments, Zone.arguments]
  | spam c =>
    refine List.forall_mem_append.2 ⟨plain_of_mem_ofFlag (by decide), ?_⟩
    simp
  | hasFlag c =>
    obtain ⟨_ | ts, fs⟩ := c <;> simp [arguments, HasFlag.arguments]
  | placeholder args => contradiction
  | _ => simp [arguments, Header.arguments, Environment.arguments, Strings.arguments,
      MethodCapability.arguments, Metadata.arguments, MetadataExists.arguments]

theorem Action.Fit.matching {a : Action} (h : a.Fit) {m : Matching} (hm : a.matching? = some m) :
    m.Lexical := by
  cases a with
  | deleteHeader a =>
    cases hm
    intro c hc
    have hlex : (string c).Lexical := h.lexical (string c) (by
      simp [arguments, DeleteHeader.arguments, Matching.comparatorArguments, ofTagged,
        Option.mem_def.1 hc])
    exact hlex
  | _ => contradiction

/-- The action that has a matching absorbs it as it is written. -/
theorem Action.DeleteHeader.absorbAll_arguments (a : DeleteHeader) :
    Matching.absorbAll {} [] a.arguments = .ok (a.matching, a.ownArguments) := by
  have hindex : ∀ b ∈ ofTagged ":index" .number a.index ++ ofFlag ":last" a.last, b.Plain :=
    List.forall_mem_append.2
      ⟨plain_of_mem_ofTagged (by decide) plain_number, plain_of_mem_ofFlag (by decide)⟩
  have hready := ready_of_forall_plain hindex
  have hrest : ∀ b ∈ [string a.field] ++ (a.patterns.map strings).toList, b.Plain := by
    cases a.patterns <;> simp
  rw [arguments, List.append_assoc, List.append_assoc, List.append_assoc,
    Matching.absorbAll_append (Matching.absorbAll_plain hindex ready_nil), List.nil_append,
    Matching.absorbAll_append (Matching.absorbAll_comparatorArguments rfl hready a.matching),
    Matching.absorbAll_append (Matching.absorbAll_matchTypeArguments rfl hready a.matching),
    Matching.absorbAll_plain hrest hready, ownArguments, ← List.append_assoc]

end SieveScript
