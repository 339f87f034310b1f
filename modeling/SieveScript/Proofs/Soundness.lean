import SieveScript.Proofs.Writing

/-!
# Reading gives sound trees

`State.Sound` says that all that has been read is sound, and that the arguments that wait are lexical
and, for a test, quiet. One symbol keeps it (`State.Sound.reads`), so the script that reading gives
is sound in the end (`Script.sound_of_read`). The prototypes of a vocabulary have nothing filled in,
so a placeholder holds the arguments that waited and no others.
-/

namespace SieveScript

open Argument

/-! ### Vocabularies without anything filled in -/

namespace Prototype

/-- The prototype has nothing filled in, and is not that of an unknown word. -/
def isBlank : Prototype → Bool
  | action a => a.blank = a && !a.isPlaceholder
  | condition c => c.blank = c && !c.isPlaceholder
  | negation | group _ => true

end Prototype

namespace Vocabulary

/-- No prototype has anything filled in. -/
def Blank (v : Vocabulary) : Prop :=
  ∀ d ∈ v.definitions, d.prototype.isBlank = true

theorem blank_ofCapabilities (caps : List String) : (ofCapabilities caps).Blank := by
  have hall : ∀ d ∈ Definition.all, d.prototype.isBlank = true := by decide
  exact fun d hd => hall d (List.mem_filter.1 hd).1

variable {v : Vocabulary} {w : String}

theorem find?_of_meaning {d : Definition} (h : v.meaning w = .defined d) : v.find? w = some d := by
  rw [meaning] at h
  split at h
  · contradiction
  · split at h
    next hd =>
      cases h
      exact hd
    · contradiction

theorem mem_of_meaning {d : Definition} (h : v.meaning w = .defined d) : d ∈ v.definitions :=
  List.mem_of_find?_eq_some (find?_of_meaning h)

theorem word_of_meaning {d : Definition} (h : v.meaning w = .defined d) : d.word = w := by
  have hword := List.find?_some (find?_of_meaning h)
  simpa using hword

theorem Denotes.blank_action (hv : v.Blank) {a : Action} (h : v.Denotes w (.action a)) :
    a.blank = a := by
  rw [Denotes] at h
  split at h
  · contradiction
  next d hd =>
    have hb := hv d (mem_of_meaning hd)
    simp only [h, Prototype.isBlank, Bool.and_eq_true, decide_eq_true_eq] at hb
    exact hb.1
  · rcases h with h | h <;> cases h
    rfl

theorem Denotes.blank_condition (hv : v.Blank) {c : Condition} (h : v.Denotes w (.condition c)) :
    c.blank = c := by
  rw [Denotes] at h
  split at h
  · contradiction
  next d hd =>
    have hb := hv d (mem_of_meaning hd)
    simp only [h, Prototype.isBlank, Bool.and_eq_true, decide_eq_true_eq] at hb
    exact hb.1
  · rcases h with h | h <;> cases h
    rfl

end Vocabulary

/-! ### What is open -/

/-- An open test that may become a sound one. -/
def OpenTest.Sound (v : Vocabulary) : OpenTest → Prop
  | leaf h m c => h.Lexical ∧ m.Lexical ∧ v.Denotes h.word (.condition c) ∧ c.blank = c
  | negation h m => h.Lexical ∧ m.Lexical ∧ v.Denotes h.word .negation
  | group h m c _ ts => h.Lexical ∧ m.Lexical ∧ v.Denotes h.word (.group c) ∧ ∀ t ∈ ts, t.Sound v

/-- A test around the innermost one that may become a sound one. -/
def Enclosing.Sound (v : Vocabulary) : Enclosing → Prop
  | negation h m => h.Lexical ∧ m.Lexical ∧ v.Denotes h.word .negation
  | group h m c ts => h.Lexical ∧ m.Lexical ∧ v.Denotes h.word (.group c) ∧ ∀ t ∈ ts, t.Sound v

/-- All tests on the path may become sound, and the arguments of the innermost one are in order. -/
structure TestPath.Sound (v : Vocabulary) (p : TestPath) : Prop where
  outer : ∀ e ∈ p.outer, e.Sound v
  inner : p.inner.Sound v
  lexical : AllLexical p.waiting
  quiet : Quiet p.waiting

/-- The group and the tests around it may become sound. -/
structure OpenGroup.Sound (v : Vocabulary) (g : OpenGroup) : Prop where
  outer : ∀ e ∈ g.outer, e.Sound v
  group : (Enclosing.group g.head g.matching g.connective g.members).Sound v

/-- What is open in the statement may become sound, and the arguments that wait are in order. -/
def Statement.Sound (v : Vocabulary) : Statement → Prop
  | action h a args => h.Lexical ∧ v.Denotes h.word (.action a.blank) ∧ a.Fit ∧ AllLexical args
  | conditional h => h.Lexical ∧ v.meaning h.word = .conditional
  | testing h p => h.Lexical ∧ v.meaning h.word = .conditional ∧ p.Sound v

/-- The conditional and the items of its block are sound. -/
structure OpenBlock.Sound (v : Vocabulary) (b : OpenBlock) : Prop where
  head : b.head.Lexical
  word : v.meaning b.head.word = .conditional
  tests : ∀ t ∈ b.test, t.Sound v
  items : ∀ i ∈ b.items, i.Sound v

/-- All that has been read is sound. -/
structure State.Sound (v : Vocabulary) (s : State) : Prop where
  items : ∀ i ∈ s.items, i.Sound v
  blocks : ∀ b ∈ s.blocks, b.Sound v
  statement : ∀ c ∈ s.statement, c.Sound v

variable {v : Vocabulary}

namespace OpenTest
variable {o : OpenTest}

theorem Sound.head (h : o.Sound v) : o.head.Lexical := by
  cases o <;> exact h.1

theorem Sound.matching (h : o.Sound v) : o.matching.Lexical := by
  cases o <;> exact h.2.1

theorem Sound.withHead (h : o.Sound v) {hd : Head} (hh : hd.Lexical) (hw : hd.word = o.head.word) :
    (o.withHead hd).Sound v := by
  cases o <;> exact ⟨hh, h.2.1, by rw [hw]; exact h.2.2⟩

theorem Sound.withMatching (h : o.Sound v) {m : Matching} (hm : m.Lexical) :
    (o.withMatching m).Sound v := by
  cases o <;> exact ⟨h.1, hm, h.2.2⟩

end OpenTest

/-! ### Closing what is open -/

theorem Enclosing.Sound.close {e : Enclosing} (h : e.Sound v) {t : Test} (ht : t.Sound v) :
    (e.close t).Sound v := by
  cases e with
  | negation =>
    obtain ⟨hh, hm, hw⟩ := h
    exact .negation hh hm hw (by rintro _ ⟨⟩; exact ht)
  | group =>
    obtain ⟨hh, hm, hw, hts⟩ := h
    exact .group hh hm hw (List.forall_mem_append.2 ⟨hts, List.forall_mem_singleton.2 ht⟩)

/-- What a condition of a blank prototype takes from quiet arguments is quiet. -/
theorem Condition.quiet_take {c : Condition} (hc : c.blank = c) {args : List Argument}
    (h : Quiet args) : Quiet (c.take.run args).1.arguments := by
  cases hp : c.isPlaceholder with
  | false =>
    refine quiet_of_forall_plain (plain_arguments ?_)
    cases c <;> first | contradiction | rfl
  | true =>
    cases c with
    | placeholder as =>
      cases hc
      exact h
    | _ => contradiction

namespace TestPath
variable {p : TestPath}

theorem Sound.fill (h : p.Sound v) : p.fill.1.Sound v := by
  obtain ⟨outer, inner, args⟩ := p
  have hi := h.inner
  cases inner with
  | leaf hd m c =>
    obtain ⟨hh, hm, hw, hc⟩ := hi
    have hlex : AllLexical c.arguments := hc ▸ Condition.allLexical_blank
    have hblank : (c.take.run args).1.blank = c := (Condition.blank_take args).trans hc
    exact .leaf hh hm (hblank.symm ▸ hw) (Condition.keeps_take hlex args h.lexical).1
      (Condition.quiet_take hc h.quiet)
  | negation hd m =>
    obtain ⟨hh, hm, hw⟩ := hi
    exact .negation hh hm hw (by simp)
  | group hd m c ps ts =>
    obtain ⟨hh, hm, hw, hts⟩ := hi
    exact .group hh hm hw hts

theorem sound_foldl_close {outer : List Enclosing} (ho : ∀ e ∈ outer, e.Sound v) {t : Test}
    (ht : t.Sound v) : (outer.foldl (fun t e => e.close t) t).Sound v := by
  induction outer generalizing t with
  | nil => exact ht
  | cons e outer ih =>
    obtain ⟨he, ho⟩ := List.forall_mem_cons.1 ho
    exact ih ho (he.close ht)

theorem Sound.close (h : p.Sound v) : p.close.Sound v :=
  sound_foldl_close h.outer h.fill

theorem sound_climb {outer : List Enclosing} (ho : ∀ e ∈ outer, e.Sound v) {t : Test}
    (ht : t.Sound v) {g : OpenGroup} (hg : climb t outer = some g) : g.Sound v := by
  fun_induction climb t outer with
  | case1 => contradiction
  | case2 t h m outer ih =>
    obtain ⟨he, ho⟩ := List.forall_mem_cons.1 ho
    exact ih ho (he.close ht) hg
  | case3 t h m c ts outer =>
    cases hg
    obtain ⟨⟨hh, hm, hw, hts⟩, ho⟩ := List.forall_mem_cons.1 ho
    exact ⟨ho, hh, hm, hw, List.forall_mem_append.2 ⟨hts, List.forall_mem_singleton.2 ht⟩⟩

theorem Sound.nearestGroup? (h : p.Sound v) {g : OpenGroup} (hg : p.nearestGroup? = some g) :
    g.Sound v := by
  rw [TestPath.nearestGroup?] at hg
  split at hg
  next hi =>
    cases hg
    have hinner := h.inner
    rw [hi] at hinner
    exact ⟨h.outer, hinner⟩
  · exact sound_climb h.outer h.fill hg

end TestPath

theorem OpenGroup.Sound.toPath {g : OpenGroup} (h : g.Sound v) (ps : Parens) : (g.toPath ps).Sound v :=
  ⟨h.outer, h.group, allLexical_nil, quiet_nil⟩

theorem OpenBlock.Sound.close {b : OpenBlock} (h : b.Sound v) : b.close.Sound v :=
  .conditional h.head h.word h.tests h.items

theorem Statement.Sound.close {c : Statement} (h : c.Sound v) : c.close.Sound v := by
  cases c with
  | action hd a args =>
    obtain ⟨hh, hw, ha, hargs⟩ := h
    exact .action hh ((Action.blank_take args).symm ▸ hw) (Action.keeps_take ha args hargs).1
  | conditional hd => exact .conditional h.1 h.2 (by simp) (by simp)
  | testing hd p => exact .conditional h.1 h.2.1 (by rintro _ ⟨⟩; exact h.2.2.close) (by simp)

/-! ### One symbol -/

namespace State
variable {s s' : State}

theorem Sound.add (h : s.Sound v) {i : Item} (hi : i.Sound v) : (s.add i).Sound v := by
  obtain ⟨items, _ | ⟨b, bs⟩, st, rs⟩ := s
  · exact ⟨List.forall_mem_append.2 ⟨h.items, List.forall_mem_singleton.2 hi⟩, h.blocks, h.statement⟩
  · obtain ⟨hb, hbs⟩ := List.forall_mem_cons.1 h.blocks
    refine ⟨h.items, List.forall_mem_cons.2 ⟨⟨hb.head, hb.word, hb.tests, ?_⟩, hbs⟩, h.statement⟩
    exact List.forall_mem_append.2 ⟨hb.items, List.forall_mem_singleton.2 hi⟩

theorem Sound.withStatement (h : s.Sound v) {c : Statement} (hc : c.Sound v) :
    { s with statement := some c }.Sound v :=
  ⟨h.items, h.blocks, by rintro _ ⟨⟩; exact hc⟩

theorem Sound.withoutStatement (h : s.Sound v) : { s with statement := none }.Sound v :=
  ⟨h.items, h.blocks, by simp⟩

theorem lexical_attach {hd : Head} (h : hd.Lexical) {c : Comment} (hc : c.Lexical) :
    (attach c hd).Lexical :=
  ⟨h.word, List.forall_mem_append.2 ⟨h.comments, List.forall_mem_singleton.2 hc⟩⟩

theorem Sound.comment (h : s.Sound v) {c : Comment} (hc : c.Lexical) : (s.comment c).Sound v := by
  obtain ⟨items, blocks, st, rs⟩ := s
  cases st with
  | none => exact h.add (.comment hc)
  | some st =>
    have hst := h.statement st rfl
    cases st with
    | action hd a args => exact h.withStatement ⟨lexical_attach hst.1 hc, hst.2⟩
    | conditional hd => exact h.withStatement ⟨lexical_attach hst.1 hc, hst.2⟩
    | testing hd p =>
      obtain ⟨hh, hw, hp⟩ := hst
      have hi := hp.inner.withHead (lexical_attach hp.inner.head hc) rfl
      exact h.withStatement ⟨hh, hw, hp.outer, hi, hp.lexical, hp.quiet⟩

theorem Sound.slot? (h : s.Sound v) {hd : Head} {outer : List Enclosing}
    (hs : s.slot? = some (hd, outer)) :
    hd.Lexical ∧ v.meaning hd.word = .conditional ∧ ∀ e ∈ outer, e.Sound v := by
  rw [State.slot?] at hs
  split at hs
  next hst =>
    cases hs
    exact ⟨(h.statement _ hst).1, (h.statement _ hst).2, by simp⟩
  next p hst =>
    obtain ⟨e, he, heq⟩ := Option.map_eq_some_iff.1 hs
    cases heq
    obtain ⟨hh, hw, hp⟩ := h.statement _ hst
    refine ⟨hh, hw, List.forall_mem_cons.2 ⟨?_, hp.outer⟩⟩
    have hi := hp.inner
    unfold OpenTest.enclose? at he
    split at he
    next heq => cases he; rw [heq] at hi; exact hi
    next heq => cases he; rw [heq] at hi; exact hi
    · contradiction
  · contradiction

theorem sound_openTest? (hv : v.Blank) {w : String} (hl : IsLowerWord w.toList) {p : Prototype}
    (hw : v.Denotes w p) {t : OpenTest} (ht : p.openTest? w = some t) : t.Sound v := by
  have hh : Head.Lexical { word := w } := ⟨hl, by simp⟩
  cases p with
  | action a => contradiction
  | condition c =>
    cases ht
    exact ⟨hh, Matching.lexical_empty, hw, hw.blank_condition hv⟩
  | negation =>
    cases ht
    exact ⟨hh, Matching.lexical_empty, hw⟩
  | group c =>
    cases ht
    exact ⟨hh, Matching.lexical_empty, hw, by simp⟩

/-- Reading a symbol of a normalized text keeps what has been read sound. -/
theorem Sound.reads (hv : v.Blank) (h : s.Sound v) {y : Symbol} (hy : y.Lexical)
    (hr : Reads v s y s') : s'.Sound v := by
  cases hr with
  | conditional word free => exact h.withStatement ⟨⟨hy, by simp⟩, word⟩
  | action word free =>
    have hblank := word.blank_action hv
    refine h.withStatement ⟨⟨hy, by simp⟩, hblank.symm ▸ word, ?_, allLexical_nil⟩
    exact hblank ▸ Action.fit_blank
  | test word opens slot =>
    obtain ⟨hh, hw, ho⟩ := h.slot? slot
    exact h.withStatement ⟨hh, hw, ho, sound_openTest? hv hy word opens, allLexical_nil, quiet_nil⟩
  | argument here plain =>
    obtain ⟨hh, hw, ha, hargs⟩ := h.statement _ here
    exact h.withStatement ⟨hh, hw, ha, allLexical_append.2 ⟨hargs, List.forall_mem_singleton.2 hy⟩⟩
  | @absorbed hd a args args' b m m' need here matching absorb =>
    obtain ⟨hh, hw, ha, hargs⟩ := h.statement _ here
    have hm' := Matching.lexical_of_absorb absorb (ha.matching matching) hy
    exact h.withStatement ⟨hh, (Action.blank_withMatching m').symm ▸ hw, Action.fit_withMatching ha hm'.allLexical,
      Matching.allLexical_of_absorb absorb hargs hy⟩
  | tested here absorb =>
    obtain ⟨hh, hw, hp⟩ := h.statement _ here
    have hm' := Matching.lexical_of_absorb absorb hp.inner.matching hy
    exact h.withStatement ⟨hh, hw, hp.outer, hp.inner.withMatching hm',
      Matching.allLexical_of_absorb absorb hp.lexical hy, Matching.quiet_of_absorb absorb hp.quiet⟩
  | comment => exact h.comment hy
  | semicolon here => exact h.withoutStatement.add (h.statement _ here).close
  | blockStart here =>
    obtain ⟨hh, hw⟩ := h.statement _ here
    refine ⟨h.items, List.forall_mem_cons.2 ⟨⟨hh, hw, by simp, by simp⟩, h.blocks⟩, by simp [openBlock]⟩
  | testEnd here closed =>
    obtain ⟨hh, hw, hp⟩ := h.statement _ here
    refine ⟨h.items, List.forall_mem_cons.2 ⟨⟨hh, hw, ?_, by simp⟩, h.blocks⟩, by simp [openBlock]⟩
    rintro _ ⟨⟩
    exact hp.close
  | @blockEnd b bs free here =>
    have hblocks := h.blocks
    rw [here] at hblocks
    obtain ⟨hb, hbs⟩ := List.forall_mem_cons.1 hblocks
    have hs : Sound v { s with blocks := bs } := ⟨h.items, hbs, h.statement⟩
    exact hs.add hb.close
  | leftParen here =>
    obtain ⟨hh, hw, hp⟩ := h.statement _ here
    exact h.withStatement ⟨hh, hw, hp.outer, hp.inner, allLexical_nil, quiet_nil⟩
  | rightParen here group | comma here group =>
    obtain ⟨hh, hw, hp⟩ := h.statement _ here
    exact h.withStatement ⟨hh, hw, (hp.nearestGroup? group).toPath _⟩

theorem sound_empty : Sound v {} :=
  ⟨by simp, by simp, by simp⟩

/-- Reading symbols of a normalized text keeps what has been read sound. -/
theorem Sound.steps (hv : v.Blank) (h : s.Sound v) {ys : List Symbol} (hys : ∀ y ∈ ys, y.Lexical)
    (hs : State.steps v s ys = .ok s') : s'.Sound v := by
  fun_induction State.steps v s ys with
  | case1 s => cases hs; exact h
  | case2 s y ys s₁ h₁ ih =>
    obtain ⟨hy, hys⟩ := List.forall_mem_cons.1 hys
    obtain ⟨s₂, hr, heq⟩ := reads_of_step h₁
    have hsound := h.reads hv hy hr
    refine ih ?_ hys hs
    rw [heq]
    exact ⟨hsound.items, hsound.blocks, hsound.statement⟩
  | case3 => contradiction

theorem sound_closeBlocks {bs : List OpenBlock} (hbs : ∀ b ∈ bs, b.Sound v) {inner : Option Item}
    (hi : ∀ i ∈ inner, i.Sound v) : ∀ i ∈ closeBlocks inner bs, i.Sound v := by
  induction bs generalizing inner with
  | nil => exact hi
  | cons b bs ih =>
    obtain ⟨hb, hbs⟩ := List.forall_mem_cons.1 hbs
    refine ih hbs ?_
    rintro _ ⟨⟩
    refine OpenBlock.Sound.close ⟨hb.head, hb.word, hb.tests, List.forall_mem_append.2 ⟨hb.items, ?_⟩⟩
    exact fun i hi' => hi i (Option.mem_toList.1 hi')

theorem Sound.finish (h : s.Sound v) : ∀ i ∈ s.finish.items, i.Sound v := by
  refine List.forall_mem_append.2 ⟨h.items, fun i hi => ?_⟩
  refine sound_closeBlocks h.blocks ?_ i (Option.mem_toList.1 hi)
  intro j hj
  obtain ⟨c, hc, rfl⟩ := Option.map_eq_some_iff.1 hj
  exact (h.statement c hc).close

end State

/-- The script that reading gives is sound. -/
theorem Script.sound_of_read (hv : v.Blank) {name text : String} {s : Script}
    (h : read v name text = .ok s) : ∀ i ∈ s.items, i.Sound v := by
  obtain ⟨st, hst, rfl⟩ := read_eq_ok_iff.1 h
  have hlex := Token.lexical_of_mem_symbols (normalized_normalize text.toList)
  exact (State.sound_empty.steps hv hlex hst).finish

end SieveScript
