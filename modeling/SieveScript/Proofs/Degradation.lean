import Mathlib.Data.List.Forall2
import SieveScript.Proofs.Grammar
import SieveScript.Proofs.Noting
import SieveScript.Proofs.Soundness

/-!
# Reading with fewer capabilities

Where capabilities are taken away, words lose their definitions: actions and conditions become
placeholders, and all else stays. `Item.Degrades` says this of two trees, and `State.Degrades` of two
scripts that are partly read. The second script can always do what the first one does
(`State.Degrades.reads`), since a placeholder takes every argument, the arguments of a test are
absorbed by its matching alone, and what decides between a test and an action is what is open
around it. So the two readings go in step, and the narrower one notes no capability that the wider
one does not.
-/

namespace SieveScript

/-! ### Narrower vocabularies -/

namespace Vocabulary

/-- The vocabulary defines no word that the other one does not define in the same way, and of what
it lacks there are only actions and conditions. -/
structure Narrower (v' v : Vocabulary) : Prop where
  defined : ∀ {w d}, v'.meaning w = .defined d → v.meaning w = .defined d
  lost : ∀ {w d}, v.meaning w = .defined d → v'.meaning w = .unknown →
    (∃ a, d.prototype = .action a) ∨ ∃ c, d.prototype = .condition c

variable {v v' : Vocabulary} {w : String}

theorem narrower_ofCapabilities {caps caps' : List String} (h : caps' ⊆ caps) :
    (ofCapabilities caps').Narrower (ofCapabilities caps) := by
  constructor
  · intro w d hd
    have hw : w ∉ conditionalWords := fun hw => by
      rw [meaning_of_mem hw] at hd
      contradiction
    have hfind := find?_of_meaning hd
    rw [find?_ofCapabilities] at hfind
    obtain ⟨hall, hactive, hword⟩ := hfind
    have hwide : d.isActive caps = true := by
      simp only [Definition.isActive, List.all_eq_true, List.contains_iff_mem] at hactive ⊢
      exact fun c hc => h (hactive c hc)
    rw [meaning_of_not_mem hw, find?_ofCapabilities.2 ⟨hall, hwide, hword⟩]
  · intro w d hd hlost
    -- a negation or a group needs no capability, so it is never lost
    have hfixed : ∀ d ∈ Definition.all, d.requires = [] ∨
        d.prototype ≠ .negation ∧ d.prototype ≠ .group .all ∧ d.prototype ≠ .group .any := by
      decide
    have hfind := find?_of_meaning hd
    rw [find?_ofCapabilities] at hfind
    obtain ⟨hall, -, hword⟩ := hfind
    rcases hfixed d hall with hfree | ⟨hneg, hgall, hgany⟩
    · have hkept : (ofCapabilities caps').find? w = some d :=
        find?_ofCapabilities.2 ⟨hall, by simp [Definition.isActive, hfree], hword⟩
      have hw : w ∉ conditionalWords := fun hw => by
        rw [meaning_of_mem hw] at hd
        contradiction
      rw [meaning_of_not_mem hw, hkept] at hlost
      contradiction
    · cases hp : d.prototype with
      | action a => exact .inl ⟨a, rfl⟩
      | condition c => exact .inr ⟨c, rfl⟩
      | negation => exact absurd hp hneg
      | group c => cases c <;> contradiction

theorem Narrower.conditional (h : v.meaning w = .conditional) : v'.meaning w = .conditional :=
  meaning_of_mem (mem_of_meaning_eq_conditional h)

/-- What a word denotes stays, or the word is lost and stood for an action or a condition. -/
theorem Narrower.denotes (hv : v'.Narrower v) {p : Prototype} (h : v.Denotes w p) :
    v'.Denotes w p ∨ v'.meaning w = .unknown ∧ ((∃ a, p = .action a) ∨ ∃ c, p = .condition c) := by
  cases hm' : v'.meaning w with
  | conditional =>
    have hm : v.meaning w = .conditional := meaning_of_mem (mem_of_meaning_eq_conditional hm')
    rw [Denotes, hm] at h
    exact h.elim
  | defined d =>
    rw [Denotes, hv.defined hm'] at h
    exact .inl (by rw [Denotes, hm']; exact h)
  | unknown =>
    refine .inr ⟨rfl, ?_⟩
    cases hm : v.meaning w with
    | conditional =>
      rw [Denotes, hm] at h
      exact h.elim
    | defined d =>
      rw [Denotes, hm] at h
      rw [← h]
      exact hv.lost hm hm'
    | unknown =>
      rw [Denotes, hm] at h
      exact h.imp (fun h => ⟨_, h⟩) fun h => ⟨_, h⟩

end Vocabulary

/-! ### Trees -/

/-- The condition is the same, or the word is not known and a placeholder stands for it. -/
def Condition.Degrades (v : Vocabulary) (word : String) (c c' : Condition) : Prop :=
  c' = c ∨ v.meaning word = .unknown ∧ c'.isPlaceholder = true

/-- The action is the same, or the word is not known and a placeholder stands for it. -/
def Action.Degrades (v : Vocabulary) (word : String) (a a' : Action) : Prop :=
  a' = a ∨ v.meaning word = .unknown ∧ a'.isPlaceholder = true

/-- The tests differ only in conditions that have become placeholders. -/
inductive Test.Degrades (v : Vocabulary) : Test → Test → Prop
  | leaf {h : Head} {m : Matching} {c c' : Condition} (body : c.Degrades v h.word c') :
      Degrades v (leaf h m c) (leaf h m c')
  | negation {h : Head} {m : Matching} {t t' : Option Test} (inside : Option.Rel (Degrades v) t t') :
      Degrades v (negation h m t) (negation h m t')
  | group {h : Head} {m : Matching} {c : Connective} {ts ts' : List Test}
      (members : List.Forall₂ (Degrades v) ts ts') : Degrades v (group h m c ts) (group h m c ts')

/-- The items differ only in actions and conditions that have become placeholders. -/
inductive Item.Degrades (v : Vocabulary) : Item → Item → Prop
  | comment {c : Comment} : Degrades v (comment c) (comment c)
  | action {h : Head} {a a' : Action} (body : a.Degrades v h.word a') :
      Degrades v (action h a) (action h a')
  | conditional {h : Head} {t t' : Option Test} {is is' : List Item}
      (tests : Option.Rel (Test.Degrades v) t t') (items : List.Forall₂ (Degrades v) is is') :
      Degrades v (conditional h t is) (conditional h t' is')

/-! ### What is open -/

/-- The tests around are the same but for the finished members of groups. -/
inductive Enclosing.Degrades (v : Vocabulary) : Enclosing → Enclosing → Prop
  | negation {h : Head} {m : Matching} : Degrades v (negation h m) (negation h m)
  | group {h : Head} {m : Matching} {c : Connective} {ts ts' : List Test}
      (members : List.Forall₂ (Test.Degrades v) ts ts') : Degrades v (group h m c ts) (group h m c ts')

/-- The open tests are of the same kind, and their bodies or members degrade. -/
inductive OpenTest.Degrades (v : Vocabulary) : OpenTest → OpenTest → Prop
  | leaf {h : Head} {m : Matching} {c c' : Condition} (body : c.Degrades v h.word c') :
      Degrades v (leaf h m c) (leaf h m c')
  | negation {h : Head} {m : Matching} : Degrades v (negation h m) (negation h m)
  | group {h : Head} {m : Matching} {c : Connective} {p : Parens} {ts ts' : List Test}
      (members : List.Forall₂ (Test.Degrades v) ts ts') :
      Degrades v (group h m c p ts) (group h m c p ts')

/-- The paths lead through the same tests, and the same arguments wait. -/
structure TestPath.Degrades (v : Vocabulary) (p p' : TestPath) : Prop where
  outer : List.Forall₂ (Enclosing.Degrades v) p.outer p'.outer
  inner : p.inner.Degrades v p'.inner
  waiting : p'.waiting = p.waiting

/-- The groups degrade whatever becomes of their parentheses. -/
structure OpenGroup.Degrades (v : Vocabulary) (g g' : OpenGroup) : Prop where
  outer : List.Forall₂ (Enclosing.Degrades v) g.outer g'.outer
  inner : ∀ p, (g.toPath p).inner.Degrades v (g'.toPath p).inner

/-- An action that has become a placeholder may have more arguments waiting, since it absorbs none. -/
inductive Statement.Degrades (v : Vocabulary) : Statement → Statement → Prop
  | action {h : Head} {a : Action} {args : List Argument} :
      Degrades v (action h a args) (action h a args)
  | placeholder {h : Head} {a a' : Action} {args args' : List Argument}
      (word : v.meaning h.word = .unknown) (body : a'.isPlaceholder = true) :
      Degrades v (action h a args) (action h a' args')
  | conditional {h : Head} : Degrades v (conditional h) (conditional h)
  | testing {h : Head} {p p' : TestPath} (path : p.Degrades v p') :
      Degrades v (testing h p) (testing h p')

/-- The blocks belong to the same conditional, and what they hold degrades. -/
structure OpenBlock.Degrades (v : Vocabulary) (b b' : OpenBlock) : Prop where
  head : b'.head = b.head
  tests : Option.Rel (Test.Degrades v) b.test b'.test
  items : List.Forall₂ (Item.Degrades v) b.items b'.items

/-- What has been read degrades part by part. -/
structure State.Degrades (v : Vocabulary) (s t : State) : Prop where
  items : List.Forall₂ (Item.Degrades v) s.items t.items
  blocks : List.Forall₂ (OpenBlock.Degrades v) s.blocks t.blocks
  statement : Option.Rel (Statement.Degrades v) s.statement t.statement

variable {v : Vocabulary}

section
variable {α β : Type} {R : α → β → Prop}

theorem forall₂_concat {as : List α} {bs : List β} {a : α} {b : β} (h : List.Forall₂ R as bs)
    (hab : R a b) : List.Forall₂ R (as ++ [a]) (bs ++ [b]) :=
  List.rel_append h (.cons hab .nil)

theorem forall₂_toList {o : Option α} {o' : Option β} (h : Option.Rel R o o') :
    List.Forall₂ R o.toList o'.toList := by
  cases h with
  | none => exact .nil
  | some hab => exact .cons hab .nil

end

/-! ### Closing what is open -/

theorem Condition.Degrades.take {c c' : Condition} {w : String} (h : c.Degrades v w c')
    (args : List Argument) : (c.take.run args).1.Degrades v w (c'.take.run args).1 := by
  rcases h with rfl | ⟨hw, hc⟩
  · exact .inl rfl
  · exact .inr ⟨hw, (c'.isPlaceholder_take args).trans hc⟩

theorem Enclosing.Degrades.close {e e' : Enclosing} (h : e.Degrades v e') {t t' : Test}
    (ht : t.Degrades v t') : (e.close t).Degrades v (e'.close t') := by
  cases h with
  | negation => exact .negation (.some ht)
  | group members => exact .group (forall₂_concat members ht)

namespace OpenTest
variable {o o' : OpenTest}

theorem Degrades.head (h : o.Degrades v o') : o'.head = o.head := by
  cases h <;> rfl

theorem Degrades.matching (h : o.Degrades v o') : o'.matching = o.matching := by
  cases h <;> rfl

theorem Degrades.withMatching (h : o.Degrades v o') (m : Matching) :
    (o.withMatching m).Degrades v (o'.withMatching m) := by
  cases h with
  | leaf body => exact .leaf body
  | negation => exact .negation
  | group members => exact .group members

theorem Degrades.withHead (h : o.Degrades v o') {hd : Head} (hw : hd.word = o.head.word) :
    (o.withHead hd).Degrades v (o'.withHead hd) := by
  cases h with
  | leaf body => exact .leaf (hw.symm ▸ body)
  | negation => exact .negation
  | group members => exact .group members

theorem Degrades.enclose? (h : o.Degrades v o') :
    Option.Rel (Enclosing.Degrades v) o.enclose? o'.enclose? := by
  cases h with
  | leaf body => exact .none
  | negation => exact .some .negation
  | @group _ _ _ p _ _ members =>
    cases p with
    | opened => exact .some (.group members)
    | _ => exact .none

end OpenTest

namespace TestPath
variable {p p' : TestPath}

theorem Degrades.fill (h : p.Degrades v p') : p.fill.1.Degrades v p'.fill.1 := by
  obtain ⟨outer, inner, args⟩ := p
  obtain ⟨outer', inner', args'⟩ := p'
  obtain ⟨-, hi, rfl⟩ := h
  cases hi with
  | leaf body => exact .leaf (body.take args')
  | negation => exact .negation .none
  | group members => exact .group members

theorem degrades_foldl_close {outer outer' : List Enclosing}
    (ho : List.Forall₂ (Enclosing.Degrades v) outer outer') {t t' : Test} (ht : t.Degrades v t') :
    (outer.foldl (fun t e => e.close t) t).Degrades v (outer'.foldl (fun t e => e.close t) t') := by
  induction ho generalizing t t' with
  | nil => exact ht
  | cons he _ ih => exact ih (he.close ht)

theorem Degrades.close (h : p.Degrades v p') : p.close.Degrades v p'.close :=
  degrades_foldl_close h.outer h.fill

theorem degrades_climb {outer outer' : List Enclosing}
    (ho : List.Forall₂ (Enclosing.Degrades v) outer outer') {t t' : Test} (ht : t.Degrades v t')
    {g : OpenGroup} (hg : climb t outer = some g) :
    ∃ g', climb t' outer' = some g' ∧ g.Degrades v g' := by
  induction ho generalizing t t' with
  | nil => contradiction
  | cons he ho ih =>
    cases he with
    | negation => exact ih (.negation (.some ht)) hg
    | group members =>
      cases hg
      exact ⟨_, rfl, ho, fun _ => .group (forall₂_concat members ht)⟩

theorem Degrades.nearestGroup? (h : p.Degrades v p') {g : OpenGroup} (hg : p.nearestGroup? = some g) :
    ∃ g', p'.nearestGroup? = some g' ∧ g.Degrades v g' := by
  obtain ⟨outer, inner, args⟩ := p
  obtain ⟨outer', inner', args'⟩ := p'
  have hfill := h.fill
  obtain ⟨ho, hi, rfl⟩ := h
  cases hi with
  | leaf body => exact degrades_climb ho hfill hg
  | negation => exact degrades_climb ho hfill hg
  | @group _ _ _ ps _ _ members =>
    cases ps with
    | opened =>
      cases hg
      exact ⟨_, rfl, ho, fun _ => .group members⟩
    | _ => exact degrades_climb ho hfill hg

theorem Degrades.hasOpenGroup (h : p.Degrades v p') : p'.hasOpenGroup = p.hasOpenGroup := by
  have hpath : List.Forall₂ (Enclosing.Degrades v) (p.inner.enclose?.toList ++ p.outer)
      (p'.inner.enclose?.toList ++ p'.outer) :=
    List.rel_append (forall₂_toList h.inner.enclose?) h.outer
  rw [TestPath.hasOpenGroup, TestPath.hasOpenGroup]
  generalize p.inner.enclose?.toList ++ p.outer = es at hpath
  generalize p'.inner.enclose?.toList ++ p'.outer = es' at hpath
  induction hpath with
  | nil => rfl
  | cons he _ ih => cases he <;> simp [ih]

end TestPath

theorem OpenGroup.Degrades.toPath {g g' : OpenGroup} (h : g.Degrades v g') (ps : Parens) :
    (g.toPath ps).Degrades v (g'.toPath ps) :=
  ⟨h.outer, h.inner ps, rfl⟩

theorem Statement.Degrades.close {c c' : Statement} (h : c.Degrades v c') :
    c.close.Degrades v c'.close := by
  cases h with
  | action => exact .action (.inl rfl)
  | @placeholder _ _ a' _ args' word body =>
    exact .action (.inr ⟨word, (a'.isPlaceholder_take args').trans body⟩)
  | conditional => exact .conditional .none .nil
  | testing path => exact .conditional (.some path.close) .nil

theorem OpenBlock.Degrades.close {b b' : OpenBlock} (h : b.Degrades v b') :
    b.close.Degrades v b'.close := by
  obtain ⟨hd, test, items⟩ := b
  obtain ⟨hd', test', items'⟩ := b'
  obtain ⟨rfl, ht, hi⟩ := h
  exact .conditional ht hi

/-! ### One symbol -/

namespace State
variable {v' : Vocabulary} {s s₁ s' t : State}

theorem Degrades.withStatement (h : s.Degrades v t) {c c' : Statement} (hc : c.Degrades v c') :
    { s with statement := some c }.Degrades v { t with statement := some c' } :=
  ⟨h.items, h.blocks, .some hc⟩

theorem Degrades.withoutStatement (h : s.Degrades v t) :
    { s with statement := none }.Degrades v { t with statement := none } :=
  ⟨h.items, h.blocks, .none⟩

theorem Degrades.add (h : s.Degrades v t) {i i' : Item} (hi : i.Degrades v i') :
    (s.add i).Degrades v (t.add i') := by
  obtain ⟨items, blocks, st, rs⟩ := s
  obtain ⟨items', blocks', st', rs'⟩ := t
  obtain ⟨his, hbs, hst⟩ := h
  cases hbs with
  | nil => exact ⟨forall₂_concat his hi, .nil, hst⟩
  | cons hb hbs => exact ⟨his, .cons ⟨hb.head, hb.tests, forall₂_concat hb.items hi⟩ hbs, hst⟩

theorem Degrades.openBlock (h : s.Degrades v t) {hd : Head} {o o' : Option Test}
    (ho : Option.Rel (Test.Degrades v) o o') : (s.openBlock hd o).Degrades v (t.openBlock hd o') :=
  ⟨h.items, .cons ⟨rfl, ho, .nil⟩ h.blocks, .none⟩

theorem Degrades.free (h : s.Degrades v t) (hs : s.statement = none) : t.statement = none := by
  have hst := h.statement
  rw [hs] at hst
  cases ht : t.statement with
  | none => rfl
  | some c => rw [ht] at hst; cases hst

theorem Degrades.acting (h : s.Degrades v t) {hd : Head} {a : Action} {args : List Argument}
    (hs : s.statement = some (.action hd a args)) :
    t.statement = some (.action hd a args) ∨ v.meaning hd.word = .unknown ∧
      ∃ a' args', a'.isPlaceholder = true ∧ t.statement = some (.action hd a' args') := by
  have hst := h.statement
  rw [hs] at hst
  generalize t.statement = st at hst
  cases hst with
  | some hc =>
    cases hc with
    | action => exact .inl rfl
    | placeholder word body => exact .inr ⟨word, _, _, body, rfl⟩

theorem Degrades.conditional (h : s.Degrades v t) {hd : Head}
    (hs : s.statement = some (.conditional hd)) : t.statement = some (.conditional hd) := by
  have hst := h.statement
  rw [hs] at hst
  generalize t.statement = st at hst
  cases hst with
  | some hc => cases hc; rfl

theorem Degrades.testing (h : s.Degrades v t) {hd : Head} {p : TestPath}
    (hs : s.statement = some (.testing hd p)) :
    ∃ p', t.statement = some (.testing hd p') ∧ p.Degrades v p' := by
  have hst := h.statement
  rw [hs] at hst
  generalize t.statement = st at hst
  cases hst with
  | some hc =>
    cases hc with
    | testing path => exact ⟨_, rfl, path⟩

theorem Degrades.slot? (h : s.Degrades v t) {hd : Head} {outer : List Enclosing}
    (hs : s.slot? = some (hd, outer)) :
    ∃ outer', t.slot? = some (hd, outer') ∧ List.Forall₂ (Enclosing.Degrades v) outer outer' := by
  rw [State.slot?] at hs
  split at hs
  next hst =>
    cases hs
    exact ⟨[], by rw [State.slot?, h.conditional hst], .nil⟩
  next p hst =>
    obtain ⟨e, he, heq⟩ := Option.map_eq_some_iff.1 hs
    cases heq
    obtain ⟨p', hst', hp⟩ := h.testing hst
    have hrel := hp.inner.enclose?
    rw [he] at hrel
    cases he' : p'.inner.enclose? with
    | none => rw [he'] at hrel; cases hrel
    | some e' =>
      rw [he'] at hrel
      cases hrel with
      | some hee' => exact ⟨e' :: p'.outer, by rw [State.slot?, hst']; simp [he'], .cons hee' hp.outer⟩
  · contradiction

theorem Degrades.comment (h : s.Degrades v t) (c : Comment) :
    (s.comment c).Degrades v (t.comment c) := by
  cases hs : s.statement with
  | none =>
    rw [State.comment, State.comment, hs, h.free hs]
    exact h.add .comment
  | some st =>
    cases st with
    | action hd a args =>
      rcases h.acting hs with ht | ⟨hw, a', args', ha, ht⟩
      · rw [State.comment, State.comment, hs, ht]
        exact h.withStatement .action
      · rw [State.comment, State.comment, hs, ht]
        exact h.withStatement (.placeholder hw ha)
    | conditional hd =>
      rw [State.comment, State.comment, hs, h.conditional hs]
      exact h.withStatement .conditional
    | testing hd p =>
      obtain ⟨p', ht, hp⟩ := h.testing hs
      rw [State.comment, State.comment, hs, ht]
      have hhead : (attach c p.inner.head).word = p.inner.head.word := rfl
      refine h.withStatement (.testing ⟨hp.outer, ?_, hp.waiting⟩)
      rw [hp.inner.head]
      exact hp.inner.withHead hhead

theorem matching?_of_isPlaceholder {a : Action} (h : a.isPlaceholder = true) : a.matching? = none := by
  cases a <;> first | contradiction | rfl

theorem degrades_openTest? {w : String} {p : Prototype} {o : OpenTest} (h : p.openTest? w = some o) :
    o.Degrades v o := by
  cases p with
  | action a => contradiction
  | condition c =>
    cases h
    exact .leaf (.inl rfl)
  | negation =>
    cases h
    exact .negation
  | group c =>
    cases h
    exact .group .nil

theorem Degrades.innerBlock (h : s.Degrades v t) {b : OpenBlock} {bs : List OpenBlock}
    (hs : s.blocks = b :: bs) :
    ∃ b' bs', t.blocks = b' :: bs' ∧ b.Degrades v b' ∧
      Degrades v { s with blocks := bs } { t with blocks := bs' } := by
  have hblocks := h.blocks
  rw [hs] at hblocks
  obtain ⟨b', bs', hb, hbs, ht⟩ := List.forall₂_cons_left_iff.1 hblocks
  exact ⟨b', bs', ht, hb, h.items, hbs, h.statement⟩

/-- With fewer definitions the same symbol does the same, up to placeholders. -/
theorem Degrades.reads (hv : v'.Narrower v) (h : s.Degrades v' t) {y : Symbol}
    (hr : Reads v s y s₁) : ∃ t₁, Reads v' t y t₁ ∧ s₁.Degrades v' t₁ := by
  cases hr with
  | conditional word free =>
    exact ⟨_, .conditional (Vocabulary.Narrower.conditional word) (h.free free),
      h.withStatement .conditional⟩
  | @action w a word free =>
    rcases hv.denotes word with hw | ⟨hw, -⟩
    · exact ⟨_, .action hw (h.free free), h.withStatement .action⟩
    · have hplaceholder : v'.Denotes w (.action (.placeholder [])) :=
        Vocabulary.denotes_placeholder hw false
      exact ⟨_, .action hplaceholder (h.free free), h.withStatement (.placeholder hw rfl)⟩
  | @test w p o hd outer word opens slot =>
    obtain ⟨outer', hslot, ho⟩ := h.slot? slot
    rcases hv.denotes word with hw | ⟨hw, ⟨a, rfl⟩ | ⟨c, rfl⟩⟩
    · have ho' : o.Degrades v' o := degrades_openTest? opens
      exact ⟨_, .test hw opens hslot, h.withStatement (.testing ⟨ho, ho', rfl⟩)⟩
    · contradiction
    · cases opens
      have hplaceholder : v'.Denotes w (.condition (.placeholder [])) :=
        Vocabulary.denotes_placeholder hw true
      exact ⟨_, .test hplaceholder rfl hslot,
        h.withStatement (.testing ⟨ho, .leaf (.inr ⟨hw, rfl⟩), rfl⟩)⟩
  | argument here plain =>
    rcases h.acting here with ht | ⟨hw, a', args', ha, ht⟩
    · exact ⟨_, .argument ht plain, h.withStatement .action⟩
    · exact ⟨_, .argument ht (matching?_of_isPlaceholder ha), h.withStatement (.placeholder hw ha)⟩
  | absorbed here matching absorb =>
    rcases h.acting here with ht | ⟨hw, a', args', ha, ht⟩
    · exact ⟨_, .absorbed ht matching absorb, h.withStatement .action⟩
    · exact ⟨_, .argument ht (matching?_of_isPlaceholder ha), h.withStatement (.placeholder hw ha)⟩
  | @tested hd p args b m' need here absorb =>
    obtain ⟨p', ht, hp⟩ := h.testing here
    have habsorb : p'.inner.matching.absorb p'.waiting b = .ok (m', args, need) := by
      rw [hp.inner.matching, hp.waiting]
      exact absorb
    exact ⟨_, .tested ht habsorb,
      h.withStatement (.testing ⟨hp.outer, hp.inner.withMatching m', rfl⟩)⟩
  | comment => exact ⟨_, .comment, h.comment _⟩
  | semicolon here =>
    rcases h.acting here with ht | ⟨hw, a', args', ha, ht⟩
    · exact ⟨_, .semicolon ht, h.withoutStatement.add (.action (.inl rfl))⟩
    · refine ⟨_, .semicolon ht, h.withoutStatement.add (.action (.inr ⟨hw, ?_⟩))⟩
      exact (a'.isPlaceholder_take args').trans ha
  | blockStart here => exact ⟨_, .blockStart (h.conditional here), h.openBlock .none⟩
  | testEnd here closed =>
    obtain ⟨p', ht, hp⟩ := h.testing here
    exact ⟨_, .testEnd ht (hp.hasOpenGroup.trans closed), h.openBlock (.some hp.close)⟩
  | @blockEnd b bs free here =>
    obtain ⟨b', bs', ht, hb, hrest⟩ := h.innerBlock here
    exact ⟨_, .blockEnd (h.free free) ht, hrest.add hb.close⟩
  | @leftParen hd g outer m c ts args here =>
    obtain ⟨⟨outer', inner', args'⟩, ht, ho, hi, -⟩ := h.testing here
    cases hi with
    | group members => exact ⟨_, .leftParen ht, h.withStatement (.testing ⟨ho, .group members, rfl⟩)⟩
  | rightParen here group =>
    obtain ⟨p', ht, hp⟩ := h.testing here
    obtain ⟨g', hg', hg⟩ := hp.nearestGroup? group
    exact ⟨_, .rightParen ht hg', h.withStatement (.testing (hg.toPath _))⟩
  | comma here group =>
    obtain ⟨p', ht, hp⟩ := h.testing here
    obtain ⟨g', hg', hg⟩ := hp.nearestGroup? group
    exact ⟨_, .comma ht hg', h.withStatement (.testing (hg.toPath _))⟩

theorem declares_take_of_isPlaceholder {h : Head} {a : Action} {args : List Argument}
    (ha : a.isPlaceholder = true) : (Statement.action h a args).close.declares = [] := by
  cases a <;> first | contradiction | rfl

/-- With fewer definitions a symbol notes no more. -/
theorem Degrades.notes_subset (hv : v'.Narrower v) (h : s.Degrades v' t) (y : Symbol) :
    t.notes v' y ⊆ s.notes v y := by
  cases y with
  | word w =>
    cases hm : v'.meaning w with
    | defined d =>
      rw [notes, notes, hm, hv.defined hm]
      exact List.Subset.refl _
    | _ => simp [notes, hm]
  | argument a =>
    rw [notes, notes, matcher?, matcher?]
    cases hs : s.statement with
    | none => simp [h.free hs]
    | some st =>
      cases st with
      | action hd b args =>
        rcases h.acting hs with ht | ⟨hw, b', args', hb, ht⟩
        · rw [ht]
          exact List.Subset.refl _
        · simp [ht, matching?_of_isPlaceholder hb]
      | conditional hd => simp [h.conditional hs]
      | testing hd p =>
        obtain ⟨p', ht, hp⟩ := h.testing hs
        rw [ht]
        simp only [hp.inner.matching, hp.waiting]
        exact List.Subset.refl _
  | semicolon =>
    rw [notes, notes]
    cases hs : s.statement with
    | none => simp [h.free hs]
    | some st =>
      cases st with
      | action hd b args =>
        rcases h.acting hs with ht | ⟨hw, b', args', hb, ht⟩
        · rw [ht]
          exact List.Subset.refl _
        · simp [ht, declares_take_of_isPlaceholder hb]
      | conditional hd => simp [h.conditional hs]
      | testing hd p =>
        obtain ⟨p', ht, hp⟩ := h.testing hs
        simp [ht, Statement.close, Item.declares]
  | _ => exact List.nil_subset _

/-- A step that `Reads` lists is taken. -/
theorem Reads.exists_step {y : Symbol} (h : Reads v s y s₁) :
    ∃ r, s.step v y = .ok { s₁ with requires := r } := by
  obtain ⟨r, hr⟩ := h.leads s.requires
  refine ⟨r, ?_⟩
  rw [steps] at hr
  split at hr
  next s₂ h₂ =>
    cases hr
    exact h₂
  · contradiction

/-! ### A whole script -/

/-- With fewer definitions the same symbols are read, and no more capabilities are noted. -/
theorem Degrades.steps (hv : v'.Narrower v) (h : s.Degrades v' t) (hreq : t.requires ⊆ s.requires)
    {ys : List Symbol} (hs : State.steps v s ys = .ok s') :
    ∃ t', State.steps v' t ys = .ok t' ∧ s'.Degrades v' t' ∧ t'.requires ⊆ s'.requires := by
  fun_induction State.steps v s ys generalizing t with
  | case1 s =>
    cases hs
    exact ⟨t, rfl, h, hreq⟩
  | case2 s y ys s₂ h₂ ih =>
    obtain ⟨s₁, hr, heq⟩ := reads_of_step h₂
    obtain ⟨t₁, hr', h₁⟩ := h.reads hv hr
    obtain ⟨r, ht⟩ := hr'.exists_step
    have hdeg : s₂.Degrades v' { t₁ with requires := r } := by
      rw [heq]
      exact ⟨h₁.items, h₁.blocks, h₁.statement⟩
    have hsub : r ⊆ s₂.requires := by
      intro c hc
      rw [mem_requires_of_step h₂]
      rcases (mem_requires_of_step ht).1 hc with hc | hc
      · exact .inl (hreq hc)
      · exact .inr (h.notes_subset hv y hc)
    obtain ⟨t', hsteps, ht'⟩ := ih hdeg hsub hs
    exact ⟨t', (steps_cons_of_ok ht).trans hsteps, ht'⟩
  | case3 => contradiction

theorem degrades_closeBlocks {bs bs' : List OpenBlock}
    (hbs : List.Forall₂ (OpenBlock.Degrades v) bs bs') {i i' : Option Item}
    (hi : Option.Rel (Item.Degrades v) i i') :
    Option.Rel (Item.Degrades v) (closeBlocks i bs) (closeBlocks i' bs') := by
  induction hbs generalizing i i' with
  | nil => exact hi
  | cons hb _ ih =>
    exact ih (.some (OpenBlock.Degrades.close
      ⟨hb.head, hb.tests, List.rel_append hb.items (forall₂_toList hi)⟩))

theorem Degrades.finish (h : s.Degrades v t) :
    List.Forall₂ (Item.Degrades v) s.finish.items t.finish.items := by
  have hst : Option.Rel (Item.Degrades v) (s.statement.map Statement.close)
      (t.statement.map Statement.close) := by
    have hrel := h.statement
    generalize s.statement = c at hrel ⊢
    generalize t.statement = c' at hrel ⊢
    cases hrel with
    | none => exact .none
    | some hc => exact .some hc.close
  exact List.rel_append h.items (forall₂_toList (degrades_closeBlocks h.blocks hst))

end State

/-- A script that is read with some capabilities is read with fewer: its nodes, words, comments and
matchings are the same, bodies become placeholders only where a word is not known any more, and it
needs no capability that it did not need before. -/
theorem Script.parse_degrades {caps caps' : List String} (hcaps : caps' ⊆ caps) {name text : String}
    {s : Script} (h : parse caps name text = .ok s) :
    ∃ s', parse caps' name text = .ok s' ∧
      List.Forall₂ (Item.Degrades (.ofCapabilities caps')) s.items s'.items ∧
      s'.requires ⊆ s.requires := by
  obtain ⟨st, hst, rfl⟩ := read_eq_ok_iff.1 h
  have hempty : State.Degrades (.ofCapabilities caps') {} {} := ⟨.nil, .nil, .none⟩
  obtain ⟨st', hst', hdeg, hreq⟩ :=
    hempty.steps (Vocabulary.narrower_ofCapabilities hcaps) (List.Subset.refl _) hst
  exact ⟨st'.finish, read_eq_ok_iff.2 ⟨st', hst', rfl⟩, hdeg.finish, hreq⟩

/-- An instance in which a test with a match type loses its word, and an action with one keeps it. -/
theorem Script.parse_degrades_envelope :
    let text := "if envelope :regex \"to\" \"x\" \x7b deleteheader :contains \"X\"; \x7d"
    let s : Script := {
      items := [.conditional { word := "if" }
        (some (.leaf { word := "envelope" } { matchType := some .regex }
          (.envelope { headers := ["to"], keys := ["x"] })))
        [.action { word := "deleteheader" }
          (.deleteHeader { matching := { matchType := some .contains }, field := "X" })]]
      requires := ["envelope", "regex", "editheader"] }
    ["editheader"] ⊆ ["envelope", "editheader"] ∧
      parse ["envelope", "editheader"] "" text = .ok s ∧
      ∃ s', parse ["editheader"] "" text = .ok s' ∧
        List.Forall₂ (Item.Degrades (.ofCapabilities ["editheader"])) s.items s'.items ∧
        s'.requires ⊆ s.requires := by
  intro text s
  have hcaps : ["editheader"] ⊆ ["envelope", "editheader"] := by decide
  have h : parse ["envelope", "editheader"] "" text = .ok s := by decide +kernel
  exact ⟨hcaps, h, parse_degrades hcaps h⟩

end SieveScript
