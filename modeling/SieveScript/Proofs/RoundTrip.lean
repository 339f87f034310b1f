import SieveScript.Proofs.Soundness

/-!
# Reading what was written

The symbols of a sound test, read where a test may stand, end inside the last of its tests that has
no closing parenthesis: the negations around it are still open (`TestPath.Ends`). The symbols of a
sound item, read where a command may stand, add the item (`State.leads_item`). So a script that was
read and written is read again with the same items.
-/

namespace SieveScript

open Argument

/-! ### Where a test ends -/

/-- The path has come to the end of a test inside the given ones: only negations are open between. -/
structure TestPath.Ends (outer : List Enclosing) (t : Test) (p : TestPath) : Prop where
  negations : ∃ negs : List Enclosing, p.outer = negs ++ outer ∧
    (∀ e ∈ negs, ∃ h m, e = .negation h m) ∧ negs.foldl (fun t e => e.close t) p.fill.1 = t
  closed : ∀ h m c ts, p.inner ≠ .group h m c .opened ts

namespace TestPath
variable {outer : List Enclosing} {t : Test} {p : TestPath}

theorem ends_of_fill {inner : OpenTest} {args : List Argument}
    (ht : (inner.toTest.take.run args).1 = t) (hc : ∀ h m c ts, inner ≠ .group h m c .opened ts) :
    Ends outer t { outer, inner, waiting := args } :=
  ⟨⟨[], rfl, by simp, ht⟩, hc⟩

theorem Ends.negation {h : Head} {m : Matching} (hp : Ends (.negation h m :: outer) t p) :
    Ends outer (.negation h m (some t)) p := by
  obtain ⟨⟨negs, ho, hn, rfl⟩, hc⟩ := hp
  refine ⟨⟨negs ++ [.negation h m], by rw [ho, List.append_assoc]; rfl, ?_, ?_⟩, hc⟩
  · exact List.forall_mem_append.2 ⟨hn, List.forall_mem_singleton.2 ⟨h, m, rfl⟩⟩
  · rw [List.foldl_append]
    rfl

theorem Ends.close (hp : Ends [] t p) : p.close = t := by
  obtain ⟨⟨negs, ho, -, rfl⟩, -⟩ := hp
  rw [TestPath.close, ho, List.append_nil]

theorem Ends.hasOpenGroup (hp : Ends [] t p) : p.hasOpenGroup = false := by
  obtain ⟨⟨negs, ho, hn, -⟩, hc⟩ := hp
  have hneg : ∀ e ∈ p.inner.enclose?.toList ++ p.outer, ∃ h m, e = Enclosing.negation h m := by
    rw [ho, List.append_nil]
    refine List.forall_mem_append.2 ⟨fun e he => ?_, hn⟩
    rw [Option.mem_toList, OpenTest.enclose?.eq_def] at he
    split at he
    next hi => exact ⟨_, _, (Option.some.inj he).symm⟩
    next hi => exact absurd hi (hc _ _ _ _)
    · contradiction
  rw [TestPath.hasOpenGroup, List.any_eq_false]
  intro e he
  obtain ⟨h, m, rfl⟩ := hneg e he
  simp

theorem climb_negations {negs : List Enclosing} (hn : ∀ e ∈ negs, ∃ h m, e = .negation h m) :
    climb t (negs ++ outer) = climb (negs.foldl (fun t e => e.close t) t) outer := by
  induction negs generalizing t with
  | nil => rfl
  | cons e negs ih =>
    obtain ⟨h, m, rfl⟩ := hn e (by simp)
    exact ih fun e he => hn e (by simp [he])

theorem Ends.nearestGroup? {h : Head} {m : Matching} {c : Connective} {ts : List Test}
    (hp : Ends (.group h m c ts :: outer) t p) :
    p.nearestGroup? = some { outer, head := h, matching := m, connective := c, members := ts ++ [t] } := by
  obtain ⟨⟨negs, ho, hn, rfl⟩, hc⟩ := hp
  rw [TestPath.nearestGroup?]
  split
  next hi => exact absurd hi (hc _ _ _ _)
  · rw [ho, climb_negations hn]
    rfl

end TestPath

/-! ### Reading a test again -/

namespace State
variable {v : Vocabulary} {s : State}

theorem leads_comments (cs : List Comment) :
    Leads v s (cs.map .comment) (cs.foldl State.comment s) := by
  induction cs generalizing s with
  | nil => exact .nil
  | cons c cs ih => exact Reads.comment.leads.trans ih

theorem foldl_attach (cs : List Comment) (h : Head) :
    cs.foldl (fun h c => attach c h) h = { h with comments := h.comments ++ cs } := by
  induction cs generalizing h with
  | nil => rw [List.append_nil]; rfl
  | cons c cs ih =>
    rw [List.foldl_cons, ih, attach, List.append_assoc]
    rfl

theorem foldl_comment_testing {h : Head} {p : TestPath} (cs : List Comment) :
    cs.foldl State.comment (s.testing h p) = s.testing h
      { p with inner := p.inner.withHead (cs.foldl (fun h c => attach c h) p.inner.head) } := by
  induction cs generalizing p with
  | nil =>
    have hid : p.inner.withHead p.inner.head = p.inner := by cases p.inner <;> rfl
    rw [List.foldl_nil, List.foldl_nil, hid]
  | cons c cs ih =>
    have hhead : ∀ h, (p.inner.withHead h).head = h := fun h => by cases p.inner <;> rfl
    have htwice : ∀ h h', (p.inner.withHead h).withHead h' = p.inner.withHead h' := fun h h' => by
      cases p.inner <;> rfl
    refine ih.trans ?_
    rw [List.foldl_cons, hhead, htwice]

/-- Reading a word and comments where a test may stand opens the test with the comments attached. -/
theorem leads_test_head {h hd : Head} {outer : List Enclosing} (hs : s.slot? = some (h, outer))
    {p : Prototype} (hw : v.Denotes hd.word p) {t : OpenTest} (ht : p.openTest? hd.word = some t) :
    Leads v s hd.symbols (s.testing h { outer, inner := t.withHead hd }) := by
  have hword := (Reads.test hw ht hs).leads
  refine (hword.trans (leads_comments hd.comments)).congr rfl ?_
  have hhead : t.head = { word := hd.word } := by
    cases p <;> first | contradiction | (cases ht; rfl)
  refine (foldl_comment_testing hd.comments).trans ?_
  rw [foldl_attach, hhead]
  rfl

theorem leads_test_arguments {h : Head} {p : TestPath} {as ws : List Argument} {m : Matching}
    (ha : p.inner.matching.absorbAll p.waiting as = .ok (m, ws)) :
    Leads v (s.testing h p) (as.map .argument)
      (s.testing h { p with inner := p.inner.withMatching m, waiting := ws }) := by
  induction as generalizing p with
  | nil =>
    cases ha
    have hid : p.inner.withMatching p.inner.matching = p.inner := by cases p.inner <;> rfl
    rw [hid]
    exact .nil
  | cons a as ih =>
    rw [Matching.absorbAll] at ha
    split at ha
    next m₁ ws₁ need hab =>
      have hmatching : (p.inner.withMatching m₁).matching = m₁ := by cases p.inner <;> rfl
      have htwice : (p.inner.withMatching m₁).withMatching m = p.inner.withMatching m := by
        cases p.inner <;> rfl
      have hstep : Leads v (s.testing h p) [.argument a]
          (s.testing h { p with inner := p.inner.withMatching m₁, waiting := ws₁ }) :=
        (Reads.tested rfl hab).leads
      have hrest := hstep.trans (ih (by rw [hmatching]; exact ha))
      rwa [htwice] at hrest
    · contradiction

/-- Reading a word, comments, a matching and quiet arguments where a test may stand. -/
theorem leads_test_start {h hd : Head} {outer : List Enclosing} (hs : s.slot? = some (h, outer))
    {p : Prototype} (hw : v.Denotes hd.word p) {t : OpenTest} (ht : p.openTest? hd.word = some t)
    (m : Matching) {as : List Argument} (ha : Quiet as) :
    Leads v s (hd.symbols ++ m.symbols ++ as.map .argument)
      (s.testing h { outer, inner := (t.withHead hd).withMatching m, waiting := as }) := by
  have hmatching : (t.withHead hd).matching = {} := by
    cases p <;> first | contradiction | (cases ht; rfl)
  have hargs := leads_test_arguments (v := v) (s := s) (h := h) (p := { outer, inner := t.withHead hd })
    (by rw [hmatching]; exact Matching.absorbAll_arguments (m := m) ha)
  exact ((leads_test_head hs hw ht).trans hargs).congr (by simp [Matching.symbols]) rfl

/-- The test is read to its end wherever a test may stand. -/
def ReadsBack (v : Vocabulary) (t : Test) : Prop :=
  ∀ {s : State} {h : Head} {outer : List Enclosing}, s.slot? = some (h, outer) →
    ∃ p, Leads v s t.symbols (s.testing h p) ∧ p.Ends outer t

/-- What stands behind a test of a group is read up to the closing parenthesis. -/
theorem leads_more {h hd : Head} {m : Matching} {c : Connective} {outer : List Enclosing}
    {ts : List Test} (hts : ∀ t ∈ ts, ReadsBack v t) {done : List Test} {t : Test} {p : TestPath}
    (hp : p.Ends (.group hd m c done :: outer) t) :
    Leads v (s.testing h p) (Test.symbolsMore ts ++ [.rightParen])
      (s.testing h { outer, inner := .group hd m c .closed (done ++ t :: ts) }) := by
  induction ts generalizing done t p with
  | nil => exact (Reads.rightParen rfl hp.nearestGroup?).leads
  | cons t' ts ih =>
    have hcomma : Leads v (s.testing h p) [.comma]
        (s.testing h { outer, inner := .group hd m c .opened (done ++ [t]) }) :=
      (Reads.comma rfl hp.nearestGroup?).leads
    obtain ⟨p', htest, hp'⟩ := hts t' (by simp)
      (s := s.testing h { outer, inner := .group hd m c .opened (done ++ [t]) }) rfl
    have hrest := ih (fun u hu => hts u (by simp [hu])) hp'
    refine ((hcomma.trans htest).trans hrest).congr (by simp [Test.symbolsMore]) ?_
    rw [List.append_assoc]
    rfl

/-- A sound test is read to its end wherever a test may stand. -/
theorem readsBack_of_sound {t : Test} (ht : t.Sound v) : ReadsBack v t := by
  induction ht with
  | @leaf hd m c head matching word lexical quiet =>
    intro s h outer hs
    have hfill : ((OpenTest.leaf hd m c.blank).toTest.take.run c.arguments).1 = .leaf hd m c := by
      simp [OpenTest.toTest, Test.take, Condition.take_arguments]
    exact ⟨_, leads_test_start hs word rfl m quiet, TestPath.ends_of_fill hfill (by rintro _ _ _ _ ⟨⟩)⟩
  | @negation hd m inner head matching word inside ih =>
    intro s h outer hs
    have hstart := leads_test_start hs word rfl m quiet_nil
    cases inner with
    | none => exact ⟨_, hstart, TestPath.ends_of_fill rfl (by rintro _ _ _ _ ⟨⟩)⟩
    | some t =>
      obtain ⟨p, htest, hp⟩ := ih t rfl (s := s.testing h { outer, inner := .negation hd m }) rfl
      refine ⟨p, (hstart.trans htest).congr ?_ rfl, hp.negation⟩
      simp [Test.symbols, Test.symbolsOption]
  | @group hd m c ts head matching word members ih =>
    intro s h outer hs
    have hparen : Leads v (s.testing h { outer, inner := .group hd m c .missing [] }) [.leftParen]
        (s.testing h { outer, inner := .group hd m c .opened [] }) := (Reads.leftParen rfl).leads
    have hopen := (leads_test_start hs word rfl m quiet_nil).trans hparen
    refine ⟨{ outer, inner := .group hd m c .closed ts }, ?_, TestPath.ends_of_fill rfl (by simp)⟩
    cases ts with
    | nil =>
      have hclose : Leads v (s.testing h { outer, inner := .group hd m c .opened [] }) [.rightParen]
          (s.testing h { outer, inner := .group hd m c .closed [] }) :=
        (Reads.rightParen (g := ⟨outer, hd, m, c, []⟩) rfl rfl).leads
      exact (hopen.trans hclose).congr (by simp [Test.symbols, Test.symbolsMembers]) rfl
    | cons t ts =>
      obtain ⟨p, htest, hp⟩ := ih t (by simp)
        (s := s.testing h { outer, inner := .group hd m c .opened [] }) rfl
      have hts : ∀ u ∈ ts, ReadsBack v u := fun u hu => ih u (by simp [hu])
      have hmore := leads_more (s := s) (h := h) hts hp
      exact ((hopen.trans htest).trans hmore).congr (by simp [Test.symbols, Test.symbolsMembers]) rfl

/-! ### Reading items again -/

/-- The state with an action being read. -/
def acting (s : State) (h : Head) (a : Action) (args : List Argument) : State :=
  { s with statement := some (.action h a args) }

theorem foldl_comment_acting {h : Head} {a : Action} {args : List Argument} (cs : List Comment) :
    cs.foldl State.comment (s.acting h a args) =
      s.acting (cs.foldl (fun h c => attach c h) h) a args := by
  induction cs generalizing h with
  | nil => rfl
  | cons c cs ih => exact ih

theorem foldl_comment_conditional {h : Head} (cs : List Comment) :
    cs.foldl State.comment { s with statement := some (.conditional h) } =
      { s with statement := some (.conditional (cs.foldl (fun h c => attach c h) h)) } := by
  induction cs generalizing h with
  | nil => rfl
  | cons c cs ih => exact ih

theorem leads_plain_arguments {h : Head} {a : Action} (hm : a.matching? = none)
    {ws : List Argument} (as : List Argument) :
    Leads v (s.acting h a ws) (as.map .argument) (s.acting h a (ws ++ as)) := by
  induction as generalizing ws with
  | nil =>
    rw [List.append_nil]
    exact .nil
  | cons b as ih =>
    have hstep : Leads v (s.acting h a ws) [.argument b] (s.acting h a (ws ++ [b])) :=
      (Reads.argument rfl hm).leads
    refine (hstep.trans ih).congr rfl ?_
    rw [List.append_assoc, List.singleton_append]

theorem leads_absorbed_arguments {h : Head} {a : Action} {m m' : Matching} (hm : a.matching? = some m)
    {as ws ws' : List Argument} (ha : m.absorbAll ws as = .ok (m', ws')) :
    Leads v (s.acting h a ws) (as.map .argument) (s.acting h (a.withMatching m') ws') := by
  induction as generalizing a m ws with
  | nil =>
    cases ha
    have hid : a.withMatching m' = a := by
      cases a <;> first | contradiction | (cases hm; rfl)
    rw [hid]
    exact .nil
  | cons b as ih =>
    rw [Matching.absorbAll] at ha
    split at ha
    next m₁ ws₁ need hab =>
      have hmatching : (a.withMatching m₁).matching? = some m₁ := by
        cases a <;> first | contradiction | rfl
      have htwice : (a.withMatching m₁).withMatching m' = a.withMatching m' := by cases a <;> rfl
      have hstep : Leads v (s.acting h a ws) [.argument b] (s.acting h (a.withMatching m₁) ws₁) :=
        (Reads.absorbed rfl hm hab).leads
      have hrest := hstep.trans (ih hmatching ha)
      rwa [htwice] at hrest
    · contradiction

theorem leads_action_arguments {h : Head} (a : Action) :
    Leads v (s.acting h a.blank []) (a.arguments.map .argument)
      (s.acting h (a.blank.withMatching (a.matching?.getD {})) a.ownArguments) := by
  cases a with
  | deleteHeader a => exact leads_absorbed_arguments rfl a.absorbAll_arguments
  | _ => exact leads_plain_arguments rfl _

/-- Adds finished items one by one. -/
def addAll (s : State) (is : List Item) : State :=
  is.foldl State.add s

theorem addAll_nil_blocks (hs : s.blocks = []) (is : List Item) :
    s.addAll is = { s with items := s.items ++ is } := by
  obtain ⟨items, blocks, st, rs⟩ := s
  cases hs
  induction is generalizing items with
  | nil => exact (congrArg (State.mk · [] st rs) (List.append_nil items)).symm
  | cons i is ih =>
    refine (ih (items ++ [i])).trans ?_
    rw [List.append_assoc]
    rfl

theorem addAll_cons_blocks {b : OpenBlock} {bs : List OpenBlock} (hs : s.blocks = b :: bs)
    (is : List Item) : s.addAll is = { s with blocks := { b with items := b.items ++ is } :: bs } := by
  obtain ⟨items, blocks, st, rs⟩ := s
  cases hs
  induction is generalizing b with
  | nil =>
    rw [List.append_nil]
    rfl
  | cons i is ih =>
    refine (ih (b := { b with items := b.items ++ [i] })).trans ?_
    rw [List.append_assoc]
    rfl

theorem leads_items_of_forall {is : List Item} (ih : ∀ i ∈ is, ∀ {s : State}, s.statement = none →
      Leads v s i.symbols (s.add i)) (hs : s.statement = none) :
    Leads v s (Item.symbolsAll is) (s.addAll is) := by
  induction is generalizing s with
  | nil => exact .nil
  | cons i is ihis =>
    have hadd : (s.add i).statement = none := by
      obtain ⟨items, _ | ⟨b, bs⟩, st, rs⟩ := s <;> exact hs
    exact (ih i (by simp) hs).trans (ihis (fun j hj => ih j (by simp [hj])) hadd)

theorem leads_action_head {h : Head} {a : Action} (hs : s.statement = none)
    (hw : v.Denotes h.word (.action a)) : Leads v s h.symbols (s.acting h a []) := by
  have hword : Leads v s [.word h.word] (s.acting { word := h.word } a []) := (Reads.action hw hs).leads
  refine (hword.trans (leads_comments h.comments)).congr rfl ?_
  rw [foldl_comment_acting, foldl_attach]
  rfl

theorem leads_conditional_head {h : Head} (hs : s.statement = none)
    (hw : v.meaning h.word = .conditional) :
    Leads v s h.symbols { s with statement := some (.conditional h) } := by
  have hword := (Reads.conditional hw hs).leads
  refine (hword.trans (leads_comments h.comments)).congr rfl ?_
  rw [foldl_comment_conditional, foldl_attach]
  rfl

/-- The test of a conditional is read up to the start of the block. -/
theorem leads_condition {h : Head} {test : Option Test} (ht : ∀ t ∈ test, t.Sound v) :
    Leads v { s with statement := some (.conditional h) } (Test.symbolsOption test ++ [.blockStart])
      (s.openBlock h test) := by
  cases test with
  | none => exact (Reads.blockStart rfl).leads
  | some t =>
    obtain ⟨p, hp, hends⟩ := readsBack_of_sound (ht t rfl)
      (s := { s with statement := some (.conditional h) }) rfl
    have hblock := (Reads.testEnd (v := v) (s := s.testing h p) rfl hends.hasOpenGroup).leads
    rw [hends.close] at hblock
    exact hp.trans hblock

/-- A sound item, read where a command may stand, is added. -/
theorem leads_item {i : Item} (hi : i.Sound v) (hs : s.statement = none) :
    Leads v s i.symbols (s.add i) := by
  induction hi generalizing s with
  | @comment c lexical =>
    refine Reads.comment.leads.congr rfl ?_
    rw [comment, hs]
  | @action h a head word fit =>
    have hhead := leads_action_head hs word
    have hend := (Reads.semicolon (v := v)
      (s := s.acting h (a.blank.withMatching (a.matching?.getD {})) a.ownArguments) rfl).leads
    refine ((hhead.trans (leads_action_arguments a)).trans hend).congr rfl ?_
    rw [Action.take_ownArguments fit.modifiers]
    obtain ⟨items, blocks, st, rs⟩ := s
    cases hs
    rfl
  | @conditional h test block head word tests items ih =>
    have hhead := leads_conditional_head hs word
    have htest := leads_condition (s := s) (h := h) tests
    have hitems := leads_items_of_forall (s := s.openBlock h test) ih rfl
    rw [addAll_cons_blocks rfl] at hitems
    have hend := (Reads.blockEnd (v := v) (s := { s.openBlock h test with
      blocks := { head := h, test, items := [] ++ block } :: s.blocks }) rfl rfl).leads
    refine (((hhead.trans htest).trans hitems).trans hend).congr (by simp [Item.symbols]) ?_
    obtain ⟨items, blocks, st, rs⟩ := s
    cases hs
    rfl

end State

/-- A text with the symbols of sound items is read, and gives these items. -/
theorem Script.parse_of_symbols {caps : List String} {is : List Item}
    (h : ∀ i ∈ is, i.Sound (.ofCapabilities caps)) {text : String}
    (ht : Token.symbols (normalize text.toList) = Item.symbolsAll is) :
    ∃ r, State.steps (.ofCapabilities caps) {} (Item.symbolsAll is) = .ok { items := is, requires := r } ∧
      ∀ name, parse caps name text = .ok { items := is, requires := r } := by
  obtain ⟨r, hr⟩ := State.leads_items_of_forall (s := {}) (fun i hi => State.leads_item (h i hi)) rfl []
  rw [State.addAll_nil_blocks rfl] at hr
  refine ⟨r, hr, fun name => read_eq_ok_iff.2 ⟨_, ht ▸ hr, ?_⟩⟩
  simp [State.finish, State.closeBlocks]

/-- A script that was read and written is read again: with the same items, and so written as before. -/
theorem Script.parse_render {caps : List String} {name text : String} {s : Script}
    (h : parse caps name text = .ok s) :
    ∃ q, parse caps name s.render = .ok q ∧ q.items = s.items ∧ q.render = s.render := by
  have hsound := sound_of_read (Vocabulary.blank_ofCapabilities caps) h
  have hnorm : normalize s.render.toList = Item.encodeAll 0 s.items := by
    rw [render, String.toList_ofList, (Item.normalized_encodeAll hsound).normalize_eq]
  obtain ⟨r, hr⟩ := State.leads_items_of_forall (s := {}) (fun i hi => State.leads_item (hsound i hi)) rfl []
  rw [State.addAll_nil_blocks rfl] at hr
  have hread : parse caps name s.render = .ok { items := s.items, requires := r } := by
    refine read_eq_ok_iff.2 ⟨_, by rw [hnorm, Item.symbols_encodeAll hsound]; exact hr, ?_⟩
    simp [State.finish, State.closeBlocks]
  exact ⟨_, hread, rfl, rfl⟩

/-- An instance with a negation, an attached comment and a line ending that is not CRLF. -/
theorem Script.parse_render_negation :
    let s : Script := { items := [.conditional { word := "if" }
      (some (.negation { word := "not" } {}
        (some (.leaf { word := "true", comments := [.hash "c"] } {} .always))))
      [.action { word := "keep" } (.keep none)]] }
    parse [] "" "if not true # c\n { keep; }" = .ok s ∧
      ∃ q, parse [] "" s.render = .ok q ∧ q.items = s.items ∧ q.render = s.render := by
  intro s
  have h : parse [] "" "if not true # c\n { keep; }" = .ok s := by decide +kernel
  exact ⟨h, parse_render h⟩

end SieveScript
