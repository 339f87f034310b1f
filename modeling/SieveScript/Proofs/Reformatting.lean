import SieveScript.Proofs.Declaring

/-!
# Writing a script twice with its declarations

Reading the text of a sound item notes only what its nodes need and declare (`State.notesOnly_item`):
a matching is written once and nothing in it is overwritten, and behind it stand no arguments that
would change it. So a script that was written with its declarations in front needs nothing more, as
long as all that it declares anywhere was met before. That fails for a `require` that is still open
at the end of a script and stands inside a block: what it declares is written but was not met.
Writing such a script a second time settles it (`Script.renderDeclared_settles`).
-/

namespace SieveScript

open Argument

/-! ### What a list of arguments notes -/

namespace Matching
variable {m m' : Matching} {ws ws' : List Argument} {a : Argument} {need : Option String}

/-- The capabilities that are noted when arguments are absorbed one by one. -/
def notedAll : Matching → List Argument → List Argument → List String
  | _, _, [] => []
  | m, ws, a :: as =>
    match absorb m ws a with
    | .ok (m', ws', need) => need.toList ++ notedAll m' ws' as
    | .error _ => []

theorem notedAll_cons {as : List Argument} (h : absorb m ws a = .ok (m', ws', need)) :
    notedAll m ws (a :: as) = need.toList ++ notedAll m' ws' as := by
  rw [notedAll, h]

theorem notedAll_append {as bs : List Argument} (h : absorbAll m ws as = .ok (m', ws')) :
    notedAll m ws (as ++ bs) = notedAll m ws as ++ notedAll m' ws' bs := by
  fun_induction absorbAll m ws as with
  | case1 => cases h; rfl
  | case2 m ws a as m₁ ws₁ need h₁ ih =>
    rw [List.cons_append, notedAll_cons h₁, notedAll_cons h₁, ih h, List.append_assoc]
  | case3 => contradiction

theorem notedAll_plain {as : List Argument} (h : ∀ a ∈ as, a.Plain) (hw : Ready ws) :
    notedAll m ws as = [] := by
  induction as generalizing ws with
  | nil => rfl
  | cons a as ih =>
    have ha := h a (by simp)
    have hready : Ready (ws ++ [a]) := hw.append (by simpa using ha)
    rw [notedAll_cons (absorb_of_ready ha.1 hw), ih (fun b hb => h b (by simp [hb])) hready]
    rfl

theorem notedAll_quiet {as : List Argument} (h : Quiet as) : notedAll m [] as = [] := by
  rcases List.eq_nil_or_concat as with rfl | ⟨init, a, rfl⟩
  · rfl
  · rw [List.concat_eq_append] at *
    have hinit := h.plain_dropLast
    rw [List.dropLast_concat] at hinit
    rw [notedAll_append (absorbAll_plain hinit ready_nil), notedAll_plain hinit ready_nil,
      List.nil_append, List.nil_append,
      notedAll_cons (absorb_of_ready (h.noMatchType a (by simp)) (ready_of_forall_plain hinit))]
    rfl

theorem notedAll_linked {t : String} (ht : (tag t).isMatchType = false) (hw : Ready ws)
    (h : absorb m (ws ++ [.tag t]) a = .ok (m', ws', need)) :
    notedAll m ws [.tag t, a] = need.toList := by
  rw [notedAll_cons (absorb_of_ready ht hw), notedAll_cons h]
  simp [notedAll]

theorem notedAll_matchTypeArguments (hw : Ready ws) (n : Matching) :
    notedAll m ws n.matchTypeArguments = (n.matchType.bind MatchType.capability?).toList := by
  cases hn : n.matchType with
  | none =>
    rw [matchTypeArguments, hn]
    rfl
  | some t =>
    rw [matchTypeArguments, hn]
    cases t with
    | value r => cases r <;> exact notedAll_linked rfl hw (absorb_relation rfl (.inl rfl))
    | count r => cases r <;> exact notedAll_linked rfl hw (absorb_relation rfl (.inr rfl))
    | _ => exact (notedAll_cons (absorb_matchType rfl)).trans (List.append_nil _)

theorem notedAll_comparatorArguments (hw : Ready ws) (n : Matching) :
    notedAll m ws n.comparatorArguments = (n.comparator.bind comparatorCapability?).toList := by
  cases hn : n.comparator with
  | none =>
    rw [comparatorArguments, hn]
    rfl
  | some c =>
    rw [comparatorArguments, hn]
    exact notedAll_linked rfl hw (absorb_comparator rfl)

/-- Reading a matching and quiet arguments notes what the matching needs. -/
theorem notedAll_arguments {as : List Argument} (h : Quiet as) :
    notedAll {} [] (m.matchTypeArguments ++ m.comparatorArguments ++ as) = m.needs := by
  rw [List.append_assoc, notedAll_append (absorbAll_matchTypeArguments rfl ready_nil m),
    notedAll_append (absorbAll_comparatorArguments rfl ready_nil m), notedAll_quiet h,
    notedAll_matchTypeArguments ready_nil, notedAll_comparatorArguments ready_nil, List.append_nil]
  rfl

end Matching

theorem Action.DeleteHeader.notedAll_arguments (a : DeleteHeader) :
    Matching.notedAll {} [] a.arguments ⊆ a.matching.needs := by
  have hindex : ∀ b ∈ ofTagged ":index" .number a.index ++ ofFlag ":last" a.last, b.Plain :=
    List.forall_mem_append.2
      ⟨plain_of_mem_ofTagged (by decide) plain_number, plain_of_mem_ofFlag (by decide)⟩
  have hready := ready_of_forall_plain hindex
  have hrest : ∀ b ∈ [string a.field] ++ (a.patterns.map strings).toList, b.Plain := by
    cases a.patterns <;> simp
  rw [arguments, List.append_assoc, List.append_assoc, List.append_assoc,
    Matching.notedAll_append (Matching.absorbAll_plain hindex ready_nil), List.nil_append,
    Matching.notedAll_append (Matching.absorbAll_comparatorArguments rfl hready a.matching),
    Matching.notedAll_append (Matching.absorbAll_matchTypeArguments rfl hready a.matching),
    Matching.notedAll_plain hindex ready_nil, Matching.notedAll_comparatorArguments hready,
    Matching.notedAll_matchTypeArguments hready, Matching.notedAll_plain hrest hready]
  simp [Matching.needs]

/-! ### What a list of symbols notes -/

namespace State
variable {v : Vocabulary} {caps K : List String} {s s₁ s' : State}

/-- Whatever has been met of the list, reading the symbols notes nothing outside of it. -/
def NotesOnly (v : Vocabulary) (K : List String) (s : State) (ys : List Symbol) : Prop :=
  ∀ r s', r ⊆ K → steps v { s with requires := r } ys = .ok s' → s'.requires ⊆ K

/-- The symbol notes nothing, wherever it stands. -/
def Silent (v : Vocabulary) (y : Symbol) : Prop :=
  ∀ s, notes v s y = []

namespace NotesOnly
variable {xs ys : List Symbol}

theorem nil : NotesOnly v K s [] := by
  intro r s' hr h
  cases h
  exact hr

theorem single {y : Symbol} (h : s.notes v y ⊆ K) : NotesOnly v K s [y] := by
  intro r s' hr hs c hc
  rw [steps] at hs
  split at hs
  next s₁ h₁ =>
    cases hs
    have hnotes : { s with requires := r }.notes v y = s.notes v y := by cases y <;> rfl
    rcases (mem_requires_of_step h₁).1 hc with hc | hc
    · exact hr hc
    · exact h (hnotes ▸ hc)
  · contradiction

theorem append (hl : Leads v s xs s₁) (h : NotesOnly v K s xs) (h' : NotesOnly v K s₁ ys) :
    NotesOnly v K s (xs ++ ys) := by
  intro r s' hr hs
  obtain ⟨r₁, hxs⟩ := hl r
  rw [steps_append hxs] at hs
  exact h' r₁ s' (h r _ hr hxs) hs

theorem of_silent (h : ∀ y ∈ ys, Silent v y) : NotesOnly v K s ys := by
  intro r s' hr hs
  generalize ht : { s with requires := r } = t at hs
  have htK : t.requires ⊆ K := by
    rw [← ht]
    exact hr
  clear ht hr
  fun_induction steps v t ys with
  | case1 t =>
    cases hs
    exact htK
  | case2 t y ys t₁ h₁ ih =>
    obtain ⟨hy, hys⟩ := List.forall_mem_cons.1 h
    refine ih hys hs fun c hc => ?_
    rcases (mem_requires_of_step h₁).1 hc with hc | hc
    · exact htK hc
    · rw [hy t] at hc
      contradiction
  | case3 => contradiction

end NotesOnly

/-! ### Heads and arguments -/

theorem silent_of_mem_comments {cs : List Comment} : ∀ y ∈ cs.map Symbol.comment, Silent v y := by
  intro y hy s
  obtain ⟨c, -, rfl⟩ := List.mem_map.1 hy
  rfl

/-- A word notes what the node needs that it stands for. -/
theorem notes_word_subset {w : String} {p : Prototype} (hp : (Vocabulary.ofCapabilities caps).Denotes w p)
    {n : Node} (hn : n.Noted K) (hw : n.word? = some w)
    (hknown : n.placeholder?.isSome = (p.fresh w).placeholder?.isSome) :
    s.notes (.ofCapabilities caps) (.word w) ⊆ K := by
  rw [notes]
  split
  next d hd =>
    rw [Vocabulary.Denotes, hd] at hp
    have hmem := Vocabulary.mem_of_meaning hd
    have hblank := Vocabulary.blank_ofCapabilities caps d hmem
    have hnone : n.placeholder? = none := by
      rw [← Option.not_isSome_iff_eq_none, hknown, ← hp]
      generalize d.prototype = p at hblank
      cases p <;> simp_all [Prototype.isBlank, Prototype.fresh, Node.placeholder?, Item.isPlaceholder,
        Test.isPlaceholder]
    intro c hc
    refine hn.needs c (.word (List.mem_filter.1 hmem).1 ?_ hnone hc)
    rw [hw, Vocabulary.word_of_meaning hd]
  · exact List.nil_subset K

theorem notesOnly_test_arguments {h : Head} {p : TestPath} {as ws : List Argument} {m : Matching}
    (ha : p.inner.matching.absorbAll p.waiting as = .ok (m, ws))
    (hK : p.inner.matching.notedAll p.waiting as ⊆ K) :
    NotesOnly v K (s.testing h p) (as.map .argument) := by
  induction as generalizing p with
  | nil => exact .nil
  | cons a as ih =>
    rw [Matching.absorbAll] at ha
    split at ha
    next m₁ ws₁ need hab =>
      rw [Matching.notedAll_cons hab, List.append_subset] at hK
      have hmatching : (p.inner.withMatching m₁).matching = m₁ := by cases p.inner <;> rfl
      have hstep : Leads v (s.testing h p) [.argument a]
          (s.testing h { p with inner := p.inner.withMatching m₁, waiting := ws₁ }) :=
        (Reads.tested rfl hab).leads
      have hfirst : NotesOnly v K (s.testing h p) [.argument a] := by
        refine .single ?_
        simpa [notes, matcher?, testing, Matching.noted_of_absorb hab] using hK.1
      exact hfirst.append hstep (ih (by rw [hmatching]; exact ha) (by rw [hmatching]; exact hK.2))
    · contradiction

theorem notesOnly_absorbed_arguments {h : Head} {a : Action} {m m' : Matching}
    (hm : a.matching? = some m) {as ws ws' : List Argument} (ha : m.absorbAll ws as = .ok (m', ws'))
    (hK : m.notedAll ws as ⊆ K) : NotesOnly v K (s.acting h a ws) (as.map .argument) := by
  induction as generalizing a m ws with
  | nil => exact .nil
  | cons b as ih =>
    rw [Matching.absorbAll] at ha
    split at ha
    next m₁ ws₁ need hab =>
      rw [Matching.notedAll_cons hab, List.append_subset] at hK
      have hmatching : (a.withMatching m₁).matching? = some m₁ := by
        cases a <;> first | contradiction | rfl
      have hstep : Leads v (s.acting h a ws) [.argument b] (s.acting h (a.withMatching m₁) ws₁) :=
        (Reads.absorbed rfl hm hab).leads
      have hfirst : NotesOnly v K (s.acting h a ws) [.argument b] := by
        refine .single ?_
        simpa [notes, matcher?, acting, hm, Matching.noted_of_absorb hab] using hK.1
      exact hfirst.append hstep (ih hmatching ha hK.2)
    · contradiction

theorem notesOnly_plain_arguments {h : Head} {a : Action} (hm : a.matching? = none)
    {ws as : List Argument} : NotesOnly v K (s.acting h a ws) (as.map .argument) := by
  induction as generalizing ws with
  | nil => exact .nil
  | cons b as ih =>
    have hstep : Leads v (s.acting h a ws) [.argument b] (s.acting h a (ws ++ [b])) :=
      (Reads.argument rfl hm).leads
    have hfirst : NotesOnly v K (s.acting h a ws) [.argument b] :=
      .single (by simp [notes, matcher?, acting, hm])
    exact hfirst.append hstep ih

/-! ### Tests -/

theorem needs_subset {n : Node} (hn : n.Noted K) {m : Matching} (hm : n.matching? = some m) :
    m.needs ⊆ K :=
  fun c hc => hn.needs c (Node.needs_iff.2 (.inr ⟨m, hm, hc⟩))

theorem notesOnly_head {h : Head} (hl : Leads v s [.word h.word] s₁)
    (hw : s.notes v (.word h.word) ⊆ K) : NotesOnly v K s h.symbols :=
  (NotesOnly.single hw).append hl (.of_silent silent_of_mem_comments)

/-- Reading a word, comments, a matching and quiet arguments notes what the test needs. -/
theorem notesOnly_test_start {h hd : Head} {outer : List Enclosing} (hs : s.slot? = some (h, outer))
    {p : Prototype} (hw : (Vocabulary.ofCapabilities caps).Denotes hd.word p) {t : OpenTest}
    (ht : p.openTest? hd.word = some t) {m : Matching} {as : List Argument} (ha : Quiet as) {n : Node}
    (hn : n.Noted K) (hword : n.word? = some hd.word) (hm : n.matching? = some m)
    (hknown : n.placeholder?.isSome = (p.fresh hd.word).placeholder?.isSome) :
    NotesOnly (.ofCapabilities caps) K s (hd.symbols ++ m.symbols ++ as.map .argument) := by
  have hmatching : (t.withHead hd).matching = {} := by
    cases p <;> first | contradiction | (cases ht; rfl)
  have hhead := notesOnly_head (Reads.test hw ht hs).leads (notes_word_subset hw hn hword hknown)
  have hnoted : Matching.notedAll {} [] (m.matchTypeArguments ++ m.comparatorArguments ++ as) ⊆ K := by
    rw [Matching.notedAll_arguments ha]
    exact needs_subset hn hm
  have hargs : NotesOnly (.ofCapabilities caps) K (s.testing h { outer, inner := t.withHead hd })
      ((m.matchTypeArguments ++ m.comparatorArguments ++ as).map .argument) :=
    notesOnly_test_arguments (by rw [hmatching]; exact Matching.absorbAll_arguments ha)
      (by rw [hmatching]; exact hnoted)
  have hall := hhead.append (leads_test_head hs hw ht) hargs
  simpa [Matching.symbols] using hall

/-- The test notes only what is in the list, wherever a test may stand. -/
def TestNotesOnly (v : Vocabulary) (K : List String) (t : Test) : Prop :=
  ∀ {s : State} {h : Head} {outer : List Enclosing}, s.slot? = some (h, outer) →
    NotesOnly v K s t.symbols

theorem notesOnly_more {h hd : Head} {m : Matching} {c : Connective} {outer : List Enclosing}
    {ts : List Test} (hts : ∀ t ∈ ts, ReadsBack v t) (hK : ∀ t ∈ ts, TestNotesOnly v K t)
    {done : List Test} {t : Test} {p : TestPath} (hp : p.Ends (.group hd m c done :: outer) t) :
    NotesOnly v K (s.testing h p) (Test.symbolsMore ts ++ [.rightParen]) := by
  induction ts generalizing done t p with
  | nil => exact .of_silent (by simp [Silent, notes, Test.symbolsMore])
  | cons t' ts ih =>
    have hcomma : Leads v (s.testing h p) [.comma]
        (s.testing h { outer, inner := .group hd m c .opened (done ++ [t]) }) :=
      (Reads.comma rfl hp.nearestGroup?).leads
    obtain ⟨p', htest, hp'⟩ := hts t' (by simp)
      (s := s.testing h { outer, inner := .group hd m c .opened (done ++ [t]) }) rfl
    have hsilent : NotesOnly v K (s.testing h p) [.comma] := .of_silent (by simp [Silent, notes])
    have hfirst := hsilent.append hcomma (hK t' (by simp) rfl)
    have hrest := ih (fun u hu => hts u (by simp [hu])) (fun u hu => hK u (by simp [hu])) hp'
    have hall := hfirst.append (hcomma.trans htest) hrest
    simpa [Test.symbolsMore] using hall

theorem notesOnly_test {t : Test} (ht : t.Sound (.ofCapabilities caps))
    (he : t.Every (Node.Noted K)) : TestNotesOnly (.ofCapabilities caps) K t := by
  induction ht with
  | @leaf hd m c head matching word lexical quiet =>
    intro s h outer hs
    have hknown : c.isPlaceholder = c.blank.isPlaceholder := by cases c <;> rfl
    refine notesOnly_test_start hs word rfl quiet he.here rfl rfl ?_
    cases hp : c.blank.isPlaceholder <;>
      simp [Prototype.fresh, Node.placeholder?, Test.isPlaceholder, hknown, hp]
  | @negation hd m inner head matching word inside ih =>
    intro s h outer hs
    have hstart := notesOnly_test_start (m := m) hs word rfl quiet_nil he.here rfl rfl rfl
    have hleads := leads_test_start hs word rfl m quiet_nil
    cases he with
    | negation here inside =>
      cases inner with
      | none => simpa [Test.symbols, Test.symbolsOption] using hstart
      | some t =>
        have hinner := ih t rfl (inside t rfl)
          (s := s.testing h { outer, inner := .negation hd m }) rfl
        have hall := hstart.append hleads hinner
        simpa [Test.symbols, Test.symbolsOption] using hall
  | @group hd m c ts head matching word members ih =>
    intro s h outer hs
    have hparen : Leads (.ofCapabilities caps) (s.testing h { outer, inner := .group hd m c .missing [] })
        [.leftParen] (s.testing h { outer, inner := .group hd m c .opened [] }) :=
      (Reads.leftParen rfl).leads
    have hleads := (leads_test_start hs word rfl m quiet_nil).trans hparen
    have hopen : ∀ {s}, NotesOnly (.ofCapabilities caps) K s [.leftParen] :=
      .of_silent (by simp [Silent, notes])
    have hclose : ∀ {s}, NotesOnly (.ofCapabilities caps) K s [.rightParen] :=
      .of_silent (by simp [Silent, notes])
    have hstart := (notesOnly_test_start (m := m) hs word rfl quiet_nil he.here rfl rfl rfl).append
      (leads_test_start hs word rfl m quiet_nil) hopen
    cases he with
    | group here inside =>
      have hts : ∀ u ∈ ts, TestNotesOnly (.ofCapabilities caps) K u := fun u hu => ih u hu (inside u hu)
      cases ts with
      | nil =>
        have hall := hstart.append hleads hclose
        simpa [Test.symbols, Test.symbolsMembers] using hall
      | cons t ts =>
        obtain ⟨p, htest, hp⟩ := readsBack_of_sound (members t (by simp))
          (s := s.testing h { outer, inner := .group hd m c .opened [] }) rfl
        have hfirst := hstart.append hleads (hts t (by simp) rfl)
        have hback : ∀ u ∈ ts, ReadsBack (.ofCapabilities caps) u :=
          fun u hu => readsBack_of_sound (members u (by simp [hu]))
        have hmore := notesOnly_more (s := s) (h := h) hback (fun u hu => hts u (by simp [hu])) hp
        have hall := hfirst.append (hleads.trans htest) hmore
        simpa [Test.symbols, Test.symbolsMembers] using hall

/-! ### Items -/

theorem statement_of_add (hs : s.statement = none) (i : Item) : (s.add i).statement = none := by
  obtain ⟨items, _ | ⟨b, bs⟩, st, rs⟩ := s <;> exact hs

theorem notesOnly_items {is : List Item} (hsound : ∀ i ∈ is, i.Sound v)
    (hK : ∀ i ∈ is, ∀ {s : State}, s.statement = none → NotesOnly v K s i.symbols)
    (hs : s.statement = none) : NotesOnly v K s (Item.symbolsAll is) := by
  induction is generalizing s with
  | nil => exact .nil
  | cons i is ih =>
    exact (hK i (by simp) hs).append (leads_item (hsound i (by simp)) hs)
      (ih (fun j hj => hsound j (by simp [hj])) (fun j hj => hK j (by simp [hj]))
        (statement_of_add hs i))

theorem notesOnly_action_arguments {h : Head} {a : Action}
    (hK : ∀ m ∈ a.matching?, m.needs ⊆ K) :
    NotesOnly v K (s.acting h a.blank []) (a.arguments.map .argument) := by
  cases a with
  | deleteHeader a =>
    refine notesOnly_absorbed_arguments rfl a.absorbAll_arguments ?_
    exact List.Subset.trans a.notedAll_arguments (hK a.matching rfl)
  | _ => exact notesOnly_plain_arguments rfl

theorem notesOnly_condition {h : Head} {test : Option Test}
    (ht : ∀ t ∈ test, t.Sound (.ofCapabilities caps)) (he : ∀ t ∈ test, t.Every (Node.Noted K)) :
    NotesOnly (.ofCapabilities caps) K { s with statement := some (.conditional h) }
      (Test.symbolsOption test ++ [.blockStart]) := by
  have hsilent : ∀ {s}, NotesOnly (.ofCapabilities caps) K s [.blockStart] :=
    .of_silent (by simp [Silent, notes])
  cases test with
  | none => exact hsilent
  | some t =>
    obtain ⟨p, hp, -⟩ := readsBack_of_sound (ht t rfl)
      (s := { s with statement := some (.conditional h) }) rfl
    exact (notesOnly_test (ht t rfl) (he t rfl) rfl).append hp hsilent

/-- Reading a sound item notes only what its nodes need and declare. -/
theorem notesOnly_item {i : Item} (hi : i.Sound (.ofCapabilities caps)) (he : i.Every (Node.Noted K))
    (hs : s.statement = none) : NotesOnly (.ofCapabilities caps) K s i.symbols := by
  induction hi generalizing s with
  | comment lexical => exact .of_silent (by simp [Silent, notes, Item.symbols])
  | @action h a head word fit =>
    cases he with
    | action here =>
      have hknown : a.isPlaceholder = a.blank.isPlaceholder := by cases a <;> rfl
      have hword : s.notes (.ofCapabilities caps) (.word h.word) ⊆ K := by
        refine notes_word_subset word here rfl ?_
        cases hp : a.blank.isPlaceholder <;>
          simp [Prototype.fresh, Node.placeholder?, Item.isPlaceholder, Item.head?, hknown, hp]
      have hhead := notesOnly_head (Reads.action word hs).leads hword
      have hargs := notesOnly_action_arguments (v := .ofCapabilities caps) (s := s) (h := h) (a := a)
        fun m hm => needs_subset here hm
      have hend : NotesOnly (.ofCapabilities caps) K
          (s.acting h (a.blank.withMatching (a.matching?.getD {})) a.ownArguments) [.semicolon] := by
        have hdeclares : (Item.action h a).declares ⊆ K := here.declares
        refine .single ?_
        simpa [notes, acting, Statement.close, Action.take_ownArguments fit.modifiers] using hdeclares
      have hleads := leads_action_head hs word
      have hall := (hhead.append hleads hargs).append (hleads.trans (leads_action_arguments a)) hend
      simpa [Item.symbols] using hall
  | @conditional h test block head word tests items ih =>
    cases he with
    | conditional here inside members =>
      have hword : s.notes (.ofCapabilities caps) (.word h.word) ⊆ K := by
        simp [notes, word]
      have hhead := notesOnly_head (Reads.conditional word hs).leads hword
      have hleads := leads_conditional_head hs word
      have hstart := hhead.append hleads (notesOnly_condition tests inside)
      have hblock := notesOnly_items (s := s.openBlock h test) items
        (fun j hj => ih j hj (members j hj)) rfl
      have hopened := hleads.trans (leads_condition tests)
      have hitems := leads_items_of_forall (s := s.openBlock h test)
        (fun j hj => leads_item (items j hj)) rfl
      have hend : NotesOnly (.ofCapabilities caps) K ((s.openBlock h test).addAll block) [.blockEnd] :=
        .of_silent (by simp [Silent, notes])
      have hall := (hstart.append hopened hblock).append (hopened.trans hitems) hend
      simpa [Item.symbols] using hall

end State

/-! ### Writing a script twice -/

namespace Script
variable {caps : List String} {name text : String} {s : Script}

theorem undeclared_eq_nil_iff : s.undeclared = [] ↔ s.requires ⊆ s.declared := by
  rw [undeclared, List.filter_eq_nil_iff]
  simp [List.subset_def]

theorem noted_requireItem {missing K : List String} (h : missing ⊆ K) :
    (requireItem missing).Every (Node.Noted K) := by
  have hfree : ∀ d ∈ Definition.all, d.word = "require" → d.requires = [] := by decide
  refine .action ⟨fun c hc => ?_, h⟩
  rcases Node.needs_iff.1 hc with ⟨d, hd, hword, -, hc⟩ | ⟨m, hm, -⟩
  · rw [hfree d hd (by simpa [Node.word?, Item.head?] using hword.symm)] at hc
    contradiction
  · contradiction

theorem items_subset_declaredItems : s.items ⊆ s.declaredItems := by
  rw [declaredItems]
  split
  · exact List.Subset.refl _
  · exact List.subset_cons_self _ _

/-- If all that the nodes declare was met or is declared outside the blocks, the text with the
declarations in front is read as a script that declares all it needs. -/
theorem requires_subset_declares (h : parse caps name text = .ok s)
    (hd : ∀ n ∈ s.nodes, ∀ c ∈ n.2.declares, c ∈ s.requires ∨ c ∈ s.declared) {r : List String}
    (hr : State.steps (.ofCapabilities caps) {} (Item.symbolsAll s.declaredItems) =
      .ok { items := s.declaredItems, requires := r }) :
    r ⊆ s.declaredItems.flatMap Item.declares := by
  have hneeds := needs_of_parse h
  have hnodes : ∀ n ∈ s.nodes, n.2.Noted (s.declaredItems.flatMap Item.declares) := fun n hn =>
    ⟨fun c hc => mem_declares_declaredItems.2 (.inl (hneeds n hn c hc)),
      fun c hc => mem_declares_declaredItems.2 (hd n hn c hc)⟩
  have hitems := every_iff_nodes.2 hnodes
  have hevery : ∀ i ∈ s.declaredItems, i.Every (Node.Noted (s.declaredItems.flatMap Item.declares)) := by
    intro i hi
    by_cases hmem : i ∈ s.items
    · exact hitems i hmem
    · have hfront : i = requireItem s.undeclared := by
        rw [declaredItems] at hi
        split at hi
        · exact absurd hi hmem
        · exact (List.mem_cons.1 hi).resolve_right hmem
      rw [hfront]
      refine noted_requireItem fun c hc => mem_declares_declaredItems.2 (.inl ?_)
      exact (List.mem_filter.1 hc).1
  obtain ⟨hsound, -⟩ := parse_renderDeclared h
  have honly := State.notesOnly_items (s := {}) hsound
    (fun i hi => State.notesOnly_item (hsound i hi) (hevery i hi)) rfl
  exact honly [] _ (List.nil_subset _) hr

theorem settled_of_subset {r : List String} (h : r ⊆ s.declaredItems.flatMap Item.declares) :
    undeclared { items := s.declaredItems, requires := r } = [] ∧
      renderDeclared { items := s.declaredItems, requires := r } = s.renderDeclared := by
  have hnone : undeclared { items := s.declaredItems, requires := r } = [] := undeclared_eq_nil_iff.2 h
  refine ⟨hnone, ?_⟩
  rw [renderDeclared, declaredItems, hnone, renderDeclared]

/-- The text of a script with its declarations in front is read, and written again as it is without
anything left to declare, exactly if all that the nodes of the script declare was met or is declared
outside the blocks. That is so where nothing was left open. In any case the next text is settled. -/
theorem renderDeclared_settles (h : parse caps name text = .ok s) :
    ∃ q, parse caps name s.renderDeclared = .ok q ∧
      (q.undeclared = [] ∧ q.renderDeclared = s.renderDeclared ↔
        ∀ n ∈ s.nodes, ∀ c ∈ n.2.declares, c ∈ s.requires ∨ c ∈ s.declared) ∧
      (∀ st, State.run (.ofCapabilities caps) {} (Token.all (normalize text.toList)) = .ok st →
        st.depth = 0 → q.undeclared = [] ∧ q.renderDeclared = s.renderDeclared) ∧
      ∃ r, parse caps name q.renderDeclared = .ok r ∧ r.undeclared = [] ∧
        r.renderDeclared = q.renderDeclared := by
  obtain ⟨-, rs, hsteps, hparse⟩ := parse_renderDeclared h
  have hq := hparse name
  -- the script that is read back has met what its nodes declare
  have hback : ∀ i ∈ s.declaredItems, i.Every (Node.Noted rs) :=
    (State.every_empty.steps hsteps (List.Subset.refl rs)).items
  refine ⟨_, hq, ⟨fun hsettled n hn c hc => ?_, fun hd => ?_⟩, fun st hst hdepth => ?_, ?_⟩
  · have hrs := undeclared_eq_nil_iff.1 hsettled.1
    have hnoted := every_iff_nodes.1 (fun i hi => hback i (items_subset_declaredItems hi)) n hn
    exact mem_declares_declaredItems.1 (hrs (hnoted.declares hc))
  · exact settled_of_subset (requires_subset_declares h hd hsteps)
  · have hdeclares := declares_of_parse h hst hdepth
    exact settled_of_subset (requires_subset_declares h (fun n hn c hc => .inl (hdeclares n hn hc)) hsteps)
  · obtain ⟨-, rs', hsteps', hparse'⟩ := parse_renderDeclared hq
    have hdeclares : ∀ n ∈ Script.nodes { items := s.declaredItems, requires := rs },
        n.2.declares ⊆ rs := fun n hn => (every_iff_nodes.1 hback n hn).declares
    have hsubset := requires_subset_declares hq (fun n hn c hc => .inl (hdeclares n hn hc)) hsteps'
    exact ⟨_, hparse' name, settled_of_subset hsubset⟩

/-- An instance whose `require` is left open inside a block. -/
theorem renderDeclared_settles_require :
    let text := "if true \x7b require \"foo\""
    let s : Script := { items := [.conditional { word := "if" } (some (.leaf { word := "true" } {} .always))
      [.action { word := "require" } (.require ["foo"])]] }
    parse [] "" text = .ok s ∧ ∃ q, parse [] "" s.renderDeclared = .ok q ∧
      (q.undeclared = [] ∧ q.renderDeclared = s.renderDeclared ↔
        ∀ n ∈ s.nodes, ∀ c ∈ n.2.declares, c ∈ s.requires ∨ c ∈ s.declared) ∧
      (∀ st, State.run (.ofCapabilities []) {} (Token.all (normalize text.toList)) = .ok st →
        st.depth = 0 → q.undeclared = [] ∧ q.renderDeclared = s.renderDeclared) ∧
      ∃ r, parse [] "" q.renderDeclared = .ok r ∧ r.undeclared = [] ∧
        r.renderDeclared = q.renderDeclared := by
  intro text s
  have h : parse [] "" text = .ok s := by decide +kernel
  exact ⟨h, renderDeclared_settles h⟩

/-- What a `require` declares that is left open inside a block is not met before it is read back. -/
theorem not_settled_of_open_require :
    let s : Script := { items := [.conditional { word := "if" } (some (.leaf { word := "true" } {} .always))
      [.action { word := "require" } (.require ["foo"])]] }
    let q : Script := { s with requires := ["foo"] }
    parse [] "" "if true \x7b require \"foo\"" = .ok s ∧ parse [] "" s.renderDeclared = .ok q ∧
      ¬ (q.undeclared = [] ∧ q.renderDeclared = s.renderDeclared) := by
  intro s q
  have h : parse [] "" "if true \x7b require \"foo\"" = .ok s := by decide +kernel
  have hback : parse [] "" s.renderDeclared = .ok q := by decide +kernel
  have hmissing : q.undeclared = ["foo"] := by decide
  exact ⟨h, hback, by simp [hmissing]⟩

end Script

end SieveScript
