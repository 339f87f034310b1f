import SieveScript.Proofs.Grammar
import SieveScript.Proofs.Nodes
import SieveScript.Proofs.Noting
import SieveScript.Proofs.Soundness

/-!
# What the nodes of a tree need

`Node.Needs` says which capabilities a node needs, from what the node is: those of the definition of
its word, unless it is a placeholder, and those of its match type and its comparator. All that the
nodes read so far need or declare has been met, an open action's declarations apart
(`State.Every.reads`): a word notes what its definition needs before anything else happens to the
node, an argument that changes a matching notes what the new part needs, and what a `require`
declares is noted when it ends. At the end of a script an action may still be open; its arguments are
given to it without any notice of what it declares then.
-/

namespace SieveScript

/-- The node needs the capability. -/
inductive Node.Needs (n : Node) : String → Prop
  | word {d : Definition} {c : String} (defined : d ∈ Definition.all) (word : n.word? = some d.word)
      (known : n.placeholder? = none) (requires : c ∈ d.requires) : Needs n c
  | regex {m : Matching} (matching : n.matching? = some m) (type : m.matchType = some .regex) :
      Needs n "regex"
  | value {m : Matching} {r : Relation} (matching : n.matching? = some m)
      (type : m.matchType = some (.value r)) : Needs n "relational"
  | count {m : Matching} {r : Relation} (matching : n.matching? = some m)
      (type : m.matchType = some (.count r)) : Needs n "relational"
  | comparator {m : Matching} {name : String} (matching : n.matching? = some m)
      (comparator : m.comparator = some name) (other : name ∉ ["i;octet", "i;ascii-casemap"]) :
      Needs n ("comparator-" ++ name)

/-! ### Matchings -/

namespace Matching
variable {m m' : Matching} {ws ws' : List Argument} {a : Argument} {need : Option String}

/-- The capabilities that the match type and the comparator need. -/
def needs (m : Matching) : List String :=
  (m.matchType.bind MatchType.capability?).toList ++ (m.comparator.bind comparatorCapability?).toList

/-- What an argument that is absorbed needs is noted: a match type, a comparator, or nothing. -/
theorem need_of_absorb (h : absorb m ws a = .ok (m', ws', need)) :
    (∃ t, m' = { m with matchType := some t } ∧ need = t.capability?) ∨
    (∃ name, m' = { m with comparator := some name } ∧ need = comparatorCapability? name) ∨
    m' = m ∧ need = none := by
  rw [absorb] at h
  split at h
  next t ht =>
    cases h
    exact .inl ⟨t, rfl, rfl⟩
  next ht =>
    split at h
    next hlast =>
      split at h
      next name hname =>
        cases h
        exact .inr (.inl ⟨name, rfl, rfl⟩)
      · contradiction
    next tag hlast =>
      split at h
      · split at h
        next t hrel =>
          cases h
          exact .inl ⟨t, rfl, rfl⟩
        · contradiction
      · cases h
        exact .inr (.inr ⟨rfl, rfl⟩)
    · cases h
      exact .inr (.inr ⟨rfl, rfl⟩)

theorem mem_needs_of_absorb (h : absorb m ws a = .ok (m', ws', need)) {c : String}
    (hc : c ∈ m'.needs) : c ∈ m.needs ∨ c ∈ need.toList := by
  rcases need_of_absorb h with ⟨t, rfl, rfl⟩ | ⟨name, rfl, rfl⟩ | ⟨rfl, rfl⟩
  · rcases List.mem_append.1 hc with hc | hc
    · exact .inr hc
    · exact .inl (List.mem_append_right _ hc)
  · rcases List.mem_append.1 hc with hc | hc
    · exact .inl (List.mem_append_left _ hc)
    · exact .inr hc
  · exact .inl hc

theorem need_subset_needs (h : absorb m ws a = .ok (m', ws', need)) : need.toList ⊆ m'.needs := by
  rcases need_of_absorb h with ⟨t, rfl, rfl⟩ | ⟨name, rfl, rfl⟩ | ⟨rfl, rfl⟩
  · exact List.subset_append_left _ _
  · exact List.subset_append_right _ _
  · exact List.nil_subset _

end Matching

/-! ### Nodes -/

namespace Node
variable {n n' : Node} {c : String}

theorem needs_iff : n.Needs c ↔
    (∃ d ∈ Definition.all, n.word? = some d.word ∧ n.placeholder? = none ∧ c ∈ d.requires) ∨
      ∃ m, n.matching? = some m ∧ c ∈ m.needs := by
  constructor
  · rintro (⟨hd, hw, hp, hc⟩ | ⟨hm, ht⟩ | ⟨hm, ht⟩ | ⟨hm, ht⟩ | ⟨hm, hcomp, hother⟩)
    · exact .inl ⟨_, hd, hw, hp, hc⟩
    · exact .inr ⟨_, hm, by simp [Matching.needs, ht, MatchType.capability?]⟩
    · exact .inr ⟨_, hm, by simp [Matching.needs, ht, MatchType.capability?]⟩
    · exact .inr ⟨_, hm, by simp [Matching.needs, ht, MatchType.capability?]⟩
    · refine .inr ⟨_, hm, List.mem_append_right _ ?_⟩
      have hcapability : Matching.comparatorCapability? _ = some _ :=
        if_neg fun h => hother (List.contains_iff_mem.1 h)
      simp [hcomp, hcapability]
  · rintro (⟨d, hd, hw, hp, hc⟩ | ⟨m, hm, hc⟩)
    · exact .word hd hw hp hc
    · rcases List.mem_append.1 hc with hc | hc
      · obtain ⟨t, ht, hcap⟩ := Option.bind_eq_some_iff.1 (Option.mem_toList.1 hc)
        cases t with
        | regex =>
          cases hcap
          exact .regex hm ht
        | value r =>
          cases hcap
          exact .value hm ht
        | count r =>
          cases hcap
          exact .count hm ht
        | _ => contradiction
      · obtain ⟨name, hname, hcap⟩ := Option.bind_eq_some_iff.1 (Option.mem_toList.1 hc)
        rw [Matching.comparatorCapability?] at hcap
        split at hcap
        · contradiction
        next hother =>
          cases hcap
          exact .comparator hm hname fun h => hother (List.contains_iff_mem.2 h)

theorem Alike.needs (h : Alike n n') (hc : n'.Needs c) : n.Needs c := by
  rw [needs_iff] at hc ⊢
  rwa [h.word, h.placeholder, h.matching] at hc

/-- All that the node needs or declares is in the list. -/
structure Noted (R : List String) (n : Node) : Prop where
  needs : ∀ c, n.Needs c → c ∈ R
  declares : n.declares ⊆ R

theorem local_noted (R : List String) : Local (Noted R) := by
  intro n n' h halike
  refine ⟨fun c hc => h.needs c (halike.needs hc), ?_⟩
  rw [halike.declares]
  exact h.declares

end Node

open Node

/-! ### New nodes -/

section
variable {caps R : List String} {w : String}

theorem Action.matching?_of_blank {a : Action} (ha : a.blank = a) {m : Matching}
    (hm : a.matching? = some m) : m = {} := by
  cases a with
  | deleteHeader b =>
    cases ha
    cases hm
    rfl
  | _ => contradiction

theorem Action.declares_of_blank {a : Action} (ha : a.blank = a) (h : Head) :
    (Item.action h a).declares = [] := by
  cases a with
  | require capabilities =>
    cases ha
    rfl
  | _ => rfl

/-- A new node needs what its word notes. -/
theorem Vocabulary.Denotes.noted_fresh {p : Prototype} (h : (ofCapabilities caps).Denotes w p)
    {s : State} (hR : s.notes (ofCapabilities caps) (.word w) ⊆ R) : (p.fresh w).Noted R := by
  have hword : (p.fresh w).word? = some w := by cases p <;> rfl
  have hmatching : ∀ m, (p.fresh w).matching? = some m → m = {} := by
    intro m hm
    cases p with
    | action a => exact Action.matching?_of_blank (h.blank_action (blank_ofCapabilities caps)) hm
    | _ =>
      cases hm
      rfl
  have hdeclares : (p.fresh w).declares = [] := by
    cases p with
    | action a => exact Action.declares_of_blank (h.blank_action (blank_ofCapabilities caps)) _
    | _ => rfl
  refine ⟨fun c hc => ?_, by rw [hdeclares]; exact List.nil_subset R⟩
  rcases needs_iff.1 hc with ⟨d, hd, hw, hknown, hc⟩ | ⟨m, hm, hc⟩
  · rw [hword] at hw
    rw [Denotes] at h
    split at h
    · exact h.elim
    next d' hd' =>
      -- the active definition of the word is the one that the node is measured by
      have hall := (List.mem_filter.1 (mem_of_meaning hd')).1
      have heq : d' = d := Definition.eq_of_word hall hd ((word_of_meaning hd').trans (by simpa using hw))
      refine hR ?_
      simp only [State.notes, hd', heq]
      exact hc
    · rcases h with rfl | rfl <;> contradiction
  · rw [hmatching m hm] at hc
    contradiction

/-- What holds of a new node holds of all of the open test that it starts out as. -/
theorem Prototype.every_openTest? {P : Node → Prop} {p : Prototype} {t : OpenTest}
    (hp : P (p.fresh w)) (ht : p.openTest? w = some t) : t.toTest.Every P := by
  cases p with
  | action a => contradiction
  | condition c =>
    cases ht
    exact .leaf hp
  | negation =>
    cases ht
    exact .negation hp (by simp)
  | group c =>
    cases ht
    exact .group hp (by simp)

theorem noted_conditional {h : Head} (hw : h.word ∈ Vocabulary.conditionalWords) (t : Option Test)
    (is : List Item) : (Node.item (.conditional h t is)).Noted R := by
  have hno : ∀ d ∈ Definition.all, d.word ∉ Vocabulary.conditionalWords := by decide
  refine ⟨fun c hc => ?_, List.nil_subset R⟩
  rcases needs_iff.1 hc with ⟨d, hd, hword, -, -⟩ | ⟨m, hm, -⟩
  · have heq : h.word = d.word := by simpa [word?, Item.head?] using hword
    exact absurd (heq ▸ hw) (hno d hd)
  · contradiction

theorem noted_comment (c : Comment) : (Node.item (.comment c)).Noted R := by
  refine ⟨fun b hb => ?_, List.nil_subset R⟩
  rcases needs_iff.1 hb with ⟨d, -, hword, -, -⟩ | ⟨m, hm, -⟩ <;> contradiction

/-- A node whose matching has absorbed an argument needs what it needed and what the argument notes. -/
theorem Node.Noted.of_absorb {n n' : Node} {m m' : Matching} {ws ws' : List Argument} {a : Argument}
    {need : Option String} (h : n.Noted R) (hm : n.matching? = some m)
    (hab : m.absorb ws a = .ok (m', ws', need)) (hR : need.toList ⊆ R) (hm' : n'.matching? = some m')
    (hword : n'.word? = n.word?) (hknown : n'.placeholder? = n.placeholder?)
    (hdeclares : n'.declares = n.declares) : n'.Noted R := by
  refine ⟨fun c hc => ?_, by rw [hdeclares]; exact h.declares⟩
  rcases needs_iff.1 hc with ⟨d, hd, hw, hk, hc⟩ | ⟨k, hk, hc⟩
  · rw [hword] at hw
    rw [hknown] at hk
    exact h.needs c (needs_iff.2 (.inl ⟨d, hd, hw, hk, hc⟩))
  · rw [hm'] at hk
    cases hk
    rcases Matching.mem_needs_of_absorb hab hc with hc | hc
    · exact h.needs c (needs_iff.2 (.inr ⟨m, hm, hc⟩))
    · exact hR hc

/-- An action that absorbs an argument into its matching. -/
theorem Node.Noted.withMatching_action {hd : Head} {x : Action} {m m' : Matching}
    {ws ws' : List Argument} {a : Argument} {need : Option String}
    (h : (Node.item (.action hd x)).Noted R) (hm : x.matching? = some m)
    (hab : m.absorb ws a = .ok (m', ws', need)) (hR : need.toList ⊆ R) :
    (Node.item (.action hd (x.withMatching m'))).Noted R := by
  have hm' : (x.withMatching m').matching? = some m' := by
    cases x <;> first | contradiction | rfl
  refine h.of_absorb hm hab hR hm' rfl ?_ ?_
  · cases x <;> rfl
  · cases x <;> rfl

/-- An open test that absorbs an argument into its matching. -/
theorem Node.Noted.withMatching_test {t : OpenTest} {m' : Matching} {ws ws' : List Argument}
    {a : Argument} {need : Option String} (h : (Node.test t.toTest).Noted R)
    (hab : t.matching.absorb ws a = .ok (m', ws', need)) (hR : need.toList ⊆ R) :
    (Node.test (t.withMatching m').toTest).Noted R := by
  have hm : (Node.test t.toTest).matching? = some t.matching := by cases t <;> rfl
  have hm' : (Node.test (t.withMatching m').toTest).matching? = some m' := by cases t <;> rfl
  refine h.of_absorb hm hab hR hm' ?_ ?_ rfl
  · cases t <;> rfl
  · cases t <;> rfl

end

/-! ### One symbol -/

theorem Action.DeleteHeader.matching_take (a : DeleteHeader) (args : List Argument) :
    (a.take.run args).1.matching = a.matching := by
  simp only [take, Taking.run_bind]
  split <;> rfl

theorem Action.matching?_take_eq (a : Action) (args : List Argument) :
    (a.take.run args).1.matching? = a.matching? := by
  cases a with
  | deleteHeader a => exact congrArg some (a.matching_take args)
  | _ => rfl

namespace State
variable {caps R : List String} {s s' : State}

/-- Giving arguments to an action changes what it declares, but not what it needs. -/
theorem needs_take {h : Head} {a : Action} {args : List Argument} {c : String}
    (hc : (Node.item (.action h (a.take.run args).1)).Needs c) :
    (Node.item (.action h a)).Needs c := by
  rw [needs_iff] at hc ⊢
  simp only [Node.placeholder?, Item.isPlaceholder, Node.matching?, Item.matching?,
    Action.matching?_take_eq, Action.isPlaceholder_take] at hc ⊢
  exact hc

/-- What has been read needs and declares nothing that is not noted. -/
theorem Every.reads (h : s.Every (Noted R)) {y : Symbol}
    (hR : s.notes (.ofCapabilities caps) y ⊆ R) (hr : Reads (.ofCapabilities caps) s y s') :
    s'.Every (Noted R) := by
  have hlocal := local_noted R
  cases hr with
  | conditional word free =>
    exact h.withStatement (noted_conditional (Vocabulary.mem_of_meaning_eq_conditional word) _ _)
  | action word free => exact h.withStatement (word.noted_fresh hR)
  | @test w p t hd outer word opens slot =>
    obtain ⟨hhd, ho⟩ := h.slot? hlocal slot
    exact h.withStatement ⟨hhd, ho, Prototype.every_openTest? (word.noted_fresh hR) opens⟩
  | @argument hd a args b here plain =>
    have hnoted : (Node.item (.action hd a)).Noted R := h.statement _ here
    exact h.withStatement hnoted
  | @absorbed hd a args args' b m m' need here matching absorb =>
    have hneed : need.toList ⊆ R := by
      simpa [notes, matcher?, here, matching, Matching.noted_of_absorb absorb] using hR
    have hnoted : (Node.item (.action hd a)).Noted R := h.statement _ here
    exact h.withStatement (hnoted.withMatching_action matching absorb hneed)
  | @tested hd p args' b m' need here absorb =>
    have hneed : need.toList ⊆ R := by
      simpa [notes, matcher?, here, Matching.noted_of_absorb absorb] using hR
    obtain ⟨hhd, hp⟩ := h.statement _ here
    have hnoted := hp.inner.here.withMatching_test absorb hneed
    exact h.withStatement ⟨hhd, hp.outer, OpenTest.every_withMatching hp.inner hnoted⟩
  | comment => exact h.comment hlocal (noted_comment _)
  | @semicolon hd a args here =>
    have hnoted : (Node.item (.action hd a)).Noted R := h.statement _ here
    have hdeclares : (Item.action hd (a.take.run args).1).declares ⊆ R := by
      simpa [notes, here, Statement.close] using hR
    exact h.withoutStatement.add hlocal (.action ⟨fun c hc => hnoted.needs c (needs_take hc), hdeclares⟩)
  | blockStart here => exact h.openBlock hlocal (h.statement _ here) (by simp)
  | testEnd here closed =>
    obtain ⟨hhd, hp⟩ := h.statement _ here
    refine h.openBlock hlocal hhd ?_
    rintro _ ⟨⟩
    exact hp.close hlocal
  | @blockEnd b bs free here =>
    have hblocks := h.blocks
    rw [here] at hblocks
    obtain ⟨hb, hbs⟩ := List.forall_mem_cons.1 hblocks
    have hs : State.Every (Noted R) { s with blocks := bs } := ⟨h.items, hbs, h.statement⟩
    exact hs.add hlocal hb
  | leftParen here =>
    obtain ⟨hhd, hp⟩ := h.statement _ here
    exact h.withStatement ⟨hhd, hp.outer, hp.inner⟩
  | rightParen here group | comma here group =>
    obtain ⟨hhd, hp⟩ := h.statement _ here
    exact h.withStatement ⟨hhd, hp.nearestGroup? hlocal group _⟩

/-! ### A whole script -/

theorem every_empty {P : Node → Prop} : State.Every P {} :=
  ⟨by simp, by simp, by simp⟩

theorem Every.steps (h : s.Every (Noted R)) {ys : List Symbol}
    (hs : State.steps (.ofCapabilities caps) s ys = .ok s') (hR : s'.requires ⊆ R) :
    s'.Every (Noted R) := by
  fun_induction State.steps (.ofCapabilities caps) s ys with
  | case1 s => cases hs; exact h
  | case2 s y ys s₁ h₁ ih =>
    obtain ⟨s₂, hr, heq⟩ := reads_of_step h₁
    have hnotes : s.notes (.ofCapabilities caps) y ⊆ R := fun c hc =>
      hR (requires_subset_of_steps hs ((mem_requires_of_step h₁).2 (.inr hc)))
    have hevery := h.reads hnotes hr
    refine ih ?_ hs
    rw [heq]
    exact ⟨hevery.items, hevery.blocks, hevery.statement⟩
  | case3 => contradiction

/-- All that the nodes of the finished tree need has been noted. -/
theorem Every.needs_finish (h : s.Every (Noted R)) :
    ∀ i ∈ s.finish.items, i.Every fun n => ∀ c, n.Needs c → c ∈ R := by
  have hlocal : Local fun n => ∀ c, n.Needs c → c ∈ R := fun _ _ hn halike c hc =>
    hn c (halike.needs hc)
  have hmono : ∀ n : Node, n.Noted R → ∀ c, n.Needs c → c ∈ R := fun n hn => hn.needs
  have hstatement : ∀ i ∈ s.statement.map Statement.close,
      i.Every fun n => ∀ c, n.Needs c → c ∈ R := by
    intro i hi
    obtain ⟨c, hc, rfl⟩ := Option.map_eq_some_iff.1 hi
    have hP := h.statement c hc
    cases c with
    | action hd a args =>
      have hnoted : (Node.item (.action hd a)).Noted R := hP
      exact .action fun c hc => hnoted.needs c (needs_take hc)
    | conditional hd => exact .conditional (hmono _ hP) (by simp) (by simp)
    | testing hd p =>
      refine .conditional (hlocal (hmono _ hP.1) ⟨rfl, rfl, rfl, rfl⟩) ?_ (by simp)
      rintro _ ⟨⟩
      exact (hP.2.close (local_noted R)).mono hmono
  refine List.forall_mem_append.2 ⟨fun i hi => (h.items i hi).mono hmono, fun i hi => ?_⟩
  exact every_closeBlocks hlocal (fun b hb => (h.blocks b hb).mono hmono) hstatement i
    (Option.mem_toList.1 hi)

theorem finish_of_depth (hd : s.depth = 0) : s.finish.items = s.items := by
  obtain ⟨items, blocks, st, rs⟩ := s
  cases st with
  | some c => cases c <;> simp [depth, Statement.depth] at hd
  | none =>
    have hb : blocks = [] := by simpa [depth] using hd
    simp [finish, hb, closeBlocks]

end State

namespace Script
variable {caps : List String} {name text : String} {s : Script}

/-- What the nodes of a script need has been noted. -/
theorem needs_of_parse (h : parse caps name text = .ok s) :
    ∀ n ∈ s.nodes, ∀ c, n.2.Needs c → c ∈ s.requires := by
  obtain ⟨st, hst, rfl⟩ := read_eq_ok_iff.1 h
  have hevery := State.every_empty.steps hst (List.Subset.refl st.requires)
  exact every_iff_nodes.1 hevery.needs_finish

/-- What the nodes of a script declare has been noted as well, where nothing was left open. -/
theorem declares_of_parse (h : parse caps name text = .ok s) {st : State}
    (hst : State.run (.ofCapabilities caps) {} (Token.all (normalize text.toList)) = .ok st)
    (hd : st.depth = 0) : ∀ n ∈ s.nodes, n.2.declares ⊆ s.requires := by
  have hsteps := State.run_eq_ok_iff.1 hst
  obtain ⟨st', hst', rfl⟩ := read_eq_ok_iff.1 h
  have heq : st = st' := by
    rw [Token.symbols, hsteps] at hst'
    exact Except.ok.inj hst'
  have hevery := State.every_empty.steps hsteps (List.Subset.refl st.requires)
  have hitems : ∀ i ∈ st.finish.items, i.Every (Noted st.requires) := by
    rw [State.finish_of_depth hd]
    exact hevery.items
  rw [← heq]
  exact fun n hn => (every_iff_nodes.1 hitems n hn).declares

end Script

end SieveScript
