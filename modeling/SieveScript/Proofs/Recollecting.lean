import SieveScript.Proofs.Faces
import SieveScript.Proofs.Reformatting

/-!
# The capabilities of a script that is written and read again

Capabilities are only ever added while a script is read, so the list may hold some that nothing in
the tree needs any more: a second match type or comparator takes the place of the first, and what the
first one needed stays (`State.replaced`). Every other capability that was met can be seen in the
tree, as something that a node needs or declares (`State.shows_of_steps`). A text that is written from
the tree gives each matching once, so reading it meets what the nodes need and declare and nothing
else, and the two lists differ by what was replaced (`Script.requires_of_render`).
-/

namespace SieveScript

namespace Matching

/-- The capabilities that the matching does not need any more when it has absorbed the argument. -/
def dropped (m : Matching) (waiting : List Argument) (a : Argument) : List String :=
  match m.absorb waiting a with
  | .ok (m', _, _) => m.needs.filter (!m'.needs.contains ·)
  | .error _ => []

theorem mem_dropped {m m' : Matching} {ws ws' : List Argument} {a : Argument} {need : Option String}
    (h : m.absorb ws a = .ok (m', ws', need)) {c : String} :
    c ∈ m.dropped ws a ↔ c ∈ m.needs ∧ c ∉ m'.needs := by
  rw [dropped, h]
  simp

theorem dropped_subset (m : Matching) (ws : List Argument) (a : Argument) : m.dropped ws a ⊆ m.needs := by
  rw [dropped]
  split
  · exact List.filter_subset_self _
  · exact List.nil_subset _

end Matching

namespace State

/-- The capabilities of the match type or the comparator that the symbol replaces. -/
def dropped (s : State) : Symbol → List String
  | .argument a => s.matcher?.elim [] fun (m, args) => m.dropped args a
  | _ => []

/-- The capabilities of all match types and comparators that are replaced while symbols are read. -/
def replaced (v : Vocabulary) : State → List Symbol → List String
  | _, [] => []
  | s, y :: ys =>
    s.dropped y ++
      match s.step v y with
      | .ok s' => replaced v s' ys
      | .error _ => []

end State

/-! ### What the faces show -/

namespace Node
variable {n : Node} {c : String}

theorem alike_face (n : Node) : Alike n n.face := by
  rcases n with (_ | ⟨h, a⟩ | _) | (_ | _ | _)
  case item.action => exact ⟨rfl, rfl, rfl, by cases a <;> rfl⟩
  all_goals exact ⟨rfl, rfl, rfl, rfl⟩

/-- Arguments do not change what a node needs. -/
theorem Needs.take (h : n.Needs c) (args : List Argument) : (n.take.run args).1.Needs c := by
  rcases n with (_ | ⟨hd, a⟩ | _) | (⟨hd, m, d⟩ | _ | _)
  case item.action =>
    rw [needs_iff] at h ⊢
    show (∃ d ∈ Definition.all, some hd.word = some d.word ∧
      (if (a.take.run args).1.isPlaceholder then some hd.word else none) = none ∧ c ∈ d.requires) ∨
      ∃ m, (a.take.run args).1.matching? = some m ∧ c ∈ m.needs
    rw [Action.isPlaceholder_take, Action.matching?_take_eq]
    exact h
  case test.leaf =>
    rw [needs_iff] at h ⊢
    show (∃ e ∈ Definition.all, some hd.word = some e.word ∧
      (if (d.take.run args).1.isPlaceholder then some hd.word else none) = none ∧ c ∈ e.requires) ∨
      ∃ m', some m = some m' ∧ c ∈ m'.needs
    rw [Condition.isPlaceholder_take]
    exact h
  all_goals exact h

theorem matching?_withMatching {m : Matching} (hm : n.matching? = some m) (m' : Matching) :
    (n.withMatching m').matching? = some m' := by
  rcases n with (_ | ⟨_, a⟩ | _) | (_ | _ | _)
  case item.action => cases a <;> first | contradiction | rfl
  all_goals first | contradiction | rfl

/-- A node goes on to need what it needed, but for what its matching does not need any more. -/
theorem Needs.withMatching {m : Matching} (h : n.Needs c) (hm : n.matching? = some m)
    (m' : Matching) : (n.withMatching m').Needs c ∨ c ∈ m.needs ∧ c ∉ m'.needs := by
  have hword : (n.withMatching m').word? = n.word? := by
    rcases n with (_ | _ | _) | (_ | _ | _) <;> rfl
  have hknown : (n.withMatching m').placeholder? = n.placeholder? := by
    rcases n with (_ | ⟨_, a⟩ | _) | (_ | _ | _) <;> first | rfl | (cases a <;> rfl)
  have hm' := matching?_withMatching hm m'
  rw [needs_iff] at h ⊢
  rw [hword, hknown, hm']
  rcases h with h | ⟨k, hk, hc⟩
  · exact .inl (.inl h)
  · cases hm.symm.trans hk
    by_cases hc' : c ∈ m'.needs
    · exact .inl (.inr ⟨m', rfl, hc'⟩)
    · exact .inr ⟨hc, hc'⟩

end Node

namespace View
variable {v : Vocabulary} {V V' : View} {c : String}

/-- A node that has been read needs the capability, or one that is not in focus declares it. -/
inductive Shows (V : View) (c : String) : Prop
  | node {n : Node} (mem : n ∈ V.before ++ V.after) (seen : n.Needs c ∨ c ∈ n.declares)
  | focus {n : Node} {args : List Argument} (here : V.focus = some (n, args)) (needs : n.Needs c)

theorem Shows.close (h : V.Shows c) : ∃ n ∈ V.close, n.Needs c ∨ c ∈ n.declares := by
  cases h with
  | @node n mem seen =>
    refine ⟨n, ?_, seen⟩
    rcases List.mem_append.1 mem with mem | mem <;> simp [View.close, mem]
  | @focus n args here needs =>
    refine ⟨fill (n, args), ?_, .inl (needs.take args)⟩
    simp [View.close, here]

theorem shows_of_close (hgroup : ∀ f ∈ V.focus, ∃ h m c, f.1 = .test (.group h m c [])) {n : Node}
    (hn : n ∈ V.close) (h : n.Needs c ∨ c ∈ n.declares) : V.Shows c := by
  rw [View.close, List.append_assoc, List.mem_append, List.mem_append] at hn
  rcases hn with hn | hn | hn
  · exact .node (List.mem_append_left _ hn) h
  · obtain ⟨f, hf, rfl⟩ := Option.map_eq_some_iff.1 (Option.mem_toList.1 hn)
    -- A group takes no arguments and declares nothing.
    obtain ⟨hd, m, d, hfirst⟩ := hgroup f hf
    obtain ⟨n, args⟩ := f
    cases hfirst
    rcases h with h | h
    · exact .focus hf h
    · contradiction
  · exact .node (List.mem_append_right _ hn) h

end View

namespace State
variable {v : Vocabulary} {caps R : List String} {s s' : State} {c : String}

theorem matcher?_eq (s : State) :
    s.matcher? = s.view.focus.bind fun f => f.1.matching?.map fun m => (m, f.2) := by
  obtain ⟨items, blocks, st, rs⟩ := s
  cases st with
  | none => rfl
  | some st =>
    cases st with
    | testing h p =>
      obtain ⟨outer, inner, args⟩ := p
      cases inner <;> rfl
    | _ => rfl

/-- What could be seen before a symbol can be seen behind it, unless the symbol replaces it. -/
theorem shows_of_reads {y : Symbol} (h : s.view.Shows c) (hr : Reads v s y s') :
    s'.view.Shows c ∨ c ∈ s.dropped y := by
  have hview := view_reads hr
  generalize s'.view = V at hview
  cases hview with
  | conditional word | fresh word =>
    obtain ⟨n, hn, hc⟩ := h.close
    exact .inl (.node (List.mem_append_left _ hn) hc)
  | argument here plain =>
    cases h with
    | node mem seen => exact .inl (.node mem seen)
    | focus here' needs =>
      cases here.symm.trans here'
      exact .inl (.focus rfl needs)
  | @absorbed n args args' b m m' need here matching absorb =>
    cases h with
    | node mem seen => exact .inl (.node mem seen)
    | focus here' needs =>
      cases here.symm.trans here'
      -- Here alone a node comes to need less: another match type or comparator takes the place.
      rcases needs.withMatching matching m' with hn | hdrop
      · exact .inl (.focus rfl hn)
      · refine .inr ?_
        have hmatcher : s.matcher? = some (m, args) := by simp [matcher?_eq, here, matching]
        simp only [dropped, hmatcher, Option.elim_some]
        exact (Matching.mem_dropped absorb).2 hdrop
  | comment => exact .inl h
  | settled ends same group =>
    obtain ⟨n, hn, hc⟩ := h.close
    exact .inl (View.shows_of_close group (same ▸ hn) hc)

theorem needs_fresh {w : String} {p : Prototype} (h : (Vocabulary.ofCapabilities caps).Denotes w p)
    (hc : c ∈ s.notes (.ofCapabilities caps) (.word w)) : (p.fresh w).Needs c := by
  rw [notes] at hc
  split at hc
  next d hd =>
    have hmem := Vocabulary.mem_of_meaning hd
    have hblank := Vocabulary.blank_ofCapabilities caps d hmem
    have hword : (p.fresh w).word? = some d.word := by
      rw [Vocabulary.word_of_meaning hd]
      cases p <;> rfl
    rw [Vocabulary.Denotes, hd] at h
    refine .word (List.mem_filter.1 hmem).1 hword ?_ hc
    rw [← h]
    generalize d.prototype = p at hblank
    cases p <;> simp_all [Prototype.isBlank, Prototype.fresh, Node.placeholder?, Item.isPlaceholder,
      Test.isPlaceholder]
  · contradiction

theorem exists_declares_of_semicolon (hc : c ∈ s.notes v .semicolon) :
    ∃ n ∈ s.view.close, c ∈ n.declares := by
  rw [notes] at hc
  cases hst : s.statement with
  | none =>
    rw [hst] at hc
    contradiction
  | some st =>
    rw [hst] at hc
    cases st with
    | action h a args =>
      refine ⟨(Node.item (Statement.action h a args).close).face, ?_, ?_⟩
      · rw [close_view, hst]
        exact List.mem_append_right _ (List.mem_singleton_self _)
      · rw [(Node.alike_face _).declares]
        exact hc
    | _ => contradiction

/-- What a symbol notes can be seen behind it. -/
theorem shows_of_notes {y : Symbol} (hr : Reads (.ofCapabilities caps) s y s')
    (hc : c ∈ s.notes (.ofCapabilities caps) y) : s'.view.Shows c := by
  have hview := view_reads hr
  generalize s'.view = V at hview
  cases hview with
  | conditional word =>
    simp [notes, word] at hc
  | fresh word => exact .focus rfl (needs_fresh word hc)
  | @argument n args b here plain =>
    have hmatcher : s.matcher? = none := by simp [matcher?_eq, here, plain]
    simp [notes, hmatcher] at hc
  | @absorbed n args args' b m m' need here matching absorb =>
    have hmatcher : s.matcher? = some (m, args) := by simp [matcher?_eq, here, matching]
    simp only [notes, hmatcher, Option.elim_some, Matching.noted_of_absorb absorb] at hc
    refine .focus rfl (Node.needs_iff.2 (.inr ⟨m', Node.matching?_withMatching matching m', ?_⟩))
    exact Matching.need_subset_needs absorb hc
  | comment => contradiction
  | settled ends same group =>
    simp only [List.mem_cons, List.not_mem_nil, or_false] at ends
    rcases ends with rfl | rfl | rfl | rfl | rfl | rfl
    · obtain ⟨n, hn, hdeclares⟩ := exists_declares_of_semicolon hc
      exact View.shows_of_close group (same ▸ hn) (.inr hdeclares)
    all_goals contradiction

/-- A capability that has been met can be seen in what was read, or it was replaced. -/
theorem shows_of_steps {D : List String} (h : ∀ c ∈ s.requires, s.view.Shows c ∨ c ∈ D)
    {ys : List Symbol} (hs : steps (.ofCapabilities caps) s ys = .ok s') :
    ∀ c ∈ s'.requires, s'.view.Shows c ∨ c ∈ D ++ replaced (.ofCapabilities caps) s ys := by
  fun_induction steps (.ofCapabilities caps) s ys generalizing D with
  | case1 s =>
    cases hs
    simpa [replaced] using h
  | case2 s y ys s₁ h₁ ih =>
    obtain ⟨s₂, hr, heq⟩ := reads_of_step h₁
    have hview : s₁.view = s₂.view := by
      rw [heq]
      rfl
    have hstep : ∀ c ∈ s₁.requires, s₁.view.Shows c ∨ c ∈ D ++ s.dropped y := by
      intro c hc
      rw [hview]
      rcases (mem_requires_of_step h₁).1 hc with hc | hc
      · rcases h c hc with hc | hc
        · exact (shows_of_reads hc hr).imp_right fun hc => List.mem_append_right _ hc
        · exact .inr (List.mem_append_left _ hc)
      · exact .inl (shows_of_notes hr hc)
    have hall := ih hstep hs
    rw [replaced, h₁, ← List.append_assoc]
    exact hall
  | case3 => contradiction

theorem Every.dropped_subset (h : s.Every (Node.Noted R)) (y : Symbol) : s.dropped y ⊆ R := by
  cases y with
  | argument a =>
    rw [dropped, matcher?]
    split
    next hd b args hst =>
      have hnoted : (Node.item (.action hd b)).Noted R := h.statement _ hst
      cases hm : b.matching? with
      | none => exact List.nil_subset R
      | some m => exact fun c hc => needs_subset hnoted hm (m.dropped_subset args a hc)
    next hd p hst =>
      have hnoted := (h.statement _ hst).2.inner.here
      have hm : (Node.test p.inner.toTest).matching? = some p.inner.matching := by
        cases p.inner <;> rfl
      exact fun c hc => needs_subset hnoted hm (Matching.dropped_subset _ p.waiting a hc)
    · exact List.nil_subset R
  | _ => exact List.nil_subset R

theorem Every.replaced_subset (h : s.Every (Node.Noted R)) {ys : List Symbol}
    (hs : State.steps (.ofCapabilities caps) s ys = .ok s') (hR : s'.requires ⊆ R) :
    replaced (.ofCapabilities caps) s ys ⊆ R := by
  fun_induction State.steps (.ofCapabilities caps) s ys with
  | case1 s => exact List.nil_subset R
  | case2 s y ys s₁ h₁ ih =>
    have hone : State.steps (.ofCapabilities caps) s [y] = .ok s₁ := steps_cons_of_ok h₁
    have hnext := h.steps hone fun c hc => hR (requires_subset_of_steps hs hc)
    rw [replaced, h₁]
    exact List.append_subset.2 ⟨h.dropped_subset y, ih hnext hs⟩
  | case3 => contradiction

theorem declares_take {h : Head} {a : Action} (ha : ∀ cs, a ≠ .require cs) (args : List Argument) :
    (Item.action h (a.take.run args).1).declares = [] := by
  cases a with
  | require cs => exact absurd rfl (ha cs)
  | _ => rfl

/-- All that the nodes of the finished tree need and declare has been met, if no `require` is open. -/
theorem Every.noted_finish (h : s.Every (Node.Noted R))
    (hopen : ∀ hd cs args, s.statement ≠ some (.action hd (.require cs) args)) :
    ∀ n ∈ s.finish.nodes, n.2.Noted R := by
  have hlocal := Node.local_noted R
  have hstatement : ∀ i ∈ s.statement.map Statement.close, i.Every (Node.Noted R) := by
    intro i hi
    obtain ⟨c, hc, rfl⟩ := Option.map_eq_some_iff.1 hi
    have hnoted := h.statement c hc
    cases c with
    | action hd a args =>
      have hneeds : (Node.item (.action hd a)).Noted R := hnoted
      have hdeclares := declares_take (h := hd) (fun cs ha => hopen hd cs args (ha ▸ hc)) args
      refine .action ⟨fun c hc => hneeds.needs c (needs_take hc), ?_⟩
      rw [Node.declares, hdeclares]
      exact List.nil_subset R
    | conditional hd => exact .conditional hnoted (by simp) (by simp)
    | testing hd p =>
      refine .conditional (hlocal hnoted.1 ⟨rfl, rfl, rfl, rfl⟩) ?_ (by simp)
      rintro _ ⟨⟩
      exact hnoted.2.close hlocal
  refine Script.every_iff_nodes.1 (List.forall_mem_append.2 ⟨h.items, fun i hi => ?_⟩)
  exact every_closeBlocks hlocal h.blocks hstatement i (Option.mem_toList.1 hi)

theorem exists_node_of_shows (h : s.view.Shows c) :
    ∃ n ∈ s.finish.nodes, n.2.Needs c ∨ c ∈ n.2.declares := by
  obtain ⟨f, hf, hc⟩ := h.close
  rw [← facesList_finish, ← Item.map_face_worded_list 0] at hf
  obtain ⟨n, hn, rfl⟩ := List.mem_map.1 hf
  obtain ⟨d, hd, rfl⟩ := List.mem_map.1 (List.mem_filter.1 hn).1
  refine ⟨d, hd, hc.imp (Node.alike_face d.2).needs fun hc => ?_⟩
  rwa [(Node.alike_face d.2).declares] at hc

end State

namespace Script
variable {caps : List String} {name text : String} {s : Script}

/-- Reading what was written meets what the nodes need and declare. -/
theorem mem_requires_of_render (h : parse caps name text = .ok s) :
    ∃ r, parse caps name s.render = .ok { items := s.items, requires := r } ∧
      ∀ c, c ∈ r ↔ ∃ n ∈ s.nodes, n.2.Needs c ∨ c ∈ n.2.declares := by
  have hsound := sound_of_read (Vocabulary.blank_ofCapabilities caps) h
  have hsymbols : Token.symbols (normalize s.render.toList) = Item.symbolsAll s.items := by
    rw [render, String.toList_ofList, (Item.normalized_encodeAll hsound).normalize_eq,
      Item.symbols_encodeAll hsound]
  obtain ⟨r, hsteps, hparse⟩ := parse_of_symbols hsound hsymbols
  have hback := (State.every_empty.steps hsteps (List.Subset.refl r)).items
  have hnoted := every_iff_nodes.1 hback
  refine ⟨r, hparse name, fun c => ⟨fun hc => ?_, ?_⟩⟩
  · classical
    -- Reading back notes nothing outside `K`, the part of `r` that can be seen in the nodes.
    let K := r.filter fun c => ∃ n ∈ s.nodes, n.2.Needs c ∨ c ∈ n.2.declares
    have hK : ∀ n ∈ s.nodes, n.2.Noted K := fun n hn =>
      ⟨fun d hd => List.mem_filter.2 ⟨(hnoted n hn).needs d hd, decide_eq_true ⟨n, hn, .inl hd⟩⟩,
        fun d hd => List.mem_filter.2
          ⟨(hnoted n hn).declares hd, decide_eq_true ⟨n, hn, .inr hd⟩⟩⟩
    have honly := State.notesOnly_items (s := {}) hsound
      (fun i hi => State.notesOnly_item (hsound i hi) (every_iff_nodes.2 hK i hi)) rfl
    have hr : r ⊆ K := honly [] _ (List.nil_subset K) hsteps
    exact of_decide_eq_true (List.mem_filter.1 (hr hc)).2
  · rintro ⟨n, hn, hc | hc⟩
    · exact (hnoted n hn).needs c hc
    · exact (hnoted n hn).declares hc

/-- A script that is written and read again has the capabilities that its nodes need or declare.
What was met before and is missing then was needed by a match type or a comparator that was replaced.
Nothing is met for the first time, unless a `require` was left open. -/
theorem requires_of_render (h : parse caps name text = .ok s) :
    let replaced := State.replaced (.ofCapabilities caps) {}
      ((Token.all (normalize text.toList)).filterMap Token.symbol?)
    ∃ q, parse caps name s.render = .ok q ∧
      (∀ c, c ∈ q.requires ↔ ∃ n ∈ s.nodes, n.2.Needs c ∨ c ∈ n.2.declares) ∧
      (∀ c ∈ s.requires, c ∈ q.requires ∨ c ∈ replaced) ∧ replaced ⊆ s.requires ∧
      ∀ st, State.run (.ofCapabilities caps) {} (Token.all (normalize text.toList)) = .ok st →
        (∀ hd cs args, st.statement ≠ some (.action hd (.require cs) args)) →
        q.requires ⊆ s.requires := by
  intro replaced
  obtain ⟨r, hparse, hr⟩ := mem_requires_of_render h
  obtain ⟨st, hsteps, rfl⟩ := read_eq_ok_iff.1 h
  have hevery := State.every_empty.steps hsteps (List.Subset.refl st.requires)
  refine ⟨_, hparse, hr, fun c hc => ?_, ?_, ?_⟩
  · rcases State.shows_of_steps (D := []) (by simp) hsteps c hc with hc | hc
    · exact .inl ((hr c).2 (State.exists_node_of_shows hc))
    · exact .inr hc
  · exact State.every_empty.replaced_subset hsteps (List.Subset.refl st.requires)
  · intro st' hst' hopen c hc
    have heq : st' = st := Except.ok.inj ((State.run_eq_ok_iff.1 hst').symm.trans hsteps)
    obtain ⟨n, hn, hc⟩ := (hr c).1 hc
    have hnoted := hevery.noted_finish (heq ▸ hopen) n hn
    exact hc.elim (hnoted.needs c) fun hc => hnoted.declares hc

/-- An instance with a match type that is replaced, a comparator and a declaration. -/
theorem requires_of_render_regex :
    let text := "require \"d\"; if true :regex :comparator \"x\" :is \x7b\x7d"
    let s : Script := {
      items := [.action { word := "require" } (.require ["d"]), .conditional { word := "if" }
        (some (.leaf { word := "true" } { matchType := some .same, comparator := some "x" } .always)) []]
      requires := ["d", "regex", "comparator-x"] }
    let replaced := State.replaced (.ofCapabilities []) {}
      ((Token.all (normalize text.toList)).filterMap Token.symbol?)
    parse [] "" text = .ok s ∧ replaced = ["regex"] ∧
    ∃ q, parse [] "" s.render = .ok q ∧
      (∀ c, c ∈ q.requires ↔ ∃ n ∈ s.nodes, n.2.Needs c ∨ c ∈ n.2.declares) ∧
      (∀ c ∈ s.requires, c ∈ q.requires ∨ c ∈ replaced) ∧ replaced ⊆ s.requires ∧
      ∀ st, State.run (.ofCapabilities []) {} (Token.all (normalize text.toList)) = .ok st →
        (∀ hd cs args, st.statement ≠ some (.action hd (.require cs) args)) →
        q.requires ⊆ s.requires := by
  intro text s replaced
  have h : parse [] "" text = .ok s := by decide +kernel
  have hreplaced : replaced = ["regex"] := by decide +kernel
  exact ⟨h, hreplaced, requires_of_render h⟩

/-- A capability that only a replaced match type needed is not met again. -/
theorem not_requires_of_replaced :
    let s : Script := { items := [.conditional { word := "if" }
      (some (.leaf { word := "header" } { matchType := some .same }
        (.header { names := ["a"], keys := ["b"] }))) []], requires := ["regex"] }
    let q : Script := { s with requires := [] }
    parse [] "" "if header :regex :is \"a\" \"b\" \x7b\x7d" = .ok s ∧ parse [] "" s.render = .ok q ∧
      ¬ ∀ c, c ∈ q.requires ↔ c ∈ s.requires := by
  intro s q
  have h : parse [] "" "if header :regex :is \"a\" \"b\" \x7b\x7d" = .ok s := by decide +kernel
  have hback : parse [] "" s.render = .ok q := by decide +kernel
  exact ⟨h, hback, fun hsame => absurd ((hsame "regex").2 (by decide)) (by decide)⟩

end Script

end SieveScript
