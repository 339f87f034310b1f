import Mathlib.Data.List.Chain
import SieveScript.Proofs.Tracking

/-!
# The open path

`Track.OpenPath` is what holds between the tree and the levels in every state that is reached: each
level leads to a node of its word and its role, the levels are stacked as nodes can be nested, and
arguments wait only for an action or a test. It holds of the track of every state
(`State.openPath_track`): the nodes are found from the outermost level on, since each level leads to a
node that holds the next one as its last part. So reading by places never loses its way
(`Track.openPath_of_run`).
-/

namespace SieveScript

/-! ### The invariant -/

/-- The level is right about the node. -/
structure Level.Describes (l : Level) (n : Node) : Prop where
  word : n.word? = some l.word
  role : n.role = l.role
  matching : l.matcher = true → n.matching?.isSome = true

/-- The node of a level may have the node of another one open inside it. -/
structure Level.Holds (l inner : Level) : Prop where
  action : l.role ≠ .action
  leaf : l.role ≠ .leaf
  group : l.role = .group → l.parens = .opened
  conditional : l.role = .conditional → (l.blockOpen = true ↔ inner.role.isCommand = true)

/-- The levels and the tree agree. -/
structure Track.OpenPath (x : Track) : Prop where
  resolves : ∀ l ls, l :: ls <:+ x.levels → ∃ n, resolve x.items (l :: ls) = some n ∧ l.Describes n
  holds : ∀ inner l ls, inner :: l :: ls <:+ x.levels → l.Holds inner
  waiting : x.pending ≠ [] → ∃ l ls, x.levels = l :: ls ∧ l.role ≠ .conditional

theorem Track.OpenPath.isSome_resolve {x : Track} (h : x.OpenPath) (hx : x.levels ≠ []) :
    (resolve x.items x.levels).isSome = true := by
  obtain ⟨l, ls, hls⟩ := List.exists_cons_of_ne_nil hx
  obtain ⟨n, hn, -⟩ := h.resolves l ls (hls ▸ List.suffix_refl _)
  rw [hls, hn]
  rfl

theorem Track.OpenPath.isSome_resolve_of_pending {x : Track} (h : x.OpenPath) (hx : x.pending ≠ []) :
    (resolve x.items x.levels).isSome = true := by
  obtain ⟨l, ls, hls, -⟩ := h.waiting hx
  exact h.isSome_resolve (by simp [hls])

/-! ### Each level leads to its node -/

/-- Each level leads to a node that it describes. -/
def Held (items : List Item) : List Level → Prop
  | [] => True
  | l :: ls => (∃ n, resolve items (l :: ls) = some n ∧ l.Describes n) ∧ Held items ls

theorem Held.of_suffix {items : List Item} {l : Level} {ls ls' : List Level} (h : Held items ls')
    (hs : l :: ls <:+ ls') : ∃ n, resolve items (l :: ls) = some n ∧ l.Describes n := by
  induction ls' with
  | nil =>
    have := List.eq_nil_of_suffix_nil hs
    contradiction
  | cons l' ls' ih =>
    obtain ⟨hl', hls'⟩ := h
    rcases List.suffix_cons_iff.1 hs with heq | hs
    · cases heq
      exact hl'
    · exact ih hls' hs

namespace State
variable {items : List Item} {bs : List OpenBlock}

theorem describes_conditional {place : Place} {hd : Head} {b : Bool} {t : Option Test} {is : List Item} :
    (Level.conditional place hd b).Describes (.item (.conditional hd t is)) :=
  ⟨rfl, rfl, by simp [Level.conditional]⟩

/-- The blocks around an item lead to their conditionals. -/
theorem held_tree {i : Item} : Held (tree items bs i) (blockLevels items bs) := by
  induction bs generalizing i with
  | nil => trivial
  | cons b bs ih =>
    -- Seen from the next block, the item is the conditional with `i` at the end of its block.
    have hresolve := (itemAt_conditional items bs b.head true).resolve { b with items := b.items ++ [i] }.close rfl
    exact ⟨⟨_, hresolve, describes_conditional⟩, ih⟩

theorem held_wrap {tree : Item → List Item} {ls : List Level} (hat : ItemAt tree ls) {hd : Head}
    (h : ∀ t, Held (tree (.conditional hd (some t) [])) ls) (outer : List Enclosing) (t : Test) :
    Held (tree (.conditional hd (some (TestPath.wrap outer t)) [])) (TestPath.outerLevels outer ++ ls) := by
  induction outer generalizing t with
  | nil => exact h t
  | cons e outer ih =>
    have hlevel : (e.level (TestPath.placeIn outer)).place = TestPath.placeIn outer := by cases e <;> rfl
    have hresolve := (testAt_wrap hat hd hlevel).resolve (e.close t)
    have hdescribes : (e.level (TestPath.placeIn outer)).Describes (.test (e.close t)) := by
      cases e <;> exact ⟨rfl, rfl, fun _ => rfl⟩
    exact ⟨⟨_, hresolve, hdescribes⟩, ih (e.close t)⟩

theorem held_track (s : State) : Held s.track.items s.track.levels := by
  obtain ⟨items, bs, st, rs⟩ := s
  cases st with
  | none =>
    cases bs with
    | nil => trivial
    | cons b bs =>
      rw [track_block]
      exact ⟨⟨_, (itemAt_conditional items bs b.head true).resolve b.close rfl, describes_conditional⟩, held_tree⟩
  | some st =>
    cases st with
    | action hd a args =>
      rw [track_action]
      exact ⟨⟨_, (itemAt_action items bs hd _).resolve (.action hd a) rfl, rfl, rfl, id⟩, held_tree⟩
    | conditional hd =>
      rw [track_conditional]
      exact ⟨⟨_, (itemAt_conditional items bs hd false).resolve (.conditional hd none []) rfl, describes_conditional⟩, held_tree⟩
    | testing hd p =>
      have hat := itemAt_conditional items bs hd false
      have hcond : ∀ t, Held (tree items bs (.conditional hd (some t) []))
          (.conditional (next items bs) hd false :: blockLevels items bs) :=
        fun t => ⟨⟨_, hat.resolve _ rfl, describes_conditional⟩, held_tree⟩
      have hdescribes : (p.inner.level (TestPath.placeIn p.outer)).Describes (.test p.inner.toTest) := by
        cases p.inner <;> exact ⟨rfl, rfl, fun _ => rfl⟩
      rw [track_testing]
      exact ⟨⟨_, (testAt_levels hd p).resolve p.inner.toTest, hdescribes⟩,
        held_wrap hat hcond p.outer p.inner.toTest⟩

/-! ### How levels are stacked -/

theorem holds_conditional {place : Place} {hd : Head} {b : Bool} {inner : Level}
    (h : b = true ↔ inner.role.isCommand = true) : (Level.conditional place hd b).Holds inner :=
  ⟨by simp [Level.conditional], by simp [Level.conditional], by simp [Level.conditional], fun _ => h⟩

theorem isChain_blockLevels {l : Level} (hl : l.role.isCommand = true) :
    List.IsChain (fun inner l => l.Holds inner) (l :: blockLevels items bs) := by
  induction bs generalizing l with
  | nil => exact .singleton l
  | cons b bs ih =>
    exact List.isChain_cons_cons.2 ⟨holds_conditional (by simp [hl]), ih rfl⟩

theorem isChain_outerLevels {l : Level} {ls : List Level} (hl : l.role.isCommand = false)
    (h : ∀ l' : Level, l'.role.isCommand = false → List.IsChain (fun inner l => l.Holds inner) (l' :: ls))
    (outer : List Enclosing) :
    List.IsChain (fun inner l => l.Holds inner) (l :: (TestPath.outerLevels outer ++ ls)) := by
  induction outer generalizing l with
  | nil => exact h l hl
  | cons e outer ih =>
    refine List.isChain_cons_cons.2 ⟨?_, ih (by cases e <;> rfl)⟩
    cases e <;> constructor <;> simp [Enclosing.level]

theorem isChain_track (s : State) : List.IsChain (fun inner l => l.Holds inner) s.track.levels := by
  obtain ⟨items, bs, st, rs⟩ := s
  cases st with
  | none =>
    cases bs with
    | nil => exact .nil
    | cons b bs => exact isChain_blockLevels rfl
  | some st =>
    cases st with
    | action hd a args => exact isChain_blockLevels rfl
    | conditional hd => exact isChain_blockLevels rfl
    | testing hd p =>
      rw [track_testing]
      refine isChain_outerLevels (by cases p.inner <;> rfl) (fun l hl => ?_) p.outer
      exact List.isChain_cons_cons.2 ⟨holds_conditional (by simp [hl]), isChain_blockLevels rfl⟩

/-- The tree and the levels of every state agree. -/
theorem openPath_track (s : State) : s.track.OpenPath := by
  refine ⟨fun l ls hs => (held_track s).of_suffix hs, fun inner l ls hs => ?_, fun hw => ?_⟩
  · exact (List.isChain_cons_cons.1 ((isChain_track s).suffix hs)).1
  · obtain ⟨items, bs, st, rs⟩ := s
    cases st with
    | none => exact absurd rfl hw
    | some st =>
      cases st with
      | action hd a args => exact ⟨_, _, rfl, by simp⟩
      | conditional hd => exact absurd rfl hw
      | testing hd p =>
        rw [track_testing]
        exact ⟨_, _, rfl, by cases p.inner <;> simp [OpenTest.level]⟩

end State

/-! ### Faults -/

theorem Fault.head?_message (f : Fault) :
    ∃ c ∈ ['T', 'C', 'A', 'I', 'S', 'B'], f.message.toList.head? = some c := by
  delta message
  cases f <;> simp [String.toList_append]

theorem Fault.message_ne (f : Fault) {m : String}
    (h : m.toList.head? = some 'P' ∨ m.toList.head? = some 'M') : f.message ≠ m := by
  rintro rfl
  obtain ⟨c, hc, hf⟩ := f.head?_message
  rw [hf] at h
  rcases h with h | h <;> cases h <;> simp at hc

namespace Track

/-- After any number of tokens, reading by places has come as far as reading has, the tree and the
levels agree, so that neither waiting arguments nor comments can get lost, and no failure is one of
losing the way or of a node without a match type. -/
theorem openPath_of_run (capabilities : List String) (text : String) (k : Nat) :
    let v := Vocabulary.ofCapabilities capabilities
    let ts := (Token.all (normalize text.toList)).take k
    match run v {} ts, State.run v {} ts with
    | .ok x, .ok s =>
      x = s.track ∧ x.flush.items = s.finish.items ∧ x.OpenPath ∧
        (x.pending ≠ [] → (resolve x.items x.levels).isSome = true) ∧
        (x.levels ≠ [] → (resolve x.items x.levels).isSome = true)
    | .error (f, t), .error (f', t') =>
      f = .fault f' ∧ t = t' ∧ f.message ≠ "Parser lost track of the open command" ∧
        f.message ≠ "Match type not allowed here"
    | _, _ => False := by
  intro v ts
  have hv : v.Blank := Vocabulary.blank_ofCapabilities capabilities
  have hidle : State.Idle {} := State.idle_of_free rfl
  have hrun := run_track hv hidle ts
  rw [show (State.track {}) = {} from rfl] at hrun
  rw [hrun]
  cases hs : State.run v {} ts with
  | ok s =>
    have hopen := State.openPath_track s
    exact ⟨rfl, State.items_flush_track (idle_of_run hv hidle hs), hopen,
      hopen.isSome_resolve_of_pending, hopen.isSome_resolve⟩
  | error e => exact ⟨rfl, rfl, e.1.message_ne (.inl (by simp)), e.1.message_ne (.inr (by simp))⟩

end Track

end SieveScript
