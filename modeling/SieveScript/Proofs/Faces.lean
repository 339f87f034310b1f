import SieveScript.Tree.View
import SieveScript.Proofs.Steps

/-!
# The nodes that have been read, side by side

The face of a node is what it says of itself: its word, its matching and its body, but neither its
comments nor what is inside it. `State.view` lists the faces of all nodes read so far in the order of
`Script.nodes`, with the innermost open node, the focus, set apart together with the arguments that
wait for it. Seen like that a symbol does little (`View.Reads`): a word sets the focus on a new node
behind all others, an argument changes the focus, a comment changes nothing, and any other symbol
gives the focus its arguments and leaves nothing or a group in its place. That is all a state can do
(`State.view_reads`), whatever the shape of what is open.
-/

namespace SieveScript

namespace Node

/-- The node without its comments and without the nodes inside it. -/
def face : Node → Node
  | item (.comment c) => item (.comment c)
  | item (.action h a) => item (.action { word := h.word } a)
  | item (.conditional h _ _) => item (.conditional { word := h.word } none [])
  | test (.leaf h m c) => test (.leaf { word := h.word } m c)
  | test (.negation h m _) => test (.negation { word := h.word } m none)
  | test (.group h m c _) => test (.group { word := h.word } m c [])

/-- Replaces the match type and the comparator of a node that takes them. -/
def withMatching (m : Matching) : Node → Node
  | item (.action h a) => item (.action h (a.withMatching m))
  | item i => item i
  | test (.leaf h _ c) => test (.leaf h m c)
  | test (.negation h _ inner) => test (.negation h m inner)
  | test (.group h _ c ts) => test (.group h m c ts)

end Node

/-! ### The faces of a tree -/

namespace Test

mutual

/-- The faces of a test and of the tests inside it, in the order of their words. -/
def faces : Test → List Node
  | leaf h m c => [(Node.test (leaf h m c)).face]
  | negation h m inner => (Node.test (negation h m inner)).face :: facesOption inner
  | group h m c ts => (Node.test (group h m c ts)).face :: facesList ts

def facesOption : Option Test → List Node
  | none => []
  | some t => faces t

def facesList : List Test → List Node
  | [] => []
  | t :: ts => faces t ++ facesList ts

end

theorem facesList_append (ts us : List Test) : facesList (ts ++ us) = facesList ts ++ facesList us := by
  induction ts with
  | nil => rfl
  | cons t ts ih => simp [facesList, ih]

end Test

namespace Item

mutual

/-- The faces of an item and of what is inside it. A comment has none. -/
def faces : Item → List Node
  | comment _ => []
  | action h a => [(Node.item (action h a)).face]
  | conditional h test block =>
    (Node.item (conditional h test block)).face :: (Test.facesOption test ++ facesList block)

def facesList : List Item → List Node
  | [] => []
  | i :: is => faces i ++ facesList is

end

theorem facesList_append (is js : List Item) : facesList (is ++ js) = facesList is ++ facesList js := by
  induction is with
  | nil => rfl
  | cons i is ih => simp [facesList, ih]

end Item

/-- The nodes that have a word. -/
def Node.worded (ns : List (Nat × Node)) : List Node :=
  (ns.map Prod.snd).filter (·.word?.isSome)

theorem Node.worded_append (ns ms : List (Nat × Node)) : worded (ns ++ ms) = worded ns ++ worded ms := by
  simp [worded]

mutual

theorem Test.map_face_worded (depth : Nat) :
    (t : Test) → (Node.worded (t.nodesAt depth)).map Node.face = t.faces
  | .leaf h m c => rfl
  | .negation h m inner => by
    rw [faces, ← Test.map_face_worded_option (depth + 1) inner]
    rfl
  | .group h m c ts => by
    rw [faces, ← Test.map_face_worded_list (depth + 1) ts]
    rfl

theorem Test.map_face_worded_option (depth : Nat) :
    (o : Option Test) → (Node.worded (nodesAtOption depth o)).map Node.face = facesOption o
  | none => rfl
  | some t => Test.map_face_worded depth t

theorem Test.map_face_worded_list (depth : Nat) :
    (ts : List Test) → (Node.worded (nodesAtList depth ts)).map Node.face = facesList ts
  | [] => rfl
  | t :: ts => by
    rw [nodesAtList, Node.worded_append, List.map_append, Test.map_face_worded depth t,
      Test.map_face_worded_list depth ts, facesList]

end

mutual

theorem Item.map_face_worded (depth : Nat) :
    (i : Item) → (Node.worded (i.nodesAt depth)).map Node.face = i.faces
  | .comment c => rfl
  | .action h a => rfl
  | .conditional h test block => by
    rw [faces, ← Test.map_face_worded_option (depth + 1) test,
      ← Item.map_face_worded_list (depth + 1) block, ← List.map_append, ← Node.worded_append]
    rfl

theorem Item.map_face_worded_list (depth : Nat) :
    (is : List Item) → (Node.worded (nodesAtList depth is)).map Node.face = facesList is
  | [] => rfl
  | i :: is => by
    rw [nodesAtList, Node.worded_append, List.map_append, Item.map_face_worded depth i,
      Item.map_face_worded_list depth is, facesList]

end

/-! ### The faces of what is open -/

/-- Faces of nodes in their order, the focus apart with the arguments that wait for it. -/
structure View where
  before : List Node
  focus : Option (Node × List Argument)
  after : List Node

namespace View

/-- The focus with its arguments given to it. -/
def fill (f : Node × List Argument) : Node :=
  (f.1.take.run f.2).1

/-- All faces, with the waiting arguments given to the one in focus. -/
def close (V : View) : List Node :=
  V.before ++ (V.focus.map fill).toList ++ V.after

theorem close_of_no_focus (ns : List Node) : close ⟨ns, none, []⟩ = ns := by
  simp [close]

/-- What reading a symbol may do to the faces, apart from the capabilities it notes. -/
inductive Reads (v : Vocabulary) (V : View) : Symbol → View → Prop
  | conditional {w : String} (word : v.meaning w = .conditional) :
      Reads v V (.word w) ⟨V.close, some (.item (.conditional { word := w } none []), []), []⟩
  | fresh {w : String} {p : Prototype} (word : v.Denotes w p) :
      Reads v V (.word w) ⟨V.close, some (p.fresh w, []), []⟩
  | argument {n : Node} {args : List Argument} {b : Argument} (here : V.focus = some (n, args))
      (plain : n.matching? = none) :
      Reads v V (.argument b) { V with focus := some (n, args ++ [b]) }
  | absorbed {n : Node} {args args' : List Argument} {b : Argument} {m m' : Matching}
      {need : Option String} (here : V.focus = some (n, args)) (matching : n.matching? = some m)
      (absorb : m.absorb args b = .ok (m', args', need)) :
      Reads v V (.argument b) { V with focus := some (n.withMatching m', args') }
  | comment {c : Comment} : Reads v V (.comment c) V
  | settled {y : Symbol} {V' : View}
      (ends : y ∈ [.semicolon, .blockStart, .blockEnd, .leftParen, .rightParen, .comma])
      (same : V'.close = V.close)
      (group : ∀ f ∈ V'.focus, ∃ h m c, f.1 = .test (.group h m c [])) : Reads v V y V'

end View

/-- The faces of a test around the innermost one and of its finished members. -/
def Enclosing.faces : Enclosing → List Node
  | negation h m => [(Node.test (.negation h m none)).face]
  | group h m c ts => (Node.test (.group h m c ts)).face :: Test.facesList ts

/-- The finished tests inside an open one. -/
def OpenTest.members : OpenTest → List Test
  | group _ _ _ _ ts => ts
  | _ => []

theorem OpenTest.matching?_face (t : OpenTest) :
    (Node.test t.toTest).face.matching? = some t.matching := by
  cases t <;> rfl

/-- The face of a conditional. -/
def Head.conditionalFace (h : Head) : Node :=
  (Node.item (.conditional h none [])).face

/-- The faces of the conditional and of the tests around the innermost one. -/
def Enclosing.facesAll (h : Head) (outer : List Enclosing) : List Node :=
  h.conditionalFace :: outer.reverse.flatMap faces

namespace State

/-- The faces of all that is not open, and of the conditionals whose blocks are. -/
def finished (s : State) : List Node :=
  Item.facesList s.items ++ s.blocks.reverse.flatMap fun b => b.close.faces

/-- What the state holds, as faces: those that are complete, the one that arguments go to, and those
inside it. -/
def view (s : State) : View :=
  match s.statement with
  | none => ⟨s.finished, none, []⟩
  | some (.action h a args) => ⟨s.finished, some ((Node.item (.action h a)).face, args), []⟩
  | some (.conditional h) => ⟨s.finished, some (h.conditionalFace, []), []⟩
  | some (.testing h p) =>
    ⟨s.finished ++ Enclosing.facesAll h p.outer, some ((Node.test p.inner.toTest).face, p.waiting),
      Test.facesList p.inner.members⟩

end State

/-! ### Closing what is open -/

theorem Enclosing.faces_close (e : Enclosing) (t : Test) : (e.close t).faces = e.faces ++ t.faces := by
  cases e with
  | negation h m => rfl
  | group h m c ts => simp [close, Test.faces, faces, Test.facesList_append, Test.facesList, Node.face]

theorem Test.faces_foldl_close (outer : List Enclosing) (t : Test) :
    (outer.foldl (fun t e => e.close t) t).faces = outer.reverse.flatMap Enclosing.faces ++ t.faces := by
  induction outer generalizing t with
  | nil => rfl
  | cons e outer ih => simp [ih, Enclosing.faces_close]

namespace TestPath
variable {p : TestPath}

theorem faces_fill (p : TestPath) :
    p.fill.1.faces = View.fill ((Node.test p.inner.toTest).face, p.waiting) ::
      Test.facesList p.inner.members := by
  obtain ⟨outer, inner, args⟩ := p
  cases inner <;> rfl

theorem faces_close (p : TestPath) :
    p.close.faces = p.outer.reverse.flatMap Enclosing.faces ++
      View.fill ((Node.test p.inner.toTest).face, p.waiting) :: Test.facesList p.inner.members := by
  rw [close, Test.faces_foldl_close, faces_fill]

theorem faces_climb {t : Test} {outer : List Enclosing} {g : OpenGroup} (h : climb t outer = some g) :
    outer.reverse.flatMap Enclosing.faces ++ t.faces =
      g.outer.reverse.flatMap Enclosing.faces ++
        (Node.test (.group g.head g.matching g.connective [])).face :: Test.facesList g.members := by
  fun_induction climb t outer with
  | case1 => contradiction
  | case2 t hd m outer ih =>
    rw [← ih h]
    simp [Enclosing.faces, Test.faces, Test.facesOption, Node.face]
  | case3 t hd m c ts outer =>
    cases h
    simp [Enclosing.faces, Test.facesList_append, Test.facesList, Node.face]

theorem faces_nearestGroup? {g : OpenGroup} (h : p.nearestGroup? = some g) (ps : Parens) :
    (g.toPath ps).close.faces = p.close.faces := by
  rw [nearestGroup?] at h
  rw [faces_close, faces_close]
  split at h
  next hi =>
    cases h
    rw [hi]
    rfl
  · rw [← p.faces_fill, faces_climb h]
    rfl

end TestPath

namespace State
variable {v : Vocabulary} {s s' : State}

theorem finished_add (s : State) (i : Item) : (s.add i).finished = s.finished ++ i.faces := by
  obtain ⟨items, _ | ⟨b, bs⟩, st, rs⟩ := s
  · simp [add, finished, Item.facesList_append, Item.facesList]
  · simp [add, finished, OpenBlock.close, Item.faces, Item.facesList_append, Item.facesList, Node.face]

theorem view_add (hs : s.statement = none) (i : Item) :
    (s.add i).view = ⟨s.finished ++ i.faces, none, []⟩ := by
  have hst : (s.add i).statement = none := by
    rw [← hs]
    obtain ⟨items, _ | ⟨b, bs⟩, st, rs⟩ := s <;> rfl
  rw [view, hst, finished_add]

theorem view_openBlock (s : State) (h : Head) (t : Option Test) :
    (s.openBlock h t).view = ⟨s.finished ++ (Item.conditional h t []).faces, none, []⟩ := by
  simp [view, openBlock, finished, OpenBlock.close]

/-- Closing the faces is closing the statement. -/
theorem close_view (s : State) :
    s.view.close = s.finished ++ (s.statement.map Statement.close).elim [] Item.faces := by
  obtain ⟨items, blocks, st, rs⟩ := s
  cases st with
  | none => simp [view, View.close]
  | some st =>
    cases st with
    | action h a args => exact List.append_nil _
    | conditional h => exact List.append_nil _
    | testing h p =>
      have hfaces := p.faces_close
      simp only [view, View.close, Option.map_some, Option.elim_some, Statement.close, Item.faces,
        Test.facesOption, Item.facesList, hfaces, Enclosing.facesAll]
      simp [Head.conditionalFace, Node.face]

/-- A test starts behind all faces: what is around it takes no arguments. -/
theorem close_view_of_slot? {h : Head} {outer : List Enclosing} (hs : s.slot? = some (h, outer)) :
    s.view.close = s.finished ++ Enclosing.facesAll h outer := by
  rw [slot?] at hs
  split at hs
  next hst =>
    cases hs
    rw [close_view, hst]
    rfl
  next hd p hst =>
    obtain ⟨e, he, heq⟩ := Option.map_eq_some_iff.1 hs
    cases heq
    have hfaces : View.fill ((Node.test p.inner.toTest).face, p.waiting) ::
        Test.facesList p.inner.members = e.faces := by
      unfold OpenTest.enclose? at he
      split at he
      next hi => cases he; rw [hi]; rfl
      next hi => cases he; rw [hi]; rfl
      · contradiction
    rw [view, hst]
    simp [View.close, Enclosing.facesAll, ← hfaces]
  · contradiction

theorem view_comment (s : State) (c : Comment) : (s.comment c).view = s.view := by
  obtain ⟨items, blocks, st, rs⟩ := s
  cases st with
  | none =>
    rw [comment, view_add rfl]
    simp [Item.faces]
    rfl
  | some st =>
    cases st with
    | testing h p =>
      obtain ⟨outer, inner, args⟩ := p
      cases inner <;> rfl
    | _ => rfl

theorem view_of_action {hd : Head} {a : Action} {args : List Argument}
    (hs : s.statement = some (.action hd a args)) :
    s.view = ⟨s.finished, some ((Node.item (.action hd a)).face, args), []⟩ := by
  rw [view, hs]

theorem view_of_testing {hd : Head} {p : TestPath} (hs : s.statement = some (.testing hd p)) :
    s.view = ⟨s.finished ++ Enclosing.facesAll hd p.outer,
      some ((Node.test p.inner.toTest).face, p.waiting), Test.facesList p.inner.members⟩ := by
  rw [view, hs]

/-- Every step does one of the things that a view can do. -/
theorem view_reads {y : Symbol} (h : Reads v s y s') : View.Reads v s.view y s'.view := by
  have hfree : s.statement = none → s.view.close = s.finished := by
    intro free
    rw [close_view, free]
    exact List.append_nil _
  cases h with
  | conditional word free =>
    have hreads := View.Reads.conditional (V := s.view) word
    rw [hfree free] at hreads
    exact hreads
  | action word free =>
    have hreads := View.Reads.fresh (V := s.view) word
    rw [hfree free] at hreads
    exact hreads
  | @test w p t hd outer word opens slot =>
    have hreads := View.Reads.fresh (V := s.view) word
    rw [close_view_of_slot? slot] at hreads
    cases p with
    | action a => contradiction
    | _ =>
      cases opens
      exact hreads
  | @argument hd a args b here plain =>
    rw [view_of_action here]
    exact .argument (n := (Node.item (.action hd a)).face) rfl plain
  | @absorbed hd a args args' b m m' need here matching absorb =>
    rw [view_of_action here]
    exact .absorbed (n := (Node.item (.action hd a)).face) rfl matching absorb
  | @tested hd p args' b m' need here absorb =>
    have hview := view_of_testing here
    have hmatching := OpenTest.matching?_face p.inner
    have hreads := View.Reads.absorbed (v := v) (congrArg View.focus hview) hmatching absorb
    rw [hview] at hreads ⊢
    obtain ⟨outer, inner, args⟩ := p
    cases inner <;> exact hreads
  | comment =>
    rw [view_comment]
    exact .comment
  | semicolon here =>
    refine .settled (by simp) ?_ (by simp [view_add])
    rw [view_add rfl, close_view, here, View.close_of_no_focus]
    rfl
  | blockStart here =>
    refine .settled (by simp) ?_ (by simp [view_openBlock])
    rw [view_openBlock, close_view, here, View.close_of_no_focus]
    rfl
  | testEnd here closed =>
    refine .settled (by simp) ?_ (by simp [view_openBlock])
    rw [view_openBlock, close_view, here, View.close_of_no_focus]
    rfl
  | @blockEnd b bs free here =>
    have hadd := view_add (s := { s with blocks := bs }) free b.close
    refine .settled (by simp) ?_ (by simp [hadd])
    rw [hadd, hfree free]
    simp [View.close, finished, here]
  | leftParen here =>
    refine .settled (by simp) ?_ ?_
    · rw [close_view, close_view, here]
      rfl
    · rintro _ ⟨⟩
      exact ⟨_, _, _, rfl⟩
  | rightParen here group | comma here group =>
    refine .settled (by simp) ?_ ?_
    · have hfaces := TestPath.faces_nearestGroup? group
      rw [close_view, close_view, here]
      simp only [Option.map_some, Option.elim_some, Statement.close, Item.faces, Test.facesOption,
        hfaces]
      rfl
    · rintro _ ⟨⟩
      exact ⟨_, _, _, rfl⟩

/-! ### Finished scripts -/

theorem facesList_closeBlocks (inner : Option Item) (bs : List OpenBlock) :
    Item.facesList (closeBlocks inner bs).toList =
      bs.reverse.flatMap (fun b => b.close.faces) ++ inner.elim [] Item.faces := by
  induction bs generalizing inner with
  | nil => cases inner <;> simp [closeBlocks, Item.facesList]
  | cons b bs ih =>
    rw [closeBlocks, ih]
    cases inner <;>
      simp [OpenBlock.close, Item.facesList, Item.faces, Item.facesList_append, Node.face]

theorem facesList_finish (s : State) : Item.facesList s.finish.items = s.view.close := by
  rw [finish, Item.facesList_append, facesList_closeBlocks, ← List.append_assoc, close_view]
  rfl

end State

end SieveScript
