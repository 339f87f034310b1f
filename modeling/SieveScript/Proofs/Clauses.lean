import SieveScript.Proofs.Faces
import SieveScript.Proofs.Shape
import SieveScript.Proofs.Soundness

/-!
# Each node gets its arguments once

A clause is a word of a script with the arguments that follow it, up to the next symbol that is
neither an argument nor a comment. The clauses of a text are found without any regard to nesting, and
yet they are all that the nodes of the tree hold: the nodes and the clauses go in pairs, and each
node is a fresh one of its word that was given the arguments of its clause, once and all together
(`Script.filledFrom_of_parse`). A node that has a matching is not given those arguments that make up
the matching. While symbols are read, either no clause is open and what is in focus takes no
arguments, or the last clause belongs to the focus and nothing stands behind it (`View.Tells`).
-/

namespace SieveScript

/-! ### Arguments without those of the matching -/

namespace Argument

/-- Leaves out each linking tag together with the argument behind it. -/
def withoutPairs : List Argument → List Argument
  | a :: b :: as => if a.isLinking then withoutPairs as else a :: withoutPairs (b :: as)
  | as => as

/-- Leaves out the match types, and then the pairs of a linking tag and its argument. -/
def withoutMatching (args : List Argument) : List Argument :=
  withoutPairs (args.filter (!·.isMatchType))

theorem withoutPairs_concat (as : List Argument) (a : Argument) :
    withoutPairs (as ++ [a]) =
      if (withoutPairs as).getLast?.any isLinking then (withoutPairs as).dropLast
      else withoutPairs as ++ [a] := by
  fun_induction withoutPairs as with
  | case1 b c as hb ih =>
    rw [List.cons_append, List.cons_append, withoutPairs, if_pos hb]
    exact ih
  | case2 b c as hb ih =>
    rw [List.cons_append, List.cons_append, withoutPairs, if_neg hb, ← List.cons_append, ih]
    generalize withoutPairs (c :: as) = rest
    cases rest with
    | nil => simp [hb]
    | cons d ds =>
      simp only [List.getLast?_cons_cons, List.dropLast_cons_cons, List.cons_append]
      split <;> rfl
  | case3 as hshort =>
    match as with
    | [] => rfl
    | [b] => simp [withoutPairs]
    | b :: c :: as => exact absurd rfl (hshort b c as)

/-- The arguments that wait are those that have arrived, less those of the matching. -/
theorem buffer_withoutMatching (args : List Argument) (a : Argument) :
    buffer (withoutMatching args) a = withoutMatching (args ++ [a]) := by
  rw [buffer, withoutMatching, withoutMatching, List.filter_append]
  by_cases ha : a.isMatchType = true
  · simp [ha]
  · rw [if_neg ha, ← withoutPairs_concat]
    simp [ha]

end Argument

namespace Prototype

/-- The arguments that are given to a node, less those of its matching if it has one. -/
def own : Prototype → List Argument → List Argument
  | action a, args => if a.matching?.isSome then Argument.withoutMatching args else args
  | _, args => Argument.withoutMatching args

theorem own_eq (p : Prototype) (w : String) (args : List Argument) :
    p.own args = if (p.fresh w).matching?.isSome then Argument.withoutMatching args else args := by
  cases p <;> rfl

end Prototype

theorem Action.DeleteHeader.take_withMatching (a : DeleteHeader) (m : Matching) (args : List Argument) :
    ({ a with matching := m }.take.run args).1 = { (a.take.run args).1 with matching := m } := by
  simp only [take, Taking.run_bind]
  split <;> rfl

theorem Action.take_withMatching (a : Action) (m : Matching) (args : List Argument) :
    ((a.withMatching m).take.run args).1 = (a.take.run args).1.withMatching m := by
  cases a with
  | deleteHeader a => exact congrArg deleteHeader (a.take_withMatching m args)
  | _ => rfl

/-! ### Clauses -/

/-- A word and the arguments that follow it. -/
structure Clause where
  word : String
  arguments : List Argument
  deriving DecidableEq

namespace Clause

/-- The arguments in front of the first symbol that is neither an argument nor a comment. -/
def leading : List Symbol → List Argument
  | .argument a :: ys => a :: leading ys
  | .comment _ :: ys => leading ys
  | _ => []

/-- The clauses of symbols: each word starts one, with the arguments that `leading` finds behind it. -/
def all : List Symbol → List Clause
  | [] => []
  | .word w :: ys => ⟨w, leading ys⟩ :: all ys
  | _ :: ys => all ys

/-- The clause with the arguments that the symbols start with. -/
def extend (c : Clause) (ys : List Symbol) : Clause :=
  { c with arguments := c.arguments ++ leading ys }

/-- All clauses, when some are complete, one may be open, and symbols are still to come. -/
def complete (cs : List Clause) (open? : Option Clause) (ys : List Symbol) : List Clause :=
  cs ++ (open?.map (·.extend ys)).toList ++ all ys

end Clause

/-! ### What a clause says about its node -/

namespace Node

/-- The node without a match type and a comparator. -/
def bare (n : Node) : Node :=
  n.withMatching {}

/-- The face is that of a conditional, or of a fresh node of the word that was given the arguments of
the clause. The matching does not count. -/
inductive FilledFrom (v : Vocabulary) (n : Node) (c : Clause) : Prop
  | conditional (word : v.meaning c.word = .conditional)
      (face : n = .item (.conditional { word := c.word } none []))
  | fresh {p : Prototype} (word : v.Denotes c.word p)
      (face : n.bare = ((p.fresh c.word).take.run (p.own c.arguments)).1.bare)

/-- The node is in focus, the clause is its own so far, and the arguments wait for it. -/
inductive OpenFor (v : Vocabulary) (n : Node) (args : List Argument) (c : Clause) : Prop
  | conditional (word : v.meaning c.word = .conditional)
      (face : n = .item (.conditional { word := c.word } none []))
  | fresh {p : Prototype} (word : v.Denotes c.word p) (face : n.bare = (p.fresh c.word).bare)
      (waiting : args = p.own c.arguments)

variable {v : Vocabulary} {n n' : Node} {c : Clause} {args : List Argument}

theorem bare_withMatching (n : Node) (m : Matching) : (n.withMatching m).bare = n.bare := by
  rcases n with (_ | ⟨h, a⟩ | _) | (_ | _ | _) <;> first | rfl | (cases a <;> rfl)

theorem bare_take (n : Node) (args : List Argument) :
    (n.take.run args).1.bare = (n.bare.take.run args).1 := by
  rcases n with (_ | ⟨h, a⟩ | _) | (_ | _ | _)
  case item.action =>
    show Node.item (.action h ((a.take.run args).1.withMatching {})) = _
    rw [← Action.take_withMatching]
    rfl
  all_goals rfl

theorem isSome_matching?_bare (n : Node) : n.bare.matching?.isSome = n.matching?.isSome := by
  rcases n with (_ | ⟨h, a⟩ | _) | (_ | _ | _) <;> first | rfl | (cases a <;> rfl)

theorem FilledFrom.congr (h : n.FilledFrom v c) (hn : n'.bare = n.bare)
    (hc : n.matching? ≠ none) : n'.FilledFrom v c := by
  cases h with
  | conditional word face =>
    rw [face] at hc
    exact absurd rfl hc
  | fresh word face => exact .fresh word (hn.trans face)

theorem OpenFor.filledFrom (h : n.OpenFor v args c) : (View.fill (n, args)).FilledFrom v c := by
  cases h with
  | conditional word face =>
    rw [face]
    exact .conditional word rfl
  | fresh word face waiting =>
    refine .fresh word ?_
    rw [View.fill, bare_take, bare_take, face, waiting]

theorem OpenFor.argument (h : n.OpenFor v args c) (hm : n.matching? = none) (b : Argument) :
    n.OpenFor v (args ++ [b]) { c with arguments := c.arguments ++ [b] } := by
  cases h with
  | conditional word face => exact .conditional word face
  | @fresh p word face waiting =>
    have hsome := congrArg (fun n => n.matching?.isSome) face
    simp only [isSome_matching?_bare, hm] at hsome
    refine .fresh word face ?_
    rw [p.own_eq c.word, ← hsome] at waiting ⊢
    rw [waiting]
    rfl

theorem OpenFor.absorbed {m m' : Matching} {args' : List Argument} {b : Argument}
    {need : Option String} (h : n.OpenFor v args c) (hm : n.matching? = some m)
    (hab : m.absorb args b = .ok (m', args', need)) :
    (n.withMatching m').OpenFor v args' { c with arguments := c.arguments ++ [b] } := by
  cases h with
  | conditional word face =>
    rw [face] at hm
    contradiction
  | @fresh p word face waiting =>
    have hsome := congrArg (fun n => n.matching?.isSome) face
    simp only [isSome_matching?_bare, hm] at hsome
    refine .fresh word ((bare_withMatching n m').trans face) ?_
    rw [p.own_eq c.word, ← hsome] at waiting ⊢
    rw [(Matching.fits_of_absorb hab).2, waiting]
    exact Argument.buffer_withoutMatching c.arguments b

end Node

/-! ### Clauses while symbols are read -/

namespace View
variable {v : Vocabulary} {V V' : View} {cs : List Clause} {c? : Option Clause}

/-- The faces tell the clauses that were read. -/
inductive Tells (v : Vocabulary) (V : View) (cs : List Clause) : Option Clause → Prop
  | between (filled : List.Forall₂ (Node.FilledFrom v) V.close cs)
      (group : ∀ f ∈ V.focus, ∃ h m c, f.1 = .test (.group h m c [])) : Tells v V cs none
  | inside {n : Node} {args : List Argument} {c : Clause}
      (filled : List.Forall₂ (Node.FilledFrom v) V.before cs) (here : V.focus = some (n, args))
      (last : V.after = []) (focus : n.OpenFor v args c) : Tells v V cs (some c)

theorem Tells.close (h : V.Tells v cs c?) :
    List.Forall₂ (Node.FilledFrom v) V.close (cs ++ c?.toList) := by
  cases h with
  | between filled group => simpa using filled
  | inside filled here last focus =>
    rw [View.close, here, last, List.append_nil]
    exact List.rel_append filled (.cons focus.filledFrom .nil)

theorem forall₂_replace {R : Node → Clause → Prop} {ns ms : List Node} {n n' : Node}
    (h : List.Forall₂ R (ns ++ n :: ms) cs) (hn : ∀ c, R n c → R n' c) :
    List.Forall₂ R (ns ++ n' :: ms) cs := by
  induction ns generalizing cs with
  | nil =>
    cases h with
    | cons h hs => exact .cons (hn _ h) hs
  | cons _ ns ih =>
    cases h with
    | cons h hs => exact .cons h (ih hs)

/-- A symbol adds to the clauses what the faces tell. -/
theorem Tells.reads (h : V.Tells v cs c?) {y : Symbol} (hr : V.Reads v y V') :
    ∃ cs' c?', V'.Tells v cs' c?' ∧
      ∀ ys, Clause.complete cs' c?' ys = Clause.complete cs c? (y :: ys) := by
  -- A word ends the clause that is open and opens its own.
  have hopen : ∀ {w : String} {n : Node}, n.OpenFor v [] ⟨w, []⟩ →
      Tells v ⟨V.close, some (n, []), []⟩ (cs ++ c?.toList) (some ⟨w, []⟩) := fun hn =>
    .inside h.close rfl rfl hn
  have hword : ∀ (w : String) ys, Clause.complete (cs ++ c?.toList) (some ⟨w, []⟩) ys =
      Clause.complete cs c? (.word w :: ys) := by
    intro w ys
    cases c? <;> simp [Clause.complete, Clause.extend, Clause.leading, Clause.all]
  cases hr with
  | conditional word => exact ⟨_, _, hopen (.conditional word rfl), hword _⟩
  | @fresh w p word =>
    refine ⟨_, _, hopen (.fresh word rfl ?_), hword _⟩
    rw [p.own_eq w]
    split <;> rfl
  | @argument n args b here plain =>
    cases h with
    | between filled group =>
      -- A group in focus has a matching.
      obtain ⟨h, m, c, hn⟩ := group _ here
      cases hn
      contradiction
    | inside filled here' last focus =>
      cases here.symm.trans here'
      refine ⟨cs, _, .inside filled rfl last (focus.argument plain b), fun ys => ?_⟩
      simp [Clause.complete, Clause.extend, Clause.leading, Clause.all]
  | @absorbed n args args' b m m' need here matching absorb =>
    cases h with
    | between filled group =>
      -- The argument stands behind a parenthesis or a comma and belongs to no clause. All that it
      -- can change of the group in focus is the matching.
      obtain ⟨h, k, c, hn⟩ := group _ here
      cases hn
      refine ⟨cs, none, .between ?_ ?_, fun ys => rfl⟩
      · rw [View.close, here, List.append_assoc] at filled
        rw [View.close, List.append_assoc]
        exact forall₂_replace filled fun c hc => hc.congr rfl (Option.some_ne_none k)
      · rintro _ ⟨⟩
        exact ⟨h, m', c, rfl⟩
    | inside filled here' last focus =>
      cases here.symm.trans here'
      refine ⟨cs, _, .inside filled rfl last (focus.absorbed matching absorb), fun ys => ?_⟩
      simp [Clause.complete, Clause.extend, Clause.leading, Clause.all]
  | comment =>
    refine ⟨cs, c?, h, fun ys => ?_⟩
    cases c? <;> simp [Clause.complete, Clause.extend, Clause.leading, Clause.all]
  | settled ends same group =>
    refine ⟨cs ++ c?.toList, none, .between (same ▸ h.close) group, fun ys => ?_⟩
    simp only [List.mem_cons, List.not_mem_nil, or_false] at ends
    rcases ends with rfl | rfl | rfl | rfl | rfl | rfl <;>
      cases c? <;> simp [Clause.complete, Clause.extend, Clause.leading, Clause.all]

end View

namespace State
variable {v : Vocabulary} {s s' : State}

theorem filledFrom_of_steps {cs : List Clause} {c? : Option Clause} (h : s.view.Tells v cs c?)
    {ys : List Symbol} (hs : steps v s ys = .ok s') :
    List.Forall₂ (Node.FilledFrom v) s'.view.close (Clause.complete cs c? ys) := by
  fun_induction steps v s ys generalizing cs c? with
  | case1 s =>
    cases hs
    have hnil : Clause.complete cs c? [] = cs ++ c?.toList := by
      cases c? <;> simp [Clause.complete, Clause.extend, Clause.leading, Clause.all]
    rw [hnil]
    exact h.close
  | case2 s y ys s₁ h₁ ih =>
    obtain ⟨s₂, hr, heq⟩ := reads_of_step h₁
    obtain ⟨cs', c?', htells, hcomplete⟩ := h.reads (view_reads hr)
    rw [← hcomplete]
    refine ih ?_ hs
    rw [heq]
    exact htells
  | case3 => contradiction

end State

/-- A placeholder that was filled from a clause holds all arguments of the clause. -/
theorem Node.FilledFrom.placeholder {v : Vocabulary} (hv : v.Blank) {c : Clause} {h : Head}
    {args : List Argument} (hc : (Node.item (.action h (.placeholder args))).FilledFrom v c) :
    args = c.arguments := by
  cases hc with
  | conditional word face => cases face
  | @fresh p word face =>
    cases p with
    | action a =>
      have hblank := word.blank_action hv
      have hbody : Action.placeholder args =
          (a.take.run ((Prototype.action a).own c.arguments)).1.withMatching {} :=
        (Item.action.inj (Node.item.inj face)).2
      cases a with
      | placeholder bs =>
        cases hblank
        cases hbody
        rfl
      | _ => cases hbody
    | _ => cases face

namespace Script

/-- The nodes of a script that was read and the clauses of its text go in pairs. Each node was given
the arguments of its clause, less those of its matching if it has one; a placeholder for an action
has all of them. -/
theorem filledFrom_of_parse {capabilities : List String} {name text : String} {s : Script}
    (h : parse capabilities name text = .ok s) :
    List.Forall₂ (fun n c => n.face.FilledFrom (.ofCapabilities capabilities) c ∧
        ∀ hd args, n = .item (.action hd (.placeholder args)) → args = c.arguments)
      (Node.worded s.nodes)
      (Clause.all ((Token.all (normalize text.toList)).filterMap Token.symbol?)) := by
  obtain ⟨st, hst, rfl⟩ := read_eq_ok_iff.1 h
  have hstart : (State.view {}).Tells (.ofCapabilities capabilities) [] none :=
    .between .nil (by simp [State.view])
  have hfilled := State.filledFrom_of_steps hstart hst
  rw [← State.facesList_finish, ← Item.map_face_worded_list 0, List.forall₂_map_left_iff] at hfilled
  refine hfilled.imp fun n c hn => ⟨hn, ?_⟩
  rintro hd args rfl
  exact hn.placeholder (Vocabulary.blank_ofCapabilities capabilities)

/-- An instance: the match type and the comparator are taken out of the arguments of a test, a
comment stands between the others, and an unknown action keeps all of its own. -/
theorem filledFrom_of_parse_header :
    let text := "if header :comparator \"i;octet\" \"a\" # c\n :is \"b\" \x7b foo :is 1; \x7d"
    let s : Script := { items := [.conditional { word := "if" }
      (some (.leaf { word := "header", comments := [.hash "c"] }
        { matchType := some .same, comparator := some "i;octet" }
        (.header { names := ["a"], keys := ["b"] })))
      [.action { word := "foo" } (.placeholder [.tag ":is", .number ⟨"1"⟩])]] }
    parse [] "" text = .ok s ∧
      List.Forall₂ (fun n c => n.face.FilledFrom (.ofCapabilities []) c ∧
          ∀ hd args, n = .item (.action hd (.placeholder args)) → args = c.arguments)
        (Node.worded s.nodes)
        (Clause.all ((Token.all (normalize text.toList)).filterMap Token.symbol?)) := by
  intro text s
  have h : parse [] "" text = .ok s := by decide +kernel
  exact ⟨h, filledFrom_of_parse h⟩

end Script

end SieveScript
