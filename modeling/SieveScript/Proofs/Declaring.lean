import SieveScript.Proofs.Needs
import SieveScript.Proofs.RoundTrip

/-!
# Declaring what a script needs

A script is written with the capabilities that it needs and does not declare declared in front. The
names of capabilities are lexical, like all else that is read (`State.Sound.normalized_notes`), so this
text is read again and gives the items as they were written (`Script.parse_renderDeclared`). All
that the nodes of the script need is declared outside its blocks then.
-/

namespace SieveScript

open Argument

/-! ### The names of capabilities -/

theorem Matching.Lexical.normalized_needs {m : Matching} (h : m.Lexical) :
    ∀ c ∈ m.needs, Normalized c.toList := by
  intro c hc
  rcases List.mem_append.1 hc with hc | hc
  · obtain ⟨t, -, hcap⟩ := Option.bind_eq_some_iff.1 (Option.mem_toList.1 hc)
    have hline : c = "regex" ∨ c = "relational" := by
      cases t <;> simp_all [MatchType.capability?]
    rcases hline with rfl | rfl <;> exact IsLine.normalized (by decide)
  · obtain ⟨name, hname, hcap⟩ := Option.bind_eq_some_iff.1 (Option.mem_toList.1 hc)
    rw [comparatorCapability?] at hcap
    split at hcap
    · contradiction
    · cases hcap
      have hfront : IsLine "comparator-".toList := by decide
      rw [String.toList_append]
      exact hfront.normalized.append (h name hname)

theorem Item.Sound.normalized_declares {v : Vocabulary} {i : Item} (h : i.Sound v) :
    ∀ c ∈ i.declares, Normalized c.toList := by
  cases h with
  | comment lexical => simp [Item.declares]
  | @action hd a head word fit =>
    cases a with
    | require capabilities =>
      have hlex := fit.lexical
      simpa [Item.declares, Action.arguments, AllNormalized] using hlex
    | _ => simp [Item.declares]
  | conditional => simp [Item.declares]

namespace State
variable {caps : List String} {s s' : State}

/-- A symbol of a normalized text notes names that may stand in one. -/
theorem Sound.normalized_notes (h : s.Sound (.ofCapabilities caps)) {y : Symbol} (hy : y.Lexical) :
    ∀ c ∈ s.notes (.ofCapabilities caps) y, Normalized c.toList := by
  have habsorb : ∀ {m ws a}, m.Lexical → a.Lexical → ∀ c ∈ Matching.noted m ws a,
      Normalized c.toList := by
    intro m ws a hm ha c hc
    rw [Matching.noted] at hc
    split at hc
    next m' ws' need hab =>
      exact (Matching.lexical_of_absorb hab hm ha).normalized_needs c (Matching.need_subset_needs hab hc)
    · contradiction
  cases y with
  | word w =>
    have hline : ∀ d ∈ Definition.all, ∀ c ∈ d.requires, IsLine c.toList := by decide
    rw [notes]
    split
    next d hd =>
      have hall := (List.mem_filter.1 (Vocabulary.mem_of_meaning hd)).1
      exact fun c hc => (hline d hall c hc).normalized
    · simp
  | argument a =>
    rw [notes, matcher?]
    split
    next hd b args hst =>
      cases hm : b.matching? with
      | none => simp
      | some m => exact habsorb ((h.statement _ hst).2.2.1.matching hm) hy
    next hd p hst => exact habsorb (h.statement _ hst).2.2.inner.matching hy
    · simp
  | semicolon =>
    rw [notes]
    cases hst : s.statement with
    | none => simp
    | some c => exact (h.statement c hst).close.normalized_declares
  | _ => simp [notes]

theorem Sound.normalized_requires (h : s.Sound (.ofCapabilities caps))
    (hs : ∀ c ∈ s.requires, Normalized c.toList) {ys : List Symbol} (hys : ∀ y ∈ ys, y.Lexical)
    (hsteps : State.steps (.ofCapabilities caps) s ys = .ok s') :
    ∀ c ∈ s'.requires, Normalized c.toList := by
  fun_induction State.steps (.ofCapabilities caps) s ys with
  | case1 s => cases hsteps; exact hs
  | case2 s y ys s₁ h₁ ih =>
    obtain ⟨hy, hys⟩ := List.forall_mem_cons.1 hys
    have hsound : s₁.Sound (.ofCapabilities caps) :=
      h.steps (Vocabulary.blank_ofCapabilities caps) (List.forall_mem_singleton.2 hy) (steps_cons_of_ok h₁)
    refine ih hsound (fun c hc => ?_) hys hsteps
    rcases (mem_requires_of_step h₁).1 hc with hc | hc
    · exact hs c hc
    · exact h.normalized_notes hy c hc
  | case3 => contradiction

end State

/-! ### The text with the declaration in front -/

namespace Script
variable {caps : List String} {name text : String} {s : Script}

theorem sound_requireItem {missing : List String} (h : ∀ c ∈ missing, Normalized c.toList) :
    (requireItem missing).Sound (.ofCapabilities caps) := by
  have hmem : (⟨"require", [], .action (.require [])⟩ : Definition) ∈ Definition.all := by decide
  have hfind : (Vocabulary.ofCapabilities caps).find? "require" = some _ :=
    Vocabulary.find?_ofCapabilities.2 ⟨hmem, rfl, rfl⟩
  have hword : (Vocabulary.ofCapabilities caps).Denotes "require" (.action (.require [])) := by
    rw [Vocabulary.Denotes, Vocabulary.meaning_of_not_mem (by decide), hfind]
  have hfit : (Action.require missing).Fit :=
    ⟨by simpa [Action.arguments, AllNormalized] using h, by simp⟩
  exact .action ⟨by decide, by simp⟩ hword hfit

theorem sound_declaredItems (hsound : ∀ i ∈ s.items, i.Sound (.ofCapabilities caps))
    (hnorm : ∀ c ∈ s.requires, Normalized c.toList) :
    ∀ i ∈ s.declaredItems, i.Sound (.ofCapabilities caps) := by
  rw [declaredItems]
  split
  · exact hsound
  · refine List.forall_mem_cons.2 ⟨sound_requireItem fun c hc => ?_, hsound⟩
    exact hnorm c (List.mem_filter.1 hc).1

/-- The declaration names what is needed, so all of it is declared. -/
theorem mem_declares_declaredItems {c : String} :
    c ∈ s.declaredItems.flatMap Item.declares ↔ c ∈ s.requires ∨ c ∈ s.declared := by
  have hundeclared : c ∈ s.undeclared ↔ c ∈ s.requires ∧ c ∉ s.declared := by
    simp [undeclared]
  rw [declaredItems]
  split
  next hnone =>
    rw [hnone] at hundeclared
    have hrequires : c ∈ s.requires → c ∈ s.declared := fun hc => by
      by_contra hd
      simpa using hundeclared.2 ⟨hc, hd⟩
    exact ⟨.inr, fun hc => hc.elim hrequires id⟩
  · rw [List.flatMap_cons, List.mem_append]
    show c ∈ s.undeclared ∨ c ∈ s.declared ↔ _
    rw [hundeclared]
    by_cases hd : c ∈ s.declared <;> simp [hd]

/-- The text with the declaration in front is read, and gives the items that were written. -/
theorem parse_renderDeclared (h : parse caps name text = .ok s) :
    (∀ i ∈ s.declaredItems, i.Sound (.ofCapabilities caps)) ∧
    ∃ r, State.steps (.ofCapabilities caps) {} (Item.symbolsAll s.declaredItems) =
        .ok { items := s.declaredItems, requires := r } ∧
      ∀ name, parse caps name s.renderDeclared = .ok { items := s.declaredItems, requires := r } := by
  have hsound := sound_of_read (Vocabulary.blank_ofCapabilities caps) h
  obtain ⟨st, hst, rfl⟩ := read_eq_ok_iff.1 h
  have hlex := Token.lexical_of_mem_symbols (normalized_normalize text.toList)
  have hnorm := State.sound_empty.normalized_requires (by simp) hlex hst
  have hdeclared := sound_declaredItems hsound hnorm
  refine ⟨hdeclared, parse_of_symbols hdeclared ?_⟩
  rw [renderDeclared, String.toList_ofList, (Item.normalized_encodeAll hdeclared).normalize_eq,
    Item.symbols_encodeAll hdeclared]

end Script

end SieveScript
