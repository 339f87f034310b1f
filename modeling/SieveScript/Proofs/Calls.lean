import Mathlib.Data.List.Perm.Basic
import SieveScript.Proofs.Taking

/-!
# Taking is atomic and lossless

A node fills its fields by a sequence of calls, each on what the one before it left of the arguments.
Most of them look for something that may not be there, or not in the form that is asked for, and the
next call counts on finding the arguments as they were. `Does` says what a single call does: it gives
back nothing and changes nothing, or it takes out what `Call.Takes` says and nothing else. As it holds
on any arguments (`Call.exists_does`), it holds of each call of a sequence, and what all of them take
is, with what is left in the end, what was there in the beginning (`Call.exists_ledger`). What a call
gives back is said of the argument that it takes, in one of the forms that the argument can have
(`Argument.MeansString` and the others), and not through the conversion that the call makes.
-/

namespace SieveScript

/-! ### What an argument means -/

namespace Argument

/-- The argument is one string, in any form. -/
inductive MeansString : Argument → String → Prop
  | string (v : String) : MeansString (string v) v
  | multiLine (m : MultiLine) : MeansString (multiLine m) m.value
  | singleton (v : String) : MeansString (strings [v]) v

/-- The argument is a list of strings, or one string in place of a list. -/
inductive MeansStrings : Argument → List String → Prop
  | strings (vs : List String) : MeansStrings (strings vs) vs
  | string (v : String) : MeansStrings (string v) [v]
  | multiLine (m : MultiLine) : MeansStrings (multiLine m) [m.value]

/-- The argument is one string, and the text keeps the form of a multi-line one. -/
inductive MeansText : Argument → Text → Prop
  | multiLine (m : MultiLine) : MeansText (multiLine m) (.multiLine m)
  | string (v : String) : MeansText (string v) (.quoted v)
  | singleton (v : String) : MeansText (strings [v]) (.quoted v)

/-- The argument is the number. -/
inductive MeansNumber : Argument → Number → Prop
  | number (n : Number) : MeansNumber (number n) n

/-- The conversion gives what the argument means, and nothing for a tag. -/
def Converts {α : Type} (convert : Argument → Option α) (Means : Argument → α → Prop) : Prop :=
  ∀ a x, convert a = some x ↔ (∀ t, a ≠ tag t) ∧ Means a x

theorem converts_positional? : Converts positional? Eq := by
  intro a b
  cases a <;> simp [positional?]

theorem converts_string? : Converts string? MeansString := by
  intro a v
  constructor
  · intro h
    unfold string? at h
    split at h <;> cases h
    · exact ⟨by simp, .string v⟩
    · exact ⟨by simp, .multiLine _⟩
    · exact ⟨by simp, .singleton v⟩
  · rintro ⟨-, h⟩
    cases h <;> rfl

theorem converts_strings? : Converts strings? MeansStrings := by
  intro a vs
  constructor
  · intro h
    unfold strings? at h
    split at h <;> cases h
    · exact ⟨by simp, .strings vs⟩
    · exact ⟨by simp, .string _⟩
    · exact ⟨by simp, .multiLine _⟩
  · rintro ⟨-, h⟩
    cases h <;> rfl

theorem converts_text? : Converts text? MeansText := by
  intro a t
  constructor
  · intro h
    unfold text? at h
    split at h
    next m =>
      cases h
      exact ⟨by simp, .multiLine m⟩
    next hm =>
      obtain ⟨v, hv, rfl⟩ := Option.map_eq_some_iff.1 h
      obtain ⟨htag, hmeans⟩ := (converts_string? a v).1 hv
      cases hmeans with
      | string => exact ⟨htag, .string v⟩
      | multiLine m => exact absurd rfl (hm m)
      | singleton => exact ⟨htag, .singleton v⟩
  · rintro ⟨-, h⟩
    cases h <;> rfl

theorem converts_number? : Converts number? MeansNumber := by
  intro a n
  constructor
  · intro h
    unfold number? at h
    split at h <;> cases h
    exact ⟨by simp, .number n⟩
  · rintro ⟨-, h⟩
    cases h
    rfl

end Argument

namespace Taking

open Argument

/-! ### What a call takes -/

section
variable {α : Type}

/-- Every occurrence of the tag is taken, and there is one. -/
def TakesEvery (name : String) (args : List Argument) (found : Bool) (taken rest : List Argument) : Prop :=
  found = true ∧ tag name ∈ args ∧ taken = args.filter (· = tag name) ∧
    rest = args.filter (· ≠ tag name)

/-- The arguments are a piece `taken` between two others, which are put together in `rest`. -/
def CutsOut (before taken args rest : List Argument) : Prop :=
  ∃ after, args = before ++ (taken ++ after) ∧ rest = before ++ after

theorem CutsOut.perm {before taken args rest : List Argument} (h : CutsOut before taken args rest) :
    args.Perm (taken ++ rest) ∧ rest.Sublist args := by
  obtain ⟨after, rfl, rfl⟩ := h
  constructor
  · exact List.perm_append_comm_assoc before taken after
  · exact (List.Sublist.refl before).append (List.sublist_append_right taken after)

/-- The first argument that is one of the tags is taken. -/
def TakesFirst (names : List String) (args : List Argument) (result : Option String)
    (taken rest : List Argument) : Prop :=
  ∃ t before, result = some t ∧ t ∈ names ∧ taken = [tag t] ∧ (∀ u ∈ names, tag u ∉ before) ∧
    CutsOut before taken args rest

/-- The first occurrence of the tag is taken with the argument right behind it, which is no tag, and
what this argument means is given back. -/
def TakesTagged (Means : Argument → α → Prop) (name : String) (args : List Argument)
    (result : Option α) (taken rest : List Argument) : Prop :=
  ∃ a x before, result = some x ∧ Means a x ∧ (∀ t, a ≠ tag t) ∧ taken = [tag name, a] ∧
    tag name ∉ before ∧ CutsOut before taken args rest

/-- The last argument is taken, which is no tag, and what it means is given back. -/
def TakesLast (Means : Argument → α → Prop) (args : List Argument) (result : Option α)
    (taken rest : List Argument) : Prop :=
  ∃ a x, result = some x ∧ Means a x ∧ (∀ t, a ≠ tag t) ∧ taken = [a] ∧ args = rest ++ taken

/-- The step takes `taken` out of the arguments, as `Takes` says, or it gives `nothing` and leaves
them as they are. It does so only if `Takes` holds of nothing that it could take. -/
structure Does (t : Taking α) (nothing : α)
    (Takes : List Argument → α → List Argument → List Argument → Prop)
    (args taken : List Argument) : Prop where
  atomic : (t.run args).1 = nothing → (t.run args).2 = args ∧ taken = []
  exact : (t.run args).1 ≠ nothing → Takes args (t.run args).1 taken (t.run args).2
  complete : (t.run args).1 = nothing → ∀ x taken rest, ¬Takes args x taken rest

variable {t : Taking α} {nothing x : α}
  {Takes : List Argument → α → List Argument → List Argument → Prop} {args taken rest : List Argument}

theorem Does.hit (h : t.run args = (x, rest)) (hne : x ≠ nothing) (htakes : Takes args x taken rest) :
    Does t nothing Takes args taken := by
  have hx : (t.run args).1 ≠ nothing := by rwa [h]
  refine ⟨fun hnothing => absurd hnothing hx, fun _ => ?_, fun hnothing => absurd hnothing hx⟩
  rw [h]
  exact htakes

theorem Does.miss (h : t.run args = (nothing, args)) (hno : ∀ x taken rest, ¬Takes args x taken rest) :
    Does t nothing Takes args [] := by
  refine ⟨fun _ => ?_, fun hx => ?_, fun _ => hno⟩
  · rw [h]
    exact ⟨rfl, rfl⟩
  · rw [h] at hx
    exact absurd rfl hx

end

/-! ### Tags -/

section
variable {names : List String}

theorem isOneOf_iff {a : Argument} : isOneOf names a = true ↔ ∃ t ∈ names, a = tag t := by
  cases a <;> simp [isOneOf, tag?]

theorem exists_does_flag (name : String) (args : List Argument) :
    ∃ taken, Does (flag name) false (TakesEvery name) args taken := by
  have hrun : (flag name).run args = (args.any (· = tag name), args.filter (· ≠ tag name)) := by
    simp [flag, StateT.run, isTag_eq]
  by_cases hmem : tag name ∈ args
  · have hany : args.any (· = tag name) = true := by simpa using hmem
    rw [hany] at hrun
    exact ⟨_, .hit hrun (by decide) ⟨rfl, hmem, rfl, rfl⟩⟩
  · have hfree := flag_of_free (free_iff.2 hmem)
    exact ⟨[], .miss hfree fun _ _ _ h => hmem h.2.1⟩

theorem exists_does_oneOf (names : List String) (args : List Argument) :
    ∃ taken, Does (oneOf names) none (TakesFirst names) args taken := by
  cases hfind : args.find? (isOneOf names) with
  | some a =>
    obtain ⟨ha, before, after, rfl, hbefore⟩ := List.find?_eq_some_iff_append.1 hfind
    obtain ⟨t, ht, rfl⟩ := isOneOf_iff.1 ha
    have hfree : ∀ u ∈ names, tag u ∉ before := by
      intro u hu hmem
      simpa [isOneOf_iff.2 ⟨u, hu, rfl⟩] using hbefore _ hmem
    have hrun : (oneOf names).run (before ++ tag t :: after) = (some t, before ++ after) := by
      rw [oneOf_append_of_free fun u hu => free_iff.2 (hfree u hu), oneOf_tag ht]
    exact ⟨_, .hit hrun (by simp) ⟨t, before, rfl, ht, rfl, hfree, after, rfl, rfl⟩⟩
  | none =>
    have hfree : ∀ u ∈ names, tag u ∉ args := by
      intro u hu hmem
      exact List.find?_eq_none.1 hfind _ hmem (isOneOf_iff.2 ⟨u, hu, rfl⟩)
    refine ⟨[], .miss (oneOf_of_free fun u hu => free_iff.2 (hfree u hu)) ?_⟩
    rintro _ _ _ ⟨t, before, -, ht, rfl, -, after, rfl, -⟩
    exact hfree t ht (by simp)

end

/-! ### Tags with a value and the last argument -/

section
variable {α : Type} {convert : Argument → Option α} {Means : Argument → α → Prop}

/-- A conversion that makes nothing of tags looks behind the first occurrence of the tag only. -/
theorem exists_does_tagged (hconvert : Converts convert Means) (name : String)
    (args : List Argument) :
    ∃ taken, Does (tagged convert name) none (TakesTagged Means name) args taken := by
  cases hsplit : splitTagged convert name args with
  | some r =>
    obtain ⟨x, rest⟩ := r
    have hrun : (tagged convert name).run args = (some x, rest) := by
      simp only [tagged, StateT.run, hsplit]
    obtain ⟨before, a, after, hargs, hbefore, ha, hrest⟩ := splitTagged_eq_some_iff.1 hsplit
    obtain ⟨htag, hmeans⟩ := (hconvert a x).1 ha
    exact ⟨_, .hit hrun (by simp) ⟨a, x, before, rfl, hmeans, htag, rfl, hbefore, after, hargs, hrest⟩⟩
  | none =>
    have hrun : (tagged convert name).run args = (none, args) := by
      simp only [tagged, StateT.run, hsplit]
    refine ⟨[], .miss hrun ?_⟩
    rintro _ _ _ ⟨a, x, before, -, hmeans, htag, rfl, hbefore, after, hargs, -⟩
    have hx := (hconvert a x).2 ⟨htag, hmeans⟩
    rw [splitTagged_eq_some_iff.2 ⟨before, a, after, hargs, hbefore, hx, rfl⟩] at hsplit
    contradiction

theorem exists_does_pop (hconvert : Converts convert Means) (args : List Argument) :
    ∃ taken, Does (pop convert) none (TakesLast Means) args taken := by
  cases hlast : args.getLast?.bind convert with
  | some x =>
    have hrun : (pop convert).run args = (some x, args.dropLast) := by
      simp only [pop, StateT.run, hlast]
    obtain ⟨a, ha, hx⟩ := Option.bind_eq_some_iff.1 hlast
    obtain ⟨rest, rfl⟩ := List.getLast?_eq_some_iff.1 ha
    obtain ⟨htag, hmeans⟩ := (hconvert a x).1 hx
    rw [List.dropLast_concat] at hrun
    exact ⟨_, .hit hrun (by simp) ⟨a, x, rfl, hmeans, htag, rfl, rfl⟩⟩
  | none =>
    have hrun : (pop convert).run args = (none, args) := by
      simp only [pop, StateT.run, hlast]
    refine ⟨[], .miss hrun ?_⟩
    rintro _ _ rest ⟨a, x, -, hmeans, htag, rfl, rfl⟩
    rw [List.getLast?_concat, Option.bind_some, (hconvert a x).2 ⟨htag, hmeans⟩] at hlast
    contradiction

end

/-! ### Sequences of calls -/

/-- A step of which the nodes make up their own. -/
inductive Call where
  | flag (name : String)
  | oneOf (names : List String)
  | taggedString (name : String)
  | taggedStrings (name : String)
  | taggedNumber (name : String)
  | popAny
  | popString
  | popStrings
  | popText
  | popNumber

namespace Call

/-- What a call gives back. -/
def Result : Call → Type
  | flag _ => Bool
  | oneOf _ => Option String
  | taggedString _ => Option String
  | taggedStrings _ => Option (List String)
  | taggedNumber _ => Option Number
  | popAny => Option Argument
  | popString => Option String
  | popStrings => Option (List String)
  | popText => Option Text
  | popNumber => Option Number

/-- What a call gives back that finds nothing. -/
def nothing : (c : Call) → c.Result
  | flag _ => false
  | oneOf _ | taggedString _ | taggedStrings _ | taggedNumber _ => none
  | popAny | popString | popStrings | popText | popNumber => none

/-- Makes the call. -/
def make : (c : Call) → Taking c.Result
  | flag name => Taking.flag name
  | oneOf names => Taking.oneOf names
  | taggedString name => Taking.taggedString name
  | taggedStrings name => Taking.taggedStrings name
  | taggedNumber name => Taking.taggedNumber name
  | popAny => Taking.popAny
  | popString => Taking.popString
  | popStrings => Taking.popStrings
  | popText => Taking.popText
  | popNumber => Taking.popNumber

/-- What a call that finds something takes, gives back and leaves. -/
def Takes : (c : Call) → List Argument → c.Result → List Argument → List Argument → Prop
  | flag name => TakesEvery name
  | oneOf names => TakesFirst names
  | taggedString name => TakesTagged MeansString name
  | taggedStrings name => TakesTagged MeansStrings name
  | taggedNumber name => TakesTagged MeansNumber name
  | popAny => TakesLast Eq
  | popString => TakesLast MeansString
  | popStrings => TakesLast MeansStrings
  | popText => TakesLast MeansText
  | popNumber => TakesLast MeansNumber

variable {c : Call} {calls : List Call} {args taken rest : List Argument}

theorem exists_does (c : Call) (args : List Argument) :
    ∃ taken, Does c.make c.nothing c.Takes args taken := by
  cases c with
  | flag name => exact exists_does_flag name args
  | oneOf names => exact exists_does_oneOf names args
  | taggedString name => exact exists_does_tagged converts_string? name args
  | taggedStrings name => exact exists_does_tagged converts_strings? name args
  | taggedNumber name => exact exists_does_tagged converts_number? name args
  | popAny => exact exists_does_pop converts_positional? args
  | popString => exact exists_does_pop converts_string? args
  | popStrings => exact exists_does_pop converts_strings? args
  | popText => exact exists_does_pop converts_text? args
  | popNumber => exact exists_does_pop converts_number? args

/-! What is taken and what is left are what was there, and what is left keeps its order. -/

theorem Takes.perm {x : c.Result} (h : c.Takes args x taken rest) :
    args.Perm (taken ++ rest) ∧ rest.Sublist args := by
  cases c with
  | flag name =>
    obtain ⟨-, -, rfl, rfl⟩ := h
    refine ⟨?_, List.filter_sublist⟩
    simpa using (List.filter_append_perm (· = tag name) args).symm
  | oneOf names =>
    obtain ⟨t, before, -, -, -, -, hcut⟩ := h
    exact hcut.perm
  | taggedString name | taggedStrings name | taggedNumber name =>
    obtain ⟨a, x, before, -, -, -, -, -, hcut⟩ := h
    exact hcut.perm
  | popAny | popString | popStrings | popText | popNumber =>
    obtain ⟨a, x, -, -, -, -, rfl⟩ := h
    exact ⟨List.perm_append_comm, List.sublist_append_left rest taken⟩

theorem perm_of_does (h : Does c.make c.nothing c.Takes args taken) :
    args.Perm (taken ++ (c.make.run args).2) ∧ (c.make.run args).2.Sublist args := by
  by_cases hx : (c.make.run args).1 = c.nothing
  · obtain ⟨hrest, rfl⟩ := h.atomic hx
    rw [hrest]
    exact ⟨.refl args, .refl args⟩
  · exact (h.exact hx).perm

/-- What the calls leave, made one after the other. -/
def leave (calls : List Call) (args : List Argument) : List Argument :=
  calls.foldl (fun args c => (c.make.run args).2) args

/-- The calls are made one after the other, each on what the one before it left, and what they take is
put together in `taken`. -/
inductive Ledger : List Call → List Argument → (taken : List Argument) → Prop
  | nil (args : List Argument) : Ledger [] args []
  | cons {c : Call} {calls : List Call} {args taken more : List Argument}
      (call : Does c.make c.nothing c.Takes args taken) (next : Ledger calls (c.make.run args).2 more) :
      Ledger (c :: calls) args (taken ++ more)

theorem exists_ledger (calls : List Call) (args : List Argument) :
    ∃ taken, Ledger calls args taken ∧ args.Perm (taken ++ leave calls args) ∧
      (leave calls args).Sublist args := by
  induction calls generalizing args with
  | nil => exact ⟨[], .nil args, .refl args, .refl args⟩
  | cons c calls ih =>
    obtain ⟨taken, hcall⟩ := exists_does c args
    obtain ⟨more, hnext, hperm, hsublist⟩ := ih (c.make.run args).2
    obtain ⟨hperm', hsublist'⟩ := perm_of_does hcall
    refine ⟨taken ++ more, .cons hcall hnext, ?_, hsublist.trans hsublist'⟩
    rw [List.append_assoc]
    exact hperm'.trans (hperm.append_left taken)

end Call

end Taking

end SieveScript
