import Mathlib.Data.List.Count
import SieveScript.Proofs.Rewording

/-!
# Where the values of arguments go

A node that is filled from arguments stores each string and each number that it takes, as often as
the arguments hold it, and leaves the others. `Conserves` says so of one step, with the part that its
result makes up, and `Conserves.bind` adds up the parts of several steps, so the fields of a node make
up all that was taken. A value of the node that none of the arguments replaces stays as well. The one
action that stores less than it takes deletes header fields: a list in the place of the field name
counts by its first string, and the others are `surplus` (`Action.DeleteHeader.conserves_take`).
-/

namespace SieveScript

/-- A string or a number that an argument holds. -/
inductive Value where
  | string (v : String)
  | number (n : Number)
  deriving DecidableEq, Repr

namespace Argument

/-- The strings and numbers of an argument. A tag holds none, and the comment of a multi-line text
is no part of its value. -/
def values : Argument → List Value
  | tag _ => []
  | string v => [.string v]
  | multiLine m => [.string m.value]
  | strings vs => vs.map .string
  | number n => [.number n]

/-- How often arguments hold a value. -/
def occurrences (x : Value) (args : List Argument) : Nat :=
  (args.flatMap values).count x

variable {x : Value}

@[simp]
theorem occurrences_nil : occurrences x [] = 0 := rfl

@[simp]
theorem occurrences_append {as bs : List Argument} :
    occurrences x (as ++ bs) = occurrences x as + occurrences x bs := by
  simp [occurrences]

/-- Arguments one by one. A single argument is left as it is. -/
@[simp]
theorem occurrences_cons_cons {a b : Argument} {as : List Argument} :
    occurrences x (a :: b :: as) = occurrences x [a] + occurrences x (b :: as) :=
  @occurrences_append x [a] (b :: as)

theorem occurrences_cons {a : Argument} {as : List Argument} :
    occurrences x (a :: as) = occurrences x [a] + occurrences x as :=
  @occurrences_append x [a] as

@[simp]
theorem occurrences_cons_toList {a : Argument} {o : Option Argument} :
    occurrences x (a :: o.toList) = occurrences x [a] + occurrences x o.toList :=
  occurrences_cons

@[simp]
theorem occurrences_strings_nil : occurrences x [strings []] = 0 := rfl

theorem occurrences_strings_cons {v : String} {vs : List String} :
    occurrences x [strings (v :: vs)] = occurrences x [string v] + occurrences x [strings vs] := by
  simp [occurrences, values, List.count_cons, Nat.add_comm]

theorem occurrences_congr {a b : Argument} (h : a.values = b.values) :
    occurrences x [a] = occurrences x [b] := by
  simp [occurrences, h]

@[simp]
theorem occurrences_tag {t : String} : occurrences x [tag t] = 0 := rfl

@[simp]
theorem occurrences_ofFlag {name : String} {b : Bool} : occurrences x (ofFlag name b) = 0 := by
  cases b <;> rfl

@[simp]
theorem occurrences_ofTagged {α : Type} {name : String} {value : α → Argument} {o : Option α} :
    occurrences x (ofTagged name value o) = occurrences x (o.map value).toList := by
  cases o <;> simp [ofTagged]

@[simp]
theorem occurrences_toList_map_tag {α : Type} {name : α → String} {o : Option α} :
    occurrences x (o.map fun y => tag (name y)).toList = 0 := by
  cases o <;> rfl

theorem occurrences_eq_zero {as : List Argument} (h : ∀ a ∈ as, a.values = []) :
    occurrences x as = 0 := by
  rw [occurrences, List.flatMap_eq_nil_iff.2 h, List.count_nil]

theorem values_of_isSome_tag? {a : Argument} (h : a.tag?.isSome = true) : a.values = [] := by
  cases a with
  | tag t => rfl
  | _ => contradiction

/-- Arguments without values may be left out. -/
theorem occurrences_filter {p : Argument → Bool} {as : List Argument}
    (h : ∀ a, p a = false → a.tag?.isSome = true) : occurrences x (as.filter p) = occurrences x as := by
  induction as with
  | nil => rfl
  | cons a as ih =>
    rw [List.filter_cons, occurrences_cons, ← ih]
    split
    · exact occurrences_cons
    next hp => simp [occurrences, values_of_isSome_tag? (h a (by simpa using hp))]

theorem occurrences_eraseP {p : Argument → Bool} {as : List Argument}
    (h : ∀ a, p a = true → a.tag?.isSome = true) : occurrences x (as.eraseP p) = occurrences x as := by
  rcases List.exists_or_eq_self_of_eraseP p as with heq | ⟨a, xs, ys, -, ha, rfl, heq⟩
  · rw [heq]
  · rw [heq]
    simp [occurrences, values_of_isSome_tag? (h a ha)]

/-- The value `x` stands `k` times among what is new, and otherwise where it stood before. -/
def Updates (x : Value) (old : List Argument) (k : Nat) (new : List Argument) : Prop :=
  ∃ kept ≤ occurrences x old, k + kept = occurrences x new

theorem Updates.append {old old' new new' : List Argument} {k l : Nat} (h : Updates x old k new)
    (h' : Updates x old' l new') : Updates x (old ++ old') (k + l) (new ++ new') := by
  obtain ⟨kept, hkept, hsum⟩ := h
  obtain ⟨kept', hkept', hsum'⟩ := h'
  refine ⟨kept + kept', ?_, ?_⟩ <;>
  · rw [occurrences_append]
    omega

/-- More may be old, and what is new besides is among the `k`. -/
theorem Updates.mono {old old' new new' : List Argument} {k l : Nat} (h : Updates x old k new)
    (hold : occurrences x old ≤ occurrences x old')
    (hnew : l + occurrences x new = k + occurrences x new') : Updates x old' l new' := by
  obtain ⟨kept, hkept, hsum⟩ := h
  exact ⟨kept, hkept.trans hold, by omega⟩

/-! ### Conversions -/

/-- What an argument is converted to holds the values of the argument. -/
def Faithful {α : Type} (convert : Argument → Option α) (value : α → Argument) : Prop :=
  ∀ a y, convert a = some y → a.values = (value y).values

theorem faithful_string? : Faithful string? string := by
  intro a v h
  unfold string? at h
  split at h <;> simp_all [values]

theorem faithful_strings? : Faithful strings? strings := by
  intro a vs h
  unfold strings? at h
  split at h
  · cases h; rfl
  · cases h; rfl
  · cases h; rfl
  · contradiction

theorem faithful_text? : Faithful text? ofText := by
  intro a t h
  unfold text? at h
  split at h
  · cases h; rfl
  · obtain ⟨v, hv, rfl⟩ := Option.map_eq_some_iff.1 h
    exact faithful_string? a v hv

theorem faithful_number? : Faithful number? number := by
  intro a n h
  unfold number? at h
  split at h <;> simp_all [values]

end Argument

namespace Taking

open Argument
variable {α β : Type} {x : Value}

/-- Of the value `x` the step takes as much as `P` says of its result, and leaves the rest. -/
def Conserves (x : Value) (t : Taking α) (P : α → Nat → Prop) : Prop :=
  ∀ args, ∃ k, P (t.run args).1 k ∧ occurrences x args = k + occurrences x (t.run args).2

section
variable {P : α → Nat → Prop} {Q : β → Nat → Prop}

theorem conserves_pure {y : α} (h : P y 0) : Conserves x (pure y) P :=
  fun _ => ⟨0, h, (Nat.zero_add _).symm⟩

/-- What two steps take adds up. -/
theorem Conserves.bind {t : Taking α} (ht : Conserves x t P) {f : α → Taking β}
    (hf : ∀ y k, P y k → Conserves x (f y) fun z l => Q z (k + l)) : Conserves x (t >>= f) Q := by
  intro args
  obtain ⟨k, hk, hargs⟩ := ht args
  obtain ⟨l, hl, hrest⟩ := hf _ k hk (t.run args).2
  exact ⟨k + l, hl, by rw [run_bind, hargs, hrest, Nat.add_assoc]⟩

theorem Conserves.map {t : Taking α} (ht : Conserves x t P) {f : α → β}
    (hf : ∀ y k, P y k → Q (f y) k) : Conserves x (do return f (← t)) Q :=
  ht.bind fun y k hk => conserves_pure (hf y k hk)

end

theorem conserves_flag (name : String) : Conserves x (flag name) fun _ k => k = 0 := by
  refine fun args => ⟨0, rfl, ?_⟩
  rw [Nat.zero_add]
  refine (occurrences_filter fun a ha => ?_).symm
  simp_all [isTag]

theorem isSome_tag?_of_isOneOf {names : List String} {a : Argument} (h : isOneOf names a = true) :
    a.tag?.isSome = true := by
  cases a with
  | tag t => rfl
  | _ => contradiction

theorem conserves_oneOf (names : List String) : Conserves x (oneOf names) fun _ k => k = 0 := by
  refine fun args => ⟨0, rfl, ?_⟩
  rw [Nat.zero_add]
  exact (occurrences_eraseP fun a ha => isSome_tag?_of_isOneOf ha).symm

theorem conserves_allOf (names : List String) : Conserves x (allOf names) fun _ k => k = 0 := by
  refine fun args => ⟨0, rfl, ?_⟩
  rw [Nat.zero_add]
  exact (occurrences_filter fun a ha => isSome_tag?_of_isOneOf (by simpa using ha)).symm

theorem conserves_everything : Conserves x everything fun args k => k = occurrences x args :=
  fun _ => ⟨_, rfl, rfl⟩

section
variable {convert : Argument → Option α} {value : α → Argument}

theorem occurrences_of_splitTagged {name : String} {args rest : List Argument} {y : α}
    (hc : Faithful convert value) (h : splitTagged convert name args = some (y, rest)) :
    occurrences x args = occurrences x [value y] + occurrences x rest := by
  obtain ⟨before, a, after, rfl, -, hy, rfl⟩ := splitTagged_eq_some_iff.1 h
  rw [occurrences_append, occurrences_append, occurrences_cons, occurrences_tag, Nat.zero_add,
    @occurrences_cons x a after, occurrences_congr (hc a y hy)]
  omega

theorem conserves_tagged (hc : Faithful convert value) (name : String) :
    Conserves x (tagged convert name) fun o k => k = occurrences x (o.map value).toList := by
  refine fun args => ⟨_, rfl, ?_⟩
  cases hs : splitTagged convert name args with
  | none => simp [tagged, StateT.run, hs]
  | some r => simpa [tagged, StateT.run, hs] using occurrences_of_splitTagged hc hs

theorem conserves_pop (hc : Faithful convert value) :
    Conserves x (pop convert) fun o k => k = occurrences x (o.map value).toList := by
  refine fun args => ⟨_, rfl, ?_⟩
  cases hy : args.getLast?.bind convert with
  | none => simp [pop, StateT.run, hy]
  | some y =>
    obtain ⟨a, ha, hay⟩ := Option.bind_eq_some_iff.1 hy
    obtain ⟨as, rfl⟩ := List.getLast?_eq_some_iff.1 ha
    simp [pop, StateT.run, hay, occurrences_congr (hc a y hay), Nat.add_comm]

/-- A field with an old value: what is popped replaces it, and else it stays. -/
theorem conserves_pop_getD (hc : Faithful convert value) :
    Conserves x (pop convert) fun o k => ∀ old, Updates x [value old] k [value (o.getD old)] := by
  intro args
  obtain ⟨k, hk, hargs⟩ := conserves_pop (x := x) hc args
  refine ⟨k, fun old => ?_, hargs⟩
  cases ho : ((pop convert).run args).1 with
  | none => exact ⟨_, le_rfl, by simp [hk, ho]⟩
  | some y => exact ⟨0, Nat.zero_le _, by simp [hk, ho]⟩

end

/-! ### The steps of the nodes -/

theorem conserves_taggedString (name : String) :
    Conserves x (taggedString name) fun o k => k = occurrences x (o.map string).toList :=
  conserves_tagged faithful_string? name

theorem conserves_taggedStrings (name : String) :
    Conserves x (taggedStrings name) fun o k => k = occurrences x (o.map strings).toList :=
  conserves_tagged faithful_strings? name

theorem conserves_taggedNumber (name : String) :
    Conserves x (taggedNumber name) fun o k => k = occurrences x (o.map number).toList :=
  conserves_tagged faithful_number? name

theorem conserves_popString :
    Conserves x popString fun o k => ∀ old, Updates x [string old] k [string (o.getD old)] :=
  conserves_pop_getD faithful_string?

theorem conserves_popStrings :
    Conserves x popStrings fun o k => ∀ old, Updates x [strings old] k [strings (o.getD old)] :=
  conserves_pop_getD faithful_strings?

theorem conserves_popText :
    Conserves x popText fun o k => ∀ old, Updates x [ofText old] k [ofText (o.getD old)] :=
  conserves_pop_getD faithful_text?

theorem conserves_popNumber :
    Conserves x popNumber fun o k => ∀ old, Updates x [number old] k [number (o.getD old)] :=
  conserves_pop_getD faithful_number?

end Taking

open Argument Taking

namespace Action
variable {x : Value}

namespace FileInto

theorem conserves_take (a : FileInto) :
    Conserves x a.take fun b k => Updates x a.arguments k b.arguments := by
  refine (conserves_taggedStrings _).bind fun flags _ hflags => ?_
  refine (conserves_flag _).bind fun copy _ hcopy => ?_
  refine (conserves_flag _).bind fun create _ hcreate => ?_
  refine conserves_popString.map fun mailbox k hmailbox => ?_
  exact (hmailbox a.mailbox).mono (by simp [arguments]) (by simp [arguments]; omega)

end FileInto

namespace Redirect

theorem conserves_take (a : Redirect) :
    Conserves x a.take fun b k => Updates x a.arguments k b.arguments := by
  refine (conserves_flag _).bind fun copy _ hcopy => ?_
  refine conserves_popString.map fun address k haddress => ?_
  exact (haddress a.address).mono (by simp [arguments]) (by simp [arguments]; omega)

end Redirect

namespace Vacation

theorem conserves_take (a : Vacation) :
    Conserves x a.take fun b k => Updates x a.arguments k b.arguments := by
  refine (conserves_taggedNumber _).bind fun days _ hdays => ?_
  refine (conserves_taggedNumber _).bind fun seconds _ hseconds => ?_
  refine (conserves_taggedString _).bind fun subject _ hsubject => ?_
  refine (conserves_taggedString _).bind fun sender _ hsender => ?_
  refine (conserves_taggedStrings _).bind fun addresses _ haddresses => ?_
  refine (conserves_taggedString _).bind fun handle _ hhandle => ?_
  refine (conserves_flag _).bind fun mime _ hmime => ?_
  refine conserves_popText.map fun reason k hreason => ?_
  exact (hreason a.reason).mono (by simp [arguments]; omega) (by simp [arguments]; omega)

end Vacation

namespace Notify

theorem conserves_take (a : Notify) :
    Conserves x a.take fun b k => Updates x a.arguments k b.arguments := by
  refine (conserves_taggedString _).bind fun sender _ hsender => ?_
  refine (conserves_taggedString _).bind fun importance _ himportance => ?_
  refine (conserves_taggedStrings _).bind fun options _ hoptions => ?_
  refine (conserves_taggedString _).bind fun message _ hmessage => ?_
  refine conserves_popString.map fun method k hmethod => ?_
  exact (hmethod a.method).mono (by simp [arguments]; omega) (by simp [arguments]; omega)

end Notify

namespace Assign

theorem occurrences_map_tag (ts : List String) : occurrences x (ts.map .tag) = 0 :=
  occurrences_eq_zero (List.forall_mem_map.2 fun _ _ => rfl)

theorem conserves_take (a : Assign) :
    Conserves x a.take fun b k => Updates x a.arguments k b.arguments := by
  refine (conserves_allOf _).bind fun modifiers _ hmodifiers => ?_
  refine conserves_popString.bind fun value k hvalue => ?_
  refine conserves_popString.map fun name l hname => ?_
  refine ((hvalue a.value).append (hname a.name)).mono ?_ ?_ <;>
  · simp only [arguments, occurrences_append, occurrences_map_tag, occurrences_cons_cons]
    omega

end Assign

namespace Flags

theorem conserves_take (a : Flags) :
    Conserves x a.take fun b k => Updates x a.arguments k b.arguments := by
  refine conserves_popStrings.bind fun flags k hflags => ?_
  refine (conserves_pop faithful_string?).map fun target _ htarget => ?_
  exact (hflags a.flags).mono (by simp [arguments]) (by simp [arguments]; omega)

end Flags

namespace AddHeader

theorem conserves_take (a : AddHeader) :
    Conserves x a.take fun b k => Updates x a.arguments k b.arguments := by
  refine (conserves_flag _).bind fun last _ hlast => ?_
  refine conserves_popString.bind fun value k hvalue => ?_
  refine conserves_popString.map fun field l hfield => ?_
  exact ((hvalue a.value).append (hfield a.field)).mono
    (by simp [arguments]; omega) (by simp [arguments]; omega)

end AddHeader

namespace DeleteHeader

/-- The action with what was taken out of its arguments. -/
def store (a : DeleteHeader) (index : Option Number) (last : Bool) (trailing : Option (List String)) :
    Option String → DeleteHeader
  | some field => { a with index, last, field, patterns := trailing }
  | none => { a with index, last, field := (trailing.bind List.head?).getD a.field }

theorem take_eq (a : DeleteHeader) : a.take = do
    let index ← taggedNumber ":index"
    let last ← flag ":last"
    let trailing ← popStrings
    let name ← popString
    return a.store index last trailing name := by
  unfold take
  congr! 9 with index last trailing name
  cases name <;> rfl

/-- The strings that are not stored: those behind the first of a list that no field name stands in
front of. -/
def unstored : Option (List String) → Option String → List String
  | some (_ :: vs), none => vs
  | _, _ => []

theorem exists_updates_store (a : DeleteHeader) (index : Option Number) (last : Bool)
    (trailing : Option (List String)) (name : Option String) :
    ∃ k, Updates x a.arguments k (a.store index last trailing name).arguments ∧
      occurrences x (index.map number).toList + occurrences x (trailing.map strings).toList +
        occurrences x (name.map string).toList =
        k + occurrences x [.strings (unstored trailing name)] := by
  -- its matching always stays of the old action, its field and its patterns where nothing is stored
  let matching := occurrences x a.matching.comparatorArguments +
    occurrences x a.matching.matchTypeArguments
  let patterns := occurrences x (a.patterns.map strings).toList
  match name, trailing with
  | some field, trailing =>
    refine ⟨occurrences x (index.map number).toList + occurrences x (trailing.map strings).toList +
      occurrences x [string field], ⟨matching, ?_, ?_⟩, ?_⟩
    · simp [matching, arguments]
      omega
    · simp [matching, arguments, store]
      omega
    · simp [unstored]
  | none, none | none, some [] =>
    refine ⟨occurrences x (index.map number).toList,
      ⟨matching + occurrences x [string a.field] + patterns, ?_, ?_⟩, ?_⟩
    · simp [matching, patterns, arguments]
      omega
    · simp [matching, patterns, arguments, store]
      omega
    · simp [unstored]
  | none, some (v :: vs) =>
    refine ⟨occurrences x (index.map number).toList + occurrences x [string v],
      ⟨matching + patterns, ?_, ?_⟩, ?_⟩
    · simp [matching, patterns, arguments]
      omega
    · simp [matching, patterns, arguments, store]
      omega
    · simp [unstored, occurrences_strings_cons]
      omega

/-- The strings that the action takes out of arguments and does not store. -/
def surplus (args : List Argument) : List String :=
  let positional := ((flag ":last").run ((taggedNumber ":index").run args).2).2
  let trailing := popStrings.run positional
  unstored trailing.1 (popString.run trailing.2).1

theorem conserves_take (a : DeleteHeader) (args : List Argument) :
    ∃ k, Updates x a.arguments k (a.take.run args).1.arguments ∧
      occurrences x args = k + occurrences x (a.take.run args).2 +
        occurrences x [.strings (surplus args)] := by
  obtain ⟨_, rfl, hindex⟩ := conserves_taggedNumber (x := x) ":index" args
  obtain ⟨_, rfl, hlast⟩ := conserves_flag (x := x) ":last" ((taggedNumber ":index").run args).2
  simp only [take_eq, surplus, run_bind, run_pure]
  generalize (flag ":last").run _ = flagged at *
  obtain ⟨_, rfl, htrailing⟩ := conserves_pop (x := x) faithful_strings? flagged.2
  obtain ⟨_, rfl, hname⟩ := conserves_pop (x := x) faithful_string? ((pop strings?).run flagged.2).2
  obtain ⟨k, hk, hsum⟩ := a.exists_updates_store (x := x) _ flagged.1 _ _
  refine ⟨k, hk, ?_⟩
  simp only [popString_eq, popStrings_eq] at *
  omega

end DeleteHeader

namespace Inclusion

theorem conserves_take (a : Inclusion) :
    Conserves x a.take fun b k => Updates x a.arguments k b.arguments := by
  refine (conserves_oneOf _).bind fun location _ hlocation => ?_
  refine (conserves_flag _).bind fun once _ honce => ?_
  refine (conserves_flag _).bind fun optional _ hoptional => ?_
  refine conserves_popString.map fun script k hscript => ?_
  refine (hscript a.script).mono (by simp [arguments]) ?_
  simp [arguments, -Option.map_bind]
  omega

end Inclusion

variable {a : Action}

/-- The strings that the action takes and does not store. -/
def surplus : Action → List Argument → List String
  | deleteHeader _, args => DeleteHeader.surplus args
  | _, _ => []

theorem surplus_eq_nil (h : ∀ b, a ≠ deleteHeader b) (args : List Argument) : a.surplus args = [] := by
  cases a with
  | deleteHeader b => exact absurd rfl (h b)
  | _ => rfl

theorem conserves_take (h : ∀ b, a ≠ deleteHeader b) :
    Conserves x a.take fun b k => Updates x a.arguments k b.arguments := by
  cases a with
  | stop | discard | leave => exact conserves_pure ⟨_, le_rfl, Nat.zero_add _⟩
  | require old => exact conserves_popStrings.map fun _ _ hcapabilities => hcapabilities old
  | keep old =>
    refine (conserves_taggedStrings _).map fun flags _ hflags => ⟨0, Nat.zero_le _, ?_⟩
    simp [arguments, hflags]
  | fileInto a => exact a.conserves_take.map fun _ _ hk => hk
  | redirect a => exact a.conserves_take.map fun _ _ hk => hk
  | assign a => exact a.conserves_take.map fun _ _ hk => hk
  | vacation a => exact a.conserves_take.map fun _ _ hk => hk
  | setFlags a | addFlags a | removeFlags a => exact a.conserves_take.map fun _ _ hk => hk
  | addHeader a => exact a.conserves_take.map fun _ _ hk => hk
  | deleteHeader a => exact absurd rfl (h a)
  | reject old | earlyReject old => exact conserves_popText.map fun _ _ hreason => hreason old
  | notify a => exact a.conserves_take.map fun _ _ hk => hk
  | error old => exact conserves_popString.map fun _ _ hmessage => hmessage old
  | inclusion a => exact a.conserves_take.map fun _ _ hk => hk
  | placeholder old =>
    refine conserves_everything.map fun args _ hargs => ⟨occurrences x old, le_rfl, ?_⟩
    simp [arguments, hargs, Nat.add_comm]

/-- What is taken is stored or surplus, and what is not taken is left. -/
theorem exists_updates_take (a : Action) (args : List Argument) :
    ∃ k, Updates x a.arguments k (a.take.run args).1.arguments ∧
      occurrences x args = k + occurrences x (a.take.run args).2 +
        occurrences x [.strings (a.surplus args)] := by
  by_cases h : ∃ b, a = deleteHeader b
  · obtain ⟨b, rfl⟩ := h
    exact b.conserves_take args
  · obtain ⟨k, hk, hargs⟩ := conserves_take (x := x) (fun b hb => h ⟨b, hb⟩) args
    have hsurplus := surplus_eq_nil (fun b hb => h ⟨b, hb⟩) args
    exact ⟨k, hk, by simp [hargs, hsurplus]⟩

end Action

namespace Condition
variable {x : Value}

namespace Address

theorem conserves_take (c : Address) :
    Conserves x c.take fun d k => Updates x c.arguments k d.arguments := by
  refine (conserves_oneOf _).bind fun part _ hpart => ?_
  refine conserves_popStrings.bind fun keys k hkeys => ?_
  refine conserves_popStrings.map fun headers l hheaders => ?_
  refine ((hkeys c.keys).append (hheaders c.headers)).mono ?_ ?_ <;>
  · simp [arguments, -Option.map_bind]
    omega

end Address

namespace Header

theorem conserves_take (c : Header) :
    Conserves x c.take fun d k => Updates x c.arguments k d.arguments := by
  refine conserves_popStrings.bind fun keys k hkeys => ?_
  refine conserves_popStrings.map fun names l hnames => ?_
  exact ((hkeys c.keys).append (hnames c.names)).mono
    (by simp [arguments]; omega) (by simp [arguments]; omega)

end Header

namespace Size

theorem conserves_take (c : Size) :
    Conserves x c.take fun d k => Updates x c.arguments k d.arguments := by
  refine (conserves_oneOf _).bind fun side _ hside => ?_
  refine conserves_popNumber.map fun limit k hlimit => ?_
  exact (hlimit c.limit).mono (by simp [arguments]) (by simp [arguments]; omega)

end Size

theorem Transform.conserves_take :
    Conserves x Transform.take fun t k => k = occurrences x (t.elim [] Transform.arguments) := by
  refine (conserves_taggedStrings _).bind fun types k htypes => ?_
  cases types with
  | some types => exact conserves_pure (by simp [htypes, arguments])
  | none =>
    refine (conserves_flag _).bind fun raw _ hraw => ?_
    cases raw with
    | true => exact conserves_pure (by simp [htypes, hraw, arguments])
    | false =>
      refine (conserves_flag _).bind fun text _ htext => ?_
      cases text <;> exact conserves_pure (by simp [htypes, hraw, htext, arguments])

namespace Body

theorem conserves_take (c : Body) :
    Conserves x c.take fun d k => Updates x c.arguments k d.arguments := by
  refine Transform.conserves_take.bind fun transform _ htransform => ?_
  refine conserves_popStrings.map fun keys k hkeys => ?_
  exact (hkeys c.keys).mono (by simp [arguments]) (by simp [arguments]; omega)

end Body

namespace HasFlag

theorem conserves_take (c : HasFlag) :
    Conserves x c.take fun d k => Updates x c.arguments k d.arguments := by
  refine conserves_popStrings.bind fun flags k hflags => ?_
  refine (conserves_pop faithful_strings?).map fun sources _ hsources => ?_
  exact (hflags c.flags).mono (by simp [arguments]) (by simp [arguments]; omega)

end HasFlag

namespace SpamScore

theorem conserves_take (c : SpamScore) :
    Conserves x c.take fun d k => Updates x c.arguments k d.arguments := by
  refine (conserves_flag _).bind fun percent _ hpercent => ?_
  refine conserves_popString.map fun value k hvalue => ?_
  exact (hvalue c.value).mono (by simp [arguments]) (by simp [arguments]; omega)

end SpamScore

theorem Zone.conserves_take :
    Conserves x Zone.take fun z k => k = occurrences x (z.elim [] Zone.arguments) := by
  refine (conserves_taggedString _).bind fun text k htext => ?_
  cases text with
  | some text => exact conserves_pure (by simp [htext, arguments])
  | none =>
    refine (conserves_flag _).bind fun original _ horiginal => ?_
    cases original <;> exact conserves_pure (by simp [htext, horiginal, arguments])

namespace Date

theorem conserves_take (c : Date) :
    Conserves x c.take fun d k => Updates x c.arguments k d.arguments := by
  refine Zone.conserves_take.bind fun zone _ hzone => ?_
  refine conserves_popStrings.bind fun keys k hkeys => ?_
  refine conserves_popString.bind fun part l hpart => ?_
  refine conserves_popString.map fun header m hheader => ?_
  exact ((hkeys c.keys).append ((hpart c.part).append (hheader c.header))).mono
    (by simp [arguments]; omega) (by simp [arguments]; omega)

end Date

namespace CurrentDate

theorem conserves_take (c : CurrentDate) :
    Conserves x c.take fun d k => Updates x c.arguments k d.arguments := by
  refine Zone.conserves_take.bind fun zone _ hzone => ?_
  refine conserves_popStrings.bind fun keys k hkeys => ?_
  refine conserves_popString.map fun part l hpart => ?_
  exact ((hkeys c.keys).append (hpart c.part)).mono
    (by simp [arguments]; omega) (by simp [arguments]; omega)

end CurrentDate

namespace Environment

theorem conserves_take (c : Environment) :
    Conserves x c.take fun d k => Updates x c.arguments k d.arguments := by
  refine conserves_popStrings.bind fun keys k hkeys => ?_
  refine conserves_popString.map fun name l hname => ?_
  exact ((hkeys c.keys).append (hname c.name)).mono
    (by simp [arguments]; omega) (by simp [arguments]; omega)

end Environment

namespace Strings

theorem conserves_take (c : Strings) :
    Conserves x c.take fun d k => Updates x c.arguments k d.arguments := by
  refine conserves_popStrings.bind fun keys k hkeys => ?_
  refine conserves_popStrings.map fun sources l hsources => ?_
  exact ((hkeys c.keys).append (hsources c.sources)).mono
    (by simp [arguments]; omega) (by simp [arguments]; omega)

end Strings

namespace MethodCapability

theorem conserves_take (c : MethodCapability) :
    Conserves x c.take fun d k => Updates x c.arguments k d.arguments := by
  refine conserves_popStrings.bind fun keys k hkeys => ?_
  refine conserves_popString.bind fun capability l hcapability => ?_
  refine conserves_popString.map fun uri m huri => ?_
  exact ((hkeys c.keys).append ((hcapability c.capability).append (huri c.uri))).mono
    (by simp [arguments]; omega) (by simp [arguments]; omega)

end MethodCapability

namespace Metadata

theorem conserves_take (c : Metadata) :
    Conserves x c.take fun d k => Updates x c.arguments k d.arguments := by
  refine conserves_popStrings.bind fun keys k hkeys => ?_
  refine conserves_popString.bind fun name l hname => ?_
  refine conserves_popString.map fun mailbox m hmailbox => ?_
  exact ((hkeys c.keys).append ((hname c.name).append (hmailbox c.mailbox))).mono
    (by simp [arguments]; omega) (by simp [arguments]; omega)

end Metadata

namespace MetadataExists

theorem conserves_take (c : MetadataExists) :
    Conserves x c.take fun d k => Updates x c.arguments k d.arguments := by
  refine conserves_popStrings.bind fun names k hnames => ?_
  refine conserves_popString.map fun mailbox l hmailbox => ?_
  exact ((hnames c.names).append (hmailbox c.mailbox)).mono
    (by simp [arguments]; omega) (by simp [arguments]; omega)

end MetadataExists

variable {c : Condition}

theorem conserves_take (c : Condition) :
    Conserves x c.take fun d k => Updates x c.arguments k d.arguments := by
  cases c with
  | never | always => exact conserves_pure ⟨_, le_rfl, Nat.zero_add _⟩
  | address c | envelope c => exact c.conserves_take.map fun _ _ hk => hk
  | header c => exact c.conserves_take.map fun _ _ hk => hk
  | size c => exact c.conserves_take.map fun _ _ hk => hk
  | body c => exact c.conserves_take.map fun _ _ hk => hk
  | environment c => exact c.conserves_take.map fun _ _ hk => hk
  | strings c => exact c.conserves_take.map fun _ _ hk => hk
  | hasFlag c => exact c.conserves_take.map fun _ _ hk => hk
  | spam c => exact c.conserves_take.map fun _ _ hk => hk
  | virus old => exact conserves_popString.map fun _ _ hvalue => hvalue old
  | date c => exact c.conserves_take.map fun _ _ hk => hk
  | currentDate c => exact c.conserves_take.map fun _ _ hk => hk
  | headerExists old | validMethod old | available old | mailboxExists old =>
    exact conserves_popStrings.map fun _ _ hstrings => hstrings old
  | methodCapability c => exact c.conserves_take.map fun _ _ hk => hk
  | metadata c => exact c.conserves_take.map fun _ _ hk => hk
  | metadataExists c => exact c.conserves_take.map fun _ _ hk => hk
  | placeholder old =>
    refine conserves_everything.map fun args _ hargs => ⟨occurrences x old, le_rfl, ?_⟩
    simp [arguments, hargs, Nat.add_comm]

end Condition

namespace Node

/-- The strings that the node takes out of arguments and does not store. -/
def surplus : Node → List Argument → List String
  | item (.action _ a), args => a.surplus args
  | _, _ => []

theorem exists_updates_take (n : Node) (args : List Argument) (x : Value) :
    ∃ k, Updates x n.arguments k (n.take.run args).1.arguments ∧
      occurrences x args = k + occurrences x (n.take.run args).2 +
        occurrences x [.strings (n.surplus args)] := by
  match n with
  | item (.action h a) => exact a.exists_updates_take args
  | test (.leaf h m c) =>
    obtain ⟨k, hk, hargs⟩ := c.conserves_take (x := x) args
    exact ⟨k, hk, by rw [hargs]; rfl⟩
  | item (.comment _) | item (.conditional ..) | test (.negation ..) | test (.group ..) =>
    exact ⟨0, ⟨0, le_rfl, rfl⟩, (Nat.zero_add _).symm⟩

/-- Filled from arguments, a node holds every value that the arguments hold and that is neither left
nor surplus, as often as they do, and nothing else but what it held before. Only the action that
deletes header fields has a surplus, and without one each value is held or left. -/
theorem occurrences_take (n : Node) (args : List Argument) :
    (∀ x, ∃ kept ≤ occurrences x n.arguments,
      occurrences x args + kept = occurrences x (n.take.run args).1.arguments +
        occurrences x (n.take.run args).2 + occurrences x [.strings (n.surplus args)]) ∧
    ((∀ h a, n ≠ item (.action h (.deleteHeader a))) → n.surplus args = []) ∧
    (n.surplus args = [] → ∀ x, occurrences x args ≤
      occurrences x (n.take.run args).1.arguments + occurrences x (n.take.run args).2) := by
  have hsum : ∀ x, ∃ kept ≤ occurrences x n.arguments,
      occurrences x args + kept = occurrences x (n.take.run args).1.arguments +
        occurrences x (n.take.run args).2 + occurrences x [.strings (n.surplus args)] := by
    intro x
    obtain ⟨k, ⟨kept, hkept, hk⟩, hargs⟩ := n.exists_updates_take args x
    exact ⟨kept, hkept, by omega⟩
  refine ⟨hsum, fun hn => ?_, fun hsurplus x => ?_⟩
  · match n with
    | item (.action h a) => exact Action.surplus_eq_nil (fun b hb => hn h b (by rw [hb])) args
    | item (.comment _) | item (.conditional ..) | test _ => rfl
  · obtain ⟨kept, -, hx⟩ := hsum x
    rw [hsurplus, occurrences_strings_nil] at hx
    omega

/-- A list of two field names: the first becomes the field, and the second is neither stored nor
left. -/
theorem not_stored_of_two_fields :
    ¬∀ d ∈ Definition.all, ∀ args x, occurrences x args ≤
      occurrences x (d.fresh.take.run args).1.arguments + occurrences x (d.fresh.take.run args).2 := by
  intro h
  have hlost := h ⟨"deleteheader", ["editheader"], .action (.deleteHeader {})⟩
    (by simp [Definition.all]) [.strings ["X-A", "X-B"]] (.string "X-B")
  exact absurd hlost (by decide)

end Node

end SieveScript
