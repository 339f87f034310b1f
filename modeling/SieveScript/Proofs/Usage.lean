import Mathlib.Data.List.Nodup
import SieveScript.Proofs.Refilling

/-!
# The order of tagged arguments

A node finds its tags wherever they stand, so they may come in any order and between its positional
arguments, as long as a value stands right behind its tag and the positional arguments keep their own
order. `Arranged` says what such an arrangement is. What a node may be given is its `Usage`: a `Slot`
for each optional part, with the tags that exclude each other in one slot, and what each positional
argument has to be.

Taking works on one list and takes the slots one by one, each out of what the ones before it left.
That a slot is still whole when its turn comes is the invariant: what is left is an arrangement of the
other slots (`Arranged.split`). That no slot is mistaken for another holds since no tag belongs to two
slots of a usage (`Usage.nodup`). `Slot.FoundBy.bind` is the step, and `Node.take_of_arranged` the
result for every kind of node with tagged arguments but the assignment, whose tags are a list in their
order.
-/

namespace SieveScript

open Argument Taking

/-! ### Arrangements -/

/-- The list is made of the groups and the positional arguments, both in their order. -/
inductive Interleaves : List (List Argument) → List Argument → List Argument → Prop
  | nil : Interleaves [] [] []
  | group (g : List Argument) {gs : List (List Argument)} {ps args : List Argument}
      (h : Interleaves gs ps args) : Interleaves (g :: gs) ps (g ++ args)
  | positional (p : Argument) {gs : List (List Argument)} {ps args : List Argument}
      (h : Interleaves gs ps args) : Interleaves gs (p :: ps) (p :: args)

namespace Interleaves

variable {gs : List (List Argument)} {ps args : List Argument}

theorem eq_of_nil (h : Interleaves [] ps args) : args = ps := by
  generalize hgs : [] = gs at h
  induction h with
  | nil => rfl
  | group => contradiction
  | positional p h ih => rw [ih hgs]

theorem mem (h : Interleaves gs ps args) {a : Argument} (ha : a ∈ args) :
    (∃ g ∈ gs, a ∈ g) ∨ a ∈ ps := by
  induction h with
  | nil => contradiction
  | group g h ih =>
    rcases List.mem_append.1 ha with ha | ha
    · exact .inl ⟨g, by simp, ha⟩
    · exact (ih ha).imp (fun ⟨g', hg', ha⟩ => ⟨g', List.mem_cons_of_mem g hg', ha⟩) id
  | positional p h ih =>
    rcases List.mem_cons.1 ha with rfl | ha
    · simp
    · exact (ih ha).imp_right (List.mem_cons_of_mem p)

/-- Each group stands somewhere as a whole, and without it the others are as they were. -/
theorem split {l r : List (List Argument)} {g : List Argument} (h : Interleaves (l ++ g :: r) ps args) :
    ∃ xs ys, args = xs ++ g ++ ys ∧ Interleaves (l ++ r) ps (xs ++ ys) := by
  generalize hgs : l ++ g :: r = gs at h
  induction h generalizing l with
  | nil => simp at hgs
  | @group g' gs ps args h ih =>
    cases l with
    | nil =>
      obtain ⟨rfl, rfl⟩ := List.cons_eq_cons.1 hgs
      exact ⟨[], args, by simp, h⟩
    | cons g₀ l =>
      obtain ⟨rfl, htail⟩ := List.cons_eq_cons.1 hgs
      obtain ⟨xs, ys, rfl, h'⟩ := ih htail
      exact ⟨g₀ ++ xs, ys, by simp, by simpa using h'.group g₀⟩
  | positional p h ih =>
    obtain ⟨xs, ys, rfl, h'⟩ := ih hgs
    exact ⟨p :: xs, ys, by simp, h'.positional p⟩

end Interleaves

/-- The list is made of the groups in any order and the positional arguments in theirs. -/
def Arranged (gs : List (List Argument)) (ps args : List Argument) : Prop :=
  ∃ order, order.Perm gs ∧ Interleaves order ps args

namespace Arranged

variable {gs : List (List Argument)} {ps args : List Argument}

theorem eq_of_nil (h : Arranged [] ps args) : args = ps := by
  obtain ⟨order, horder, h⟩ := h
  obtain rfl := horder.eq_nil
  exact h.eq_of_nil

theorem mem (h : Arranged gs ps args) {a : Argument} (ha : a ∈ args) :
    (∃ g ∈ gs, a ∈ g) ∨ a ∈ ps := by
  obtain ⟨order, horder, h⟩ := h
  exact (h.mem ha).imp_left fun ⟨g, hg, ha⟩ => ⟨g, horder.subset hg, ha⟩

theorem split {g : List Argument} (h : Arranged (g :: gs) ps args) :
    ∃ xs ys, args = xs ++ g ++ ys ∧ Arranged gs ps (xs ++ ys) := by
  obtain ⟨order, horder, h⟩ := h
  obtain ⟨l, r, rfl⟩ := List.append_of_mem (horder.symm.subset List.mem_cons_self)
  obtain ⟨xs, ys, hargs, h⟩ := h.split
  exact ⟨xs, ys, hargs, l ++ r, (List.perm_middle.symm.trans horder).cons_inv, h⟩

end Arranged

/-! ### Slots -/

/-- An optional part of a node and how it may be written. -/
structure Slot where
  /-- The tags that the part may be written with. -/
  tags : List String
  /-- The group of arguments writes the part. -/
  Spells : List Argument → Prop
  tags_of_spells : ∀ g, Spells g → ∀ t, tag t ∈ g → t ∈ tags

namespace Slot

/-- A tag that is there or not. -/
def flag (name : String) (on : Bool) : Slot where
  tags := [name]
  Spells g := g = ofFlag name on
  tags_of_spells := by
    rintro _ rfl t ht
    cases on <;> simp_all [ofFlag]

/-- A tag with a value, in any form in which the value can be given. -/
def tagged {α : Type} (convert : Argument → Option α) (name : String) (value : Option α) : Slot where
  tags := [name]
  Spells g :=
    match value with
    | none => g = []
    | some x => ∃ v : Argument, v.tag? = none ∧ convert v = some x ∧ g = [tag name, v]
  tags_of_spells := by
    intro g hg t ht
    cases value with
    | none => simp_all
    | some x =>
      obtain ⟨v, hv, -, rfl⟩ := hg
      rcases List.mem_cons.1 ht with ht | ht
      · simpa using ht
      · obtain rfl := List.mem_singleton.1 ht
        contradiction

/-- At most one of several tags. -/
def oneOf (names : List String) (name : Option String) : Slot where
  tags := names
  Spells g :=
    match name with
    | none => g = []
    | some t => t ∈ names ∧ g = [tag t]
  tags_of_spells := by
    intro g hg t ht
    cases name with
    | none => simp_all
    | some t' =>
      obtain ⟨hmem, rfl⟩ := hg
      obtain rfl : t = t' := by simpa using ht
      exact hmem

/-- What a body is turned into. -/
def transform (t : Option Condition.Transform) : Slot where
  tags := [":content", ":raw", ":text"]
  Spells g :=
    match t with
    | none => g = []
    | some .raw => g = [tag ":raw"]
    | some (.content types) => (tagged strings? ":content" (some types)).Spells g
    | some .text => g = [tag ":text"]
  tags_of_spells := by
    intro g hg t' ht'
    obtain _ | (_ | types | _) := t
    · simp_all
    · simp_all
    · have := (tagged strings? ":content" (some types)).tags_of_spells g hg t' ht'
      simp_all [tagged]
    · simp_all

/-- The zone in which a date is read. -/
def zone (z : Option Condition.Zone) : Slot where
  tags := [":zone", ":originalzone"]
  Spells g :=
    match z with
    | none => g = []
    | some (.offset text) => (tagged string? ":zone" (some text)).Spells g
    | some .ofDate => g = [tag ":originalzone"]
  tags_of_spells := by
    intro g hg t ht
    obtain _ | (text | _) := z
    · simp_all
    · have := (tagged string? ":zone" (some text)).tags_of_spells g hg t ht
      simp_all [tagged]
    · simp_all

theorem free {s : Slot} {g : List Argument} (h : s.Spells g) {name : String} (hn : name ∉ s.tags) :
    Free name g := by
  intro a ha
  cases a with
  | tag t =>
    have ht := s.tags_of_spells g h t ha
    rw [isTag_tag, beq_eq_false_iff_ne]
    rintro rfl
    exact hn ht
  | _ => rfl

/-- Out of arguments that are free of its tags otherwise, the step takes the slot as a whole. -/
def FoundBy {α : Type} (s : Slot) (step : Taking α) (x : α) : Prop :=
  ∀ ⦃g⦄, s.Spells g → ∀ xs ys, (∀ n ∈ s.tags, Free n (xs ++ ys)) →
    step.run (xs ++ g ++ ys) = (x, xs ++ ys)

section
variable {α : Type} {convert : Argument → Option α}

theorem foundBy_flag (name : String) (on : Bool) : (flag name on).FoundBy (Taking.flag name) on := by
  rintro _ rfl xs ys h
  obtain ⟨hxs, hys⟩ := free_append.1 (h name List.mem_cons_self)
  rw [List.append_assoc, flag_append_of_free hxs, flag_ofFlag on hys]

theorem foundBy_tagged (name : String) (value : Option α) :
    (tagged convert name value).FoundBy (Taking.tagged convert name) value := by
  intro g hg xs ys h
  obtain ⟨hxs, hys⟩ := free_append.1 (h name List.mem_cons_self)
  rw [List.append_assoc, tagged_append_of_free hxs]
  cases value with
  | none =>
    obtain rfl : g = [] := hg
    rw [List.nil_append, tagged_of_free hys]
  | some x =>
    obtain ⟨v, -, hv, rfl⟩ := hg
    rw [List.cons_append, List.cons_append, List.nil_append, tagged_tag hv]

theorem foundBy_oneOf (names : List String) (name : Option String) :
    (oneOf names name).FoundBy (Taking.oneOf names) name := by
  intro g hg xs ys (h : ∀ n ∈ names, Free n (xs ++ ys))
  cases name with
  | none =>
    obtain rfl : g = [] := hg
    rw [List.append_nil, oneOf_of_free h]
  | some t =>
    obtain ⟨ht, rfl⟩ := hg
    have hxs : ∀ n ∈ names, Free n xs := fun n hn => (free_append.1 (h n hn)).1
    rw [List.append_assoc, oneOf_append_of_free hxs, List.singleton_append, oneOf_tag ht]

end

theorem foundBy_transform (t : Option Condition.Transform) :
    (transform t).FoundBy Condition.Transform.take t := by
  intro g hg xs ys h
  have hcontent := h ":content" (by simp [transform])
  have hraw := h ":raw" (by simp [transform])
  have htext := h ":text" (by simp [transform])
  obtain _ | (_ | types | _) := t
  · obtain rfl : g = [] := hg
    simp_all [Condition.Transform.take]
  · obtain rfl : g = [tag ":raw"] := hg
    simp_all [Condition.Transform.take]
  · have hfound := foundBy_tagged ":content" (some types) hg xs ys (by simpa [tagged] using hcontent)
    simp only [Condition.Transform.take, run_bind, taggedStrings_eq, hfound, run_pure]
  · obtain rfl : g = [tag ":text"] := hg
    simp_all [Condition.Transform.take]

theorem foundBy_zone (z : Option Condition.Zone) : (zone z).FoundBy Condition.Zone.take z := by
  intro g hg xs ys h
  have hzone := h ":zone" (by simp [zone])
  have hown := h ":originalzone" (by simp [zone])
  obtain _ | (text | _) := z
  · obtain rfl : g = [] := hg
    simp_all [Condition.Zone.take]
  · have hfound := foundBy_tagged ":zone" (some text) hg xs ys (by simpa [tagged] using hzone)
    simp only [Condition.Zone.take, run_bind, taggedString_eq, hfound, run_pure]
  · obtain rfl : g = [tag ":originalzone"] := hg
    simp_all [Condition.Zone.take]

end Slot

/-! ### Spellings -/

/-- The groups write the slots, and the positional arguments are what they have to be. -/
structure Spelling (slots : List Slot) (places : List (Argument → Prop)) (gs : List (List Argument))
    (ps : List Argument) : Prop where
  groups : List.Forall₂ Slot.Spells slots gs
  positionals : List.Forall₂ (fun place p => place p) places ps
  values : ∀ p ∈ ps, p.tag? = none

/-- Whatever the slots and the places are spelled with and however this is arranged, the step makes
`x` of it and leaves nothing, provided that no tag belongs to two of the slots. -/
def Fills {α : Type} (slots : List Slot) (places : List (Argument → Prop)) (step : Taking α) (x : α) :
    Prop :=
  (slots.flatMap Slot.tags).Nodup → ∀ gs ps, Spelling slots places gs ps →
    ∀ args, Arranged gs ps args → step.run args = (x, [])

section
variable {α β : Type} {slots : List Slot} {places : List (Argument → Prop)}
  {gs : List (List Argument)} {ps args : List Argument}

theorem Slot.exists_of_mem (h : List.Forall₂ Slot.Spells slots gs) {g : List Argument} (hg : g ∈ gs) :
    ∃ s ∈ slots, s.Spells g := by
  induction h with
  | nil => contradiction
  | @cons s _ slots _ h _ ih =>
    rcases List.mem_cons.1 hg with rfl | hg
    · exact ⟨s, List.mem_cons_self, h⟩
    · obtain ⟨s', hs', hg⟩ := ih hg
      exact ⟨s', List.mem_cons_of_mem s hs', hg⟩

/-- An arrangement of a spelling is free of the tags that belong to none of the slots. -/
theorem Spelling.free (h : Spelling slots places gs ps) (hargs : Arranged gs ps args) {name : String}
    (hn : name ∉ slots.flatMap Slot.tags) : Free name args := by
  intro a ha
  rcases hargs.mem ha with ⟨g, hg, ha⟩ | ha
  · obtain ⟨s, hs, hsg⟩ := Slot.exists_of_mem h.groups hg
    exact Slot.free hsg (fun ht => hn (List.mem_flatMap.2 ⟨s, hs, ht⟩)) a ha
  · simp [isTag, h.values a ha]

/-- What takes a slot first leaves an arrangement of the others. -/
theorem Slot.FoundBy.bind {s : Slot} {step : Taking β} {y : β} {f : β → Taking α} {x : α}
    (hs : s.FoundBy step y) (hf : Fills slots places (f y) x) :
    Fills (s :: slots) places (step >>= f) x := by
  intro hnodup gs ps h args hargs
  obtain ⟨hgroups, hpositionals, hvalues⟩ := h
  obtain _ | ⟨hg, hgs⟩ := hgroups
  obtain ⟨-, hnodup, hdisjoint⟩ := List.nodup_append'.1 hnodup
  obtain ⟨xs, ys, rfl, hrest⟩ := hargs.split
  have hspelling : Spelling slots places _ ps := ⟨hgs, hpositionals, hvalues⟩
  have hfree : ∀ n ∈ s.tags, Free n (xs ++ ys) := fun n hn => hspelling.free hrest (hdisjoint hn)
  rw [run_bind, hs hg xs ys hfree]
  exact hf hnodup _ ps hspelling _ hrest

/-- When all slots are taken, the positional arguments are left as they were. -/
theorem fills_nil {step : Taking α} {x : α}
    (h : ∀ ps, List.Forall₂ (fun place p => place p) places ps → step.run ps = (x, [])) :
    Fills [] places step x := by
  rintro - _ ps ⟨_ | _, hps, -⟩ args hargs
  rw [hargs.eq_of_nil]
  exact h ps hps

theorem Fills.map {step : Taking β} {y : β} (h : Fills slots places step y) (f : β → α) :
    Fills slots places (do return f (← step)) (f y) := by
  intro hnodup gs ps hs args hargs
  simp [h hnodup gs ps hs args hargs]

end

/-! ### Usages -/

/-- What a node may be given: its optional parts, and what each positional argument has to be. -/
structure Usage where
  slots : List Slot
  places : List (Argument → Prop)
  /-- No tag belongs to two slots. -/
  nodup : (slots.flatMap Slot.tags).Nodup

namespace Action

/-- How the flags of `keep` are written. -/
def keepUsage (flags : Option (List String)) : Usage where
  slots := [.tagged strings? ":flags" flags]
  places := []
  nodup := by simp [Slot.tagged]

theorem fills_keep (flags old : Option (List String)) :
    Fills (keepUsage flags).slots (keepUsage flags).places (keep old).take (keep flags) := by
  refine (Slot.foundBy_tagged ":flags" flags).bind (fills_nil ?_)
  rintro _ (_ | _)
  rfl

namespace FileInto

def usage (a : FileInto) : Usage where
  slots := [.tagged strings? ":flags" a.flags, .flag ":copy" a.copy, .flag ":create" a.create]
  places := [(·.string? = some a.mailbox)]
  nodup := by simp [Slot.tagged, Slot.flag]

theorem fills_take (a b : FileInto) : Fills a.usage.slots a.usage.places b.take a := by
  refine (Slot.foundBy_tagged ":flags" a.flags).bind ?_
  refine (Slot.foundBy_flag ":copy" a.copy).bind ?_
  refine (Slot.foundBy_flag ":create" a.create).bind (fills_nil ?_)
  rintro _ (_ | ⟨hmailbox, _ | _⟩)
  simp [pop_singleton hmailbox]

end FileInto

namespace Redirect

def usage (a : Redirect) : Usage where
  slots := [.flag ":copy" a.copy]
  places := [(·.string? = some a.address)]
  nodup := by simp [Slot.flag]

theorem fills_take (a b : Redirect) : Fills a.usage.slots a.usage.places b.take a := by
  refine (Slot.foundBy_flag ":copy" a.copy).bind (fills_nil ?_)
  rintro _ (_ | ⟨haddress, _ | _⟩)
  simp [pop_singleton haddress]

end Redirect

namespace Vacation

def usage (a : Vacation) : Usage where
  slots := [.tagged number? ":days" a.days, .tagged number? ":seconds" a.seconds,
    .tagged string? ":subject" a.subject, .tagged string? ":from" a.sender,
    .tagged strings? ":addresses" a.addresses, .tagged string? ":handle" a.handle,
    .flag ":mime" a.mime]
  places := [(·.text? = some a.reason)]
  nodup := by simp [Slot.tagged, Slot.flag]

theorem fills_take (a b : Vacation) : Fills a.usage.slots a.usage.places b.take a := by
  refine (Slot.foundBy_tagged ":days" a.days).bind ?_
  refine (Slot.foundBy_tagged ":seconds" a.seconds).bind ?_
  refine (Slot.foundBy_tagged ":subject" a.subject).bind ?_
  refine (Slot.foundBy_tagged ":from" a.sender).bind ?_
  refine (Slot.foundBy_tagged ":addresses" a.addresses).bind ?_
  refine (Slot.foundBy_tagged ":handle" a.handle).bind ?_
  refine (Slot.foundBy_flag ":mime" a.mime).bind (fills_nil ?_)
  rintro _ (_ | ⟨hreason, _ | _⟩)
  simp [pop_singleton hreason]

end Vacation

namespace AddHeader

def usage (a : AddHeader) : Usage where
  slots := [.flag ":last" a.last]
  places := [(·.string? = some a.field), (·.string? = some a.value)]
  nodup := by simp [Slot.flag]

theorem fills_take (a b : AddHeader) : Fills a.usage.slots a.usage.places b.take a := by
  refine (Slot.foundBy_flag ":last" a.last).bind (fills_nil ?_)
  rintro _ (_ | ⟨hfield, _ | ⟨hvalue, _ | _⟩⟩)
  simp [pop_singleton hfield, pop_singleton hvalue]

end AddHeader

namespace DeleteHeader

/-- The patterns may be missing; the field is then the last argument. -/
def usage (a : DeleteHeader) : Usage where
  slots := [.tagged number? ":index" a.index, .flag ":last" a.last]
  places := (·.string? = some a.field) ::
    (a.patterns.map fun patterns a => a.strings? = some patterns).toList
  nodup := by simp [Slot.tagged, Slot.flag]

theorem fills_take (a : DeleteHeader) :
    Fills a.usage.slots a.usage.places ({ matching := a.matching } : DeleteHeader).take a := by
  obtain ⟨index, last, matching, field, patterns⟩ := a
  refine (Slot.foundBy_tagged ":index" index).bind ?_
  refine (Slot.foundBy_flag ":last" last).bind (fills_nil ?_)
  cases patterns with
  | none =>
    rintro _ (_ | ⟨hfield, _ | _⟩)
    simp [pop_singleton (strings?_of_string? hfield)]
  | some patterns =>
    rintro _ (_ | ⟨hfield, _ | ⟨hpatterns, _ | _⟩⟩)
    simp [pop_singleton hfield, pop_singleton hpatterns]

end DeleteHeader

namespace Notify

def usage (a : Notify) : Usage where
  slots := [.tagged string? ":from" a.sender, .tagged string? ":importance" a.importance,
    .tagged strings? ":options" a.options, .tagged string? ":message" a.message]
  places := [(·.string? = some a.method)]
  nodup := by simp [Slot.tagged]

theorem fills_take (a b : Notify) : Fills a.usage.slots a.usage.places b.take a := by
  refine (Slot.foundBy_tagged ":from" a.sender).bind ?_
  refine (Slot.foundBy_tagged ":importance" a.importance).bind ?_
  refine (Slot.foundBy_tagged ":options" a.options).bind ?_
  refine (Slot.foundBy_tagged ":message" a.message).bind (fills_nil ?_)
  rintro _ (_ | ⟨hmethod, _ | _⟩)
  simp [pop_singleton hmethod]

end Notify

namespace Inclusion

def usage (a : Inclusion) : Usage where
  slots := [.oneOf [":personal", ":global"] (a.location.map Location.tag), .flag ":once" a.once,
    .flag ":optional" a.optional]
  places := [(·.string? = some a.script)]
  nodup := by simp [Slot.oneOf, Slot.flag]

theorem fills_take (a b : Inclusion) : Fills a.usage.slots a.usage.places b.take a := by
  refine (Slot.foundBy_oneOf _ (a.location.map Location.tag)).bind ?_
  refine (Slot.foundBy_flag ":once" a.once).bind ?_
  refine (Slot.foundBy_flag ":optional" a.optional).bind (fills_nil ?_)
  rintro _ (_ | ⟨hscript, _ | _⟩)
  obtain ⟨_ | (_ | _), once, optional, script⟩ := a <;>
    simp [pop_singleton hscript, Location.tag, Location.ofTag?]

end Inclusion

/-- The usage of an action that has tagged arguments. Match type and comparator are no arguments of
the body. -/
inductive Uses : Action → Usage → Prop
  | keep (flags : Option (List String)) : Uses (keep flags) (keepUsage flags)
  | fileInto (a : FileInto) : Uses (fileInto a) a.usage
  | redirect (a : Redirect) : Uses (redirect a) a.usage
  | vacation (a : Vacation) : Uses (vacation a) a.usage
  | addHeader (a : AddHeader) : Uses (addHeader a) a.usage
  | deleteHeader {a : DeleteHeader} (h : a.matching = {}) : Uses (deleteHeader a) a.usage
  | notify (a : Notify) : Uses (notify a) a.usage
  | inclusion (a : Inclusion) : Uses (inclusion a) a.usage

theorem fills_of_uses {a : Action} {u : Usage} (h : a.Uses u) : Fills u.slots u.places a.blank.take a := by
  cases h with
  | keep flags => exact fills_keep flags none
  | fileInto a => exact (a.fills_take {}).map fileInto
  | redirect a => exact (a.fills_take {}).map redirect
  | vacation a => exact (a.fills_take {}).map vacation
  | addHeader a => exact (a.fills_take {}).map addHeader
  | @deleteHeader a h =>
    have hfills := a.fills_take
    rw [h] at hfills
    exact hfills.map deleteHeader
  | notify a => exact (a.fills_take {}).map notify
  | inclusion a => exact (a.fills_take {}).map inclusion

end Action

namespace Condition

namespace Address

def usage (c : Address) : Usage where
  slots := [.oneOf [":all", ":localpart", ":domain", ":user", ":detail"] (c.part.map AddressPart.tag)]
  places := [(·.strings? = some c.headers), (·.strings? = some c.keys)]
  nodup := by simp [Slot.oneOf]

theorem fills_take (c b : Address) : Fills c.usage.slots c.usage.places b.take c := by
  refine (Slot.foundBy_oneOf _ (c.part.map AddressPart.tag)).bind (fills_nil ?_)
  rintro _ (_ | ⟨hheaders, _ | ⟨hkeys, _ | _⟩⟩)
  obtain ⟨_ | (_ | _ | _ | _ | _), headers, keys⟩ := c <;>
    simp [pop_singleton hheaders, pop_singleton hkeys, AddressPart.tag, AddressPart.ofTag?]

end Address

namespace Size

/-- Without a tag a size lies above its limit. -/
def ofSide (side : Option Side) (limit : Number) : Size :=
  { side := side.getD .above, limit }

def usage (side : Option Side) (limit : Number) : Usage where
  slots := [.oneOf [":over", ":under"] (side.map Side.tag)]
  places := [(·.number? = some limit)]
  nodup := by simp [Slot.oneOf]

theorem fills_take (side : Option Side) (limit : Number) :
    Fills (usage side limit).slots (usage side limit).places ({} : Size).take (ofSide side limit) := by
  refine (Slot.foundBy_oneOf _ (side.map Side.tag)).bind (fills_nil ?_)
  rintro _ (_ | ⟨hlimit, _ | _⟩)
  obtain _ | (_ | _) := side <;> simp [pop_singleton hlimit, Side.tag, Side.ofTag?, ofSide]

end Size

namespace Body

def usage (c : Body) : Usage where
  slots := [.transform c.transform]
  places := [(·.strings? = some c.keys)]
  nodup := by simp [Slot.transform]

theorem fills_take (c b : Body) : Fills c.usage.slots c.usage.places b.take c := by
  refine (Slot.foundBy_transform c.transform).bind (fills_nil ?_)
  rintro _ (_ | ⟨hkeys, _ | _⟩)
  simp [pop_singleton hkeys]

end Body

namespace SpamScore

def usage (c : SpamScore) : Usage where
  slots := [.flag ":percent" c.percent]
  places := [(·.string? = some c.value)]
  nodup := by simp [Slot.flag]

theorem fills_take (c b : SpamScore) : Fills c.usage.slots c.usage.places b.take c := by
  refine (Slot.foundBy_flag ":percent" c.percent).bind (fills_nil ?_)
  rintro _ (_ | ⟨hvalue, _ | _⟩)
  simp [pop_singleton hvalue]

end SpamScore

namespace Date

def usage (c : Date) : Usage where
  slots := [.zone c.zone]
  places := [(·.string? = some c.header), (·.string? = some c.part), (·.strings? = some c.keys)]
  nodup := by simp [Slot.zone]

theorem fills_take (c b : Date) : Fills c.usage.slots c.usage.places b.take c := by
  refine (Slot.foundBy_zone c.zone).bind (fills_nil ?_)
  rintro _ (_ | ⟨hheader, _ | ⟨hpart, _ | ⟨hkeys, _ | _⟩⟩⟩)
  simp [pop_singleton hheader, pop_singleton hpart, pop_singleton hkeys]

end Date

namespace CurrentDate

def usage (c : CurrentDate) : Usage where
  slots := [.zone c.zone]
  places := [(·.string? = some c.part), (·.strings? = some c.keys)]
  nodup := by simp [Slot.zone]

theorem fills_take (c b : CurrentDate) : Fills c.usage.slots c.usage.places b.take c := by
  refine (Slot.foundBy_zone c.zone).bind (fills_nil ?_)
  rintro _ (_ | ⟨hpart, _ | ⟨hkeys, _ | _⟩⟩)
  simp [pop_singleton hpart, pop_singleton hkeys]

end CurrentDate

/-- The usage of a condition that has tagged arguments. -/
inductive Uses : Condition → Usage → Prop
  | address (c : Address) : Uses (address c) c.usage
  | envelope (c : Address) : Uses (envelope c) c.usage
  | size (side : Option Side) (limit : Number) : Uses (size (.ofSide side limit)) (Size.usage side limit)
  | body (c : Body) : Uses (body c) c.usage
  | spam (c : SpamScore) : Uses (spam c) c.usage
  | date (c : Date) : Uses (date c) c.usage
  | currentDate (c : CurrentDate) : Uses (currentDate c) c.usage

theorem fills_of_uses {c : Condition} {u : Usage} (h : c.Uses u) :
    Fills u.slots u.places c.blank.take c := by
  cases h with
  | address c => exact (c.fills_take {}).map address
  | envelope c => exact (c.fills_take {}).map envelope
  | size side limit => exact (Size.fills_take side limit).map size
  | body c => exact (c.fills_take {}).map body
  | spam c => exact (c.fills_take {}).map spam
  | date c => exact (c.fills_take {}).map date
  | currentDate c => exact (c.fills_take {}).map currentDate

end Condition

namespace Node

/-- The usage of a node that has tagged arguments. The fields of the node are the choice that is made:
which optional parts are there, with which values, and what the positional arguments are. -/
inductive Uses : Node → Usage → Prop
  | action (h : Head) {a : Action} {u : Usage} (ha : a.Uses u) : Uses (item (.action h a)) u
  | leaf (h : Head) (m : Matching) {c : Condition} {u : Usage} (hc : c.Uses u) :
      Uses (test (.leaf h m c)) u

/-- However the arguments of a node are arranged, the same node is filled with them, and none is
left. -/
theorem take_of_arranged {n : Node} {u : Usage} (hu : n.Uses u) {gs : List (List Argument)}
    {ps : List Argument} (hs : Spelling u.slots u.places gs ps) {args : List Argument}
    (h : Arranged gs ps args) : n.blank.take.run args = (n, []) := by
  cases hu with
  | action _ ha => exact (((Action.fills_of_uses ha).map (Item.action _)).map item) u.nodup gs ps hs args h
  | leaf _ _ hc => exact (((Condition.fills_of_uses hc).map (Test.leaf _ _)).map test) u.nodup gs ps hs args h

/-- The mailbox in front, and the flags, given as one string, behind the tag that is taken later. -/
theorem take_of_arranged_fileInto :
    let a : Action.FileInto := { copy := true, flags := some ["f"], mailbox := "m" }
    let n : Node := item (.action { word := "fileinto" } (.fileInto a))
    let gs : List (List Argument) := [[.tag ":flags", .string "f"], [.tag ":copy"], []]
    let args : List Argument := [.string "m", .tag ":copy", .tag ":flags", .string "f"]
    Spelling a.usage.slots a.usage.places gs [.string "m"] ∧ Arranged gs [.string "m"] args ∧
      n.blank.take.run args = (n, []) := by
  intro a n gs args
  have hs : Spelling a.usage.slots a.usage.places gs [.string "m"] :=
    ⟨.cons ⟨.string "f", rfl, rfl, rfl⟩ (.cons rfl (.cons rfl .nil)), .cons rfl .nil, by simp⟩
  have h : Arranged gs [.string "m"] args :=
    ⟨[[.tag ":copy"], [.tag ":flags", .string "f"], []], .swap _ _ _,
      .positional _ (.group _ (.group _ (.group _ .nil)))⟩
  exact ⟨hs, h, take_of_arranged (.action _ (.fileInto a)) hs h⟩

end Node

end SieveScript
