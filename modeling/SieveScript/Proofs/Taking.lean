import SieveScript.Argument.Taking
import SieveScript.Proofs.Lexical

/-!
# What taking arguments finds and keeps

A tag is found wherever it stands among arguments that are `Free` of it, and taking it leaves the
others as they were. The last argument is popped as it stands. Every such step takes values of
lexical arguments only, and leaves lexical arguments (`Taking.Keeps`).
-/

namespace SieveScript

namespace Argument

/-- None of the arguments is the given tag. -/
def Free (name : String) (args : List Argument) : Prop :=
  ∀ a ∈ args, a.isTag name = false

section
variable {name : String}

@[simp]
theorem free_nil : Free name [] := by
  simp [Free]

@[simp]
theorem free_append {xs ys : List Argument} : Free name (xs ++ ys) ↔ Free name xs ∧ Free name ys :=
  List.forall_mem_append

@[simp]
theorem free_cons {a : Argument} {as : List Argument} :
    Free name (a :: as) ↔ a.isTag name = false ∧ Free name as :=
  List.forall_mem_cons

theorem isTag_eq (a : Argument) : a.isTag name = decide (a = tag name) := by
  cases a <;> simp [isTag, tag?, beq_eq_decide]

theorem free_iff {args : List Argument} : Free name args ↔ tag name ∉ args := by
  simp only [Free, isTag_eq, decide_eq_false_iff_not]
  exact ⟨fun h hmem => h _ hmem rfl, fun h a ha heq => h (heq ▸ ha)⟩

@[simp]
theorem isTag_tag {t : String} : (tag t).isTag name = (t == name) := rfl

@[simp]
theorem isTag_string {v : String} : (string v).isTag name = false := by
  simp [isTag, tag?]

@[simp]
theorem isTag_strings {vs : List String} : (strings vs).isTag name = false := by
  simp [isTag, tag?]

@[simp]
theorem isTag_number {n : Number} : (number n).isTag name = false := by
  simp [isTag, tag?]

@[simp]
theorem isTag_ofText {t : Text} : (ofText t).isTag name = false := by
  cases t <;> rfl

@[simp]
theorem tag?_string {v : String} : (string v).tag? = none := by
  simp [tag?]

@[simp]
theorem tag?_strings {vs : List String} : (strings vs).tag? = none := by
  simp [tag?]

@[simp]
theorem tag?_number {n : Number} : (number n).tag? = none := by
  simp [tag?]

@[simp]
theorem tag?_ofText {t : Text} : (ofText t).tag? = none := by
  cases t <;> rfl

@[simp]
theorem string?_string {v : String} : (string v).string? = some v := by
  simp [string?]

/-- A single string counts as a list. -/
theorem strings?_of_string? {a : Argument} {v : String} (h : a.string? = some v) :
    a.strings? = some [v] := by
  unfold string? at h
  split at h <;> simp_all [strings?]

@[simp]
theorem strings?_strings {vs : List String} : (strings vs).strings? = some vs := by
  simp [strings?]

@[simp]
theorem number?_number {n : Number} : (number n).number? = some n := by
  simp [number?]

@[simp]
theorem free_ofFlag {n : String} {b : Bool} (h : n ≠ name) : Free name (ofFlag n b) := by
  cases b <;> simp [ofFlag, h]

@[simp]
theorem free_ofTagged {α : Type} {n : String} {value : α → Argument} {x : Option α} (h : n ≠ name)
    (hv : ∀ x, (value x).isTag name = false) : Free name (ofTagged n value x) := by
  cases x <;> simp [ofTagged, h, hv]

end

/-! ### Lexical arguments -/

/-- All arguments are lexical. -/
def AllLexical (args : List Argument) : Prop :=
  ∀ a ∈ args, a.Lexical

@[simp]
theorem allLexical_nil : AllLexical [] := by
  simp [AllLexical]

@[simp]
theorem allLexical_append {xs ys : List Argument} :
    AllLexical (xs ++ ys) ↔ AllLexical xs ∧ AllLexical ys :=
  List.forall_mem_append

@[simp]
theorem allLexical_cons {a : Argument} {as : List Argument} :
    AllLexical (a :: as) ↔ a.Lexical ∧ AllLexical as :=
  List.forall_mem_cons

theorem AllLexical.mono {xs ys : List Argument} (h : AllLexical ys) (hs : xs ⊆ ys) : AllLexical xs :=
  fun a ha => h a (hs ha)

@[simp]
theorem lexical_string {v : String} : (string v).Lexical ↔ Normalized v.toList := Iff.rfl

/-- No line ending is parted in any of the strings. -/
def AllNormalized (vs : List String) : Prop :=
  ∀ v ∈ vs, Normalized v.toList

@[simp]
theorem allNormalized_nil : AllNormalized [] := by
  simp [AllNormalized]

@[simp]
theorem lexical_strings {vs : List String} : (strings vs).Lexical ↔ AllNormalized vs := Iff.rfl

@[simp]
theorem lexical_number {n : Number} : (number n).Lexical ↔ IsNumber n.text.toList := Iff.rfl

theorem lexical_tag {t : String} (h : t.toList.head? = some ':' ∧ IsLowerWord t.toList.tail) :
    (tag t).Lexical := by
  obtain ⟨h, hw⟩ := h
  refine ⟨t.toList.tail, hw, ?_⟩
  obtain ⟨ds, hds⟩ := List.head?_eq_some_iff.1 h
  rw [← String.toList_inj, String.toList_ofList, hds, List.tail_cons]

theorem allLexical_ofFlag {name : String} {b : Bool} (h : (tag name).Lexical) :
    AllLexical (ofFlag name b) := by
  cases b <;> simp [ofFlag, h]

theorem allLexical_ofTagged {α : Type} {name : String} {value : α → Argument} {x : Option α}
    (h : (tag name).Lexical) (hx : ∀ y ∈ x, (value y).Lexical) : AllLexical (ofTagged name value x) := by
  cases x with
  | none => simp [ofTagged]
  | some x => simpa [ofTagged, h] using hx

/-! ### Values with a default -/

section
variable {α : Type} {P : α → Prop}

theorem forall_getD {o : Option α} {x : α} (ho : ∀ y ∈ o, P y) (hx : P x) : P (o.getD x) := by
  cases o with
  | none => exact hx
  | some y => exact ho y rfl

end

@[simp]
theorem normalized_getD {o : Option String} {v : String} (ho : ∀ w ∈ o, Normalized w.toList)
    (hv : Normalized v.toList) : Normalized (o.getD v).toList :=
  @forall_getD _ (fun v => Normalized v.toList) o v ho hv

@[simp]
theorem allNormalized_getD {o : Option (List String)} {vs : List String}
    (ho : ∀ ws ∈ o, AllNormalized ws) (hv : AllNormalized vs) : AllNormalized (o.getD vs) :=
  forall_getD ho hv

@[simp]
theorem isNumber_getD {o : Option Number} {n : Number} (ho : ∀ m ∈ o, IsNumber m.text.toList)
    (hn : IsNumber n.text.toList) : IsNumber (o.getD n).text.toList :=
  @forall_getD _ (fun n => IsNumber n.text.toList) o n ho hn

@[simp]
theorem lexical_ofText_getD {o : Option Text} {t : Text} (ho : ∀ u ∈ o, (ofText u).Lexical)
    (ht : (ofText t).Lexical) : (ofText (o.getD t)).Lexical :=
  @forall_getD _ (fun t => (ofText t).Lexical) o t ho ht

theorem allLexical_toList_map {α : Type} {value : α → Argument} {o : Option α}
    (h : ∀ x ∈ o, (value x).Lexical) : AllLexical (o.map value).toList := by
  intro a ha
  obtain ⟨x, hx, rfl⟩ := Option.map_eq_some_iff.1 (Option.mem_toList.1 ha)
  exact h x hx

end Argument

namespace Taking

open Argument
variable {α β : Type}

@[simp high]
theorem run_bind (t : Taking α) (f : α → Taking β) (args : List Argument) :
    (t >>= f).run args = (f (t.run args).1).run (t.run args).2 := rfl

@[simp high]
theorem run_map (f : α → β) (t : Taking α) (args : List Argument) :
    (f <$> t).run args = (f (t.run args).1, (t.run args).2) := rfl

@[simp high]
theorem run_pure (x : α) (args : List Argument) : (pure x : Taking α).run args = (x, args) := rfl

@[simp]
theorem taggedString_eq (name : String) : taggedString name = tagged string? name := rfl

@[simp]
theorem taggedStrings_eq (name : String) : taggedStrings name = tagged strings? name := rfl

@[simp]
theorem taggedNumber_eq (name : String) : taggedNumber name = tagged number? name := rfl

@[simp]
theorem popString_eq : popString = pop string? := rfl

@[simp]
theorem popStrings_eq : popStrings = pop strings? := rfl

@[simp]
theorem popText_eq : popText = pop text? := rfl

@[simp]
theorem popNumber_eq : popNumber = pop number? := rfl

/-! ### Flags -/

section
variable {name : String} {xs ys : List Argument}

@[simp]
theorem flag_append_of_free (h : Free name xs) :
    (flag name).run (xs ++ ys) = (((flag name).run ys).1, xs ++ ((flag name).run ys).2) := by
  have hany : xs.any (·.isTag name) = false := by simpa [Free] using h
  have hfilter : xs.filter (!·.isTag name) = xs := List.filter_eq_self.2 fun a ha => by simp [h a ha]
  simp [flag, StateT.run, hany, hfilter]

@[simp]
theorem flag_ofFlag (b : Bool) (h : Free name ys) : (flag name).run (ofFlag name b ++ ys) = (b, ys) := by
  have hany : ys.any (·.isTag name) = false := by simpa [Free] using h
  have hfilter : ys.filter (!·.isTag name) = ys := List.filter_eq_self.2 fun a ha => by simp [h a ha]
  cases b <;> simp [flag, StateT.run, ofFlag, hany, hfilter]

@[simp]
theorem flag_tag (h : Free name ys) : (flag name).run (.tag name :: ys) = (true, ys) :=
  flag_ofFlag true h

@[simp]
theorem flag_of_free (h : Free name ys) : (flag name).run ys = (false, ys) :=
  flag_ofFlag false h

/-! ### Tags with a value -/

variable {convert : Argument → Option α}

theorem splitTagged_cons_of_not {a : Argument} (h : a.isTag name = false) :
    splitTagged convert name (a :: ys) =
      (splitTagged convert name ys).map fun (x, rest) => (x, a :: rest) := by
  rw [splitTagged.eq_def]
  simp [h]

theorem splitTagged_of_free (h : Free name ys) : splitTagged convert name ys = none := by
  induction ys with
  | nil => rfl
  | cons a as ih =>
    rw [free_cons] at h
    rw [splitTagged_cons_of_not h.1, ih h.2]
    rfl

theorem splitTagged_append_of_free (h : Free name xs) :
    splitTagged convert name (xs ++ ys) =
      (splitTagged convert name ys).map fun (x, rest) => (x, xs ++ rest) := by
  induction xs with
  | nil => simp
  | cons a as ih =>
    rw [free_cons] at h
    rw [List.cons_append, splitTagged_cons_of_not h.1, ih h.2, Option.map_map]
    rfl

/-- What is split out is the first occurrence of the tag with the argument right behind it. -/
theorem splitTagged_eq_some_iff {args rest : List Argument} {x : α} :
    splitTagged convert name args = some (x, rest) ↔
      ∃ before a after, args = before ++ tag name :: a :: after ∧ tag name ∉ before ∧
        convert a = some x ∧ rest = before ++ after := by
  constructor
  · intro h
    fun_induction splitTagged convert name args generalizing rest with
    | case1 => contradiction
    | case2 => contradiction
    | case3 a ha b after =>
      obtain ⟨y, hy, heq⟩ := Option.map_eq_some_iff.1 h
      cases heq
      rw [isTag_eq, decide_eq_true_eq] at ha
      exact ⟨[], b, after, by rw [ha]; rfl, List.not_mem_nil, hy, rfl⟩
    | case4 a args ha ih =>
      obtain ⟨⟨y, ys⟩, hy, heq⟩ := Option.map_eq_some_iff.1 h
      cases heq
      obtain ⟨before, b, after, rfl, hbefore, hb, rfl⟩ := ih hy
      rw [isTag_eq, decide_eq_true_eq] at ha
      exact ⟨a :: before, b, after, rfl, by simp [hbefore, Ne.symm ha], hb, rfl⟩
  · rintro ⟨before, a, after, rfl, hbefore, ha, rfl⟩
    rw [splitTagged_append_of_free (free_iff.2 hbefore), splitTagged]
    simp [ha]

@[simp]
theorem tagged_append_of_free (h : Free name xs) :
    (tagged convert name).run (xs ++ ys) =
      (((tagged convert name).run ys).1, xs ++ ((tagged convert name).run ys).2) := by
  simp only [tagged, StateT.run, splitTagged_append_of_free h]
  cases splitTagged convert name ys <;> rfl

@[simp]
theorem tagged_ofTagged {value : α → Argument} (hv : ∀ x, convert (value x) = some x) (x : Option α)
    (h : Free name ys) : (tagged convert name).run (ofTagged name value x ++ ys) = (x, ys) := by
  cases x with
  | none => simp [tagged, StateT.run, ofTagged, splitTagged_of_free h]
  | some x => simp [tagged, StateT.run, ofTagged, splitTagged, hv]

@[simp]
theorem tagged_of_free (h : Free name ys) : (tagged convert name).run ys = (none, ys) := by
  simp only [tagged, StateT.run, splitTagged_of_free h]

theorem tagged_tag {a : Argument} {x : α} (h : convert a = some x) :
    (tagged convert name).run (.tag name :: a :: ys) = (some x, ys) := by
  simp [tagged, StateT.run, splitTagged, h]

end

/-! ### One of several tags -/

section
variable {names : List String} {ys : List Argument}

theorem oneOf_tag {t : String} (h : t ∈ names) :
    (oneOf names).run (.tag t :: ys) = (some t, ys) := by
  have ht : isOneOf names (.tag t) = true := by simpa [isOneOf, tag?] using h
  simp [oneOf, StateT.run, ht, tag?]

theorem isOneOf_of_free (h : ∀ t ∈ names, Free t ys) : ∀ a ∈ ys, isOneOf names a = false := by
  intro a ha
  cases ht : a.tag? with
  | none => simp [isOneOf, ht]
  | some t =>
    have hn : t ∉ names := fun hn => by
      have := h t hn a ha
      simp [isTag, ht] at this
    simpa [isOneOf, ht] using hn

theorem oneOf_of_free (h : ∀ t ∈ names, Free t ys) : (oneOf names).run ys = (none, ys) := by
  have hno := isOneOf_of_free h
  have hfind : ys.find? (isOneOf names) = none := List.find?_eq_none.2 fun a ha => by simp [hno a ha]
  have herase : ys.eraseP (isOneOf names) = ys :=
    List.eraseP_of_forall_not fun a ha => by simp [hno a ha]
  simp [oneOf, StateT.run, hfind, herase]

theorem oneOf_append_of_free {xs : List Argument} (h : ∀ t ∈ names, Free t xs) :
    (oneOf names).run (xs ++ ys) = (((oneOf names).run ys).1, xs ++ ((oneOf names).run ys).2) := by
  have hno := isOneOf_of_free h
  have hfind : xs.find? (isOneOf names) = none := List.find?_eq_none.2 fun a ha => by simp [hno a ha]
  have herase : (xs ++ ys).eraseP (isOneOf names) = xs ++ ys.eraseP (isOneOf names) :=
    List.eraseP_append_right ys fun a ha => by simp [hno a ha]
  simp [oneOf, StateT.run, hfind, herase]

theorem allOf_map_tag {ts : List String} (hts : ∀ t ∈ ts, t ∈ names) (h : ∀ t ∈ names, Free t ys) :
    (allOf names).run (ts.map .tag ++ ys) = (ts, ys) := by
  have hyes : ∀ a ∈ ts.map Argument.tag, isOneOf names a = true := by
    intro a ha
    obtain ⟨t, ht, rfl⟩ := List.mem_map.1 ha
    simpa [isOneOf, tag?] using hts t ht
  have hno := isOneOf_of_free h
  have hpos : (ts.map Argument.tag ++ ys).filter (isOneOf names) = ts.map .tag := by
    rw [List.filter_append, List.filter_eq_self.2 hyes,
      List.filter_eq_nil_iff.2 fun a ha => by simp [hno a ha], List.append_nil]
  have hneg : (ts.map Argument.tag ++ ys).filter (!isOneOf names ·) = ys := by
    rw [List.filter_append, List.filter_eq_nil_iff.2 fun a ha => by simp [hyes a ha],
      List.filter_eq_self.2 fun a ha => by simp [hno a ha], List.nil_append]
  have htags : (ts.map Argument.tag).filterMap tag? = ts := by
    rw [List.filterMap_map]
    exact List.filterMap_some
  show (((ts.map Argument.tag ++ ys).filter (isOneOf names)).filterMap tag?, _) = _
  rw [hpos, hneg, htags]

end

/-! ### The last argument -/

section
variable {convert : Argument → Option α}

@[simp]
theorem pop_nil : (pop convert).run [] = (none, []) := rfl

theorem pop_singleton {a : Argument} {x : α} (h : convert a = some x) :
    (pop convert).run [a] = (some x, []) := by
  simp [pop, StateT.run, h]

@[simp]
theorem pop_string {v : String} : (pop string?).run [.string v] = (some v, []) := rfl

@[simp]
theorem pop_strings {vs : List String} : (pop strings?).run [.strings vs] = (some vs, []) := rfl

@[simp]
theorem pop_strings_string {v : String} : (pop strings?).run [.string v] = (some [v], []) := rfl

@[simp]
theorem pop_number {n : Number} : (pop number?).run [.number n] = (some n, []) := rfl

@[simp]
theorem pop_text {t : Text} : (pop text?).run [ofText t] = (some t, []) := by
  cases t <;> rfl

@[simp]
theorem pop_append {xs ys : List Argument} (h : ys ≠ []) :
    (pop convert).run (xs ++ ys) = (((pop convert).run ys).1, xs ++ ((pop convert).run ys).2) := by
  simp only [pop, StateT.run, List.getLast?_append_of_ne_nil xs h, List.dropLast_append_of_ne_nil h]
  cases ys.getLast?.bind convert <;> rfl

@[simp]
theorem pop_cons_cons {a b : Argument} {as : List Argument} :
    (pop convert).run (a :: b :: as) =
      (((pop convert).run (b :: as)).1, a :: ((pop convert).run (b :: as)).2) :=
  @pop_append _ convert [a] (b :: as) (by simp)

end

/-! ### What is kept -/

/-- From lexical arguments the step takes what the predicate says, and it leaves lexical ones. -/
def Keeps (t : Taking α) (P : α → Prop) : Prop :=
  ∀ args, AllLexical args → P (t.run args).1 ∧ AllLexical (t.run args).2

section
variable {P : α → Prop} {Q : β → Prop}

theorem keeps_pure {x : α} (h : P x) : Keeps (pure x) P :=
  fun _ hargs => ⟨h, hargs⟩

theorem Keeps.bind {t : Taking α} (ht : Keeps t P) {f : α → Taking β} (hf : ∀ x, P x → Keeps (f x) Q) :
    Keeps (t >>= f) Q := by
  intro args hargs
  obtain ⟨hx, hrest⟩ := ht args hargs
  exact hf _ hx _ hrest

theorem keeps_flag (name : String) : Keeps (flag name) fun _ => True :=
  fun _ hargs => ⟨trivial, hargs.mono List.filter_sublist.subset⟩

theorem keeps_oneOf (names : List String) : Keeps (oneOf names) fun _ => True :=
  fun _ hargs => ⟨trivial, hargs.mono List.eraseP_subset⟩

theorem keeps_allOf (names : List String) : Keeps (allOf names) fun ts => ∀ t ∈ ts, t ∈ names := by
  refine fun args hargs => ⟨fun t ht => ?_, hargs.mono List.filter_sublist.subset⟩
  obtain ⟨a, ha, hat⟩ := List.mem_filterMap.1 ht
  obtain ⟨-, ha⟩ := List.mem_filter.1 ha
  simpa [isOneOf, hat] using ha

theorem keeps_everything : Keeps everything AllLexical :=
  fun _ hargs => ⟨hargs, allLexical_nil⟩

variable {convert : Argument → Option α}

/-- The value behind a tag is what its conversion makes of a lexical argument. -/
theorem keeps_tagged (h : ∀ a, a.Lexical → ∀ x, convert a = some x → P x) (name : String) :
    Keeps (tagged convert name) fun o => ∀ x ∈ o, P x := by
  intro args hargs
  cases hs : splitTagged convert name args with
  | none => simpa [tagged, StateT.run, hs] using hargs
  | some r =>
    obtain ⟨x, rest⟩ := r
    obtain ⟨before, a, after, rfl, -, hx, rfl⟩ := splitTagged_eq_some_iff.1 hs
    have hsub : before ++ after ⊆ before ++ tag name :: a :: after :=
      ((List.Sublist.refl before).append (List.sublist_append_right [tag name, a] after)).subset
    simpa only [tagged, StateT.run, hs, Option.mem_def, Option.some.injEq, forall_eq'] using
      ⟨h a (hargs a (by simp)) x hx, hargs.mono hsub⟩

/-- The last value is what its conversion makes of a lexical argument. -/
theorem keeps_pop (h : ∀ a, a.Lexical → ∀ x, convert a = some x → P x) :
    Keeps (pop convert) fun o => ∀ x ∈ o, P x := by
  intro args hargs
  cases hx : args.getLast?.bind convert with
  | none => simpa [pop, StateT.run, hx] using hargs
  | some x =>
    obtain ⟨a, ha, hax⟩ := Option.bind_eq_some_iff.1 hx
    simpa [pop, StateT.run, hx] using
      ⟨h a (hargs a (List.mem_of_getLast? ha)) x hax, hargs.mono (List.dropLast_subset args)⟩

theorem keeps_taggedString (name : String) :
    Keeps (taggedString name) fun o => ∀ v ∈ o, Normalized v.toList :=
  keeps_tagged (fun _ h _ => normalized_of_string? h) name

theorem keeps_taggedStrings (name : String) :
    Keeps (taggedStrings name) fun o => ∀ vs ∈ o, AllNormalized vs :=
  keeps_tagged (fun _ h _ => normalized_of_strings? h) name

theorem keeps_taggedNumber (name : String) :
    Keeps (taggedNumber name) fun o => ∀ n ∈ o, IsNumber n.text.toList :=
  keeps_tagged (fun _ h _ => isNumber_of_number? h) name

theorem keeps_popString : Keeps popString fun o => ∀ v ∈ o, Normalized v.toList :=
  keeps_pop fun _ h _ => normalized_of_string? h

theorem keeps_popStrings : Keeps popStrings fun o => ∀ vs ∈ o, AllNormalized vs :=
  keeps_pop fun _ h _ => normalized_of_strings? h

theorem keeps_popText : Keeps popText fun o => ∀ t ∈ o, (ofText t).Lexical :=
  keeps_pop fun _ h _ => lexical_of_text? h

theorem keeps_popNumber : Keeps popNumber fun o => ∀ n ∈ o, IsNumber n.text.toList :=
  keeps_pop fun _ h _ => isNumber_of_number? h

end

end Taking

end SieveScript
