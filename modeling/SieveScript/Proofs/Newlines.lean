import SieveScript.Proofs.Declaring

/-!
# Line endings make no difference

Reading sees a text only as `normalize` leaves it, so a text without carriage returns is read like
the same text with CRLF for every line feed (`normalize_of_no_return`). What is written from a script
that was read needs no normalizing: each value in it comes from a token of a normalized text, where
decoding can part no line ending (`Token.lexical_of_mem_symbols`), and so does each capability that
it notes (`State.Sound.normalized_requires`).
-/

namespace SieveScript

/-- The text with CRLF for every line feed. -/
def withCrlf (cs : List Char) : List Char :=
  cs.flatMap fun c => if c = '\n' then ['\r', '\n'] else [c]

variable {cs : List Char}

theorem normalize_of_no_return (h : '\r' ∉ cs) : normalize cs = withCrlf cs := by
  fun_induction normalize cs with
  | case1 => rfl
  | case2 cs ih => simp at h
  | case3 cs ih =>
    rw [ih fun hr => h (List.mem_cons_of_mem _ hr)]
    rfl
  | case4 c cs _ hc ih =>
    rw [ih fun hr => h (List.mem_cons_of_mem _ hr), withCrlf, withCrlf, List.flatMap_cons, if_neg hc]
    rfl

theorem normalize_withCrlf (h : '\r' ∉ cs) : normalize (withCrlf cs) = normalize cs := by
  rw [← normalize_of_no_return h]
  exact (normalized_normalize cs).normalize_eq

/-- In front of a line feed of a normalized text there is a carriage return. -/
theorem Normalized.getLast?_eq (h : Normalized cs) {before after : List Char}
    (hcs : cs = before ++ '\n' :: after) : before.getLast? = some '\r' := by
  rw [normalized_iff] at h
  obtain ⟨hhead, hchain⟩ := h
  rcases List.eq_nil_or_concat before with rfl | ⟨front, c, rfl⟩
  · simp [hcs] at hhead
  · rw [List.concat_eq_append] at hcs ⊢
    rw [List.append_assoc, List.singleton_append] at hcs
    have hc : MayFollow c '\n' := List.isChain_iff_forall_rel_of_append_cons_cons.1 hchain hcs
    rw [hc rfl, List.getLast?_concat]

namespace Script
variable {caps : List String} {name text : String} {s : Script}

theorem parse_withCrlf (h : '\r' ∉ text.toList) :
    parse caps name (String.ofList (withCrlf text.toList)) = parse caps name text := by
  rw [parse, parse, read, read, String.toList_ofList, normalize_withCrlf h]

theorem normalized_encodeAll_of_parse (h : parse caps name text = .ok s) :
    Normalized s.render.toList ∧ Normalized s.renderDeclared.toList := by
  have hsound := sound_of_read (Vocabulary.blank_ofCapabilities caps) h
  obtain ⟨hdeclared, -⟩ := parse_renderDeclared h
  constructor
  · rw [render, String.toList_ofList]
    exact Item.normalized_encodeAll hsound
  · rw [renderDeclared, String.toList_ofList]
    exact Item.normalized_encodeAll hdeclared

/-- Normalizing twice is normalizing once, and leaves a carriage return in front of every line feed.
Where there was none, it puts one there and does nothing else, and a text with them is read like the
text without, errors included. A script that was read is written in normalized text. -/
theorem normalize_settles :
    (∀ cs, normalize (normalize cs) = normalize cs ∧
      ∀ before after, normalize cs = before ++ '\n' :: after → before.getLast? = some '\r') ∧
    (∀ (caps : List String) (name text : String), '\r' ∉ text.toList →
      normalize text.toList = withCrlf text.toList ∧
      parse caps name (String.ofList (withCrlf text.toList)) = parse caps name text) ∧
    ∀ (caps : List String) (name text : String) (s : Script), parse caps name text = .ok s →
      normalize s.render.toList = s.render.toList ∧
      normalize s.renderDeclared.toList = s.renderDeclared.toList := by
  refine ⟨fun cs => ?_, fun caps name text h => ?_, fun caps name text s h => ?_⟩
  · have hnorm := normalized_normalize cs
    exact ⟨hnorm.normalize_eq, fun before after => hnorm.getLast?_eq⟩
  · exact ⟨normalize_of_no_return h, parse_withCrlf h⟩
  · obtain ⟨hrender, hdeclared⟩ := normalized_encodeAll_of_parse h
    exact ⟨hrender.normalize_eq, hdeclared.normalize_eq⟩

/-- An instance with an escaped line feed in a string, and one in the name of a capability. -/
theorem normalize_settles_redirect :
    let text := "redirect \"a\\\nb\";\nif not :comparator \"\\\n\" true"
    let s : Script := {
      items := [.action { word := "redirect" } (.redirect { address := "a\r\nb" }),
        .conditional { word := "if" } (some (.negation { word := "not" }
          { comparator := some "\r\n" } (some (.leaf { word := "true" } {} .always)))) []]
      requires := ["comparator-\r\n"] }
    '\r' ∉ text.toList ∧ normalize text.toList = withCrlf text.toList ∧
    parse [] "" (String.ofList (withCrlf text.toList)) = parse [] "" text ∧
    parse [] "" text = .ok s ∧ normalize s.render.toList = s.render.toList ∧
    normalize s.renderDeclared.toList = s.renderDeclared.toList := by
  intro text s
  have hreturn : '\r' ∉ text.toList := by decide
  have h : parse [] "" text = .ok s := by decide +kernel
  obtain ⟨-, hcrlf, hwritten⟩ := normalize_settles
  obtain ⟨hnormal, hread⟩ := hcrlf [] "" text hreturn
  exact ⟨hreturn, hnormal, hread, h, hwritten [] "" text s h⟩

end Script

end SieveScript
