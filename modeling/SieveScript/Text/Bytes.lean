/-!
# Byte positions

Positions in a script are byte offsets of its UTF-8 form. A position inside a character is no
place where a text can be cut: `dropBytes?` refuses it, and `window` widens to whole characters.
-/

namespace SieveScript

/-- The length of a text in bytes. -/
def byteLength : List Char → Nat
  | [] => 0
  | c :: cs => c.utf8Size + byteLength cs

/-- What follows the first `n` bytes, if a character starts or the text ends there. -/
def dropBytes? : Nat → List Char → Option (List Char)
  | 0, cs => some cs
  | _ + 1, [] => none
  | n + 1, c :: cs => if c.utf8Size ≤ n + 1 then dropBytes? (n + 1 - c.utf8Size) cs else none

/-- The characters, of a text that starts at byte `pos`, of which some byte lies in `[lo, hi)`. -/
def window (lo hi : Nat) : Nat → List Char → List Char
  | _, [] => []
  | pos, c :: cs =>
    let next := pos + c.utf8Size
    if lo < next && pos < hi then c :: window lo hi next cs else window lo hi next cs

@[simp]
theorem byteLength_nil : byteLength [] = 0 := rfl

@[simp]
theorem byteLength_cons (c : Char) (cs : List Char) :
    byteLength (c :: cs) = c.utf8Size + byteLength cs := rfl

@[simp]
theorem byteLength_append (cs ds : List Char) :
    byteLength (cs ++ ds) = byteLength cs + byteLength ds := by
  induction cs with
  | nil => simp
  | cons c cs ih => rw [List.cons_append, byteLength_cons, byteLength_cons, ih, Nat.add_assoc]

end SieveScript
