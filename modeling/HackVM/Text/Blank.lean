/-!
# Blank characters

Which characters count as blank, and trimming of a text at both ends.  Texts are lists of
characters throughout the library's reading rules, so that every rule is a fold or a
recursion on the characters.
-/

namespace HackVM
namespace Text

/--
The ranges of code points, ends included, whose characters have the Unicode property
White_Space.
-/
def blankRanges : List (Nat × Nat) :=
  [(0x09, 0x0D), (0x20, 0x20), (0x85, 0x85), (0xA0, 0xA0), (0x1680, 0x1680), (0x2000, 0x200A),
    (0x2028, 0x2029), (0x202F, 0x202F), (0x205F, 0x205F), (0x3000, 0x3000)]

def isBlank (c : Char) : Bool :=
  blankRanges.any fun range => range.1 ≤ c.toNat && c.toNat ≤ range.2

def trimStart (cs : List Char) : List Char :=
  cs.dropWhile isBlank

def trimEnd (cs : List Char) : List Char :=
  (trimStart cs.reverse).reverse

def trim (cs : List Char) : List Char :=
  trimEnd (trimStart cs)

/-! A text that is blank throughout is trimmed to nothing. -/

theorem trimStart_eq_nil {cs : List Char} (h : cs.all isBlank = true) : trimStart cs = [] := by
  induction cs with
  | nil => rfl
  | cons c cs ih =>
      simp only [List.all_cons, Bool.and_eq_true] at h
      simpa [trimStart, List.dropWhile_cons, h.1] using ih h.2

theorem trim_eq_nil {cs : List Char} (h : cs.all isBlank = true) : trim cs = [] := by
  rw [trim, trimStart_eq_nil h]
  rfl

end Text
end HackVM
