import HackVM.Word

/-!
# Decimal numerals

A numeral is a non-empty run of ASCII digits.  Leading zeros are allowed and do not change
its value.
-/

namespace HackVM
namespace Text

def decimal? (cs : List Char) : Option Nat :=
  if !cs.isEmpty && cs.all Char.isDigit then some (Nat.ofDigitChars 10 cs 0) else none

def word? (cs : List Char) : Option Word :=
  (decimal? cs).bind Word.ofNat?

def signedWord? : List Char → Option Word
  | '+' :: cs => word? cs
  | cs => word? cs

theorem decimal?_toDigits (n : Nat) : decimal? (Nat.toDigits 10 n) = some n := by
  have hdigits : (Nat.toDigits 10 n).all Char.isDigit = true := by
    rw [List.all_eq_true]
    intro c hc
    exact Nat.isDigit_of_mem_toDigits (by decide) (by decide) hc
  have hne : (Nat.toDigits 10 n).isEmpty = false := by
    cases hlist : Nat.toDigits 10 n with
    | nil => exact absurd hlist Nat.toDigits_ne_nil
    | cons _ _ => rfl
  simp [decimal?, hdigits, hne]

theorem word?_render (w : Word) : word? w.render.toList = some w := by
  simp [word?, Word.render, Nat.repr, decimal?_toDigits, Word.ofNat?_toNat]

end Text
end HackVM
