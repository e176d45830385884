/-!
# Finite vocabularies

A type whose values are written as fixed, pairwise different words.  Reading looks the word
up among all values, so reading and writing agree by construction.
-/

namespace HackVM

class Spelled (α : Type) where
  all : List α
  spell : α → String
  mem_all : ∀ x : α, x ∈ all
  nodup_spell : (all.map spell).Nodup

namespace Spelled

def read? {α : Type} [Spelled α] (word : String) : Option α :=
  (all : List α).find? fun x => spell x == word

end Spelled
end HackVM
