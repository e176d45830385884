import HackVM.Word

/-!
# Memory

There are 32768 cells, all zero at first.  Words from 32768 on address no cell: reading there
gives zero and writing there has no effect, and the machine checks an address before it is
used.
-/

namespace HackVM

structure Memory where
  cells : Vector Word 32768

namespace Memory

def size : Nat := 32768

def blank : Memory :=
  { cells := Vector.replicate 32768 0 }

def get (m : Memory) (address : Word) : Word :=
  m.cells[address.toNat]?.getD 0

def set (m : Memory) (address value : Word) : Memory :=
  { cells := m.cells.setIfInBounds address.toNat value }

def nonzero (m : Memory) : List (Nat × Word) :=
  (m.cells.toList.zipIdx.filter fun cell => cell.1 ≠ 0).map fun cell => (cell.2, cell.1)

theorem get_set (m : Memory) {address : Word} (other value : Word)
    (h : address.toNat < 32768) :
    (m.set address value).get other = if other = address then value else m.get other := by
  unfold get set
  rw [Vector.getElem?_setIfInBounds]
  by_cases heq : other = address
  · subst heq
    simp [h]
  · have hne : address.toNat ≠ other.toNat := fun hnat => heq (BitVec.eq_of_toNat_eq hnat.symm)
    simp [heq, hne]

end Memory
end HackVM
