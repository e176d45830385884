/-!
# Machine words

Words have sixteen bits.  Operands of commands, cells of memory and registers are all words;
arithmetic wraps.
-/

namespace HackVM

abbrev Word := BitVec 16

namespace Word

def ofNat? (n : Nat) : Option Word :=
  if n < 65536 then some (BitVec.ofNat 16 n) else none

def render (w : Word) : String :=
  Nat.repr w.toNat

theorem ofNat?_toNat (w : Word) : ofNat? w.toNat = some w := by
  simp [ofNat?, w.isLt]

theorem ofNat?_eq_some_iff {n : Nat} {w : Word} : ofNat? n = some w ↔ w.toNat = n := by
  constructor
  · intro h
    unfold ofNat? at h
    split at h
    · next hn =>
        cases h
        simpa using hn
    · cases h
  · intro h
    rw [← h, ofNat?_toNat]

end Word
end HackVM
