import HackVM.Proofs.Frames
import HackVM.Proofs.Simulation

/-!
# Comparisons and the order of signed words

A comparison looks only at the sign of the difference of its operands, and the difference
wraps.  So it tells the order of two signed words exactly if their difference is a word
itself.  Two words that are further apart are taken for each other, and only equality is told
for all words.
-/

namespace HackVM

/-!
## The sign of a wrapped difference

A difference that is too large has the wrong sign, so words that are too far apart are
compared the wrong way round.
-/

namespace Comparison

def relates (x y : Int) : Comparison → Bool
  | .eq => x = y
  | .gt => y < x
  | .lt => x < y

/-- All ones if the words are related as signed numbers, and all zeros if they are not. -/
def verdict (op : Comparison) (x y : Word) : Word :=
  if op.relates x.toInt y.toInt then -1 else 0

theorem verdict_eq_comm (x y : Word) : verdict .eq x y = verdict .eq y x := by
  simp only [verdict, relates, eq_comm]

end Comparison

/--
A difference that is too large comes out one turn of all words too small or too large, on the
other side of zero.
-/
theorem toInt_sub_of_ssubOverflow {x y : Word} (h : x.ssubOverflow y = true) :
    (y.toInt < x.toInt ∧ (x - y).toInt < 0) ∨ (x.toInt < y.toInt ∧ 0 < (x - y).toInt) := by
  have hx := x.toInt_lt
  have hxle := x.le_toInt
  have hy := y.toInt_lt
  have hyle := y.le_toInt
  simp only [BitVec.ssubOverflow, Bool.or_eq_true, decide_eq_true_eq] at h
  rw [BitVec.toInt_sub, Int.bmod_def]
  omega

namespace Comparison

theorem apply_of_fits (op : Comparison) {x y : Word} (h : x.ssubOverflow y = false) :
    op.apply x y = op.verdict x y := by
  have hdifference : (x - y).toInt = x.toInt - y.toInt :=
    BitVec.toInt_sub_of_not_ssubOverflow (Bool.eq_false_iff.mp h)
  have hholds : op.holds (x - y) = op.relates x.toInt y.toInt := by
    cases op <;>
      · rw [holds, relates, hdifference, decide_eq_decide]
        omega
  rw [apply, verdict, hholds]
  rfl

theorem apply_of_overflow (op : Comparison) {x y : Word} (h : x.ssubOverflow y = true) :
    op.apply x y = op.verdict y x := by
  have hsign := toInt_sub_of_ssubOverflow h
  have hholds : op.holds (x - y) = op.relates y.toInt x.toInt := by
    cases op <;>
      · rw [holds, relates, decide_eq_decide]
        omega
  rw [apply, verdict, hholds]
  rfl

end Comparison

/-!
## Comparisons in memory

One word takes the place of two, and nothing else changes.  The code of a comparison does to
the memory what the comparison does.
-/

namespace Memory

theorem combineTop_eq {m : Memory} (f : Word → Word → Word) (hlow : 18 ≤ (m.get 0).toNat)
    (hhigh : (m.get 0).toNat ≤ 32768) :
    m.combineTop f =
      .ok ((m.set 0 (m.get 0 - 1)).set (m.get 0 - 2)
        (f (m.get (m.get 0 - 2)) (m.get (m.get 0 - 1)))) := by
  have hsecond : (m.get 0 - 2).toNat = (m.get 0).toNat - 2 := toNat_sub_of_le (by decide) hlow
  have hne : (m.get 0 - 2).toNat ≠ 0 := by
    omega
  have hstack : (m.set 0 (m.get 0 - 1)).get 0 - 1 = m.get 0 - 2 := by
    rw [get_set_self m _ (by decide), BitVec.sub_sub]
    rfl
  rw [combineTop, pop_eq ⟨by omega, hhigh⟩, ok_bind]
  show (m.set 0 (m.get 0 - 1)).modifyTop _ = _
  rw [modifyTop, hstack, store_of_lt _ _ (by omega), get_set_of_ne m _ (by decide) hne]

theorem get_combined {m : Memory} (result : Word) (hlow : 18 ≤ (m.get 0).toNat)
    (hhigh : (m.get 0).toNat ≤ 32768) (address : Word) :
    ((m.set 0 (m.get 0 - 1)).set (m.get 0 - 2) result).get address =
      if address = m.get 0 - 2 then result else if address = 0 then
        m.get 0 - 1 else m.get address := by
  have hsecond : (m.get 0 - 2).toNat = (m.get 0).toNat - 2 := toNat_sub_of_le (by decide) hlow
  rw [get_set _ _ _ (by omega), get_set m _ _ (by decide)]

end Memory

namespace Module

theorem Loaded.attains_compare {modules : List Module} {options : Options} {image : Image}
    (h : Loaded modules options image) {i : Nat} {p : Placed} {op : Comparison}
    (hp : (Program.ofModules modules)[i]? = some p)
    (hcommand : p.command = .operate (.compare op)) {s : State}
    (hpc : s.pc = address modules options i) (hlow : 18 ≤ (s.memory.get 0).toNat)
    (hhigh : (s.memory.get 0).toNat ≤ 32768) :
    ∃ t, s.Reaches image.rom t ∧ t.pc = address modules options (i + 1) ∧
      t.memory = (s.memory.set 0 (s.memory.get 0 - 1)).set (s.memory.get 0 - 2)
        (op.apply (s.memory.get (s.memory.get 0 - 2))
          (s.memory.get (s.memory.get 0 - 1))) := by
  rcases block_of_getElem? h.accepts hp with ⟨b⟩
  rcases p with ⟨module, scope, command⟩
  cases hcommand
  have hfollows := h.follows_operate b hpc
  rw [Operation.apply, Memory.combineTop_eq _ hlow hhigh] at hfollows
  exact hfollows

/--
A comparison takes two signed words from the stack and leaves all ones or all zeros there,
for all words and in all programs.  It tells equality always, and the order whenever the
difference of the words is a word; otherwise it gives the answer for the words the other way
round.
-/
theorem comparison_tells_signed_order {modules : List Module} {options : Options}
    {lines : List String} {machine : Machine} (hlink : linkedLines modules options = .ok lines)
    (hload : Machine.load lines = .ok machine) {i : Nat} {p : Placed} {op : Comparison}
    (hp : (Program.ofModules modules)[i]? = some p)
    (hcommand : p.command = .operate (.compare op)) {s : State}
    (hpc : s.pc = address modules options i) {x y : Word} (hlow : 18 ≤ (s.memory.get 0).toNat)
    (hhigh : (s.memory.get 0).toNat ≤ 32768) (hx : s.memory.get (s.memory.get 0 - 2) = x)
    (hy : s.memory.get (s.memory.get 0 - 1) = y) :
    ∃ t, s.Reaches machine.image.rom t ∧ t.pc = address modules options (i + 1) ∧
      t.memory.get 0 = s.memory.get 0 - 1 ∧
      (op = .eq → t.memory.get (t.memory.get 0 - 1) = op.verdict x y) ∧
      (x.ssubOverflow y = false → t.memory.get (t.memory.get 0 - 1) = op.verdict x y) ∧
      (x.ssubOverflow y = true → t.memory.get (t.memory.get 0 - 1) = op.verdict y x) ∧
      ∀ address, address ≠ 0 → address ≠ s.memory.get 0 - 2 →
        t.memory.get address = s.memory.get address := by
  rcases loaded_of_load hlink hload with ⟨h, -⟩
  rcases h.attains_compare hp hcommand hpc hlow hhigh with ⟨t, ht, htpc, hmemory⟩
  rw [hx, hy] at hmemory
  have hget := Memory.get_combined (op.apply x y) hlow hhigh
  rw [← hmemory] at hget
  have hsecond : (s.memory.get 0 - 2).toNat = (s.memory.get 0).toNat - 2 :=
    toNat_sub_of_le (by decide) hlow
  have hstack : t.memory.get 0 = s.memory.get 0 - 1 := by
    have hne : (0 : Word) ≠ s.memory.get 0 - 2 := by
      intro heq
      have hzero : (s.memory.get 0 - 2).toNat = 0 := by
        rw [← heq]
        rfl
      omega
    rw [hget, if_neg hne, if_pos rfl]
  have htop : t.memory.get (t.memory.get 0 - 1) = op.apply x y := by
    have haddress : s.memory.get 0 - 1 - 1 = s.memory.get 0 - 2 := by
      rw [BitVec.sub_sub]
      rfl
    rw [hstack, haddress, hget, if_pos rfl]
  refine ⟨t, ht, htpc, hstack, ?_, ?_, ?_, ?_⟩
  · intro heq
    subst heq
    cases hfits : x.ssubOverflow y with
    | false => rw [htop, Comparison.apply_of_fits _ hfits]
    | true => rw [htop, Comparison.apply_of_overflow _ hfits, Comparison.verdict_eq_comm]
  · intro hfits
    rw [htop, Comparison.apply_of_fits op hfits]
  · intro hfits
    rw [htop, Comparison.apply_of_overflow op hfits]
  · intro address hzero hne
    rw [hget, if_neg hne, if_neg hzero]

/-- A program that makes one comparison. -/
def loneComparison : List Module :=
  [⟨"Main", "gt\n"⟩]

/-- A machine with two words on the lowest stack that lies above the sixteen named cells. -/
def beforeComparison (x y : Word) : State :=
  { memory := ((Memory.blank.set 0 18).set 16 x).set 17 y }

theorem command_loneComparison :
    ∃ p, (Program.ofModules loneComparison)[0]? = some p ∧
      p.command = .operate (.compare .gt) := by
  have hprogram : Program.ofModules loneComparison =
      [⟨"Main", "", .operate (.compare .gt)⟩] := by
    decide +kernel
  rw [hprogram]
  exact ⟨_, rfl, rfl⟩

theorem get_beforeComparison (x y : Word) :
    (beforeComparison x y).memory.get 0 = 18 ∧ (beforeComparison x y).memory.get 16 = x ∧
      (beforeComparison x y).memory.get 17 = y := by
  simp [beforeComparison, Memory.get_set]

theorem loneComparison_tells_order :
    ∃ lines machine, linkedLines loneComparison {} = .ok lines ∧
      Machine.load lines = .ok machine ∧
      (∃ t, (beforeComparison (-1) (-32768)).Reaches machine.image.rom t ∧
        t.pc = address loneComparison {} 1 ∧
        t.memory.get 0 = 17 ∧ t.memory.get 16 = -1) ∧
      ∃ t, (beforeComparison 0 (-32768)).Reaches machine.image.rom t ∧
        t.pc = address loneComparison {} 1 ∧
        t.memory.get 0 = 17 ∧ t.memory.get 16 = 0 := by
  have hloads : loads loneComparison {} = true := by
    decide +kernel
  rcases exists_machine_of_loads hloads with ⟨lines, machine, hlink, hload⟩
  rcases command_loneComparison with ⟨p, hp, hcommand⟩
  have htells : ∀ x y : Word, ∃ t, (beforeComparison x y).Reaches machine.image.rom t ∧
      t.pc = address loneComparison {} 1 ∧ t.memory.get 0 = 17 ∧
      (x.ssubOverflow y = false → t.memory.get 16 = Comparison.verdict .gt x y) ∧
      (x.ssubOverflow y = true → t.memory.get 16 = Comparison.verdict .gt y x) := by
    intro x y
    rcases get_beforeComparison x y with ⟨hsp, hx, hy⟩
    have htells := comparison_tells_signed_order hlink hload hp hcommand
      (s := beforeComparison x y) rfl
      (x := x) (y := y) (by rw [hsp]; decide) (by rw [hsp]; decide)
        (by rw [hsp]; exact hx) (by rw [hsp]; exact hy)
    rcases htells with ⟨t, ht, hpc, hstack, -, hfits, hoverflow, -⟩
    rw [hsp] at hstack
    rw [hstack] at hfits hoverflow
    exact ⟨t, ht, hpc, hstack, hfits, hoverflow⟩
  refine ⟨lines, machine, hlink, hload, ?_, ?_⟩
  · rcases htells (-1) (-32768) with ⟨t, ht, hpc, hstack, hfits, -⟩
    exact ⟨t, ht, hpc, hstack, hfits (by decide)⟩
  · rcases htells 0 (-32768) with ⟨t, ht, hpc, hstack, -, hoverflow⟩
    exact ⟨t, ht, hpc, hstack, hoverflow (by decide)⟩

/--
Zero is larger than the smallest word, but the machine comes to its end with the answer that
it is not.
-/
theorem smallestWord_misjudged :
    ∃ lines machine, linkedLines loneComparison {} = .ok lines ∧
      Machine.load lines = .ok machine ∧
      (-32768 : Word).toInt < (0 : Word).toInt ∧
      ∃ rounds t, State.run machine.image.rom rounds (beforeComparison 0 (-32768)) =
        (some .halted, t) ∧
        t.memory.get 0 = 17 ∧ t.memory.get 16 = 0 := by
  have hloads : loads loneComparison {} = true := by
    decide +kernel
  rcases exists_machine_of_loads hloads with ⟨lines, machine, hlink, hload⟩
  rcases command_loneComparison with ⟨p, hp, hcommand⟩
  rcases loaded_of_load hlink hload with ⟨h, -⟩
  rcases get_beforeComparison 0 (-32768) with ⟨hsp, hx, hy⟩
  have hlow : 18 ≤ ((beforeComparison 0 (-32768)).memory.get 0).toNat := by
    rw [hsp]
    decide
  have hhigh : ((beforeComparison 0 (-32768)).memory.get 0).toNat ≤ 32768 := by
    rw [hsp]
    decide
  rcases h.attains_compare hp hcommand (s := beforeComparison 0 (-32768)) rfl hlow hhigh with
    ⟨t, ⟨rounds, hrounds⟩, hpc, hmemory⟩
  have hend : (Program.ofModules loneComparison)[1]? = none := by
    decide +kernel
  have hhalted : State.run machine.image.rom (rounds + 1) (beforeComparison 0 (-32768)) =
      (some .halted, t) := by
    rw [State.run_add_of_none 1 hrounds, State.run_succ_of_step_error 0 (h.step_end hend hpc)]
  refine ⟨lines, machine, hlink, hload, by decide, rounds + 1, t, hhalted, ?_, ?_⟩
  · rw [hmemory, Memory.get_combined _ hlow hhigh, hsp]
    rfl
  · rw [hmemory, Memory.get_combined _ hlow hhigh, hsp, if_pos (by decide)]
    show Comparison.apply ((beforeComparison 0 (-32768)).memory.get 16)
      ((beforeComparison 0 (-32768)).memory.get 17) .gt = 0
    rw [hx, hy]
    decide

end Module
end HackVM
