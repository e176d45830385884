import HackVM.Machine.Basic

/-!
# Executing a stretch of code

Code without jumps is executed in one go: either all its instructions take effect, or one of
them stops at a cell that does not exist.  Jumps are treated one by one.  The machine looks
for the parking idiom in every round, so each of these laws also shows that it is not met
where it is not meant.
-/

namespace HackVM

def HoldsAt (rom : Array Instruction) (pc : Nat) (is : List Instruction) : Prop :=
  ∃ before after, rom.toList = before ++ is ++ after ∧ before.length = pc

namespace HoldsAt

variable {rom : Array Instruction} {pc : Nat}

theorem head {i : Instruction} {is : List Instruction} (h : HoldsAt rom pc (i :: is)) :
    rom[pc]? = some i := by
  rcases h with ⟨before, after, hrom, rfl⟩
  rw [← Array.getElem?_toList, hrom]
  simp

theorem tail {i : Instruction} {is : List Instruction} (h : HoldsAt rom pc (i :: is)) :
    HoldsAt rom (pc + 1) is := by
  rcases h with ⟨before, after, hrom, rfl⟩
  exact ⟨before ++ [i], after, by simp [hrom], by simp⟩

theorem left {first second : List Instruction} (h : HoldsAt rom pc (first ++ second)) :
    HoldsAt rom pc first := by
  rcases h with ⟨before, after, hrom, rfl⟩
  exact ⟨before, second ++ after, by simp [hrom], rfl⟩

theorem right {first second : List Instruction} (h : HoldsAt rom pc (first ++ second)) :
    HoldsAt rom (pc + first.length) second := by
  rcases h with ⟨before, after, hrom, rfl⟩
  exact ⟨before ++ first, after, by simp [hrom], by simp⟩

end HoldsAt

namespace State

/-!
## Where a machine gets to

A machine reaches a state after some rounds, or comes to an instruction that needs a cell
which does not exist.  Both compose.
-/

theorem run_add_of_none {rom : Array Instruction} {s t : State} {first : Nat} (second : Nat)
    (h : run rom first s = (none, t)) : run rom (first + second) s = run rom second t := by
  induction first generalizing s with
  | zero =>
      cases h
      rw [Nat.zero_add]
  | succ first ih =>
      rw [Nat.succ_add]
      cases hstep : s.step rom with
      | error stop =>
          rw [run_succ_of_step_error first hstep] at h
          cases h
      | ok next =>
          rw [run_succ_of_step_ok first hstep] at h
          rw [run_succ_of_step_ok _ hstep]
          exact ih h

def Reaches (rom : Array Instruction) (s t : State) : Prop :=
  ∃ rounds, run rom rounds s = (none, t)

def Faults (rom : Array Instruction) (s : State) (address : Word) : Prop :=
  ∃ rounds t, run rom rounds s = (some (.fault address), t)

/-- The machine reaches a state, or stops at an address, as the result says. -/
def Leads (rom : Array Instruction) (s : State) : Except Word State → Prop
  | .ok t => s.Reaches rom t
  | .error address => s.Faults rom address

variable {rom : Array Instruction} {s t : State}

theorem Reaches.refl (s : State) : s.Reaches rom s := ⟨0, rfl⟩

theorem Reaches.trans {u : State} (hst : s.Reaches rom t) (htu : t.Reaches rom u) :
    s.Reaches rom u := by
  rcases hst with ⟨first, hfirst⟩
  rcases htu with ⟨second, hsecond⟩
  exact ⟨first + second, by rw [run_add_of_none second hfirst, hsecond]⟩

theorem Reaches.faults {address : Word} (hst : s.Reaches rom t) (ht : t.Faults rom address) :
    s.Faults rom address := by
  rcases hst with ⟨first, hfirst⟩
  rcases ht with ⟨second, u, hsecond⟩
  exact ⟨first + second, u, by rw [run_add_of_none second hfirst, hsecond]⟩

theorem Reaches.leads {result : Except Word State} (hst : s.Reaches rom t)
    (ht : t.Leads rom result) :
    s.Leads rom result := by
  cases result with
  | ok u => exact hst.trans ht
  | error address => exact hst.faults ht

theorem reaches_of_step (h : s.step rom = .ok t) : s.Reaches rom t :=
  ⟨1, by rw [run_succ_of_step_ok 0 h, run_zero]⟩

theorem faults_of_step {address : Word} (h : s.step rom = .error (.fault address)) :
    s.Faults rom address :=
  ⟨1, s, run_succ_of_step_error 0 h⟩

/-!
## One round

A machine that is not parked executes one instruction, or faults.
-/

theorem fault?_eq_some_iff {i : Instruction} {address : Word} :
    s.fault? i = some address ↔ i.touchesMemory = true ∧
      32768 ≤ address.toNat ∧ s.a = address := by
  unfold fault?
  rw [Option.ite_none_right_eq_some, Bool.and_eq_true, decide_eq_true_eq,
    Option.some_inj, and_assoc]
  constructor
  · rintro ⟨htouches, hsize, rfl⟩
    exact ⟨htouches, hsize, rfl⟩
  · rintro ⟨htouches, hsize, rfl⟩
    exact ⟨htouches, hsize, rfl⟩

theorem fault?_eq_none_iff {i : Instruction} :
    s.fault? i = none ↔ (i.touchesMemory = true → s.a.toNat < 32768) := by
  rw [fault?, ite_eq_right_iff, Bool.and_eq_true, decide_eq_true_eq, and_imp]
  simp [Memory.size]

theorem step_eq_fault {i : Instruction} {address : Word} (hi : rom[s.pc]? = some i)
    (hparked : s.parked rom = false) (hfault : s.fault? i = some address) :
    s.step rom = .error (.fault address) := by
  simp [step, hi, hparked, hfault]

theorem step_eq_execute {i : Instruction} (hi : rom[s.pc]? = some i)
    (hparked : s.parked rom = false) (hfault : s.fault? i = none) :
    s.step rom = .ok (s.execute i) := by
  simp [step, hi, hparked, hfault]

theorem not_parked_of_compute {dest : Dest} {comp : Comp} {jump : Jump}
    (hi : rom[s.pc]? = some (.compute dest comp jump)) : s.parked rom = false := by
  simp [parked, hi]

/--
Only an instruction that loads the counter's own address can park the machine, and only in
front of a jump.
-/
theorem not_parked_of_next {value : Word} {next : Instruction}
    (hi : rom[s.pc]? = some (.address value))
    (hnext : rom[s.pc + 1]? = some next)
    (h : value.toNat = s.pc → ∀ dest, next ≠ .compute dest .zero .always) :
    s.parked rom = false := by
  unfold parked
  rw [hi, hnext]
  split
  · next heq1 heq2 =>
      cases heq1
      cases heq2
      rw [decide_eq_false_iff_not]
      intro htarget
      exact h htarget _ rfl
  · rfl

/-!
## Straight code

Code that goes on to the next instruction throughout is executed in one go.
-/

def perform (s : State) : List Instruction → Except Word State
  | [] => .ok s
  | i :: is =>
      match s.fault? i with
      | some address => .error address
      | none => (s.execute i).perform is

theorem perform_append (s : State) (first second : List Instruction) :
    s.perform (first ++ second) = (s.perform first).bind fun t => t.perform second := by
  induction first generalizing s with
  | nil => rfl
  | cons i is ih =>
      rw [List.cons_append, perform, perform]
      cases s.fault? i with
      | some address => rfl
      | none => exact ih _

end State

namespace Instruction

/--
Code that goes on to the next instruction throughout.  It does not end with a loaded address,
since the instruction behind it could be a jump.
-/
def straight : List Instruction → Bool
  | [] => true
  | .address _ :: is => !is.isEmpty && straight is
  | .compute _ _ jump :: is => decide (jump = .never) && straight is

theorem straight_head {dest : Dest} {i : Instruction} {is : List Instruction}
    (h : straight (i :: is) = true) : i ≠ .compute dest .zero .always := by
  rintro rfl
  simp [straight] at h

end Instruction

namespace State

theorem leads_perform {rom : Array Instruction} {s : State} {is : List Instruction}
    (hcode : HoldsAt rom s.pc is) (hstraight : Instruction.straight is = true) :
    s.Leads rom (s.perform is) := by
  induction is generalizing s with
  | nil => exact Reaches.refl s
  | cons i is ih =>
      have hparked : s.parked rom = false := by
        cases i with
        | compute dest comp jump => exact not_parked_of_compute hcode.head
        | address value =>
            cases is with
            | nil => cases hstraight
            | cons next rest =>
                refine not_parked_of_next hcode.head hcode.tail.head ?_
                intro _ dest
                apply Instruction.straight_head
                simpa [Instruction.straight] using hstraight
      rw [perform]
      cases hfault : s.fault? i with
      | some address => exact faults_of_step (step_eq_fault hcode.head hparked hfault)
      | none =>
          have hpc : (s.execute i).pc = s.pc + 1 ∧ Instruction.straight is = true := by
            cases i with
            | address value =>
                simp only [Instruction.straight, Bool.and_eq_true] at hstraight
                exact ⟨rfl, hstraight.2⟩
            | compute dest comp jump =>
                simp only [Instruction.straight, Bool.and_eq_true, decide_eq_true_eq]
                  at hstraight
                rw [hstraight.1]
                exact ⟨rfl, hstraight.2⟩
          refine (reaches_of_step (step_eq_execute hcode.head hparked hfault)).leads
            (ih ?_ hpc.2)
          rw [hpc.1]
          exact hcode.tail

/-!
## Jumps

A jump loads its target first, so each takes two rounds.
-/

section Jumps

variable {rom : Array Instruction} {s : State} {is : List Instruction}

theorem reaches_address {value : Word} {next : Instruction}
    (hcode : HoldsAt rom s.pc (.address value :: next :: is))
    (h : value.toNat = s.pc → ∀ dest, next ≠ .compute dest .zero .always) :
    s.Reaches rom { s with a := value, pc := s.pc + 1 } :=
  reaches_of_step
    (step_eq_execute hcode.head (not_parked_of_next hcode.head hcode.tail.head h) rfl)

theorem reaches_compute {dest : Dest} {comp : Comp} {jump : Jump}
    (hcode : HoldsAt rom s.pc (.compute dest comp jump :: is))
    (hfault : s.fault? (.compute dest comp jump) = none) :
    s.Reaches rom (s.execute (.compute dest comp jump)) :=
  reaches_of_step (step_eq_execute hcode.head (not_parked_of_compute hcode.head) hfault)

theorem reaches_branch {target : Word} {jump : Jump}
    (hcode : HoldsAt rom s.pc (.address target :: .compute .none .d jump :: is)) :
    s.Reaches rom
      { s with a := target, pc := if jump.taken s.d then target.toNat else s.pc + 2 } := by
  have hload : s.Reaches rom { s with a := target, pc := s.pc + 1 } := by
    refine reaches_address hcode ?_
    intro _ dest hnext
    cases hnext
  exact hload.trans
    (reaches_compute (s := { s with a := target, pc := s.pc + 1 }) hcode.tail rfl)

theorem reaches_jump {target : Word}
    (hcode : HoldsAt rom s.pc (.address target :: .compute .none .zero .always :: is))
    (hpc : target.toNat ≠ s.pc) :
    s.Reaches rom { s with a := target, pc := target.toNat } := by
  have hload : s.Reaches rom { s with a := target, pc := s.pc + 1 } := by
    refine reaches_address hcode ?_
    intro htarget
    exact absurd htarget hpc
  exact hload.trans
    (reaches_compute (s := { s with a := target, pc := s.pc + 1 }) hcode.tail rfl)

end Jumps

end State
end HackVM
