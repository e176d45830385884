import HackVM.Assembler.Image
import HackVM.Machine.Memory

/-!
# The processor

The processor has two registers and a program counter.  A computation reads and writes the
cell that the address register addressed before the instruction, and a jump continues at that
address.
-/

namespace HackVM

namespace Comp

def value (c : Comp) (a d m : Word) : Word :=
  match c with
  | .zero => 0
  | .one => 1
  | .minusOne => -1
  | .d => d
  | .notD => ~~~d
  | .negD => -d
  | .incD => d + 1
  | .decD => d - 1
  | .copy x => pick x
  | .not x => ~~~(pick x)
  | .neg x => -(pick x)
  | .inc x => pick x + 1
  | .dec x => pick x - 1
  | .add x => d + pick x
  | .sub x => d - pick x
  | .subFrom x => pick x - d
  | .and x => d &&& pick x
  | .or x => d ||| pick x
where
  pick : Operand → Word
    | .a => a
    | .m => m

end Comp

namespace Jump

def taken (j : Jump) (result : Word) : Bool :=
  match j with
  | .never => false
  | .gt => 0 < result.toInt
  | .eq => result.toInt = 0
  | .ge => 0 ≤ result.toInt
  | .lt => result.toInt < 0
  | .ne => result.toInt ≠ 0
  | .le => result.toInt ≤ 0
  | .always => true

end Jump

namespace Instruction

def touchesMemory : Instruction → Bool
  | .address _ => false
  | .compute dest comp _ => comp.readsMemory || dest.hasM

end Instruction

structure State where
  memory : Memory := .blank
  pc : Nat := 0
  a : Word := 0
  d : Word := 0

namespace State

/-- The address that an instruction would use although there is no such cell. -/
def fault? (s : State) (i : Instruction) : Option Word :=
  if i.touchesMemory && decide (Memory.size ≤ s.a.toNat) then some s.a else none

def execute (s : State) : Instruction → State
  | .address value => { s with a := value, pc := s.pc + 1 }
  | .compute dest comp jump =>
      let result := comp.value s.a s.d (s.memory.get s.a)
      { memory := if dest.hasM then s.memory.set s.a result else s.memory
        pc := if jump.taken result then s.a.toNat else s.pc + 1
        a := if dest.hasA then result else s.a
        d := if dest.hasD then result else s.d }

/-- Parked for good: the counter stands at a pair of instructions that jumps back to itself. -/
def parked (rom : Array Instruction) (s : State) : Bool :=
  match rom[s.pc]?, rom[s.pc + 1]? with
  | some (.address target), some (.compute _ .zero .always) => target.toNat = s.pc
  | _, _ => false

/-!
## Runs

In every round, the machine looks whether it has halted, and executes one instruction if it
has not.  An instruction with a fault does not take effect.
-/

inductive Stop where
  | halted
  | fault (address : Word)
deriving DecidableEq

@[inline]
def step (rom : Array Instruction) (s : State) : Except Stop State :=
  match rom[s.pc]? with
  | none => .error .halted
  | some instruction =>
      if s.parked rom then .error .halted
      else
        match s.fault? instruction with
        | some address => .error (.fault address)
        | none => .ok (s.execute instruction)

def run (rom : Array Instruction) : Nat → State → Option Stop × State
  | 0, s => (none, s)
  | rounds + 1, s =>
      match s.step rom with
      | .error stop => (some stop, s)
      | .ok next => run rom rounds next

@[simp] theorem run_zero (rom : Array Instruction) (s : State) : run rom 0 s = (none, s) := rfl

theorem run_succ_of_step_error
    {rom : Array Instruction} {s : State} {stop : Stop} (rounds : Nat)
    (h : s.step rom = .error stop) :
    run rom (rounds + 1) s = (some stop, s) := by
  rw [run, h]

theorem run_succ_of_step_ok
    {rom : Array Instruction} {s next : State} (rounds : Nat)
    (h : s.step rom = .ok next) :
    run rom (rounds + 1) s = run rom rounds next := by
  rw [run, h]

end State
end HackVM
