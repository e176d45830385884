import HackVM.Machine.Memory
import HackVM.Proofs.Program

/-!
# The stack machine

What each command means, on memory and control, without any code.  The stack pointer is in
cell 0 and addresses the first free cell; cells 1 to 4 hold the bases of the local, argument,
this and that segments.  A command that needs a cell that does not exist stops at its
address.
-/

namespace HackVM

/-!
## Cells

A cell that does not exist is neither read nor written.
-/

namespace Memory

def load (m : Memory) (address : Word) : Except Word Word :=
  if address.toNat < size then .ok (m.get address) else .error address

def store (m : Memory) (address value : Word) : Except Word Memory :=
  if address.toNat < size then .ok (m.set address value) else .error address

theorem load_of_lt (m : Memory) {address : Word} (h : address.toNat < 32768) :
    m.load address = .ok (m.get address) :=
  if_pos h

theorem store_of_lt (m : Memory) {address : Word} (value : Word) (h : address.toNat < 32768) :
    m.store address value = .ok (m.set address value) :=
  if_pos h

theorem load_of_not_lt (m : Memory) {address : Word} (h : ¬ address.toNat < 32768) :
    m.load address = .error address :=
  if_neg h

theorem store_of_not_lt (m : Memory) {address : Word} (value : Word)
    (h : ¬ address.toNat < 32768) :
    m.store address value = .error address :=
  if_neg h

/-!
## The stack

Operations replace the words on top of the stack; of two operands the lower one comes first.
-/

def push (m : Memory) (value : Word) : Except Word Memory :=
  (m.set 0 (m.get 0 + 1)).store (m.get 0) value

def pop (m : Memory) : Except Word (Word × Memory) :=
  ((m.set 0 (m.get 0 - 1)).load (m.get 0 - 1)).map fun value => (value, m.set 0 (m.get 0 - 1))

theorem eq_set_of_pop {m : Memory} {top : Word × Memory} (h : m.pop = .ok top) :
    top.2 = m.set 0 (m.get 0 - 1) := by
  unfold pop at h
  cases hload : (m.set 0 (m.get 0 - 1)).load (m.get 0 - 1) with
  | error address =>
      rw [hload] at h
      cases h
  | ok value =>
      rw [hload] at h
      cases h
      rfl

def pushZeros (m : Memory) : Nat → Except Word Memory
  | 0 => .ok m
  | n + 1 => (m.push 0).bind fun m => m.pushZeros n

def modifyTop (m : Memory) (f : Word → Word) : Except Word Memory :=
  m.store (m.get 0 - 1) (f (m.get (m.get 0 - 1)))

def combineTop (m : Memory) (f : Word → Word → Word) : Except Word Memory :=
  m.pop.bind fun (y, m) => m.modifyTop fun x => f x y

def popTo (m : Memory) (address : Word) : Except Word Memory :=
  m.pop.bind fun (value, m) => m.store address value

/-!
## Frames

A call saves the return address and the cells 1 to 4.  A return finds them again below the
frame.
-/

def enter (m : Memory) (returnAddress arguments : Word) : Except Word Memory := do
  let m ← m.push returnAddress
  let m ← m.push (m.get 1)
  let m ← m.push (m.get 2)
  let m ← m.push (m.get 3)
  let m ← m.push (m.get 4)
  return (m.set 1 (m.get 0)).set 2 (m.get 0 - (arguments + 5))

def deliver (m : Memory) : Except Word Memory :=
  m.pop.bind fun top => (top.2.store (top.2.get 2) top.1).map fun m => m.set 0 (m.get 2 + 1)

def fetch (m : Memory) (cell address : Word) : Except Word Memory :=
  (m.load address).map (m.set cell)

def reinstate (m : Memory) (frame : Word) : Except Word Memory := do
  let m ← m.fetch 4 (frame - 1)
  let m ← m.fetch 3 (frame - 2)
  let m ← m.fetch 2 (frame - 3)
  m.fetch 1 (frame - 4)

/--
Takes a frame down, with the word on top of the stack as its result, and gives the address to
return to.
-/
def leave (m : Memory) : Except Word (Word × Memory) :=
  (m.load (m.get 1 - 5)).bind fun returnAddress =>
    m.deliver.bind fun rest => (rest.reinstate (m.get 1)).map fun rest => (returnAddress, rest)

/-!
The code of a return has no room for the frame and the return address but in memory: it
counts cell 13 down from the frame, word by word, and keeps the return address in cell 14.
-/

def restore (m : Memory) (cell : Word) : Except Word Memory :=
  (m.set 13 (m.get 13 - 1)).fetch cell (m.get 13 - 1)

def reinstateByScratch (m : Memory) : Except Word Memory := do
  let m ← m.restore 4
  let m ← m.restore 3
  let m ← m.restore 2
  m.restore 1

def leaveByScratch (m : Memory) : Except Word Memory :=
  ((m.set 13 (m.get 1)).load (m.get 1 - 5)).bind fun returnAddress =>
    ((m.set 13 (m.get 1)).set 14 returnAddress).deliver.bind reinstateByScratch

end Memory

/-!
## Operations

A comparison holds by the sign of the difference of its operands.
-/

def Unary.apply (x : Word) : Unary → Word
  | .neg => -x
  | .not => ~~~x

def Binary.apply (x y : Word) : Binary → Word
  | .add => x + y
  | .sub => x - y
  | .and => x &&& y
  | .or => x ||| y

def Comparison.holds (difference : Word) : Comparison → Bool
  | .eq => difference.toInt = 0
  | .gt => 0 < difference.toInt
  | .lt => difference.toInt < 0

def Comparison.apply (x y : Word) (op : Comparison) : Word :=
  if op.holds (x - y) then 0xFFFF else 0

def Operation.apply (m : Memory) : Operation → Except Word Memory
  | .unary op => m.modifyTop fun x => op.apply x
  | .binary op => m.combineTop fun x y => op.apply x y
  | .compare op => m.combineTop fun x y => op.apply x y

/-!
## Control

A name means the label in the scope where it is used.  Without a base, a segment has its
cells at fixed places.
-/

def Segment.hasBase : Segment → Bool
  | .locals | .argument | .this | .that => true
  | .constant | .temp | .pointer | .static => false

def Command.functionName? : Command → Option String
  | .function name _ => some name
  | _ => none

theorem Command.functionName?_eq_some_iff {command : Command} {name : String} :
    command.functionName? = some name ↔ ∃ locals, command = .function name locals := by
  cases command with
  | function other locals => simp [functionName?]
  | _ => simp [functionName?]

namespace Program

def labelIndex? (program : Program) (scope name : String) : Option Nat :=
  program.findIdx? fun p => p.command = .label name ∧ p.scope = scope

def entryIndex? (program : Program) (name : String) : Option Nat :=
  program.findIdx? fun p => p.command.functionName? = some name

end Program

/--
A program with what its commands need to know about the machine below: the addresses of the
commands, for calls and returns, and the cells of the static segments.  The scratch cells 13
and 14 can be followed as well, or left alone.
-/
structure StackMachine where
  program : Program
  address : Nat → Nat
  staticCell : String → Word → Word
  scratch : Bool

namespace StackMachine

/-- The next command and the memory. -/
structure Config where
  index : Nat
  memory : Memory

inductive Stop where
  /-- The last command has been passed. -/
  | finished (memory : Memory)
  | fault (address : Word)
  /-- A return led to an address at which no command begins. -/
  | astray (address : Word) (memory : Memory)
  /-- A label or a function does not exist. -/
  | undefined

def cell? (vm : StackMachine) (m : Memory) (module : String) (index : Word) :
    Segment → Option Word
  | .constant => none
  | .locals => some (m.get 1 + index)
  | .argument => some (m.get 2 + index)
  | .this => some (m.get 3 + index)
  | .that => some (m.get 4 + index)
  | .temp => some (5 + index)
  | .pointer => some (3 + index)
  | .static => some (vm.staticCell module index)

def plain (vm : StackMachine) : StackMachine :=
  { vm with scratch := false }

def push (vm : StackMachine) (m : Memory) (module : String) (segment : Segment)
    (index : Word) :
    Except Word Memory :=
  match vm.cell? m module index segment with
  | none => m.push index
  | some address => (m.load address).bind m.push

def pop (vm : StackMachine) (m : Memory) (module : String) (segment : Segment) (index : Word) :
    Except Word Memory :=
  match vm.cell? m module index segment with
  | none => .ok m
  | some address =>
      if vm.scratch && segment.hasBase then
        (m.set 13 address).popTo address else m.popTo address

def goOn (index : Nat) : Except Word Memory → Except Stop Config
  | .ok m => .ok ⟨index, m⟩
  | .error address => .error (.fault address)

def goTo (target : Option Nat) : Except Word Memory → Except Stop Config
  | .ok m =>
      match target with
      | some index => .ok ⟨index, m⟩
      | none => .error .undefined
  | .error address => .error (.fault address)

def goIf (index : Nat) (target : Option Nat) : Except Word (Word × Memory) → Except Stop Config
  | .ok (value, m) => if value = 0 then .ok ⟨index, m⟩ else goTo target (.ok m)
  | .error address => .error (.fault address)

/-- The command at an address: the first one, if some of them take no room. -/
def indexAt? (vm : StackMachine) (address : Word) : Option Nat :=
  (List.range (vm.program.length + 1)).find? fun i => vm.address i = address.toNat

theorem address_of_indexAt? {vm : StackMachine} {address : Word} {i : Nat}
    (h : vm.indexAt? address = some i) :
    vm.address i = address.toNat := by
  simpa using List.find?_some h

def enter (vm : StackMachine) (m : Memory) (next : Nat) (name : String) (arguments : Word) :
    Except Stop Config :=
  goTo (vm.program.entryIndex? name) (m.enter (BitVec.ofNat 16 (vm.address next)) arguments)

/-- Goes on with the command at the address to return to. -/
def land (vm : StackMachine) : Except Word (Word × Memory) → Except Stop Config
  | .ok (address, m) =>
      match vm.indexAt? address with
      | some index => .ok ⟨index, m⟩
      | none => .error (.astray address m)
  | .error address => .error (.fault address)

def leave (vm : StackMachine) (m : Memory) : Except Stop Config :=
  vm.land (if vm.scratch then m.leaveByScratch.map fun m => (m.get 14, m) else m.leave)

def execute (vm : StackMachine) (index : Nat) (p : Placed) (m : Memory) : Except Stop Config :=
  match p.command with
  | .operate op => goOn (index + 1) (op.apply m)
  | .push segment i => goOn (index + 1) (vm.push m p.module segment i)
  | .pop segment i => goOn (index + 1) (vm.pop m p.module segment i)
  | .label _ => .ok ⟨index + 1, m⟩
  | .goto name => goTo (vm.program.labelIndex? p.scope name) (.ok m)
  | .ifGoto name => goIf (index + 1) (vm.program.labelIndex? p.scope name) m.pop
  | .function _ locals => goOn (index + 1) (m.pushZeros locals.toNat)
  | .call name arguments => vm.enter m (index + 1) name arguments
  | .ret => vm.leave m

def step (vm : StackMachine) (c : Config) : Except Stop Config :=
  match vm.program[c.index]? with
  | some p => vm.execute c.index p c.memory
  | none => .error (.finished c.memory)

def run (vm : StackMachine) : Nat → Config → Except Stop Config
  | 0, c => .ok c
  | steps + 1, c => (vm.step c).bind (vm.run steps)

def boot (vm : StackMachine) (m : Memory) : Except Stop Config :=
  vm.enter (m.set 0 256) 0 "Sys.init" 0

end StackMachine
end HackVM
