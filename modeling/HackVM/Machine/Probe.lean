import HackVM.Machine.Basic

/-!
# Working with a loaded machine

A loaded program can be run, continued, and looked into.  An operation that fails leaves the
machine as it was at that moment.
-/

namespace HackVM

structure Machine where
  image : Image
  state : State := {}

inductive MachineFault where
  | noCell (address : Word)
  | stillRunning (rounds : Nat)
  | emptyStack
  | unknownSymbol
deriving DecidableEq

namespace MachineFault

def message : MachineFault → String
  | .noCell address =>
      "index out of bounds: the len is " ++ Nat.repr Memory.size ++
        " but the index is " ++ address.render
  | .stillRunning rounds => "program did not halt within " ++ Nat.repr rounds ++ " steps"
  | .emptyStack => "attempt to subtract with overflow"
  | .unknownSymbol => "no entry found for key"

end MachineFault

namespace Machine

def load (lines : List String) : Except AssemblyError Machine :=
  (Image.assemble lines).map fun image => { image := image }

def peek (m : Machine) (address : Word) : Except MachineFault Word :=
  if address.toNat < Memory.size then .ok (m.state.memory.get address)
  else .error (.noCell address)

def poke (m : Machine) (address value : Word) : Except MachineFault Machine :=
  if address.toNat < Memory.size then
    .ok { m with state := { m.state with memory := m.state.memory.set address value } }
  else .error (.noCell address)

def sp (m : Machine) : Word :=
  m.state.memory.get 0

def top (m : Machine) : Except MachineFault Word :=
  if m.sp = 0 then .error .emptyStack else m.peek (m.sp - 1)

def symbol (m : Machine) (name : String) : Except MachineFault Word :=
  match m.image.symbols.get? name with
  | some address => .ok address
  | none => .error .unknownSymbol

def run (m : Machine) (rounds : Nat) : Option MachineFault × Machine :=
  let (stop, state) := State.run m.image.rom rounds m.state
  let fault := match stop with
    | some .halted => none
    | some (.fault address) => some (.noCell address)
    | none => some (.stillRunning rounds)
  (fault, { m with state := state })

end Machine
end HackVM
