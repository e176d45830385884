import HackVM.Assembler.Statement
import HackVM.Assembler.Symbols

/-!
# Assembling a text

A first pass gives every label the number of instructions before it; a second pass yields the
instructions and gives cells to variables.  All labels are known before the first instruction
is looked at.
-/

namespace HackVM

structure Image where
  rom : Array Instruction := #[]
  symbols : SymbolTable := {}

/-!
## First pass

A label gets the number of addresses taken before it.  Addresses are counted in words, so the
count must stay a word.
-/

structure LabelPass where
  address : Nat := 0
  symbols : SymbolTable := {}

def addressLimit : Nat := 65536

namespace LabelPass

def step (p : LabelPass) : Statement → Except AssemblyError LabelPass
  | .blank => .ok p
  | .label name =>
      if (p.symbols.get? name).isSome then .error (.duplicateLabel name)
      else .ok { p with symbols := p.symbols.addLabel name (BitVec.ofNat 16 p.address) }
  | .unclosed | .load _ | .compute _ =>
      if p.address + 1 < addressLimit then .ok { p with address := p.address + 1 }
      else .error .tooManyLines

def run (p : LabelPass) : List Statement → Except AssemblyError LabelPass
  | [] => .ok p
  | s :: rest =>
      match p.step s with
      | .ok next => next.run rest
      | .error error => .error error

theorem run_append (p : LabelPass) (first second : List Statement) :
    p.run (first ++ second) = (p.run first).bind fun next => next.run second := by
  induction first generalizing p with
  | nil => rfl
  | cons s rest ih =>
      cases hstep : p.step s with
      | error error => simp [run, hstep, Except.bind]
      | ok next => simp [run, hstep, ih]

end LabelPass

/-!
## Second pass

An operand that is no numeral is a symbol, whatever it looks like.  A numeral is refused if
it is too large to be loaded as a literal.
-/

namespace Image

def literalLimit : Nat := 32768

def add (image : Image) (instruction : Instruction) : Image :=
  { image with rom := image.rom.push instruction }

def load (image : Image) (operand : List Char) : Except AssemblyError Image :=
  match Text.signedWord? operand with
  | some value =>
      if value.toNat < literalLimit then .ok (image.add (.address value))
      else .error (.literalOutOfRange (String.ofList ('@' :: operand)))
  | none =>
      let name := String.ofList operand
      match image.symbols.get? name with
      | some value => .ok (image.add (.address value))
      | none =>
          if image.symbols.nextVariable + 1 < addressLimit then
            .ok { rom := image.rom.push (.address (BitVec.ofNat 16 image.symbols.nextVariable))
                  symbols := image.symbols.addVariable name }
          else .error .tooManyVariables

def step (image : Image) : Statement → Except AssemblyError Image
  | .blank | .label _ | .unclosed => .ok image
  | .load operand => image.load operand
  | .compute text => (Instruction.ofCompute text).map image.add

def run (image : Image) : List Statement → Except AssemblyError Image
  | [] => .ok image
  | s :: rest =>
      match image.step s with
      | .ok next => next.run rest
      | .error error => .error error

theorem run_append (image : Image) (first second : List Statement) :
    image.run (first ++ second) = (image.run first).bind fun next => next.run second := by
  induction first generalizing image with
  | nil => rfl
  | cons s rest ih =>
      cases hstep : image.step s with
      | error error => simp [run, hstep, Except.bind]
      | ok next => simp [run, hstep, ih]

def assemble (lines : List String) : Except AssemblyError Image :=
  let statements := lines.map Statement.read
  match LabelPass.run {} statements with
  | .error error => .error error
  | .ok labels => run { symbols := labels.symbols } statements

end Image
end HackVM
