import HackVM.Emitter.Basic

/-!
# The code of a command

The stack grows upwards, and the stack pointer addresses the first free cell.  Cells 13 and
14 hold what a sequence needs across a change of the address register.
-/

namespace HackVM

namespace Code

open Item (assign branch cell)

def pushData : Code :=
  [cell .sp, assign .m (.inc .m), assign .a (.dec .m), assign .m .d]

def popData : Code :=
  [cell .sp, assign .am (.dec .m), assign .d (.copy .m)]

def pushCell (symbol : Symbol) : Code :=
  [.refer symbol, assign .d (.copy .m)] ++ pushData

def popCell (symbol : Symbol) : Code :=
  popData ++ [.refer symbol, assign .m .d]

def pushIndexed (base : Register) (index : Word) : Code :=
  [cell base, assign .d (.copy .m), .literal index, assign .a (.add .a),
    assign .d (.copy .m)] ++ pushData

/--
Pops into the cell at an offset from the base that a register holds.  The address waits in
cell 13.
-/
def popIndexed (base : Register) (index : Word) : Code :=
  [cell base, assign .d (.copy .m), .literal index, assign .d (.add .a), cell (.numbered 13),
    assign .m .d] ++ popData ++
    [cell (.numbered 13), assign .a (.copy .m), assign .m .d]

def pushConstant (value : Word) : Code :=
  [.literal value, assign .d (.copy .a)] ++ pushData

/-!
## Operations

The upper operand is popped into the data register, and the lower one is left in the
addressed cell.  A comparison replaces both by all ones or all zeros, according to the sign
of their difference.
-/

def unary (op : Unary) : Code :=
  [cell .sp, assign .a (.dec .m),
    assign .m (match op with
      | .neg => .neg .m
      | .not => .not .m)]

def binary (op : Binary) : Code :=
  popData ++
    [assign .a (.dec .a),
      assign .m (match op with
        | .add => .add .m
        | .sub => .subFrom .m
        | .and => .and .m
        | .or => .or .m)]

def comparisonJump : Comparison → Jump
  | .eq => .eq
  | .gt => .gt
  | .lt => .lt

def compare (op : Comparison) (number : Nat) : Code :=
  popData ++
    [assign .a (.dec .a), assign .d (.subFrom .m), .refer (.holds number),
      branch .d (comparisonJump op),
      assign .d .zero, .refer (.compared number), branch .zero .always,
      .label (.holds number), assign .d .minusOne,
      .label (.compared number), cell .sp, assign .a (.dec .m), assign .m .d]

/-!
## Control

A function pushes a zero for each of its locals.  A call saves the return address and the
four pointers of the caller, points the arguments below them and the locals above them, and
enters the function.
-/

def goto (target : Symbol) : Code :=
  [.refer target, branch .zero .always]

def ifGoto (target : Symbol) : Code :=
  popData ++ [.refer target, branch .d .ne]

def function (name : String) (locals : Word) : Code :=
  .label (.entry name) ::
    (List.replicate locals.toNat
      [cell .sp, assign .m (.inc .m), assign .a (.dec .m), assign .m .zero]).flatten

def call (name : String) (arguments : Word) (number : Nat) : Code :=
  [.refer (.returned name number), assign .d (.copy .a)] ++ pushData ++
    ([Register.lcl, .arg, .this, .that].map fun r => pushCell (.register r)).flatten ++
    [cell .sp, assign .d (.copy .m), cell .lcl, assign .m .d,
      .literal (arguments + BitVec.ofNat 16 savedWords), assign .d (.sub .a),
        cell .arg, assign .m .d] ++
    goto (.entry name) ++ [.label (.returned name number)]

def restore (r : Register) : Code :=
  [cell (.numbered 13), assign .am (.dec .m), assign .d (.copy .m), cell r, assign .m .d]

/--
Leaves a function.  The return address is fetched before the result is stored, because
without arguments the result takes its place.
-/
def ret : Code :=
  [cell .lcl, assign .d (.copy .m), cell (.numbered 13), assign .m .d,
    .literal (BitVec.ofNat 16 savedWords), assign .a (.sub .a), assign .d
      (.copy .m), cell (.numbered 14),
    assign .m .d] ++
    popData ++
    [cell .arg, assign .a (.copy .m), assign .m .d, cell .arg, assign .d (.inc .m),
      cell .sp, assign .m .d] ++
    ([Register.that, .this, .arg, .lcl].map restore).flatten ++
    [cell (.numbered 14), assign .a (.copy .m), branch .zero .always]

def stackBase : Word := 256

def bootstrap (number : Nat) : Code :=
  [.literal stackBase, assign .d (.copy .a), cell .sp, assign .m .d] ++
    call "Sys.init" 0 number

end Code

/-!
## Segments

A cell of a segment is reached at an offset from a base, or under a name of its own.
Constants have no cells, whatever their value.
-/

inductive Access where
  | indexed (base : Register)
  | direct (symbol : Symbol)
deriving DecidableEq

namespace Access

def tempCell? (index : Word) : Option Register :=
  if h : index.toNat < 8 then some (.numbered ⟨5 + index.toNat, by omega⟩) else none

def pointerCell? (index : Word) : Option Register :=
  if index = 0 then some .this else if index = 1 then some .that else none

def indexed? (segment : Segment) (base : Register) (index : Word) :
    Except Inexpressible Access :=
  if index.toNat ≤ maxLiteral then .ok (.indexed base)
  else .error (.indexOutOfRange segment index)

def named? (segment : Segment) (index : Word) : Option Register → Except Inexpressible Access
  | some r => .ok (.direct (.register r))
  | none => .error (.indexOutOfRange segment index)

def find (module : String) (segment : Segment) (index : Word) : Except Inexpressible Access :=
  match segment with
  | .constant => .error .popConstant
  | .locals => indexed? segment .lcl index
  | .argument => indexed? segment .arg index
  | .this => indexed? segment .this index
  | .that => indexed? segment .that index
  | .static => .ok (.direct (.static module index))
  | .temp => named? segment index (tempCell? index)
  | .pointer => named? segment index (pointerCell? index)

def pushCode (index : Word) : Access → Code
  | .indexed base => Code.pushIndexed base index
  | .direct symbol => Code.pushCell symbol

def popCode (index : Word) : Access → Code
  | .indexed base => Code.popIndexed base index
  | .direct symbol => Code.popCell symbol

end Access

namespace Emitter

def pushCode (e : Emitter) (segment : Segment) (index : Word) : Except Inexpressible Code :=
  if segment = .constant then
    if index.toNat ≤ maxLiteral then .ok (Code.pushConstant index)
    else .error (.constantOutOfRange index)
  else (Access.find e.module segment index).map (Access.pushCode index)

def popCode (e : Emitter) (segment : Segment) (index : Word) : Except Inexpressible Code :=
  (Access.find e.module segment index).map (Access.popCode index)

end Emitter
end HackVM
