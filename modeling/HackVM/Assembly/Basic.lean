import HackVM.Word

/-!
# Symbolic assembly

What a computation may read and write, the symbols a program may refer to, and the items of
symbolic code.  Symbols are kept apart by what they stand for; their texts come only with the
spelling.
-/

namespace HackVM

/--
The operand of a computation beside the data register: the address register, or the addressed
cell.
-/
inductive Operand where
  | a
  | m
deriving DecidableEq

/-- The computations of the processor, with the data register `D` as the other operand. -/
inductive Comp where
  | zero
  | one
  | minusOne
  | d
  | notD
  | negD
  | incD
  | decD
  | copy (x : Operand)
  | not (x : Operand)
  | neg (x : Operand)
  | inc (x : Operand)
  | dec (x : Operand)
  | add (x : Operand)
  | sub (x : Operand)
  | subFrom (x : Operand)
  | and (x : Operand)
  | or (x : Operand)
deriving DecidableEq

inductive Dest where
  | none
  | m
  | d
  | md
  | a
  | am
  | ad
  | amd
deriving DecidableEq

/-- When control continues at the address register: the result is compared with zero. -/
inductive Jump where
  | never
  | gt
  | eq
  | ge
  | lt
  | ne
  | le
  | always
deriving DecidableEq

namespace Comp

def readsMemory : Comp → Bool
  | .copy .m | .not .m | .neg .m | .inc .m | .dec .m => true
  | .add .m | .sub .m | .subFrom .m | .and .m | .or .m => true
  | _ => false

end Comp

namespace Dest

def hasA : Dest → Bool
  | .a | .am | .ad | .amd => true
  | _ => false

def hasD : Dest → Bool
  | .d | .md | .ad | .amd => true
  | _ => false

def hasM : Dest → Bool
  | .m | .md | .am | .amd => true
  | _ => false

end Dest

/--
The memory cells with a name of their own: the pointers of the stack machine and sixteen
numbered cells.
-/
inductive Register where
  | sp
  | lcl
  | arg
  | this
  | that
  | numbered (i : Fin 16)
deriving DecidableEq

inductive Symbol where
  /-- A named cell. -/
  | register (r : Register)
  /-- The entry of a function. -/
  | entry (function : String)
  /-- A label within the scope of a function. -/
  | scoped (function label : String)
  /-- Where the comparison of the given number continues when it holds. -/
  | holds (number : Nat)
  /-- Where both outcomes of the comparison of the given number meet. -/
  | compared (number : Nat)
  /-- Where the call site of the given number continues after the function returns. -/
  | returned (function : String) (number : Nat)
  /-- A static cell of a module. -/
  | static (module : String) (index : Word)
deriving DecidableEq

inductive Item where
  | comment (text : String)
  | label (symbol : Symbol)
  | refer (symbol : Symbol)
  | literal (value : Word)
  | compute (dest : Dest) (comp : Comp) (jump : Jump)
deriving DecidableEq

abbrev Code := List Item

namespace Item

def assign (dest : Dest) (comp : Comp) : Item :=
  .compute dest comp .never

def branch (comp : Comp) (jump : Jump) : Item :=
  .compute .none comp jump

def cell (r : Register) : Item :=
  .refer (.register r)

end Item
end HackVM
