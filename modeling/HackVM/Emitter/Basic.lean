import HackVM.Command.Spelling
import HackVM.Assembly.Basic

/-!
# Emitters

An emitter carries what the code of a command depends on besides the command: the module
whose static cells are meant, the function whose labels are meant, and how many comparisons
and call sites have been numbered.
-/

namespace HackVM

inductive Inexpressible where
  | popConstant
  | constantOutOfRange (value : Word)
  | indexOutOfRange (segment : Segment) (index : Word)
  | tooManyArguments (count : Word)
deriving DecidableEq

def maxLiteral : Nat := 32767

/-- The words that a call saves below the frame of the function it enters. -/
def savedWords : Nat := 5

/-- The distance from the new frame back to the first argument has to be a literal. -/
def maxArguments : Nat := maxLiteral - savedWords

namespace Inexpressible

def message : Inexpressible → String
  | .popConstant => "cannot pop into the constant segment"
  | .constantOutOfRange value =>
      "constant " ++ value.render ++ " does not fit in an A-instruction (max " ++
        Nat.repr maxLiteral ++ ")"
  | .indexOutOfRange segment index =>
      "index " ++ index.render ++ " is out of range for segment " ++ segment.spelling
  | .tooManyArguments count =>
      "call with " ++ count.render ++ " arguments cannot address its frame (max " ++
        Nat.repr maxArguments ++ ")"

end Inexpressible

structure Emitter where
  module : String
  function : String := ""
  comparisons : Nat := 0
  callSites : Nat := 0
  annotate : Bool := false
deriving DecidableEq

namespace Emitter

def start (module : String) : Emitter :=
  { module := module }

end Emitter
end HackVM
