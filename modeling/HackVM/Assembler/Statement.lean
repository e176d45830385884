import HackVM.Assembly.Spelling
import HackVM.Text.Decimal
import HackVM.Text.Lines

/-!
# Statements of an assembly text

Each line holds at most one statement.  Comments and outer blanks are removed before a line
is looked at.
-/

namespace HackVM

inductive AssemblyError where
  | duplicateLabel (name : String)
  | literalOutOfRange (line : String)
  | invalidComp (line : String)
  | invalidDest (line : String)
  | invalidJump (line : String)
  | tooManyLines
  | tooManyVariables
deriving DecidableEq

namespace AssemblyError

def message : AssemblyError → String
  | .duplicateLabel name => "duplicate label (" ++ name ++ ")"
  | .literalOutOfRange line => "A-instruction out of range: " ++ line
  | .invalidComp line => "invalid comp in `" ++ line ++ "`"
  | .invalidDest line => "invalid dest in `" ++ line ++ "`"
  | .invalidJump line => "invalid jump in `" ++ line ++ "`"
  | .tooManyLines | .tooManyVariables => "attempt to add with overflow"

end AssemblyError

inductive Statement where
  | blank
  | label (name : String)
  /-- A parenthesis that is not closed.  It takes an address, and yields no instruction. -/
  | unclosed
  /-- What follows the sign that loads the address register. -/
  | load (operand : List Char)
  | compute (text : List Char)
deriving DecidableEq

namespace Statement

def ofContent : List Char → Statement
  | [] => .blank
  | '(' :: rest =>
      if rest.getLast? = some ')' then .label (String.ofList rest.dropLast) else .unclosed
  | '@' :: operand => .load operand
  | text => .compute text

def read (line : String) : Statement :=
  ofContent (Text.clean line.toList)

end Statement

inductive Instruction where
  | address (value : Word)
  | compute (dest : Dest) (comp : Comp) (jump : Jump)
deriving DecidableEq

namespace Instruction

def splitFirst (c : Char) (cs : List Char) : Option (List Char × List Char) :=
  match cs.dropWhile (· != c) with
  | [] => none
  | _ :: after => some (cs.takeWhile (· != c), after)

def fields (text : List Char) : String × String × String :=
  let (rest, jump) := (splitFirst ';' text).getD (text, [])
  let (dest, comp) := (splitFirst '=' rest).getD ([], rest)
  (String.ofList dest, String.ofList comp, String.ofList jump)

/-- The computation is checked first, then the destination, then the jump. -/
def ofCompute (text : List Char) : Except AssemblyError Instruction :=
  let (dest, comp, jump) := fields text
  match (Spelled.read? comp : Option Comp) with
  | none => .error (.invalidComp (String.ofList text))
  | some comp =>
      match (Spelled.read? dest : Option Dest) with
      | none => .error (.invalidDest (String.ofList text))
      | some dest =>
          match (Spelled.read? jump : Option Jump) with
          | none => .error (.invalidJump (String.ofList text))
          | some jump => .ok (.compute dest comp jump)

end Instruction
end HackVM
