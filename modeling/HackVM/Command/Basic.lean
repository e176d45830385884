import HackVM.Word

/-!
# Commands of the stack machine

A command works on the stack, moves words between the stack and a memory segment, or
transfers control.  Names of labels and functions are kept as they are given.
-/

namespace HackVM

inductive Unary where
  | neg
  | not
deriving DecidableEq

inductive Binary where
  | add
  | sub
  | and
  | or
deriving DecidableEq

inductive Comparison where
  | eq
  | gt
  | lt
deriving DecidableEq

inductive Operation where
  | unary (op : Unary)
  | binary (op : Binary)
  | compare (op : Comparison)
deriving DecidableEq

inductive Segment where
  | constant
  | locals
  | static
  | argument
  | this
  | that
  | pointer
  | temp
deriving DecidableEq

inductive Command where
  | operate (op : Operation)
  | push (segment : Segment) (index : Word)
  | pop (segment : Segment) (index : Word)
  | label (name : String)
  | goto (name : String)
  | ifGoto (name : String)
  | function (name : String) (locals : Word)
  | call (name : String) (arguments : Word)
  | ret
deriving DecidableEq

end HackVM
