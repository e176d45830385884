import HackVM.Emitter.Code

/-!
# Translation

A command is translated step by step on the emitter itself: limits are checked, numbers are
drawn and functions are entered in a fixed order.  A translation that halts hands the emitter
back as it stands at that moment, with all that was changed before.
-/

namespace HackVM

abbrev Translation := EStateM Inexpressible Emitter

namespace Emitter

/-!
## Numbers and comments

A counter is moved before its number is used, so the first number is one.
-/

def nextComparison (e : Emitter) : Nat × Emitter :=
  (e.comparisons + 1, { e with comparisons := e.comparisons + 1 })

def nextCallSite (e : Emitter) : Nat × Emitter :=
  (e.callSites + 1, { e with callSites := e.callSites + 1 })

def annotated (e : Emitter) (text : String) (code : Code) : Code :=
  if e.annotate then .comment text :: code else code

def bootstrap (e : Emitter) : Code × Emitter :=
  (e.annotated "bootstrap" (Code.bootstrap e.nextCallSite.1), e.nextCallSite.2)

end Emitter

/-!
## Commands

A label belongs to the function in which it stands.  A function is entered before its own
code is produced.
-/

namespace Translation

def operate : Operation → Translation Code
  | .unary op => return Code.unary op
  | .binary op => return Code.binary op
  | .compare op => return Code.compare op (← modifyGet Emitter.nextComparison)

def push (segment : Segment) (index : Word) : Translation Code := do
  MonadExcept.ofExcept ((← get).pushCode segment index)

def pop (segment : Segment) (index : Word) : Translation Code := do
  MonadExcept.ofExcept ((← get).popCode segment index)

def scopedLabel (name : String) : Translation Symbol :=
  return .scoped (← get).function name

def function (name : String) (locals : Word) : Translation Code := do
  modify fun e => { e with function := name }
  return Code.function name locals

/-- A call with too many arguments halts before it draws a number. -/
def call (name : String) (arguments : Word) : Translation Code := do
  if maxArguments < arguments.toNat then
    throw (.tooManyArguments arguments)
  return Code.call name arguments (← modifyGet Emitter.nextCallSite)

def body : Command → Translation Code
  | .operate op => operate op
  | .push segment index => push segment index
  | .pop segment index => pop segment index
  | .label name => return [.label (← scopedLabel name)]
  | .goto name => return Code.goto (← scopedLabel name)
  | .ifGoto name => return Code.ifGoto (← scopedLabel name)
  | .function name locals => function name locals
  | .call name arguments => call name arguments
  | .ret => return Code.ret

def ofCommand (command : Command) : Translation Code := do
  let code ← body command
  return (← get).annotated command.render code

end Translation

namespace Emitter

def translate (e : Emitter) (command : Command) : EStateM.Result Inexpressible Emitter Code :=
  (Translation.ofCommand command).run e

/--
For a program that ends with the first command without code, the emitter left then is of no
use.
-/
def emit (e : Emitter) (command : Command) : Except Inexpressible (Code × Emitter) :=
  match e.translate command with
  | .ok code next => .ok (code, next)
  | .error cause _ => .error cause

end Emitter
end HackVM
