import HackVM.Emitter.Translation

/-!
# Translation as a function

The steps of a translation come to two functions of the emitter: the code of the command, and
the emitter after a command that has code.  A command without code leaves the emitter as it
was, because every limit is checked before anything changes.
-/

namespace HackVM
namespace Emitter

def body (e : Emitter) : Command → Except Inexpressible Code
  | .operate (.unary op) => .ok (Code.unary op)
  | .operate (.binary op) => .ok (Code.binary op)
  | .operate (.compare op) => .ok (Code.compare op (e.comparisons + 1))
  | .push segment index => e.pushCode segment index
  | .pop segment index => e.popCode segment index
  | .label name => .ok [.label (.scoped e.function name)]
  | .goto name => .ok (Code.goto (.scoped e.function name))
  | .ifGoto name => .ok (Code.ifGoto (.scoped e.function name))
  | .function name locals => .ok (Code.function name locals)
  | .call name arguments =>
      if arguments.toNat ≤ maxArguments then
        .ok (Code.call name arguments (e.callSites + 1))
      else .error (.tooManyArguments arguments)
  | .ret => .ok Code.ret

def advance (e : Emitter) : Command → Emitter
  | .operate (.compare _) => { e with comparisons := e.comparisons + 1 }
  | .function name _ => { e with function := name }
  | .call _ _ => { e with callSites := e.callSites + 1 }
  | _ => e

/-- Code goes with the second emitter, and an error with the first. -/
def settle (e next : Emitter) :
    Except Inexpressible Code → EStateM.Result Inexpressible Emitter Code
  | .ok code => .ok code next
  | .error cause => .error cause e

theorem run_ofExcept (e : Emitter) (result : Except Inexpressible Code) :
    (MonadExcept.ofExcept result : Translation Code).run e = e.settle e result := by
  cases result <;> rfl

theorem run_call (e : Emitter) (name : String) (arguments : Word) :
    (Translation.call name arguments).run e =
      e.settle e.nextCallSite.2 (e.body (.call name arguments)) := by
  simp only [Translation.call, body]
  by_cases h : arguments.toNat ≤ maxArguments
  · rw [if_neg (Nat.not_lt.mpr h), if_pos h]
    rfl
  · rw [if_pos (Nat.lt_of_not_le h), if_neg h]
    rfl

theorem run_body (e : Emitter) (command : Command) :
    (Translation.body command).run e = e.settle (e.advance command) (e.body command) := by
  cases command with
  | operate op => cases op <;> rfl
  | push segment index => exact e.run_ofExcept _
  | pop segment index => exact e.run_ofExcept _
  | call name arguments => exact e.run_call name arguments
  | label name | goto name | ifGoto name | function name locals | ret => rfl

@[simp] theorem advance_annotate (e : Emitter) (command : Command) :
    (e.advance command).annotate = e.annotate := by
  cases command with
  | operate op => cases op <;> rfl
  | _ => rfl

theorem translate_eq_settle (e : Emitter) (command : Command) :
    e.translate command =
      e.settle (e.advance command) ((e.body command).map (e.annotated command.render)) := by
  unfold translate Translation.ofCommand
  rw [EStateM.run_bind, run_body]
  cases e.body command with
  | error cause => rfl
  | ok code =>
      show EStateM.Result.ok _ _ = EStateM.Result.ok _ _
      rw [annotated, annotated, advance_annotate]

theorem eq_of_translate_eq_error {e next : Emitter} {command : Command} {cause : Inexpressible}
    (h : e.translate command = .error cause next) : next = e := by
  rw [translate_eq_settle] at h
  cases hbody : e.body command with
  | error cause =>
      rw [hbody] at h
      cases h
      rfl
  | ok code =>
      rw [hbody] at h
      cases h

theorem emit_eq_map (e : Emitter) (command : Command) :
    e.emit command =
      (e.body command).map fun code =>
        (e.annotated command.render code, e.advance command) := by
  rw [emit, translate_eq_settle]
  cases e.body command <;> rfl

end Emitter
end HackVM
