import HackVM.Emitter.Translation
import HackVM.Listing

/-!
# Sessions

A session drives one emitter step by step.  It goes on after a step that fails, with the
emitter that the step leaves behind.
-/

namespace HackVM
namespace Session

inductive Step where
  | emit (command : Command)
  | line (text : String)
  | bootstrap
  | enterModule (name : String)
  | annotate (on : Bool)
deriving DecidableEq

inductive Failure where
  | unparsable (error : ParseError)
  | inexpressible (cause : Inexpressible)

inductive Answer where
  | code (code : Code)
  | done
  | failed (failure : Failure)

def emit (e : Emitter) (command : Command) : Answer × Emitter :=
  match e.translate command with
  | .ok code next => (.code code, next)
  | .error cause next => (.failed (.inexpressible cause), next)

def step (e : Emitter) : Step → Answer × Emitter
  | .emit command => emit e command
  | .line text =>
      match Command.parse 0 text with
      | .ok command => emit e command
      | .error error => (.failed (.unparsable error), e)
  | .bootstrap => (.code e.bootstrap.1, e.bootstrap.2)
  | .enterModule name => (.done, { e with module := name })
  | .annotate on => (.done, { e with annotate := on })

def run (e : Emitter) : List Step → List (Answer × Emitter)
  | [] => []
  | first :: rest => step e first :: run (step e first).2 rest

end Session
end HackVM
