import HackVM.Assembly.Spelling
import HackVM.Emitter.Translation
import HackVM.Log

/-!
# Linking

Several modules are linked into one program by a single emitter, which carries its numbering
and its function scope from each module to the next.  A module is read as a whole before any
of its code is emitted.
-/

namespace HackVM

/-- A named source text. The name scopes the static cells. -/
structure Module where
  name : String
  source : String
deriving DecidableEq

structure Options where
  bootstrap : Bool := false
  annotate : Bool := true
deriving DecidableEq

inductive LinkError where
  | unparsable (module : String) (error : ParseError)
  | inexpressible (module : String) (line : NumberedCommand) (cause : Inexpressible)
deriving DecidableEq

namespace LinkError

def cause : LinkError → String
  | .unparsable _ error => error.message
  | .inexpressible _ _ cause => cause.message

def message : LinkError → String
  | .unparsable module error => module ++ ": " ++ error.message
  | .inexpressible module line cause =>
      module ++ ": line " ++ Nat.repr line.number ++ ": `" ++
        line.command.render ++ "`: " ++ cause.message

end LinkError

/-!
## Runs

A run keeps everything that was emitted and reported up to its end, also when it ends with an
error.
-/

structure Run where
  code : Code := []
  log : List Event := []
  outcome : Except LinkError Emitter

namespace Run

def done (e : Emitter) : Run :=
  { outcome := .ok e }

/-- Goes on with the emitter that a run ends with. A run that failed stays as it is. -/
def andThen (r : Run) (next : Emitter → Run) : Run :=
  match r.outcome with
  | .error _ => r
  | .ok e =>
      let rest := next e
      { code := r.code ++ rest.code, log := r.log ++ rest.log, outcome := rest.outcome }

theorem andThen_assoc (r : Run) (f g : Emitter → Run) :
    (r.andThen f).andThen g = r.andThen fun e => (f e).andThen g := by
  rcases r with ⟨code, log, outcome⟩
  cases outcome with
  | error _ => rfl
  | ok e =>
      simp only [andThen]
      cases hf : (f e).outcome with
      | error _ => simp [hf]
      | ok e' => simp [List.append_assoc]

end Run

/-!
## The linker

A module is entered under its own name, and each of its commands is reported before its code
is emitted.
-/

namespace Emitter

def runCommand (e : Emitter) (module : String) (line : NumberedCommand) : Run :=
  match e.emit line.command with
  | .ok (code, next) => { code := code, log := [.emitting module line], outcome := .ok next }
  | .error cause =>
      { log := [.emitting module line], outcome := .error (.inexpressible module line cause) }

def runListing (module : String) : Listing → Emitter → Run
  | [], e => .done e
  | line :: rest, e => (e.runCommand module line).andThen (runListing module rest)

def runModule (m : Module) (e : Emitter) : Run :=
  match Listing.parse m.source with
  | .error error => { outcome := .error (.unparsable m.name error) }
  | .ok listing =>
      let start : Run :=
        { log := [.parsed m.name listing.length], outcome := .ok { e with module := m.name } }
      start.andThen (runListing m.name listing)

def runModules : List Module → Emitter → Run
  | [], e => .done e
  | m :: rest, e => (runModule m e).andThen (runModules rest)

/-!
A listing, or a list of modules, can be cut anywhere: the second part goes on where the first
one ends.
-/

theorem runListing_append (module : String) (first second : Listing) (e : Emitter) :
    runListing module (first ++ second) e =
      (runListing module first e).andThen (runListing module second) := by
  induction first generalizing e with
  | nil => rfl
  | cons line rest ih =>
      show (e.runCommand module line).andThen (runListing module (rest ++ second)) = _
      rw [funext ih]
      exact (Run.andThen_assoc _ _ _).symm

theorem runModules_append (first second : List Module) (e : Emitter) :
    runModules (first ++ second) e = (runModules first e).andThen (runModules second) := by
  induction first generalizing e with
  | nil => rfl
  | cons m rest ih =>
      show (runModule m e).andThen (runModules (rest ++ second)) = _
      rw [funext ih]
      exact (Run.andThen_assoc _ _ _).symm

def runBootstrap (on : Bool) (e : Emitter) : Run :=
  if on then { code := e.bootstrap.1, outcome := .ok e.bootstrap.2 } else .done e

end Emitter

namespace Module

/--
The emitter that a program starts with.  Before the first module is entered, it bears that
module's name.
-/
def starter (modules : List Module) (options : Options) : Emitter :=
  { Emitter.start ((modules.head?.map Module.name).getD "") with annotate := options.annotate }

def link (modules : List Module) (options : Options) : Run :=
  let start : Run :=
    { log := [.linking modules.length options.bootstrap]
      outcome := .ok (starter modules options) }
  (start.andThen (Emitter.runBootstrap options.bootstrap)).andThen (Emitter.runModules modules)

def linkedLines (modules : List Module) (options : Options) : Except LinkError (List String) :=
  let run := link modules options
  run.outcome.map fun _ => run.code.render

end Module
end HackVM
