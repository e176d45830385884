import HackVM.Linking.Basic
import HackVM.Proofs.Results
import HackVM.Proofs.Translation

/-!
# Linked programs, command by command

A linked program is a sequence of commands, each of which stands in a module and in the scope
of a function.  The scope is the name of the last function before the command, also across
modules.  The linker emits the code of one command after the other, each with the emitter
that the commands before it left behind.
-/

namespace HackVM

/-- A command with the module and the function it stands in. -/
structure Placed where
  module : String
  scope : String
  command : Command
deriving DecidableEq

def Placed.scopeAfter (p : Placed) : String :=
  match p.command with
  | .function name _ => name
  | _ => p.scope

abbrev Program := List Placed

def Module.commands (m : Module) : List (String × Command) :=
  match Listing.parse m.source with
  | .ok listing => listing.map fun line => (m.name, line.command)
  | .error _ => []

namespace Program

def place : String → List (String × Command) → Program
  | _, [] => []
  | scope, (module, command) :: rest =>
      ⟨module, scope, command⟩ :: place (Placed.scopeAfter ⟨module, scope, command⟩) rest

def ofModules (modules : List Module) : Program :=
  place "" (modules.flatMap Module.commands)

end Program

/-!
## The emitters along a program

Every command meets the emitter that the commands before it have left behind.  The scope in
which it is placed is the function of that emitter.
-/

namespace Emitter

def trace : Emitter → List (String × Command) → List (Emitter × Command)
  | _, [] => []
  | e, (module, command) :: rest =>
      ({ e with module := module }, command) :: trace
        ({ e with module := module }.advance command) rest

def through : Emitter → List (String × Command) → Emitter
  | e, [] => e
  | e, (module, command) :: rest => through ({ e with module := module }.advance command) rest

def codeOf (e : Emitter) (command : Command) : Code :=
  match e.emit command with
  | .ok (code, _) => code
  | .error _ => []

def blocks (e : Emitter) (commands : List (String × Command)) : List Code :=
  (e.trace commands).map fun met => met.1.codeOf met.2

def Accepts (e : Emitter) (commands : List (String × Command)) : Prop :=
  ∀ met ∈ e.trace commands, ∃ code, met.1.body met.2 = .ok code

theorem trace_setModule (e : Emitter) (module : String) (commands : List (String × Command)) :
    trace { e with module := module } commands = trace e commands := by
  cases commands <;> rfl

theorem trace_append (e : Emitter) (first second : List (String × Command)) :
    e.trace (first ++ second) = e.trace first ++ (e.through first).trace second := by
  induction first generalizing e with
  | nil => rfl
  | cons pair rest ih =>
      show (_, pair.2) :: trace _ (rest ++ second) = _
      rw [ih]
      rfl

theorem through_append (e : Emitter) (first second : List (String × Command)) :
    e.through (first ++ second) = (e.through first).through second := by
  induction first generalizing e with
  | nil => rfl
  | cons pair rest ih => exact ih _

@[simp] theorem advance_module (e : Emitter) (command : Command) :
    (e.advance command).module = e.module := by
  unfold advance
  split <;> rfl

theorem scopeAfter_eq (e : Emitter) (module : String) (command : Command) :
    Placed.scopeAfter ⟨module, e.function, command⟩ =
      ({ e with module := module }.advance command).function := by
  unfold Placed.scopeAfter advance
  cases command with
  | operate op => cases op <;> rfl
  | _ => rfl

theorem place_eq_trace (e : Emitter) (commands : List (String × Command)) :
    Program.place e.function commands =
      (e.trace commands).map fun met => ⟨met.1.module, met.1.function, met.2⟩ := by
  induction commands generalizing e with
  | nil => rfl
  | cons pair rest ih =>
      rw [Program.place, trace, List.map_cons, scopeAfter_eq, ih]

/-!
## What the linker does

A run emits the code of its commands, one after the other, each with the emitter that it
meets.
-/

theorem emit_eq_ok {e next : Emitter} {command : Command} {code : Code}
    (h : e.emit command = .ok (code, next)) :
    (∃ body, e.body command = .ok body ∧ code = e.annotated command.render body) ∧
      next = e.advance command := by
  rw [emit_eq_map] at h
  cases hbody : e.body command with
  | error cause =>
      rw [hbody] at h
      cases h
  | ok body =>
      rw [hbody] at h
      cases h
      exact ⟨⟨body, rfl, rfl⟩, rfl⟩

theorem codeOf_eq {e : Emitter} {command : Command} {body : Code}
    (h : e.body command = .ok body) :
    e.codeOf command = e.annotated command.render body := by
  rw [codeOf, emit_eq_map, h]
  rfl

end Emitter

theorem Run.andThen_ok {r : Run} {next : Emitter → Run} {last : Emitter}
    (h : (r.andThen next).outcome = .ok last) :
    ∃ middle, r.outcome = .ok middle ∧ (next middle).outcome = .ok last ∧
      (r.andThen next).code = r.code ++ (next middle).code := by
  rcases r with ⟨code, log, outcome⟩
  cases outcome with
  | error error => cases h
  | ok middle => exact ⟨middle, rfl, h, rfl⟩

namespace Emitter

/--
A run emitted exactly the code of the given commands, all of them expressible, and ended with
the emitter after them.  The module of that emitter is left open, since a module without
commands changes nothing else.
-/
structure Emitted (e : Emitter) (commands : List (String × Command)) (run : Run)
    (last : Emitter) : Prop where
  accepts : e.Accepts commands
  code_eq : run.code = (e.blocks commands).flatten
  last_eq : ∃ module, last = { e.through commands with module := module }

theorem accepts_append {e : Emitter} {first second : List (String × Command)}
    (hfirst : e.Accepts first) (hsecond : (e.through first).Accepts second) :
    e.Accepts (first ++ second) := by
  intro met hmet
  rw [trace_append] at hmet
  rcases List.mem_append.mp hmet with hmet | hmet
  · exact hfirst met hmet
  · exact hsecond met hmet

theorem blocks_append (e : Emitter) (first second : List (String × Command)) :
    e.blocks (first ++ second) = e.blocks first ++ (e.through first).blocks second := by
  rw [blocks, trace_append, List.map_append]
  rfl

theorem through_setModule (e : Emitter) (module : String)
    (commands : List (String × Command)) :
    ∃ other, through { e with module := module } commands =
      { through e commands with module := other } := by
  cases commands with
  | nil => exact ⟨module, rfl⟩
  | cons pair rest => exact ⟨_, rfl⟩

theorem Emitted.andThen {e middle last : Emitter} {first second : List (String × Command)}
    {r : Run} {next : Emitter → Run} (hfirst : e.Emitted first r middle)
    (hsecond : middle.Emitted second (next middle) last)
    (hcode : (r.andThen next).code = r.code ++ (next middle).code) :
    e.Emitted (first ++ second) (r.andThen next) last := by
  rcases hfirst.last_eq with ⟨module, hmiddle⟩
  refine ⟨accepts_append hfirst.accepts ?_, ?_, ?_⟩
  · have haccepts := hsecond.accepts
    rw [hmiddle] at haccepts
    intro met hmet
    apply haccepts
    rw [trace_setModule]
    exact hmet
  · have hblocks : middle.blocks second = (e.through first).blocks second := by
      rw [hmiddle, blocks, trace_setModule]
      rfl
    rw [hcode, hfirst.code_eq, hsecond.code_eq, hblocks, blocks_append, List.flatten_append]
  · rcases hsecond.last_eq with ⟨other, hlast⟩
    rw [hmiddle] at hlast
    rcases through_setModule (e.through first) module second with ⟨another, hthrough⟩
    rw [hthrough] at hlast
    rw [through_append]
    exact ⟨other, hlast⟩

theorem emitted_done (e : Emitter) : e.Emitted [] (.done e) e := by
  refine ⟨?_, rfl, ⟨e.module, rfl⟩⟩
  intro met hmet
  cases hmet

theorem emitted_runCommand {e last : Emitter} {line : NumberedCommand}
    (h : (e.runCommand e.module line).outcome = .ok last) :
    e.Emitted [(e.module, line.command)] (e.runCommand e.module line) last := by
  unfold runCommand at h ⊢
  cases hemit : e.emit line.command with
  | error cause =>
      rw [hemit] at h
      cases h
  | ok result =>
      rcases result with ⟨code, next⟩
      rw [hemit] at h
      cases h
      rcases emit_eq_ok hemit with ⟨⟨body, hbody, hcode⟩, hnext⟩
      refine ⟨?_, ?_, ⟨(e.advance line.command).module, hnext⟩⟩
      · intro met hmet
        rw [trace, trace, List.mem_singleton] at hmet
        subst hmet
        exact ⟨body, hbody⟩
      · simp [blocks, trace, codeOf_eq hbody, hcode]

theorem module_of_runCommand {e last : Emitter} {module : String} {line : NumberedCommand}
    (h : (e.runCommand module line).outcome = .ok last) : last.module = e.module := by
  unfold runCommand at h
  cases hemit : e.emit line.command with
  | error cause =>
      rw [hemit] at h
      cases h
  | ok result =>
      rw [hemit] at h
      cases h
      rw [(emit_eq_ok hemit).2, advance_module]

theorem emitted_runListing {e last : Emitter} {listing : Listing}
    (h : (runListing e.module listing e).outcome = .ok last) :
    e.Emitted (listing.map fun line => (e.module, line.command))
      (runListing e.module listing e) last := by
  induction listing generalizing e with
  | nil =>
      cases h
      exact emitted_done _
  | cons line rest ih =>
      rcases Run.andThen_ok h with ⟨middle, hline, hrest, hcode⟩
      have hmodule := module_of_runCommand hline
      rw [← hmodule] at hrest
      have hemitted := ih hrest
      rw [hmodule] at hemitted
      exact (emitted_runCommand hline).andThen hemitted hcode

theorem emitted_runModule {e last : Emitter} {m : Module}
    (h : (runModule m e).outcome = .ok last) :
    e.Emitted m.commands (runModule m e) last := by
  unfold runModule at h ⊢
  unfold Module.commands
  cases hparse : Listing.parse m.source with
  | error error =>
      rw [hparse] at h
      cases h
  | ok listing =>
      rw [hparse] at h
      simp only at h ⊢
      rcases Run.andThen_ok h with ⟨middle, hmiddle, hlisting, hcode⟩
      cases hmiddle
      have hlist := emitted_runListing (e := { e with module := m.name }) hlisting
      refine ⟨?_, ?_, ?_⟩
      · intro met hmet
        apply hlist.accepts
        rw [trace_setModule]
        exact hmet
      · rw [hcode, hlist.code_eq, blocks, trace_setModule]
        rfl
      · rcases hlist.last_eq with ⟨module, hlast⟩
        rcases through_setModule e m.name (listing.map fun line => (m.name, line.command)) with
          ⟨other, hthrough⟩
        rw [hthrough] at hlast
        exact ⟨module, hlast⟩

theorem emitted_runModules {e last : Emitter} {modules : List Module}
    (h : (runModules modules e).outcome = .ok last) :
    e.Emitted (modules.flatMap Module.commands) (runModules modules e) last := by
  induction modules generalizing e with
  | nil =>
      cases h
      exact emitted_done _
  | cons m rest ih =>
      rcases Run.andThen_ok h with ⟨middle, hmodule, hrest, hcode⟩
      rw [List.flatMap_cons]
      exact (emitted_runModule hmodule).andThen (ih hrest) hcode

end Emitter

/-!
## Linked code

The code of a program stands behind that of its start, command by command.
-/

namespace Module

def allCommands (modules : List Module) : List (String × Command) :=
  modules.flatMap commands

def preamble (modules : List Module) (options : Options) : Code :=
  if options.bootstrap then (starter modules options).bootstrap.1 else []

def opener (modules : List Module) (options : Options) : Emitter :=
  if options.bootstrap then (starter modules options).bootstrap.2 else starter modules options

def blocks (modules : List Module) (options : Options) : List Code :=
  (opener modules options).blocks (allCommands modules)

def linkedCode (modules : List Module) (options : Options) : Code :=
  preamble modules options ++ (blocks modules options).flatten

theorem link_ok {modules : List Module} {options : Options} {last : Emitter}
    (h : (link modules options).outcome = .ok last) :
    (opener modules options).Accepts (allCommands modules) ∧
      (link modules options).code = linkedCode modules options := by
  unfold link at h ⊢
  simp only at h ⊢
  rcases Run.andThen_ok h with ⟨middle, hstart, hmodules, hcode⟩
  have hmiddle : middle = opener modules options ∧
      (({ log := [.linking modules.length options.bootstrap]
          outcome := .ok (starter modules options) } : Run).andThen
        (Emitter.runBootstrap options.bootstrap)).code = preamble modules options := by
    unfold Run.andThen Emitter.runBootstrap at hstart ⊢
    unfold opener preamble
    cases hboot : options.bootstrap with
    | true =>
        rw [hboot] at hstart
        cases hstart
        exact ⟨rfl, rfl⟩
    | false =>
        rw [hboot] at hstart
        cases hstart
        exact ⟨rfl, rfl⟩
  rw [hmiddle.1] at hmodules hcode
  have hemitted := Emitter.emitted_runModules hmodules
  refine ⟨hemitted.accepts, ?_⟩
  rw [hcode, hmiddle.2, hemitted.code_eq]
  rfl

theorem linkedLines_ok {modules : List Module} {options : Options} {lines : List String}
    (h : linkedLines modules options = .ok lines) :
    (opener modules options).Accepts (allCommands modules) ∧
      lines = (linkedCode modules options).render := by
  unfold linkedLines at h
  simp only at h
  cases hlink : (link modules options).outcome with
  | error error =>
      rw [hlink] at h
      cases h
  | ok last =>
      rw [hlink] at h
      cases h
      rcases link_ok hlink with ⟨haccepts, hcode⟩
      exact ⟨haccepts, by rw [hcode]⟩

end Module
end HackVM
