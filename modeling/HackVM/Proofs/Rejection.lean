import HackVM.Proofs.Freshness

/-!
# Failed steps leave no trace

A step of a session that fails is answered with its error, and the session goes on as if it
had not been taken.  So the failed steps can be struck out of a session without any effect on
the others: neither on their answers and the numbers in their labels, nor on the module and
the function that the session has come to.
-/

namespace HackVM

/-!
## Last elements with a default

What is last in two lists put together is last in the second one, if that has any.
-/

theorem getD_getLast?_toList_append {α : Type} (first : Option α) (rest : List α)
    (fallback : α) :
    (first.toList ++ rest).getLast?.getD fallback =
      rest.getLast?.getD (first.getD fallback) := by
  rw [List.getLast?_append]
  cases rest.getLast? with
  | some last => rfl
  | none => cases first <;> rfl

theorem Emitter.function_advance (e : Emitter) (command : Command) :
    (e.advance command).function = command.functionName?.getD e.function := by
  cases command with
  | operate op => cases op <;> rfl
  | _ => rfl

namespace Session

/-!
## What a session has come to

The emitters between the steps tell the function and the module to which the session has
come.  The survivors are the steps that did not fail.
-/

def Answer.isFailed : Answer → Bool
  | .failed _ => true
  | .code _ | .done => false

def survivors (e : Emitter) (steps : List Step) : List Step :=
  ((steps.zip (run e steps)).filter fun met => !met.2.1.isFailed).map Prod.fst

def points (e : Emitter) (steps : List Step) : List Emitter :=
  e :: (run e steps).map Prod.snd

def Step.enteredModule? : Step → Option String
  | .enterModule name => some name
  | .emit _ | .line _ | .bootstrap | .annotate _ => none

def enteredFunctions (e : Emitter) (steps : List Step) : List String :=
  (accepted e steps).filterMap fun met => met.1.command?.bind Command.functionName?

/-!
## One step

A step fails and leaves the emitter alone, or it is accepted and changes at most what it is
meant to change.
-/

/-- Everything that can come of a step. -/
inductive Reaction (e : Emitter) : Step → Answer × Emitter → Prop where
  | failed {s : Step} (failure : Failure) (hmodule : s.enteredModule? = none) :
      Reaction e s (.failed failure, e)
  | emitted {s : Step} {command : Command} (code : Code) (hs : s.command? = some command)
      (hmodule : s.enteredModule? = none) : Reaction e s (.code code, e.advance command)
  | bootstrap : Reaction e .bootstrap (.code e.bootstrap.1, e.bootstrap.2)
  | enterModule (name : String) :
      Reaction e (.enterModule name) (.done, { e with module := name })
  | annotate (on : Bool) : Reaction e (.annotate on) (.done, { e with annotate := on })

theorem reaction_emit (e : Emitter) {s : Step} {command : Command}
    (hs : s.command? = some command) (hmodule : s.enteredModule? = none) :
    Reaction e s (emit e command) := by
  cases hbody : e.body command with
  | error cause =>
      rw [emit_of_error hbody]
      exact .failed _ hmodule
  | ok code =>
      rw [emit_of_ok hbody]
      exact .emitted _ hs hmodule

theorem reaction_step (e : Emitter) (s : Step) : Reaction e s (step e s) := by
  cases s with
  | emit command => exact reaction_emit e rfl rfl
  | line text =>
      cases hparse : Command.parse 0 text with
      | error error =>
          rw [step_line_error hparse]
          exact .failed _ rfl
      | ok command =>
          rw [step_line_ok hparse]
          exact reaction_emit e (Step.command?_line hparse) rfl
  | bootstrap => exact .bootstrap
  | enterModule name => exact .enterModule name
  | annotate on => exact .annotate on

namespace Reaction

variable {e : Emitter} {s : Step} {result : Answer × Emitter}

theorem eq_of_isFailed (h : Reaction e s result) (hfailed : result.1.isFailed = true) :
    result.2 = e := by
  cases h with
  | failed failure hmodule => rfl
  | emitted | bootstrap | enterModule | annotate => cases hfailed

theorem function_eq (h : Reaction e s result) :
    result.2.function =
      (result.1.code?.bind fun _ => s.command?.bind Command.functionName?).getD
        e.function := by
  cases h with
  | emitted code hs hmodule =>
      rw [Emitter.function_advance, hs]
      rfl
  | failed | bootstrap | enterModule | annotate => rfl

theorem module_eq (h : Reaction e s result) :
    result.2.module = s.enteredModule?.getD e.module := by
  cases h with
  | failed failure hmodule => rw [hmodule, Option.getD_none]
  | emitted code hs hmodule => rw [hmodule, Option.getD_none, Emitter.advance_module]
  | bootstrap | enterModule | annotate => rfl

end Reaction

/-!
## Whole sessions

The survivors of a session meet the same emitters as in the session itself.
-/

theorem survivors_cons (e : Emitter) (s : Step) (rest : List Step) :
    survivors e (s :: rest) =
      if (step e s).1.isFailed then survivors (step e s).2 rest
      else s :: survivors (step e s).2 rest := by
  unfold survivors
  rw [run, List.zip_cons_cons, List.filter_cons]
  cases (step e s).1.isFailed <;> rfl

theorem run_survivors (e : Emitter) (steps : List Step) :
    run e (survivors e steps) = (run e steps).filter fun met => !met.1.isFailed := by
  induction steps generalizing e with
  | nil => rfl
  | cons s rest ih =>
      rw [survivors_cons, run, List.filter_cons]
      cases hfailed : (step e s).1.isFailed with
      | true =>
          -- the rest goes on with the emitter from before
          have hsame := (reaction_step e s).eq_of_isFailed hfailed
          rw [if_pos rfl, hsame]
          exact ih e
      | false =>
          rw [if_neg Bool.false_ne_true, run, ih]
          rfl

theorem enteredFunctions_cons (e : Emitter) (s : Step) (rest : List Step) :
    enteredFunctions e (s :: rest) =
      ((step e s).1.code?.bind fun _ => s.command?.bind Command.functionName?).toList ++
        enteredFunctions (step e s).2 rest := by
  rw [enteredFunctions, accepted_cons, List.filterMap_append]
  congr 1
  cases (step e s).1.code? with
  | none => rfl
  | some code => cases hentered : s.command?.bind Command.functionName? <;> simp [hentered]

theorem function_of_mem_points {e point : Emitter} {steps : List Step} {i : Nat}
    (h : (points e steps)[i]? = some point) :
    point.function = (enteredFunctions e (steps.take i)).getLast?.getD e.function := by
  induction i generalizing e steps with
  | zero =>
      cases h
      rfl
  | succ i ih =>
      cases steps with
      | nil => cases h
      | cons s rest =>
          have hrest : (points (step e s).2 rest)[i]? = some point := h
          rw [ih hrest, List.take_succ_cons, enteredFunctions_cons,
            getD_getLast?_toList_append, (reaction_step e s).function_eq]

theorem module_of_mem_points {e point : Emitter} {steps : List Step} {i : Nat}
    (h : (points e steps)[i]? = some point) :
    point.module = ((steps.take i).filterMap Step.enteredModule?).getLast?.getD e.module := by
  induction i generalizing e steps with
  | zero =>
      cases h
      rfl
  | succ i ih =>
      cases steps with
      | nil => cases h
      | cons s rest =>
          have hrest : (points (step e s).2 rest)[i]? = some point := h
          have hentered : ((s :: rest).take (i + 1)).filterMap Step.enteredModule? =
              s.enteredModule?.toList ++ (rest.take i).filterMap Step.enteredModule? := by
            rw [List.take_succ_cons, List.filterMap_cons]
            cases s.enteredModule? <;> rfl
          rw [ih hrest, hentered, getD_getLast?_toList_append, (reaction_step e s).module_eq]

/--
A translation that halts leaves the emitter as it was.  So without its failed steps, a
session gives the same answers and goes through the same emitters as with them.  At every
point, its function is the one that the last accepted step of that kind entered, and its
module the last one that was set.
-/
theorem failed_steps_leave_no_trace (module : String) (steps : List Step) :
    (∀ e command cause next,
      Emitter.translate e command = .error cause next → next = e) ∧
    (∀ e, run e (survivors e steps) = (run e steps).filter fun met => !met.1.isFailed) ∧
    ∀ i point, (points (Emitter.start module) steps)[i]? = some point →
      point.function =
        (enteredFunctions (Emitter.start module) (steps.take i)).getLast?.getD "" ∧
      point.module = ((steps.take i).filterMap Step.enteredModule?).getLast?.getD module := by
  refine ⟨?_, ?_, ?_⟩
  · intro e command cause next hhalt
    exact Emitter.eq_of_translate_eq_error hhalt
  · intro e
    exact run_survivors e steps
  · intro i point hpoint
    exact ⟨function_of_mem_points hpoint, module_of_mem_points hpoint⟩

/-- A session with a step that is not a command, and with commands that have no code. -/
def stumbling : List Step :=
  [.line "function f 0", .emit (.call "g" 40000), .line "function 1 0",
    .emit (.pop .constant 0), .enterModule "Other", .emit (.operate (.compare .eq)),
    .line "call g 1"]

theorem stumbling_recovers :
    (∃ next, Emitter.translate (Emitter.start "Main") (.call "g" 40000) =
        .error (.tooManyArguments 40000) next ∧ next = Emitter.start "Main") ∧
    run (Emitter.start "Main") [.line "function f 0", .enterModule "Other",
        .emit (.operate (.compare .eq)), .line "call g 1"] =
      (run (Emitter.start "Main") stumbling).filter (fun met => !met.1.isFailed) ∧
    ∃ point, (points (Emitter.start "Main") stumbling)[5]? = some point ∧
      point.function = "f" ∧ point.module = "Other" := by
  rcases failed_steps_leave_no_trace "Main" stumbling with ⟨hhalt, hrun, hpoints⟩
  have hsurvivors : survivors (Emitter.start "Main") stumbling =
      [.line "function f 0", .enterModule "Other",
        .emit (.operate (.compare .eq)), .line "call g 1"] := by
    decide +kernel
  have hentered : enteredFunctions (Emitter.start "Main") (stumbling.take 5) = ["f"] := by
    decide +kernel
  have hsome : ((points (Emitter.start "Main") stumbling)[5]?).isSome = true := by
    decide +kernel
  rcases Option.isSome_iff_exists.mp hsome with ⟨point, hpoint⟩
  rcases hpoints 5 point hpoint with ⟨hfunction, hmodule⟩
  rw [hentered] at hfunction
  have hcall : Emitter.translate (Emitter.start "Main") (.call "g" 40000) =
      .error (.tooManyArguments 40000) (Emitter.start "Main") := rfl
  refine ⟨⟨_, hcall, hhalt _ _ _ _ hcall⟩, ?_, point, hpoint, hfunction, hmodule⟩
  rw [← hsurvivors]
  exact hrun _

end Session
end HackVM
