import HackVM.Proofs.LineByLine

/-!
# The first fault

Linking stops at the first thing that is wrong with a program.  A module is read as a whole
before any of its code is emitted, so a line that cannot be read comes before all commands of
its module that have no code.  What has been emitted by then is the whole of a smaller
program, the part in front of the fault.
-/

namespace HackVM

/-!
## Expressible commands

A command has code unless it pops a constant, goes beyond a segment, loads too large a
literal or calls with too many arguments.
-/

def Segment.reaches (segment : Segment) (index : Word) : Bool :=
  match segment with
  | .constant => false
  | .locals | .argument | .this | .that => index.toNat ≤ 32767
  | .static => true
  | .temp => index.toNat < 8
  | .pointer => index.toNat < 2

namespace Command

def isExpressible : Command → Bool
  | .push .constant value => value.toNat ≤ 32767
  | .push segment index | .pop segment index => segment.reaches index
  | .call _ arguments => arguments.toNat ≤ 32762
  | _ => true

/-- Why a command has no code. -/
inductive Flaw : Command → Inexpressible → Prop where
  | pushConstant {value : Word} :
      32767 < value.toNat → Flaw (.push .constant value) (.constantOutOfRange value)
  | popConstant (index : Word) : Flaw (.pop .constant index) .popConstant
  | push {segment : Segment} {index : Word} :
      segment ≠ .constant → segment.reaches index = false →
      Flaw (.push segment index) (.indexOutOfRange segment index)
  | pop {segment : Segment} {index : Word} :
      segment ≠ .constant → segment.reaches index = false →
      Flaw (.pop segment index) (.indexOutOfRange segment index)
  | call {name : String} {arguments : Word} :
      32762 < arguments.toNat → Flaw (.call name arguments) (.tooManyArguments arguments)

theorem isExpressible_push {segment : Segment} {index : Word} (h : segment ≠ .constant) :
    (Command.push segment index).isExpressible = segment.reaches index := by
  cases segment with
  | constant => exact absurd rfl h
  | _ => rfl

theorem isExpressible_or_flaw (command : Command) :
    command.isExpressible = true ∨ ∃ cause, command.Flaw cause := by
  cases command with
  | push segment index =>
      by_cases hconstant : segment = .constant
      · subst hconstant
        by_cases hvalue : index.toNat ≤ 32767
        · exact Or.inl (decide_eq_true hvalue)
        · exact Or.inr ⟨_, .pushConstant (by omega)⟩
      · cases hreaches : segment.reaches index with
        | true => exact Or.inl (by rw [isExpressible_push hconstant, hreaches])
        | false => exact Or.inr ⟨_, .push hconstant hreaches⟩
  | pop segment index =>
      by_cases hconstant : segment = .constant
      · subst hconstant
        exact Or.inr ⟨_, .popConstant index⟩
      · cases hreaches : segment.reaches index with
        | true => exact Or.inl hreaches
        | false => exact Or.inr ⟨_, .pop hconstant hreaches⟩
  | call name arguments =>
      by_cases harguments : arguments.toNat ≤ 32762
      · exact Or.inl (decide_eq_true harguments)
      · exact Or.inr ⟨_, .call (by omega)⟩
  | _ => exact Or.inl rfl

end Command

namespace Access

theorem find_of_reaches (module : String) {segment : Segment} {index : Word}
    (h : segment.reaches index = true) :
    ∃ access, find module segment index = .ok access := by
  cases segment with
  | constant => cases h
  | static => exact ⟨_, rfl⟩
  | locals | argument | this | that =>
      have hindex : index.toNat ≤ maxLiteral := of_decide_eq_true h
      simp [find, indexed?, hindex]
  | temp =>
      have hindex : index.toNat < 8 := of_decide_eq_true h
      simp [find, tempCell?, hindex, named?]
  | pointer =>
      have hindex : index.toNat < 2 := of_decide_eq_true h
      have hcases : index = 0 ∨ index = 1 := by
        bv_omega
      rcases hcases with rfl | rfl <;> exact ⟨_, rfl⟩

theorem find_of_not_reaches (module : String) {segment : Segment} {index : Word}
    (hconstant : segment ≠ .constant) (h : segment.reaches index = false) :
    find module segment index = .error (.indexOutOfRange segment index) := by
  cases segment with
  | constant => exact absurd rfl hconstant
  | static => cases h
  | locals | argument | this | that =>
      have hindex : ¬ index.toNat ≤ maxLiteral := of_decide_eq_false h
      simp [find, indexed?, hindex]
  | temp =>
      have hindex : ¬ index.toNat < 8 := of_decide_eq_false h
      simp [find, tempCell?, hindex, named?]
  | pointer =>
      have hindex : ¬ index.toNat < 2 := of_decide_eq_false h
      have hzero : index ≠ 0 := by
        rintro rfl
        exact hindex (by decide)
      have hone : index ≠ 1 := by
        rintro rfl
        exact hindex (by decide)
      have hnone : pointerCell? index = none := by
        rw [pointerCell?, if_neg hzero, if_neg hone]
      simp [find, hnone, named?]

end Access

namespace Emitter

/-! Whether a command has code, and why it has none, does not depend on the emitter. -/

theorem body_of_isExpressible (e : Emitter) {command : Command}
    (h : command.isExpressible = true) :
    ∃ code, e.body command = .ok code := by
  cases command with
  | operate op => cases op <;> exact ⟨_, rfl⟩
  | push segment index =>
      by_cases hconstant : segment = .constant
      · subst hconstant
        have hvalue : index.toNat ≤ maxLiteral := of_decide_eq_true h
        simp [body, pushCode, hvalue]
      · rw [Command.isExpressible_push hconstant] at h
        rcases Access.find_of_reaches e.module h with ⟨access, hfind⟩
        exact ⟨access.pushCode index, by simp [body, pushCode, hconstant, hfind, Except.map]⟩
  | pop segment index =>
      rcases Access.find_of_reaches e.module h with ⟨access, hfind⟩
      exact ⟨access.popCode index, by simp [body, popCode, hfind, Except.map]⟩
  | call name arguments =>
      have harguments : arguments.toNat ≤ maxArguments := of_decide_eq_true h
      simp [body, harguments]
  | _ => exact ⟨_, rfl⟩

theorem body_of_flaw (e : Emitter) {command : Command} {cause : Inexpressible}
    (h : command.Flaw cause) :
    e.body command = .error cause := by
  cases h with
  | pushConstant hvalue =>
      have hlarge : ¬ (_ : Nat) ≤ maxLiteral := Nat.not_le.mpr hvalue
      simp [body, pushCode, hlarge]
  | popConstant index => rfl
  | push hconstant hreaches =>
      simp [body, pushCode, hconstant, Access.find_of_not_reaches e.module hconstant hreaches,
        Except.map]
  | pop hconstant hreaches =>
      simp [body, popCode, Access.find_of_not_reaches e.module hconstant hreaches, Except.map]
  | call harguments =>
      have hlarge : ¬ (_ : Nat) ≤ maxArguments := Nat.not_le.mpr harguments
      simp [body, hlarge]

end Emitter

/-!
## Runs that succeed

A module is sound if its source can be read and every command in it has code.  Sound modules
are linked to the end.
-/

namespace Run

theorem andThen_of_ok {r : Run} {e : Emitter} (next : Emitter → Run) (h : r.outcome = .ok e) :
    (r.andThen next).code = r.code ++ (next e).code ∧
      (r.andThen next).outcome = (next e).outcome := by
  rcases r with ⟨code, log, outcome⟩
  cases h
  exact ⟨rfl, rfl⟩

theorem andThen_of_error {r : Run} {error : LinkError} (next : Emitter → Run)
    (h : r.outcome = .error error) :
    r.andThen next = r := by
  rcases r with ⟨code, log, outcome⟩
  cases h
  rfl

end Run

def Module.Sound (m : Module) : Prop :=
  ∃ listing, Listing.parse m.source = .ok listing ∧
    ∀ line ∈ listing, line.command.isExpressible = true

namespace Emitter

theorem runListing_ok {listing : Listing}
    (h : ∀ line ∈ listing, line.command.isExpressible = true) (module : String) (e : Emitter) :
    ∃ last, (runListing module listing e).outcome = .ok last := by
  induction listing generalizing e with
  | nil => exact ⟨e, rfl⟩
  | cons line rest ih =>
      rcases e.body_of_isExpressible (h line List.mem_cons_self) with ⟨code, hbody⟩
      have hline : (e.runCommand module line).outcome = .ok (e.advance line.command) := by
        simp [runCommand, emit_eq_map, hbody, Except.map]
      rw [runListing, (Run.andThen_of_ok _ hline).2]
      exact ih (fun other hother => h other (List.mem_cons_of_mem _ hother)) _

theorem runModule_ok {m : Module} (h : m.Sound) (e : Emitter) :
    ∃ last, (runModule m e).outcome = .ok last := by
  rcases h with ⟨listing, hparse, hlisting⟩
  rcases runListing_ok hlisting m.name { e with module := m.name } with ⟨last, hlast⟩
  refine ⟨last, ?_⟩
  rw [runModule, hparse]
  exact hlast

theorem runModules_ok {modules : List Module} (h : ∀ m ∈ modules, m.Sound) (e : Emitter) :
    ∃ last, (runModules modules e).outcome = .ok last := by
  induction modules generalizing e with
  | nil => exact ⟨e, rfl⟩
  | cons m rest ih =>
      rcases runModule_ok (h m List.mem_cons_self) e with ⟨middle, hmiddle⟩
      rw [runModules, (Run.andThen_of_ok _ hmiddle).2]
      exact ih (fun other hother => h other (List.mem_cons_of_mem _ hother)) middle

/-!
## Runs that stop

A run that is stopped has emitted exactly the code of the commands before the one that stops
it.  What stands behind does not matter.
-/

/-- A run emitted exactly the code of the given commands, and stopped with an error. -/
structure Stopped (e : Emitter) (commands : List (String × Command)) (run : Run)
    (error : LinkError) : Prop where
  code_eq : run.code = (e.blocks commands).flatten
  outcome_eq : run.outcome = .error error

theorem blocks_setModule (e : Emitter) (module : String) (commands : List (String × Command)) :
    blocks { e with module := module } commands = e.blocks commands := by
  rw [blocks, trace_setModule]
  rfl

theorem Stopped.andThen {e : Emitter} {commands : List (String × Command)} {r : Run}
    {error : LinkError} (h : e.Stopped commands r error) (next : Emitter → Run) :
    e.Stopped commands (r.andThen next) error := by
  rw [Run.andThen_of_error next h.outcome_eq]
  exact h

theorem Emitted.andThenStopped {e middle : Emitter} {first second : List (String × Command)}
    {r : Run} {next : Emitter → Run} {error : LinkError} (hfirst : e.Emitted first r middle)
    (hmiddle : r.outcome = .ok middle) (hsecond : middle.Stopped second (next middle) error) :
    e.Stopped (first ++ second) (r.andThen next) error := by
  rcases hfirst.last_eq with ⟨module, hlast⟩
  have hblocks : middle.blocks second = (e.through first).blocks second := by
    rw [hlast]
    exact blocks_setModule _ _ _
  rcases Run.andThen_of_ok next hmiddle with ⟨hcode, houtcome⟩
  constructor
  · rw [hcode, hfirst.code_eq, hsecond.code_eq, hblocks, blocks_append, List.flatten_append]
  · rw [houtcome, hsecond.outcome_eq]

theorem stopped_runCommand (e : Emitter) (module : String) {line : NumberedCommand}
    {cause : Inexpressible} (h : line.command.Flaw cause) :
    e.Stopped [] (e.runCommand module line) (.inexpressible module line cause) := by
  have hemit : e.emit line.command = .error cause := by
    rw [emit_eq_map, e.body_of_flaw h]
    rfl
  rw [runCommand, hemit]
  exact ⟨rfl, rfl⟩

theorem stopped_runListing {good : Listing}
    (hgood : ∀ line ∈ good, line.command.isExpressible = true) {line : NumberedCommand}
    {cause : Inexpressible} (hline : line.command.Flaw cause) (rest : Listing) (e : Emitter) :
    e.Stopped (good.map fun other => (e.module, other.command))
      (runListing e.module (good ++ line :: rest) e)
      (.inexpressible e.module line cause) := by
  rcases runListing_ok hgood e.module e with ⟨middle, hmiddle⟩
  have hstop : middle.Stopped [] (runListing e.module (line :: rest) middle)
      (.inexpressible e.module line cause) :=
    (middle.stopped_runCommand e.module hline).andThen (runListing e.module rest)
  rw [runListing_append]
  simpa using (emitted_runListing hmiddle).andThenStopped hmiddle hstop

theorem stopped_runModule_unparsable {m : Module} {error : ParseError}
    (h : Listing.parse m.source = .error error) (e : Emitter) :
    e.Stopped [] (runModule m e) (.unparsable m.name error) := by
  rw [runModule, h]
  exact ⟨rfl, rfl⟩

theorem stopped_runModule_inexpressible {m : Module} {good rest : Listing}
    {line : NumberedCommand} {cause : Inexpressible}
    (hparse : Listing.parse m.source = .ok (good ++ line :: rest))
    (hgood : ∀ other ∈ good, other.command.isExpressible = true)
    (hline : line.command.Flaw cause) (e : Emitter) :
    e.Stopped (good.map fun other => (m.name, other.command)) (runModule m e)
      (.inexpressible m.name line cause) := by
  have hlisting := stopped_runListing hgood hline rest { e with module := m.name }
  rw [runModule, hparse]
  constructor
  · have hcode := hlisting.code_eq
    rw [blocks_setModule] at hcode
    exact hcode
  · exact hlisting.outcome_eq

theorem stopped_runModules {before : List Module} (hbefore : ∀ m ∈ before, m.Sound)
    {m : Module} {commands : List (String × Command)} {error : LinkError}
    (hm : ∀ e : Emitter, e.Stopped commands (runModule m e) error) (after : List Module)
    (e : Emitter) :
    e.Stopped (Module.allCommands before ++ commands)
      (runModules (before ++ m :: after) e) error := by
  rcases runModules_ok hbefore e with ⟨middle, hmiddle⟩
  rw [runModules_append]
  exact (emitted_runModules hmiddle).andThenStopped hmiddle
    ((hm middle).andThen (runModules after))

end Emitter

/-!
## Programs

Linking is a run of the modules behind the start of the program.  Apart from its name, the
first module does not matter for the emitter with which it starts.
-/

namespace Module

theorem opener_eq (modules others : List Module) (options : Options) :
    ∃ module, opener modules options = { opener others options with module := module } := by
  unfold opener
  split <;> exact ⟨_, rfl⟩

theorem preamble_congr (modules others : List Module) (options : Options) :
    preamble modules options = preamble others options := rfl

theorem blocks_opener (modules others : List Module) (options : Options)
    (commands : List (String × Command)) :
    (opener modules options).blocks commands = (opener others options).blocks commands := by
  rcases opener_eq modules others options with ⟨module, hopener⟩
  rw [hopener, Emitter.blocks_setModule]

theorem link_eq_runModules (modules : List Module) (options : Options) :
    (link modules options).code =
        preamble modules options ++
          (Emitter.runModules modules (opener modules options)).code ∧
      (link modules options).outcome =
        (Emitter.runModules modules (opener modules options)).outcome := by
  unfold link preamble opener Emitter.runBootstrap
  cases options.bootstrap with
  | true => exact ⟨rfl, rfl⟩
  | false => exact ⟨rfl, rfl⟩

theorem link_of_sound {modules : List Module} (h : ∀ m ∈ modules, m.Sound)
    (options : Options) :
    (∃ last, (link modules options).outcome = .ok last) ∧ (link modules options).code =
      linkedCode modules options := by
  rcases Emitter.runModules_ok h (opener modules options) with ⟨last, hlast⟩
  have houtcome : (link modules options).outcome = .ok last := by
    rw [(link_eq_runModules modules options).2, hlast]
  exact ⟨⟨last, houtcome⟩, (link_ok houtcome).2⟩

theorem linkedLines_of_sound {modules : List Module} (h : ∀ m ∈ modules, m.Sound)
    (options : Options) :
    linkedLines modules options = .ok (linkedCode modules options).render := by
  rcases link_of_sound h options with ⟨⟨last, houtcome⟩, hcode⟩
  rw [linkedLines, houtcome, hcode]
  rfl

theorem link_of_stopped {modules : List Module} {commands : List (String × Command)}
    {error : LinkError}
    (h : ∀ e : Emitter, e.Stopped commands (Emitter.runModules modules e) error)
    (options : Options) :
    (link modules options).code = preamble modules options ++
      ((opener modules options).blocks commands).flatten ∧
      linkedLines modules options = .error error := by
  rcases link_eq_runModules modules options with ⟨hcode, houtcome⟩
  have hstopped := h (opener modules options)
  constructor
  · rw [hcode, hstopped.code_eq]
  · rw [linkedLines, houtcome, hstopped.outcome_eq]
    rfl

/-!
## The first fault of a program

The part of a program in front of its first fault is a program itself: the module with the
fault is cut before the line on which it stands.
-/

/-- The module with only those lines of its source that stand before the given one. -/
def cutBefore (m : Module) (number : Nat) : Module :=
  { m with source := String.ofList (Text.front (number - 1) m.source.toList) }

/--
The first thing that is wrong with a program, as it is reported, and the part of the program
in front of it.
-/
inductive FirstFault : List Module → LinkError → List Module → Prop where
  | unparsable {before after : List Module} {m : Module}
      {good rest : List (List Char)} {bad : List Char} :
      (∀ other ∈ before, other.Sound) →
      Text.lines m.source.toList = good ++ bad :: rest →
      (∀ line ∈ good, ¬ Text.Unreadable line) →
      Text.Unreadable bad →
      FirstFault (before ++ m :: after)
        (.unparsable m.name ⟨good.length + 1, String.ofList (Text.trim bad)⟩) before
  | inexpressible {before after : List Module} {m : Module}
      {good rest : Listing} {line : NumberedCommand}
      {cause : Inexpressible} :
      (∀ other ∈ before, other.Sound) →
      Listing.parse m.source = .ok (good ++ line :: rest) →
      (∀ other ∈ good, other.command.isExpressible = true) →
      line.command.Flaw cause →
      FirstFault (before ++ m :: after) (.inexpressible m.name line cause)
        (before ++ [m.cutBefore line.number])

theorem sound_cutBefore {m : Module} {good rest : Listing} {line : NumberedCommand}
    (hparse : Listing.parse m.source = .ok (good ++ line :: rest))
    (hgood : ∀ other ∈ good, other.command.isExpressible = true) :
    (m.cutBefore line.number).Sound :=
  ⟨good, Listing.parse_front hparse, hgood⟩

theorem commands_cutBefore {m : Module} {good rest : Listing} {line : NumberedCommand}
    (hparse : Listing.parse m.source = .ok (good ++ line :: rest)) :
    (m.cutBefore line.number).commands = good.map fun other => (m.name, other.command) := by
  have hfront : Listing.parse (m.cutBefore line.number).source = .ok good :=
    Listing.parse_front hparse
  rw [commands, hfront]
  rfl

theorem FirstFault.link_eq {modules front : List Module} {error : LinkError}
    (h : FirstFault modules error front) (options : Options) :
    linkedLines modules options = .error error ∧
      linkedLines front options = .ok (link modules options).code.render := by
  -- The commands that have been emitted are those of the part in front.
  have hstopped : (∀ m ∈ front, m.Sound) ∧
      ∀ e : Emitter, e.Stopped (allCommands front) (Emitter.runModules modules e) error := by
    cases h with
    | unparsable hbefore hlines hgood hbad =>
        refine ⟨hbefore, ?_⟩
        have hparse := Listing.parse_of_unreadable hlines hgood hbad
        have hmodule := Emitter.stopped_runModules hbefore
          (Emitter.stopped_runModule_unparsable hparse)
        simpa using hmodule _
    | @inexpressible before after m good rest line cause hbefore hparse hgood hline =>
        refine ⟨List.forall_mem_append.mpr ⟨hbefore, ?_⟩, ?_⟩
        · simpa using sound_cutBefore hparse hgood
        · have hcommands : allCommands (before ++ [m.cutBefore line.number]) =
              allCommands before ++ good.map fun other => (m.name, other.command) := by
            rw [allCommands, List.flatMap_append, List.flatMap_singleton,
              commands_cutBefore hparse]
            rfl
          rw [hcommands]
          exact Emitter.stopped_runModules hbefore
            (Emitter.stopped_runModule_inexpressible hparse hgood hline) after
  rcases link_of_stopped hstopped.2 options with ⟨hcode, herror⟩
  refine ⟨herror, ?_⟩
  rw [linkedLines_of_sound hstopped.1, hcode, linkedCode, blocks, blocks_opener front modules,
    preamble_congr front modules]

theorem exists_firstFault {modules : List Module} (h : ¬ ∀ m ∈ modules, m.Sound) :
    ∃ error front, FirstFault modules error front := by
  rcases exists_first_failing h with ⟨before, m, after, rfl, hbefore, hm⟩
  cases hparse : Listing.parse m.source with
  | error error =>
      rcases Listing.exists_unreadable_of_parse hparse with
        ⟨good, bad, rest, hlines, hgood, hbad⟩
      exact ⟨_, _, .unparsable hbefore hlines hgood hbad⟩
  | ok listing =>
      have hsome : ¬ ∀ line ∈ listing, line.command.isExpressible = true := fun hall =>
        hm ⟨listing, hparse, hall⟩
      rcases exists_first_failing hsome with ⟨good, line, rest, rfl, hgood, hline⟩
      rcases line.command.isExpressible_or_flaw with hexpressible | ⟨cause, hcause⟩
      · exact absurd hexpressible hline
      · exact ⟨_, _, .inexpressible hbefore hparse hgood hcause⟩

theorem sound_of_linkedLines {modules : List Module} {options : Options} {lines : List String}
    (h : linkedLines modules options = .ok lines) : ∀ m ∈ modules, m.Sound := by
  by_contra hsound
  rcases exists_firstFault hsound with ⟨error, front, hfault⟩
  rw [(hfault.link_eq options).1] at h
  cases h

theorem FirstFault.exists_source {modules front : List Module} {name : String}
    {line : NumberedCommand} {cause : Inexpressible}
    (h : FirstFault modules (.inexpressible name line cause) front) :
    (∃ m ∈ modules, m.name = name ∧ ∃ n text, line.number = n + 1 ∧
      (Text.lines m.source.toList)[n]? = some text ∧
      Command.read? (Text.clean text) = some line.command) ∧
    ∀ number, Command.parse number line.command.render = .ok line.command := by
  cases h with
  | @inexpressible before after m good rest _ _ hbefore hparse hgood hline =>
      have hmem : line ∈ good ++ line :: rest := by
        simp
      rcases Listing.exists_line_of_ofLines hparse line hmem with
        ⟨n, text, hnumber, htext, hread⟩
      refine ⟨⟨m, by simp, rfl, n, text, by omega, htext, hread⟩, ?_⟩
      exact Command.parse_render (Listing.wellNamed_of_ofLines hparse line hmem)

/--
A program links exactly if each of its modules can be read and has only commands with code,
whatever the options are.  Otherwise the error is the first fault, and the lines that were
handed on before it are those of the linked program in front of it.
-/
theorem link_reports_first_fault (modules : List Module) (options : Options) :
    ((∃ lines, linkedLines modules options = .ok lines) ↔ ∀ m ∈ modules, m.Sound) ∧
    (∀ error, linkedLines modules options = .error error ↔
      ∃ front, FirstFault modules error front) ∧
    (∀ error front, FirstFault modules error front →
      linkedLines front options = .ok (link modules options).code.render) ∧
    (∀ name line cause front, FirstFault modules (.inexpressible name line cause) front →
      (∃ m ∈ modules, m.name = name ∧ ∃ n text, line.number = n + 1 ∧
        (Text.lines m.source.toList)[n]? = some text ∧
          Command.read? (Text.clean text) = some line.command) ∧
      ∀ number, Command.parse number line.command.render = .ok line.command) := by
  by_cases hsound : ∀ m ∈ modules, m.Sound
  · have hok := linkedLines_of_sound hsound options
    have hnone : ∀ error front, ¬ FirstFault modules error front := by
      intro error front hfault
      rw [(hfault.link_eq options).1] at hok
      cases hok
    refine ⟨⟨fun _ => hsound, fun _ => ⟨_, hok⟩⟩, ?_, ?_,
      fun _ _ _ _ hfault => hfault.exists_source⟩
    · intro error
      rw [hok]
      constructor
      · intro h
        cases h
      · rintro ⟨front, hfault⟩
        exact absurd hfault (hnone error front)
    · intro error front hfault
      exact absurd hfault (hnone error front)
  · rcases exists_firstFault hsound with ⟨error, front, hfault⟩
    have herror := (hfault.link_eq options).1
    refine ⟨⟨?_, fun h => absurd h hsound⟩, ?_, ?_, fun _ _ _ _ hfault => hfault.exists_source⟩
    · rintro ⟨lines, hlines⟩
      rw [herror] at hlines
      cases hlines
    · intro other
      constructor
      · intro hother
        rw [herror] at hother
        cases hother
        exact ⟨front, hfault⟩
      · rintro ⟨otherFront, hother⟩
        exact (hother.link_eq options).1
    · intro other otherFront hother
      exact (hother.link_eq options).2

/--
A line that cannot be read, behind a command without code and in front of a module that is no
better.
-/
def misspelledModule : List Module :=
  [⟨"Main", "push static 1\n"⟩, ⟨"Late", "pop constant 0\n\nno command // here\n"⟩,
    ⟨"Last", "push temp 8\n"⟩]

/-- A command without code between others. -/
def overlongOffset : List Module :=
  [⟨"Main", "push static 1\n"⟩,
    ⟨"Late", "function f 1\r\n\npush static 1\neq\npush that 40000\npop constant 0\n"⟩]

theorem laterFaults_unreported :
    linkedLines misspelledModule ⟨true, false⟩ =
      .error (.unparsable "Late" ⟨3, "no command // here"⟩) ∧
    linkedLines [⟨"Main", "push static 1\n"⟩] ⟨true, false⟩ =
      .ok (link misspelledModule ⟨true, false⟩).code.render ∧
    linkedLines overlongOffset {} =
      .error (.inexpressible "Late" ⟨5, .push .that 40000⟩ (.indexOutOfRange .that 40000)) ∧
    linkedLines [⟨"Main", "push static 1\n"⟩,
      ⟨"Late", "function f 1\r\n\npush static 1\neq\n"⟩] {} =
      .ok (link overlongOffset {}).code.render := by
  have hmain : ∀ m ∈ [(⟨"Main", "push static 1\n"⟩ : Module)], m.Sound := by
    intro m hm
    rw [List.mem_singleton.mp hm]
    exact ⟨[⟨1, .push .static 1⟩], by decide +kernel, by decide⟩
  have hmisspelled : FirstFault misspelledModule (.unparsable "Late" ⟨3, "no command // here"⟩)
      [⟨"Main", "push static 1\n"⟩] := by
    have hfault := @FirstFault.unparsable [⟨"Main", "push static 1\n"⟩]
      [⟨"Last", "push temp 8\n"⟩]
      ⟨"Late", "pop constant 0\n\nno command // here\n"⟩ ["pop constant 0".toList, []] []
      "no command // here".toList hmain (by decide +kernel)
        (by decide +kernel) (by decide +kernel)
    have htext : String.ofList (Text.trim "no command // here".toList) =
        "no command // here" := by
      decide +kernel
    rw [htext] at hfault
    exact hfault
  have hoverlong : FirstFault overlongOffset
      (.inexpressible "Late" ⟨5, .push .that 40000⟩ (.indexOutOfRange .that 40000))
      [⟨"Main", "push static 1\n"⟩, ⟨"Late", "function f 1\r\n\npush static 1\neq\n"⟩] := by
    have hfault := @FirstFault.inexpressible [⟨"Main", "push static 1\n"⟩] []
      ⟨"Late", "function f 1\r\n\npush static 1\neq\npush that 40000\npop constant 0\n"⟩
      [⟨1, .function "f" 1⟩, ⟨3, .push .static 1⟩, ⟨4, .operate (.compare .eq)⟩]
        [⟨6, .pop .constant 0⟩]
      ⟨5, .push .that 40000⟩ (.indexOutOfRange .that 40000) hmain
        (by decide +kernel) (by decide)
      (.push (by decide) (by decide))
    have hcut : (⟨"Late",
      "function f 1\r\n\npush static 1\neq\npush that 40000\npop constant 0\n"⟩ :
        Module).cutBefore 5 = ⟨"Late", "function f 1\r\n\npush static 1\neq\n"⟩ := by
      decide +kernel
    rw [hcut] at hfault
    exact hfault
  have hfirst := link_reports_first_fault misspelledModule ⟨true, false⟩
  have hsecond := link_reports_first_fault overlongOffset {}
  exact ⟨(hfirst.2.1 _).mpr ⟨_, hmisspelled⟩, hfirst.2.2.1 _ _ hmisspelled,
    (hsecond.2.1 _).mpr ⟨_, hoverlong⟩, hsecond.2.2.1 _ _ hoverlong⟩

end Module
end HackVM
