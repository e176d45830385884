import HackVM.Proofs.Collisions
import HackVM.Proofs.Faults

/-!
# Linking in parts

The code of a command depends on the commands before it only through the numbers that have
been given to comparisons and call sites, and through the function whose scope it stands in.
So a program can be linked in two parts: the second one is what it is when it is linked
alone, with the numbers of its generated labels raised, as long as its own labels do not
stand in a scope that the first part has opened.
-/

namespace HackVM

/-!
## Raising numbers

The name of a generated label ends in its number.  When the number is raised, all other
characters of a line are kept, and all other lines as a whole.
-/

/-- How many comparisons and call sites have been numbered before. -/
structure Shift where
  comparisons : Nat
  callSites : Nat
deriving DecidableEq

namespace Symbol

def raise (shift : Shift) : Symbol → Symbol
  | .holds number => .holds (number + shift.comparisons)
  | .compared number => .compared (number + shift.comparisons)
  | .returned function number => .returned function (number + shift.callSites)
  | symbol => symbol

def raised? (shift : Shift) : Symbol → Option (Nat × Nat)
  | .holds number | .compared number => some (number, shift.comparisons)
  | .returned _ number => some (number, shift.callSites)
  | _ => none

end Symbol

namespace Item

def raise (shift : Shift) : Item → Item
  | .label symbol => .label (symbol.raise shift)
  | .refer symbol => .refer (symbol.raise shift)
  | item => item

def raised? (shift : Shift) : Item → Option (Nat × Nat)
  | .label symbol | .refer symbol => symbol.raised? shift
  | _ => none

end Item

theorem Symbol.name_raise (shift : Shift) (symbol : Symbol) :
    (symbol.raised? shift = none → symbol.raise shift = symbol) ∧
    ∀ number amount, symbol.raised? shift = some (number, amount) →
      ∃ lead, symbol.name = lead ++ Nat.repr number ∧
        (symbol.raise shift).name = lead ++ Nat.repr (number + amount) := by
  constructor
  · intro h
    cases symbol with
    | holds | compared | returned => cases h
    | _ => rfl
  · intro number amount h
    cases symbol with
    | holds | compared | returned =>
        cases h
        exact ⟨_, rfl, rfl⟩
    | _ => cases h

theorem Item.render_raise (shift : Shift) (item : Item) :
    (item.raised? shift = none → (item.raise shift).render = item.render) ∧
    ∀ number amount, item.raised? shift = some (number, amount) →
      ∃ lead tail, item.render = lead ++ Nat.repr number ++ tail ∧
        (item.raise shift).render = lead ++ Nat.repr (number + amount) ++ tail := by
  constructor
  · intro h
    cases item with
    | label symbol | refer symbol => rw [raise, (symbol.name_raise shift).1 h]
    | _ => rfl
  · intro number amount h
    cases item with
    | label symbol =>
        rcases (symbol.name_raise shift).2 number amount h with ⟨lead, hname, hraised⟩
        refine ⟨"(" ++ lead, ")", ?_, ?_⟩
        · rw [render, hname, ← String.append_assoc]
        · rw [raise, render, hraised, ← String.append_assoc]
    | refer symbol =>
        rcases (symbol.name_raise shift).2 number amount h with ⟨lead, hname, hraised⟩
        refine ⟨"@" ++ lead, "", ?_, ?_⟩
        · rw [render, hname, ← String.append_assoc, String.append_empty]
        · rw [raise, render, hraised, ← String.append_assoc, String.append_empty]
    | _ => cases h

namespace Code

def raise (shift : Shift) (code : Code) : Code :=
  code.map (Item.raise shift)

theorem raise_flatten (shift : Shift) (blocks : List Code) :
    raise shift blocks.flatten = (blocks.map (raise shift)).flatten :=
  List.map_flatten

theorem raise_function (shift : Shift) (name : String) (locals : Word) :
    raise shift (function name locals) = function name locals := by
  have hzeros : ∀ count, raise shift (List.replicate count
      [Item.cell .sp, Item.assign .m (.inc .m), Item.assign .a (.dec .m),
        Item.assign .m .zero]).flatten =
      (List.replicate count
        [Item.cell .sp, Item.assign .m (.inc .m), Item.assign .a (.dec .m),
          Item.assign .m .zero]).flatten := by
    intro count
    rw [raise_flatten, List.map_replicate]
    rfl
  exact congrArg (Item.label (.entry name) :: ·) (hzeros locals.toNat)

end Code

/-!
## Emitters that started later

An emitter that has numbered more comparisons and call sites emits the same code with the
numbers raised.
-/

namespace Emitter

def raise (shift : Shift) (e : Emitter) : Emitter :=
  { e with
    comparisons := e.comparisons + shift.comparisons
    callSites := e.callSites + shift.callSites }

theorem raise_access {e : Emitter} {segment : Segment} {index : Word} {access : Access}
    (shift : Shift) (h : Access.find e.module segment index = .ok access) :
    (access.pushCode index).raise shift = access.pushCode index ∧
      (access.popCode index).raise shift = access.popCode index := by
  rcases Access.find_cases h with
    ⟨-, rfl⟩ | ⟨-, ⟨r, rfl⟩ | ⟨-, base, rfl⟩⟩ <;> exact ⟨rfl, rfl⟩

theorem body_raise (shift : Shift) (e : Emitter) (command : Command) :
    (e.raise shift).body command = (e.body command).map (Code.raise shift) := by
  cases command with
  | operate op =>
      cases op with
      | unary op | binary op => cases op <;> rfl
      | compare op =>
          show Except.ok (Code.compare op (e.comparisons + shift.comparisons + 1)) = _
          rw [Nat.add_right_comm]
          rfl
  | push segment index =>
      show e.pushCode segment index = (e.pushCode segment index).map _
      cases hcode : e.pushCode segment index with
      | error cause => rfl
      | ok code =>
          rcases pushCode_cases hcode with ⟨-, -, rfl⟩ | ⟨-, access, hfind, rfl⟩
          · rfl
          · exact congrArg Except.ok (raise_access shift hfind).1.symm
  | pop segment index =>
      show e.popCode segment index = (e.popCode segment index).map _
      cases hcode : e.popCode segment index with
      | error cause => rfl
      | ok code =>
          rcases popCode_cases hcode with ⟨access, hfind, rfl⟩
          exact congrArg Except.ok (raise_access shift hfind).2.symm
  | function name locals =>
      exact congrArg Except.ok (Code.raise_function shift name locals).symm
  | call name arguments =>
      simp only [body]
      split
      · show Except.ok (Code.call name arguments (e.callSites + shift.callSites + 1)) = _
        rw [Nat.add_right_comm]
        rfl
      · rfl
  | label name | goto name | ifGoto name | ret => rfl

theorem advance_raise (shift : Shift) (e : Emitter) (command : Command) :
    (e.raise shift).advance command = (e.advance command).raise shift := by
  cases command with
  | operate op =>
      cases op with
      | unary op | binary op => rfl
      | compare op => simp only [advance, raise, Nat.add_right_comm]
  | call name arguments => simp only [advance, raise, Nat.add_right_comm]
  | _ => rfl

theorem codeOf_raise (shift : Shift) (e : Emitter) (command : Command) :
    (e.raise shift).codeOf command = (e.codeOf command).raise shift := by
  rw [codeOf, codeOf, emit_eq_map, emit_eq_map, body_raise]
  cases e.body command with
  | error cause => rfl
  | ok code =>
      show annotated e command.render (code.raise shift) = Code.raise shift
        (annotated e command.render code)
      rw [annotated, annotated]
      split <;> rfl

theorem trace_raise (shift : Shift) (e : Emitter) (commands : List (String × Command)) :
    (e.raise shift).trace commands = (e.trace commands).map fun met =>
      (met.1.raise shift, met.2) := by
  induction commands generalizing e with
  | nil => rfl
  | cons pair rest ih =>
      have hadvance := advance_raise shift { e with module := pair.1 } pair.2
      rw [trace, trace, List.map_cons, ← ih, ← hadvance]
      rfl

theorem blocks_raise (shift : Shift) (e : Emitter) (commands : List (String × Command)) :
    (e.raise shift).blocks commands = (e.blocks commands).map (Code.raise shift) := by
  rw [blocks, blocks, trace_raise, List.map_map, List.map_map]
  apply List.map_congr_left
  intro met hmet
  exact codeOf_raise shift met.1 met.2

end Emitter

/-!
## Emitters in another scope

If no label stands in front of the first function, the scope at the start does not matter.
-/

def Command.usesScope : Command → Bool
  | .label _ | .goto _ | .ifGoto _ => true
  | _ => false

/-- Every label is defined or used behind a function of the program itself. -/
def Program.SelfScoped (program : Program) : Prop :=
  ∀ i p, program[i]? = some p → p.command.usesScope = true →
    ∃ q ∈ program.take i, q.command.functionName?.isSome = true

instance (program : Program) : Decidable program.SelfScoped :=
  decidable_of_iff
    (∀ i : Fin program.length, program[i].command.usesScope = true →
      ∃ q ∈ program.take i, q.command.functionName?.isSome = true)
    (by
      constructor
      · intro h i p hp
        rcases List.getElem?_eq_some_iff.mp hp with ⟨hi, rfl⟩
        exact h ⟨i, hi⟩
      · intro h i
        exact h i _ (List.getElem?_eq_getElem i.isLt))

namespace Emitter

def within (scope : String) (e : Emitter) : Emitter :=
  { e with function := scope }

theorem codeOf_within (scope : String) (e : Emitter) {command : Command}
    (h : command.usesScope = false) :
    (e.within scope).codeOf command = e.codeOf command := by
  have hbody : (e.within scope).body command = e.body command := by
    cases command with
    | operate op => cases op <;> rfl
    | label | goto | ifGoto => cases h
    | _ => rfl
  rw [codeOf, codeOf, emit_eq_map, emit_eq_map, hbody]
  cases e.body command <;> rfl

theorem advance_within (scope : String) (e : Emitter) {command : Command}
    (h : command.functionName? = none) :
    (e.within scope).advance command = (e.advance command).within scope := by
  cases command with
  | operate op => cases op <;> rfl
  | function => cases h
  | _ => rfl

end Emitter

theorem Program.SelfScoped.tail {p : Placed} {rest : Program} (h : SelfScoped (p :: rest))
    (hp : p.command.functionName? = none) : SelfScoped rest := by
  intro i q hq huses
  rcases h (i + 1) q hq huses with ⟨r, hr, hfunction⟩
  rw [List.take_succ_cons, List.mem_cons] at hr
  rcases hr with rfl | hr
  · rw [hp] at hfunction
    cases hfunction
  · exact ⟨r, hr, hfunction⟩

theorem Emitter.blocks_within (scope : String) {e : Emitter}
    {commands : List (String × Command)} (h : (Program.place e.function commands).SelfScoped) :
    (e.within scope).blocks commands = e.blocks commands := by
  induction commands generalizing e with
  | nil => rfl
  | cons pair rest ih =>
      rcases pair with ⟨module, command⟩
      have huses : command.usesScope = false := by
        rw [Bool.eq_false_iff]
        intro huses
        rcases h 0 _ rfl huses with ⟨q, hq, -⟩
        cases hq
      have hhead := codeOf_within scope { e with module := module } huses
      have hrest :
        ((({ e with module := module } : Emitter).within scope).advance command).blocks rest =
          (({ e with module := module } : Emitter).advance command).blocks rest := by
        cases hname : command.functionName? with
        | some name =>
            rcases Command.functionName?_eq_some_iff.mp hname with ⟨locals, rfl⟩
            rfl
        | none =>
            rw [advance_within _ _ hname]
            apply ih
            rw [← scopeAfter_eq]
            exact h.tail hname
      exact congrArg₂ List.cons hhead hrest

/-!
## What the first part leaves behind

Commands leave behind the numbers they were given and the last function.  The start of a
program takes a number as well.
-/

namespace Emitter

theorem through_eq (e : Emitter) (commands : List (String × Command)) :
    ∃ module scope,
      e.through commands =
        { (e.raise ⟨(Program.place e.function commands).comparisons,
            (Program.place e.function commands).callees.length⟩).within scope with
              module := module } ∧
      ((Program.place e.function commands).functionNames = [] → scope = e.function) := by
  induction commands generalizing e with
  | nil => exact ⟨e.module, e.function, rfl, fun _ => rfl⟩
  | cons pair rest ih =>
      rcases pair with ⟨module, command⟩
      rcases ih ({ e with module := module }.advance command) with
        ⟨last, scope, hthrough, hscope⟩
      rw [← scopeAfter_eq] at hthrough hscope
      refine ⟨last, scope, ?_, ?_⟩
      · rw [through, hthrough]
        cases command with
        | operate op =>
            cases op with
            | unary op | binary op => rfl
            | compare op =>
                have hcount :
                  (Program.place e.function
                  ((module, .operate (.compare op)) :: rest)).comparisons =
                    (Program.place e.function rest).comparisons + 1 :=
                      List.countP_cons_of_pos rfl
                rw [hcount, Nat.add_comm _ 1]
                simp only [raise, within, ← Nat.add_assoc]
                rfl
        | call name arguments =>
            have hcount :
              (Program.place e.function
              ((module, .call name arguments) :: rest)).callees.length =
                (Program.place e.function rest).callees.length + 1 := rfl
            rw [hcount, Nat.add_comm _ 1]
            simp only [raise, within, ← Nat.add_assoc]
            rfl
        | _ => rfl
      · intro hnames
        cases command with
        | function name locals => cases hnames
        | operate op => cases op <;> exact hscope hnames
        | _ => exact hscope hnames

end Emitter

namespace Module

/--
The numbers that a program gives to its comparisons and call sites.  The start of a program
takes one as well.
-/
def numbersOf (modules : List Module) (bootstrap : Bool) : Shift where
  comparisons := (Program.ofModules modules).comparisons
  callSites := (Program.ofModules modules).callees.length + if bootstrap then 1 else 0

variable {first second : List Module}

theorem function_opener (modules : List Module) (options : Options) :
    (opener modules options).function = "" := by
  unfold opener
  split <;> rfl

theorem through_opener (first second : List Module) (bootstrap annotate : Bool) :
    ∃ module scope,
      (opener first ⟨bootstrap, annotate⟩).through (allCommands first) =
        { ((opener second ⟨false, annotate⟩).raise
            (numbersOf first bootstrap)).within scope with
          module := module } ∧
      ((Program.ofModules first).functionNames = [] → scope = "") := by
  have hprogram : Program.place "" (allCommands first) = Program.ofModules first := rfl
  rcases (opener first ⟨bootstrap, annotate⟩).through_eq (allCommands first) with
    ⟨module, scope, hthrough, hscope⟩
  rw [function_opener, hprogram] at hthrough hscope
  refine ⟨module, scope, ?_, hscope⟩
  rw [hthrough]
  cases bootstrap with
  | false => rfl
  | true =>
      simp only [Emitter.raise, Emitter.within, numbersOf, if_true, Nat.add_comm _ 1]
      simp [opener, starter, Emitter.start, Emitter.bootstrap, Emitter.nextCallSite]

theorem blocks_through (bootstrap annotate : Bool)
    (h : (Program.ofModules first).functionNames = [] ∨
      (Program.ofModules second).SelfScoped) :
    ((opener first ⟨bootstrap, annotate⟩).through (allCommands first)).blocks
      (allCommands second) =
      (blocks second ⟨false, annotate⟩).map (Code.raise (numbersOf first bootstrap)) := by
  rcases through_opener first second bootstrap annotate with ⟨module, scope, hthrough, hscope⟩
  rw [hthrough, Emitter.blocks_setModule, blocks, ← Emitter.blocks_raise]
  rcases h with hnames | hscoped
  · rw [hscope hnames]
    rfl
  · exact Emitter.blocks_within scope hscoped

theorem linkedCode_append (bootstrap annotate : Bool)
    (h : (Program.ofModules first).functionNames = [] ∨
      (Program.ofModules second).SelfScoped) :
    linkedCode (first ++ second) ⟨bootstrap, annotate⟩ =
      linkedCode first ⟨bootstrap, annotate⟩ ++
        (linkedCode second ⟨false, annotate⟩).raise (numbersOf first bootstrap) := by
  have hcommands : allCommands (first ++ second) = allCommands first ++ allCommands second :=
    List.flatMap_append
  have hsecond : linkedCode second ⟨false, annotate⟩ =
    (blocks second ⟨false, annotate⟩).flatten := rfl
  rw [hsecond, Code.raise_flatten, ← blocks_through bootstrap annotate h, linkedCode,
    linkedCode, blocks, blocks, hcommands, preamble_congr (first ++ second) first,
    blocks_opener (first ++ second) first, Emitter.blocks_append,
    List.flatten_append, List.append_assoc]

theorem linkedLines_append {bootstrap annotate : Bool} {lines : List String}
    (hfirst : linkedLines first ⟨bootstrap, annotate⟩ = .ok lines)
    (hsecond : ∀ m ∈ second, m.Sound)
    (h : (Program.ofModules first).functionNames = [] ∨
      (Program.ofModules second).SelfScoped) :
    linkedLines (first ++ second) ⟨bootstrap, annotate⟩ =
      .ok (lines ++
        ((link second ⟨false, annotate⟩).code.raise (numbersOf first bootstrap)).render) := by
  have hsound : ∀ m ∈ first ++ second, m.Sound :=
    List.forall_mem_append.mpr ⟨sound_of_linkedLines hfirst, hsecond⟩
  have hlines : lines = (linkedCode first ⟨bootstrap, annotate⟩).render :=
    (linkedLines_ok hfirst).2
  rw [linkedLines_of_sound hsound, linkedCode_append bootstrap annotate h,
    (link_of_sound hsecond _).2, hlines]
  exact congrArg Except.ok List.map_append

/--
Linking two parts together gives the lines of the first part, and behind them those of the
second part with the numbers of its generated labels raised by the numbers that the first
part has given.  It is enough that the first part opens no scope, or that the second part
uses none before it opens one.  Of every raised line only the number changes.  So the start
of a program only goes in front, and takes the first number of a call site.
-/
theorem parts_link_with_raised_numbers {bootstrap annotate : Bool} {lines own : List String}
    (hfirst : linkedLines first ⟨bootstrap, annotate⟩ = .ok lines)
    (hsecond : linkedLines second ⟨false, annotate⟩ = .ok own)
    (h : (Program.ofModules first).functionNames = [] ∨
      (Program.ofModules second).SelfScoped) :
    (link second ⟨false, annotate⟩).code.render = own ∧
    linkedLines (first ++ second) ⟨bootstrap, annotate⟩ =
      .ok (lines ++
        ((link second ⟨false, annotate⟩).code.raise (numbersOf first bootstrap)).render) ∧
    (∀ item ∈ (link second ⟨false, annotate⟩).code,
      (item.raised? (numbersOf first bootstrap) = none →
        (item.raise (numbersOf first bootstrap)).render = item.render) ∧
      ∀ number amount, item.raised? (numbersOf first bootstrap) = some (number, amount) →
        ∃ lead tail, item.render = lead ++ Nat.repr number ++ tail ∧
          (item.raise (numbersOf first bootstrap)).render =
            lead ++ Nat.repr (number + amount) ++ tail) ∧
    ∃ init, linkedLines [] ⟨true, annotate⟩ = .ok init ∧
      linkedLines second ⟨true, annotate⟩ =
        .ok (init ++ ((link second ⟨false, annotate⟩).code.raise ⟨0, 1⟩).render) := by
  have hsound : ∀ m ∈ second, m.Sound := sound_of_linkedLines hsecond
  refine ⟨?_, linkedLines_append hfirst hsound h, fun item _ => item.render_raise _, ?_⟩
  · rw [(link_of_sound hsound _).2, (linkedLines_ok hsecond).2]
  · have hinit := linkedLines_of_sound (List.forall_mem_nil Sound) ⟨true, annotate⟩
    have hnames : (Program.ofModules []).functionNames = [] := rfl
    have hnumbers : numbersOf [] true = ⟨0, 1⟩ := rfl
    have hlines := linkedLines_append hinit hsound (Or.inl hnames)
    rw [List.nil_append, hnumbers] at hlines
    exact ⟨_, hinit, hlines⟩

/-- A comparison and a call within a function. -/
def callingPart : List Module :=
  [⟨"Main", "function f 0\neq\ncall g 0\n"⟩]

/-- A part with a function whose name reads like a generated label. -/
def lookalikePart : List Module :=
  [⟨"Lib", "gt\nfunction CMP$TRUE.1 0\nlabel g\ngoto g\ncall f 0\n"⟩]

theorem lookalikePart_raised :
    ∃ lines own, linkedLines callingPart ⟨true, false⟩ = .ok lines ∧
      linkedLines lookalikePart ⟨false, false⟩ = .ok own ∧
      (link lookalikePart ⟨false, false⟩).code.render = own ∧
      linkedLines (callingPart ++ lookalikePart) ⟨true, false⟩ =
        .ok (lines ++ ((link lookalikePart ⟨false, false⟩).code.raise ⟨1, 2⟩).render) ∧
      ["(CMP$TRUE.1)", "(f$ret.1)"] ⊆ own ∧
      ["(CMP$TRUE.2)", "(CMP$TRUE.1)", "(CMP$TRUE.1.g)", "(f$ret.3)"] ⊆
        ((link lookalikePart ⟨false, false⟩).code.raise ⟨1, 2⟩).render := by
  have hfirst : (linkedLines callingPart ⟨true, false⟩).isOk = true := by
    decide +kernel
  have hsecond : (linkedLines lookalikePart ⟨false, false⟩).isOk = true := by
    decide +kernel
  rcases exists_of_isOk hfirst with ⟨lines, hlines⟩
  rcases exists_of_isOk hsecond with ⟨own, hown⟩
  have hscoped : (Program.ofModules lookalikePart).SelfScoped := by
    decide +kernel
  have hnumbers : numbersOf callingPart true = ⟨1, 2⟩ := by
    decide +kernel
  rcases parts_link_with_raised_numbers hlines hown (Or.inr hscoped) with ⟨hcode, hjoint, -⟩
  rw [hnumbers] at hjoint
  have hownLabels : ["(CMP$TRUE.1)", "(f$ret.1)"] ⊆
      (link lookalikePart ⟨false, false⟩).code.render := by
    decide +kernel
  have hraisedLabels : ["(CMP$TRUE.2)", "(CMP$TRUE.1)", "(CMP$TRUE.1.g)", "(f$ret.3)"] ⊆
      ((link lookalikePart ⟨false, false⟩).code.raise ⟨1, 2⟩).render := by
    decide +kernel
  rw [hcode] at hownLabels
  exact ⟨lines, own, hlines, hown, hcode, hjoint, hownLabels, hraisedLabels⟩

end Module
end HackVM
