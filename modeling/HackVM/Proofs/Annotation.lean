import HackVM.Proofs.Acceptance
import HackVM.Proofs.Typesetting

/-!
# Annotations

An emitter that annotates puts a comment in front of the code of each command.  Otherwise it
does what an emitter does that does not annotate: taking the comments out of a program that
was linked with them gives the program that is linked without them, both fail with the same
errors, and both assemble to the same image.
-/

namespace HackVM

/-!
## Comments in code

Bare code is code without its comments.
-/

def Item.comment? : Item → Option String
  | .comment text => some text
  | _ => none

namespace Code

def comments (code : Code) : List String :=
  code.filterMap Item.comment?

def bare (code : Code) : Code :=
  code.filter fun item => item.comment?.isNone

theorem comments_append (first second : Code) :
    comments (first ++ second) = comments first ++ comments second :=
  List.filterMap_append

theorem bare_append (first second : Code) :
    bare (first ++ second) = bare first ++ bare second :=
  List.filter_append first second

theorem bare_of_comments {code : Code} (h : code.comments = []) : code.bare = code := by
  rw [comments, List.filterMap_eq_nil_iff] at h
  rw [bare, List.filter_eq_self]
  intro item hitem
  rw [h item hitem]
  rfl

theorem comments_function (name : String) (locals : Word) :
    (function name locals).comments = [] := by
  have hzeros : ∀ n, comments (List.replicate n
      [Item.cell .sp, Item.assign .m (.inc .m), Item.assign .a (.dec .m),
        Item.assign .m .zero]).flatten = [] := by
    intro n
    rw [comments, List.filterMap_flatten, List.map_replicate]
    simp [Item.comment?, Item.cell, Item.assign]
  exact hzeros locals.toNat

end Code

/-!
## Comments among lines

A line is a comment exactly if its item is one, so the comments can be taken out of the lines
as well.
-/

def isCommentLine (line : String) : Bool :=
  line.toList.take 2 = ['/', '/']

theorem Item.isCommentLine_render (item : Item) :
    isCommentLine item.render = item.comment?.isSome := by
  cases item with
  | compute dest comp jump =>
      rcases exists_cons_of_compute dest comp jump with ⟨c, rest, htext, hslash, -⟩
      simp [isCommentLine, htext, comment?, hslash]
  | _ => simp [isCommentLine, render, comment?]

namespace Code

theorem render_bare (code : Code) :
    code.bare.render = code.render.filter fun line => !isCommentLine line := by
  rw [render, render, bare, List.filter_map]
  congr 2
  funext item
  simp [Item.isCommentLine_render]

theorem filter_isCommentLine (code : Code) :
    code.render.filter isCommentLine = code.comments.map ("// " ++ ·) := by
  induction code with
  | nil => rfl
  | cons item code ih =>
      have hline := item.isCommentLine_render
      show (item.render :: render code).filter isCommentLine = _
      cases item with
      | comment text =>
          rw [List.filter_cons_of_pos (by rw [hline]; rfl), ih]
          rfl
      | _ =>
          rw [List.filter_cons_of_neg (by rw [hline]; exact Bool.false_ne_true), ih]
          rfl

end Code

/-!
## Emitters and runs without comments

Whatever happens when a program is linked with comments happens without them too: code,
emitter and outcome differ in nothing but the comments.
-/

namespace Emitter

def bare (e : Emitter) : Emitter :=
  { e with annotate := false }

theorem comments_body {e : Emitter} {command : Command} {code : Code}
    (h : e.body command = .ok code) :
    code.comments = [] := by
  cases command with
  | operate op =>
      cases op <;>
        · cases h
          rfl
  | push segment index =>
      rcases pushCode_cases h with ⟨-, -, rfl⟩ | ⟨-, access, -, rfl⟩
      · rfl
      · cases access <;> rfl
  | pop segment index =>
      rcases popCode_cases h with ⟨access, -, rfl⟩
      cases access <;> rfl
  | function name locals =>
      cases h
      exact Code.comments_function name locals
  | call name arguments =>
      simp only [body] at h
      split at h
      · cases h
        rfl
      · cases h
  | label name | goto name | ifGoto name | ret =>
      cases h
      rfl

theorem body_bare (e : Emitter) (command : Command) :
    e.bare.body command = e.body command := by
  cases command with
  | operate op => cases op <;> rfl
  | _ => rfl

theorem advance_bare (e : Emitter) (command : Command) :
    e.bare.advance command = (e.advance command).bare := by
  cases command with
  | operate op => cases op <;> rfl
  | _ => rfl

theorem annotated_bare (e : Emitter) (text : String) {code : Code} (h : code.comments = []) :
    e.bare.annotated text code = (e.annotated text code).bare := by
  have hbare : e.bare.annotated text code = code := rfl
  rw [hbare, annotated]
  split <;> exact (Code.bare_of_comments h).symm

theorem emit_bare (e : Emitter) (command : Command) :
    e.bare.emit command = (e.emit command).map fun result =>
      (result.1.bare, result.2.bare) := by
  rw [emit_eq_map, emit_eq_map, body_bare]
  cases hbody : e.body command with
  | error cause => rfl
  | ok code =>
      show Except.ok (_, _) = Except.ok (_, _)
      rw [annotated_bare e _ (comments_body hbody), advance_bare]

theorem bootstrap_bare (e : Emitter) :
    e.bare.bootstrap = (e.bootstrap.1.bare, e.bootstrap.2.bare) := by
  rw [bootstrap, bootstrap]
  exact Prod.ext (annotated_bare e _ rfl) rfl

end Emitter

namespace Run

def bare (r : Run) : Run :=
  { code := r.code.bare, log := r.log, outcome := r.outcome.map Emitter.bare }

theorem bare_andThen (r : Run) {next : Emitter → Run} (h : ∀ e, (next e).bare = next e.bare) :
    (r.andThen next).bare = r.bare.andThen next := by
  rcases r with ⟨code, log, outcome⟩
  cases outcome with
  | error error => rfl
  | ok e =>
      show _ = Run.mk (code.bare ++ (next e.bare).code)
        (log ++ (next e.bare).log) (next e.bare).outcome
      rw [← h e]
      simp [andThen, bare, Code.bare_append]

end Run

namespace Emitter

theorem bare_runCommand (e : Emitter) (module : String) (line : NumberedCommand) :
    (e.runCommand module line).bare = e.bare.runCommand module line := by
  rw [runCommand, runCommand, emit_bare]
  cases e.emit line.command with
  | error cause => rfl
  | ok result => rfl

theorem bare_runListing (module : String) (listing : Listing) (e : Emitter) :
    (runListing module listing e).bare = runListing module listing e.bare := by
  induction listing generalizing e with
  | nil => rfl
  | cons line rest ih => rw [runListing, runListing, Run.bare_andThen _ ih, bare_runCommand]

theorem bare_runModule (m : Module) (e : Emitter) :
    (runModule m e).bare = runModule m e.bare := by
  rw [runModule, runModule]
  cases Listing.parse m.source with
  | error error => rfl
  | ok listing => exact Run.bare_andThen _ (bare_runListing m.name listing)

theorem bare_runModules (modules : List Module) (e : Emitter) :
    (runModules modules e).bare = runModules modules e.bare := by
  induction modules generalizing e with
  | nil => rfl
  | cons m rest ih => rw [runModules, runModules, Run.bare_andThen _ ih, bare_runModule]

theorem bare_runBootstrap (on : Bool) (e : Emitter) :
    (runBootstrap on e).bare = runBootstrap on e.bare := by
  cases on with
  | false => rfl
  | true =>
      show Run.mk e.bootstrap.1.bare [] (.ok e.bootstrap.2.bare) = Run.mk e.bare.bootstrap.1
        [] (.ok e.bare.bootstrap.2)
      rw [bootstrap_bare]

end Emitter

namespace Module

theorem bare_link (modules : List Module) (bootstrap : Bool) :
    (link modules ⟨bootstrap, true⟩).bare = link modules ⟨bootstrap, false⟩ := by
  rw [link, link, Run.bare_andThen _ (Emitter.bare_runModules modules),
    Run.bare_andThen _ (Emitter.bare_runBootstrap bootstrap)]
  rfl

theorem linkedLines_bare (modules : List Module) (bootstrap : Bool) :
    linkedLines modules ⟨bootstrap, false⟩ =
      (linkedLines modules ⟨bootstrap, true⟩).map
        (·.filter fun line => !isCommentLine line) := by
  rw [linkedLines, linkedLines, ← bare_link]
  show Except.map _ ((link modules ⟨bootstrap, true⟩).outcome.map Emitter.bare) = _
  cases (link modules ⟨bootstrap, true⟩).outcome with
  | error error => rfl
  | ok last => exact congrArg Except.ok (Code.render_bare _)

end Module

/-!
## The comments of a program

The commands of all modules stand in the comments, in their order, behind one that marks the
start of the program.
-/

namespace Emitter

theorem annotate_of_mem_trace {e : Emitter} {commands : List (String × Command)}
    {met : Emitter × Command} (h : met ∈ e.trace commands) : met.1.annotate = e.annotate := by
  induction commands generalizing e with
  | nil => cases h
  | cons pair rest ih =>
      rcases List.mem_cons.mp h with rfl | h
      · rfl
      · rw [ih h]
        cases pair.2 with
        | operate op => cases op <;> rfl
        | _ => rfl

theorem map_snd_trace (e : Emitter) (commands : List (String × Command)) :
    (e.trace commands).map Prod.snd = commands.map Prod.snd := by
  induction commands generalizing e with
  | nil => rfl
  | cons pair rest ih => rw [trace, List.map_cons, List.map_cons, ih]

theorem comments_annotated {e : Emitter} (he : e.annotate = true) (text : String) {code : Code}
    (h : code.comments = []) : (e.annotated text code).comments = [text] := by
  rw [annotated, if_pos he]
  exact congrArg (text :: ·) h

end Emitter

namespace Module

theorem comments_linkedCode {modules : List Module} {options : Options}
    (hannotate : options.annotate = true)
    (haccepts : (opener modules options).Accepts (allCommands modules)) :
    (linkedCode modules options).comments =
      (if options.bootstrap then ["bootstrap"] else []) ++
        (allCommands modules).map fun pair => pair.2.render := by
  have hstarter : (starter modules options).annotate = true := hannotate
  have hopener : (opener modules options).annotate = true := by
    unfold opener
    split <;> exact hannotate
  have hpreamble : (preamble modules options).comments = if options.bootstrap then
      ["bootstrap"] else [] := by
    unfold preamble
    split
    · exact Emitter.comments_annotated hstarter _ rfl
    · rfl
  have hblock : ∀ met ∈ (opener modules options).trace (allCommands modules),
      (met.1.codeOf met.2).comments = [met.2.render] := by
    intro met hmet
    rcases haccepts met hmet with ⟨body, hbody⟩
    rw [Emitter.codeOf_eq hbody]
    exact Emitter.comments_annotated (by rw [Emitter.annotate_of_mem_trace hmet, hopener]) _
      (Emitter.comments_body hbody)
  have hblocks : (blocks modules options).flatten.filterMap Item.comment? =
      (allCommands modules).map fun pair => pair.2.render := by
    calc (blocks modules options).flatten.filterMap Item.comment?
        = (((opener modules options).trace (allCommands modules)).map fun met =>
            (met.1.codeOf met.2).comments).flatten := by
          rw [List.filterMap_flatten, blocks, Emitter.blocks, List.map_map]
          rfl
      _ = (((opener modules options).trace (allCommands modules)).map Prod.snd).map
            Command.render := by
          rw [List.map_congr_left hblock, List.map_map, ← List.flatMap_def]
          exact List.map_eq_flatMap.symm
      _ = (allCommands modules).map fun pair => pair.2.render := by
          rw [Emitter.map_snd_trace, List.map_map]
          rfl
  rw [linkedCode, Code.comments_append, hpreamble]
  exact congrArg _ hblocks

end Module

/-!
## Assembling without comments

Comments make no difference to the assembler, whatever the other lines are.
-/

theorem Statement.read_of_isCommentLine {line : String} (h : isCommentLine line = true) :
    read line = .blank := by
  have htext : line.toList = '/' :: '/' :: line.toList.drop 2 := by
    conv => lhs; rw [← List.take_append_drop 2 line.toList, of_decide_eq_true h]
    rfl
  rw [read, htext, Text.clean_of_comment]
  rfl

theorem LabelPass.run_filter_blank (p : LabelPass) (ss : List Statement) :
    p.run (ss.filter fun s => s ≠ .blank) = p.run ss := by
  induction ss generalizing p with
  | nil => rfl
  | cons s rest ih =>
      by_cases hs : s = .blank
      · rw [List.filter_cons_of_neg (by simp [hs]), ih, hs]
        rfl
      · rw [List.filter_cons_of_pos (by simp [hs]), run, run]
        cases p.step s with
        | error error => rfl
        | ok next => exact ih next

theorem Image.run_filter_blank (image : Image) (ss : List Statement) :
    image.run (ss.filter fun s => s ≠ .blank) = image.run ss := by
  induction ss generalizing image with
  | nil => rfl
  | cons s rest ih =>
      by_cases hs : s = .blank
      · rw [List.filter_cons_of_neg (by simp [hs]), ih, hs]
        rfl
      · rw [List.filter_cons_of_pos (by simp [hs]), run, run]
        cases image.step s with
        | error error => rfl
        | ok next => exact ih next

theorem Image.assemble_filter_comments (lines : List String) :
    assemble (lines.filter fun line => !isCommentLine line) = assemble lines := by
  have hstatements : ((lines.filter fun line => !isCommentLine line).map Statement.read).filter
    (fun s => s ≠ .blank) =
      (lines.map Statement.read).filter fun s => s ≠ .blank := by
    induction lines with
    | nil => rfl
    | cons line rest ih =>
        cases hline : isCommentLine line with
        | true =>
            have hblank : Statement.read line = .blank := Statement.read_of_isCommentLine hline
            rw [List.filter_cons_of_neg (by simp [hline]), List.map_cons,
              List.filter_cons_of_neg (by simp [hblank]), ih]
        | false =>
            rw [List.filter_cons_of_pos (by simp [hline]), List.map_cons, List.map_cons,
              List.filter_cons, List.filter_cons, ih]
  rw [assemble, assemble, ← LabelPass.run_filter_blank, hstatements,
    LabelPass.run_filter_blank]
  cases LabelPass.run {} (lines.map Statement.read) with
  | error error => rfl
  | ok labels =>
      show run { symbols := labels.symbols } _ = run { symbols := labels.symbols } _
      rw [← run_filter_blank, hstatements, run_filter_blank]

/--
The command that stands behind the two slashes and the space of a comment, if one stands
there.
-/
def Command.ofComment? (number : Nat) (line : String) : Option Command :=
  (Command.parse number (String.ofList (line.toList.drop 3))).toOption

theorem Command.ofComment?_bootstrap (number : Nat) :
    ofComment? number "// bootstrap" = none := by
  have hread : read? (String.ofList ("// bootstrap".toList.drop 3)).toList = none := by
    decide +kernel
  rw [ofComment?, parse, hread]
  rfl

theorem Command.ofComment?_render {command : Command} (h : command.WellNamed) (number : Nat) :
    ofComment? number ("// " ++ command.render) = some command := by
  have htext : String.ofList (("// " ++ command.render).toList.drop 3) = command.render := by
    simp
  rw [ofComment?, htext, parse_render h]
  rfl

/--
Linking with and without comments fails with the same errors, and the lines of a program
without comments are those of the program with comments that do not begin with two slashes.
The comments are the commands of all modules, in the canonical form from which they can be
read back, behind one that marks the start of the program.  The assembler takes both alike,
so that the machine does the same with both.
-/
theorem Module.annotation_adds_only_comments (modules : List Module) (bootstrap : Bool) :
    linkedLines modules ⟨bootstrap, false⟩ =
      (linkedLines modules ⟨bootstrap, true⟩).map (·.filter fun line => !isCommentLine line) ∧
    ∀ lines, linkedLines modules ⟨bootstrap, true⟩ = .ok lines →
      lines.filter isCommentLine =
        (if bootstrap then ["// bootstrap"] else []) ++
          (allCommands modules).map (fun pair => "// " ++ pair.2.render) ∧
      (∀ number, (lines.filter isCommentLine).filterMap (Command.ofComment? number) =
        (allCommands modules).map Prod.snd) ∧
      Machine.load (lines.filter fun line => !isCommentLine line) = Machine.load lines ∧
      ∀ first second, Machine.load lines = .ok first →
        Machine.load (lines.filter fun line => !isCommentLine line) = .ok second →
        first.image = second.image ∧
          ∀ rounds state, State.run first.image.rom rounds state =
            State.run second.image.rom rounds state := by
  refine ⟨linkedLines_bare modules bootstrap, ?_⟩
  intro lines hlines
  rcases linkedLines_ok hlines with ⟨haccepts, hcode⟩
  have hcomments : lines.filter isCommentLine =
      (if bootstrap then ["// bootstrap"] else []) ++
        (allCommands modules).map (fun pair => "// " ++ pair.2.render) := by
    rw [hcode, Code.filter_isCommentLine, comments_linkedCode rfl haccepts,
      List.map_append, List.map_map]
    cases bootstrap <;> rfl
  have hload : Machine.load (lines.filter fun line => !isCommentLine line) =
      Machine.load lines := by
    rw [Machine.load, Machine.load, Image.assemble_filter_comments]
  refine ⟨hcomments, ?_, hload, ?_⟩
  · intro number
    have hstart : List.filterMap (Command.ofComment? number) (if bootstrap then
        ["// bootstrap"] else []) = [] := by
      cases bootstrap with
      | false => rfl
      | true => exact List.filterMap_cons_none (Command.ofComment?_bootstrap number)
    rw [hcomments, List.filterMap_append, hstart, List.nil_append,
      List.filterMap_map, ← List.filterMap_eq_map]
    apply List.filterMap_congr
    intro pair hpair
    rw [Function.comp_apply, Command.ofComment?_render (wellNamed_commands modules pair hpair)]
    rfl
  · intro first second hfirst hsecond
    rw [hload, hfirst] at hsecond
    cases hsecond
    exact ⟨rfl, fun rounds state => rfl⟩

/-- A module whose name cuts off the line in which it stands. -/
def Module.slashedName : List Module :=
  [⟨"a//b", "function f 0\n  push static 2 // two\neq\n"⟩]

theorem Module.slashedName_annotated :
    ∃ lines, linkedLines slashedName ⟨true, true⟩ = .ok lines ∧
      linkedLines slashedName ⟨true, false⟩ =
        .ok (lines.filter fun line => !isCommentLine line) ∧
      lines.filter isCommentLine = ["// bootstrap", "// function f 0",
        "// push static 2", "// eq"] ∧
      (lines.filter isCommentLine).filterMap (Command.ofComment? 1) =
        [.function "f" 0, .push .static 2, .operate (.compare .eq)] ∧
      Machine.load (lines.filter fun line => !isCommentLine line) = Machine.load lines := by
  have hok : (linkedLines slashedName ⟨true, true⟩).isOk = true := by
    decide +kernel
  rcases exists_of_isOk hok with ⟨lines, hlines⟩
  have hcommands : allCommands slashedName =
      [("a//b", .function "f" 0), ("a//b", .push .static 2),
        ("a//b", .operate (.compare .eq))] := by
    decide +kernel
  have hrendered : (allCommands slashedName).map (fun pair => "// " ++ pair.2.render) =
      ["// function f 0", "// push static 2", "// eq"] := by
    decide +kernel
  rcases annotation_adds_only_comments slashedName true with ⟨hbare, hannotated⟩
  rcases hannotated lines hlines with ⟨hcomments, hread, hload, -⟩
  rw [hlines] at hbare
  rw [hrendered] at hcomments
  rw [hcommands] at hread
  exact ⟨lines, hlines, hbare, hcomments, hread 1, hload⟩

end HackVM
