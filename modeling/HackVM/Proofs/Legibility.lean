import HackVM.Proofs.Grammar
import HackVM.Proofs.Layout
import HackVM.Proofs.Program

/-!
# Linked code is legible

Names come into a program only through its source texts, where they have to follow the rules
for names.  So every label that linked code defines has a name that the assembler reads back,
whatever the modules are called.
-/

namespace HackVM

/-!
## Names in commands

The grammar gives a command only names that follow the rules for names.
-/

namespace Command

def WellNamed : Command → Prop
  | .label name | .goto name | .ifGoto name => Text.isName name.toList = true
  | .function name _ | .call name _ => Text.isName name.toList = true
  | .operate _ | .push _ _ | .pop _ _ | .ret => True

theorem Denotes.wellNamed {cs : List Char} {command : Command} (h : Denotes cs command) :
    command.WellNamed := by
  cases h with
  | operate | ret | push | pop => trivial
  | label _ hname | goto _ hname | ifGoto _ hname => exact Text.isName_iff.mpr hname
  | function _ _ hname _ | call _ _ hname _ => exact Text.isName_iff.mpr hname

end Command

theorem Listing.wellNamed_of_ofLines {number : Nat} {lines : List (List Char)}
    {listing : Listing} (h : Listing.ofLines number lines = .ok listing) :
    ∀ line ∈ listing, line.command.WellNamed := by
  induction lines generalizing number listing with
  | nil =>
      cases h
      intro line hline
      cases hline
  | cons text rest ih =>
      rw [Listing.ofLines] at h
      split at h
      · exact ih h
      · split at h
        · cases h
        · next command hcommand =>
            cases hrest : Listing.ofLines (number + 1) rest with
            | error error =>
                rw [hrest] at h
                cases h
            | ok others =>
                rw [hrest] at h
                cases h
                intro line hline
                rcases List.mem_cons.mp hline with rfl | hline
                · exact (Command.read?_eq_some_iff_denotes.mp hcommand).wellNamed
                · exact ih hrest line hline

theorem Module.wellNamed_commands (modules : List Module) :
    ∀ pair ∈ Module.allCommands modules, pair.2.WellNamed := by
  intro pair hpair
  rcases List.mem_flatMap.mp hpair with ⟨m, -, hm⟩
  unfold Module.commands at hm
  split at hm
  · next listing hlisting =>
      rcases List.mem_map.mp hm with ⟨line, hline, rfl⟩
      exact Listing.wellNamed_of_ofLines hlisting line hline
  · cases hm

/-!
## Emitters whose scope is a name

The scope is empty until a function has been entered, and then its name.
-/

namespace Emitter

/-- The scope is that of a function, or no function has been entered yet. -/
def WellScoped (e : Emitter) : Prop :=
  e.function = "" ∨ Text.isName e.function.toList = true

theorem WellScoped.advance {e : Emitter} {command : Command} (he : e.WellScoped)
    (hcommand : command.WellNamed) :
    (e.advance command).WellScoped := by
  cases command with
  | operate op => cases op <;> exact he
  | function name locals => exact Or.inr hcommand
  | _ => exact he

theorem wellScoped_trace {e : Emitter} {commands : List (String × Command)} (he : e.WellScoped)
    (hcommands : ∀ pair ∈ commands, pair.2.WellNamed) :
    ∀ met ∈ e.trace commands, met.1.WellScoped ∧ met.2.WellNamed := by
  induction commands generalizing e with
  | nil =>
      intro met hmet
      cases hmet
  | cons pair rest ih =>
      rcases pair with ⟨module, command⟩
      have hcommand : command.WellNamed := hcommands _ List.mem_cons_self
      intro met hmet
      rcases List.mem_cons.mp hmet with rfl | hmet
      · exact ⟨he, hcommand⟩
      · refine ih ?_ (fun pair hpair => hcommands pair (List.mem_cons_of_mem _ hpair)) met hmet
        exact WellScoped.advance (e := { e with module := module }) he hcommand

end Emitter

/-!
## Symbols with legible names

Names that are put together with a mark in the middle are legible if the names themselves
follow the rules.
-/

theorem Text.chars_of_isName {cs : List Char} (h : isName cs = true) :
    ∀ c ∈ cs, isNameChar c = true := by
  cases cs with
  | nil => cases h
  | cons first rest =>
      simp only [isName, Bool.and_eq_true, List.all_eq_true] at h
      exact h.2

theorem Text.nonDigit_of_isName {cs : List Char} (h : isName cs = true) :
    ∃ c ∈ cs, c.isDigit = false := by
  cases cs with
  | nil => cases h
  | cons first rest =>
      simp only [isName, Bool.and_eq_true] at h
      exact ⟨first, List.mem_cons_self, by simpa using h.1⟩

namespace Symbol

theorem legible_entry {function : String} (h : Text.isName function.toList = true) :
    (Symbol.entry function).Legible :=
  ⟨Text.chars_of_isName h, Text.nonDigit_of_isName h⟩

theorem legible_of_append
    {s : Symbol} (first : List Char) (mark : Char) (last : List Char)
    (hname : s.name.toList = first ++ mark :: last)
    (hfirst : ∀ c ∈ first, Text.isNameChar c = true)
    (hlast : ∀ c ∈ last, Text.isNameChar c = true)
    (hmark : Text.isNameChar mark = true)
    (hdigit : mark.isDigit = false) :
    s.Legible := by
  constructor
  · intro c hc
    rw [hname] at hc
    rcases List.mem_append.mp hc with hc | hc
    · exact hfirst c hc
    · rcases List.mem_cons.mp hc with rfl | hc
      · exact hmark
      · exact hlast c hc
  · refine ⟨mark, ?_, hdigit⟩
    rw [hname]
    simp

theorem isNameChar_of_mem_repr {n : Nat} {c : Char} (h : c ∈ (Nat.repr n).toList) :
    Text.isNameChar c = true :=
  Text.isNameChar_of_isDigit (Text.isDigit_of_mem_repr h)

theorem legible_scoped {function label : String}
    (hfunction : function = "" ∨ Text.isName function.toList = true)
    (hlabel : Text.isName label.toList = true) :
    (Symbol.scoped function label).Legible := by
  have hchars : ∀ c ∈ function.toList, Text.isNameChar c = true := by
    rcases hfunction with rfl | hname
    · intro c hc
      cases hc
    · exact Text.chars_of_isName hname
  exact legible_of_append function.toList '.' label.toList (by simp [name]) hchars
    (Text.chars_of_isName hlabel) (by decide) (by decide)

theorem legible_holds (number : Nat) : (Symbol.holds number).Legible :=
  legible_of_append "CMP$TRUE".toList '.' (Nat.repr number).toList (by simp [name])
    (List.all_eq_true.mp rfl) (fun _ => isNameChar_of_mem_repr) (by decide) (by decide)

theorem legible_compared (number : Nat) : (Symbol.compared number).Legible :=
  legible_of_append "CMP$END".toList '.' (Nat.repr number).toList (by simp [name])
    (List.all_eq_true.mp rfl) (fun _ => isNameChar_of_mem_repr) (by decide) (by decide)

theorem legible_returned {function : String} (h : Text.isName function.toList = true)
    (number : Nat) :
    (Symbol.returned function number).Legible := by
  have hsuffix : ∀ c ∈ "$ret".toList, Text.isNameChar c = true := List.all_eq_true.mp rfl
  apply legible_of_append (function.toList ++ "$ret".toList) '.'
    (Nat.repr number).toList (by simp [name])
  · intro c hc
    rcases List.mem_append.mp hc with hc | hc
    · exact Text.chars_of_isName h c hc
    · exact hsuffix c hc
  · exact fun _ => isNameChar_of_mem_repr
  · decide
  · decide

end Symbol

/-!
## The labels of a command

Each command defines its own labels only, in the order in which they stand in its code.
-/

theorem Access.find_cases {module : String} {segment : Segment} {index : Word}
    {access : Access} (h : find module segment index = .ok access) :
    (segment = .static ∧ access = .direct (.static module index)) ∨
    (segment ≠ .static ∧ ((∃ r, access = .direct (.register r)) ∨
      (index.toNat ≤ maxLiteral ∧ ∃ base, access = .indexed base))) := by
  cases segment with
  | constant => cases h
  | static =>
      cases h
      exact Or.inl ⟨rfl, rfl⟩
  | locals | argument | this | that =>
      simp only [find, indexed?] at h
      split at h
      · next hindex =>
          cases h
          exact Or.inr ⟨Segment.noConfusion, Or.inr ⟨hindex, _, rfl⟩⟩
      · cases h
  | temp | pointer =>
      simp only [find, named?] at h
      split at h
      · cases h
        exact Or.inr ⟨Segment.noConfusion, Or.inl ⟨_, rfl⟩⟩
      · cases h

namespace Emitter

def labelsOf (e : Emitter) : Command → List Symbol
  | .operate (.compare _) => [.holds (e.comparisons + 1), .compared (e.comparisons + 1)]
  | .label name => [.scoped e.function name]
  | .function name _ => [.entry name]
  | .call name _ => [.returned name (e.callSites + 1)]
  | _ => []

theorem labels_pushCode (index : Word) (access : Access) :
    (access.pushCode index).labels = [] := by
  cases access <;> rfl

theorem labels_popCode (index : Word) (access : Access) :
    (access.popCode index).labels = [] := by
  cases access <;> rfl

theorem labels_function (name : String) (locals : Word) :
    (Code.function name locals).labels = [.entry name] := by
  have hzeros : ∀ n, Code.labels (List.replicate n
      [Item.cell .sp, Item.assign .m (.inc .m), Item.assign .a (.dec .m),
        Item.assign .m .zero]).flatten = [] := by
    intro n
    rw [Code.labels_flatten]
    simp [Item.cell, Item.assign]
  simp [Code.function, hzeros]

theorem pushCode_cases {e : Emitter} {segment : Segment} {index : Word} {code : Code}
    (h : e.pushCode segment index = .ok code) :
    (segment = .constant ∧ index.toNat ≤ maxLiteral ∧ code = Code.pushConstant index) ∨
    (segment ≠ .constant ∧ ∃ access, Access.find e.module segment index = .ok access ∧
      code = access.pushCode index) := by
  unfold pushCode at h
  split at h
  · next hsegment =>
      split at h
      · next hindex =>
          cases h
          exact Or.inl ⟨hsegment, hindex, rfl⟩
      · cases h
  · next hsegment =>
      cases hfind : Access.find e.module segment index with
      | error cause =>
          rw [hfind] at h
          cases h
      | ok access =>
          rw [hfind] at h
          cases h
          exact Or.inr ⟨hsegment, access, rfl, rfl⟩

theorem popCode_cases {e : Emitter} {segment : Segment} {index : Word} {code : Code}
    (h : e.popCode segment index = .ok code) :
    ∃ access, Access.find e.module segment index = .ok access ∧
      code = access.popCode index := by
  unfold popCode at h
  cases hfind : Access.find e.module segment index with
  | error cause =>
      rw [hfind] at h
      cases h
  | ok access =>
      rw [hfind] at h
      cases h
      exact ⟨access, rfl, rfl⟩

theorem labels_body {e : Emitter} {command : Command} {code : Code}
    (h : e.body command = .ok code) :
    code.labels = e.labelsOf command := by
  cases command with
  | operate op =>
      cases op <;>
        · cases h
          rfl
  | push segment index =>
      rcases pushCode_cases h with ⟨-, -, rfl⟩ | ⟨-, access, -, rfl⟩
      · rfl
      · exact labels_pushCode index access
  | pop segment index =>
      rcases popCode_cases h with ⟨access, -, rfl⟩
      exact labels_popCode index access
  | function name locals =>
      cases h
      exact labels_function name locals
  | call name arguments =>
      simp only [body] at h
      split at h
      · cases h
        rfl
      · cases h
  | label name | goto name | ifGoto name | ret =>
      cases h
      rfl

theorem legible_labelsOf {e : Emitter} {command : Command} (he : e.WellScoped)
    (hcommand : command.WellNamed) :
    ∀ symbol ∈ e.labelsOf command, symbol.Legible := by
  intro symbol hsymbol
  cases command with
  | operate op =>
      cases op with
      | unary op | binary op => cases hsymbol
      | compare op =>
          rcases List.mem_cons.mp hsymbol with rfl | hsymbol
          · exact Symbol.legible_holds _
          · rw [List.mem_singleton] at hsymbol
            subst hsymbol
            exact Symbol.legible_compared _
  | label name =>
      rw [labelsOf, List.mem_singleton] at hsymbol
      subst hsymbol
      exact Symbol.legible_scoped he hcommand
  | function name locals =>
      rw [labelsOf, List.mem_singleton] at hsymbol
      subst hsymbol
      exact Symbol.legible_entry hcommand
  | call name arguments =>
      rw [labelsOf, List.mem_singleton] at hsymbol
      subst hsymbol
      exact Symbol.legible_returned hcommand _
  | _ => cases hsymbol

theorem annotated_eq (e : Emitter) (text : String) (code : Code) :
    ∃ note : Code, e.annotated text code = note ++ code ∧
      note.size = 0 ∧ note.labels = [] := by
  unfold annotated
  split
  · exact ⟨[.comment text], rfl, rfl, rfl⟩
  · exact ⟨[], rfl, rfl, rfl⟩

end Emitter

/-!
## The labels of a linked program

What a linked program defines is what the start of the program and its commands define.
-/

namespace Module

def linkedLabels (modules : List Module) (options : Options) : List Symbol :=
  (if options.bootstrap then [.returned "Sys.init" 1] else []) ++
    ((opener modules options).trace (allCommands modules)).flatMap fun met =>
      met.1.labelsOf met.2

/--
What a linked program has, item by item, is what the start of a program and its commands
have.
-/
theorem filterMap_linkedCode {modules : List Module} {options : Options} {β : Type}
    {view : Item → Option β} {viewOf : Emitter → Command → List β}
    (hcomment : ∀ text, view (.comment text) = none)
    (hbody : ∀ {e command code}, e.body command = .ok code →
      code.filterMap view = viewOf e command)
    (haccepts : (opener modules options).Accepts (allCommands modules)) :
    (linkedCode modules options).filterMap view =
      (if options.bootstrap then (Code.bootstrap 1).filterMap view else []) ++
        ((opener modules options).trace (allCommands modules)).flatMap fun met =>
          viewOf met.1 met.2 := by
  have hannotated : ∀ (e : Emitter) (text : String) (code : Code),
      (e.annotated text code).filterMap view = code.filterMap view := by
    intro e text code
    unfold Emitter.annotated
    split
    · exact List.filterMap_cons_none (hcomment text)
    · rfl
  have hpreamble : (preamble modules options).filterMap view =
      if options.bootstrap then (Code.bootstrap 1).filterMap view else [] := by
    unfold preamble
    split
    · exact hannotated _ _ _
    · rfl
  rw [linkedCode, List.filterMap_append, hpreamble, List.filterMap_flatten, blocks,
    Emitter.blocks, List.map_map, List.flatMap_def]
  congr 2
  apply List.map_congr_left
  intro met hmet
  rcases haccepts met hmet with ⟨body, hmetBody⟩
  show (met.1.codeOf met.2).filterMap view = _
  rw [Emitter.codeOf_eq hmetBody, hannotated, hbody hmetBody]

theorem labels_linkedCode {modules : List Module} {options : Options}
    (haccepts : (opener modules options).Accepts (allCommands modules)) :
    (linkedCode modules options).labels = linkedLabels modules options :=
  filterMap_linkedCode (fun _ => rfl) Emitter.labels_body haccepts

theorem wellScoped_opener (modules : List Module) (options : Options) :
    (opener modules options).WellScoped := by
  unfold opener
  split <;> exact Or.inl rfl

theorem legible_linkedLabels (modules : List Module) (options : Options) :
    ∀ symbol ∈ linkedLabels modules options, symbol.Legible := by
  intro symbol hsymbol
  rcases List.mem_append.mp hsymbol with hboot | hlabel
  · split at hboot
    · rw [List.mem_singleton] at hboot
      subst hboot
      exact Symbol.legible_returned (by decide) 1
    · cases hboot
  · rcases List.mem_flatMap.mp hlabel with ⟨met, hmet, hmem⟩
    have hnames := Emitter.wellScoped_trace (wellScoped_opener modules options)
      (wellNamed_commands modules) met hmet
    exact Emitter.legible_labelsOf hnames.1 hnames.2 symbol hmem

theorem legible_linkedCode {modules : List Module} {options : Options}
    (haccepts : (opener modules options).Accepts (allCommands modules)) :
    ∀ item ∈ linkedCode modules options, item.Legible := by
  apply Code.legible_of_labels
  rw [labels_linkedCode haccepts]
  exact legible_linkedLabels modules options

end Module
end HackVM
