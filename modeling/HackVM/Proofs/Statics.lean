import Mathlib.Data.List.Nodup
import Mathlib.Data.List.Perm.Subperm
import HackVM.Proofs.Acceptance
import HackVM.Proofs.Collisions
import HackVM.Proofs.Simulation

/-!
# The cells of the static segments

The code of a static access refers to a symbol that nothing defines, so the assembler takes
it for a variable and gives it a cell.  Every other symbol of a closed program is predefined
or a label.  So the variables are the static cells of the modules and nothing else, and they
stand in memory in the order in which the program first uses them.
-/

namespace HackVM

/-!
## First occurrences

Of the names that occur in a list, only the first occurrences count.
-/

section

variable {α β : Type} [BEq α] [LawfulBEq α] [BEq β] [LawfulBEq β]

theorem eraseDups_of_nodup {xs : List α} (h : xs.Nodup) : xs.eraseDups = xs := by
  induction xs with
  | nil => rfl
  | cons x rest ih =>
      rw [List.nodup_cons] at h
      have hfilter : rest.filter (fun y => !y == x) = rest := by
        rw [List.filter_eq_self]
        intro y hy
        have hne : y ≠ x := by
          rintro rfl
          exact h.1 hy
        simpa using hne
      rw [List.eraseDups_cons, hfilter, ih h.2]

theorem eraseDups_append_cons_of_mem {xs : List α} {x : α} (h : x ∈ xs) (rest : List α) :
    (xs ++ x :: rest).eraseDups = (xs ++ rest).eraseDups := by
  rw [List.eraseDups_append, List.eraseDups_append]
  congr 2
  simp [List.removeAll, h]

theorem eraseDups_map {f : α → β} (hf : ∀ x y, f x = f y → x = y) (xs : List α) :
    (xs.map f).eraseDups = xs.eraseDups.map f := by
  cases xs with
  | nil => rfl
  | cons x rest =>
      have hfilter : (rest.map f).filter (fun y => !y == f x) =
          (rest.filter fun y => !y == x).map f := by
        rw [List.filter_map]
        congr 2
        funext y
        have hiff : f y = f x ↔ y = x := ⟨hf y x, fun h => congrArg f h⟩
        simp [hiff]
      rw [List.map_cons, List.eraseDups_cons, List.eraseDups_cons, List.map_cons,
        hfilter, eraseDups_map hf]
termination_by xs.length
decreasing_by
  have hlength := List.length_filter_le (fun y => !y == x) rest
  simp only [List.length_cons]
  omega

end

/-!
## Variables of a text

A name that a statement uses is added to the table, unless it has a value there.  So the
variables of a text are the names it uses without defining them, in the order of their first
use.
-/

namespace SymbolTable

/-- The value that a name has without being a variable. -/
def fixed? (t : SymbolTable) (name : String) : Option Word :=
  (Predefined.table.lookup name).or (t.labels.lookup name)

theorem get?_eq_fixed?_or (t : SymbolTable) (name : String) :
    t.get? name = (t.fixed? name).or (t.variableCell? name) :=
  Option.or_assoc.symm

theorem fixed?_eq_none_iff {t : SymbolTable} {name : String} :
    t.fixed? name = none ↔ name ∉ Predefined.table.map Prod.fst ∧
      name ∉ t.labels.map Prod.fst := by
  rw [fixed?, Option.or_eq_none_iff, lookup_eq_none_iff_not_mem, lookup_eq_none_iff_not_mem]

theorem variableCell?_eq_none_iff {t : SymbolTable} {name : String} :
    t.variableCell? name = none ↔ name ∉ t.variableNames := by
  simp [variableCell?]

theorem variableCell?_eq_some_iff {t : SymbolTable} (h : t.variableNames.Nodup) {name : String}
    {value : Word} :
    t.variableCell? name = some value ↔
      ∃ n, t.variableNames[n]? = some name ∧ value = BitVec.ofNat 16 (firstVariable + n) := by
  unfold variableCell?
  rw [Option.map_eq_some_iff]
  constructor
  · rintro ⟨n, hn, rfl⟩
    rcases List.idxOf?_eq_some_iff.mp hn with ⟨hlt, hname, -⟩
    exact ⟨n, List.getElem?_eq_some_iff.mpr ⟨hlt, hname⟩, rfl⟩
  · rintro ⟨n, hn, rfl⟩
    rcases List.getElem?_eq_some_iff.mp hn with ⟨hlt, hname⟩
    refine ⟨n, List.idxOf?_eq_some_iff.mpr ⟨hlt, hname, ?_⟩, rfl⟩
    intro j hj hsame
    have hindex := (h.getElem_inj_iff).mp (hsame.trans hname.symm)
    omega

end SymbolTable

def Statement.unbound? (t : SymbolTable) : Statement → Option String
  | .load operand =>
      if Text.signedWord? operand = none ∧ t.fixed? (String.ofList operand) = none then
        some (String.ofList operand)
      else none
  | _ => none

theorem Statement.unbound?_of_free {t : SymbolTable} {operand : List Char}
    (hnumeral : Text.signedWord? operand = none)
    (hfixed : t.fixed? (String.ofList operand) = none) :
    unbound? t (.load operand) = some (String.ofList operand) :=
  if_pos ⟨hnumeral, hfixed⟩

theorem Statement.unbound?_congr {t u : SymbolTable} (h : u.labels = t.labels) :
    unbound? u = unbound? t := by
  have hfixed : u.fixed? = t.fixed? := by
    funext name
    rw [SymbolTable.fixed?, SymbolTable.fixed?, h]
  unfold unbound?
  rw [hfixed]

theorem LabelPass.run_labels {p q : LabelPass} {ss : List Statement} (h : p.run ss = .ok q) :
    q.symbols.labels.map Prod.fst = (ss.filterMap Statement.labelName?).reverse ++
      p.symbols.labels.map Prod.fst := by
  induction ss generalizing p with
  | nil =>
      cases h
      rfl
  | cons s rest ih =>
      rcases run_cons h with ⟨next, hstep, hrest⟩
      rw [ih hrest]
      rcases step_cases hstep with ⟨rfl, rfl⟩ | ⟨name, rfl, -, rfl⟩ | ⟨-, hlabel, -, rfl⟩
      · rfl
      · simp [Statement.labelName?, SymbolTable.addLabel]
      · rw [List.filterMap_cons_none hlabel]

/--
What a table becomes when a name is used, if there is one: the name is there already, or it
is added.
-/
inductive SymbolTable.Absorbs (t : SymbolTable) : Option String → SymbolTable → Prop where
  | idle : Absorbs t none t
  | known {name : String} (h : name ∈ t.variableNames) : Absorbs t (some name) t
  | added {name : String} (h : name ∉ t.variableNames) :
      Absorbs t (some name) (t.addVariable name)

theorem SymbolTable.Absorbs.labels_eq {t u : SymbolTable} {used : Option String}
    (h : t.Absorbs used u) :
    u.labels = t.labels := by
  cases h <;> rfl

namespace Image

theorem load_absorbs {image next : Image} {operand : List Char}
    (h : image.load operand = .ok next) :
    image.symbols.Absorbs ((Statement.load operand).unbound? image.symbols) next.symbols := by
  unfold load at h
  split at h
  · next value hvalue =>
      have hnone : (Statement.load operand).unbound? image.symbols = none := by
        simp [Statement.unbound?, hvalue]
      split at h
      · cases h
        rw [hnone]
        exact .idle
      · cases h
  · next hnumeral =>
      simp only [SymbolTable.get?_eq_fixed?_or] at h
      cases hfixed : image.symbols.fixed? (String.ofList operand) with
      | some value =>
          have hnone : (Statement.load operand).unbound? image.symbols = none := by
            simp [Statement.unbound?, hfixed]
          rw [hfixed, Option.some_or] at h
          cases h
          rw [hnone]
          exact .idle
      | none =>
          rw [hfixed, Option.none_or] at h
          rw [Statement.unbound?_of_free hnumeral hfixed]
          cases hcell : image.symbols.variableCell? (String.ofList operand) with
          | some value =>
              have hmem : String.ofList operand ∈ image.symbols.variableNames := by
                by_contra hnot
                rw [SymbolTable.variableCell?_eq_none_iff.mpr hnot] at hcell
                cases hcell
              rw [hcell] at h
              cases h
              exact .known hmem
          | none =>
              rw [hcell] at h
              simp only at h
              split at h
              · cases h
                exact .added (SymbolTable.variableCell?_eq_none_iff.mp hcell)
              · cases h

theorem step_absorbs {image next : Image} {s : Statement} (h : image.step s = .ok next) :
    image.symbols.Absorbs (s.unbound? image.symbols) next.symbols := by
  cases s with
  | blank | label name | unclosed =>
      cases h
      exact .idle
  | load operand => exact load_absorbs h
  | compute text =>
      simp only [step] at h
      cases hcompute : Instruction.ofCompute text with
      | error error =>
          rw [hcompute] at h
          cases h
      | ok instruction =>
          rw [hcompute] at h
          cases h
          exact .idle

theorem run_variables {image last : Image} {ss : List Statement} (h : image.run ss = .ok last)
    (hnodup : image.symbols.variableNames.Nodup) :
    last.symbols.labels = image.symbols.labels ∧ last.symbols.variableNames.Nodup ∧
    last.symbols.variableNames =
      (image.symbols.variableNames ++
        ss.filterMap (Statement.unbound? image.symbols)).eraseDups := by
  induction ss generalizing image with
  | nil =>
      cases h
      rw [List.filterMap_nil, List.append_nil, eraseDups_of_nodup hnodup]
      exact ⟨rfl, hnodup, rfl⟩
  | cons s rest ih =>
      rcases run_cons h with ⟨next, hstep, hrest⟩
      have hrun := ih hrest
      have habsorbs := step_absorbs hstep
      -- The labels stay, so what counts as a variable does not change on the way.
      rw [Statement.unbound?_congr habsorbs.labels_eq, habsorbs.labels_eq] at hrun
      rw [List.filterMap_cons]
      generalize s.unbound? image.symbols = used at habsorbs ⊢
      generalize next.symbols = symbols at habsorbs hrun
      cases habsorbs with
      | idle => exact hrun hnodup
      | known hmem =>
          simp only
          rw [eraseDups_append_cons_of_mem hmem]
          exact hrun hnodup
      | added hnew =>
          have hconcat := hnodup.concat hnew
          rw [List.concat_eq_append] at hconcat
          have hadded := hrun hconcat
          rw [SymbolTable.addVariable, List.append_assoc] at hadded
          exact hadded

/--
What a finished table holds, for any text: the labels and the names that are used without
being defined.
-/
theorem assemble_symbols {lines : List String} {image : Image}
    (h : assemble lines = .ok image) :
    (∀ name, image.symbols.fixed? name = none ↔
      name ∉ Predefined.table.map Prod.fst ∧ name ∉ definedLabels lines) ∧
    image.symbols.variableNames.Nodup ∧
    image.symbols.variableNames =
      ((lines.map Statement.read).filterMap (Statement.unbound? image.symbols)).eraseDups := by
  rcases assemble_cases h with ⟨labels, hlabels, himage⟩
  have hempty : labels.symbols.variableNames = [] := by
    have hnext := LabelPass.run_nextVariable hlabels
    simpa [SymbolTable.nextVariable] using hnext
  have hlabelNames := LabelPass.run_labels hlabels
  rcases run_variables himage (by simp [hempty]) with ⟨hsame, hnodup, hvariables⟩
  refine ⟨?_, hnodup, ?_⟩
  · intro name
    rw [SymbolTable.fixed?_eq_none_iff, hsame, hlabelNames, definedLabels_eq]
    simp
  · rw [hvariables, hempty, List.nil_append, Statement.unbound?_congr hsame]

end Image

/-!
## References of code

The names that a text uses are the references of its code, registers apart.
-/

theorem Symbol.predefined_register (r : Register) :
    (Symbol.register r).name ∈ Predefined.table.map Prod.fst := by
  cases r with
  | numbered i =>
      revert i
      decide +kernel
  | _ => decide +kernel

/-- The symbol that an item refers to. Registers do not count, as every table has them. -/
def Item.reference? : Item → Option Symbol
  | .refer (.register _) => none
  | .refer symbol => some symbol
  | _ => none

theorem Item.unbound?_statement {item : Item} (h : item.Loadable) (t : SymbolTable) :
    item.statement.unbound? t = (item.reference?.map Symbol.name).filter fun name =>
      (t.fixed? name).isNone := by
  cases item with
  | comment text => rfl
  | label symbol => rfl
  | compute dest comp jump => rfl
  | literal word =>
      simp [Item.statement, Item.reference?, Statement.unbound?, Text.signedWord?_render]
  | refer symbol =>
      have hread : String.ofList symbol.operand = symbol.name := by
        rw [h.operand_eq, String.ofList_toList]
      have hstatement : (Item.refer symbol).statement.unbound? t =
          if t.fixed? symbol.name = none then some symbol.name else none := by
        simp [Item.statement, Statement.unbound?, h.not_numeral, hread]
      rw [hstatement]
      cases symbol with
      | register r =>
          have hfixed : t.fixed? (Symbol.register r).name ≠ none := by
            rw [ne_eq, SymbolTable.fixed?_eq_none_iff]
            exact fun hnone => hnone.1 (Symbol.predefined_register r)
          rw [if_neg hfixed]
          rfl
      | _ => simp [Item.reference?, Option.filter, Option.isNone_iff_eq_none]

namespace Code

def references (code : Code) : List Symbol :=
  code.filterMap Item.reference?

theorem references_function (name : String) (locals : Word) :
    (function name locals).references = [] := by
  have hzeros : ∀ n, references (List.replicate n pushZero).flatten = [] := by
    intro n
    rw [references, List.filterMap_flatten, List.map_replicate]
    simp [pushZero, Item.reference?, Item.cell, Item.assign]
  exact hzeros locals.toNat

theorem variables_statements {code : Code} (h : code.Loadable) (t : SymbolTable) :
    (code.map Item.statement).filterMap (Statement.unbound? t) =
      (code.references.map Symbol.name).filter fun name => (t.fixed? name).isNone := by
  rw [references, List.map_filterMap, List.filter_filterMap, List.filterMap_map]
  apply List.filterMap_congr
  intro item hitem
  exact Item.unbound?_statement (h item hitem) t

end Code

namespace Emitter

def referencesOf (e : Emitter) : Command → List Symbol
  | .operate (.compare _) => [.holds (e.comparisons + 1), .compared (e.comparisons + 1)]
  | .push .static index | .pop .static index => [.static e.module index]
  | .goto name | .ifGoto name => [.scoped e.function name]
  | .call name _ => [.returned name (e.callSites + 1), .entry name]
  | _ => []

theorem references_access {e : Emitter} {segment : Segment} {index : Word} {access : Access}
    (h : Access.find e.module segment index = .ok access) :
    (access.pushCode index).references = e.referencesOf (.push segment index) ∧
      (access.popCode index).references = e.referencesOf (.pop segment index) := by
  have hnone : segment ≠ .static →
      e.referencesOf (.push segment index) = [] ∧
        e.referencesOf (.pop segment index) = [] := by
    intro hsegment
    cases segment with
    | static => exact absurd rfl hsegment
    | _ => exact ⟨rfl, rfl⟩
  rcases Access.find_cases h with ⟨rfl, rfl⟩ | ⟨hsegment, ⟨r, rfl⟩ | ⟨-, base, rfl⟩⟩
  · exact ⟨rfl, rfl⟩
  · rw [(hnone hsegment).1, (hnone hsegment).2]
    exact ⟨rfl, rfl⟩
  · rw [(hnone hsegment).1, (hnone hsegment).2]
    exact ⟨rfl, rfl⟩

theorem references_body {e : Emitter} {command : Command} {code : Code}
    (h : e.body command = .ok code) :
    code.references = e.referencesOf command := by
  cases command with
  | operate op =>
      cases op <;>
        · cases h
          rfl
  | push segment index =>
      rcases pushCode_cases h with ⟨rfl, -, rfl⟩ | ⟨-, access, hfind, rfl⟩
      · rfl
      · exact (references_access hfind).1
  | pop segment index =>
      rcases popCode_cases h with ⟨access, hfind, rfl⟩
      exact (references_access hfind).2
  | function name locals =>
      cases h
      exact Code.references_function name locals
  | call name arguments =>
      simp only [body] at h
      split at h
      · cases h
        rfl
      · cases h
  | label name | goto name | ifGoto name | ret =>
      cases h
      rfl

end Emitter

namespace Module

def linkedReferences (modules : List Module) (options : Options) : List Symbol :=
  (if options.bootstrap then [.returned "Sys.init" 1, .entry "Sys.init"] else []) ++
    ((opener modules options).trace (allCommands modules)).flatMap fun met =>
      met.1.referencesOf met.2

variable {modules : List Module} {options : Options}

theorem references_linkedCode
    (haccepts : (opener modules options).Accepts (allCommands modules)) :
    (linkedCode modules options).references = linkedReferences modules options :=
  filterMap_linkedCode (fun _ => rfl) Emitter.references_body haccepts

end Module

/-!
## Static cells of a program

A static cell is a module and an index.  Its symbol may contain more dots than one, but what
follows the last of them is the index.  In a closed program, every other symbol is a label.
-/

def Symbol.static? : Symbol → Option (String × Word)
  | .static module index => some (module, index)
  | _ => none

def Placed.static? (p : Placed) : Option (String × Word) :=
  match p.command with
  | .push .static index | .pop .static index => some (p.module, index)
  | _ => none

namespace Program

def staticName (cell : String × Word) : String :=
  (Symbol.static cell.1 cell.2).name

def statics (program : Program) : List (String × Word) :=
  program.filterMap Placed.static?

def staticCells (program : Program) : List (String × Word) :=
  program.statics.eraseDups

def staticAddress (program : Program) (cell : String × Word) : Word :=
  BitVec.ofNat 16 (16 + program.staticCells.idxOf cell)

theorem toList_staticName (cell : String × Word) :
    (staticName cell).toList = cell.1.toList ++ '.' :: (Nat.repr cell.2.toNat).toList := by
  simp [staticName, Symbol.name, Word.render]

theorem staticName_injective (first second : String × Word)
    (h : staticName first = staticName second) :
    first = second := by
  have hlist := congrArg String.toList h
  rw [toList_staticName, toList_staticName] at hlist
  rcases Text.cut_unique hlist (Text.dot_not_mem_repr _) (Text.dot_not_mem_repr _) with
    ⟨hmodule, hindex⟩
  exact Prod.ext (String.toList_inj.mp hmodule)
    (BitVec.eq_of_toNat_eq (Text.repr_injective hindex))

theorem not_predefined_staticName (cell : String × Word) :
    staticName cell ∉ Predefined.table.map Prod.fst := by
  apply not_predefined_of_dot
  rw [toList_staticName]
  simp

theorem mem_staticCells {program : Program} {cell : String × Word} :
    cell ∈ program.staticCells ↔ cell ∈ program.statics :=
  List.mem_eraseDups

theorem getElem?_idxOf_staticCells {program : Program} {cell : String × Word}
    (h : cell ∈ program.statics) :
    program.staticCells[program.staticCells.idxOf cell]? = some cell :=
  List.getElem?_idxOf (mem_staticCells.mpr h)

theorem names_of_statics {t : SymbolTable} {symbols : List Symbol}
    (hfixed : ∀ s ∈ symbols, s.static? = none → t.fixed? s.name ≠ none)
    (hfree : ∀ cell ∈ symbols.filterMap Symbol.static?, t.fixed? (staticName cell) = none) :
    (symbols.map Symbol.name).filter (fun name => (t.fixed? name).isNone) =
      (symbols.filterMap Symbol.static?).map staticName := by
  rw [List.map_filterMap, ← List.filterMap_eq_filter, List.filterMap_map]
  apply List.filterMap_congr
  intro s hs
  cases hstatic : s.static? with
  | none => simp [Option.guard, hfixed s hs hstatic]
  | some cell =>
      have hname : s.name = staticName cell := by
        cases s with
        | static module index =>
            cases hstatic
            rfl
        | _ => cases hstatic
      have hnone := hfree cell (List.mem_filterMap.mpr ⟨s, hs, hstatic⟩)
      simp [Option.guard, hname, hnone]

end Program

theorem Emitter.five_le_size {e : Emitter} {command : Command} {code : Code}
    (h : e.body command = .ok code) :
    5 * (Placed.static? ⟨e.module, e.function, command⟩).toList.length ≤ code.size := by
  cases command with
  | push segment index =>
      cases segment with
      | static =>
          cases h
          show 5 ≤ 6
          decide
      | _ => exact Nat.zero_le _
  | pop segment index =>
      cases segment with
      | static =>
          cases h
          exact Nat.le_refl 5
      | _ => exact Nat.zero_le _
  | _ => exact Nat.zero_le _

theorem Code.five_mul_length_le {α β : Type} {code : α → Code} {found : α → Option β}
    {xs : List α} (h : ∀ x ∈ xs, 5 * (found x).toList.length ≤ (code x).size) :
    5 * (xs.filterMap found).length ≤ size (xs.map code).flatten := by
  induction xs with
  | nil => exact Nat.le_refl _
  | cons x rest ih =>
      rw [List.forall_mem_cons] at h
      have hrest := ih h.2
      rw [List.filterMap_eq_flatMap_toList] at hrest ⊢
      rw [List.flatMap_cons, List.length_append, List.map_cons, List.flatten_cons, size_append]
      omega

namespace Module

variable {modules : List Module} {options : Options}

theorem statics_linkedReferences (modules : List Module) (options : Options) :
    (linkedReferences modules options).filterMap Symbol.static? =
      (Program.ofModules modules).statics := by
  have hpreamble : List.filterMap Symbol.static?
      (if options.bootstrap then [.returned "Sys.init" 1, .entry "Sys.init"] else []) =
        [] := by
    split <;> rfl
  have hcommand : ∀ met : Emitter × Command,
    (met.1.referencesOf met.2).filterMap Symbol.static? =
      (Placed.static? ⟨met.1.module, met.1.function, met.2⟩).toList := by
    rintro ⟨e, command⟩
    cases command with
    | operate op => cases op <;> rfl
    | push segment index | pop segment index => cases segment <;> rfl
    | _ => rfl
  rw [linkedReferences, List.filterMap_append, hpreamble, List.nil_append, Program.statics,
    program_eq_trace modules options, List.filterMap_map, List.filterMap_flatMap,
      List.filterMap_eq_flatMap_toList]
  exact List.flatMap_congr fun met _ => hcommand met

theorem mem_linkedLabels {met : Emitter × Command}
    (hmet : met ∈ (opener modules options).trace (allCommands modules)) {s : Symbol}
    (hs : s ∈ met.1.labelsOf met.2) : s ∈ linkedLabels modules options :=
  List.mem_append_right _ (List.mem_flatMap.mpr ⟨met, hmet, hs⟩)

theorem exists_met (options : Options) {p : Placed} (hp : p ∈ Program.ofModules modules) :
    ∃ met ∈ (opener modules options).trace (allCommands modules), met.1.module = p.module ∧
      met.1.function = p.scope ∧ met.2 = p.command := by
  rw [program_eq_trace modules options, List.mem_map] at hp
  rcases hp with ⟨met, hmet, rfl⟩
  exact ⟨met, hmet, rfl, rfl, rfl⟩

theorem scoped_mem_linkedLabels (options : Options) {p : Placed}
    (hp : p ∈ Program.ofModules modules) {name : String} (hcommand : p.command = .label name) :
    Symbol.scoped p.scope name ∈ linkedLabels modules options := by
  rcases exists_met options hp with ⟨⟨e, command⟩, hmet, -, hscope, hmetCommand⟩
  apply mem_linkedLabels hmet
  rw [show command = .label name from hmetCommand.trans hcommand, ← hscope]
  exact List.mem_singleton_self _

theorem entry_mem_linkedLabels {name : String} (h : (Program.ofModules modules).Defines name) :
    Symbol.entry name ∈ linkedLabels modules options := by
  rcases h with ⟨p, hp, locals, hcommand⟩
  rcases exists_met options hp with ⟨⟨e, command⟩, hmet, -, -, hmetCommand⟩
  apply mem_linkedLabels hmet
  rw [show command = .function name locals from hmetCommand.trans hcommand]
  exact List.mem_singleton_self _

theorem mem_linkedLabels_of_reference (hclosed : (Program.ofModules modules).Closed)
    {met : Emitter × Command}
    (hmet : met ∈ (opener modules options).trace (allCommands modules)) {s : Symbol}
    (hs : s ∈ met.1.referencesOf met.2) (hstatic : s.static? = none) :
    s ∈ linkedLabels modules options := by
  rcases met with ⟨e, command⟩
  have hresolves : (Program.ofModules modules).Resolves ⟨e.module, e.function, command⟩ := by
    apply hclosed
    rw [program_eq_trace modules options]
    exact List.mem_map.mpr ⟨_, hmet, rfl⟩
  cases command with
  | operate op =>
      cases op with
      | unary op | binary op => cases hs
      | compare op => exact mem_linkedLabels hmet hs
  | push segment index | pop segment index =>
      cases segment with
      | static =>
          cases List.mem_singleton.mp hs
          cases hstatic
      | _ => cases hs
  | goto name | ifGoto name =>
      cases List.mem_singleton.mp hs
      rcases hresolves with ⟨q, hq, hlabel, hscope⟩
      have hscoped := scoped_mem_linkedLabels options hq hlabel
      rw [hscope] at hscoped
      exact hscoped
  | call name arguments =>
      rcases List.mem_cons.mp hs with rfl | hs
      · exact mem_linkedLabels hmet (List.mem_singleton_self _)
      · cases List.mem_singleton.mp hs
        exact entry_mem_linkedLabels hresolves
  | label name | function name locals | ret => cases hs

theorem linkedReferences_defined (hclosed : (Program.ofModules modules).Closed)
    (hinit : options.bootstrap = true → (Program.ofModules modules).Defines "Sys.init")
    {s : Symbol} (hs : s ∈ linkedReferences modules options) (hstatic : s.static? = none) :
    s ∈ linkedLabels modules options := by
  rcases List.mem_append.mp hs with hboot | hs
  · split at hboot
    · next hoption =>
        rcases List.mem_cons.mp hboot with rfl | hboot
        · rw [linkedLabels, if_pos hoption]
          exact List.mem_append_left _ (List.mem_singleton_self _)
        · cases List.mem_singleton.mp hboot
          exact entry_mem_linkedLabels (hinit hoption)
    · cases hboot
  · rcases List.mem_flatMap.mp hs with ⟨met, hmet, hmem⟩
    exact mem_linkedLabels_of_reference hclosed hmet hmem hstatic

theorem five_mul_statics_le
    (haccepts : (opener modules options).Accepts (allCommands modules)) :
    5 * (Program.ofModules modules).statics.length ≤ (linkedCode modules options).size := by
  rw [Program.statics, program_eq_trace modules options, List.filterMap_map,
    linkedCode, Code.size_append]
  refine Nat.le_trans (Code.five_mul_length_le ?_) (Nat.le_add_left _ _)
  intro met hmet
  rcases haccepts met hmet with ⟨body, hbody⟩
  rcases Emitter.annotated_eq met.1 met.2.render body with ⟨note, hnote, -, -⟩
  rw [Emitter.codeOf_eq hbody, hnote, Code.size_append]
  exact Nat.le_trans (Emitter.five_le_size hbody) (Nat.le_add_left _ _)

theorem exists_module_of_static {cell : String × Word}
    (h : cell ∈ (Program.ofModules modules).statics) :
    ∃ m ∈ modules, cell.1 = m.name := by
  rcases List.mem_filterMap.mp h with ⟨⟨module, scope, command⟩, hp, hcell⟩
  have hmodule : cell.1 = module := by
    unfold Placed.static? at hcell
    split at hcell <;> cases hcell <;> rfl
  rcases exists_of_mem_allCommands (Program.mem_of_mem_place hp) with ⟨m, hm, hname⟩
  exact ⟨m, hm, hmodule.trans hname⟩

end Module

/-!
## Where the static cells are

The variables of the finished table are the static cells, so that they are counted from the
first variable on.
-/

namespace Program

/--
The static cells of the program are the variables of the image, and lie below the screen.
-/
structure StaticsAreVariables (program : Program) (image : Image) : Prop where
  names_eq : image.symbols.variableNames = program.staticCells.map staticName
  nodup : image.symbols.variableNames.Nodup
  free : ∀ cell ∈ program.statics, image.symbols.fixed? (staticName cell) = none
  room : 16 + program.staticCells.length ≤ 16384

namespace StaticsAreVariables

variable {program : Program} {image : Image} (h : program.StaticsAreVariables image)
include h

theorem toNat_staticAddress {cell : String × Word} (hcell : cell ∈ program.statics) :
    (program.staticAddress cell).toNat = 16 + program.staticCells.idxOf cell := by
  have hlt := List.idxOf_lt_length_of_mem (mem_staticCells.mpr hcell)
  have hroom := h.room
  rw [staticAddress, BitVec.toNat_ofNat]
  omega

theorem staticAddress_lt {cell : String × Word} (hcell : cell ∈ program.statics) :
    (program.staticAddress cell).toNat < 16384 := by
  have hlt := List.idxOf_lt_length_of_mem (mem_staticCells.mpr hcell)
  have hroom := h.room
  rw [h.toNat_staticAddress hcell]
  omega

theorem staticAddress_injective {first second : String × Word}
    (hfirst : first ∈ program.statics) (hsecond : second ∈ program.statics)
    (hsame : program.staticAddress first = program.staticAddress second) :
    first = second := by
  have haddress := congrArg BitVec.toNat hsame
  rw [h.toNat_staticAddress hfirst, h.toNat_staticAddress hsecond, Nat.add_left_cancel_iff]
    at haddress
  have hfound := getElem?_idxOf_staticCells hfirst
  rw [haddress, getElem?_idxOf_staticCells hsecond] at hfound
  exact (Option.some.inj hfound).symm

theorem variableCell?_eq_some_iff {name : String} {value : Word} :
    image.symbols.variableCell? name = some value ↔
      ∃ n cell, program.staticCells[n]? = some cell ∧ name = staticName cell ∧
        value = BitVec.ofNat 16 (16 + n) := by
  rw [SymbolTable.variableCell?_eq_some_iff h.nodup, h.names_eq]
  constructor
  · rintro ⟨n, hn, rfl⟩
    rw [List.getElem?_map, Option.map_eq_some_iff] at hn
    rcases hn with ⟨cell, hcell, rfl⟩
    exact ⟨n, cell, hcell, rfl, rfl⟩
  · rintro ⟨n, cell, hcell, rfl, rfl⟩
    refine ⟨n, ?_, rfl⟩
    rw [List.getElem?_map, hcell, Option.map_some]

theorem get?_eq_some_iff {name : String} {value : Word} :
    (image.symbols.fixed? name = none ∧ image.symbols.get? name = some value) ↔
      ∃ n cell, program.staticCells[n]? = some cell ∧ name = staticName cell ∧
        value = BitVec.ofNat 16 (16 + n) := by
  rw [← h.variableCell?_eq_some_iff, SymbolTable.get?_eq_fixed?_or]
  constructor
  · rintro ⟨hnone, hget⟩
    rw [hnone, Option.none_or] at hget
    exact hget
  · intro hcell
    have hnone : image.symbols.fixed? name = none := by
      rcases h.variableCell?_eq_some_iff.mp hcell with ⟨n, cell, hn, rfl, -⟩
      exact h.free cell (mem_staticCells.mp (List.mem_of_getElem? hn))
    rw [hnone, Option.none_or]
    exact ⟨rfl, hcell⟩

theorem value_static {cell : String × Word} (hcell : cell ∈ program.statics)
    (hmodule : '/' ∉ cell.1.toList) :
    image.value (.static cell.1 cell.2) = program.staticAddress cell := by
  have hreferable := Symbol.referable_static hmodule cell.2
  have hget : image.symbols.get? (staticName cell) = some (program.staticAddress cell) :=
    (h.get?_eq_some_iff.mpr ⟨_, cell, getElem?_idxOf_staticCells hcell, rfl, rfl⟩).2
  rw [Image.value, SymbolTable.resolve?, hreferable.not_numeral, hreferable.operand_eq]
  simp only [String.ofList_toList]
  exact congrArg (Option.getD · 0) hget

end StaticsAreVariables
end Program

namespace Module

variable {modules : List Module} {options : Options} {lines : List String} {image : Image}

theorem variableNames_eq (hnames : ∀ m ∈ modules, '/' ∉ m.name.toList)
    (hlink : linkedLines modules options = .ok lines)
    (himage : Image.assemble lines = .ok image) (hclosed : (Program.ofModules modules).Closed)
    (hinit : options.bootstrap = true → (Program.ofModules modules).Defines "Sys.init")
    (hfree : ∀ cell ∈ (Program.ofModules modules).statics,
      image.symbols.fixed? (Program.staticName cell) = none) :
    image.symbols.variableNames =
      (Program.ofModules modules).staticCells.map Program.staticName := by
  rcases Image.assemble_symbols himage with ⟨hfixed, -, hvariables⟩
  have hlabels := definedLabels_of_link hlink
  rcases linkedLines_ok hlink with ⟨haccepts, rfl⟩
  rw [hvariables, Code.read_render (legible_linkedCode haccepts),
    Code.variables_statements (loadable_linkedCode hnames haccepts),
      references_linkedCode haccepts,
    Program.names_of_statics, statics_linkedReferences,
      eraseDups_map Program.staticName_injective]
  · rfl
  · intro s hs hstatic hnone
    have hmem := linkedReferences_defined hclosed hinit hs hstatic
    rw [hfixed, hlabels] at hnone
    exact hnone.2 (List.mem_map_of_mem hmem)
  · intro cell hcell
    rw [statics_linkedReferences] at hcell
    exact hfree cell hcell

theorem staticsAreVariables (hnames : ∀ m ∈ modules, '/' ∉ m.name.toList)
    (hlink : linkedLines modules options = .ok lines)
    (himage : Image.assemble lines = .ok image) (hsize : image.rom.size ≤ 32767)
    (hclosed : (Program.ofModules modules).Closed)
    (hinit : options.bootstrap = true → (Program.ofModules modules).Defines "Sys.init")
    (hunlabelled : ∀ cell ∈ (Program.ofModules modules).statics,
      Program.staticName cell ∉ Image.definedLabels lines) :
    (Program.ofModules modules).StaticsAreVariables image := by
  rcases Image.assemble_symbols himage with ⟨hfixed, hnodup, -⟩
  have hfree : ∀ cell ∈ (Program.ofModules modules).statics,
      image.symbols.fixed? (Program.staticName cell) = none := by
    intro cell hcell
    rw [hfixed]
    exact ⟨Program.not_predefined_staticName cell, hunlabelled cell hcell⟩
  have hvariables := variableNames_eq hnames hlink himage hclosed hinit hfree
  refine ⟨hvariables, hnodup, hfree, ?_⟩
  rcases linkedLines_ok hlink with ⟨haccepts, rfl⟩
  have hassembled : Assembled (linkedCode modules options) image :=
    ⟨legible_linkedCode haccepts, himage⟩
  have hcode : (linkedCode modules options).size ≤ 32767 := by
    rw [← Code.length_instructions image.value, ← hassembled.rom_eq, Array.length_toList]
    exact hsize
  have hfive := five_mul_statics_le haccepts
  have hcells : (Program.ofModules modules).staticCells.length ≤
      (Program.ofModules modules).statics.length := by
    rw [hvariables] at hnodup
    exact (hnodup.of_map.subperm fun cell => Program.mem_staticCells.mp).length_le
  -- Five instructions for every access keep the number of cells far below the screen.
  omega

namespace Loaded

variable (h : Loaded modules options image) {i : Nat} {module scope : String}
    {index : Word} {s : State}
include h

theorem attains_push_static (b : Block modules options i ⟨module, scope, .push .static index⟩)
    (hpc : s.pc = address modules options i) :
    s.Attains image.rom
      (((s.memory.load (image.value (.static module index))).bind s.memory.push).map
      fun m => (address modules options (i + 1), m)) := by
  have hcode : b.code = Code.pushCell (.static module index) := by
    have hbody := (Except.ok.inj b.body_eq).symm
    rw [b.module_eq] at hbody
    exact hbody
  refine h.attains_code b hpc hcode ?_
  intro hholds
  exact State.attains_perform hholds rfl (Code.view_pushCell image.value_register s _)

theorem attains_pop_static (b : Block modules options i ⟨module, scope, .pop .static index⟩)
    (hpc : s.pc = address modules options i) :
    s.Attains image.rom ((s.memory.popTo (image.value (.static module index))).map
      fun m => (address modules options (i + 1), m)) := by
  have hcode : b.code = Code.popCell (.static module index) := by
    have hbody := (Except.ok.inj b.body_eq).symm
    rw [b.module_eq] at hbody
    exact hbody
  refine h.attains_code b hpc hcode ?_
  intro hholds
  exact State.attains_perform hholds rfl (Code.view_popCell image.value_register s _)

end Loaded

/--
Static cells are isolated.  A module name and an index fix one cell: every push of it reads
that cell and every pop of it writes that cell, in all modules of the name.  Another name or
another index means another cell, whatever characters the names contain.  The variables of
the program are these cells and no others, in the order of first use from cell 16 on, below
the screen.
-/
theorem static_cells_isolated {machine : Machine} (hnames : ∀ m ∈ modules, '/' ∉ m.name.toList)
    (hlink : linkedLines modules options = .ok lines)
    (hload : Machine.load lines = .ok machine) (hsize : machine.image.rom.size ≤ 32767)
    (hclosed : (Program.ofModules modules).Closed)
    (hinit : options.bootstrap = true → (Program.ofModules modules).Defines "Sys.init")
    (hunlabelled : ∀ cell ∈ (Program.ofModules modules).statics,
      Program.staticName cell ∉ Image.definedLabels lines) :
    let program := Program.ofModules modules
    (∀ (i : Nat) (s : State) (module scope : String) (index : Word),
      s.pc = address modules options i →
      (program[i]? = some ⟨module, scope, .push .static index⟩ →
        s.Attains machine.image.rom
          ((s.memory.push (s.memory.get (program.staticAddress (module, index)))).map
          fun m => (address modules options (i + 1), m))) ∧
      (program[i]? = some ⟨module, scope, .pop .static index⟩ →
        s.Attains machine.image.rom
          ((s.memory.popTo (program.staticAddress (module, index))).map
          fun m => (address modules options (i + 1), m)))) ∧
    (∀ first ∈ program.statics, ∀ second ∈ program.statics,
      program.staticAddress first = program.staticAddress second → first = second) ∧
    machine.image.symbols.variableNames = program.staticCells.map Program.staticName ∧
    (∀ (name : String) (value : Word),
      (name ∉ Predefined.table.map Prod.fst ∧ name ∉ Image.definedLabels lines ∧
        machine.image.symbols.get? name = some value) ↔
      ∃ n cell, program.staticCells[n]? = some cell ∧ name = Program.staticName cell ∧
        value = BitVec.ofNat 16 (16 + n)) ∧
    16 + program.staticCells.length ≤ 16384 := by
  intro program
  rcases Machine.assemble_of_load hload with ⟨himage, -⟩
  rcases loaded_of_load hlink hload with ⟨hloaded, -⟩
  have hvariables : program.StaticsAreVariables machine.image :=
    staticsAreVariables hnames hlink himage hsize hclosed hinit hunlabelled
  have hvalue : ∀ cell ∈ program.statics,
      machine.image.value (.static cell.1 cell.2) = program.staticAddress cell := by
    intro cell hcell
    rcases exists_module_of_static hcell with ⟨m, hm, hname⟩
    exact hvariables.value_static hcell (hname ▸ hnames m hm)
  refine ⟨?_, ?_, hvariables.names_eq, ?_, hvariables.room⟩
  · intro i s module scope index hpc
    constructor
    · intro hp
      have hcell : (module, index) ∈ program.statics :=
        List.mem_filterMap.mpr ⟨_, List.mem_of_getElem? hp, rfl⟩
      rcases block_of_getElem? hloaded.accepts hp with ⟨b⟩
      have hattains := hloaded.attains_push_static b hpc
      have hlt := hvariables.staticAddress_lt hcell
      rw [hvalue _ hcell, Memory.load_of_lt _ (by omega)] at hattains
      exact hattains
    · intro hp
      have hcell : (module, index) ∈ program.statics :=
        List.mem_filterMap.mpr ⟨_, List.mem_of_getElem? hp, rfl⟩
      rcases block_of_getElem? hloaded.accepts hp with ⟨b⟩
      have hattains := hloaded.attains_pop_static b hpc
      rw [hvalue _ hcell] at hattains
      exact hattains
  · intro first hfirst second hsecond hsame
    exact hvariables.staticAddress_injective hfirst hsecond hsame
  · intro name value
    have hfixed := (Image.assemble_symbols himage).1 name
    rw [← and_assoc, ← hfixed]
    exact hvariables.get?_eq_some_iff

/-- Two modules of one name, and a module whose name and index run together with theirs. -/
def runTogetherNames : List Module :=
  [⟨"Sys", "function Sys.init 0\npush static 12\nlabel END\ngoto END\n"⟩,
    ⟨"Sys.1", "push static 2\neq\npop static 2\n"⟩, ⟨"Sys", "pop static 1\npop static 12\n"⟩]

theorem program_runTogetherNames :
    Program.ofModules runTogetherNames =
      [⟨"Sys", "", .function "Sys.init" 0⟩, ⟨"Sys", "Sys.init", .push .static 12⟩,
        ⟨"Sys", "Sys.init", .label "END"⟩,
        ⟨"Sys", "Sys.init", .goto "END"⟩, ⟨"Sys.1", "Sys.init", .push .static 2⟩,
        ⟨"Sys.1", "Sys.init", .operate (.compare .eq)⟩, ⟨"Sys.1", "Sys.init", .pop .static 2⟩,
        ⟨"Sys", "Sys.init", .pop .static 1⟩, ⟨"Sys", "Sys.init", .pop .static 12⟩] := by
  decide +kernel

theorem runTogetherNames_isolated :
    ∃ lines machine, linkedLines runTogetherNames ⟨true, true⟩ = .ok lines ∧
      Machine.load lines = .ok machine ∧
      machine.image.symbols.variableNames = ["Sys.12", "Sys.1.2", "Sys.1"] ∧
      (∀ s : State, s.pc = address runTogetherNames ⟨true, true⟩ 1 →
        s.Attains machine.image.rom ((s.memory.push (s.memory.get 16)).map
          fun m => (address runTogetherNames ⟨true, true⟩ 2, m))) ∧
      (∀ s : State, s.pc = address runTogetherNames ⟨true, true⟩ 8 →
        s.Attains machine.image.rom ((s.memory.popTo 16).map
          fun m => (address runTogetherNames ⟨true, true⟩ 9, m))) := by
  have hloads : loads runTogetherNames ⟨true, true⟩ = true := by
    decide +kernel
  have hcells : (Program.ofModules runTogetherNames).staticCells =
      [("Sys", 12), ("Sys.1", 2), ("Sys", 1)] := by
    rw [program_runTogetherNames]
    decide
  have haddress : (Program.ofModules runTogetherNames).staticAddress ("Sys", 12) = 16 := by
    rw [Program.staticAddress, hcells]
    rfl
  have hpush : (Program.ofModules runTogetherNames)[1]? =
      some ⟨"Sys", "Sys.init", .push .static 12⟩ := by
    rw [program_runTogetherNames]
    rfl
  have hpop : (Program.ofModules runTogetherNames)[8]? =
      some ⟨"Sys", "Sys.init", .pop .static 12⟩ := by
    rw [program_runTogetherNames]
    rfl
  have hclosed : (Program.ofModules runTogetherNames).Closed := by
    rw [program_runTogetherNames]
    decide
  have hinit : (Program.ofModules runTogetherNames).Defines "Sys.init" := by
    rw [program_runTogetherNames]
    decide
  rcases exists_machine_of_loads hloads with ⟨lines, machine, hlink, hload⟩
  have hsize : machine.image.rom.size ≤ 32767 := by
    rw [← Array.length_toList, (loaded_of_load hlink hload).1.assembled.rom_eq,
      Code.length_instructions]
    decide +kernel
  have hunlabelled : ∀ cell ∈ (Program.ofModules runTogetherNames).statics,
      Program.staticName cell ∉ Image.definedLabels lines := by
    rw [definedLabels_of_link hlink, program_runTogetherNames]
    decide +kernel
  have h := static_cells_isolated (by decide) hlink hload hsize hclosed
    (fun _ => hinit) hunlabelled
  rcases h with ⟨haccess, -, hvariables, -⟩
  refine ⟨lines, machine, hlink, hload, ?_, ?_, ?_⟩
  · rw [hvariables, hcells]
    decide
  · intro s hpc
    have hattains := (haccess 1 s _ _ _ hpc).1 hpush
    rw [haddress] at hattains
    exact hattains
  · intro s hpc
    have hattains := (haccess 8 s _ _ _ hpc).2 hpop
    rw [haddress] at hattains
    exact hattains

end Module
end HackVM
