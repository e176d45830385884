import HackVM.Proofs.Legibility

/-!
# Linked code is accepted

Whatever the linker emits, the assembler takes, as long as it fits and no label is defined
twice: no literal is too large, no computation is unknown, and no name is mistaken for a
number.  The names of modules come from outside, so they are asked not to contain a slash,
which could start a comment.
-/

namespace HackVM

/-!
## References

A name that is referred to must be read as a whole, and not as a number.
-/

namespace Symbol

/-- A reference to the symbol is read as the whole of its name, and not as a number. -/
structure Referable (s : Symbol) : Prop where
  operand_eq : s.operand = s.name.toList
  not_numeral : Text.signedWord? s.operand = none

theorem Legible.referable {s : Symbol} (h : s.Legible) : s.Referable :=
  ⟨h.operand_eq, h.signedWord?_operand⟩

theorem legible_register (r : Register) : (Symbol.register r).Legible := by
  have hall : ∀ r : Register, (r.name.toList.all Text.isNameChar &&
      r.name.toList.any fun c => !c.isDigit) = true := by
    intro r
    cases r with
    | numbered i =>
        revert i
        decide +kernel
    | _ => rfl
  have hname := hall r
  rw [Bool.and_eq_true, List.all_eq_true, List.any_eq_true] at hname
  rcases hname with ⟨hchars, c, hc, hdigit⟩
  exact ⟨hchars, c, hc, by simpa using hdigit⟩

theorem referable_static {module : String} (h : '/' ∉ module.toList) (index : Word) :
    (Symbol.static module index).Referable := by
  have hname : (Symbol.static module index).name.toList = module.toList ++
      '.' :: index.render.toList := by
    simp [name]
  have hdigits : ∀ c ∈ index.render.toList, c.isDigit = true := fun c hc =>
    Text.isDigit_of_mem_repr hc
  have hoperand : (Symbol.static module index).operand =
      (Symbol.static module index).name.toList := by
    apply operand_eq_name
    · rw [hname]
      intro hmem
      rcases List.mem_append.mp hmem with hmem | hmem
      · exact h hmem
      · rcases List.mem_cons.mp hmem with hdot | hmem
        · cases hdot
        · cases hdigits '/' hmem
    · intro c hc
      -- The last character is a digit of the index, or the dot.
      have hmem : c ∈ '.' :: index.render.toList := by
        rw [hname, List.getLast?_append_of_ne_nil _ (List.cons_ne_nil _ _)] at hc
        exact List.mem_of_getLast? hc
      rcases List.mem_cons.mp hmem with rfl | hmem
      · decide
      · exact Text.isBlank_of_isNameChar (Text.isNameChar_of_isDigit (hdigits c hmem))
  refine ⟨hoperand, ?_⟩
  rw [hoperand, hname]
  exact Text.signedWord?_eq_none (c := '.') (by simp) (by decide) (by decide)

end Symbol

/-!
## Code that can be loaded

The second pass can fail on a literal that is too large, and on a reference that is not read
as a symbol.  No command has either in its code, since cells are reached by small literals or
under names that can be referred to.
-/

def Item.Loadable : Item → Prop
  | .refer symbol => symbol.Referable
  | .literal value => value.toNat ≤ maxLiteral
  | .comment _ | .label _ | .compute _ _ _ => True

theorem Item.sound_statement {item : Item} (h : item.Loadable) : item.statement.Sound := by
  cases item with
  | comment text => trivial
  | label symbol => trivial
  | refer symbol =>
      intro value hvalue
      rw [h.not_numeral] at hvalue
      cases hvalue
  | literal word =>
      intro value hvalue
      rw [Text.signedWord?_render] at hvalue
      cases hvalue
      have hle : word.toNat ≤ 32767 := h
      show word.toNat < 32768
      omega
  | compute dest comp jump => exact ⟨_, Instruction.ofCompute_render dest comp jump⟩

namespace Code

def Loadable (code : Code) : Prop :=
  ∀ item ∈ code, item.Loadable

@[simp] theorem loadable_nil : Loadable [] := by
  intro item hitem
  cases hitem

@[simp] theorem loadable_cons (item : Item) (code : Code) :
    Loadable (item :: code) ↔ item.Loadable ∧ Loadable code :=
  List.forall_mem_cons

@[simp] theorem loadable_append (first second : Code) :
    Loadable (first ++ second) ↔ Loadable first ∧ Loadable second :=
  List.forall_mem_append

theorem loadable_flatten {blocks : List Code} (h : ∀ block ∈ blocks, Loadable block) :
    Loadable blocks.flatten := by
  intro item hitem
  rcases List.mem_flatten.mp hitem with ⟨block, hblock, hmem⟩
  exact h block hblock item hmem

@[simp] theorem loadable_cell (r : Register) : (Item.cell r).Loadable :=
  (Symbol.legible_register r).referable

@[simp] theorem loadable_assign (dest : Dest) (comp : Comp) :
    (Item.assign dest comp).Loadable :=
  trivial

@[simp] theorem loadable_branch (comp : Comp) (jump : Jump) :
    (Item.branch comp jump).Loadable :=
  trivial

@[simp] theorem loadable_label (symbol : Symbol) : (Item.label symbol).Loadable :=
  trivial

@[simp] theorem loadable_refer (symbol : Symbol) :
    (Item.refer symbol).Loadable ↔ symbol.Referable :=
  Iff.rfl

@[simp] theorem loadable_literal (value : Word) :
    (Item.literal value).Loadable ↔ value.toNat ≤ maxLiteral :=
  Iff.rfl

@[simp] theorem loadable_pushData : Loadable pushData := by
  simp [pushData]

@[simp] theorem loadable_popData : Loadable popData := by
  simp [popData]

@[simp] theorem loadable_goto (target : Symbol) :
    Loadable (goto target) ↔ target.Referable := by
  simp [goto]

theorem loadable_function (name : String) (locals : Word) :
    Loadable (function name locals) := by
  rw [function, loadable_cons]
  refine ⟨trivial, loadable_flatten ?_⟩
  intro block hblock
  rw [List.eq_of_mem_replicate hblock]
  simp

theorem loadable_call {name : String} (hname : Text.isName name.toList = true)
    {arguments : Word} (harguments : arguments.toNat ≤ maxArguments) (number : Nat) :
    Loadable (call name arguments number) := by
  have hreturned := (Symbol.legible_returned hname number).referable
  have hentry := (Symbol.legible_entry hname).referable
  have hregister : ∀ r, (Symbol.register r).Referable := fun r =>
    (Symbol.legible_register r).referable
  have hsum : (arguments.toNat + savedWords) % 65536 ≤ maxLiteral := by
    have hle : arguments.toNat ≤ 32762 := harguments
    show (arguments.toNat + 5) % 65536 ≤ 32767
    omega
  simp [call, pushCell, hreturned, hentry, hregister, hsum]

theorem loadable_ret : Loadable ret := by
  simp [ret, restore, maxLiteral, savedWords]

theorem loadable_bootstrap (number : Nat) : Loadable (bootstrap number) := by
  rw [bootstrap, loadable_append]
  refine ⟨?_, loadable_call (by decide) (by decide) number⟩
  simp [stackBase, maxLiteral]

end Code

theorem Access.loadable_of_find {module : String} (hmodule : '/' ∉ module.toList)
    {segment : Segment} {index : Word} {access : Access}
    (h : find module segment index = .ok access) :
    (access.pushCode index).Loadable ∧ (access.popCode index).Loadable := by
  have hdirect : ∀ symbol : Symbol, symbol.Referable →
      ((Access.direct symbol).pushCode index).Loadable ∧
        ((Access.direct symbol).popCode index).Loadable := by
    intro symbol hsymbol
    simp [pushCode, popCode, Code.pushCell, Code.popCell, hsymbol]
  rcases find_cases h with ⟨-, rfl⟩ | ⟨-, ⟨r, rfl⟩ | ⟨hindex, base, rfl⟩⟩
  · exact hdirect _ (Symbol.referable_static hmodule index)
  · exact hdirect _ (Symbol.legible_register r).referable
  · simp [pushCode, popCode, Code.pushIndexed, Code.popIndexed, hindex]

namespace Emitter

theorem loadable_body {e : Emitter} {command : Command} {code : Code}
    (hmodule : '/' ∉ e.module.toList) (hscope : e.WellScoped) (hcommand : command.WellNamed)
    (h : e.body command = .ok code) : code.Loadable := by
  cases command with
  | operate op =>
      cases op with
      | unary op | binary op =>
          cases h
          simp [Code.unary, Code.binary]
      | compare op =>
          cases h
          simp [Code.compare, (Symbol.legible_holds _).referable,
            (Symbol.legible_compared _).referable]
  | push segment index =>
      rcases pushCode_cases h with ⟨-, hindex, rfl⟩ | ⟨-, access, hfind, rfl⟩
      · simp [Code.pushConstant, hindex]
      · exact (Access.loadable_of_find hmodule hfind).1
  | pop segment index =>
      rcases popCode_cases h with ⟨access, hfind, rfl⟩
      exact (Access.loadable_of_find hmodule hfind).2
  | label name =>
      cases h
      simp
  | goto name | ifGoto name =>
      cases h
      simp [Code.ifGoto, (Symbol.legible_scoped hscope hcommand).referable]
  | function name locals =>
      cases h
      exact Code.loadable_function name locals
  | call name arguments =>
      simp only [body] at h
      split at h
      · next harguments =>
          cases h
          exact Code.loadable_call hcommand harguments _
      · cases h
  | ret =>
      cases h
      exact Code.loadable_ret

theorem loadable_annotated (e : Emitter) (text : String) {code : Code} (h : code.Loadable) :
    (e.annotated text code).Loadable := by
  unfold annotated
  split
  · exact (Code.loadable_cons _ _).mpr ⟨trivial, h⟩
  · exact h

theorem mem_of_mem_trace {e : Emitter} {commands : List (String × Command)}
    {met : Emitter × Command} (h : met ∈ e.trace commands) :
    (met.1.module, met.2) ∈ commands := by
  induction commands generalizing e with
  | nil => cases h
  | cons pair rest ih =>
      rcases List.mem_cons.mp h with rfl | h
      · exact List.mem_cons_self
      · exact List.mem_cons_of_mem _ (ih h)

end Emitter

namespace Module

theorem module_of_mem_commands {m : Module} {pair : String × Command} (h : pair ∈ m.commands) :
    pair.1 = m.name := by
  unfold commands at h
  split at h
  · rcases List.mem_map.mp h with ⟨line, -, rfl⟩
    rfl
  · cases h

variable {modules : List Module} {options : Options}

theorem exists_of_mem_allCommands {module : String} {command : Command}
    (h : (module, command) ∈ allCommands modules) :
    ∃ m ∈ modules, module = m.name := by
  rcases List.mem_flatMap.mp h with ⟨m, hm, hcommand⟩
  exact ⟨m, hm, module_of_mem_commands hcommand⟩

theorem loadable_linkedCode (hnames : ∀ m ∈ modules, '/' ∉ m.name.toList)
    (haccepts : (opener modules options).Accepts (allCommands modules)) :
    (linkedCode modules options).Loadable := by
  rw [linkedCode, Code.loadable_append]
  constructor
  · unfold preamble
    split
    · exact Emitter.loadable_annotated _ _ (Code.loadable_bootstrap _)
    · exact Code.loadable_nil
  · apply Code.loadable_flatten
    intro block hblock
    rcases List.mem_map.mp hblock with ⟨met, hmet, rfl⟩
    rcases haccepts met hmet with ⟨body, hbody⟩
    have hwell := Emitter.wellScoped_trace (wellScoped_opener modules options)
      (wellNamed_commands modules) met hmet
    have hmodule : '/' ∉ met.1.module.toList := by
      rcases exists_of_mem_allCommands (Emitter.mem_of_mem_trace hmet) with ⟨m, hm, hname⟩
      rw [hname]
      exact hnames m hm
    rw [Emitter.codeOf_eq hbody]
    exact Emitter.loadable_annotated _ _ (Emitter.loadable_body hmodule hwell.1 hwell.2 hbody)

end Module

/-!
## Lines of a text

Instruction lines are those that are neither comments nor definitions of labels.  They stand
in the same order as the instructions, one for one.
-/

def isInstructionLine (line : String) : Bool :=
  match line.toList with
  | '/' :: '/' :: _ | '(' :: _ => false
  | _ => true

namespace Item

theorem exists_cons_of_compute (dest : Dest) (comp : Comp) (jump : Jump) :
    ∃ c rest, (Item.compute dest comp jump).render.toList = c :: rest ∧ c ≠ '/' ∧ c ≠ '(' := by
  cases htext : (Item.compute dest comp jump).render.toList with
  | nil =>
      rw [Instruction.toList_render_compute, List.append_eq_nil_iff, List.append_eq_nil_iff]
        at htext
      exact absurd htext.1.2 (Instruction.comp_spelling_ne_nil comp)
  | cons c rest =>
      have hc : c ∈ (Item.compute dest comp jump).render.toList := by
        rw [htext]
        exact List.mem_cons_self
      have hvisible := visible_of_mem_compute hc
      exact ⟨c, rest, rfl, hvisible.2.1, hvisible.2.2.1⟩

theorem isInstructionLine_render (item : Item) :
    isInstructionLine item.render = item.isInstruction := by
  cases item with
  | comment text => simp [isInstructionLine, render, isInstruction]
  | label symbol => simp [isInstructionLine, render, isInstruction]
  | refer symbol => simp [isInstructionLine, render, isInstruction]
  | literal value => simp [isInstructionLine, render, isInstruction]
  | compute dest comp jump =>
      rcases exists_cons_of_compute dest comp jump with ⟨c, rest, htext, hslash, hparen⟩
      unfold isInstructionLine
      rw [htext]
      split
      · next heq => exact absurd (List.cons.inj heq).1 hslash
      · next heq => exact absurd (List.cons.inj heq).1 hparen
      · rfl

theorem eq_label_of_render {item : Item} {name : String}
    (h : item.render = "(" ++ name ++ ")") :
    ∃ symbol, item = .label symbol ∧ symbol.name = name := by
  have htext : item.render.toList = '(' :: (name.toList ++ [')']) := by
    rw [h]
    simp
  cases item with
  | comment text => simp [render] at htext
  | label symbol =>
      refine ⟨symbol, rfl, ?_⟩
      simpa [render, String.toList_inj] using htext
  | refer symbol => simp [render] at htext
  | literal value => simp [render] at htext
  | compute dest comp jump =>
      rcases exists_cons_of_compute dest comp jump with ⟨c, rest, hrender, -, hparen⟩
      rw [hrender] at htext
      exact absurd (List.cons.inj htext).1 hparen

end Item

namespace Code

theorem countP_isInstructionLine (code : Code) :
    code.render.countP isInstructionLine = code.size := by
  rw [render, List.countP_map, size]
  congr 1
  funext item
  exact item.isInstructionLine_render

theorem sound_of_render {code : Code} (hlegible : ∀ item ∈ code, item.Legible)
    (hloadable : code.Loadable) :
    ∀ line ∈ code.render, (Statement.read line).Sound := by
  intro line hline
  rcases List.mem_map.mp hline with ⟨item, hitem, rfl⟩
  rw [Item.read_render (hlegible item hitem)]
  exact Item.sound_statement (hloadable item hitem)

end Code

namespace Assembled

variable {code : Code} {image : Image}

theorem instruction_lines (h : Assembled code image) :
    (code.render.filter isInstructionLine).map
      (fun line => (Statement.read line).instruction? image.symbols) =
      image.rom.toList.map some := by
  have hall : ∀ part : Code, (∀ item ∈ part, item ∈ code) →
      (part.render.filter isInstructionLine).map
        (fun line => (Statement.read line).instruction? image.symbols) =
        (part.instructions image.value).map some := by
    intro part hpart
    induction part with
    | nil => rfl
    | cons item rest ih =>
        have hitem := hpart item List.mem_cons_self
        have hrest := ih fun other hother => hpart other (List.mem_cons_of_mem _ hother)
        have hread : (Statement.read item.render).instruction? image.symbols =
            item.instruction? image.value := by
          rw [Item.read_render (h.legible item hitem), h.instruction?_statement hitem]
        have hline := item.isInstructionLine_render
        show ((item.render :: Code.render rest).filter _).map _ = _
        cases item with
        | comment text | label symbol =>
            rw [List.filter_cons_of_neg (by rw [hline]; exact Bool.false_ne_true)]
            exact hrest
        | refer symbol | literal word | compute dest comp jump =>
            rw [List.filter_cons_of_pos (by rw [hline]; rfl), List.map_cons, hrest, hread]
            rfl
  rw [hall code (fun item hitem => hitem), h.rom_eq]

theorem get?_of_line (h : Assembled code image) {before after : List String} {name : String}
    (hlines : code.render = before ++ ("(" ++ name ++ ")") :: after) :
    ∃ value, image.symbols.get? name = some value ∧
      value.toNat = before.countP isInstructionLine := by
  rcases List.map_eq_append_iff.mp hlines with ⟨first, rest, hcode, rfl, hrest⟩
  rcases List.map_eq_cons_iff.mp hrest with ⟨item, second, rfl, hitem, rfl⟩
  rcases Item.eq_label_of_render hitem with ⟨symbol, rfl, rfl⟩
  have hsize := h.size_lt
  rw [hcode, Code.size_append] at hsize
  refine ⟨_, h.get?_label hcode, ?_⟩
  rw [← Code.render, Code.countP_isInstructionLine, BitVec.toNat_ofNat]
  omega

end Assembled

/--
The assembler takes what the linker emits, if it fits.  It refuses only labels that are
defined twice or that are predefined.  Otherwise there is one instruction for each
instruction line, in their order, and a label stands for the number of instruction lines
before it.  References to names are never taken for numbers.
-/
theorem Module.linked_lines_assemble {modules : List Module} {options : Options}
    {lines : List String} (hnames : ∀ m ∈ modules, '/' ∉ m.name.toList)
    (hlink : linkedLines modules options = .ok lines)
    (hsize : lines.countP isInstructionLine ≤ 32767) :
    (∀ error, Machine.load lines = .error error → ∃ name, error = .duplicateLabel name) ∧
    ((∃ name, Machine.load lines = .error (.duplicateLabel name)) ↔
      ¬ (Image.definedLabels lines).Nodup ∨
        ∃ name ∈ Image.definedLabels lines, name ∈ Predefined.table.map Prod.fst) ∧
    (∀ machine, Machine.load lines = .ok machine →
      (lines.filter isInstructionLine).map
        (fun line => (Statement.read line).instruction? machine.image.symbols) =
        machine.image.rom.toList.map some ∧
      ∀ before name after, lines = before ++ ("(" ++ name ++ ")") :: after →
        ∃ value, machine.image.symbols.get? name = some value ∧
          value.toNat = before.countP isInstructionLine) ∧
    (lines = (linkedCode modules options).render ∧
      ∀ symbol, Item.refer symbol ∈ linkedCode modules options →
        Statement.read ("@" ++ symbol.name) = .load symbol.name.toList ∧
          Text.signedWord? symbol.name.toList = none) := by
  rcases linkedLines_ok hlink with ⟨haccepts, rfl⟩
  have hlegible := legible_linkedCode haccepts
  have hloadable := loadable_linkedCode hnames haccepts
  rw [Code.countP_isInstructionLine] at hsize
  have hcount : ((linkedCode modules options).render.map Statement.read).countP
      Statement.isCounted ≤ 32767 := by
    rw [Code.read_render hlegible, Code.countP_statement]
    exact hsize
  have hroom : ((linkedCode modules options).render.map Statement.read).countP
      Statement.isCounted < 65520 := by
    omega
  have hrefused : ¬ SymbolTable.Admits {}
    (Image.definedLabels (linkedCode modules options).render) ↔
      ¬ (Image.definedLabels (linkedCode modules options).render).Nodup ∨
        ∃ name ∈ Image.definedLabels (linkedCode modules options).render,
          name ∈ Predefined.table.map Prod.fst := by
    simp only [SymbolTable.admits_empty_iff, Classical.not_and_iff_not_or_not,
      Classical.not_forall, Classical.not_not, exists_prop]
  have houtcome := Image.assemble_outcome (Code.sound_of_render hlegible hloadable) hroom
  simp only [Machine.load_eq_error, ← hrefused]
  refine ⟨?_, ?_, ?_, trivial, ?_⟩
  · intro error herror
    rcases houtcome with ⟨-, image, himage⟩ | ⟨-, name, hduplicate⟩
    · rw [himage] at herror
      cases herror
    · rw [hduplicate] at herror
      cases herror
      exact ⟨name, rfl⟩
  · rcases houtcome with ⟨hfine, image, himage⟩ | ⟨hbad, hduplicate⟩
    · constructor
      · rintro ⟨name, herror⟩
        rw [himage] at herror
        cases herror
      · intro hbad
        exact absurd hfine hbad
    · exact ⟨fun _ => hbad, fun _ => hduplicate⟩
  · intro machine hload
    have hassembled : Assembled (linkedCode modules options) machine.image :=
      ⟨hlegible, (Machine.assemble_of_load hload).1⟩
    refine ⟨hassembled.instruction_lines, ?_⟩
    intro before name after hlines
    exact hassembled.get?_of_line hlines
  · intro symbol hsymbol
    have hreferable : symbol.Referable := hloadable _ hsymbol
    rw [← hreferable.operand_eq]
    exact ⟨Item.read_refer symbol, hreferable.not_numeral⟩

/-- A module that is named like a number, with a static cell. -/
def Module.numericName : List Module :=
  [⟨"7",
    "function f 0\npush static 3\npush constant 32767\neq\n" ++
    "if-goto END\ncall f 1\nlabel END\n"⟩]

theorem Module.numericName_assembles :
    ∃ lines machine, linkedLines Module.numericName {} = .ok lines ∧
      Machine.load lines = .ok machine ∧
      (lines.filter isInstructionLine).map
        (fun line => (Statement.read line).instruction? machine.image.symbols) =
        machine.image.rom.toList.map some ∧
      Statement.read "@7.3" = .load ['7', '.', '3'] ∧
        Text.signedWord? ['7', '.', '3'] = none := by
  have hok : (linkedLines Module.numericName {}).isOk = true := by
    decide +kernel
  rcases exists_of_isOk hok with ⟨lines, hlink⟩
  have hlines := (linkedLines_ok hlink).2
  have hsize : lines.countP isInstructionLine ≤ 32767 := by
    rw [hlines]
    decide +kernel
  have hloads : (Machine.load lines).isOk = true := by
    rw [hlines]
    decide +kernel
  rcases exists_of_isOk hloads with ⟨machine, hload⟩
  have h := linked_lines_assemble (by decide +kernel) hlink hsize
  have hsymbol := h.2.2.2.2 (.static "7" 3) (by decide +kernel)
  exact ⟨lines, machine, hlink, hload, (h.2.2.1 machine hload).1, hsymbol⟩

end HackVM
