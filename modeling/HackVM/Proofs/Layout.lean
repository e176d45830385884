import Mathlib.Data.List.Basic
import HackVM.Machine.Probe
import HackVM.Proofs.Passes
import HackVM.Proofs.Reading

/-!
# The layout of assembled code

Symbolic code is laid out item by item: comments and labels take no room, and every other
item becomes one instruction.  A label stands for the amount of code in front of it.
-/

namespace HackVM

namespace Item

def isInstruction : Item → Bool
  | .comment _ | .label _ => false
  | .refer _ | .literal _ | .compute _ _ _ => true

def instruction? (value : Symbol → Word) : Item → Option Instruction
  | .comment _ | .label _ => none
  | .refer symbol => some (.address (value symbol))
  | .literal word => some (.address word)
  | .compute dest comp jump => some (.compute dest comp jump)

def label? : Item → Option Symbol
  | .label symbol => some symbol
  | _ => none

theorem isCounted_statement (item : Item) : item.statement.isCounted = item.isInstruction := by
  cases item <;> rfl

end Item

namespace Code

def size (code : Code) : Nat :=
  code.countP Item.isInstruction

def instructions (value : Symbol → Word) (code : Code) : List Instruction :=
  code.filterMap (Item.instruction? value)

def labels (code : Code) : List Symbol :=
  code.filterMap Item.label?

/-! The three views of code are computed item by item. -/

@[simp] theorem labels_nil : labels [] = [] := rfl

@[simp] theorem labels_append (first second : Code) :
    labels (first ++ second) = labels first ++ labels second := by
  simp [labels]

@[simp] theorem labels_comment (text : String) (code : Code) :
    labels (.comment text :: code) = labels code := rfl

@[simp] theorem labels_label (symbol : Symbol) (code : Code) :
    labels (.label symbol :: code) = symbol :: labels code := rfl

@[simp] theorem labels_refer (symbol : Symbol) (code : Code) :
    labels (.refer symbol :: code) = labels code := rfl

@[simp] theorem labels_literal (word : Word) (code : Code) :
    labels (.literal word :: code) = labels code := rfl

@[simp] theorem labels_compute (dest : Dest) (comp : Comp) (jump : Jump) (code : Code) :
    labels (.compute dest comp jump :: code) = labels code := rfl

theorem labels_flatten (blocks : List Code) :
    labels blocks.flatten = (blocks.map labels).flatten := by
  induction blocks with
  | nil => rfl
  | cons block blocks ih =>
      rw [List.flatten_cons, labels_append, ih, List.map_cons, List.flatten_cons]

theorem legible_of_labels {code : Code} (h : ∀ symbol ∈ code.labels, symbol.Legible) :
    ∀ item ∈ code, item.Legible := by
  intro item hitem
  cases item with
  | label symbol => exact h symbol (List.mem_filterMap.mpr ⟨_, hitem, rfl⟩)
  | _ => trivial

@[simp] theorem size_nil : size [] = 0 := rfl

@[simp] theorem size_append (first second : Code) :
    size (first ++ second) = size first + size second := by
  simp [size]

@[simp] theorem size_comment (text : String) (code : Code) :
    size (.comment text :: code) = size code := rfl

@[simp] theorem size_label (symbol : Symbol) (code : Code) :
    size (.label symbol :: code) = size code := rfl

@[simp] theorem size_refer (symbol : Symbol) (code : Code) :
    size (.refer symbol :: code) = size code + 1 :=
  List.countP_cons_of_pos rfl

@[simp] theorem size_literal (word : Word) (code : Code) :
    size (.literal word :: code) = size code + 1 :=
  List.countP_cons_of_pos rfl

@[simp] theorem size_compute (dest : Dest) (comp : Comp) (jump : Jump) (code : Code) :
    size (.compute dest comp jump :: code) = size code + 1 :=
  List.countP_cons_of_pos rfl

@[simp] theorem instructions_nil (value : Symbol → Word) : instructions value [] = [] := rfl

@[simp] theorem instructions_append (value : Symbol → Word) (first second : Code) :
    instructions value (first ++ second) = instructions value first ++
      instructions value second := by
  simp [instructions]

@[simp] theorem instructions_comment (value : Symbol → Word) (text : String) (code : Code) :
    instructions value (.comment text :: code) = instructions value code := rfl

@[simp] theorem instructions_label (value : Symbol → Word) (symbol : Symbol) (code : Code) :
    instructions value (.label symbol :: code) = instructions value code := rfl

@[simp] theorem instructions_refer (value : Symbol → Word) (symbol : Symbol) (code : Code) :
    instructions value (.refer symbol :: code) = .address (value symbol) ::
      instructions value code := rfl

@[simp] theorem instructions_literal (value : Symbol → Word) (word : Word) (code : Code) :
    instructions value (.literal word :: code) = .address word :: instructions value code :=
      rfl

@[simp] theorem instructions_compute (value : Symbol → Word) (dest : Dest) (comp : Comp)
    (jump : Jump) (code : Code) :
    instructions value (.compute dest comp jump :: code) = .compute dest comp jump ::
      instructions value code := rfl

@[simp] theorem length_instructions (value : Symbol → Word) (code : Code) :
    (instructions value code).length = code.size := by
  induction code with
  | nil => rfl
  | cons item code ih =>
      cases item <;> simp [ih]

theorem countP_statement (code : Code) :
    (code.map Item.statement).countP Statement.isCounted = code.size := by
  rw [List.countP_map, size]
  congr 1
  funext item
  exact item.isCounted_statement

end Code

namespace Image

/-- The value that a finished table gives to a symbol. -/
def value (image : Image) (symbol : Symbol) : Word :=
  (image.symbols.resolve? symbol.operand).getD 0

end Image

/-!
## The named cells

Whatever else a table holds, a register stands for its cell.
-/

def Register.cell : Register → Word
  | .sp => 0
  | .lcl => 1
  | .arg => 2
  | .this => 3
  | .that => 4
  | .numbered i => BitVec.ofNat 16 i

namespace Register

@[simp] theorem cell_sp : sp.cell = 0 := rfl

@[simp] theorem cell_lcl : lcl.cell = 1 := rfl

@[simp] theorem cell_arg : arg.cell = 2 := rfl

@[simp] theorem cell_this : this.cell = 3 := rfl

@[simp] theorem cell_that : that.cell = 4 := rfl

@[simp] theorem cell_thirteen : (numbered 13).cell = 13 := rfl

@[simp] theorem cell_fourteen : (numbered 14).cell = 14 := rfl

theorem cell_lt (r : Register) : r.cell.toNat < 32768 := by
  cases r with
  | numbered i =>
      simp only [cell, BitVec.toNat_ofNat]
      omega
  | _ => decide

end Register

theorem Image.value_register (image : Image) (r : Register) :
    image.value (.register r) = r.cell := by
  have hread : Text.signedWord? (Symbol.register r).operand = none ∧
      Predefined.table.lookup (String.ofList (Symbol.register r).operand) = some r.cell := by
    cases r with
    | numbered i =>
        revert i
        decide +kernel
    | _ => decide +kernel
  simp [Image.value, SymbolTable.resolve?, SymbolTable.get?, hread.1, hread.2]

/-!
## Code that was assembled

The program consists of the instructions of the items, in their order.
-/

namespace Machine

variable {lines : List String}

theorem load_eq_error {error : AssemblyError} :
    load lines = .error error ↔ Image.assemble lines = .error error := by
  unfold load
  cases Image.assemble lines with
  | error other =>
      constructor <;>
        · intro h
          cases h
          rfl
  | ok image =>
      constructor <;>
        · intro h
          cases h

theorem assemble_of_load {machine : Machine} (h : load lines = .ok machine) :
    Image.assemble lines = .ok machine.image ∧ machine.state = {} := by
  unfold load at h
  cases himage : Image.assemble lines with
  | error error =>
      rw [himage] at h
      cases h
  | ok image =>
      rw [himage] at h
      cases h
      exact ⟨rfl, rfl⟩

end Machine

/-- The image is what legible code assembles to. -/
structure Assembled (code : Code) (image : Image) : Prop where
  legible : ∀ item ∈ code, item.Legible
  accepted : Image.assemble code.render = .ok image

namespace Assembled

variable {code : Code} {image : Image}

theorem passes (h : Assembled code image) :
    ∃ labels, LabelPass.run {} (code.map Item.statement) = .ok labels ∧
      Image.run { symbols := labels.symbols } (code.map Item.statement) = .ok image := by
  rcases Image.assemble_cases h.accepted with ⟨labels, hlabels, himage⟩
  rw [Code.read_render h.legible] at hlabels himage
  exact ⟨labels, hlabels, himage⟩

theorem instruction?_statement (h : Assembled code image) {item : Item} (hitem : item ∈ code) :
    item.statement.instruction? image.symbols = item.instruction? image.value := by
  rcases h.passes with ⟨labels, -, himage⟩
  cases item with
  | comment text => rfl
  | label symbol => rfl
  | refer symbol =>
      have hmem : Statement.load symbol.operand ∈ code.map Item.statement :=
        List.mem_map.mpr ⟨_, hitem, rfl⟩
      rcases Image.run_resolves himage hmem with ⟨value, hvalue⟩
      simp [Item.statement, Statement.instruction?, Item.instruction?, Image.value, hvalue]
  | literal word =>
      simp [Item.statement, Statement.instruction?, Item.instruction?, SymbolTable.resolve?,
        Text.signedWord?_render]
  | compute dest comp jump =>
      simp [Item.statement, Statement.instruction?, Item.instruction?,
        Instruction.ofCompute_render, Except.toOption]

theorem rom_eq (h : Assembled code image) :
    image.rom.toList = code.instructions image.value := by
  rcases h.passes with ⟨labels, -, himage⟩
  rw [Image.run_rom himage, List.filterMap_map, Code.instructions]
  show List.filterMap (Statement.instruction? image.symbols ∘ Item.statement) code = _
  apply List.filterMap_congr
  intro item hitem
  exact h.instruction?_statement hitem

theorem size_lt (h : Assembled code image) : code.size < 65536 := by
  rcases h.passes with ⟨labels, hlabels, -⟩
  have haddress := LabelPass.run_address hlabels
  have hlimit := LabelPass.run_address_lt (by decide) hlabels
  rw [Code.countP_statement] at haddress
  simp only [addressLimit] at hlimit
  omega

/-- A label that the code defines has the amount of code before it as its value. -/
theorem get?_label (h : Assembled code image) {before after : Code} {symbol : Symbol}
    (hcode : code = before ++ .label symbol :: after) :
    image.symbols.get? symbol.name = some (BitVec.ofNat 16 before.size) := by
  rcases h.passes with ⟨labels, hlabels, himage⟩
  apply Image.run_extends himage
  rw [hcode, List.map_append, List.map_cons] at hlabels
  have hlabel := LabelPass.run_label hlabels
  rw [Code.countP_statement] at hlabel
  simpa using hlabel

theorem toNat_value_label (h : Assembled code image) {before after : Code} {symbol : Symbol}
    (hcode : code = before ++ .label symbol :: after) :
    (image.value symbol).toNat = before.size := by
  have hmem : Item.label symbol ∈ code := by
    rw [hcode]
    simp
  have hlegible : symbol.Legible := h.legible _ hmem
  have hsize := h.size_lt
  rw [hcode, Code.size_append] at hsize
  rw [Image.value, SymbolTable.resolve?, hlegible.signedWord?_operand, hlegible.operand_eq]
  simp only [String.ofList_toList, h.get?_label hcode, Option.getD_some, BitVec.toNat_ofNat]
  omega

end Assembled
end HackVM
