import HackVM.Assembler.Image

/-!
# The two passes of the assembler

What one statement does to the symbol table and to the program, and from it what a whole text
does.  A symbol that has a value keeps it for good, so every address that the second pass
loads can be read off the finished table.
-/

namespace HackVM

namespace Statement

def isCounted : Statement → Bool
  | .unclosed | .load _ | .compute _ => true
  | .blank | .label _ => false

def labelName? : Statement → Option String
  | .label name => some name
  | _ => none

end Statement

namespace SymbolTable

theorem lookup_eq_none_iff_not_mem {entries : List (String × Word)} {name : String} :
    entries.lookup name = none ↔ name ∉ entries.map Prod.fst := by
  rw [List.lookup_eq_none_iff, List.mem_map, not_exists]
  constructor
  · rintro h cell ⟨hcell, rfl⟩
    exact bne_iff_ne.mp (h cell hcell) rfl
  · intro h cell hcell
    rw [bne_iff_ne]
    rintro rfl
    exact h cell ⟨hcell, rfl⟩

theorem get?_empty (name : String) :
    ({} : SymbolTable).get? name = none ↔ name ∉ Predefined.table.map Prod.fst := by
  have hget : ({} : SymbolTable).get? name = Predefined.table.lookup name := by
    simp [get?, variableCell?]
  rw [hget, lookup_eq_none_iff_not_mem]

/-- Every symbol with a value in the first table has the same value in the second one. -/
def Extends (t u : SymbolTable) : Prop :=
  ∀ name value, t.get? name = some value → u.get? name = some value

theorem Extends.refl (t : SymbolTable) : t.Extends t := by
  intro name value h
  exact h

theorem Extends.trans {t u v : SymbolTable} (htu : t.Extends u) (huv : u.Extends v) :
    t.Extends v := by
  intro name value h
  exact huv name value (htu name value h)

theorem get?_addLabel (t : SymbolTable) {name : String} (address : Word)
    (h : t.get? name = none) (other : String) :
    (t.addLabel name address).get? other = if other = name then
      some address else t.get? other := by
  unfold get? at h ⊢
  rw [Option.or_eq_none_iff, Option.or_eq_none_iff] at h
  by_cases hother : other = name
  · subst hother
    simp [addLabel, h.1]
  · have hne : (other == name) = false := by simpa using hother
    simp [addLabel, List.lookup_cons, hne, hother, variableCell?]

theorem extends_addLabel (t : SymbolTable) {name : String} (address : Word)
    (h : t.get? name = none) :
    t.Extends (t.addLabel name address) := by
  intro other value hvalue
  rw [get?_addLabel t address h, if_neg]
  · exact hvalue
  · rintro rfl
    rw [h] at hvalue
    cases hvalue

theorem variableCell?_addVariable (t : SymbolTable) (name other : String) :
    (t.addVariable name).variableCell? other =
      (t.variableCell? other).or (if other = name then
        some (BitVec.ofNat 16 t.nextVariable) else none) := by
  unfold variableCell? addVariable nextVariable List.idxOf?
  rw [List.findIdx?_append]
  cases hfind : t.variableNames.findIdx? (· == other) with
  | some n => simp
  | none =>
      by_cases hother : other = name
      · subst hother
        simp
      · have hne : (name == other) = false := by
          simpa using fun h : name = other => hother h.symm
        simp [hne, hother]

theorem get?_addVariable (t : SymbolTable) {name : String} (h : t.get? name = none)
    (other : String) :
    (t.addVariable name).get? other =
      if other = name then some (BitVec.ofNat 16 t.nextVariable) else t.get? other := by
  have hget : (t.addVariable name).get? other =
      (t.get? other).or (if other = name then
        some (BitVec.ofNat 16 t.nextVariable) else none) := by
    unfold get?
    rw [variableCell?_addVariable, Option.or_assoc, Option.or_assoc]
    rfl
  rw [hget]
  by_cases hother : other = name
  · subst hother
    simp [h]
  · simp [hother]

theorem extends_addVariable (t : SymbolTable) {name : String} (h : t.get? name = none) :
    t.Extends (t.addVariable name) := by
  intro other value hvalue
  rw [get?_addVariable t h, if_neg]
  · exact hvalue
  · rintro rfl
    rw [h] at hvalue
    cases hvalue

def resolve? (t : SymbolTable) (operand : List Char) : Option Word :=
  match Text.signedWord? operand with
  | some value => some value
  | none => t.get? (String.ofList operand)

theorem Extends.resolve? {t u : SymbolTable} (h : t.Extends u) {operand : List Char}
    {value : Word} (hvalue : t.resolve? operand = some value) :
    u.resolve? operand = some value := by
  unfold SymbolTable.resolve? at hvalue ⊢
  split at hvalue
  · exact hvalue
  · exact h _ _ hvalue

/-- The names are new to the table, and they differ from each other. -/
structure Admits (t : SymbolTable) (names : List String) : Prop where
  nodup : names.Nodup
  new : ∀ name ∈ names, t.get? name = none

theorem admits_empty_iff {names : List String} :
    ({} : SymbolTable).Admits names ↔ names.Nodup ∧
      ∀ name ∈ names, name ∉ Predefined.table.map Prod.fst := by
  constructor
  · intro h
    exact ⟨h.nodup, fun name hname => (get?_empty name).mp (h.new name hname)⟩
  · intro h
    exact ⟨h.1, fun name hname => (get?_empty name).mpr (h.2 name hname)⟩

theorem admits_cons {t : SymbolTable} {name : String} {names : List String} (address : Word) :
    t.Admits (name :: names) ↔ t.get? name = none ∧
      (t.addLabel name address).Admits names := by
  constructor
  · intro h
    have hname := h.new name List.mem_cons_self
    have hnodup := List.nodup_cons.mp h.nodup
    refine ⟨hname, hnodup.2, ?_⟩
    intro other hother
    have hne : other ≠ name := by
      rintro rfl
      exact hnodup.1 hother
    rw [get?_addLabel t address hname, if_neg hne]
    exact h.new other (List.mem_cons_of_mem _ hother)
  · rintro ⟨hname, h⟩
    have hother : ∀ other ∈ names, other ≠ name ∧ t.get? other = none := by
      intro other hother
      have hnew := h.new other hother
      rw [get?_addLabel t address hname] at hnew
      split at hnew
      · cases hnew
      · next hne => exact ⟨hne, hnew⟩
    constructor
    · rw [List.nodup_cons]
      exact ⟨fun hmem => (hother name hmem).1 rfl, h.nodup⟩
    · intro other hmem
      rcases List.mem_cons.mp hmem with rfl | hmem
      · exact hname
      · exact (hother other hmem).2

end SymbolTable

/-!
## First pass

The table of the first pass has no variables.  The address counts the statements that take
one, and a label gets the number of the addresses taken before it.
-/

namespace LabelPass

theorem step_cases {p q : LabelPass} {s : Statement} (h : p.step s = .ok q) :
    (s = .blank ∧ q = p) ∨
    (∃ name, s = .label name ∧ p.symbols.get? name = none ∧
      q = { p with symbols := p.symbols.addLabel name (BitVec.ofNat 16 p.address) }) ∨
    (s.isCounted = true ∧ s.labelName? = none ∧ p.address + 1 < addressLimit ∧
      q = { p with address := p.address + 1 }) := by
  cases s with
  | blank =>
      cases h
      exact Or.inl ⟨rfl, rfl⟩
  | label name =>
      simp only [step] at h
      split at h
      · cases h
      · next hnone =>
          cases h
          exact Or.inr (Or.inl ⟨name, rfl, by simpa using hnone, rfl⟩)
  | unclosed | load operand | compute text =>
      simp only [step] at h
      split at h
      · next hlimit =>
          cases h
          exact Or.inr (Or.inr ⟨rfl, rfl, hlimit, rfl⟩)
      · cases h

theorem run_cons {p : LabelPass} {s : Statement} {rest : List Statement} {q : LabelPass}
    (h : p.run (s :: rest) = .ok q) : ∃ next, p.step s = .ok next ∧ next.run rest = .ok q := by
  rw [run] at h
  split at h
  · next next hstep => exact ⟨next, hstep, h⟩
  · cases h

theorem run_append_ok {p q : LabelPass} {first second : List Statement}
    (h : p.run (first ++ second) = .ok q) :
    ∃ middle, p.run first = .ok middle ∧ middle.run second = .ok q := by
  rw [run_append] at h
  cases hfirst : p.run first with
  | error error =>
      rw [hfirst] at h
      cases h
  | ok middle =>
      rw [hfirst] at h
      exact ⟨middle, rfl, h⟩

theorem step_extends {p q : LabelPass} {s : Statement} (h : p.step s = .ok q) :
    p.symbols.Extends q.symbols := by
  rcases step_cases h with ⟨-, rfl⟩ | ⟨name, -, hnone, rfl⟩ | ⟨-, -, -, rfl⟩
  · exact .refl _
  · exact SymbolTable.extends_addLabel _ _ hnone
  · exact .refl _

theorem run_extends {p q : LabelPass} {ss : List Statement} (h : p.run ss = .ok q) :
    p.symbols.Extends q.symbols := by
  induction ss generalizing p with
  | nil =>
      cases h
      exact .refl _
  | cons s rest ih =>
      rcases run_cons h with ⟨next, hstep, hrest⟩
      exact (step_extends hstep).trans (ih hrest)

theorem run_address {p q : LabelPass} {ss : List Statement} (h : p.run ss = .ok q) :
    q.address = p.address + ss.countP Statement.isCounted := by
  induction ss generalizing p with
  | nil =>
      cases h
      rfl
  | cons s rest ih =>
      rcases run_cons h with ⟨next, hstep, hrest⟩
      rw [ih hrest, List.countP_cons]
      rcases step_cases hstep with ⟨rfl, rfl⟩ | ⟨name, rfl, -, rfl⟩ | ⟨hcounted, -, -, rfl⟩
      · simp [Statement.isCounted]
      · simp [Statement.isCounted]
      · simp only [hcounted, if_true]
        omega

theorem run_address_lt {p q : LabelPass} {ss : List Statement}
    (hp : p.address < addressLimit) (h : p.run ss = .ok q) : q.address < addressLimit := by
  induction ss generalizing p with
  | nil =>
      cases h
      exact hp
  | cons s rest ih =>
      rcases run_cons h with ⟨next, hstep, hrest⟩
      refine ih ?_ hrest
      rcases step_cases hstep with ⟨-, rfl⟩ | ⟨name, -, -, rfl⟩ | ⟨-, -, hlimit, rfl⟩
      · exact hp
      · exact hp
      · exact hlimit

theorem run_label {p q : LabelPass} {before after : List Statement} {name : String}
    (h : p.run (before ++ .label name :: after) = .ok q) :
    q.symbols.get? name =
      some (BitVec.ofNat 16 (p.address + before.countP Statement.isCounted)) := by
  rcases run_append_ok h with ⟨middle, hbefore, hrest⟩
  rcases run_cons hrest with ⟨next, hstep, hafter⟩
  apply run_extends hafter
  rcases step_cases hstep with ⟨hblank, -⟩ | ⟨other, hlabel, hnone, rfl⟩ | ⟨hcounted, -, -, -⟩
  · cases hblank
  · cases hlabel
    rw [SymbolTable.get?_addLabel _ _ hnone, if_pos rfl, run_address hbefore]
  · cases hcounted

theorem run_nextVariable {p q : LabelPass} {ss : List Statement} (h : p.run ss = .ok q) :
    q.symbols.nextVariable = p.symbols.nextVariable := by
  induction ss generalizing p with
  | nil =>
      cases h
      rfl
  | cons s rest ih =>
      rcases run_cons h with ⟨next, hstep, hrest⟩
      rw [ih hrest]
      rcases step_cases hstep with ⟨-, rfl⟩ | ⟨name, -, -, rfl⟩ | ⟨-, -, -, rfl⟩ <;> rfl

/--
The first pass succeeds if the table admits the labels.  Otherwise a label is refused, or
there is no room.
-/
theorem run_cases (p : LabelPass) (ss : List Statement) :
    (∃ q, p.run ss = .ok q ∧ p.symbols.Admits (ss.filterMap Statement.labelName?)) ∨
    (∃ name, p.run ss = .error (.duplicateLabel name) ∧
      ¬ p.symbols.Admits (ss.filterMap Statement.labelName?)) ∨
    (p.run ss = .error .tooManyLines ∧
      addressLimit ≤ p.address + ss.countP Statement.isCounted) := by
  induction ss generalizing p with
  | nil =>
      refine Or.inl ⟨p, rfl, List.nodup_nil, ?_⟩
      intro name hname
      cases hname
  | cons s rest ih =>
      cases s with
      | blank => exact ih p
      | label name =>
          have hnames : (Statement.label name :: rest).filterMap Statement.labelName? =
              name :: rest.filterMap Statement.labelName? := rfl
          rw [hnames, SymbolTable.admits_cons (BitVec.ofNat 16 p.address)]
          by_cases hnew : p.symbols.get? name = none
          · have hstep : p.run (.label name :: rest) =
                run
                  { p with symbols := p.symbols.addLabel name (BitVec.ofNat 16 p.address) }
                  rest := by
              simp [run, step, hnew]
            rw [hstep]
            simpa [hnew, Statement.isCounted] using
              ih { p with symbols := p.symbols.addLabel name (BitVec.ofNat 16 p.address) }
          · have hstep : p.run (.label name :: rest) = .error (.duplicateLabel name) := by
              simp [run, step, Option.isSome_iff_ne_none.mpr hnew]
            exact Or.inr (Or.inl ⟨name, hstep, fun h => hnew h.1⟩)
      | unclosed | load operand | compute text =>
          rw [List.filterMap_cons_none rfl, List.countP_cons_of_pos rfl]
          by_cases hlimit : p.address + 1 < addressLimit
          · have hnext := ih { p with address := p.address + 1 }
            simp only [run, step, if_pos hlimit]
            rw [Nat.add_right_comm] at hnext
            exact hnext
          · refine Or.inr (Or.inr ⟨?_, by omega⟩)
            simp only [run, step, if_neg hlimit]

end LabelPass

/-!
## Second pass

A statement appends the instruction it stands for, and takes no value from a symbol.  So the
program holds, in order, the instructions that the statements stand for under the finished
table.
-/

namespace Statement

def instruction? (t : SymbolTable) : Statement → Option Instruction
  | .load operand => (t.resolve? operand).map .address
  | .compute text => (Instruction.ofCompute text).toOption
  | .blank | .label _ | .unclosed => none

/-- The second pass cannot fail on the statement, if there is room for a variable. -/
def Sound : Statement → Prop
  | .load operand => ∀ value, Text.signedWord? operand = some value →
      value.toNat < Image.literalLimit
  | .compute text => ∃ instruction, Instruction.ofCompute text = .ok instruction
  | .blank | .label _ | .unclosed => True

end Statement

namespace Image

theorem load_cases {image next : Image} {operand : List Char}
    (h : image.load operand = .ok next) :
    ∃ value, next.rom = image.rom.push (.address value) ∧
      next.symbols.resolve? operand = some value ∧ image.symbols.Extends next.symbols := by
  unfold load at h
  split at h
  · next value hvalue =>
      split at h
      · cases h
        exact ⟨value, rfl, by simp [SymbolTable.resolve?, hvalue], .refl _⟩
      · cases h
  · next hnumeral =>
      simp only at h
      split at h
      · next value hvalue =>
          cases h
          exact ⟨value, rfl, by simp [SymbolTable.resolve?, hnumeral, hvalue, add], .refl _⟩
      · next hnone =>
          split at h
          · cases h
            refine ⟨_, rfl, ?_, SymbolTable.extends_addVariable _ hnone⟩
            simp [SymbolTable.resolve?, hnumeral, SymbolTable.get?_addVariable _ hnone]
          · cases h

theorem step_spec {image next : Image} {s : Statement} (h : image.step s = .ok next) :
    image.symbols.Extends next.symbols ∧
      ∀ t, next.symbols.Extends t → next.rom.toList = image.rom.toList ++
        (s.instruction? t).toList := by
  cases s with
  | blank | label name | unclosed =>
      cases h
      refine ⟨.refl _, ?_⟩
      intro t ht
      simp [Statement.instruction?]
  | load operand =>
      rcases load_cases h with ⟨value, hrom, hvalue, hextends⟩
      refine ⟨hextends, ?_⟩
      intro t ht
      simp [Statement.instruction?, ht.resolve? hvalue, hrom]
  | compute text =>
      simp only [step] at h
      cases hcompute : Instruction.ofCompute text with
      | error error =>
          rw [hcompute] at h
          cases h
      | ok instruction =>
          rw [hcompute] at h
          cases h
          refine ⟨.refl _, ?_⟩
          intro t ht
          simp [Statement.instruction?, hcompute, add, Except.toOption]

theorem run_cons {image last : Image} {s : Statement} {rest : List Statement}
    (h : image.run (s :: rest) = .ok last) :
    ∃ next, image.step s = .ok next ∧ next.run rest = .ok last := by
  rw [run] at h
  split at h
  · next next hstep => exact ⟨next, hstep, h⟩
  · cases h

theorem run_extends {image last : Image} {ss : List Statement} (h : image.run ss = .ok last) :
    image.symbols.Extends last.symbols := by
  induction ss generalizing image with
  | nil =>
      cases h
      exact .refl _
  | cons s rest ih =>
      rcases run_cons h with ⟨next, hstep, hrest⟩
      exact (step_spec hstep).1.trans (ih hrest)

theorem run_rom {image last : Image} {ss : List Statement} (h : image.run ss = .ok last) :
    last.rom.toList = image.rom.toList ++ ss.filterMap
      (Statement.instruction? last.symbols) := by
  induction ss generalizing image with
  | nil =>
      cases h
      simp
  | cons s rest ih =>
      rcases run_cons h with ⟨next, hstep, hrest⟩
      rw [ih hrest, (step_spec hstep).2 last.symbols (run_extends hrest), List.filterMap_cons]
      cases s.instruction? last.symbols <;> simp

theorem run_resolves {image last : Image} {ss : List Statement} (h : image.run ss = .ok last)
    {operand : List Char} (hmem : Statement.load operand ∈ ss) :
    ∃ value, last.symbols.resolve? operand = some value := by
  induction ss generalizing image with
  | nil => cases hmem
  | cons s rest ih =>
      rcases run_cons h with ⟨next, hstep, hrest⟩
      rcases List.mem_cons.mp hmem with rfl | hmem
      · rcases load_cases hstep with ⟨value, -, hvalue, -⟩
        exact ⟨value, (run_extends hrest).resolve? hvalue⟩
      · exact ih hrest hmem

/-! Labels are the business of the first pass only. -/

theorem step_ne_duplicateLabel (image : Image) (s : Statement) (name : String) :
    image.step s ≠ .error (.duplicateLabel name) := by
  intro h
  cases s with
  | blank | label other | unclosed => cases h
  | load operand =>
      simp only [step, load] at h
      split at h
      · split at h <;> cases h
      · split at h
        · cases h
        · split at h <;> cases h
  | compute text =>
      have hcompute : Instruction.ofCompute text = .error (.duplicateLabel name) := by
        cases hresult : Instruction.ofCompute text with
        | error error =>
            rw [step, hresult] at h
            cases h
            rfl
        | ok instruction =>
            rw [step, hresult] at h
            cases h
      simp only [Instruction.ofCompute] at hcompute
      split at hcompute
      · cases hcompute
      · split at hcompute
        · cases hcompute
        · split at hcompute <;> cases hcompute

theorem run_ne_duplicateLabel (image : Image) (ss : List Statement) (name : String) :
    image.run ss ≠ .error (.duplicateLabel name) := by
  induction ss generalizing image with
  | nil =>
      intro h
      cases h
  | cons s rest ih =>
      intro h
      rw [run] at h
      split at h
      · exact ih _ h
      · next error hstep =>
          cases h
          exact image.step_ne_duplicateLabel s name hstep

theorem load_of_sound (image : Image) {operand : List Char}
    (h : (Statement.load operand).Sound)
    (hroom : image.symbols.nextVariable + 1 < addressLimit) :
    ∃ next, image.load operand = .ok next ∧
      next.symbols.nextVariable ≤ image.symbols.nextVariable + 1 := by
  unfold load
  split
  · next value hvalue =>
      rw [if_pos (h value hvalue)]
      exact ⟨_, rfl, Nat.le_succ _⟩
  · dsimp only
    split
    · exact ⟨_, rfl, Nat.le_succ _⟩
    · rw [if_pos hroom]
      refine ⟨_, rfl, ?_⟩
      simp [SymbolTable.nextVariable, SymbolTable.addVariable, Nat.add_assoc]

theorem run_of_sound {image : Image} {ss : List Statement} (h : ∀ s ∈ ss, s.Sound)
    (hroom : image.symbols.nextVariable + ss.countP Statement.isCounted < addressLimit) :
    ∃ last, image.run ss = .ok last := by
  induction ss generalizing image with
  | nil => exact ⟨image, rfl⟩
  | cons s rest ih =>
      have hrest : ∀ s ∈ rest, s.Sound := fun s hs => h s (List.mem_cons_of_mem _ hs)
      have hs := h s List.mem_cons_self
      cases s with
      | blank | label name => exact ih hrest hroom
      | unclosed =>
          rw [List.countP_cons_of_pos rfl] at hroom
          exact ih hrest (by omega)
      | load operand =>
          rw [List.countP_cons_of_pos rfl] at hroom
          rcases image.load_of_sound hs (by omega) with ⟨next, hnext, hvariables⟩
          simp only [run, step, hnext]
          exact ih hrest (by omega)
      | compute text =>
          rw [List.countP_cons_of_pos rfl] at hroom
          rcases hs with ⟨instruction, hinstruction⟩
          simp only [run, step, hinstruction]
          exact ih hrest (by show image.symbols.nextVariable + _ < _; omega)

theorem assemble_cases {lines : List String} {image : Image} (h : assemble lines = .ok image) :
    ∃ labels, LabelPass.run {} (lines.map Statement.read) = .ok labels ∧
      run { symbols := labels.symbols } (lines.map Statement.read) = .ok image := by
  unfold assemble at h
  simp only at h
  split at h
  · cases h
  · next labels hlabels => exact ⟨labels, hlabels, h⟩

def definedLabels (lines : List String) : List String :=
  lines.filterMap fun line => (Statement.read line).labelName?

theorem definedLabels_eq (lines : List String) :
    definedLabels lines = (lines.map Statement.read).filterMap Statement.labelName? := by
  rw [definedLabels, List.filterMap_map]
  rfl

theorem assemble_labels (lines : List String) :
    (SymbolTable.Admits {} (definedLabels lines) ∧
      ∀ name, assemble lines ≠ .error (.duplicateLabel name)) ∨
    (¬ SymbolTable.Admits {} (definedLabels lines) ∧
      ∃ name, assemble lines = .error (.duplicateLabel name)) ∨
    (assemble lines = .error .tooManyLines ∧
      addressLimit ≤ (lines.map Statement.read).countP Statement.isCounted) := by
  rw [definedLabels_eq]
  rcases LabelPass.run_cases {} (lines.map Statement.read) with
    ⟨q, hrun, hadmits⟩ | ⟨name, hrun, hadmits⟩ | ⟨hrun, hroom⟩
  · refine Or.inl ⟨hadmits, ?_⟩
    intro name h
    rw [assemble, hrun] at h
    exact run_ne_duplicateLabel _ _ name h
  · refine Or.inr (Or.inl ⟨hadmits, name, ?_⟩)
    rw [assemble, hrun]
  · refine Or.inr (Or.inr ⟨?_, ?_⟩)
    · rw [assemble, hrun]
    · simpa using hroom

/--
A text of sound statements that leaves room for variables assembles exactly if its labels are
admitted.
-/
theorem assemble_outcome {lines : List String}
    (hsound : ∀ line ∈ lines, (Statement.read line).Sound)
    (hroom : (lines.map Statement.read).countP Statement.isCounted < 65520) :
    (SymbolTable.Admits {} (definedLabels lines) ∧ ∃ image, assemble lines = .ok image) ∨
    (¬ SymbolTable.Admits {} (definedLabels lines) ∧
      ∃ name, assemble lines = .error (.duplicateLabel name)) := by
  rw [definedLabels_eq]
  rcases LabelPass.run_cases {} (lines.map Statement.read) with
    ⟨q, hrun, hadmits⟩ | ⟨name, hrun, hadmits⟩ | ⟨-, hfull⟩
  · have hvariables : q.symbols.nextVariable = 16 := LabelPass.run_nextVariable hrun
    refine Or.inl ⟨hadmits, ?_⟩
    rw [assemble, hrun]
    apply run_of_sound
    · intro s hs
      rcases List.mem_map.mp hs with ⟨line, hline, rfl⟩
      exact hsound line hline
    · show q.symbols.nextVariable + _ < 65536
      omega
  · refine Or.inr ⟨hadmits, name, ?_⟩
    rw [assemble, hrun]
  · simp only [addressLimit, Nat.zero_add] at hfull
    omega

end Image
end HackVM
