import HackVM.Proofs.Execution
import HackVM.Proofs.Passes

/-!
# Label addresses

The first pass counts the lines in front of a label, and the second pass yields the
instructions.  The two agree on every line but one kind: a parenthesis that is not closed is
counted, and yields nothing.  So a label is off by the number of such lines before it, and
exact if there are none.
-/

namespace HackVM

/-!
## Counting statements

The two passes disagree on the statements that open a parenthesis and do not close it.
-/

namespace Statement

def isEmitted : Statement → Bool
  | .load _ | .compute _ => true
  | .blank | .label _ | .unclosed => false

def isUnclosed : Statement → Bool
  | .unclosed => true
  | .blank | .label _ | .load _ | .compute _ => false

theorem countP_isCounted (ss : List Statement) :
    ss.countP isCounted = ss.countP isEmitted + ss.countP isUnclosed := by
  induction ss with
  | nil => rfl
  | cons s rest ih =>
      have hs : (if s.isCounted then 1 else 0) = (if s.isEmitted then 1 else 0) +
          if s.isUnclosed then 1 else 0 := by
        cases s <;> rfl
      rw [List.countP_cons, List.countP_cons, List.countP_cons, ih, hs]
      omega

theorem countP_isUnclosed_eq_zero_iff {lines : List String} :
    (lines.map read).countP isUnclosed = 0 ↔ ∀ line ∈ lines, read line ≠ .unclosed := by
  have hunclosed : ∀ s : Statement, ¬ s.isUnclosed = true ↔ s ≠ .unclosed := by
    intro s
    cases s <;> simp [isUnclosed]
  simp only [List.countP_eq_zero, List.forall_mem_map, hunclosed]

end Statement

namespace Image

theorem step_size {image next : Image} {s : Statement} (h : image.step s = .ok next) :
    next.rom.size = image.rom.size + if s.isEmitted then 1 else 0 := by
  cases s with
  | blank | label name | unclosed =>
      cases h
      rfl
  | load operand =>
      rcases load_cases h with ⟨value, hrom, -, -⟩
      rw [hrom, Array.size_push]
      rfl
  | compute text =>
      simp only [step] at h
      cases hcompute : Instruction.ofCompute text with
      | error error =>
          rw [hcompute] at h
          cases h
      | ok instruction =>
          rw [hcompute] at h
          cases h
          exact Array.size_push instruction

theorem run_size {image last : Image} {ss : List Statement} (h : image.run ss = .ok last) :
    last.rom.size = image.rom.size + ss.countP Statement.isEmitted := by
  induction ss generalizing image with
  | nil =>
      cases h
      rfl
  | cons s rest ih =>
      rcases run_cons h with ⟨next, hstep, hrest⟩
      rw [ih hrest, step_size hstep, List.countP_cons]
      omega

theorem run_append_ok {image last : Image} {first second : List Statement}
    (h : image.run (first ++ second) = .ok last) :
    ∃ middle, image.run first = .ok middle ∧ middle.run second = .ok last := by
  rw [run_append] at h
  cases hfirst : image.run first with
  | error error =>
      rw [hfirst] at h
      cases h
  | ok middle =>
      rw [hfirst] at h
      exact ⟨middle, rfl, h⟩

/-!
## The second pass, part of the way

With the labels of the whole text, the program is cut where the text is cut.
-/

def assembleFront (lines front : List String) : Except AssemblyError Image :=
  match LabelPass.run {} (lines.map Statement.read) with
  | .error error => .error error
  | .ok labels => run { symbols := labels.symbols } (front.map Statement.read)

def produced (image : Image) (lines : List String) : List Instruction :=
  lines.filterMap fun line => (Statement.read line).instruction? image.symbols

theorem assembleFront_of_assemble {front back : List String} {image : Image}
    (h : assemble (front ++ back) = .ok image) :
    ∃ start, assembleFront (front ++ back) front = .ok start ∧
      start.rom.size = (front.map Statement.read).countP Statement.isEmitted ∧
      image.rom.toList = start.rom.toList ++ image.produced back := by
  rcases assemble_cases h with ⟨labels, hlabels, hrun⟩
  rw [List.map_append] at hrun
  rcases run_append_ok hrun with ⟨start, hfront, hback⟩
  refine ⟨start, ?_, ?_, ?_⟩
  · rw [assembleFront, hlabels]
    exact hfront
  · rw [run_size hfront]
    exact Nat.zero_add _
  · rw [run_rom hback, List.filterMap_map]
    rfl

/-!
## Labels

A label counts the statements before it, those included that yield no instruction.
-/

theorem get?_label {before after : List String} {line name : String} {image : Image}
    (hlabel : Statement.read line = .label name)
    (h : assemble (before ++ line :: after) = .ok image) :
    (before.map Statement.read).countP Statement.isCounted < 65536 ∧
      image.symbols.get? name =
        some (BitVec.ofNat 16 ((before.map Statement.read).countP Statement.isCounted)) := by
  rcases assemble_cases h with ⟨labels, hlabels, hrun⟩
  have hlimit := LabelPass.run_address_lt (by decide) hlabels
  have haddress := LabelPass.run_address hlabels
  rw [List.map_append, List.countP_append] at haddress
  rw [List.map_append, List.map_cons, hlabel] at hlabels
  have hvalue := LabelPass.run_label hlabels
  rw [Nat.zero_add] at hvalue
  refine ⟨?_, run_extends hrun _ _ hvalue⟩
  simp only [addressLimit] at hlimit
  omega

/-!
## Jumps

A jump that is taken continues at the value of the operand that was loaded before it.
-/

/--
Wherever a line loads the operand and a jump follows that is taken, the machine is at the
address two rounds later.  Where such a jump parks the machine, it is at the address already.
-/
def JumpsTo (lines : List String) (image : Image) (operand : List Char) (address : Nat) :
    Prop :=
  ∀ front line back, lines = front ++ line :: back → Statement.read line = .load operand →
    ∃ start, assembleFront lines front = .ok start ∧
      ∀ (s : State) (dest : Dest) (comp : Comp) (jump : Jump), s.pc = start.rom.size →
        image.rom[s.pc + 1]? = some (.compute dest comp jump) →
        ((Instruction.compute dest comp jump).touchesMemory = true → address < 32768) →
        jump.taken (comp.value (BitVec.ofNat 16 address) s.d
          (s.memory.get (BitVec.ofNat 16 address))) = true →
        (s.parked image.rom = true ∧ s.pc = address) ∨ ∃ t, State.run image.rom 2 s =
          (none, t) ∧ t.pc = address

end Image

theorem State.parked_or_run_of_jump {rom : Array Instruction} {s : State} {value : Word}
    {dest : Dest} {comp : Comp} {jump : Jump} (hload : rom[s.pc]? = some (.address value))
    (hjump : rom[s.pc + 1]? = some (.compute dest comp jump))
    (hcell : (Instruction.compute dest comp jump).touchesMemory = true → value.toNat < 32768)
    (htaken : jump.taken (comp.value value s.d (s.memory.get value)) = true) :
    (s.parked rom = true ∧ s.pc = value.toNat) ∨
      ∃ t, run rom 2 s = (none, t) ∧ t.pc = value.toNat := by
  cases hparked : s.parked rom with
  | true =>
      refine Or.inl ⟨rfl, Decidable.byContradiction ?_⟩
      intro hpc
      have hother := not_parked_of_next hload hjump fun htarget => absurd htarget.symm hpc
      rw [hparked] at hother
      cases hother
  | false =>
      have hfirst : s.step rom = .ok { s with a := value, pc := s.pc + 1 } :=
        step_eq_execute hload hparked rfl
      have hsecond := step_eq_execute (s := { s with a := value, pc := s.pc + 1 }) hjump
        (not_parked_of_compute hjump)
        (fault?_eq_none_iff.mpr hcell)
      have hrun := run_succ_of_step_ok 1 hfirst
      rw [run_succ_of_step_ok 0 hsecond, run_zero] at hrun
      refine Or.inr ⟨_, hrun, ?_⟩
      simp only [execute]
      rw [if_pos htaken]

namespace Image

theorem jumpsTo_of_resolve? {lines : List String} {image : Image} {operand : List Char}
    {value : Word} (h : assemble lines = .ok image)
    (hvalue : image.symbols.resolve? operand = some value) :
    JumpsTo lines image operand value.toNat := by
  rintro front line back rfl hline
  rcases assembleFront_of_assemble h with ⟨start, hstart, -, hrom⟩
  refine ⟨start, hstart, ?_⟩
  intro s dest comp jump hpc hjump hcell htaken
  have hload : image.rom[s.pc]? = some (.address value) := by
    have hproduced : image.produced (line :: back) = .address value ::
        image.produced back := by
      simp [produced, hline, Statement.instruction?, hvalue]
    rw [← Array.getElem?_toList, hrom, hproduced, hpc, ← Array.length_toList]
    simp
  rw [BitVec.ofNat_toNat, BitVec.setWidth_eq] at htaken
  exact State.parked_or_run_of_jump hload hjump hcell htaken

/-!
## Labels and the code that follows them

A label that is off by nothing is the address of the code that follows it.
-/

/--
A label gets the number of instructions that the lines before it produce, and one more for
each of these lines that opens a parenthesis and does not close it.  A jump to the label
continues there, unless the label reads like a number: then it continues at the number.  So a
jump to a label without such lines before it continues with the code that follows the label.
-/
theorem label_off_by_unclosed {lines before after : List String} {line name : String}
    {image : Image} (h : assemble lines = .ok image) (hlines : lines = before ++ line :: after)
    (hlabel : Statement.read line = .label name) :
    ∃ start, assembleFront lines before = .ok start ∧
      image.rom.toList = start.rom.toList ++ image.produced after ∧
      image.symbols.get? name =
        some (BitVec.ofNat 16
          (start.rom.size + (before.map Statement.read).countP Statement.isUnclosed)) ∧
      (image.symbols.get? name = some (BitVec.ofNat 16 start.rom.size) ↔
        ∀ l ∈ before, Statement.read l ≠ .unclosed) ∧
      (Text.signedWord? name.toList = none →
        JumpsTo lines image name.toList
          (start.rom.size + (before.map Statement.read).countP Statement.isUnclosed)) ∧
      ∀ value, Text.signedWord? name.toList = some value →
        JumpsTo lines image name.toList value.toNat := by
  subst hlines
  rcases assembleFront_of_assemble h with ⟨start, hstart, hsize, hrom⟩
  have hproduced : image.produced (line :: after) = image.produced after := by
    simp [produced, hlabel, Statement.instruction?]
  rcases get?_label hlabel h with ⟨hlimit, hvalue⟩
  rw [Statement.countP_isCounted, ← hsize] at hlimit hvalue
  refine ⟨start, hstart, ?_, hvalue, ?_, ?_, ?_⟩
  · rw [hrom, hproduced]
  · rw [hvalue, Option.some_inj, ← BitVec.toNat_inj, BitVec.toNat_ofNat, BitVec.toNat_ofNat,
      Nat.mod_eq_of_lt hlimit, Nat.mod_eq_of_lt (by omega), Nat.add_eq_left,
        Statement.countP_isUnclosed_eq_zero_iff]
  · intro hnumeral
    have hresolve : image.symbols.resolve? name.toList = image.symbols.get? name := by
      simp only [SymbolTable.resolve?, hnumeral, String.ofList_toList]
    have hjumps := jumpsTo_of_resolve? h (hresolve.trans hvalue)
    rw [BitVec.toNat_ofNat, Nat.mod_eq_of_lt hlimit] at hjumps
    exact hjumps
  · intro value hnumeral
    have hresolve : image.symbols.resolve? name.toList = some value := by
      simp only [SymbolTable.resolve?, hnumeral]
    exact jumpsTo_of_resolve? h hresolve

/-- Comments and empty lines in front of a label, and a jump back to it. -/
def commentedLoop : List String :=
  ["@7  // seven", "", "D=A", "  (LOOP)  // again", "D=D-1", "@LOOP", "// not yet", "D;JGT"]

theorem commentedLoop_addressed :
    ∃ image, assemble commentedLoop = .ok image ∧ image.symbols.get? "LOOP" = some 2 ∧
      JumpsTo commentedLoop image "LOOP".toList 2 := by
  have hfront :
      (assembleFront commentedLoop (commentedLoop.take 3)).toOption.map
        (fun start => start.rom.size) = some 2 := by
    decide +kernel
  cases himage : assemble commentedLoop with
  | error error =>
      have hok : (assemble commentedLoop).isOk = true := by
        decide +kernel
      rw [himage] at hok
      cases hok
  | ok image =>
      have hlabel : Statement.read "  (LOOP)  // again" = .label "LOOP" := by
        decide +kernel
      have hlines : commentedLoop = commentedLoop.take 3 ++ "  (LOOP)  // again" ::
        commentedLoop.drop 4 := rfl
      rcases label_off_by_unclosed himage hlines hlabel with
        ⟨start, hstart, -, hvalue, -, hjumps, -⟩
      have hunclosed : ((commentedLoop.take 3).map Statement.read).countP
          Statement.isUnclosed = 0 := by
        decide +kernel
      rw [hstart] at hfront
      have hsize : start.rom.size = 2 := Option.some_inj.mp hfront
      rw [hsize, hunclosed] at hvalue hjumps
      exact ⟨image, rfl, hvalue, hjumps (by decide +kernel)⟩

/--
The line before the label yields no instruction, and yet the label is not the address of the
first one.
-/
theorem unclosedLine_shifts_label :
    (assembleFront ["(START", "(L)", "@L", "0;JMP"] ["(START"]).toOption.map
      (fun start => start.rom.size) = some 0 ∧
    (assemble ["(START", "(L)", "@L", "0;JMP"]).toOption.map
      (fun image => (image.symbols.get? "L", image.rom[0]?)) =
      some (some 1, some (.address 1)) := by
  decide +kernel

end Image
end HackVM
