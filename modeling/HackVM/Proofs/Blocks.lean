import Mathlib.Data.BitVec
import HackVM.Proofs.Execution
import HackVM.Proofs.Layout
import HackVM.Proofs.StackMachine

/-!
# What the pieces of code do

Every piece of code that the emitter uses is executed once, for any state, and its effect is
compared with the operation of the stack machine that it stands for.  The two agree on the
memory they leave behind, and on the address at which they stop.
-/

namespace HackVM

/-!
## Instructions, one by one

An instruction is executed or faults; both are computed from the registers and the addressed
cell.
-/

namespace Comp

theorem value_of_plain {comp : Comp} (h : comp.readsMemory = false) (a d m : Word) :
    comp.value a d m = comp.value a d 0 := by
  cases comp with
  | zero | one | minusOne | d | notD | negD | incD | decD => rfl
  | copy x | not x | neg x | inc x | dec x | add x | sub x | subFrom x | and x | or x =>
      cases x with
      | a => rfl
      | m => cases h

end Comp

namespace State

def keep (s : State) (dest : Dest) (m : Memory) (result : Word) : State :=
  { memory := m
    pc := s.pc + 1
    a := if dest.hasA then result else s.a
    d := if dest.hasD then result else s.d }

theorem perform_nil (s : State) : s.perform [] = .ok s := rfl

theorem perform_address (s : State) (value : Word) (is : List Instruction) :
    s.perform (.address value :: is) =
      State.perform { s with a := value, pc := s.pc + 1 } is := rfl

theorem perform_compute (s : State) (dest : Dest) (comp : Comp) (is : List Instruction) :
    s.perform (.compute dest comp .never :: is) =
      if dest.hasM then
        (s.memory.store s.a (comp.value s.a s.d (s.memory.get s.a))).bind fun m =>
          (s.keep dest m (comp.value s.a s.d (s.memory.get s.a))).perform is
      else if comp.readsMemory then
        (s.memory.load s.a).bind fun x =>
          (s.keep dest s.memory (comp.value s.a s.d x)).perform is
      else (s.keep dest s.memory (comp.value s.a s.d 0)).perform is := by
  rw [perform, Memory.load, Memory.store]
  by_cases h : s.a.toNat < Memory.size
  · have hfault : s.fault? (.compute dest comp .never) = none := by
      simp [fault?, Nat.not_le.mpr h]
    simp only [hfault, execute, if_pos h, ok_bind, Jump.taken, keep]
    cases hdest : dest.hasM with
    | true => rfl
    | false =>
        cases hcomp : comp.readsMemory with
        | true => rfl
        | false =>
            rw [Comp.value_of_plain hcomp]
            rfl
  · simp only [fault?, Instruction.touchesMemory, Nat.not_lt.mp h, decide_true,
      Bool.and_true, if_neg h, error_bind]
    cases hdest : dest.hasM with
    | true => simp
    | false =>
        cases hcomp : comp.readsMemory with
        | true => rfl
        | false => simp [execute, hdest, Comp.value_of_plain hcomp, Jump.taken, keep]

/-!
## From one command to the next

The registers are not handed on from one command to the next.  What counts is the counter and
the memory.
-/

def view (s : State) : Nat × Memory :=
  (s.pc, s.memory)

/-- The machine gets to a place with a memory, or stops at an address, as the result says. -/
def Attains (rom : Array Instruction) (s : State) : Except Word (Nat × Memory) → Prop
  | .ok place => ∃ t, s.Reaches rom t ∧ t.view = place
  | .error address => s.Faults rom address

variable {rom : Array Instruction} {s t : State}

theorem Leads.attains {result : Except Word State} (h : s.Leads rom result) :
    s.Attains rom (result.map view) := by
  cases result with
  | ok t => exact ⟨t, h, rfl⟩
  | error address => exact h

theorem Reaches.attains {result : Except Word (Nat × Memory)} (hst : s.Reaches rom t)
    (ht : t.Attains rom result) :
    s.Attains rom result := by
  cases result with
  | ok place =>
      rcases ht with ⟨u, htu, hview⟩
      exact ⟨u, hst.trans htu, hview⟩
  | error address => exact hst.faults ht

theorem Attains.bind {pc : Nat} {result : Except Word Memory}
    {next : Memory → Except Word (Nat × Memory)}
    (h : s.Attains rom (result.map fun m => (pc, m)))
    (hnext : ∀ t : State, t.pc = pc → t.Attains rom (next t.memory)) :
    s.Attains rom (result.bind next) := by
  cases result with
  | error address => exact h
  | ok m =>
      rcases h with ⟨t, hst, hview⟩
      cases hview
      exact hst.attains (hnext t rfl)

theorem attains_perform {is : List Instruction} {result : Except Word (Nat × Memory)}
    (hcode : HoldsAt rom s.pc is) (hstraight : Instruction.straight is = true)
    (hview : (s.perform is).map view = result) : s.Attains rom result := by
  rw [← hview]
  exact (leads_perform hcode hstraight).attains

end State

attribute [local simp] State.perform_address State.perform_compute State.keep
  Comp.readsMemory Comp.value Comp.value.pick Dest.hasA Dest.hasD Dest.hasM Item.assign
  Item.cell Memory.get_set Memory.load_of_lt Memory.store_of_lt State.perform_nil
  State.perform_append State.view bind_def map_def pure_def ok_bind bind_bind map_eq_bind

namespace Code

open State (perform)

/-!
## Straight pieces

Pieces without jumps are executed symbolically, whatever the memory holds.
-/

variable {value : Symbol → Word} (hvalue : ∀ r, value (.register r) = r.cell)
include hvalue

theorem perform_pushData (s : State) :
    s.perform (instructions value pushData) =
      (s.memory.push s.d).map fun m =>
        { memory := m, pc := s.pc + 4, a := s.memory.get 0, d := s.d } := by
  simp [pushData, hvalue, Memory.push]

theorem perform_popData (s : State) :
    s.perform (instructions value popData) =
      s.memory.pop.map fun top =>
        { memory := top.2, pc := s.pc + 3, a := top.2.get 0, d := top.1 } := by
  simp [popData, hvalue, Memory.pop]

theorem view_pushCell (s : State) (symbol : Symbol) :
    (s.perform (instructions value (pushCell symbol))).map State.view =
      ((s.memory.load (value symbol)).bind s.memory.push).map fun m => (s.pc + 6, m) := by
  simp [pushCell, perform_pushData hvalue]

theorem view_popCell (s : State) (symbol : Symbol) :
    (s.perform (instructions value (popCell symbol))).map State.view =
      (s.memory.popTo (value symbol)).map fun m => (s.pc + 5, m) := by
  simp [popCell, perform_popData hvalue, Memory.popTo]

theorem view_pushIndexed (s : State) (base : Register) (index : Word) :
    (s.perform (instructions value (pushIndexed base index))).map State.view =
      ((s.memory.load (s.memory.get base.cell + index)).bind s.memory.push).map fun m =>
        (s.pc + 9, m) := by
  simp [pushIndexed, perform_pushData hvalue, hvalue, Register.cell_lt]

theorem view_popIndexed (s : State) (base : Register) (index : Word) :
    (s.perform (instructions value (popIndexed base index))).map State.view =
      ((s.memory.set 13 (s.memory.get base.cell + index)).popTo
        (s.memory.get base.cell + index)).map
        fun m => (s.pc + 12, m) := by
  simp [popIndexed, perform_popData hvalue, hvalue, Memory.popTo, Memory.pop, Register.cell_lt]

theorem view_pushConstant (s : State) (word : Word) :
    (s.perform (instructions value (pushConstant word))).map State.view =
      (s.memory.push word).map fun m => (s.pc + 6, m) := by
  simp [pushConstant, perform_pushData hvalue]

theorem view_unary (s : State) (op : Unary) :
    (s.perform (instructions value (unary op))).map State.view =
      (s.memory.modifyTop fun x => op.apply x).map fun m => (s.pc + 3, m) := by
  cases op <;> simp [unary, hvalue, Memory.modifyTop, Unary.apply]

theorem view_binary (s : State) (op : Binary) :
    (s.perform (instructions value (binary op))).map State.view =
      (s.memory.combineTop fun x y => op.apply x y).map fun m => (s.pc + 5, m) := by
  cases op <;> simp [binary, perform_popData hvalue, Memory.combineTop, Memory.modifyTop,
    Binary.apply, BitVec.add_comm,
    BitVec.and_comm, BitVec.or_comm]

def pushZero : Code :=
  [.cell .sp, .assign .m (.inc .m), .assign .a (.dec .m), .assign .m .zero]

theorem view_pushZero (s : State) :
    (s.perform (instructions value pushZero)).map State.view =
      (s.memory.push 0).map fun m => (s.pc + 4, m) := by
  simp [pushZero, hvalue, Memory.push]

def callFrame (name : String) (arguments : Word) (number : Nat) : Code :=
  (call name arguments number).take 38

theorem view_callFrame (s : State) (name : String) (arguments : Word) (number : Nat) :
    (s.perform (instructions value (callFrame name arguments number))).map State.view =
      (s.memory.enter (value (.returned name number)) arguments).map fun m =>
        (s.pc + 38, m) := by
  simp [callFrame, call, pushCell, pushData, Memory.push, Memory.enter, hvalue, savedWords]

def returnFrame : Code :=
  ret.take 39

theorem view_returnFrame (s : State) :
    (s.perform (instructions value returnFrame)).map State.view =
      s.memory.leaveByScratch.map fun m => (s.pc + 39, m) := by
  simp [returnFrame, ret, restore, popData, Memory.leaveByScratch, Memory.reinstateByScratch,
    Memory.restore, Memory.fetch, Memory.deliver, Memory.pop, hvalue, savedWords]

/-!
## Pieces with jumps

The two ways through a comparison meet with its result in the data register.  Calls and
returns end with a jump.
-/

omit hvalue in
theorem taken_ne (x : Word) : Jump.taken .ne x = decide (x ≠ 0) := by
  rw [Jump.taken, decide_eq_decide, ne_eq, ne_eq, ← BitVec.toInt_inj]
  rfl

variable {rom : Array Instruction} {s : State}

omit hvalue in
/--
A jump to the address where the counter already stands takes no rounds: the machine would be
parked.
-/
theorem attains_goto {target : Symbol}
    (hcode : HoldsAt rom s.pc (instructions value (goto target))) :
    s.Attains rom (.ok ((value target).toNat, s.memory)) := by
  by_cases hpc : (value target).toNat = s.pc
  · exact ⟨s, State.Reaches.refl s, by rw [State.view, hpc]⟩
  · exact ⟨_, State.reaches_jump hcode hpc, rfl⟩

theorem attains_ifGoto {target : Symbol}
    (hcode : HoldsAt rom s.pc (instructions value (ifGoto target))) :
    s.Attains rom
      (s.memory.pop.map fun top => (if top.1 = 0 then
        s.pc + 5 else (value target).toNat, top.2)) := by
  rw [ifGoto, instructions_append] at hcode
  have hpop := State.leads_perform hcode.left rfl
  rw [perform_popData hvalue] at hpop
  cases htop : s.memory.pop with
  | error address =>
      rw [htop] at hpop
      exact hpop
  | ok top =>
      rw [htop] at hpop
      refine ⟨_, hpop.trans (State.reaches_branch hcode.right), ?_⟩
      simp [State.view, taken_ne]

theorem view_storeTop (s : State) :
    (s.perform (instructions value [.cell .sp, .assign .a (.dec .m), .assign .m .d])).map
      State.view =
      (s.memory.store (s.memory.get 0 - 1) s.d).map fun m => (s.pc + 3, m) := by
  simp [hvalue]

theorem leads_difference (hcode : HoldsAt rom s.pc
      (instructions value (popData ++ [.assign .a (.dec .a), .assign .d (.subFrom .m)]))) :
    s.Leads rom
      (s.memory.pop.bind fun top => (top.2.load (top.2.get 0 - 1)).map fun x =>
        { memory := top.2, pc := s.pc + 5, a := top.2.get 0 - 1, d := x - top.1 }) := by
  have hlead := State.leads_perform hcode rfl
  simpa [perform_popData hvalue] using hlead

omit hvalue in
theorem reaches_outcome {op : Comparison} {holds compared : Word} {is : List Instruction}
    (hcode : HoldsAt rom s.pc (.address holds :: .compute .none .d (comparisonJump op) ::
      .compute .d .zero .never :: .address compared :: .compute .none .zero .always ::
      .compute .d .minusOne .never :: is))
    (hholds : holds.toNat = s.pc + 5) (hcompared : compared.toNat = s.pc + 6) :
    ∃ t, s.Reaches rom t ∧ t.pc = s.pc + 6 ∧ t.memory = s.memory ∧
      t.d = if op.holds s.d then 0xFFFF else 0 := by
  have hbranch := State.reaches_branch hcode
  have htaken : (comparisonJump op).taken s.d = op.holds s.d := by
    cases op <;> rfl
  rw [htaken, hholds] at hbranch
  cases hop : op.holds s.d with
  | true =>
      rw [hop] at hbranch
      exact ⟨_, hbranch.trans (State.reaches_compute hcode.tail.tail.tail.tail.tail rfl), rfl,
        rfl, rfl⟩
  | false =>
      rw [hop] at hbranch
      have hzero := hbranch.trans (State.reaches_compute hcode.tail.tail rfl)
      have hne : compared.toNat ≠ s.pc + 3 := by
        omega
      exact ⟨_, hzero.trans (State.reaches_jump hcode.tail.tail.tail hne), hcompared, rfl, rfl⟩

theorem attains_compare {op : Comparison} {number : Nat}
    (hcode : HoldsAt rom s.pc (instructions value (compare op number)))
    (hholds : (value (.holds number)).toNat = s.pc + 10)
    (hcompared : (value (.compared number)).toNat = s.pc + 11) :
    s.Attains rom
      ((s.memory.combineTop fun x y => op.apply x y).map fun m => (s.pc + 14, m)) := by
  have hsplit : instructions value (compare op number) =
      instructions value (popData ++ [.assign .a (.dec .a), .assign .d (.subFrom .m)]) ++
        (.address (value (.holds number)) :: .compute .none .d (comparisonJump op) ::
          .compute .d .zero .never ::
          .address (value (.compared number)) :: .compute .none .zero .always ::
            .compute .d .minusOne .never ::
            instructions value [.cell .sp, .assign .a (.dec .m), .assign .m .d]) := by
    simp [compare, Item.branch]
  rw [hsplit] at hcode
  have hfirst := leads_difference hvalue hcode.left
  rw [Memory.combineTop]
  cases htop : s.memory.pop with
  | error address =>
      rw [htop] at hfirst
      exact hfirst
  | ok top =>
      rcases top with ⟨y, m⟩
      rw [htop] at hfirst
      show s.Attains rom ((m.store (m.get 0 - 1) (op.apply (m.get (m.get 0 - 1)) y)).map _)
      by_cases hcell : (m.get 0 - 1).toNat < 32768
      · rw [ok_bind, Memory.load_of_lt _ hcell] at hfirst
        have houtcome := reaches_outcome
          (s :=
            { memory := m, pc := s.pc + 5, a := m.get 0 - 1, d := m.get (m.get 0 - 1) - y })
          hcode.right hholds hcompared
        rcases houtcome with ⟨t, ht, hpc, hmemory, hd⟩
        have hlast :
            HoldsAt rom t.pc
            (instructions value [.cell .sp, .assign .a (.dec .m), .assign .m .d]) := by
          rw [hpc]
          exact hcode.right.tail.tail.tail.tail.tail.tail
        refine (hfirst.trans ht).attains (State.attains_perform hlast rfl ?_)
        rw [view_storeTop hvalue, hd, hpc, hmemory]
        rfl
      · rw [ok_bind, Memory.load_of_not_lt _ hcell] at hfirst
        rw [Memory.store_of_not_lt _ _ hcell]
        exact hfirst

omit hvalue in
theorem size_function (name : String) (locals : Word) :
    (function name locals).size = 4 * locals.toNat := by
  have hzeros : ∀ count, Code.size (List.replicate count pushZero).flatten = 4 * count := by
    intro count
    induction count with
    | zero => rfl
    | succ count ih =>
        rw [List.replicate_succ, List.flatten_cons, size_append, ih,
          Nat.mul_succ, Nat.add_comm]
        rfl
  exact hzeros locals.toNat

theorem attains_locals {count : Nat} {s : State}
    (hcode : HoldsAt rom s.pc (instructions value (List.replicate count pushZero).flatten)) :
    s.Attains rom ((s.memory.pushZeros count).map fun m => (s.pc + 4 * count, m)) := by
  induction count generalizing s with
  | zero => exact ⟨s, State.Reaches.refl s, rfl⟩
  | succ count ih =>
      rw [List.replicate_succ, List.flatten_cons, instructions_append] at hcode
      have hfirst := State.attains_perform hcode.left rfl (view_pushZero hvalue s)
      rw [Memory.pushZeros, map_eq_bind, bind_bind]
      refine hfirst.bind ?_
      intro t hpc
      have hrest := ih (s := t) (by rw [hpc]; exact hcode.right)
      rw [map_eq_bind, hpc, Nat.add_assoc, Nat.add_comm 4, ← Nat.mul_succ] at hrest
      exact hrest

theorem attains_function {name : String} {locals : Word}
    (hcode : HoldsAt rom s.pc (instructions value (function name locals))) :
    s.Attains rom ((s.memory.pushZeros locals.toNat).map fun m =>
      (s.pc + 4 * locals.toNat, m)) :=
  attains_locals hvalue hcode

theorem attains_call {name : String} {arguments : Word} {number : Nat}
    (hcode : HoldsAt rom s.pc (instructions value (call name arguments number))) :
    s.Attains rom
      ((s.memory.enter (value (.returned name number)) arguments).map fun m =>
        ((value (.entry name)).toNat, m)) := by
  have hsplit : call name arguments number =
      callFrame name arguments number ++
        (goto (.entry name) ++ [.label (.returned name number)]) := rfl
  rw [hsplit, instructions_append, instructions_append] at hcode
  rw [map_eq_bind]
  refine (State.attains_perform hcode.left rfl
    (view_callFrame hvalue s name arguments number)).bind ?_
  intro t hpc
  have hgoto := hcode.right.left
  exact attains_goto (by rw [hpc]; exact hgoto)

theorem attains_return (hcode : HoldsAt rom s.pc (instructions value ret)) :
    s.Attains rom (s.memory.leaveByScratch.map fun m => ((m.get 14).toNat, m)) := by
  have hsplit : ret = returnFrame ++ ([.cell (.numbered 14), .assign .a (.copy .m)] ++
    [.branch .zero .always]) := rfl
  rw [hsplit, instructions_append, instructions_append] at hcode
  rw [map_eq_bind]
  refine (State.attains_perform hcode.left rfl (view_returnFrame hvalue s)).bind ?_
  intro t hpc
  have hjump :
    HoldsAt rom t.pc (instructions value [.cell (.numbered 14), .assign .a (.copy .m)] ++
      instructions value [.branch .zero .always]) := by
    rw [hpc]
    exact hcode.right
  have hload := State.leads_perform hjump.left rfl
  have hperform :
    t.perform (instructions value [.cell (.numbered 14), .assign .a (.copy .m)]) =
      .ok { t with a := t.memory.get 14, pc := t.pc + 2 } := by
    simp [hvalue]
  rw [hperform] at hload
  exact ⟨_, hload.trans (State.reaches_compute hjump.right rfl), rfl⟩

theorem attains_bootstrap {number : Nat}
    (hcode : HoldsAt rom s.pc (instructions value (bootstrap number))) :
    s.Attains rom
      (((s.memory.set 0 256).enter (value (.returned "Sys.init" number)) 0).map fun m =>
        ((value (.entry "Sys.init")).toNat, m)) := by
  rw [bootstrap, instructions_append] at hcode
  have hstart :
      s.Attains rom ((Except.ok (s.memory.set 0 256)).map fun m => (s.pc + 4, m)) := by
    refine State.attains_perform hcode.left rfl ?_
    simp [hvalue, stackBase]
  show s.Attains rom ((Except.ok (s.memory.set 0 256)).bind fun m => (m.enter _ 0).map _)
  refine hstart.bind ?_
  intro t hpc
  apply attains_call hvalue
  rw [hpc]
  exact hcode.right

/-!
## Segments

A cell that is reached through a base is the cell of the stack machine, and so is a cell with
a name of its own.
-/

variable {vm : StackMachine} (hscratch : vm.scratch = true)
  (hstatic : ∀ module index, vm.staticCell module index = value (.static module index))
include hstatic

theorem cell?_of_find {module : String} {segment : Segment} {index : Word} {access : Access}
    (m : Memory) (hfind : Access.find module segment index = .ok access) :
    (∃ base, access = .indexed base ∧ segment.hasBase = true ∧
      vm.cell? m module index segment = some (m.get base.cell + index)) ∨
    (∃ symbol, access = .direct symbol ∧ segment.hasBase = false ∧
      vm.cell? m module index segment = some (value symbol)) := by
  cases segment with
  | constant => cases hfind
  | locals | argument | this | that =>
      simp only [Access.find, Access.indexed?] at hfind
      split at hfind
      · cases hfind
        exact Or.inl ⟨_, rfl, rfl, rfl⟩
      · cases hfind
  | static =>
      cases hfind
      exact Or.inr ⟨_, rfl, rfl, congrArg some (hstatic module index)⟩
  | temp =>
      simp only [Access.find, Access.tempCell?] at hfind
      split at hfind
      · cases hfind
        refine Or.inr ⟨_, rfl, rfl, ?_⟩
        rw [hvalue, Register.cell, BitVec.ofNat_add, BitVec.ofNat_toNat, BitVec.setWidth_eq]
        rfl
      · cases hfind
  | pointer =>
      simp only [Access.find, Access.pointerCell?] at hfind
      split at hfind
      · next hindex =>
          cases hfind
          exact Or.inr ⟨_, rfl, rfl, by rw [hvalue, hindex]; rfl⟩
      · split at hfind
        · next hindex =>
            cases hfind
            exact Or.inr ⟨_, rfl, rfl, by rw [hvalue, hindex]; rfl⟩
        · cases hfind

theorem attains_push {module : String} {segment : Segment} {index : Word} {access : Access}
    (hfind : Access.find module segment index = .ok access)
    (hcode : HoldsAt rom s.pc (instructions value (access.pushCode index))) :
    s.Attains rom
      ((vm.push s.memory module segment index).map fun m =>
        (s.pc + (access.pushCode index).size, m)) := by
  rcases cell?_of_find hvalue hstatic s.memory hfind with
    ⟨base, rfl, -, hcell⟩ | ⟨symbol, rfl, -, hcell⟩
  · rw [StackMachine.push, hcell]
    exact State.attains_perform hcode rfl (view_pushIndexed hvalue s base index)
  · rw [StackMachine.push, hcell]
    exact State.attains_perform hcode rfl (view_pushCell hvalue s symbol)

include hscratch in
theorem attains_pop {module : String} {segment : Segment} {index : Word} {access : Access}
    (hfind : Access.find module segment index = .ok access)
    (hcode : HoldsAt rom s.pc (instructions value (access.popCode index))) :
    s.Attains rom
      ((vm.pop s.memory module segment index).map fun m =>
        (s.pc + (access.popCode index).size, m)) := by
  rcases cell?_of_find hvalue hstatic s.memory hfind with
    ⟨base, rfl, hbase, hcell⟩ | ⟨symbol, rfl, hbase, hcell⟩
  · simp only [StackMachine.pop, hcell, hscratch, hbase, Bool.and_self, if_true]
    exact State.attains_perform hcode rfl (view_popIndexed hvalue s base index)
  · simp only [StackMachine.pop, hcell, hbase, Bool.and_false, Bool.false_eq_true, if_false]
    exact State.attains_perform hcode rfl (view_popCell hvalue s symbol)

end Code
end HackVM
