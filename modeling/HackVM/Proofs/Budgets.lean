import HackVM.Machine.Probe
import HackVM.Proofs.Execution

/-!
# Runs with a budget

A run makes at most a given number of rounds.  If they are used up, a second run goes on as
if there had been one run with both budgets.  If the machine halts or stops at a cell that
does not exist, a larger budget changes nothing, and neither does another run.
-/

namespace HackVM

/-!
## Instructions part by part

An instruction with a fault does not take effect.  The processor needs no provision for this:
the parts of an instruction that can fail come before those that change a register or the
counter.
-/

/-- One part of the work of an instruction. -/
inductive Action where
  | read (address : Word)
  | write (address value : Word)
  | setA (value : Word)
  | setD (value : Word)
  | continueAt (pc : Nat)

namespace State

def act (s : State) : Action → Except Word State
  | .read address => if address.toNat < Memory.size then .ok s else .error address
  | .write address value =>
      if address.toNat < Memory.size then
        .ok { s with memory := s.memory.set address value } else .error address
  | .setA value => .ok { s with a := value }
  | .setD value => .ok { s with d := value }
  | .continueAt pc => .ok { s with pc := pc }

def actions (s : State) : Instruction → List Action
  | .address value => [.setA value, .continueAt (s.pc + 1)]
  | .compute dest comp jump =>
      let result := comp.value s.a s.d (s.memory.get s.a)
      (if comp.readsMemory then [.read s.a] else []) ++ (if dest.hasM then
        [.write s.a result] else []) ++
        (if dest.hasA then [.setA result] else []) ++ (if dest.hasD then
          [.setD result] else []) ++
        [.continueAt (if jump.taken result then s.a.toNat else s.pc + 1)]

/--
Carries out one part after the other.  If one fails, what was done before it is not taken
back.
-/
def carryOut (s : State) : List Action → Option Word × State
  | [] => (none, s)
  | action :: rest =>
      match s.act action with
      | .ok next => next.carryOut rest
      | .error address => (some address, s)

theorem carryOut_optional {s next : State} {action : Action} {condition : Bool}
    (rest : List Action) (hleft : condition = false → next = s)
    (hdone : condition = true → s.act action = .ok next) :
    s.carryOut ((if condition then [action] else []) ++ rest) = next.carryOut rest := by
  cases condition with
  | false => exact congrArg (carryOut · rest) (hleft rfl).symm
  | true => simp [carryOut, hdone rfl]

theorem carryOut_compute {s : State} {dest : Dest} {comp : Comp} {jump : Jump}
    (h : s.fault? (.compute dest comp jump) = none) :
    s.carryOut (s.actions (.compute dest comp jump)) =
      (none, s.execute (.compute dest comp jump)) := by
  have hcell := fault?_eq_none_iff.mp h
  have hread : comp.readsMemory = true → s.act (.read s.a) = .ok s := by
    intro hreads
    exact if_pos (hcell (by simp [Instruction.touchesMemory, hreads]))
  generalize ht : s.execute (.compute dest comp jump) = t
  have hwrite : dest.hasM = true →
      s.act (.write s.a (comp.value s.a s.d (s.memory.get s.a))) =
        .ok { s with memory := t.memory } := by
    intro hm
    have hsize : s.a.toNat < Memory.size := hcell (by simp [Instruction.touchesMemory, hm])
    simp [act, hsize, ← ht, execute, hm]
  have hsetA : dest.hasA = true →
      act { s with memory := t.memory } (.setA (comp.value s.a s.d (s.memory.get s.a))) =
        .ok { s with memory := t.memory, a := t.a } := by
    intro ha
    simp [act, ← ht, execute, ha]
  have hsetD : dest.hasD = true →
      act { s with memory := t.memory, a := t.a }
        (.setD (comp.value s.a s.d (s.memory.get s.a))) =
        .ok { s with memory := t.memory, a := t.a, d := t.d } := by
    intro hd
    simp [act, ← ht, execute, hd]
  simp only [actions, List.append_assoc]
  rw [carryOut_optional _ (fun _ => rfl) hread, carryOut_optional _ ?_ hwrite,
    carryOut_optional _ ?_ hsetA, carryOut_optional _ ?_ hsetD]
  · rw [← ht]
    rfl
  · intro hd
    simp [← ht, execute, hd]
  · intro ha
    simp [← ht, execute, ha]
  · intro hm
    simp [← ht, execute, hm]

theorem carryOut_actions (s : State) (i : Instruction) :
    s.carryOut (s.actions i) = (s.fault? i).elim (none, s.execute i) fun address =>
      (some address, s) := by
  cases i with
  | address value => rfl
  | compute dest comp jump =>
      cases hfault : s.fault? (.compute dest comp jump) with
      | none => exact carryOut_compute hfault
      | some address =>
          rcases fault?_eq_some_iff.mp hfault with ⟨htouches, hsize, rfl⟩
          have hcell : ¬ s.a.toNat < Memory.size := Nat.not_lt.mpr hsize
          -- The first part that uses the cell fails, and no part before it changes anything.
          cases hreads : comp.readsMemory with
          | true => simp [actions, carryOut, act, hreads, hcell]
          | false =>
              have hm : dest.hasM = true := by
                simpa [Instruction.touchesMemory, hreads] using htouches
              simp [actions, carryOut, act, hreads, hm, hcell]

/-!
## Runs that stop

A run that stops has come, within its budget, to a state in which no further round can be
made.  So a larger budget makes no difference to it.
-/

variable {rom : Array Instruction} {s t : State} {stop : Stop}

theorem step_of_run_eq_some {rounds : Nat} (h : run rom rounds s = (some stop, t)) :
    ∃ made, made < rounds ∧ run rom made s = (none, t) ∧ t.step rom = .error stop := by
  induction rounds generalizing s with
  | zero => cases h
  | succ rounds ih =>
      cases hstep : s.step rom with
      | error other =>
          rw [run_succ_of_step_error rounds hstep] at h
          cases h
          exact ⟨0, Nat.succ_pos rounds, rfl, hstep⟩
      | ok next =>
          rw [run_succ_of_step_ok rounds hstep] at h
          rcases ih h with ⟨made, hmade, hrun, hstop⟩
          refine ⟨made + 1, Nat.succ_lt_succ hmade, ?_, hstop⟩
          rw [run_succ_of_step_ok made hstep, hrun]

theorem run_of_step_eq_error {rounds : Nat} (hrounds : 1 ≤ rounds)
    (h : s.step rom = .error stop) :
    run rom rounds s = (some stop, s) := by
  obtain ⟨more, rfl⟩ : ∃ more, rounds = more + 1 := ⟨rounds - 1, by omega⟩
  exact run_succ_of_step_error more h

theorem run_add_of_some {first : Nat} (second : Nat) (h : run rom first s = (some stop, t)) :
    run rom (first + second) s = (some stop, t) := by
  rcases step_of_run_eq_some h with ⟨made, hmade, hrun, hstop⟩
  have hsplit : first + second = made + (first + second - made) := by
    omega
  rw [hsplit, run_add_of_none _ hrun]
  exact run_of_step_eq_error (by omega) hstop

theorem step_eq_fault_iff {address : Word} :
    s.step rom = .error (.fault address) ↔
      s.parked rom = false ∧ ∃ i, rom[s.pc]? = some i ∧ s.fault? i = some address := by
  constructor
  · intro h
    unfold step at h
    split at h
    · cases h
    · next i hi =>
        split at h
        · cases h
        · next hparked =>
            split at h
            · next other hfault =>
                cases h
                exact ⟨Bool.eq_false_iff.mpr hparked, i, hi, hfault⟩
            · cases h
  · rintro ⟨hparked, i, hi, hfault⟩
    exact step_eq_fault hi hparked hfault

theorem step_eq_halted_iff :
    s.step rom = .error .halted ↔ rom.size ≤ s.pc ∨ s.parked rom = true := by
  rw [← Array.getElem?_eq_none_iff]
  unfold step
  cases hi : rom[s.pc]? with
  | none => simp
  | some i =>
      cases hparked : s.parked rom with
      | true => simp
      | false => cases hfault : s.fault? i <;> simp [hfault]

end State

/-!
## Budgets of a loaded machine

A report tells the way in which a run has ended.  A failure is reported with the rounds that
were made in all.
-/

namespace MachineFault

def after (made : Nat) : MachineFault → MachineFault
  | .stillRunning rounds => .stillRunning (made + rounds)
  | .noCell address => .noCell address
  | .emptyStack => .emptyStack
  | .unknownSymbol => .unknownSymbol

end MachineFault

namespace Machine

/-- What a run reports about the way it ended. -/
def report (rounds : Nat) : Option State.Stop → Option MachineFault
  | some .halted => none
  | some (.fault address) => some (.noCell address)
  | none => some (.stillRunning rounds)

theorem run_eq (m : Machine) (rounds : Nat) :
    m.run rounds =
      (report rounds (State.run m.image.rom rounds m.state).1,
        { m with state := (State.run m.image.rom rounds m.state).2 }) := by
  unfold run
  rcases State.run m.image.rom rounds m.state with ⟨_ | _ | address, state⟩ <;> rfl

theorem run_eq_iff {m last : Machine} {rounds : Nat} {fault : Option MachineFault} :
    m.run rounds = (fault, last) ↔
      ∃ stop, State.run m.image.rom rounds m.state = (stop, last.state) ∧
        last.image = m.image ∧
        report rounds stop = fault := by
  rw [run_eq, Prod.mk.injEq]
  constructor
  · rintro ⟨rfl, rfl⟩
    exact ⟨_, rfl, rfl, rfl⟩
  · rintro ⟨stop, hstate, himage, rfl⟩
    rw [hstate, ← himage]
    exact ⟨rfl, rfl⟩

theorem report_eq_none_iff {rounds : Nat} {stop : Option State.Stop} :
    report rounds stop = none ↔ stop = some .halted := by
  rcases stop with _ | _ | address <;> simp [report]

theorem report_eq_stillRunning_iff {rounds made : Nat} {stop : Option State.Stop} :
    report rounds stop = some (.stillRunning made) ↔ stop = none ∧ rounds = made := by
  rcases stop with _ | _ | address <;> simp [report]

theorem report_eq_noCell_iff {rounds : Nat} {stop : Option State.Stop} {address : Word} :
    report rounds stop = some (.noCell address) ↔ stop = some (.fault address) := by
  rcases stop with _ | _ | other <;> simp [report]

theorem report_add (made rounds : Nat) (stop : Option State.Stop) :
    report (made + rounds) stop = (report rounds stop).map (MachineFault.after made) := by
  rcases stop with _ | _ | address <;> rfl

theorem run_of_stop {m last : Machine} {first : Nat} {stop : State.Stop}
    (h : State.run m.image.rom first m.state = (some stop, last.state))
    (himage : last.image = m.image) (second : Nat) :
    m.run (first + second) = (report first (some stop), last) ∧
      ∀ rounds, 1 ≤ rounds → last.run rounds = (report first (some stop), last) := by
  have hreport : ∀ rounds, report rounds (some stop) = report first (some stop) := by
    intro rounds
    cases stop <;> rfl
  rcases State.step_of_run_eq_some h with ⟨made, -, -, hstop⟩
  rw [← himage] at hstop
  constructor
  · exact run_eq_iff.mpr ⟨some stop, State.run_add_of_some second h, himage, hreport _⟩
  · intro rounds hrounds
    exact run_eq_iff.mpr ⟨some stop, State.run_of_step_eq_error hrounds hstop, rfl, hreport _⟩

/--
Runs compose, whatever way they end.  A run that used up its budget is continued by the next
one.  A run that halted has halted for good.  A run that failed has left the machine as it
was before the instruction that fails, and fails there again.
-/
theorem runs_compose (m : Machine) (first second : Nat) :
    ((m.run first).1 = some (.stillRunning first) ∨ (m.run first).1 = none ∨
      ∃ address, (m.run first).1 = some (.noCell address)) ∧
    (∀ next, m.run first = (some (.stillRunning first), next) →
      m.run (first + second) =
        ((next.run second).1.map (MachineFault.after first), (next.run second).2)) ∧
    (∀ last, m.run first = (none, last) →
      m.run (first + second) = (none, last) ∧ ∀ rounds, 1 ≤ rounds →
        last.run rounds = (none, last)) ∧
    (∀ last address, m.run first = (some (.noCell address), last) →
      (∃ made i, made < first ∧ m.run made = (some (.stillRunning made), last) ∧
        last.image.rom[last.state.pc]? = some i ∧ i.touchesMemory = true ∧
        last.state.a = address ∧ 32768 ≤ address.toNat ∧
        last.state.carryOut (last.state.actions i) = (some address, last.state)) ∧
      m.run (first + second) = (some (.noCell address), last) ∧
      ∀ rounds, 1 ≤ rounds → last.run rounds = (some (.noCell address), last)) := by
  refine ⟨?_, ?_, ?_, ?_⟩
  · rw [run_eq]
    rcases (State.run m.image.rom first m.state).1 with _ | _ | address
    · exact Or.inl rfl
    · exact Or.inr (Or.inl rfl)
    · exact Or.inr (Or.inr ⟨address, rfl⟩)
  · intro next h
    rcases run_eq_iff.mp h with ⟨stop, hrun, himage, hreport⟩
    rcases report_eq_stillRunning_iff.mp hreport with ⟨rfl, -⟩
    rcases hsecond : next.run second with ⟨fault, last⟩
    rcases run_eq_iff.mp hsecond with ⟨stop, hnext, hsame, hreport⟩
    rw [himage] at hnext hsame
    refine run_eq_iff.mpr ⟨stop, ?_, hsame, ?_⟩
    · rw [State.run_add_of_none second hrun, hnext]
    · rw [report_add, hreport]
  · intro last h
    rcases run_eq_iff.mp h with ⟨stop, hrun, himage, hreport⟩
    cases report_eq_none_iff.mp hreport
    exact run_of_stop hrun himage second
  · intro last address h
    rcases run_eq_iff.mp h with ⟨stop, hrun, himage, hreport⟩
    cases report_eq_noCell_iff.mp hreport
    refine ⟨?_, run_of_stop hrun himage second⟩
    rcases State.step_of_run_eq_some hrun with ⟨made, hmade, hbefore, hstop⟩
    rcases State.step_eq_fault_iff.mp hstop with ⟨-, i, hi, hfault⟩
    rcases State.fault?_eq_some_iff.mp hfault with ⟨htouches, hsize, ha⟩
    refine ⟨made, i, hmade, run_eq_iff.mpr ⟨none, hbefore, himage, rfl⟩,
      ?_, htouches, ha, hsize, ?_⟩
    · rw [himage, hi]
    · rw [State.carryOut_actions, hfault, Option.elim_some]

/-- A program that stores a word behind the last cell. -/
def overreach : List String :=
  ["@32767", "D=A+1", "A=D", "MD=D-1"]

theorem overreach_fails_for_good :
    ∃ m last, load overreach = .ok m ∧ m.run 4 = (some (.noCell 32768), last) ∧
      last.state.pc = 3 ∧
      last.state.d = 32768 ∧
      (∃ i, last.image.rom[last.state.pc]? = some i ∧
        last.state.carryOut (last.state.actions i) = (some 32768, last.state)) ∧
      m.run (4 + 96) = (some (.noCell 32768), last) ∧
        last.run 1 = (some (.noCell 32768), last) := by
  have hrun : (load overreach).toOption.map
      (fun m => ((m.run 4).1, (m.run 4).2.state.pc, (m.run 4).2.state.d)) =
        some (some (.noCell 32768), 3, 32768) := by
    decide +kernel
  cases hload : load overreach with
  | error error =>
      rw [hload] at hrun
      cases hrun
  | ok m =>
      rw [hload] at hrun
      simp only [Except.toOption, Option.map_some, Option.some_inj, Prod.mk.injEq] at hrun
      rcases hrun with ⟨hfault, hpc, hd⟩
      have hfirst : m.run 4 = (some (.noCell 32768), (m.run 4).2) := Prod.ext hfault rfl
      rcases (runs_compose m 4 96).2.2.2 _ _ hfirst with
        ⟨⟨-, i, -, -, hi, -, -, -, hparts⟩, hmore, hagain⟩
      exact ⟨m, _, rfl, hfirst, hpc, hd, ⟨i, hi, hparts⟩, hmore, hagain 1 (by decide)⟩

end Machine
end HackVM
