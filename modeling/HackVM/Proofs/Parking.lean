import HackVM.Proofs.Budgets
import HackVM.Proofs.Simulation

/-!
# Where a linked program is parked

The machine is parked at a pair of instructions that loads the address of the pair and jumps
there.  Jumps, comparisons and calls all have such pairs, so what decides is where the labels
are: those of comparisons stand further on in the same code, those of functions begin the
code of another command.  What remains are jumps to a label directly in front of them.
-/

namespace HackVM

/-!
## Leaps

A leap is a pair of instructions that loads an address and jumps there in any case.
-/

namespace Instruction

def jumpsAlways : Instruction → Bool
  | .compute _ .zero .always => true
  | _ => false

/-- The target of the leap that the code begins with, if there is one. -/
def leap? : List Instruction → Option Word
  | .address target :: next :: _ => if next.jumpsAlways then some target else none
  | _ => none

/--
Code that does not end with a loaded address: it makes no leap together with the code behind
it.
-/
def isSealed (is : List Instruction) : Bool :=
  match is.getLast? with
  | some (.address _) => false
  | _ => true

theorem leap?_eq_some_iff {is : List Instruction} {target : Word} :
    leap? is = some target ↔
      ∃ dest rest, is = .address target :: .compute dest .zero .always :: rest := by
  constructor
  · intro h
    unfold leap? at h
    split at h
    · next other next rest =>
        rw [Option.ite_none_right_eq_some] at h
        rcases h with ⟨halways, hother⟩
        cases hother
        unfold jumpsAlways at halways
        split at halways
        · next dest => exact ⟨dest, rest, rfl⟩
        · cases halways
    · cases h
  · rintro ⟨dest, rest, rfl⟩
    rfl

theorem leap?_append {is : List Instruction} (more : List Instruction) (hne : is ≠ [])
    (hsealed : isSealed is = true) :
    leap? (is ++ more) = leap? is := by
  cases is with
  | nil => exact absurd rfl hne
  | cons i rest =>
      cases i with
      | compute dest comp jump => rfl
      | address target =>
          cases rest with
          | nil => cases hsealed
          | cons next rest => rfl

theorem isSealed_drop {is : List Instruction} {n : Nat} (hn : n < is.length) :
    isSealed (is.drop n) = isSealed is := by
  rw [isSealed, List.getLast?_drop, if_neg (Nat.not_le.mpr hn), isSealed]

theorem leap?_drop_append {is : List Instruction} {n : Nat} (before after : List Instruction)
    (hn : n < is.length) (hsealed : isSealed is = true) :
    leap? ((before ++ (is ++ after)).drop (before.length + n)) = leap? (is.drop n) := by
  have hne : is.drop n ≠ [] := by
    rw [ne_eq, List.drop_eq_nil_iff, Nat.not_le]
    exact hn
  rw [List.drop_length_add_append, List.drop_append_of_le_length (Nat.le_of_lt hn),
    leap?_append after hne]
  rw [isSealed_drop hn, hsealed]

def leaps (is : List Instruction) : List (Nat × Word) :=
  (List.range is.length).filterMap fun n => (leap? (is.drop n)).map fun target => (n, target)

theorem mem_leaps_iff {is : List Instruction} {n : Nat} {target : Word} :
    (n, target) ∈ leaps is ↔ leap? (is.drop n) = some target := by
  simp only [leaps, List.mem_filterMap, List.mem_range, Option.map_eq_some_iff, Prod.mk.injEq]
  constructor
  · rintro ⟨m, -, other, hleap, rfl, rfl⟩
    exact hleap
  · intro hleap
    refine ⟨n, ?_, target, hleap, rfl, rfl⟩
    by_contra hn
    rw [List.drop_eq_nil_of_le (Nat.not_lt.mp hn)] at hleap
    cases hleap

theorem leaps_append {first : List Instruction} (second : List Instruction)
    (h : isSealed first = true) :
    leaps (first ++ second) = leaps first ++ (leaps second).map fun leap =>
      (first.length + leap.1, leap.2) := by
  unfold leaps
  rw [List.length_append, List.range_add, List.filterMap_append,
    List.filterMap_map, List.map_filterMap]
  congr 1
  · apply List.filterMap_congr
    intro n hn
    have hleap := leap?_drop_append [] second (List.mem_range.mp hn) h
    rw [List.nil_append, List.length_nil, Nat.zero_add] at hleap
    rw [hleap]
  · apply List.filterMap_congr
    intro n _
    rw [Function.comp_apply, List.drop_append, List.drop_eq_nil_of_le (Nat.le_add_right _ _),
      List.nil_append, Nat.add_sub_cancel_left, Option.map_map]
    rfl

/-! ### Straight code does not leap -/

theorem straight_append {first second : List Instruction} (hfirst : straight first = true)
    (hsecond : straight second = true) : straight (first ++ second) = true := by
  induction first with
  | nil => exact hsecond
  | cons i rest ih =>
      cases i with
      | address value =>
          simp only [straight, Bool.and_eq_true, Bool.not_eq_true', List.isEmpty_eq_false_iff]
            at hfirst
          simp [straight, hfirst.1, ih hfirst.2]
      | compute dest comp jump =>
          simp only [straight, Bool.and_eq_true] at hfirst
          simp [straight, hfirst.1, ih hfirst.2]

theorem straight_tail {i : Instruction} {is : List Instruction}
    (h : straight (i :: is) = true) :
    straight is = true := by
  cases i <;>
    · simp only [straight, Bool.and_eq_true] at h
      exact h.2

theorem leap?_of_straight {is : List Instruction} (h : straight is = true) :
    leap? is = none := by
  cases is with
  | nil => rfl
  | cons i rest =>
      cases i with
      | compute dest comp jump => rfl
      | address value =>
          cases rest with
          | nil => rfl
          | cons next rest =>
              have hnext : next.jumpsAlways = false := by
                have htail := straight_tail h
                cases next with
                | address other => rfl
                | compute dest comp jump =>
                    simp only [straight, Bool.and_eq_true, decide_eq_true_eq] at htail
                    rw [htail.1]
                    cases comp <;> rfl
              simp [leap?, hnext]

theorem leaps_of_straight {is : List Instruction} (h : straight is = true) :
    leaps is = [] := by
  rw [List.eq_nil_iff_forall_not_mem]
  rintro ⟨n, target⟩ hmem
  rw [mem_leaps_iff] at hmem
  have hdrop : ∀ (n : Nat) (is : List Instruction), straight is = true →
      straight (is.drop n) = true := by
    intro n
    induction n with
    | zero => exact fun _ h => h
    | succ n ih =>
        rintro (_ | ⟨i, rest⟩) h
        · rfl
        · exact ih rest (straight_tail h)
  rw [leap?_of_straight (hdrop n is h)] at hmem
  cases hmem

theorem isSealed_of_straight {is : List Instruction} (h : straight is = true) :
    isSealed is = true := by
  induction is with
  | nil => rfl
  | cons i rest ih =>
      cases rest with
      | nil =>
          cases i with
          | address value => cases h
          | compute dest comp jump => rfl
      | cons next rest =>
          rw [isSealed, List.getLast?_cons_cons]
          exact ih (straight_tail h)

theorem leaps_straight_append {first second : List Instruction}
    (hfirst : straight first = true) (hne : second ≠ []) (hsecond : isSealed second = true) :
    isSealed (first ++ second) = true ∧
      leaps (first ++ second) = (leaps second).map fun leap =>
        (first.length + leap.1, leap.2) := by
  constructor
  · rw [isSealed, List.getLast?_append_of_ne_nil first hne]
    exact hsecond
  · rw [leaps_append second (isSealed_of_straight hfirst),
      leaps_of_straight hfirst, List.nil_append]

end Instruction

theorem State.parked_iff {rom : Array Instruction} {s : State} :
    s.parked rom = true ↔ ∃ target, Instruction.leap? (rom.toList.drop s.pc) = some target ∧
      target.toNat = s.pc := by
  simp only [Instruction.leap?_eq_some_iff]
  constructor
  · intro h
    unfold parked at h
    split at h
    · next target dest hfirst hsecond =>
        refine ⟨target, ⟨dest, rom.toList.drop (s.pc + 2), ?_⟩, of_decide_eq_true h⟩
        rw [← Array.getElem?_toList] at hfirst hsecond
        rw [List.drop_eq_getElem?_toList_append, hfirst,
          List.drop_eq_getElem?_toList_append, hsecond]
        rfl
    · cases h
  · rintro ⟨target, ⟨dest, rest, hdrop⟩, htarget⟩
    have hfirst : rom[s.pc]? = some (.address target) := by
      rw [← Array.getElem?_toList, ← List.head?_drop, hdrop, List.head?_cons]
    have hsecond : rom[s.pc + 1]? = some (.compute dest .zero .always) := by
      rw [← Array.getElem?_toList, ← List.getElem?_drop, hdrop]
      rfl
    simp [parked, hfirst, hsecond, htarget]

/-!
## The leaps of each command

A comparison leaps over its second outcome, a call to a function, and a jump to its label.
All other code is straight.
-/

namespace Emitter

def leaps (e : Emitter) (value : Symbol → Word) : Command → List (Nat × Word)
  | .operate (.compare _) => [(8, value (.compared (e.comparisons + 1)))]
  | .goto name => [(0, value (.scoped e.function name))]
  | .call name _ => [(38, value (.entry name))]
  | _ => []

theorem straight_function (name : String) (locals : Word) (value : Symbol → Word) :
    Instruction.straight ((Code.function name locals).instructions value) = true := by
  have hzeros : ∀ count,
      Instruction.straight
        (Code.instructions value (List.replicate count Code.pushZero).flatten) = true := by
    intro count
    induction count with
    | zero => rfl
    | succ count ih =>
        rw [List.replicate_succ, List.flatten_cons, Code.instructions_append]
        exact Instruction.straight_append rfl ih
  exact hzeros locals.toNat

theorem leaps_call (name : String) (arguments : Word) (number : Nat) (value : Symbol → Word) :
    Instruction.isSealed ((Code.call name arguments number).instructions value) = true ∧
      Instruction.leaps ((Code.call name arguments number).instructions value) =
        [(38, value (.entry name))] := by
  have hframe : Instruction.straight
    ((Code.callFrame name arguments number).instructions value) = true := rfl
  have hgoto : Code.instructions value (Code.goto (.entry name)) ≠ [] := List.cons_ne_nil _ _
  exact Instruction.leaps_straight_append hframe hgoto rfl

theorem leaps_ret (value : Symbol → Word) :
    Instruction.isSealed (Code.ret.instructions value) = true ∧
      Instruction.leaps (Code.ret.instructions value) = [] := by
  have hframe : Instruction.straight
      (Code.instructions value (Code.returnFrame ++
        [.cell (.numbered 14), .assign .a (.copy .m)])) = true := rfl
  have hjump : Code.instructions value [.branch .zero .always] ≠ [] := List.cons_ne_nil _ _
  exact Instruction.leaps_straight_append hframe hjump rfl

theorem leaps_body {e : Emitter} {command : Command} {code : Code} (value : Symbol → Word)
    (h : e.body command = .ok code) :
    Instruction.isSealed (code.instructions value) = true ∧
      Instruction.leaps (code.instructions value) = e.leaps value command := by
  have hstraight : Instruction.straight (code.instructions value) = true →
    e.leaps value command = [] →
      Instruction.isSealed (code.instructions value) = true ∧
        Instruction.leaps (code.instructions value) = e.leaps value command := by
    intro hstraight hnone
    rw [hnone]
    exact ⟨Instruction.isSealed_of_straight hstraight, Instruction.leaps_of_straight hstraight⟩
  cases command with
  | operate op =>
      cases op with
      | unary op =>
          cases h
          exact hstraight (by cases op <;> rfl) rfl
      | binary op =>
          cases h
          exact hstraight (by cases op <;> rfl) rfl
      | compare op =>
          cases h
          cases op <;> exact ⟨rfl, rfl⟩
  | push segment index =>
      apply hstraight _ rfl
      rcases pushCode_cases h with ⟨-, -, rfl⟩ | ⟨-, access, -, rfl⟩
      · rfl
      · cases access <;> rfl
  | pop segment index =>
      apply hstraight _ rfl
      rcases popCode_cases h with ⟨access, -, rfl⟩
      cases access <;> rfl
  | label name | goto name | ifGoto name =>
      cases h
      exact ⟨rfl, rfl⟩
  | ret =>
      cases h
      exact leaps_ret value
  | function name locals =>
      cases h
      exact hstraight (straight_function name locals value) rfl
  | call name arguments =>
      simp only [body] at h
      split at h
      · cases h
        exact leaps_call name arguments (e.callSites + 1) value
      · cases h

theorem leaps_bootstrap (number : Nat) (value : Symbol → Word) :
    Instruction.isSealed ((Code.bootstrap number).instructions value) = true ∧
      Instruction.leaps ((Code.bootstrap number).instructions value) =
        [(42, value (.entry "Sys.init"))] := by
  rcases leaps_call "Sys.init" 0 number value with ⟨hsealed, hleaps⟩
  have hstart : Instruction.straight (Code.instructions value
      [.literal Code.stackBase, .assign .d (.copy .a), .cell .sp, .assign .m .d]) = true := rfl
  have hcall : Code.instructions value (Code.call "Sys.init" 0 number) ≠
    [] := List.cons_ne_nil _ _
  have hboth := Instruction.leaps_straight_append hstart hcall hsealed
  rw [hleaps] at hboth
  rw [Code.bootstrap, Code.instructions_append]
  exact hboth

end Emitter

/-!
## Places in a linked program

A leap of a comparison goes forward, and one of a call to the code of another command.  So
only a jump can leap to where it stands.
-/

theorem exists_index_between {f : Nat → Nat} {x n : Nat} (hlow : f 0 ≤ x) (hhigh : x < f n) :
    ∃ i < n, f i ≤ x ∧ x < f (i + 1) := by
  induction n with
  | zero => omega
  | succ n ih =>
      by_cases hn : x < f n
      · rcases ih hn with ⟨i, hi, hplace⟩
        exact ⟨i, Nat.lt_succ_of_lt hi, hplace⟩
      · exact ⟨n, Nat.lt_succ_self n, Nat.not_lt.mp hn, hhigh⟩

namespace Module

variable {modules : List Module} {options : Options}

theorem address_mono {i j : Nat} (h : i ≤ j) :
    address modules options i ≤ address modules options j := by
  have htake : (blocks modules options).take j =
      (blocks modules options).take i ++ ((blocks modules options).take j).drop i := by
    conv_lhs => rw [← List.take_append_drop i ((blocks modules options).take j),
      List.take_take, Nat.min_eq_left h]
  rw [address, address, htake, List.flatten_append, Code.size_append,
    Code.size_append, Code.size_append]
  omega

theorem Block.code_goto {i : Nat} {p : Placed} {name : String} (b : Block modules options i p)
    (hcommand : p.command = .goto name) :
    b.code = Code.goto (.scoped p.scope name) ∧ address modules options (i + 1) =
      address modules options i + 2 := by
  have hbody := b.body_eq
  rw [hcommand] at hbody
  have hcode : b.code = Code.goto (.scoped p.scope name) := by
    rw [← b.function_eq]
    exact (Except.ok.inj hbody).symm
  refine ⟨hcode, ?_⟩
  rw [b.address_succ, hcode]
  rfl

namespace Loaded

variable {image : Image} (h : Loaded modules options image) {i : Nat}
include h

theorem leap?_drop {p : Placed} (b : Block modules options i p) {n : Nat}
    (hn : n < b.code.size) :
    Instruction.leap? (image.rom.toList.drop (address modules options i + n)) =
      Instruction.leap? ((b.code.instructions image.value).drop n) := by
  have hsealed := (Emitter.leaps_body image.value b.body_eq).1
  rw [← Code.length_instructions image.value] at hn
  rw [h.assembled.rom_eq, b.linked_eq, Code.instructions_append, Code.instructions_append,
    ← b.size_before, ← Code.length_instructions image.value b.before,
    Instruction.leap?_drop_append _ _ hn hsealed]

theorem goto_of_leap (hclosed : (Program.ofModules modules).Closed) {p : Placed}
    (hp : (Program.ofModules modules)[i]? = some p) (b : Block modules options i p) {n : Nat}
    {target : Word} (hleap : (n, target) ∈ b.emitter.leaps image.value p.command)
    (htarget : target.toNat = address modules options i + n) :
    ∃ name, p.command = .goto name ∧ n = 0 ∧ target = image.value (.scoped p.scope name) := by
  rcases p with ⟨module, scope, command⟩
  cases command with
  | operate op =>
      cases op with
      | unary op | binary op => cases hleap
      | compare op =>
          have hbody : b.code = (Code.compare op (b.emitter.comparisons + 1)).take 12 ++
              .label (.compared (b.emitter.comparisons + 1)) ::
                (Code.compare op (b.emitter.comparisons + 1)).drop 13 :=
            (Except.ok.inj b.body_eq).symm
          have hsize : Code.size ((Code.compare op (b.emitter.comparisons + 1)).take 12) =
            11 := rfl
          have hvalue := h.value_label b hbody
          cases List.mem_singleton.mp hleap
          omega
  | goto name =>
      cases List.mem_singleton.mp hleap
      exact ⟨name, rfl, rfl, by rw [← b.function_eq]⟩
  | call name arguments =>
      have hdefines : (Program.ofModules modules).Defines name :=
        hclosed _ (List.mem_of_getElem? hp)
      rcases hdefines.entryIndex? with ⟨j, r, -, hr, k, hk⟩
      have hentry := h.value_entry hr hk
      have hsize : b.code.size = 40 := by
        rw [(h.value_returned b).1]
        rfl
      have hnext := b.address_succ
      cases List.mem_singleton.mp hleap
      -- The entry of a function is not inside of the code of a command.
      rcases Nat.lt_or_ge i j with hj | hj
      · have hafter : address modules options (i + 1) ≤ address modules options j :=
          address_mono hj
        omega
      · have hbefore : address modules options j ≤ address modules options i := address_mono hj
        omega
  | push segment index | pop segment index | label name | ifGoto name
  | function name locals | ret => cases hleap

theorem not_leap_preamble
    (hinit : options.bootstrap = true → (Program.ofModules modules).Defines "Sys.init")
    {n : Nat} (hn : n < address modules options 0) {target : Word}
    (hleap : Instruction.leap? (image.rom.toList.drop n) = some target) :
    target.toNat ≠ n := by
  cases hboot : options.bootstrap with
  | false =>
      rw [address, preamble, hboot] at hn
      exact absurd hn (Nat.not_lt_zero n)
  | true =>
      rcases preamble_eq modules hboot with ⟨note, hpreamble, hsize⟩
      have hrom : image.rom.toList = (note.instructions image.value) ++
          ((Code.bootstrap 1).instructions image.value ++
            Code.instructions image.value (blocks modules options).flatten) := by
        rw [h.assembled.rom_eq, linkedCode, hpreamble, Code.instructions_append,
          Code.instructions_append, List.append_assoc]
      rcases Emitter.leaps_bootstrap 1 image.value with ⟨hsealed, hleaps⟩
      have hlength : n < ((Code.bootstrap 1).instructions image.value).length := by
        rw [address, hpreamble, List.take_zero, List.flatten_nil, List.append_nil,
          Code.size_append, hsize, Nat.zero_add] at hn
        rw [Code.length_instructions]
        exact hn
      have hinside := Instruction.leap?_drop_append (note.instructions image.value)
        (Code.instructions image.value (blocks modules options).flatten) hlength hsealed
      rw [← hrom, Code.length_instructions, hsize, Nat.zero_add, hleap] at hinside
      have hmem := Instruction.mem_leaps_iff.mpr hinside.symm
      rw [hleaps] at hmem
      rcases (hinit hboot).entryIndex? with ⟨j, r, -, hr, k, hk⟩
      have hentry := h.value_entry hr hk
      have hfirst : address modules options 0 ≤ address modules options j :=
        address_mono (Nat.zero_le j)
      cases List.mem_singleton.mp hmem
      omega

theorem parked_iff_goto (hclosed : (Program.ofModules modules).Closed)
    (hinit : options.bootstrap = true → (Program.ofModules modules).Defines "Sys.init")
    {s : State} :
    s.parked image.rom = true ↔
      ∃ i p name, (Program.ofModules modules)[i]? = some p ∧ p.command = .goto name ∧
        (image.value (.scoped p.scope name)).toNat = address modules options i ∧
          s.pc = address modules options i := by
  rw [State.parked_iff]
  constructor
  · rintro ⟨target, hleap, htarget⟩
    have hend : s.pc < address modules options (Program.ofModules modules).length := by
      rw [address_of_length_le (Nat.le_refl _),
        ← Code.length_instructions image.value, ← h.assembled.rom_eq]
      by_contra hpc
      rw [List.drop_eq_nil_of_le (Nat.not_lt.mp hpc)] at hleap
      cases hleap
    have hstart : address modules options 0 ≤ s.pc := by
      by_contra hpc
      exact h.not_leap_preamble hinit (Nat.not_le.mp hpc) hleap htarget
    -- The addresses of the commands do not decrease, so the counter is in the code of one of
    -- them.
    rcases exists_index_between hstart hend with ⟨i, hi, hlow, hhigh⟩
    have hp : (Program.ofModules modules)[i]? = some (Program.ofModules modules)[i] :=
      List.getElem?_eq_getElem hi
    rcases block_of_getElem? h.accepts hp with ⟨b⟩
    obtain ⟨n, hn⟩ : ∃ n, s.pc = address modules options i + n :=
      ⟨s.pc - address modules options i, by omega⟩
    have hinside : n < b.code.size := by
      have hnext := b.address_succ
      omega
    rw [hn, h.leap?_drop b hinside, ← Instruction.mem_leaps_iff,
      (Emitter.leaps_body image.value b.body_eq).2] at hleap
    rw [hn] at htarget
    rcases h.goto_of_leap hclosed hp b hleap htarget with ⟨name, hcommand, rfl, rfl⟩
    exact ⟨i, _, name, hp, hcommand, htarget, hn⟩
  · rintro ⟨i, p, name, hp, hcommand, htarget, hpc⟩
    rcases block_of_getElem? h.accepts hp with ⟨b⟩
    rcases b.code_goto hcommand with ⟨hcode, hnext⟩
    have hsize := b.address_succ
    refine ⟨image.value (.scoped p.scope name), ?_, by rw [htarget, hpc]⟩
    rw [hpc, ← Nat.add_zero (address modules options i), h.leap?_drop b (by omega), hcode]
    rfl

theorem get?_of_goto (hclosed : (Program.ofModules modules).Closed) {p : Placed}
    {name : String} (hp : (Program.ofModules modules)[i]? = some p)
    (hcommand : p.command = .goto name) :
    image.symbols.get? (Symbol.scoped p.scope name).name =
      some (image.value (.scoped p.scope name)) := by
  have hresolves := hclosed p (List.mem_of_getElem? hp)
  rw [Program.Resolves, hcommand] at hresolves
  rcases hresolves with ⟨q, hq, hlabel, hscope⟩
  rcases List.mem_iff_getElem?.mp hq with ⟨j, hj⟩
  rcases block_of_getElem? h.accepts hj with ⟨b⟩
  have hcode : linkedCode modules options = b.before ++
      .label (.scoped p.scope name) :: b.after := by
    have hbody := b.body_eq
    rw [hlabel] at hbody
    rw [b.linked_eq, ← Except.ok.inj hbody, b.function_eq, hscope]
    rfl
  rw [h.assembled.get?_label hcode, ← h.assembled.toNat_value_label hcode,
    BitVec.ofNat_toNat, BitVec.setWidth_eq]

end Loaded
end Module

/-!
## A program that is parked

Between a label and a jump back to it at the same address there is nothing but more labels
and entries, and the stack machine goes round there without an effect.
-/

theorem Emitter.eq_of_size_eq_zero {e : Emitter} {command : Command} {code : Code}
    (h : e.body command = .ok code) (hsize : code.size = 0) :
    (∃ name, command = .label name) ∨ ∃ name, command = .function name 0 := by
  cases command with
  | operate op =>
      cases op with
      | unary op | binary op | compare op =>
          cases h
          cases hsize
  | push segment index =>
      rcases pushCode_cases h with ⟨-, -, rfl⟩ | ⟨-, access, -, rfl⟩
      · cases hsize
      · cases access <;> cases hsize
  | pop segment index =>
      rcases popCode_cases h with ⟨access, -, rfl⟩
      cases access <;> cases hsize
  | label name => exact Or.inl ⟨name, rfl⟩
  | goto name | ifGoto name | ret =>
      cases h
      cases hsize
  | function name locals =>
      cases h
      rw [Code.size_function] at hsize
      have hlocals : locals = 0 := by
        apply BitVec.eq_of_toNat_eq
        show locals.toNat = 0
        omega
      exact Or.inr ⟨name, by rw [hlocals]⟩
  | call name arguments =>
      simp only [body] at h
      split at h
      · cases h
        cases hsize
      · cases h

namespace Module

variable {modules : List Module} {options : Options} {image : Image}

theorem step_goto {i j : Nat} {p : Placed} {name : String}
    (hp : (Program.ofModules modules)[i]? = some p) (hcommand : p.command = .goto name)
    (hj : (Program.ofModules modules).labelIndex? p.scope name = some j) (m : Memory) :
    (stackMachine modules options image).step ⟨i, m⟩ = .ok ⟨j, m⟩ := by
  simp only [StackMachine.step, stackMachine, hp, StackMachine.execute, hcommand, hj]
  rfl

namespace Loaded

variable (h : Loaded modules options image)
include h

theorem step_of_same_address {i k : Nat} (hi : i ≤ (Program.ofModules modules).length)
    (hk : k < i) (haddress : address modules options k = address modules options i)
    (m : Memory) :
    (stackMachine modules options image).step ⟨k, m⟩ = .ok ⟨k + 1, m⟩ := by
  rcases hq : (Program.ofModules modules)[k]? with _ | ⟨module, scope, command⟩
  · rw [List.getElem?_eq_none_iff] at hq
    omega
  · rcases block_of_getElem? h.accepts hq with ⟨b⟩
    have hnext := b.address_succ
    have hlast : address modules options (k + 1) ≤ address modules options i := address_mono hk
    simp only [StackMachine.step, stackMachine, hq]
    rcases Emitter.eq_of_size_eq_zero b.body_eq (by omega) with
      ⟨name, hname⟩ | ⟨name, hname⟩ <;>
      · dsimp only at hname
        subst hname
        rfl

theorem run_of_self_loop {i j : Nat} {p : Placed} {name : String}
    (hp : (Program.ofModules modules)[i]? = some p) (hcommand : p.command = .goto name)
    (hj : (Program.ofModules modules).labelIndex? p.scope name = some j)
    (haddress : address modules options j = address modules options i) (m : Memory)
    (steps : Nat) {k : Nat} (hfirst : j ≤ k) (hlast : k ≤ i) :
    ∃ l, j ≤ l ∧ l ≤ i ∧ (stackMachine modules options image).run steps
      ⟨k, m⟩ = .ok ⟨l, m⟩ := by
  induction steps generalizing k with
  | zero => exact ⟨k, hfirst, hlast, rfl⟩
  | succ steps ih =>
      have hstep : ∃ l, j ≤ l ∧ l ≤ i ∧
          (stackMachine modules options image).step ⟨k, m⟩ = .ok ⟨l, m⟩ := by
        rcases Nat.lt_or_eq_of_le hlast with hk | rfl
        · have hlow : address modules options j ≤ address modules options k :=
            address_mono hfirst
          have hhigh : address modules options k ≤ address modules options i :=
            address_mono hlast
          have hi : i < (Program.ofModules modules).length :=
            (List.getElem?_eq_some_iff.mp hp).1
          exact ⟨k + 1, by omega, hk, h.step_of_same_address (Nat.le_of_lt hi) hk (by omega) m⟩
        · exact ⟨j, Nat.le_refl j, hfirst, step_goto hp hcommand hj m⟩
      rcases hstep with ⟨l, hjl, hli, hstep⟩
      rcases ih hjl hli with ⟨last, hjlast, hlasti, hrun⟩
      refine ⟨last, hjlast, hlasti, ?_⟩
      rw [StackMachine.run, hstep]
      exact hrun

end Loaded
end Module

/-!
## Halting

A jump goes to where it stands if its label has the address of the jump itself.
-/

namespace Module

/--
The command with the given index goes to where it stands: its label has the address of the
command itself.
-/
def IsSelfLoop (modules : List Module) (options : Options) (machine : Machine) (i : Nat) :
    Prop :=
  ∃ p name target, (Program.ofModules modules)[i]? = some p ∧ p.command = .goto name ∧
    machine.symbol (Symbol.scoped p.scope name).name = .ok target ∧
      target.toNat = address modules options i

variable {modules : List Module} {options : Options} {machine : Machine}

theorem Loaded.isSelfLoop_iff (h : Loaded modules options machine.image)
    (hclosed : (Program.ofModules modules).Closed) {i : Nat} :
    IsSelfLoop modules options machine i ↔
      ∃ p name, (Program.ofModules modules)[i]? = some p ∧ p.command = .goto name ∧
        (machine.image.value (.scoped p.scope name)).toNat = address modules options i := by
  constructor
  · rintro ⟨p, name, target, hp, hcommand, hsymbol, htarget⟩
    rw [Machine.symbol, h.get?_of_goto hclosed hp hcommand] at hsymbol
    cases hsymbol
    exact ⟨p, name, hp, hcommand, htarget⟩
  · rintro ⟨p, name, hp, hcommand, htarget⟩
    refine ⟨p, name, _, hp, hcommand, ?_, htarget⟩
    rw [Machine.symbol, h.get?_of_goto hclosed hp hcommand]

theorem Loaded.run_of_isSelfLoop (h : Loaded modules options machine.image)
    (hclosed : (Program.ofModules modules).Closed) {i : Nat}
    (hi : IsSelfLoop modules options machine i) (m : Memory) (steps : Nat) :
    ∃ k, address modules options k = address modules options i ∧
      (stackMachine modules options machine.image).run steps ⟨i, m⟩ = .ok ⟨k, m⟩ := by
  rcases (h.isSelfLoop_iff hclosed).mp hi with ⟨p, name, hp, hcommand, htarget⟩
  rcases h.target_of_jump hclosed hp (Or.inl hcommand) with ⟨j, hj, hvalue⟩
  have haddress : address modules options j = address modules options i :=
    hvalue.symm.trans htarget
  -- A label behind the jump has a larger address, since the jump itself has code.
  have hji : j ≤ i := by
    by_contra hij
    rcases block_of_getElem? h.accepts hp with ⟨b⟩
    have hnext := (b.code_goto hcommand).2
    have hafter : address modules options (i + 1) ≤ address modules options j :=
      address_mono (Nat.not_le.mp hij)
    omega
  rcases h.run_of_self_loop hp hcommand hj haddress m steps hji (Nat.le_refl i) with
    ⟨k, hjk, hki, hrun⟩
  have hlow : address modules options j ≤ address modules options k := address_mono hjk
  have hhigh : address modules options k ≤ address modules options i := address_mono hki
  exact ⟨k, by omega, hrun⟩

theorem Loaded.not_parked_of_ne_goto (h : Loaded modules options machine.image)
    (hclosed : (Program.ofModules modules).Closed)
    (hinit : options.bootstrap = true → (Program.ofModules modules).Defines "Sys.init")
    {s : State} {i : Nat} {p : Placed} (hp : (Program.ofModules modules)[i]? = some p)
    (hcommand : ∀ name, p.command ≠ .goto name) (hlow : address modules options i ≤ s.pc)
    (hhigh : s.pc < address modules options (i + 1)) :
    s.parked machine.image.rom = false := by
  rw [Bool.eq_false_iff]
  intro hparked
  rcases (h.parked_iff_goto hclosed hinit).mp hparked with ⟨j, q, name, hq, hgoto, -, hpc⟩
  rcases block_of_getElem? h.accepts hq with ⟨b⟩
  have hnext := (b.code_goto hgoto).2
  rcases Nat.lt_trichotomy i j with hij | rfl | hji
  · have hafter : address modules options (i + 1) ≤ address modules options j :=
      address_mono hij
    omega
  · rw [hp, Option.some_inj] at hq
    subst hq
    exact hcommand name hgoto
  · have hbefore : address modules options (j + 1) ≤ address modules options i :=
      address_mono hji
    omega

/--
A linked and loaded program halts at its end and at jumps to their own address, and nowhere
else.  The stack machine would not get away from such a jump either.  Inside of the code of
any other command, and of the code in front of the first command, the machine is never
parked.
-/
theorem halts_at_end_or_self_loop {lines : List String}
    (hlink : linkedLines modules options = .ok lines)
    (hload : Machine.load lines = .ok machine) (hclosed : (Program.ofModules modules).Closed)
    (hinit : options.bootstrap = true → (Program.ofModules modules).Defines "Sys.init") :
    (∀ s : State, s.parked machine.image.rom = true ↔
      ∃ i, IsSelfLoop modules options machine i ∧ s.pc = address modules options i) ∧
    (∀ (s : State) (rounds : Nat) (last : Machine),
      Machine.run { machine with state := s } rounds = (none, last) →
      machine.image.rom.size ≤ last.state.pc ∨
      ∃ i, IsSelfLoop modules options machine i ∧ last.state.pc = address modules options i ∧
        ∀ steps, ∃ k, address modules options k = address modules options i ∧
          (stackMachine modules options machine.image).run steps ⟨i, last.state.memory⟩ =
            .ok ⟨k, last.state.memory⟩) ∧
    (∀ (s : State) (i : Nat) (p : Placed), (Program.ofModules modules)[i]? = some p →
      (∀ name, p.command ≠ .goto name) → address modules options i ≤ s.pc →
        s.pc < address modules options (i + 1) →
      s.parked machine.image.rom = false) ∧
    ∀ s : State, s.pc < address modules options 0 → s.parked machine.image.rom = false := by
  rcases loaded_of_load hlink hload with ⟨h, -⟩
  have hparked : ∀ s : State, s.parked machine.image.rom = true ↔
      ∃ i, IsSelfLoop modules options machine i ∧ s.pc = address modules options i := by
    intro s
    rw [h.parked_iff_goto hclosed hinit]
    constructor
    · rintro ⟨i, p, name, hp, hcommand, htarget, hpc⟩
      exact ⟨i, (h.isSelfLoop_iff hclosed).mpr ⟨p, name, hp, hcommand, htarget⟩, hpc⟩
    · rintro ⟨i, hi, hpc⟩
      rcases (h.isSelfLoop_iff hclosed).mp hi with ⟨p, name, hp, hcommand, htarget⟩
      exact ⟨i, p, name, hp, hcommand, htarget, hpc⟩
  refine ⟨hparked, ?_, ?_, ?_⟩
  · intro s rounds last hrun
    rcases Machine.run_eq_iff.mp hrun with ⟨stop, hrun, -, hreport⟩
    cases Machine.report_eq_none_iff.mp hreport
    rcases State.step_of_run_eq_some hrun with ⟨-, -, -, hhalted⟩
    rcases State.step_eq_halted_iff.mp hhalted with hend | hpark
    · exact Or.inl hend
    · rcases (hparked _).mp hpark with ⟨i, hi, hpc⟩
      exact Or.inr ⟨i, hi, hpc, h.run_of_isSelfLoop hclosed hi _⟩
  · intro s i p hp hcommand hlow hhigh
    exact h.not_parked_of_ne_goto hclosed hinit hp hcommand hlow hhigh
  · intro s hpc
    rw [Bool.eq_false_iff]
    intro hpark
    rcases (hparked s).mp hpark with ⟨i, -, hi⟩
    have hfirst : address modules options 0 ≤ address modules options i :=
      address_mono (Nat.zero_le i)
    omega

/--
The call that starts the program, a comparison, and two labels in front of a jump to the
first one.
-/
def comparedAndParked : List Module :=
  [⟨"Sys", "function Sys.init 0\nlt\nlabel WAIT\nlabel AGAIN\ngoto WAIT\n"⟩]

theorem comparedAndParked_halts :
    (Program.ofModules comparedAndParked).Closed ∧
      (Program.ofModules comparedAndParked).Defines "Sys.init" ∧
    ∃ lines machine, linkedLines comparedAndParked ⟨true, true⟩ = .ok lines ∧
      Machine.load lines = .ok machine ∧
      IsSelfLoop comparedAndParked ⟨true, true⟩ machine 4 ∧
      (∀ s : State, s.pc = address comparedAndParked ⟨true, true⟩ 4 →
        s.parked machine.image.rom = true) ∧
      (∀ s : State, s.pc < address comparedAndParked ⟨true, true⟩ 0 →
        s.parked machine.image.rom = false) ∧
      ∀ s : State, address comparedAndParked ⟨true, true⟩ 1 ≤ s.pc →
        s.pc < address comparedAndParked ⟨true, true⟩ 2 →
        s.parked machine.image.rom = false := by
  have hprogram : Program.ofModules comparedAndParked =
      [⟨"Sys", "", .function "Sys.init" 0⟩, ⟨"Sys", "Sys.init", .operate (.compare .lt)⟩,
        ⟨"Sys", "Sys.init", .label "WAIT"⟩, ⟨"Sys", "Sys.init", .label "AGAIN"⟩,
        ⟨"Sys", "Sys.init", .goto "WAIT"⟩] := by
    decide +kernel
  have hclosed : (Program.ofModules comparedAndParked).Closed := by
    rw [hprogram]
    decide +kernel
  have hinit : (Program.ofModules comparedAndParked).Defines "Sys.init" := by
    rw [hprogram]
    decide +kernel
  have hloads : loads comparedAndParked ⟨true, true⟩ = true := by
    decide +kernel
  have haddress : address comparedAndParked ⟨true, true⟩ 2 =
      address comparedAndParked ⟨true, true⟩ 4 := by
    decide +kernel
  rcases exists_machine_of_loads hloads with ⟨lines, machine, hlink, hload⟩
  rcases loaded_of_load hlink hload with ⟨h, -⟩
  have htarget := h.value_scoped (j := 2) (p := ⟨"Sys", "Sys.init", .label "WAIT"⟩)
    (by rw [hprogram]; rfl) rfl
  have hloop : IsSelfLoop comparedAndParked ⟨true, true⟩ machine 4 :=
    (h.isSelfLoop_iff hclosed).mpr
      ⟨⟨"Sys", "Sys.init", .goto "WAIT"⟩, "WAIT", by rw [hprogram]; rfl,
        rfl, htarget.trans haddress⟩
  rcases halts_at_end_or_self_loop hlink hload hclosed (fun _ => hinit) with
    ⟨hparked, -, hinside, hpreamble⟩
  refine ⟨hclosed, hinit, lines, machine, hlink, hload, hloop, ?_, hpreamble, ?_⟩
  · intro s hpc
    exact (hparked s).mpr ⟨4, hloop, hpc⟩
  · intro s hlow hhigh
    have hcompare : (Program.ofModules comparedAndParked)[1]? =
        some ⟨"Sys", "Sys.init", .operate (.compare .lt)⟩ := by
      rw [hprogram]
      rfl
    refine hinside s 1 _ hcompare ?_ hlow hhigh
    intro name hname
    cases hname

end Module
end HackVM
