import HackVM.Proofs.Blocks
import HackVM.Proofs.Legibility
import HackVM.Proofs.Scratch

/-!
# Linked code runs as the stack machine says

A linked program is loaded and run.  Whenever the machine stands at the address of a command,
it gets to the address of the command that the stack machine executes next, with the same
memory.
-/

namespace HackVM

/-!
## Programs in which every name is defined

A label must be defined in the function that uses it, and a function anywhere in the program.
-/

namespace Program

def Defines (program : Program) (name : String) : Prop :=
  ∃ q ∈ program, ∃ locals, q.command = .function name locals

/--
The names that a command refers to are defined: a label in the same function, a function
anywhere.
-/
def Resolves (program : Program) (p : Placed) : Prop :=
  match p.command with
  | .goto name | .ifGoto name => ∃ q ∈ program, q.command = .label name ∧ q.scope = p.scope
  | .call name _ => program.Defines name
  | _ => True

def Closed (program : Program) : Prop :=
  ∀ p ∈ program, program.Resolves p

instance (program : Program) (name : String) : Decidable (program.Defines name) :=
  decidable_of_iff (∃ q ∈ program, q.command.functionName? = some name)
    (by simp [Defines, Command.functionName?_eq_some_iff])

instance (program : Program) (p : Placed) : Decidable (program.Resolves p) :=
  match p with
  | ⟨_, _, .goto _⟩ | ⟨_, _, .ifGoto _⟩ => List.decidableBEx _ _
  | ⟨_, _, .call name _⟩ => inferInstanceAs (Decidable (program.Defines name))
  | ⟨_, _, .operate _⟩ | ⟨_, _, .push _ _⟩ | ⟨_, _, .pop _ _⟩ | ⟨_, _,
      .label _⟩ | ⟨_, _, .function _ _⟩
  | ⟨_, _, .ret⟩ =>
      .isTrue trivial

instance (program : Program) : Decidable program.Closed :=
  List.decidableBAll _ _

theorem labelIndex?_of_mem {program : Program} {q : Placed} {name : String} (hq : q ∈ program)
    (hcommand : q.command = .label name) :
    ∃ j p, program.labelIndex? q.scope name = some j ∧ program[j]? = some p ∧
      p.command = .label name ∧
      p.scope = q.scope := by
  cases hfind : program.labelIndex? q.scope name with
  | none =>
      have hnone := List.findIdx?_eq_none_iff.mp hfind q hq
      simp [hcommand] at hnone
  | some j =>
      rcases List.findIdx?_eq_some_iff_getElem.mp hfind with ⟨hj, hfound, -⟩
      refine ⟨j, program[j], rfl, List.getElem?_eq_getElem hj, ?_⟩
      simpa using hfound

theorem Defines.entryIndex? {program : Program} {name : String} (h : program.Defines name) :
    ∃ j p, program.entryIndex? name = some j ∧ program[j]? = some p ∧
      ∃ locals, p.command = .function name locals := by
  rcases h with ⟨q, hq, hcommand⟩
  rw [← Command.functionName?_eq_some_iff] at hcommand
  cases hfind : program.entryIndex? name with
  | none =>
      have hnone := List.findIdx?_eq_none_iff.mp hfind q hq
      simp [hcommand] at hnone
  | some j =>
      rcases List.findIdx?_eq_some_iff_getElem.mp hfind with ⟨hj, hfound, -⟩
      refine ⟨j, program[j], rfl, List.getElem?_eq_getElem hj, ?_⟩
      exact Command.functionName?_eq_some_iff.mp (of_decide_eq_true hfound)

end Program

/-!
## Where the code of a command is

The code of a command is a part of the linked code, and the address of the command is the
amount of code before it.
-/

namespace Module

def address (modules : List Module) (options : Options) (i : Nat) : Nat :=
  (preamble modules options ++ ((blocks modules options).take i).flatten).size

/-- The code of the command at an index, as a part of the linked code. -/
structure Block (modules : List Module) (options : Options) (i : Nat) (p : Placed) where
  emitter : Emitter
  before : Code
  code : Code
  after : Code
  module_eq : emitter.module = p.module
  function_eq : emitter.function = p.scope
  body_eq : emitter.body p.command = .ok code
  linked_eq : linkedCode modules options = before ++ (code ++ after)
  size_before : before.size = address modules options i
  address_succ : address modules options (i + 1) = address modules options i + code.size

variable {modules : List Module} {options : Options}

theorem program_eq_trace (modules : List Module) (options : Options) :
    Program.ofModules modules =
      ((opener modules options).trace (allCommands modules)).map
        fun met => ⟨met.1.module, met.1.function, met.2⟩ := by
  have hfunction : (opener modules options).function = "" := by
    unfold opener
    split <;> rfl
  rw [← Emitter.place_eq_trace, hfunction]
  rfl

theorem block_of_getElem? (haccepts : (opener modules options).Accepts (allCommands modules))
    {i : Nat} {p : Placed} (hp : (Program.ofModules modules)[i]? = some p) :
    Nonempty (Block modules options i p) := by
  rw [program_eq_trace modules options, List.getElem?_map, Option.map_eq_some_iff] at hp
  rcases hp with ⟨⟨e, command⟩, hmet, rfl⟩
  rcases haccepts _ (List.mem_of_getElem? hmet) with ⟨body, hbody⟩
  have hblock : (blocks modules options)[i]? = some (e.annotated command.render body) := by
    rw [blocks, Emitter.blocks, List.getElem?_map, hmet,
      Option.map_some, Emitter.codeOf_eq hbody]
  rcases Emitter.annotated_eq e command.render body with ⟨note, hnote, hsize, -⟩
  rw [hnote] at hblock
  have hsucc : (blocks modules options).take (i + 1) =
      (blocks modules options).take i ++ [note ++ body] := by
    rw [List.take_add_one, hblock]
    rfl
  have hall : blocks modules options =
      (blocks modules options).take i ++ [note ++ body] ++
        (blocks modules options).drop (i + 1) := by
    rw [← hsucc, List.take_append_drop]
  refine ⟨⟨e, preamble modules options ++ ((blocks modules options).take i).flatten ++ note,
    body, ((blocks modules options).drop (i + 1)).flatten, rfl, rfl, hbody, ?_, ?_, ?_⟩⟩
  · rw [linkedCode]
    conv_lhs => rw [hall]
    simp
  · simp [address, hsize]
  · simp [address, hsucc, hsize, Nat.add_assoc]

theorem address_of_length_le {i : Nat} (hi : (Program.ofModules modules).length ≤ i) :
    address modules options i = (linkedCode modules options).size := by
  have hlength : (blocks modules options).length ≤ i := by
    rw [program_eq_trace modules options, List.length_map] at hi
    rw [blocks, Emitter.blocks, List.length_map]
    exact hi
  rw [address, List.take_of_length_le hlength, linkedCode]

theorem preamble_eq (modules : List Module) (hboot : options.bootstrap = true) :
    ∃ note : Code, preamble modules options = note ++ Code.bootstrap 1 ∧ note.size = 0 := by
  rw [preamble, if_pos hboot]
  rcases Emitter.annotated_eq (starter modules options) "bootstrap" (Code.bootstrap 1) with
    ⟨note, hnote, hsize, -⟩
  exact ⟨note, hnote, hsize⟩

/-- The image holds the code of the linked modules. -/
structure Loaded (modules : List Module) (options : Options) (image : Image) : Prop where
  accepts : (opener modules options).Accepts (allCommands modules)
  assembled : Assembled (linkedCode modules options) image

theorem loaded_of_load {lines : List String} {machine : Machine}
    (hlink : linkedLines modules options = .ok lines)
    (hload : Machine.load lines = .ok machine) :
    Loaded modules options machine.image ∧ machine.state = {} := by
  rcases linkedLines_ok hlink with ⟨haccepts, rfl⟩
  rcases Machine.assemble_of_load hload with ⟨himage, hstate⟩
  exact ⟨⟨haccepts, ⟨legible_linkedCode haccepts, himage⟩⟩, hstate⟩

def loads (modules : List Module) (options : Options) : Bool :=
  match linkedLines modules options with
  | .ok lines => (Machine.load lines).isOk
  | .error _ => false

theorem exists_machine_of_loads (h : loads modules options = true) :
    ∃ lines machine, linkedLines modules options = .ok lines ∧
      Machine.load lines = .ok machine := by
  unfold loads at h
  cases hlink : linkedLines modules options with
  | error error =>
      rw [hlink] at h
      cases h
  | ok lines =>
      rw [hlink] at h
      rcases exists_of_isOk h with ⟨machine, hload⟩
      exact ⟨lines, machine, rfl, hload⟩

def stackMachine (modules : List Module) (options : Options) (image : Image) :
    StackMachine where
  program := Program.ofModules modules
  address := address modules options
  staticCell module index := image.value (.static module index)
  scratch := true

theorem program_stackMachine (modules : List Module) (options : Options) (image : Image) :
    (stackMachine modules options image).program = Program.ofModules modules := rfl

theorem address_stackMachine (modules : List Module) (options : Options) (image : Image)
    (i : Nat) :
    (stackMachine modules options image).address i = address modules options i := rfl

theorem indexAt?_stackMachine (modules : List Module) (options : Options) (image : Image)
    (word : Word) :
    (stackMachine modules options image).indexAt? word =
      (List.range ((Program.ofModules modules).length + 1)).find? fun i =>
        address modules options i = word.toNat := rfl

namespace Loaded

variable {image : Image} (h : Loaded modules options image)
include h

theorem holdsAt {i : Nat} {p : Placed} (b : Block modules options i p) :
    HoldsAt image.rom (address modules options i) (b.code.instructions image.value) := by
  refine ⟨b.before.instructions image.value, b.after.instructions image.value, ?_, ?_⟩
  · rw [h.assembled.rom_eq, b.linked_eq, Code.instructions_append,
      Code.instructions_append, List.append_assoc]
  · rw [Code.length_instructions, b.size_before]

theorem value_label {i : Nat} {p : Placed} (b : Block modules options i p) {first rest : Code}
    {symbol : Symbol} (hcode : b.code = first ++ .label symbol :: rest) :
    (image.value symbol).toNat = address modules options i + first.size := by
  have hlinked : linkedCode modules options = (b.before ++ first) ++
      .label symbol :: (rest ++ b.after) := by
    rw [b.linked_eq, hcode]
    simp
  rw [h.assembled.toNat_value_label hlinked, Code.size_append, b.size_before]

theorem value_scoped {j : Nat} {p : Placed} {name : String}
    (hp : (Program.ofModules modules)[j]? = some p) (hcommand : p.command = .label name) :
    (image.value (.scoped p.scope name)).toNat = address modules options j := by
  rcases block_of_getElem? h.accepts hp with ⟨b⟩
  have hcode : b.code = [] ++ .label (.scoped p.scope name) :: [] := by
    have hbody := b.body_eq
    rw [hcommand] at hbody
    rw [← b.function_eq]
    exact (Except.ok.inj hbody).symm
  exact h.value_label b hcode

theorem value_entry {j : Nat} {p : Placed} {name : String} {locals : Word}
    (hp : (Program.ofModules modules)[j]? = some p)
    (hcommand : p.command = .function name locals) :
    (image.value (.entry name)).toNat = address modules options j := by
  rcases block_of_getElem? h.accepts hp with ⟨b⟩
  have hcode : b.code = [] ++ .label (.entry name) ::
      (List.replicate locals.toNat Code.pushZero).flatten := by
    have hbody := b.body_eq
    rw [hcommand] at hbody
    exact (Except.ok.inj hbody).symm
  exact h.value_label b hcode

end Loaded
end Module

/-!
## Following the stack machine

The machine gets to where the stack machine gets, with the same memory, or stops where the
stack machine stops.  Each command is followed by its own code.
-/

namespace StackMachine

/--
The machine gets to where the stack machine gets, with the same memory, or stops where the
stack machine stops.  What counts as the same memory is left open.
-/
def Follows (vm : StackMachine) (rom : Array Instruction) (same : Memory → Memory → Prop)
    (s : State) :
    Except Stop Config → Prop
  | .ok c => ∃ t, s.Reaches rom t ∧ t.pc = vm.address c.index ∧ same t.memory c.memory
  | .error (.finished m) =>
      ∃ rounds t, State.run rom rounds s = (some .halted, t) ∧ same t.memory m
  | .error (.fault address) => s.Faults rom address
  | .error (.astray address m) => ∃ t, s.Reaches rom t ∧ t.pc = address.toNat ∧ same t.memory m
  | .error .undefined => False

variable {vm : StackMachine} {rom : Array Instruction} {s : State}

theorem follows_goOn {j : Nat} {result : Except Word Memory}
    (h : s.Attains rom (result.map fun m => (vm.address j, m))) :
    vm.Follows rom Eq s (goOn j result) := by
  cases result with
  | error address => exact h
  | ok m =>
      rcases h with ⟨t, ht, hview⟩
      exact ⟨t, ht, congrArg Prod.fst hview, congrArg Prod.snd hview⟩

theorem follows_goIf {next j : Nat} {result : Except Word (Word × Memory)}
    (h : s.Attains rom (result.map fun top => (if top.1 = 0 then
      vm.address next else vm.address j, top.2))) :
    vm.Follows rom Eq s (goIf next (some j) result) := by
  cases result with
  | error address => exact h
  | ok top =>
      rcases h with ⟨t, ht, hview⟩
      unfold goIf
      dsimp only at hview ⊢
      split
      · next hzero =>
          rw [if_pos hzero] at hview
          exact ⟨t, ht, congrArg Prod.fst hview, congrArg Prod.snd hview⟩
      · next hzero =>
          rw [if_neg hzero] at hview
          exact ⟨t, ht, congrArg Prod.fst hview, congrArg Prod.snd hview⟩

theorem follows_land {result : Except Word (Word × Memory)}
    (h : s.Attains rom (result.map fun landing => (landing.1.toNat, landing.2))) :
    vm.Follows rom Eq s (vm.land result) := by
  cases result with
  | error address => exact h
  | ok landing =>
      rcases h with ⟨t, ht, hview⟩
      unfold land
      dsimp only
      cases hindex : vm.indexAt? landing.1 with
      | none => exact ⟨t, ht, congrArg Prod.fst hview, congrArg Prod.snd hview⟩
      | some j =>
          exact ⟨t, ht, (congrArg Prod.fst hview).trans (address_of_indexAt? hindex).symm,
            congrArg Prod.snd hview⟩

theorem goTo_some (j : Nat) (result : Except Word Memory) :
    goTo (some j) result = goOn j result := by
  cases result <;> rfl

theorem Similar.follows {first second : Except Stop Config} (hsimilar : Similar first second)
    (h : vm.Follows rom Eq s first) : vm.plain.Follows rom Memory.Agrees s second := by
  cases hsimilar with
  | ok index hagrees =>
      rcases h with ⟨t, ht, hpc, hmemory⟩
      exact ⟨t, ht, hpc, hmemory ▸ hagrees⟩
  | finished hagrees =>
      rcases h with ⟨rounds, t, ht, hmemory⟩
      exact ⟨rounds, t, ht, hmemory ▸ hagrees⟩
  | fault address => exact h
  | astray address hagrees =>
      rcases h with ⟨t, ht, hpc, hmemory⟩
      exact ⟨t, ht, hpc, hmemory ▸ hagrees⟩
  | undefined => exact h

end StackMachine

theorem State.Reaches.follows {vm : StackMachine} {rom : Array Instruction} {s t : State}
    {same : Memory → Memory → Prop} {result : Except StackMachine.Stop StackMachine.Config}
    (hst : s.Reaches rom t) (h : vm.Follows rom same t result) :
    vm.Follows rom same s result := by
  cases result with
  | ok c =>
      rcases h with ⟨u, hu, hpc, hmemory⟩
      exact ⟨u, hst.trans hu, hpc, hmemory⟩
  | error stop =>
      cases stop with
      | finished m =>
          rcases hst with ⟨first, hfirst⟩
          rcases h with ⟨rounds, u, hu, hmemory⟩
          exact ⟨first + rounds, u, by rw [run_add_of_none rounds hfirst, hu], hmemory⟩
      | fault address => exact hst.faults h
      | astray address m =>
          rcases h with ⟨u, hu, hpc, hmemory⟩
          exact ⟨u, hst.trans hu, hpc, hmemory⟩
      | undefined => exact h

theorem StackMachine.Follows.bind {vm : StackMachine} {rom : Array Instruction} {s : State}
    {first : Except Stop Config} {next : Config → Except Stop Config}
    (h : vm.Follows rom Eq s first)
    (hnext : ∀ (i : Nat) (t : State), t.pc = vm.address i →
      vm.Follows rom Eq t (next ⟨i, t.memory⟩)) :
    vm.Follows rom Eq s (first.bind next) := by
  cases first with
  | error stop => exact h
  | ok c =>
      rcases c with ⟨i, m⟩
      rcases h with ⟨t, ht, hpc, rfl⟩
      exact ht.follows (hnext i t hpc)

namespace Module.Loaded

variable {modules : List Module} {options : Options} {image : Image}
    (h : Loaded modules options image)
include h

variable {i : Nat} {module scope : String} {s : State}

theorem attains_code {p : Placed} (b : Block modules options i p)
    (hpc : s.pc = address modules options i) {code : Code} (hcode : b.code = code)
    {result : Except Word Memory}
    (hrun : HoldsAt image.rom s.pc (code.instructions image.value) →
      s.Attains image.rom (result.map fun m => (s.pc + code.size, m))) :
    s.Attains image.rom (result.map fun m => (address modules options (i + 1), m)) := by
  have hholds := h.holdsAt b
  have hnext := b.address_succ
  rw [hcode, ← hpc] at hholds hnext
  rw [hnext]
  exact hrun hholds

theorem follows_code {p : Placed} (b : Block modules options i p)
    (hpc : s.pc = address modules options i) {code : Code} (hcode : b.code = code)
    {result : Except Word Memory}
    (hrun : HoldsAt image.rom s.pc (code.instructions image.value) →
      s.Attains image.rom (result.map fun m => (s.pc + code.size, m))) :
    (stackMachine modules options image).Follows image.rom Eq s
      (StackMachine.goOn (i + 1) result) :=
  StackMachine.follows_goOn (h.attains_code b hpc hcode hrun)

theorem follows_operate {op : Operation}
    (b : Block modules options i ⟨module, scope, .operate op⟩)
    (hpc : s.pc = address modules options i) :
    (stackMachine modules options image).Follows image.rom Eq s
      (StackMachine.goOn (i + 1) (op.apply s.memory)) := by
  cases op with
  | unary op =>
      refine h.follows_code b hpc (Except.ok.inj b.body_eq).symm ?_
      intro hcode
      exact State.attains_perform hcode (by cases op <;> rfl)
        (Code.view_unary image.value_register s op)
  | binary op =>
      refine h.follows_code b hpc (Except.ok.inj b.body_eq).symm ?_
      intro hcode
      exact State.attains_perform hcode (by cases op <;> rfl)
        (Code.view_binary image.value_register s op)
  | compare op =>
      have hbody : b.code = Code.compare op (b.emitter.comparisons + 1) :=
        (Except.ok.inj b.body_eq).symm
      refine h.follows_code b hpc hbody ?_
      intro hcode
      have hholds : b.code = (Code.compare op (b.emitter.comparisons + 1)).take 10 ++
          .label (.holds (b.emitter.comparisons + 1)) ::
            (Code.compare op (b.emitter.comparisons + 1)).drop 11 :=
        hbody
      have hcompared : b.code = (Code.compare op (b.emitter.comparisons + 1)).take 12 ++
          .label (.compared (b.emitter.comparisons + 1)) ::
            (Code.compare op (b.emitter.comparisons + 1)).drop 13 :=
        hbody
      apply Code.attains_compare image.value_register hcode
      · rw [h.value_label b hholds, hpc]
        rfl
      · rw [h.value_label b hcompared, hpc]
        rfl

theorem follows_push {segment : Segment} {index : Word}
    (b : Block modules options i ⟨module, scope, .push segment index⟩)
    (hpc : s.pc = address modules options i) :
    (stackMachine modules options image).Follows image.rom Eq s
      (StackMachine.goOn (i + 1)
        ((stackMachine modules options image).push s.memory module segment index)) := by
  rcases Emitter.pushCode_cases b.body_eq with ⟨rfl, -, hbody⟩ | ⟨-, access, hfind, hbody⟩
  · refine h.follows_code b hpc hbody ?_
    intro hcode
    exact State.attains_perform hcode rfl (Code.view_pushConstant image.value_register s index)
  · rw [b.module_eq] at hfind
    refine h.follows_code b hpc hbody ?_
    intro hcode
    exact Code.attains_push image.value_register (fun _ _ => rfl) hfind hcode

theorem follows_pop {segment : Segment} {index : Word}
    (b : Block modules options i ⟨module, scope, .pop segment index⟩)
    (hpc : s.pc = address modules options i) :
    (stackMachine modules options image).Follows image.rom Eq s
      (StackMachine.goOn (i + 1)
        ((stackMachine modules options image).pop s.memory module segment index)) := by
  rcases Emitter.popCode_cases b.body_eq with ⟨access, hfind, hbody⟩
  rw [b.module_eq] at hfind
  refine h.follows_code b hpc hbody ?_
  intro hcode
  exact Code.attains_pop image.value_register rfl (fun _ _ => rfl) hfind hcode

theorem follows_function {name : String} {locals : Word}
    (b : Block modules options i ⟨module, scope, .function name locals⟩)
    (hpc : s.pc = address modules options i) :
    (stackMachine modules options image).Follows image.rom Eq s
      (StackMachine.goOn (i + 1) (s.memory.pushZeros locals.toNat)) := by
  refine h.follows_code b hpc (Except.ok.inj b.body_eq).symm ?_
  intro hcode
  rw [Code.size_function]
  exact Code.attains_function image.value_register hcode

theorem value_returned {name : String} {arguments : Word}
    (b : Block modules options i ⟨module, scope, .call name arguments⟩) :
    b.code = Code.call name arguments (b.emitter.callSites + 1) ∧
    (image.value (.returned name (b.emitter.callSites + 1))).toNat =
      address modules options (i + 1) := by
  have hbody : b.code = Code.call name arguments (b.emitter.callSites + 1) := by
    have hbody := b.body_eq
    simp only [Emitter.body] at hbody
    split at hbody
    · exact (Except.ok.inj hbody).symm
    · cases hbody
  have hreturned : b.code = (Code.call name arguments (b.emitter.callSites + 1)).take 40 ++
      .label (.returned name (b.emitter.callSites + 1)) :: [] := hbody
  refine ⟨hbody, ?_⟩
  rw [h.value_label b hreturned, b.address_succ, hbody]
  rfl

theorem follows_call (hclosed : (Program.ofModules modules).Closed) {name : String}
    {arguments : Word}
    (hp : (Program.ofModules modules)[i]? = some ⟨module, scope, .call name arguments⟩)
    (b : Block modules options i ⟨module, scope, .call name arguments⟩)
    (hpc : s.pc = address modules options i) :
    (stackMachine modules options image).Follows image.rom Eq s
      ((stackMachine modules options image).enter s.memory (i + 1) name arguments) := by
  rcases h.value_returned b with ⟨hbody, hnext⟩
  have hdefines : (Program.ofModules modules).Defines name :=
    hclosed _ (List.mem_of_getElem? hp)
  rcases hdefines.entryIndex? with ⟨j, r, hj, hr, k, hk⟩
  have hreturn : image.value (.returned name (b.emitter.callSites + 1)) =
      BitVec.ofNat 16 (address modules options (i + 1)) := by
    rw [← hnext, BitVec.ofNat_toNat, BitVec.setWidth_eq]
  have hcode := h.holdsAt b
  rw [← hpc, hbody] at hcode
  have hrun := Code.attains_call image.value_register hcode
  rw [hreturn, h.value_entry hr hk] at hrun
  show StackMachine.Follows _ _ _ _
    (StackMachine.goTo ((Program.ofModules modules).entryIndex? name) _)
  rw [hj, StackMachine.goTo_some]
  exact StackMachine.follows_goOn hrun

theorem target_of_jump (hclosed : (Program.ofModules modules).Closed) {p : Placed}
    {name : String} (hp : (Program.ofModules modules)[i]? = some p)
    (hcommand : p.command = .goto name ∨ p.command = .ifGoto name) :
    ∃ j, (Program.ofModules modules).labelIndex? p.scope name = some j ∧
      (image.value (.scoped p.scope name)).toNat = address modules options j := by
  have hlabel : ∃ q ∈ Program.ofModules modules, q.command = .label name ∧
      q.scope = p.scope := by
    have hresolves := hclosed p (List.mem_of_getElem? hp)
    unfold Program.Resolves at hresolves
    rcases hcommand with hcommand | hcommand <;>
      · rw [hcommand] at hresolves
        exact hresolves
  rcases hlabel with ⟨q, hq, hlabel, hscope⟩
  rw [← hscope]
  rcases Program.labelIndex?_of_mem hq hlabel with ⟨j, r, hj, hr, hname, hsame⟩
  refine ⟨j, hj, ?_⟩
  rw [← hsame]
  exact h.value_scoped hr hname

theorem follows_goto (hclosed : (Program.ofModules modules).Closed) {name : String}
    (hp : (Program.ofModules modules)[i]? = some ⟨module, scope, .goto name⟩)
    (b : Block modules options i ⟨module, scope, .goto name⟩)
    (hpc : s.pc = address modules options i) :
    (stackMachine modules options image).Follows image.rom Eq s
      (StackMachine.goTo ((Program.ofModules modules).labelIndex? scope name)
        (.ok s.memory)) := by
  rcases h.target_of_jump hclosed hp (Or.inl rfl) with ⟨j, hj, htarget⟩
  have hcode := h.holdsAt b
  rw [← hpc, ← Except.ok.inj b.body_eq, b.function_eq] at hcode
  rw [hj, StackMachine.goTo_some]
  apply StackMachine.follows_goOn
  have hrun := Code.attains_goto hcode
  rw [htarget] at hrun
  exact hrun

theorem follows_ifGoto (hclosed : (Program.ofModules modules).Closed) {name : String}
    (hp : (Program.ofModules modules)[i]? = some ⟨module, scope, .ifGoto name⟩)
    (b : Block modules options i ⟨module, scope, .ifGoto name⟩)
    (hpc : s.pc = address modules options i) :
    (stackMachine modules options image).Follows image.rom Eq s
      ((stackMachine modules options image).execute i ⟨module, scope,
        .ifGoto name⟩ s.memory) := by
  rcases h.target_of_jump hclosed hp (Or.inr rfl) with ⟨j, hj, htarget⟩
  have hcode := h.holdsAt b
  have hnext : address modules options (i + 1) = s.pc + 5 := by
    rw [b.address_succ, hpc, ← Except.ok.inj b.body_eq]
    rfl
  rw [← hpc, ← Except.ok.inj b.body_eq, b.function_eq] at hcode
  have hrun := Code.attains_ifGoto image.value_register hcode
  rw [htarget, ← hnext] at hrun
  show StackMachine.Follows _ _ _ _
    (StackMachine.goIf _ ((Program.ofModules modules).labelIndex? scope name) _)
  rw [hj]
  exact StackMachine.follows_goIf hrun

theorem attains_return (b : Block modules options i ⟨module, scope, .ret⟩)
    (hpc : s.pc = address modules options i) :
    s.Attains image.rom (s.memory.leaveByScratch.map fun m => ((m.get 14).toNat, m)) := by
  have hcode := h.holdsAt b
  rw [← hpc, ← Except.ok.inj b.body_eq] at hcode
  exact Code.attains_return image.value_register hcode

theorem follows_return (b : Block modules options i ⟨module, scope, .ret⟩)
    (hpc : s.pc = address modules options i) :
    (stackMachine modules options image).Follows image.rom Eq s
      ((stackMachine modules options image).leave s.memory) := by
  have hrun := h.attains_return b hpc
  apply StackMachine.follows_land
  show s.Attains image.rom ((s.memory.leaveByScratch.map fun m => (m.get 14, m)).map _)
  rw [map_eq_bind, map_eq_bind, bind_bind]
  rw [map_eq_bind] at hrun
  exact hrun

/-!
## Whole runs

A run is followed command by command, from any command on and from the start.
-/

theorem follows_execute (hclosed : (Program.ofModules modules).Closed) {p : Placed}
    (hp : (Program.ofModules modules)[i]? = some p) (hpc : s.pc = address modules options i) :
    (stackMachine modules options image).Follows image.rom Eq s
      ((stackMachine modules options image).execute i p s.memory) := by
  rcases block_of_getElem? h.accepts hp with ⟨b⟩
  rcases p with ⟨module, scope, command⟩
  cases command with
  | operate op => exact h.follows_operate b hpc
  | push segment index => exact h.follows_push b hpc
  | pop segment index => exact h.follows_pop b hpc
  | label name =>
      have hnext : address modules options (i + 1) = s.pc := by
        rw [b.address_succ, hpc, ← Except.ok.inj b.body_eq]
        rfl
      exact ⟨s, State.Reaches.refl s, hnext.symm, rfl⟩
  | goto name => exact h.follows_goto hclosed hp b hpc
  | ifGoto name => exact h.follows_ifGoto hclosed hp b hpc
  | function name locals => exact h.follows_function b hpc
  | call name arguments => exact h.follows_call hclosed hp b hpc
  | ret => exact h.follows_return b hpc

theorem step_end (hp : (Program.ofModules modules)[i]? = none)
    (hpc : s.pc = address modules options i) :
    s.step image.rom = .error .halted := by
  have hsize : image.rom.size = address modules options i := by
    rw [address_of_length_le (List.getElem?_eq_none_iff.mp hp), ← Array.length_toList,
      h.assembled.rom_eq, Code.length_instructions]
  have hend : image.rom[s.pc]? = none :=
    Array.getElem?_eq_none (Nat.le_of_eq (hsize.trans hpc.symm))
  simp only [State.step, hend]

theorem follows_step (hclosed : (Program.ofModules modules).Closed)
    (hpc : s.pc = address modules options i) :
    (stackMachine modules options image).Follows image.rom Eq s
      ((stackMachine modules options image).step ⟨i, s.memory⟩) := by
  cases hp : (Program.ofModules modules)[i]? with
  | some p =>
      have hstep : (stackMachine modules options image).step ⟨i, s.memory⟩ =
          (stackMachine modules options image).execute i p s.memory := by
        simp only [StackMachine.step, stackMachine, hp]
      rw [hstep]
      exact h.follows_execute hclosed hp hpc
  | none =>
      have hstep : (stackMachine modules options image).step ⟨i, s.memory⟩ =
          .error (.finished s.memory) := by
        simp only [StackMachine.step, stackMachine, hp]
      rw [hstep]
      exact ⟨1, s, State.run_succ_of_step_error 0 (h.step_end hp hpc), rfl⟩

theorem follows_run (hclosed : (Program.ofModules modules).Closed) (steps : Nat)
    (hpc : s.pc = address modules options i) :
    (stackMachine modules options image).Follows image.rom Eq s
      ((stackMachine modules options image).run steps ⟨i, s.memory⟩) := by
  induction steps generalizing s i with
  | zero => exact ⟨s, State.Reaches.refl s, hpc, rfl⟩
  | succ steps ih =>
      refine (h.follows_step hclosed hpc).bind ?_
      intro j t htpc
      exact ih htpc

theorem value_returned_init (hboot : options.bootstrap = true) :
    image.value (.returned "Sys.init" 1) = BitVec.ofNat 16 (address modules options 0) := by
  rcases preamble_eq modules hboot with ⟨note, hpreamble, -⟩
  have hlinked : linkedCode modules options =
      (note ++ (Code.bootstrap 1).take 44) ++ .label (.returned "Sys.init" 1) ::
        (blocks modules options).flatten := by
    rw [linkedCode, hpreamble, List.append_assoc, List.append_assoc]
    rfl
  have hstart : address modules options 0 = (note ++ (Code.bootstrap 1).take 44).size := by
    rw [address, hpreamble, List.take_zero, List.flatten_nil, List.append_nil,
      Code.size_append, Code.size_append]
    rfl
  rw [hstart, ← h.assembled.toNat_value_label hlinked, BitVec.ofNat_toNat, BitVec.setWidth_eq]

theorem follows_boot (hboot : options.bootstrap = true)
    (hinit : (Program.ofModules modules).Defines "Sys.init") (hpc : s.pc = 0) :
    (stackMachine modules options image).Follows image.rom Eq s
      ((stackMachine modules options image).boot s.memory) := by
  rcases hinit.entryIndex? with ⟨j, r, hj, hr, k, hk⟩
  rcases preamble_eq modules hboot with ⟨note, hpreamble, hsize⟩
  have hcode : HoldsAt image.rom s.pc ((Code.bootstrap 1).instructions image.value) := by
    refine ⟨note.instructions image.value,
      Code.instructions image.value (blocks modules options).flatten, ?_, ?_⟩
    · rw [h.assembled.rom_eq, linkedCode, hpreamble, Code.instructions_append,
        Code.instructions_append]
    · rw [Code.length_instructions, hsize, hpc]
  have hrun := Code.attains_bootstrap image.value_register hcode
  rw [h.value_returned_init hboot, h.value_entry hr hk] at hrun
  show StackMachine.Follows _ _ _ _
    (StackMachine.goTo ((Program.ofModules modules).entryIndex? "Sys.init") _)
  rw [hj, StackMachine.goTo_some]
  exact StackMachine.follows_goOn hrun

end Module.Loaded

/--
A linked and loaded program runs as the stack machine does, from any command and any memory,
for any number of steps, and from the start.  The stack machine that knows nothing of the
scratch cells is followed as well, up to these cells, as long as no command takes an operand
from them.
-/
theorem Module.run_follows_stackMachine {modules : List Module} {options : Options}
    {lines : List String} {machine : Machine} (hlink : linkedLines modules options = .ok lines)
    (hload : Machine.load lines = .ok machine) (hclosed : (Program.ofModules modules).Closed)
    (hinit : options.bootstrap = true → (Program.ofModules modules).Defines "Sys.init") :
    let vm := stackMachine modules options machine.image
    (∀ (steps i : Nat) (s : State), s.pc = address modules options i →
      vm.Follows machine.image.rom Eq s (vm.run steps ⟨i, s.memory⟩)) ∧
    (∀ (steps i : Nat) (s : State) (m : Memory), s.pc = address modules options i →
      s.memory.Agrees m →
      vm.Undisturbed steps ⟨i, m⟩ →
      vm.plain.Follows machine.image.rom Memory.Agrees s (vm.plain.run steps ⟨i, m⟩)) ∧
    (options.bootstrap = true → ∀ steps : Nat,
      vm.Follows machine.image.rom Eq machine.state
        ((vm.boot machine.state.memory).bind (vm.run steps))) ∧
    (options.bootstrap = false → machine.state.pc = address modules options 0) := by
  rcases loaded_of_load hlink hload with ⟨h, hstate⟩
  refine ⟨?_, ?_, ?_, ?_⟩
  · intro steps i s hpc
    exact h.follows_run hclosed steps hpc
  · intro steps i s m hpc hagrees hclear
    exact (StackMachine.similar_run rfl hagrees steps hclear).follows
      (h.follows_run hclosed steps hpc)
  · intro hboot steps
    have hpc : machine.state.pc = 0 := by
      rw [hstate]
    refine (h.follows_boot hboot (hinit hboot) hpc).bind ?_
    intro i t htpc
    exact h.follows_run hclosed steps htpc
  · intro hboot
    rw [hstate, address, preamble, hboot]
    rfl

/-- A function that gives back its argument, and a call of it. -/
def Module.identityCall : List Module :=
  [⟨"Sys",
    "function Sys.init 0\npush constant 2\ncall Sys.id 1\nlabel END\ngoto END\n" ++
    "function Sys.id 0\npush argument 0\nreturn\n"⟩]

theorem Module.identityCall_follows_stackMachine :
    (Program.ofModules identityCall).Closed ∧
      (Program.ofModules identityCall).Defines "Sys.init" ∧
    ∃ lines machine, linkedLines identityCall ⟨true, false⟩ = .ok lines ∧
      Machine.load lines = .ok machine ∧
      ∀ steps, (stackMachine identityCall ⟨true, false⟩ machine.image).Follows
        machine.image.rom Eq machine.state
        (((stackMachine identityCall ⟨true, false⟩ machine.image).boot
          machine.state.memory).bind
          ((stackMachine identityCall ⟨true, false⟩ machine.image).run steps)) := by
  have hclosed : (Program.ofModules identityCall).Closed := by
    decide +kernel
  have hinit : (Program.ofModules identityCall).Defines "Sys.init" := by
    decide +kernel
  have hloads : loads identityCall ⟨true, false⟩ = true := by
    decide +kernel
  rcases exists_machine_of_loads hloads with ⟨lines, machine, hlink, hload⟩
  refine ⟨hclosed, hinit, lines, machine, hlink, hload, ?_⟩
  exact (run_follows_stackMachine hlink hload hclosed fun _ => hinit).2.2.1 rfl

end HackVM
