import HackVM.Proofs.Frames
import HackVM.Proofs.Simulation

/-!
# Calls are well nested

Between a call and the return from it any commands may run, further calls and returns among
them.  As long as they take their operands from their own frame and spare the words saved in
the others, every return finds the frame that its call has set up, and the first call returns
to where it came from.
-/

namespace HackVM

/-!
## Within a frame

Work within a frame leaves the frame in use and everything below it alone, the given targets
apart.
-/

namespace Memory

/--
The memory after some work within a frame: the frame is still the one in use, and below it
nothing has changed but the given targets.
-/
structure Steady (m rest : Memory) (f : Frame) (targets : List Word) : Prop where
  le_stack : f.base.toNat ≤ (rest.get 0).toNat
  stack_le : (rest.get 0).toNat ≤ 32768
  base : rest.get 1 = m.get 1
  argument : rest.get 2 = m.get 2
  below : ∀ address : Word, 15 ≤ address.toNat →
    address.toNat < f.base.toNat → address ∉ targets →
    rest.get address = m.get address

variable {m rest next : Memory} {f : Frame} {targets : List Word}

theorem Active.steady (h : m.Active f) (targets : List Word) : m.Steady m f targets :=
  ⟨h.le_stack, h.stack_le, rfl, rfl, fun _ _ _ _ => rfl⟩

namespace Steady

theorem setStack (h : m.Steady rest f targets) {stack : Word}
    (hle : f.base.toNat ≤ stack.toNat) (hfits : stack.toNat ≤ 32768) :
    m.Steady (rest.set 0 stack) f targets := by
  have hother : ∀ address : Word, 0 < address.toNat →
      (rest.set 0 stack).get address = rest.get address := by
    intro address haddress
    exact get_set_of_ne rest stack (by decide) (Nat.ne_of_gt haddress)
  constructor
  case le_stack => rwa [get_set_self rest stack (by decide)]
  case stack_le => rwa [get_set_self rest stack (by decide)]
  case base => rw [hother 1 (by decide), h.base]
  case argument => rw [hother 2 (by decide), h.argument]
  case below =>
    intro address hlow hbelow htarget
    rw [hother address (by omega), h.below address hlow hbelow htarget]

theorem set (h : m.Steady rest f targets) (address value : Word) (hlt : address.toNat < 32768)
    (hlow : 3 ≤ address.toNat)
    (hplace : address.toNat < 15 ∨ f.base.toNat ≤ address.toNat ∨ address ∈ targets) :
    m.Steady (rest.set address value) f targets := by
  have hother : ∀ cell : Word, cell.toNat < 3 →
      (rest.set address value).get cell = rest.get cell := by
    intro cell hcell
    exact get_set_of_ne rest value hlt (by omega)
  constructor
  case le_stack =>
    rw [hother 0 (by decide)]
    exact h.le_stack
  case stack_le =>
    rw [hother 0 (by decide)]
    exact h.stack_le
  case base => rw [hother 1 (by decide), h.base]
  case argument => rw [hother 2 (by decide), h.argument]
  case below =>
    intro other hhigh hbelow htarget
    have hne : other ≠ address := by
      rintro rfl
      rcases hplace with hplace | hplace | hplace
      · omega
      · omega
      · exact htarget hplace
    rw [get_set rest other value hlt, if_neg hne, h.below other hhigh hbelow htarget]

theorem store (h : m.Steady rest f targets) {address value : Word} (hlow : 3 ≤ address.toNat)
    (hplace : address.toNat < 15 ∨ f.base.toNat ≤ address.toNat ∨ address ∈ targets)
    (hstore : rest.store address value = .ok next) : m.Steady next f targets := by
  by_cases hlt : address.toNat < 32768
  · rw [store_of_lt rest value hlt] at hstore
    cases hstore
    exact h.set address value hlt hlow hplace
  · rw [store_of_not_lt rest value hlt] at hstore
    cases hstore

theorem push (h : m.Steady rest f targets) {value : Word}
    (hpush : rest.push value = .ok next) :
    m.Steady next f targets := by
  have hbase := f.le_base
  have hle := h.le_stack
  unfold Memory.push at hpush
  by_cases hlt : (rest.get 0).toNat < 32768
  · have hsucc : (rest.get 0 + 1).toNat = (rest.get 0).toNat + 1 := by
      rw [BitVec.toNat_add]
      exact Nat.mod_eq_of_lt (by show _ + 1 < 65536; omega)
    exact (h.setStack (by omega) (by omega)).store (by omega) (Or.inr (Or.inl hle)) hpush
  · rw [store_of_not_lt _ value hlt] at hpush
    cases hpush

theorem pushZeros (h : m.Steady rest f targets) {count : Nat}
    (hpush : rest.pushZeros count = .ok next) :
    m.Steady next f targets := by
  induction count generalizing rest with
  | zero =>
      cases hpush
      exact h
  | succ count ih =>
      rcases exists_of_bind_eq_ok hpush with ⟨middle, hfirst, hrest⟩
      exact ih (h.push hfirst) hrest

theorem pop (h : m.Steady rest f targets) (htop : f.base.toNat < (rest.get 0).toNat)
    {top : Word × Memory} (hpop : rest.pop = .ok top) :
    m.Steady top.2 f targets ∧ (top.2.get 0).toNat = (rest.get 0).toNat - 1 := by
  have hle := h.stack_le
  have hpred : (rest.get 0 - 1).toNat = (rest.get 0).toNat - 1 :=
    toNat_sub_of_le (Nat.le_refl 1) (by omega)
  rw [eq_set_of_pop hpop, get_set_self rest _ (by decide)]
  exact ⟨h.setStack (by omega) (by omega), hpred⟩

theorem modifyTop (h : m.Steady rest f targets) (htop : f.base.toNat < (rest.get 0).toNat)
    {g : Word → Word} (hmodify : rest.modifyTop g = .ok next) : m.Steady next f targets := by
  have hbase := f.le_base
  have hpred : (rest.get 0 - 1).toNat = (rest.get 0).toNat - 1 :=
    toNat_sub_of_le (Nat.le_refl 1) (by omega)
  exact h.store (by omega) (Or.inr (Or.inl (by omega))) hmodify

theorem combineTop (h : m.Steady rest f targets) (htop : f.base.toNat + 1 < (rest.get 0).toNat)
    {g : Word → Word → Word} (hcombine : rest.combineTop g = .ok next) :
    m.Steady next f targets := by
  rcases exists_of_bind_eq_ok hcombine with ⟨top, hpop, hmodify⟩
  rcases h.pop (by omega) hpop with ⟨hsteady, hstack⟩
  exact hsteady.modifyTop (by omega) hmodify

theorem popTo (h : m.Steady rest f targets) (htop : f.base.toNat < (rest.get 0).toNat)
    {address : Word} (hlow : 3 ≤ address.toNat)
    (hplace : address.toNat < 15 ∨ f.base.toNat ≤ address.toNat ∨ address ∈ targets)
    (hpop : rest.popTo address = .ok next) : m.Steady next f targets := by
  rcases exists_of_bind_eq_ok hpop with ⟨top, hpop, hstore⟩
  exact (h.pop htop hpop).1.store hlow hplace hstore

theorem active (h : m.Steady rest f targets) (hactive : m.Active f)
    (hspared : ∀ address ∈ targets, ¬ f.IsSaved address) : rest.Active f := by
  constructor
  case base => rw [h.base, hactive.base]
  case argument => rw [h.argument, hactive.argument]
  case saves =>
    apply hactive.saves.congr
    intro address hsaved
    have hhigh := f.le_of_isSaved hsaved
    exact h.below address (by omega) hsaved.2 fun htarget => hspared address htarget hsaved
  case le_stack => exact h.le_stack
  case stack_le => exact h.stack_le

end Steady
end Memory

/-!
## Respecting the frames

Every command but a call and a return stays within the frame in use, if it takes its operands
from there and writes none of the saved words.
-/

namespace Command

def operandCount : Command → Nat
  | .operate (.unary _) | .pop _ _ | .ifGoto _ | .ret => 1
  | .operate (.binary _) | .operate (.compare _) => 2
  | .call _ arguments => arguments.toNat
  | .push _ _ | .label _ | .goto _ | .function _ _ => 0

def changesFrame : Command → Bool
  | .call _ _ | .ret => true
  | _ => false

def WellIndexed : Command → Prop
  | .pop .temp index => index.toNat < 8
  | .pop .pointer index => index = 0 ∨ index = 1
  | _ => True

end Command

theorem Emitter.wellIndexed_of_body {e : Emitter} {command : Command} {code : Code}
    (h : e.body command = .ok code) :
    command.WellIndexed := by
  cases command with
  | pop segment index =>
      rcases popCode_cases h with ⟨access, hfind, -⟩
      cases segment with
      | temp =>
          simp only [Access.find, Access.tempCell?] at hfind
          split at hfind
          · assumption
          · cases hfind
      | pointer =>
          simp only [Access.find, Access.pointerCell?] at hfind
          by_cases hzero : index = 0
          · exact Or.inl hzero
          · by_cases hone : index = 1
            · exact Or.inr hone
            · rw [if_neg hzero, if_neg hone] at hfind
              cases hfind
      | _ => trivial
  | _ => trivial

namespace StackMachine

def targets (vm : StackMachine) (p : Placed) (m : Memory) : List Word :=
  match p.command with
  | .pop .temp _ | .pop .pointer _ => []
  | .pop segment index => (vm.cell? m p.module index segment).toList
  | _ => []

/--
A command respects the pending frames, given by their bases: it works on words of its own
frame, and it writes neither one of the lowest cells nor one of the five words that are saved
directly below a base.
-/
structure Respects (vm : StackMachine) (bases : List Word) (p : Placed) (m : Memory) :
    Prop where
  operands : ∀ k < p.command.operandCount, (m.get 1).toNat + k < (m.get 0).toNat
  targets : ∀ address ∈ vm.targets p m, 16 ≤ address.toNat ∧
    ∀ base ∈ bases, ¬ (base.toNat ≤ address.toNat + 5 ∧ address.toNat < base.toNat)

variable {vm : StackMachine} {m : Memory} {f : Frame} {bases : List Word} {p : Placed}
    {i : Nat} {next : Config}

theorem Respects.operandCount_le (h : vm.Respects bases p m) (hactive : m.Active f) :
    f.base.toNat + p.command.operandCount ≤ (m.get 0).toNat := by
  have hle := hactive.le_stack
  rw [← hactive.base] at hle ⊢
  cases hcount : p.command.operandCount with
  | zero => exact hle
  | succ k =>
      have hlast := h.operands k (by omega)
      omega

theorem eq_ok_of_goOn {j : Nat} {result : Except Word Memory} (h : goOn j result = .ok next) :
    result = .ok next.memory := by
  cases result with
  | error address => cases h
  | ok m =>
      cases h
      rfl

theorem eq_ok_of_goTo {target : Option Nat} {result : Except Word Memory}
    (h : goTo target result = .ok next) :
    result = .ok next.memory := by
  cases target with
  | none => cases result <;> cases h
  | some j => exact eq_ok_of_goOn ((goTo_some j result).symm.trans h)

theorem eq_ok_of_goIf {j : Nat} {target : Option Nat} {result : Except Word (Word × Memory)}
    (h : goIf j target result = .ok next) : ∃ value, result = .ok (value, next.memory) := by
  cases result with
  | error address => cases h
  | ok top =>
      rcases top with ⟨value, m⟩
      unfold goIf at h
      dsimp only at h
      split at h
      · cases h
        exact ⟨value, rfl⟩
      · rw [Except.ok.inj (eq_ok_of_goTo h)]
        exact ⟨value, rfl⟩

theorem eq_ok_of_land {result : Except Word (Word × Memory)} (h : vm.land result = .ok next) :
    ∃ address, result = .ok (address, next.memory) := by
  cases result with
  | error address => cases h
  | ok landing =>
      rcases landing with ⟨address, m⟩
      unfold land at h
      dsimp only at h
      split at h
      · cases h
        exact ⟨address, rfl⟩
      · cases h

theorem Respects.place_of_pop {segment : Segment} {index address : Word}
    {module scope : String} (h : vm.Respects bases ⟨module, scope, .pop segment index⟩ m)
    (hwell : (Command.pop segment index).WellIndexed)
    (hcell : vm.cell? m module index segment = some address) :
    3 ≤ address.toNat ∧
      (address.toNat < 15 ∨ address ∈ vm.targets ⟨module, scope, .pop segment index⟩ m) := by
  have htarget : address ∈ vm.targets ⟨module, scope, .pop segment index⟩ m →
      3 ≤ address.toNat ∧
        (address.toNat < 15 ∨ address ∈ vm.targets ⟨module, scope, .pop segment index⟩ m) := by
    intro hmem
    have hhigh := (h.targets address hmem).1
    exact ⟨by omega, Or.inr hmem⟩
  cases segment with
  | temp =>
      cases hcell
      have hindex : index.toNat < 8 := hwell
      have hsum : ((5 : Word) + index).toNat = 5 + index.toNat := by
        rw [BitVec.toNat_add]
        exact Nat.mod_eq_of_lt (by show 5 + index.toNat < 65536; omega)
      omega
  | pointer =>
      cases hcell
      rcases hwell with rfl | rfl
      · exact ⟨by decide, Or.inl (by decide)⟩
      · exact ⟨by decide, Or.inl (by decide)⟩
  | constant => cases hcell
  | locals | argument | this | that | static =>
      apply htarget
      simp [StackMachine.targets, hcell]

theorem steady_pop {segment : Segment} {index : Word} {module scope : String} {rest : Memory}
    (hactive : m.Active f)
    (hrespects : vm.Respects bases ⟨module, scope, .pop segment index⟩ m)
    (hwell : (Command.pop segment index).WellIndexed)
    (h : vm.pop m module segment index = .ok rest) :
    m.Steady rest f (vm.targets ⟨module, scope, .pop segment index⟩ m) := by
  have hsteady := hactive.steady (vm.targets ⟨module, scope, .pop segment index⟩ m)
  have htop : f.base.toNat + 1 ≤ (m.get 0).toNat := hrespects.operandCount_le hactive
  unfold StackMachine.pop at h
  cases hcell : vm.cell? m module index segment with
  | none =>
      rw [hcell] at h
      cases h
      exact hsteady
  | some address =>
      rw [hcell] at h
      dsimp only at h
      rcases hrespects.place_of_pop hwell hcell with ⟨hlow, hplace⟩
      have hplace : address.toNat < 15 ∨ f.base.toNat ≤ address.toNat ∨
          address ∈ vm.targets ⟨module, scope, .pop segment index⟩ m := hplace.imp_right Or.inr
      split at h
      · have hscratch := hsteady.set 13 address (by decide) (by decide) (Or.inl (by decide))
        refine hscratch.popTo ?_ hlow hplace h
        rw [Memory.get_set_of_ne m address (by decide) (by decide)]
        exact htop
      · exact hsteady.popTo htop hlow hplace h

theorem steady_execute (hactive : m.Active f) (hrespects : vm.Respects bases p m)
    (hwell : p.command.WellIndexed) (hstays : p.command.changesFrame = false)
    (h : vm.execute i p m = .ok next) :
    m.Steady next.memory f (vm.targets p m) := by
  rcases p with ⟨module, scope, command⟩
  have hsteady := hactive.steady (vm.targets ⟨module, scope, command⟩ m)
  have htop := hrespects.operandCount_le hactive
  cases command with
  | operate op =>
      have hop : op.apply m = .ok next.memory := eq_ok_of_goOn h
      cases op with
      | unary op =>
          rw [Operation.apply] at hop
          exact hsteady.modifyTop htop hop
      | binary op | compare op =>
          rw [Operation.apply] at hop
          exact hsteady.combineTop htop hop
  | push segment index =>
      have hpush := eq_ok_of_goOn h
      unfold StackMachine.push at hpush
      cases hcell : vm.cell? m module index segment with
      | none =>
          rw [hcell] at hpush
          exact hsteady.push hpush
      | some address =>
          rw [hcell] at hpush
          rcases exists_of_bind_eq_ok hpush with ⟨value, -, hvalue⟩
          exact hsteady.push hvalue
  | pop segment index => exact steady_pop hactive hrespects hwell (eq_ok_of_goOn h)
  | label name =>
      cases h
      exact hsteady
  | goto name =>
      change goTo _ (.ok m) = .ok next at h
      cases next
      cases eq_ok_of_goTo h
      exact hsteady
  | ifGoto name =>
      rcases eq_ok_of_goIf h with ⟨value, hpop⟩
      exact (hsteady.pop htop hpop).1
  | function name locals => exact hsteady.pushZeros (eq_ok_of_goOn h)
  | call name arguments => cases hstays
  | ret => cases hstays

end StackMachine

/-!
## Pending frames

The pending calls are given by their frames, from the one in use outwards.  Each lies above
the one that it has saved, so a return brings back the frame that its call has found.
-/

/--
The frames of the pending calls, from the one in use outwards to the first one.  Each lies
above the one that it has saved.
-/
inductive Memory.Pending (m : Memory) (first : Frame) : Frame → List Frame → Prop where
  | first : Pending m first first []
  | inner {f g : Frame} {outer : List Frame} (hsaves : m.Saves g) (hlcl : f.lcl = g.base)
      (harg : f.arg = g.argument)
      (habove : g.base.toNat ≤ f.argument.toNat) (houter : Pending m first g outer) :
        Pending m first f (g :: outer)

namespace Memory.Pending

variable {m rest : Memory} {first f : Frame} {outer : List Frame}

theorem base_le (h : m.Pending first f outer) :
    ∀ g ∈ outer, g.base.toNat ≤ f.argument.toNat := by
  induction h with
  | first =>
      intro g hg
      cases hg
  | @inner f g outer hsaves hlcl harg habove houter ih =>
      have hroom := g.room
      intro other hother
      rcases List.mem_cons.mp hother with rfl | hother
      · exact habove
      · have hle := ih other hother
        omega

theorem first_argument_le (h : m.Pending first f outer) :
    first.argument.toNat + 5 ≤ f.base.toNat := by
  induction h with
  | first => exact first.room
  | @inner f g outer hsaves hlcl harg habove houter ih =>
      have hroom := f.room
      omega

theorem congr (h : m.Pending first f outer)
    (hsame : ∀ g ∈ outer, ∀ address, g.IsSaved address → rest.get address = m.get address) :
    rest.Pending first f outer := by
  induction h with
  | first => exact .first
  | @inner f g outer hsaves hlcl harg habove houter ih =>
      refine .inner (hsaves.congr (hsame g (List.mem_cons_self ..))) hlcl harg habove (ih ?_)
      intro other hother
      exact hsame other (List.mem_cons_of_mem _ hother)

end Memory.Pending

/--
A memory between the call that has set up the first frame and the return from it.  The second
memory is the one before that call, and the written addresses are those of all targets since
then.
-/
structure Memory.Nested (m before : Memory) (first f : Frame) (outer : List Frame)
    (written : List Word) : Prop where
  active : m.Active f
  pending : m.Pending first f outer
  below : ∀ address : Word, 15 ≤ address.toNat →
    address.toNat < first.argument.toNat → address ∉ written →
    m.get address = before.get address

namespace Memory.Nested

variable {m before rest : Memory} {first f : Frame} {outer : List Frame} {written : List Word}

theorem steady (h : m.Nested before first f outer written) {targets : List Word}
    (hsteady : m.Steady rest f targets)
    (hspared : ∀ address ∈ targets, ∀ g ∈ f :: outer, ¬ g.IsSaved address) :
    rest.Nested before first f outer (targets ++ written) := by
  have hroom := f.room
  have hfirst := h.pending.first_argument_le
  constructor
  case active =>
    apply hsteady.active h.active
    intro address htarget
    exact hspared address htarget f (List.mem_cons_self ..)
  case pending =>
    apply h.pending.congr
    intro g hg address hsaved
    have hhigh := g.le_of_isSaved hsaved
    have hbelow := h.pending.base_le g hg
    have hlt := hsaved.2
    apply hsteady.below address (by omega) (by omega)
    intro htarget
    exact hspared address htarget g (List.mem_cons_of_mem _ hg) hsaved
  case below =>
    intro address hhigh hbelow hwritten
    rw [List.mem_append, not_or] at hwritten
    rw [hsteady.below address hhigh (by omega) hwritten.1,
      h.below address hhigh hbelow hwritten.2]

theorem enter (h : m.Nested before first f outer written) {returnAddress arguments : Word}
    (harguments : f.base.toNat + arguments.toNat ≤ (m.get 0).toNat)
    (henter : m.enter returnAddress arguments = .ok rest) :
    ∃ g, g.base = rest.get 1 ∧ rest.Nested before first g (f :: outer) written := by
  have hbase := f.le_base
  have hroom := f.room
  have hfirst := h.pending.first_argument_le
  have hstack := h.active.le_stack
  rcases entered_of_enter (by omega) henter with ⟨g, hg⟩
  have hargument : g.argument.toNat = (m.get 0).toNat - arguments.toNat := by
    rw [hg.argument]
    exact toNat_sub_of_le (Nat.le_refl _) (by omega)
  have hsaved : ∀ other ∈ f :: outer, ∀ address, other.IsSaved address →
      rest.get address = m.get address := by
    intro other hother address hsaved
    have hhigh := other.le_of_isSaved hsaved
    have hlt := hsaved.2
    have hle : other.base.toNat ≤ f.base.toNat := by
      rcases List.mem_cons.mp hother with rfl | hother
      · exact Nat.le_refl _
      · have hle := h.pending.base_le other hother
        omega
    exact hg.elsewhere address (by omega) (by omega)
  refine ⟨g, hg.active.base.symm, ?_⟩
  constructor
  case active => exact hg.active
  case pending =>
    refine .inner (h.active.saves.congr (hsaved f (List.mem_cons_self ..))) ?_ ?_
      (by omega) (h.pending.congr ?_)
    · rw [hg.lcl, h.active.base]
    · rw [hg.arg, h.active.argument]
    · intro other hother
      exact hsaved other (List.mem_cons_of_mem _ hother)
  case below =>
    intro address hhigh hbelow hwritten
    rw [hg.elsewhere address (by omega) (by omega), h.below address hhigh hbelow hwritten]

theorem leave {g : Frame} (h : m.Nested before first f (g :: outer) written)
    (htop : f.base.toNat < (m.get 0).toNat) (hleave : m.leaveByScratch = .ok rest) :
    rest.Nested before first g outer written := by
  cases h.pending with
  | inner hsaves hlcl harg habove houter =>
      rcases h.active.leaveByScratch htop with ⟨same, hsame, -, hreturned⟩
      cases hsame.symm.trans hleave
      have hroom := f.room
      have hbase := f.base_le
      have hstack : (rest.get 0).toNat = f.argument.toNat + 1 := by
        rw [hreturned.stack, BitVec.toNat_add]
        exact Nat.mod_eq_of_lt (by show _ + 1 < 65536; omega)
      -- The result is stored above all frames that are left.
      have hbelow : ∀ address : Word, 15 ≤ address.toNat → address.toNat < g.base.toNat →
          rest.get address = m.get address := by
        intro address hhigh hlt
        apply hreturned.elsewhere address hhigh
        rintro rfl
        omega
      constructor
      case active =>
        constructor
        case base => rw [hreturned.lcl, hlcl]
        case argument => rw [hreturned.arg, harg]
        case saves =>
          apply hsaves.congr
          intro address hsaved
          have hhigh := g.le_of_isSaved hsaved
          exact hbelow address (by omega) hsaved.2
        case le_stack => omega
        case stack_le => omega
      case pending =>
        apply houter.congr
        intro other hother address hsaved
        have hhigh := other.le_of_isSaved hsaved
        have hle := houter.base_le other hother
        have hroom := g.room
        have hlt := hsaved.2
        exact hbelow address (by omega) (by omega)
      case below =>
        intro address hhigh hlt hwritten
        have hfirst := houter.first_argument_le
        rw [hbelow address hhigh (by omega), h.below address hhigh hlt hwritten]

end Memory.Nested

/-!
## From a call to its return

Along a run after a call the frames stay nested.  The machine gets to wherever such a run
gets, and returns by way of the scratch cells.
-/

namespace StackMachine

def basesAfter (command : Command) (m : Memory) (bases : List Word) : List Word :=
  match command with
  | .call _ _ => m.get 1 :: bases
  | .ret => bases.tail
  | _ => bases

/--
The runs that begin right after a call and do not return from it, with the bases of the calls
that are pending, the innermost first, and all targets written so far.  Every command of such
a run respects the pending frames.
-/
inductive Inside (vm : StackMachine) (start : Config) :
    List Word → List Word → Config → Prop where
  | start : Inside vm start [start.memory.get 1] [] start
  | step {bases written : List Word} {c next : Config} {p : Placed}
      (h : Inside vm start bases written c)
      (hp : vm.program[c.index]? = some p) (hinner : p.command = .ret → 1 < bases.length)
      (hrespects : vm.Respects bases p c.memory) (hstep : vm.step c = .ok next) :
      Inside vm start (basesAfter p.command next.memory bases)
        (vm.targets p c.memory ++ written) next

theorem step_eq_execute {vm : StackMachine} {c : Config} {p : Placed}
    (hp : vm.program[c.index]? = some p) :
    vm.step c = vm.execute c.index p c.memory := by
  simp only [step, hp]

theorem basesAfter_of_stays {command : Command} (h : command.changesFrame = false) (m : Memory)
    (bases : List Word) :
    basesAfter command m bases = bases := by
  cases command with
  | call name arguments => cases h
  | ret => cases h
  | _ => rfl

variable {vm : StackMachine} {before : Memory} {first f : Frame} {outer : List Frame}
    {bases written : List Word}
  {c next : Config} {p : Placed}

theorem nested_execute (hscratch : vm.scratch = true)
    (h : c.memory.Nested before first f outer written) (hwell : p.command.WellIndexed)
    (hinner : p.command = .ret → outer ≠ [])
    (hrespects : vm.Respects ((f :: outer).map Frame.base) p c.memory)
    (hstep : vm.execute c.index p c.memory = .ok next) :
    ∃ g rest, basesAfter p.command next.memory ((f :: outer).map Frame.base) =
      (g :: rest).map Frame.base ∧
      next.memory.Nested before first g rest (vm.targets p c.memory ++ written) := by
  have htop := hrespects.operandCount_le h.active
  rcases p with ⟨module, scope, command⟩
  cases hchanges : command.changesFrame with
  | false =>
      refine ⟨f, outer, basesAfter_of_stays hchanges _ _, ?_⟩
      apply h.steady (steady_execute h.active hrespects hwell hchanges hstep)
      intro address htarget g hg
      exact (hrespects.targets address htarget).2 g.base (List.mem_map_of_mem hg)
  | true =>
      cases command with
      | call name arguments =>
          rcases h.enter htop (eq_ok_of_goTo hstep) with ⟨g, hbase, hnested⟩
          exact ⟨g, f :: outer, congrArg (· :: _) hbase.symm, hnested⟩
      | ret =>
          cases outer with
          | nil => exact absurd rfl (hinner rfl)
          | cons g outer =>
              have hland : vm.land (c.memory.leaveByScratch.map fun m => (m.get 14, m)) =
                  .ok next := by
                have hleave : vm.leave c.memory = .ok next := hstep
                rwa [leave, hscratch, if_pos rfl] at hleave
              rcases eq_ok_of_land hland with ⟨address, hmap⟩
              rw [map_eq_bind] at hmap
              rcases exists_of_bind_eq_ok hmap with ⟨rest, hleave, hrest⟩
              cases hrest
              exact ⟨g, outer, rfl, h.leave htop hleave⟩
      | _ => cases hchanges

theorem Inside.nested {start : Config} (hscratch : vm.scratch = true)
    (hwell : ∀ p ∈ vm.program, p.command.WellIndexed)
    (hstart : start.memory.Nested before first first [] [])
    (h : vm.Inside start bases written c) :
    ∃ f outer, bases = (f :: outer).map Frame.base ∧
      c.memory.Nested before first f outer written := by
  induction h with
  | start => exact ⟨first, [], congrArg (· :: []) hstart.active.base, hstart⟩
  | @step bases written c next p h hp hinner hrespects hstep ih =>
      rcases ih with ⟨f, outer, rfl, hnested⟩
      have hwell := hwell p (List.mem_of_getElem? hp)
      rw [step_eq_execute hp] at hstep
      apply nested_execute hscratch hnested hwell ?_ hrespects hstep
      intro hret
      have hlength := hinner hret
      rintro rfl
      exact absurd hlength (by simp)

end StackMachine

namespace Module.Loaded

variable {modules : List Module} {options : Options} {image : Image}
    (h : Loaded modules options image)
include h

theorem wellIndexed : ∀ p ∈ Program.ofModules modules, p.command.WellIndexed := by
  intro p hp
  rcases List.getElem?_of_mem hp with ⟨i, hi⟩
  rcases block_of_getElem? h.accepts hi with ⟨b⟩
  exact Emitter.wellIndexed_of_body b.body_eq

theorem reaches_of_inside (hclosed : (Program.ofModules modules).Closed) {s : State}
    {start c : StackMachine.Config} {bases written : List Word}
    (hpc : s.pc = address modules options start.index) (hmemory : s.memory = start.memory)
    (hinside : (stackMachine modules options image).Inside start bases written c) :
    ∃ t, s.Reaches image.rom t ∧ t.pc = address modules options c.index ∧
      t.memory = c.memory := by
  induction hinside with
  | start => exact ⟨s, State.Reaches.refl s, hpc, hmemory⟩
  | @step bases written c next p hinside hp hinner hrespects hstep ih =>
      rcases ih with ⟨t, ht, htpc, htmemory⟩
      have hfollows := h.follows_step hclosed htpc
      rw [htmemory, hstep] at hfollows
      rcases hfollows with ⟨u, hu, hupc, humemory⟩
      exact ⟨u, ht.trans hu, hupc, humemory⟩

theorem reaches_of_leave {i : Nat} {p : Placed} {s : State} {rest : Memory}
    (hp : (Program.ofModules modules)[i]? = some p) (hret : p.command = .ret)
    (hpc : s.pc = address modules options i) (hleave : s.memory.leaveByScratch = .ok rest) :
    ∃ t, s.Reaches image.rom t ∧ t.pc = (rest.get 14).toNat ∧ t.memory = rest := by
  rcases p with ⟨module, scope, command⟩
  cases hret
  rcases block_of_getElem? h.accepts hp with ⟨b⟩
  have hrun := h.attains_return b hpc
  rw [hleave] at hrun
  rcases hrun with ⟨t, ht, hview⟩
  exact ⟨t, ht, congrArg Prod.fst hview, congrArg Prod.snd hview⟩

theorem toNat_returnAddress {i : Nat} {p : Placed} {name : String} {arguments : Word}
    (hp : (Program.ofModules modules)[i]? = some p)
    (hcall : p.command = .call name arguments) :
    (BitVec.ofNat 16 (address modules options (i + 1))).toNat =
      address modules options (i + 1) := by
  rcases p with ⟨module, scope, command⟩
  cases hcall
  rcases block_of_getElem? h.accepts hp with ⟨b⟩
  rw [← (h.value_returned b).2, BitVec.ofNat_toNat, BitVec.setWidth_eq]

end Module.Loaded

theorem Memory.Entered.nested {m rest : Memory} {returnAddress arguments : Word} {f : Frame}
    (h : m.Entered rest returnAddress arguments f) : rest.Nested m f f [] [] := by
  have hroom := f.room
  have hbase := h.base
  refine ⟨h.active, .first, ?_⟩
  intro address hhigh hbelow _
  exact h.elsewhere address (by omega) (by omega)

/--
A call returns to the command behind it, whatever has been called and has returned in
between: the arguments are replaced by the word that was on top of the stack, the pointers
are those of the caller, and no word below the arguments has changed but those that were
written on purpose.
-/
theorem Module.call_returns {modules : List Module} {options : Options} {lines : List String}
    {machine : Machine} (hlink : linkedLines modules options = .ok lines)
    (hload : Machine.load lines = .ok machine) (hclosed : (Program.ofModules modules).Closed)
    {i : Nat} {p : Placed} {name : String} {arguments : Word}
    (hp : (Program.ofModules modules)[i]? = some p) (hcall : p.command = .call name arguments)
    {s : State} (hpc : s.pc = address modules options i)
    (hroom : 16 + arguments.toNat ≤ (s.memory.get 0).toNat) {start c : StackMachine.Config}
    (hstart : (stackMachine modules options machine.image).step ⟨i, s.memory⟩ = .ok start)
    {base : Word} {written : List Word}
    (hinside : (stackMachine modules options machine.image).Inside start [base] written c)
    {q : Placed} (hq : (Program.ofModules modules)[c.index]? = some q)
    (hret : q.command = .ret)
    (hrespects : (stackMachine modules options machine.image).Respects [base] q c.memory) :
    ∃ u t, s.Reaches machine.image.rom u ∧ u.pc = address modules options c.index ∧
      u.memory = c.memory ∧
      u.Reaches machine.image.rom t ∧ t.pc = address modules options (i + 1) ∧
      t.memory.get 0 = s.memory.get 0 - arguments + 1 ∧
      t.memory.get (s.memory.get 0 - arguments) = c.memory.get (c.memory.get 0 - 1) ∧
      (∀ pointer ∈ ([1, 2, 3, 4] : List Word), t.memory.get pointer = s.memory.get pointer) ∧
      ∀ address : Word, 16 ≤ address.toNat →
        address.toNat < (s.memory.get 0 - arguments).toNat →
        address ∉ written → t.memory.get address = s.memory.get address := by
  rcases loaded_of_load hlink hload with ⟨h, -⟩
  have hfollows := h.follows_step hclosed hpc
  rw [hstart] at hfollows
  rcases hfollows with ⟨r, hr, hrpc, hrmemory⟩
  rcases h.reaches_of_inside hclosed hrpc hrmemory hinside with ⟨u, hu, hupc, humemory⟩
  have henter : s.memory.enter (BitVec.ofNat 16 (address modules options (i + 1)))
      arguments = .ok start.memory := by
    rw [StackMachine.step_eq_execute hp, StackMachine.execute, hcall] at hstart
    exact StackMachine.eq_ok_of_goTo hstart
  rcases Memory.entered_of_enter hroom henter with ⟨f, hentered⟩
  rcases hinside.nested rfl h.wellIndexed hentered.nested with ⟨g, outer, hbases, hnested⟩
  -- One base is left, so the frame in use is that of the call.
  cases hnested.pending with
  | inner => cases hbases
  | first =>
      have htop := hrespects.operandCount_le hnested.active
      rw [hret] at htop
      rcases hnested.active.leaveByScratch htop with ⟨rest, hleave, hlanding, hreturned⟩
      rw [← humemory] at hleave
      rcases h.reaches_of_leave hq hret hupc hleave with ⟨t, ht, htpc, rfl⟩
      rw [hlanding, hentered.returnAddress, h.toNat_returnAddress hp hcall] at htpc
      refine ⟨u, t, hr.trans hu, hupc, humemory, ht, htpc, ?_, ?_, ?_, ?_⟩
      · rw [hreturned.stack, hentered.argument]
      · rw [← hentered.argument, hreturned.result]
      · intro pointer hpointer
        simp only [List.mem_cons, List.not_mem_nil, or_false] at hpointer
        rcases hpointer with rfl | rfl | rfl | rfl
        · rw [hreturned.lcl, hentered.lcl]
        · rw [hreturned.arg, hentered.arg]
        · rw [hreturned.this, hentered.this]
        · rw [hreturned.that, hentered.that]
      · intro address hhigh hbelow hwritten
        rw [← hentered.argument] at hbelow
        have hne : address ≠ f.argument := by
          rintro rfl
          exact Nat.lt_irrefl _ hbelow
        rw [hreturned.elsewhere address (by omega) hne,
          hnested.below address (by omega) hbelow hwritten]

/-- A function that gives back what another one gives back, and a call of it. -/
def Module.relayedCall : List Module :=
  [⟨"Main",
    "function Main.main 0\ncall Main.outer 0\nlabel END\ngoto END\nfunction Main.outer 0\n" ++
    "call Main.inner 0\nreturn\nfunction Main.inner 0\npush constant 7\nreturn\n"⟩]

def Module.relayedProgram : Program :=
  [⟨"Main", "", .function "Main.main" 0⟩, ⟨"Main", "Main.main", .call "Main.outer" 0⟩,
    ⟨"Main", "Main.main", .label "END"⟩, ⟨"Main", "Main.main", .goto "END"⟩,
    ⟨"Main", "Main.main", .function "Main.outer" 0⟩,
      ⟨"Main", "Main.outer", .call "Main.inner" 0⟩,
    ⟨"Main", "Main.outer", .ret⟩, ⟨"Main", "Main.outer", .function "Main.inner" 0⟩,
    ⟨"Main", "Main.inner", .push .constant 7⟩, ⟨"Main", "Main.inner", .ret⟩]

theorem Module.program_relayedCall : Program.ofModules relayedCall = relayedProgram := by
  decide +kernel

/-! Calls and returns go through if there is room, and so the runs above exist. -/

namespace StackMachine

variable {vm : StackMachine} {bases : List Word} {p : Placed} {i j : Nat} {m : Memory}

theorem respects_of_idle (hcount : p.command.operandCount = 0)
    (htargets : vm.targets p m = []) :
    vm.Respects bases p m := by
  constructor
  · intro k hk
    omega
  · intro address haddress
    rw [htargets] at haddress
    cases haddress

theorem respects_return (hret : p.command = .ret) (htop : (m.get 1).toNat < (m.get 0).toNat) :
    vm.Respects bases p m := by
  rcases p with ⟨module, scope, command⟩
  cases hret
  constructor
  · intro k hk
    have hzero : k < 1 := hk
    omega
  · intro address haddress
    cases haddress

theorem step_call {name : String} {arguments : Word} (hp : vm.program[i]? = some p)
    (hcommand : p.command = .call name arguments)
    (hentry : vm.program.entryIndex? name = some j)
    (hlow : 16 + arguments.toNat ≤ (m.get 0).toNat) (hroom : (m.get 0).toNat + 5 ≤ 32768) :
    ∃ rest f, vm.step ⟨i, m⟩ = .ok ⟨j, rest⟩ ∧
      m.Entered rest (BitVec.ofNat 16 (vm.address (i + 1))) arguments f := by
  rcases m.exists_enter (BitVec.ofNat 16 (vm.address (i + 1))) arguments (by omega) hroom with
    ⟨rest, henter⟩
  rcases Memory.entered_of_enter hlow henter with ⟨f, hentered⟩
  refine ⟨rest, f, ?_, hentered⟩
  rw [step_eq_execute hp, execute, hcommand]
  show goTo (vm.program.entryIndex? name) (m.enter _ arguments) = _
  rw [hentry, henter]
  rfl

theorem step_return {f : Frame} (hscratch : vm.scratch = true) (hp : vm.program[i]? = some p)
    (hcommand : p.command = .ret) (hactive : m.Active f)
    (htop : f.base.toNat < (m.get 0).toNat) (hindex : vm.indexAt? f.returnAddress = some j) :
    ∃ rest, vm.step ⟨i, m⟩ = .ok ⟨j, rest⟩ ∧ m.Returned rest f := by
  rcases hactive.leaveByScratch htop with ⟨rest, hleave, hlanding, hreturned⟩
  refine ⟨rest, ?_, hreturned⟩
  rw [step_eq_execute hp, execute, hcommand]
  simp only [leave, hscratch, if_true, hleave, Except.map, land, hlanding, hindex]

theorem relayedProgram_inside (hprogram : vm.program = Module.relayedProgram)
    (hscratch : vm.scratch = true)
    (hindex : vm.indexAt? (BitVec.ofNat 16 (vm.address 6)) = some 6)
    (hsp : (m.get 0).toNat = 256) :
    ∃ start c base, vm.step ⟨1, m⟩ = .ok start ∧ vm.Inside start [base] [] c ∧ c.index = 6 ∧
      vm.Respects [base] ⟨"Main", "Main.outer", .ret⟩ c.memory ∧
        c.memory.get (c.memory.get 0 - 1) = 7 := by
  have hat : ∀ i : Nat, vm.program[i]? = Module.relayedProgram[i]? := by
    intro i
    rw [hprogram]
  have hentry : ∀ name, vm.program.entryIndex? name =
      Module.relayedProgram.entryIndex? name := by
    intro name
    rw [hprogram]
  -- The call finds the stack at 256, the inner call at 261, and the inner function pushes its
  -- result at 266.
  rcases step_call (m := m) (hat 1) rfl (hentry "Main.outer")
    (by show 16 + 0 ≤ _; omega) (by omega) with
    ⟨m1, f, hcall, hf⟩
  have hbase1 := hf.base
  have hsp1 := congrArg BitVec.toNat hf.stack
  rcases step_call (m := m1) (hat 5) rfl (hentry "Main.inner")
    (by show 16 + 0 ≤ _; omega) (by omega) with
    ⟨m2, g, hinner, hg⟩
  have hbase2 := hg.base
  have hsp2 := congrArg BitVec.toNat hg.stack
  rcases m2.exists_push 7 (by omega) with ⟨m3, h3⟩
  rcases Memory.pushed_of_push (Memory.stack_ne_zero (by omega)) h3 with ⟨hpushed, hseven⟩
  have hsp3 := hpushed.stack
  have hactive := ((hg.active.steady []).push h3).active hg.active
    (by intro address haddress; cases haddress)
  rcases step_return hscratch (hat 9) rfl hactive (by omega) (hg.returnAddress ▸ hindex) with
    ⟨m4, hreturn, hreturned⟩
  have houter : vm.step ⟨4, m1⟩ = .ok ⟨5, m1⟩ := by
    rw [step_eq_execute (hat 4)]
    rfl
  have hbegin : vm.step ⟨7, m2⟩ = .ok ⟨8, m2⟩ := by
    rw [step_eq_execute (hat 7)]
    rfl
  have hpush : vm.step ⟨8, m2⟩ = .ok ⟨9, m3⟩ := by
    rw [step_eq_execute (hat 8)]
    exact congrArg (goOn 9) h3
  -- The commands from the call to the return, one by one.
  have i5 : vm.Inside ⟨4, m1⟩ [m1.get 1] [] ⟨5, m1⟩ :=
    .step (p := ⟨"Main", "Main.main", .function "Main.outer" 0⟩) .start (hat 4)
      (by intro hret; cases hret)
      (respects_of_idle rfl rfl) houter
  have i7 : vm.Inside ⟨4, m1⟩ [m2.get 1, m1.get 1] [] ⟨7, m2⟩ :=
    .step i5 (hat 5) (by intro hret; cases hret) (respects_of_idle rfl rfl) hinner
  have i8 : vm.Inside ⟨4, m1⟩ [m2.get 1, m1.get 1] [] ⟨8, m2⟩ :=
    .step i7 (hat 7) (by intro hret; cases hret) (respects_of_idle rfl rfl) hbegin
  have i9 : vm.Inside ⟨4, m1⟩ [m2.get 1, m1.get 1] [] ⟨9, m3⟩ :=
    .step i8 (hat 8) (by intro hret; cases hret) (respects_of_idle rfl rfl) hpush
  have htop : (m3.get 1).toNat < (m3.get 0).toNat := by
    rw [hactive.base]
    omega
  have i6 : vm.Inside ⟨4, m1⟩ [m1.get 1] [] ⟨6, m4⟩ :=
    .step i9 (hat 9) (fun _ => Nat.lt_succ_self 1) (respects_return rfl htop) hreturn
  refine ⟨⟨4, m1⟩, ⟨6, m4⟩, m1.get 1, hcall, i6, rfl, respects_return rfl ?_, ?_⟩
  · have hargument : g.argument = m1.get 0 := hg.argument.trans (BitVec.sub_zero _)
    show (m4.get 1).toNat < (m4.get 0).toNat
    rw [hreturned.lcl, hg.lcl, hf.active.base, hreturned.stack, hargument, BitVec.toNat_add]
    show f.base.toNat < ((m1.get 0).toNat + 1) % 65536
    omega
  · show m4.get (m4.get 0 - 1) = 7
    rw [hreturned.stack, BitVec.add_sub_cancel, hreturned.result,
      show m3.get 0 - 1 = _ from hpushed.stack_sub, hseven]

end StackMachine

theorem Module.relayedCall_returns :
    ∃ lines machine t, linkedLines relayedCall ⟨false, false⟩ = .ok lines ∧
      Machine.load lines = .ok machine ∧
      State.Reaches machine.image.rom
        { memory := Memory.blank.set 0 256, pc := address relayedCall ⟨false, false⟩ 1 } t ∧
      t.pc = address relayedCall ⟨false, false⟩ 2 ∧ t.memory.get 0 = 257 ∧
        t.memory.get 256 = 7 := by
  have hclosed : (Program.ofModules relayedCall).Closed := by
    rw [program_relayedCall]
    decide +kernel
  have hloads : loads relayedCall ⟨false, false⟩ = true := by
    decide +kernel
  rcases exists_machine_of_loads hloads with ⟨lines, machine, hlink, hload⟩
  have hindex : (stackMachine relayedCall ⟨false, false⟩ machine.image).indexAt?
      (BitVec.ofNat 16 ((stackMachine relayedCall ⟨false, false⟩ machine.image).address 6)) =
        some 6 := by
    rw [address_stackMachine, indexAt?_stackMachine]
    decide +kernel
  have hprogram : (stackMachine relayedCall ⟨false, false⟩ machine.image).program =
      relayedProgram :=
    (program_stackMachine relayedCall ⟨false, false⟩ machine.image).trans program_relayedCall
  have hsp : (Memory.blank.set 0 256).get 0 = 256 := Memory.get_set_self _ _ (by decide)
  rcases StackMachine.relayedProgram_inside hprogram rfl hindex
    (congrArg BitVec.toNat hsp) with
    ⟨start, c, base, hstart, hinside, hc, hrespects, hseven⟩
  have hat : ∀ i : Nat, (Program.ofModules relayedCall)[i]? = relayedProgram[i]? := by
    intro i
    rw [program_relayedCall]
  have hq : (Program.ofModules relayedCall)[c.index]? = some ⟨"Main", "Main.outer", .ret⟩ := by
    rw [hc]
    exact hat 6
  rcases call_returns
    (s := { memory := Memory.blank.set 0 256, pc := address relayedCall ⟨false, false⟩ 1 })
    hlink hload hclosed (hat 1) rfl (by dsimp only) (by rw [hsp]; decide) hstart
    hinside hq rfl hrespects with
    ⟨u, t, hu, -, -, ht, hpc, hstack, hresult, -, -⟩
  refine ⟨lines, machine, t, hlink, hload, hu.trans ht, hpc, ?_, ?_⟩
  · rw [hstack, hsp]
    rfl
  · rw [hsp] at hresult
    exact hresult.trans hseven

end HackVM
