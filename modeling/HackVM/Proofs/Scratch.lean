import HackVM.Proofs.StackMachine

/-!
# Scratch cells

Popping through a base and returning from a function overwrite cells 13 and 14.  A program
that takes no operand from these cells cannot tell: the stack machine that leaves them alone
goes the same way and has the same memory elsewhere.
-/

namespace HackVM

/-!
## Results that are alike

Both results stop at the same address, or both have a value and the values are related.
Memories are related if they agree but for the scratch cells.
-/

/-- Both results stop at the same address, or both have a value, and the values are related. -/
inductive Alike {α β : Type} (R : α → β → Prop) : Except Word α → Except Word β → Prop where
  | ok {x : α} {y : β} (h : R x y) : Alike R (.ok x) (.ok y)
  | error (address : Word) : Alike R (.error address) (.error address)

theorem Alike.bind {α β γ δ : Type} {R : α → β → Prop} {S : γ → δ → Prop}
    {first : Except Word α} {second : Except Word β} {f : α → Except Word γ}
    {g : β → Except Word δ} (h : Alike R first second)
    (hnext : ∀ x y, second = .ok y → R x y → Alike S (f x) (g y)) :
    Alike S (first.bind f) (second.bind g) := by
  cases h with
  | ok hxy => exact hnext _ _ rfl hxy
  | error address => exact .error address

namespace Memory

def Agrees (m n : Memory) : Prop :=
  ∀ address, address ≠ 13 → address ≠ 14 → m.get address = n.get address

namespace Agrees

variable {m n : Memory}

theorem refl (m : Memory) : m.Agrees m := by
  intro address _ _
  rfl

theorem set (h : m.Agrees n) {address : Word} (value : Word)
    (haddress : address.toNat < 32768) :
    (m.set address value).Agrees (n.set address value) := by
  intro other hthirteen hfourteen
  rw [get_set m other value haddress, get_set n other value haddress,
    h other hthirteen hfourteen]

theorem set_scratch (h : m.Agrees n) {address : Word} (value : Word)
    (haddress : address = 13 ∨ address = 14) :
    (m.set address value).Agrees n := by
  intro other hthirteen hfourteen
  rcases haddress with rfl | rfl
  · rw [get_set m other value (by decide), if_neg hthirteen]
    exact h other hthirteen hfourteen
  · rw [get_set m other value (by decide), if_neg hfourteen]
    exact h other hthirteen hfourteen

theorem load (h : m.Agrees n) {address : Word} (haddress : address ≠ 13 ∧ address ≠ 14) :
    m.load address = n.load address := by
  rw [Memory.load, Memory.load, h address haddress.1 haddress.2]

theorem store (h : m.Agrees n) (address value : Word) :
    Alike Agrees (m.store address value) (n.store address value) := by
  by_cases haddress : address.toNat < 32768
  · rw [store_of_lt m value haddress, store_of_lt n value haddress]
    exact .ok (h.set value haddress)
  · rw [store_of_not_lt m value haddress, store_of_not_lt n value haddress]
    exact .error address

theorem push (h : m.Agrees n) (value : Word) : Alike Agrees (m.push value) (n.push value) := by
  have hsp : m.get 0 = n.get 0 := h 0 (by decide) (by decide)
  rw [Memory.push, Memory.push, hsp]
  exact (h.set _ (by decide)).store _ _

theorem pop (h : m.Agrees n) (htop : n.get 0 - 1 ≠ 13 ∧ n.get 0 - 1 ≠ 14) :
    Alike (fun x y => x.1 = y.1 ∧ x.2.Agrees y.2) m.pop n.pop := by
  have hsp : m.get 0 = n.get 0 := h 0 (by decide) (by decide)
  have hset : (m.set 0 (n.get 0 - 1)).Agrees (n.set 0 (n.get 0 - 1)) := h.set _ (by decide)
  rw [Memory.pop, Memory.pop, hsp, hset.load htop]
  cases (n.set 0 (n.get 0 - 1)).load (n.get 0 - 1) with
  | error address => exact .error address
  | ok value => exact .ok ⟨rfl, hset⟩

theorem modifyTop (h : m.Agrees n) (f : Word → Word)
    (htop : n.get 0 - 1 ≠ 13 ∧ n.get 0 - 1 ≠ 14) :
    Alike Agrees (m.modifyTop f) (n.modifyTop f) := by
  have hsp : m.get 0 = n.get 0 := h 0 (by decide) (by decide)
  rw [Memory.modifyTop, Memory.modifyTop, hsp, h _ htop.1 htop.2]
  exact h.store _ _

theorem combineTop (h : m.Agrees n) (f : Word → Word → Word)
    (htop : n.get 0 - 1 ≠ 13 ∧ n.get 0 - 1 ≠ 14)
    (hnext : n.get 0 - 1 - 1 ≠ 13 ∧ n.get 0 - 1 - 1 ≠ 14) :
    Alike Agrees (m.combineTop f) (n.combineTop f) := by
  refine (h.pop htop).bind ?_
  rintro ⟨x, m⟩ ⟨_, rest⟩ hpop ⟨rfl, hagrees⟩
  have hsp : rest.get 0 = n.get 0 - 1 := by
    rw [show rest = _ from eq_set_of_pop hpop, get_set n 0 _ (by decide), if_pos rfl]
  rw [← hsp] at hnext
  exact hagrees.modifyTop _ hnext

theorem popTo (h : m.Agrees n) (address : Word) (htop : n.get 0 - 1 ≠ 13 ∧ n.get 0 - 1 ≠ 14) :
    Alike Agrees (m.popTo address) (n.popTo address) := by
  refine (h.pop htop).bind ?_
  rintro ⟨x, m⟩ ⟨_, n⟩ _ ⟨rfl, hagrees⟩
  exact hagrees.store _ _

theorem pushZeros (h : m.Agrees n) (count : Nat) :
    Alike Agrees (m.pushZeros count) (n.pushZeros count) := by
  induction count generalizing m n with
  | zero => exact .ok h
  | succ count ih =>
      refine (h.push 0).bind ?_
      intro x y _ hxy
      exact ih hxy

theorem pushCell (h : m.Agrees n) {cell : Word} (hcell : cell ≠ 13 ∧ cell ≠ 14) :
    Alike Agrees (m.push (m.get cell)) (n.push (n.get cell)) := by
  rw [h cell hcell.1 hcell.2]
  exact h.push _

theorem enter (h : m.Agrees n) (returnAddress arguments : Word) :
    Alike Agrees (m.enter returnAddress arguments) (n.enter returnAddress arguments) := by
  refine (h.push returnAddress).bind fun _ _ _ h => ?_
  refine (h.pushCell (by decide)).bind fun _ _ _ h => ?_
  refine (h.pushCell (by decide)).bind fun _ _ _ h => ?_
  refine (h.pushCell (by decide)).bind fun _ _ _ h => ?_
  refine (h.pushCell (by decide)).bind fun x y _ h => ?_
  have hsp : x.get 0 = y.get 0 := h 0 (by decide) (by decide)
  rw [hsp]
  exact .ok ((h.set _ (by decide)).set _ (by decide))

end Agrees

/-!
## Returning

One machine counts cell 13 down from the frame, the other one knows the addresses of the
saved words.
-/

structure Keeps (frame returnAddress : Word) (m n : Memory) : Prop where
  agrees : m.Agrees n
  thirteen : m.get 13 = frame
  fourteen : m.get 14 = returnAddress

namespace Keeps

variable {frame returnAddress : Word} {m n : Memory}

theorem set (h : m.Keeps frame returnAddress n) (address value : Word)
    (hlt : address.toNat < 32768) (haddress : address ≠ 13 ∧ address ≠ 14) :
    (m.set address value).Keeps frame returnAddress (n.set address value) where
  agrees := h.agrees.set value hlt
  thirteen := by
    rw [get_set m 13 value hlt, if_neg haddress.1.symm, h.thirteen]
  fourteen := by
    rw [get_set m 14 value hlt, if_neg haddress.2.symm, h.fourteen]

theorem store (h : m.Keeps frame returnAddress n) {address : Word} (value : Word)
    (haddress : address ≠ 13 ∧ address ≠ 14) :
    Alike (Keeps frame returnAddress) (m.store address value) (n.store address value) := by
  by_cases hlt : address.toNat < 32768
  · rw [store_of_lt m value hlt, store_of_lt n value hlt]
    exact .ok (h.set address value hlt haddress)
  · rw [store_of_not_lt m value hlt, store_of_not_lt n value hlt]
    exact .error address

theorem pop (h : m.Keeps frame returnAddress n) (htop : n.get 0 - 1 ≠ 13 ∧ n.get 0 - 1 ≠ 14) :
    Alike (fun x y => x.1 = y.1 ∧ x.2.Keeps frame returnAddress y.2) m.pop n.pop := by
  have hsp : m.get 0 = n.get 0 := h.agrees 0 (by decide) (by decide)
  have hset : (m.set 0 (n.get 0 - 1)).Keeps frame returnAddress (n.set 0 (n.get 0 - 1)) :=
    h.set 0 _ (by decide) (by decide)
  rw [Memory.pop, Memory.pop, hsp, hset.agrees.load htop]
  cases (n.set 0 (n.get 0 - 1)).load (n.get 0 - 1) with
  | error address => exact .error address
  | ok value => exact .ok ⟨rfl, hset⟩

theorem deliver (h : m.Keeps frame returnAddress n)
    (htop : n.get 0 - 1 ≠ 13 ∧ n.get 0 - 1 ≠ 14) (hargument : n.get 2 ≠ 13 ∧ n.get 2 ≠ 14) :
    Alike (Keeps frame returnAddress) m.deliver n.deliver := by
  refine (h.pop htop).bind ?_
  rintro ⟨value, m⟩ ⟨_, rest⟩ hpop ⟨rfl, h⟩
  have hrest : rest.get 2 = n.get 2 := by
    rw [show rest = _ from eq_set_of_pop hpop, get_set n 2 _ (by decide), if_neg (by decide)]
  show Alike _ ((m.store (m.get 2) value).map _) ((rest.store (rest.get 2) value).map _)
  rw [h.agrees 2 (by decide) (by decide), hrest, map_eq_bind, map_eq_bind]
  refine (h.store value hargument).bind ?_
  intro x y _ h
  rw [h.agrees 2 (by decide) (by decide)]
  exact .ok (h.set 0 _ (by decide) (by decide))

theorem restore (h : m.Keeps frame returnAddress n) {cell next : Word} (hlt : cell.toNat < 13)
    (hcount : frame - 1 = next) (hword : next ≠ 13 ∧ next ≠ 14) :
    Alike (Keeps next returnAddress) (m.restore cell) (n.fetch cell next) := by
  have hkeeps : (m.set 13 next).Keeps next returnAddress n := by
    refine ⟨h.agrees.set_scratch _ (Or.inl rfl), ?_, ?_⟩
    · rw [get_set m 13 _ (by decide), if_pos rfl]
    · rw [get_set m 14 _ (by decide), if_neg (by decide), h.fourteen]
  have hcell : cell ≠ 13 ∧ cell ≠ 14 := by
    constructor
    · rintro rfl
      exact absurd hlt (by decide)
    · rintro rfl
      exact absurd hlt (by decide)
  rw [Memory.restore, h.thirteen, hcount, fetch, fetch, hkeeps.agrees.load hword]
  cases n.load next with
  | error address => exact .error address
  | ok value => exact .ok (hkeeps.set cell value (by omega) hcell)

theorem reinstate (h : m.Keeps frame returnAddress n)
    (hframe : ∀ k ∈ [1, 2, 3, 4], frame - k ≠ 13 ∧ frame - k ≠ 14) :
    Alike (Keeps (frame - 4) returnAddress) m.reinstateByScratch (n.reinstate frame) := by
  refine (h.restore (by decide) rfl (hframe 1 (by decide))).bind ?_
  intro m n _ h
  refine (h.restore (by decide) (by grind) (hframe 2 (by decide))).bind ?_
  intro m n _ h
  refine (h.restore (by decide) (by grind) (hframe 3 (by decide))).bind ?_
  intro m n _ h
  exact h.restore (by decide) (by grind) (hframe 4 (by decide))

end Keeps

theorem Agrees.leave {m n : Memory} (h : m.Agrees n)
    (htop : n.get 0 - 1 ≠ 13 ∧ n.get 0 - 1 ≠ 14) (hargument : n.get 2 ≠ 13 ∧ n.get 2 ≠ 14)
    (hframe : ∀ k ∈ [1, 2, 3, 4, 5], n.get 1 - k ≠ 13 ∧ n.get 1 - k ≠ 14) :
    Alike (fun x y => x.1 = y.1 ∧ x.2.Agrees y.2) (m.leaveByScratch.map fun m =>
      (m.get 14, m)) n.leave := by
  have hlcl : m.get 1 = n.get 1 := h 1 (by decide) (by decide)
  have hstart : (m.set 13 (n.get 1)).Agrees n := h.set_scratch _ (Or.inl rfl)
  rw [leaveByScratch, Memory.leave, hlcl, hstart.load (hframe 5 (by decide))]
  cases n.load (n.get 1 - 5) with
  | error address => exact .error address
  | ok returnAddress =>
      have hkeeps : ((m.set 13 (n.get 1)).set 14 returnAddress).Keeps
          (n.get 1) returnAddress n := by
        refine ⟨hstart.set_scratch _ (Or.inr rfl), ?_, ?_⟩
        · rw [get_set _ 13 _ (by decide), if_neg (by decide),
            get_set m 13 _ (by decide), if_pos rfl]
        · rw [get_set _ 14 _ (by decide), if_pos rfl]
      rw [ok_bind, ok_bind, map_eq_bind, bind_bind]
      refine (hkeeps.deliver htop hargument).bind ?_
      intro x y _ h
      rw [map_eq_bind]
      refine (h.reinstate fun k hk => hframe k (List.mem_append_left [5] hk)).bind ?_
      intro x y _ h
      exact .ok ⟨h.fourteen, h.agrees⟩

end Memory

/-!
## Machines with and without scratch cells

A command that takes no operand from the scratch cells does the same in both machines, and so
does a run of such commands.
-/

namespace StackMachine

/--
The addresses at which a command would notice what the scratch cells hold: those of its
operands, and for a return also the place of its result.
-/
def operands (vm : StackMachine) (p : Placed) (m : Memory) : List Word :=
  match p.command with
  | .operate (.unary _) | .pop _ _ | .ifGoto _ => [m.get 0 - 1]
  | .operate (.binary _) | .operate (.compare _) => [m.get 0 - 1, m.get 0 - 1 - 1]
  | .push segment index => (vm.cell? m p.module index segment).toList
  | .ret => [m.get 0 - 1, m.get 2] ++ [1, 2, 3, 4, 5].map (m.get 1 - ·)
  | .label _ | .goto _ | .function _ _ | .call _ _ => []

def Clear (vm : StackMachine) (c : Config) : Prop :=
  ∀ p, vm.program[c.index]? = some p →
    ∀ address ∈ vm.operands p c.memory, address ≠ 13 ∧ address ≠ 14

/-- Two outcomes that differ at most in the scratch cells. -/
inductive Similar : Except Stop Config → Except Stop Config → Prop where
  | ok (index : Nat) {m n : Memory} (h : m.Agrees n) :
      Similar (.ok ⟨index, m⟩) (.ok ⟨index, n⟩)
  | finished {m n : Memory} (h : m.Agrees n) :
      Similar (.error (.finished m)) (.error (.finished n))
  | fault (address : Word) : Similar (.error (.fault address)) (.error (.fault address))
  | astray (address : Word) {m n : Memory} (h : m.Agrees n) :
      Similar (.error (.astray address m)) (.error (.astray address n))
  | undefined : Similar (.error .undefined) (.error .undefined)

variable {vm : StackMachine} {m n : Memory}

theorem similar_goOn (index : Nat) {first second : Except Word Memory}
    (h : Alike Memory.Agrees first second) :
    Similar (goOn index first) (goOn index second) := by
  cases h with
  | ok h => exact .ok index h
  | error address => exact .fault address

theorem similar_goTo (target : Option Nat) {first second : Except Word Memory}
    (h : Alike Memory.Agrees first second) :
    Similar (goTo target first) (goTo target second) := by
  cases h with
  | ok h =>
      cases target with
      | some index => exact .ok index h
      | none => exact .undefined
  | error address => exact .fault address

theorem similar_goIf (index : Nat) (target : Option Nat)
    {first second : Except Word (Word × Memory)}
    (h : Alike (fun x y => x.1 = y.1 ∧ x.2.Agrees y.2) first second) :
    Similar (goIf index target first) (goIf index target second) := by
  rcases h with ⟨⟨hvalue, h⟩⟩ | address
  · unfold goIf
    dsimp only
    rw [hvalue]
    split
    · exact .ok index h
    · exact similar_goTo target (.ok h)
  · exact .fault address

theorem cell?_agrees (h : m.Agrees n) (module : String) (index : Word) (segment : Segment) :
    vm.cell? m module index segment = vm.cell? n module index segment := by
  have hbases : m.get 1 = n.get 1 ∧ m.get 2 = n.get 2 ∧
      m.get 3 = n.get 3 ∧ m.get 4 = n.get 4 :=
    ⟨h 1 (by decide) (by decide), h 2 (by decide) (by decide), h 3 (by decide) (by decide),
      h 4 (by decide) (by decide)⟩
  simp only [cell?, hbases]

theorem alike_push (h : m.Agrees n) {module : String} {segment : Segment} {index : Word}
    (hcell : ∀ address ∈ (vm.cell? n module index segment).toList,
      address ≠ 13 ∧ address ≠ 14) :
    Alike Memory.Agrees (vm.push m module segment index)
      (vm.plain.push n module segment index) := by
  show Alike _ _ (vm.push n module segment index)
  unfold push
  rw [cell?_agrees h]
  cases hfound : vm.cell? n module index segment with
  | none => exact h.push index
  | some address =>
      rw [hfound] at hcell
      dsimp only
      rw [h.load (hcell address (List.mem_singleton.mpr rfl))]
      cases n.load address with
      | ok value => exact h.push value
      | error address => exact .error address

theorem alike_pop (h : m.Agrees n) (module : String) (segment : Segment) (index : Word)
    (htop : n.get 0 - 1 ≠ 13 ∧ n.get 0 - 1 ≠ 14) :
    Alike Memory.Agrees (vm.pop m module segment index)
      (vm.plain.pop n module segment index) := by
  have hplain : vm.plain.cell? n module index segment = vm.cell? n module index segment := rfl
  rw [pop, pop, cell?_agrees h, hplain]
  cases vm.cell? n module index segment with
  | none => exact .ok h
  | some address =>
      show Alike _ (if vm.scratch && segment.hasBase then
        _ else m.popTo address) (n.popTo address)
      split
      · exact (h.set_scratch address (Or.inl rfl)).popTo address htop
      · exact h.popTo address htop

theorem similar_land {first second : Except Word (Word × Memory)}
    (h : Alike (fun x y => x.1 = y.1 ∧ x.2.Agrees y.2) first second) :
    Similar (vm.land first) (vm.plain.land second) := by
  show Similar _ (vm.land second)
  rcases h with ⟨⟨haddress, h⟩⟩ | address
  · unfold land
    dsimp only
    rw [haddress]
    cases vm.indexAt? _ with
    | some index => exact .ok index h
    | none => exact .astray _ h
  · exact .fault address

theorem similar_leave (hscratch : vm.scratch = true) (h : m.Agrees n)
    (hclear : ∀ address ∈ [n.get 0 - 1, n.get 2] ++ [1, 2, 3, 4, 5].map (n.get 1 - ·),
      address ≠ 13 ∧ address ≠ 14) :
    Similar (vm.leave m) (vm.plain.leave n) := by
  rw [leave, if_pos hscratch]
  apply similar_land
  apply h.leave
  · exact hclear _ (by simp)
  · exact hclear _ (by simp)
  · intro k hk
    exact hclear _ (List.mem_append_right _ (List.mem_map_of_mem hk))

theorem similar_execute (hscratch : vm.scratch = true) (h : m.Agrees n) (index : Nat)
    {p : Placed} (hclear : ∀ address ∈ vm.operands p n, address ≠ 13 ∧ address ≠ 14) :
    Similar (vm.execute index p m) (vm.plain.execute index p n) := by
  rcases p with ⟨module, scope, command⟩
  cases command with
  | operate op =>
      cases op with
      | unary op =>
          exact similar_goOn _
            (h.modifyTop (fun x => op.apply x) (hclear _ (List.mem_cons_self ..)))
      | binary op | compare op =>
          exact similar_goOn _
            (h.combineTop (fun x y => op.apply x y) (hclear _ (List.mem_cons_self ..))
            (hclear _ (List.mem_cons_of_mem _ (List.mem_cons_self ..))))
  | push segment i => exact similar_goOn _ (alike_push h hclear)
  | pop segment i =>
      exact similar_goOn _ (alike_pop h module segment i (hclear _ (List.mem_cons_self ..)))
  | label name => exact .ok _ h
  | goto name => exact similar_goTo _ (.ok h)
  | ifGoto name => exact similar_goIf _ _ (h.pop (hclear _ (List.mem_cons_self ..)))
  | function name locals => exact similar_goOn _ (h.pushZeros _)
  | call name arguments => exact similar_goTo _ (h.enter _ _)
  | ret => exact similar_leave hscratch h hclear

theorem similar_step (hscratch : vm.scratch = true) (h : m.Agrees n) {index : Nat}
    (hclear : vm.Clear ⟨index, n⟩) :
    Similar (vm.step ⟨index, m⟩) (vm.plain.step ⟨index, n⟩) := by
  have hprogram : vm.plain.program = vm.program := rfl
  unfold step
  rw [hprogram]
  cases hp : vm.program[index]? with
  | none => exact .finished h
  | some p => exact similar_execute hscratch h index (hclear p hp)

/-- No command of the given number of steps takes an operand from the scratch cells. -/
def Undisturbed (vm : StackMachine) (steps : Nat) (c : Config) : Prop :=
  ∀ k < steps, ∀ d, vm.plain.run k c = .ok d → vm.Clear d

theorem similar_run (hscratch : vm.scratch = true) (h : m.Agrees n) (steps : Nat) {index : Nat}
    (hclear : vm.Undisturbed steps ⟨index, n⟩) :
    Similar (vm.run steps ⟨index, m⟩) (vm.plain.run steps ⟨index, n⟩) := by
  induction steps generalizing m n index with
  | zero => exact .ok index h
  | succ steps ih =>
      have hstep := similar_step hscratch h (hclear 0 (Nat.succ_pos steps) _ rfl)
      rw [run, run]
      generalize vm.step ⟨index, m⟩ = first at hstep ⊢
      generalize hsecond : vm.plain.step ⟨index, n⟩ = second at hstep ⊢
      cases hstep with
      | ok next hnext =>
          refine ih hnext ?_
          intro k hk d hd
          apply hclear (k + 1) (Nat.succ_lt_succ hk) d
          rw [run, hsecond]
          exact hd
      | finished hend => exact .finished hend
      | fault address => exact .fault address
      | astray address hend => exact .astray address hend
      | undefined => exact .undefined

end StackMachine
end HackVM
