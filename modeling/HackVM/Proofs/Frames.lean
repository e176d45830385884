import HackVM.Proofs.Scratch

/-!
# Frames

A call leaves five words on the stack from which the return restores the caller.  Here the
effect of both on memory is told in full, for stacks that lie above the sixteen lowest cells.
-/

namespace HackVM

/--
The frame of a call: where its locals and its arguments begin, and what was saved.  The saved
words lie directly below the base, and the arguments below them.
-/
structure Frame where
  base : Word
  argument : Word
  returnAddress : Word
  lcl : Word
  arg : Word
  this : Word
  that : Word
  above_registers : 16 ≤ argument.toNat
  room : argument.toNat + 5 ≤ base.toNat
  base_le : base.toNat ≤ 32768

theorem toNat_sub_of_le {x y : Word} {k : Nat} (hk : y.toNat ≤ k) (hx : k ≤ x.toNat) :
    (x - y).toNat = x.toNat - y.toNat := by
  apply BitVec.toNat_sub_of_le
  rw [BitVec.le_def]
  omega

namespace Frame

def pointers (f : Frame) : List (Word × Word) :=
  [(f.base - 1, f.that), (f.base - 2, f.this), (f.base - 3, f.arg), (f.base - 4, f.lcl)]

theorem toNat_base_sub (f : Frame) {k : Word} (hk : k.toNat ≤ 5) :
    (f.base - k).toNat = f.base.toNat - k.toNat := by
  have hroom := f.room
  exact toNat_sub_of_le (Nat.le_refl _) (by omega)

theorem le_base (f : Frame) : 21 ≤ f.base.toNat := by
  have hroom := f.room
  have habove := f.above_registers
  omega

def IsSaved (f : Frame) (address : Word) : Prop :=
  f.base.toNat ≤ address.toNat + 5 ∧ address.toNat < f.base.toNat

theorem le_of_isSaved (f : Frame) {address : Word} (h : f.IsSaved address) :
    16 ≤ address.toNat := by
  have hbase := f.le_base
  have hle := h.1
  omega

theorem toNat_of_mem_pointers (f : Frame) {word : Word × Word} (hword : word ∈ f.pointers) :
    f.base.toNat - 5 < word.1.toNat ∧ word.1.toNat < f.base.toNat := by
  have hroom := f.room
  simp only [pointers, List.mem_cons, List.not_mem_nil, or_false] at hword
  rcases hword with rfl | rfl | rfl | rfl <;>
    · rw [f.toNat_base_sub (by decide)]
      simp
      omega

end Frame

namespace Memory

theorem get_set_of_ne (m : Memory) {address other : Word} (value : Word)
    (hlt : address.toNat < 32768) (hne : other.toNat ≠ address.toNat) :
    (m.set address value).get other = m.get other := by
  rw [get_set m other value hlt, if_neg]
  rintro rfl
  exact hne rfl

theorem get_set_low (m : Memory) {cell address : Word} (value : Word) (hcell : cell.toNat < 15)
    (haddress : 15 ≤ address.toNat) : (m.set cell value).get address = m.get address :=
  get_set_of_ne m value (by omega) (by omega)

theorem get_set_self (m : Memory) {address : Word} (value : Word)
    (hlt : address.toNat < 32768) :
    (m.set address value).get address = value := by
  rw [get_set m address value hlt, if_pos rfl]

def HoldsPointers (m : Memory) (f : Frame) : Prop :=
  ∀ word ∈ f.pointers, m.get word.1 = word.2

/-!
## Returning

A return from a frame in use cannot fail.  It brings back the pointers that were saved, and
leaves all other cells alone but the one for the result.
-/

section Return

variable {m : Memory} {f : Frame}

theorem HoldsPointers.set (h : m.HoldsPointers f) (address value : Word)
    (hlt : address.toNat < 32768)
    (haddress : address.toNat ≤ f.base.toNat - 5 ∨ f.base.toNat ≤ address.toNat) :
    (m.set address value).HoldsPointers f := by
  intro word hword
  have hbounds := f.toNat_of_mem_pointers hword
  rw [get_set_of_ne m value hlt (by omega)]
  exact h word hword

theorem HoldsPointers.fetch (h : m.HoldsPointers f) (cell : Word) {word : Word × Word}
    (hword : word ∈ f.pointers) :
    m.fetch cell word.1 = .ok (m.set cell word.2) := by
  have hbounds := f.toNat_of_mem_pointers hword
  have hbase := f.base_le
  rw [Memory.fetch, load_of_lt m (by omega), h word hword]
  rfl

theorem HoldsPointers.reinstate (h : m.HoldsPointers f) :
    m.reinstate f.base = .ok ((((m.set 4 f.that).set 3 f.this).set 2 f.arg).set 1 f.lcl) := by
  have hbase := f.le_base
  have hlow : ∀ k : Nat, k < 5 → k ≤ f.base.toNat - 5 ∨ f.base.toNat ≤ k := by
    intro k hk
    omega
  have hfour := h.set 4 f.that (by decide) (hlow 4 (by decide))
  have hthree := hfour.set 3 f.this (by decide) (hlow 3 (by decide))
  have htwo := hthree.set 2 f.arg (by decide) (hlow 2 (by decide))
  have hthat : m.fetch 4 (f.base - 1) = .ok (m.set 4 f.that) :=
    h.fetch 4 (show (f.base - 1, f.that) ∈ f.pointers by simp [Frame.pointers])
  have hthis : (m.set 4 f.that).fetch 3 (f.base - 2) = .ok ((m.set 4 f.that).set 3 f.this) :=
    hfour.fetch 3 (show (f.base - 2, f.this) ∈ f.pointers by simp [Frame.pointers])
  have harg : ((m.set 4 f.that).set 3 f.this).fetch 2 (f.base - 3) =
      .ok (((m.set 4 f.that).set 3 f.this).set 2 f.arg) :=
    hthree.fetch 2 (show (f.base - 3, f.arg) ∈ f.pointers by simp [Frame.pointers])
  have hlcl : (((m.set 4 f.that).set 3 f.this).set 2 f.arg).fetch 1 (f.base - 4) =
      .ok ((((m.set 4 f.that).set 3 f.this).set 2 f.arg).set 1 f.lcl) :=
    htwo.fetch 1 (show (f.base - 4, f.lcl) ∈ f.pointers by simp [Frame.pointers])
  simp only [Memory.reinstate, bind_def, hthat, hthis, harg, hlcl, ok_bind]

theorem pop_eq (hsp : 17 ≤ (m.get 0).toNat ∧ (m.get 0).toNat ≤ 32768) :
    m.pop = .ok (m.get (m.get 0 - 1), m.set 0 (m.get 0 - 1)) := by
  have htop : (m.get 0 - 1).toNat = (m.get 0).toNat - 1 := toNat_sub_of_le (by decide) hsp.1
  have hne : (m.get 0 - 1).toNat ≠ 0 := by
    omega
  rw [Memory.pop, load_of_lt _ (by omega), get_set_of_ne m _ (by decide) hne]
  rfl

theorem deliver_eq (hsp : 17 ≤ (m.get 0).toNat ∧ (m.get 0).toNat ≤ 32768)
    (hargument : 16 ≤ (m.get 2).toNat ∧ (m.get 2).toNat < 32768) :
    m.deliver = .ok (((m.set 0 (m.get 0 - 1)).set (m.get 2) (m.get (m.get 0 - 1))).set 0
      (m.get 2 + 1)) := by
  have htwo : (m.set 0 (m.get 0 - 1)).get 2 = m.get 2 :=
    get_set_of_ne m _ (by decide) (by decide)
  have hkept : (2 : Word).toNat ≠ (m.get 2).toNat := by
    show 2 ≠ _
    omega
  rw [deliver, pop_eq hsp, ok_bind, htwo, store_of_lt _ _ hargument.2, map_eq_bind, ok_bind,
    get_set_of_ne _ _ hargument.2 hkept, htwo]

end Return

structure Saves (m : Memory) (f : Frame) : Prop where
  pointers : m.HoldsPointers f
  returnAddress : m.get (f.base - 5) = f.returnAddress

/--
A frame in use: the pointers and the stack are where the frame says, and the saved words are
untouched.
-/
structure Active (m : Memory) (f : Frame) : Prop where
  base : m.get 1 = f.base
  argument : m.get 2 = f.argument
  saves : m.Saves f
  le_stack : f.base.toNat ≤ (m.get 0).toNat
  stack_le : (m.get 0).toNat ≤ 32768

theorem Saves.congr {m other : Memory} {f : Frame} (h : m.Saves f)
    (hsame : ∀ address, f.IsSaved address → other.get address = m.get address) :
    other.Saves f := by
  have hroom := f.room
  constructor
  case pointers =>
    intro word hword
    have hbounds := f.toNat_of_mem_pointers hword
    rw [hsame word.1 ⟨by omega, by omega⟩]
    exact h.pointers word hword
  case returnAddress =>
    have haddress : (f.base - 5).toNat = f.base.toNat - 5 := f.toNat_base_sub (by decide)
    rw [hsame _ ⟨by omega, by omega⟩]
    exact h.returnAddress

/-- What a return from a frame leaves behind. -/
structure Returned (m rest : Memory) (f : Frame) : Prop where
  stack : rest.get 0 = f.argument + 1
  result : rest.get f.argument = m.get (m.get 0 - 1)
  lcl : rest.get 1 = f.lcl
  arg : rest.get 2 = f.arg
  this : rest.get 3 = f.this
  that : rest.get 4 = f.that
  elsewhere : ∀ address : Word, 15 ≤ address.toNat → address ≠ f.argument →
    rest.get address = m.get address

def afterReturn (m : Memory) (f : Frame) : Memory :=
  let rest := ((m.set 0 (m.get 0 - 1)).set f.argument (m.get (m.get 0 - 1))).set 0
    (f.argument + 1)
  (((rest.set 4 f.that).set 3 f.this).set 2 f.arg).set 1 f.lcl

theorem get_afterReturn (m : Memory) (f : Frame) {address : Word}
    (haddress : 15 ≤ address.toNat) :
    (m.afterReturn f).get address =
      ((m.set 0 (m.get 0 - 1)).set f.argument (m.get (m.get 0 - 1))).get address := by
  rw [afterReturn, get_set_low _ _ (by decide) haddress, get_set_low _ _ (by decide) haddress,
    get_set_low _ _ (by decide) haddress, get_set_low _ _ (by decide) haddress,
      get_set_low _ _ (by decide) haddress]

theorem returned_afterReturn (m : Memory) (f : Frame) : m.Returned (m.afterReturn f) f := by
  have habove := f.above_registers
  have hlt : f.argument.toNat < 32768 := by
    have hroom := f.room
    have hbase := f.base_le
    omega
  constructor
  case result => rw [get_afterReturn m f (by omega), get_set_self _ _ hlt]
  case elsewhere =>
    intro address haddress hother
    rw [get_afterReturn m f haddress, get_set _ _ _ hlt, if_neg hother,
      get_set_low _ _ (by decide) haddress]
  all_goals simp [afterReturn, get_set]

theorem Active.leave {m : Memory} {f : Frame} (h : m.Active f)
    (htop : f.base.toNat < (m.get 0).toNat) :
    m.leave = .ok (f.returnAddress, m.afterReturn f) := by
  have hroom := f.room
  have habove := f.above_registers
  have hbase := f.base_le
  have hload : m.load (m.get 1 - 5) = .ok f.returnAddress := by
    rw [h.base, load_of_lt, h.saves.returnAddress]
    rw [f.toNat_base_sub (by decide)]
    show f.base.toNat - 5 < 32768
    omega
  have hargument : 16 ≤ (m.get 2).toNat ∧ (m.get 2).toNat < 32768 := by
    rw [h.argument]
    omega
  have hdeliver := deliver_eq ⟨by omega, h.stack_le⟩ hargument
  rw [h.argument] at hdeliver
  have hpointers : (((m.set 0 (m.get 0 - 1)).set f.argument (m.get (m.get 0 - 1))).set 0
      (f.argument + 1)).HoldsPointers f := by
    refine ((h.saves.pointers.set _ _ (by decide) (Or.inl ?_)).set _ _ (by omega)
      (Or.inl ?_)).set _ _ (by decide) (Or.inl ?_)
    · exact Nat.zero_le _
    · omega
    · exact Nat.zero_le _
  rw [Memory.leave, hload, ok_bind, hdeliver, ok_bind, h.base, hpointers.reinstate]
  rfl

theorem Returned.of_agrees {m rest other : Memory} {f : Frame} (h : m.Returned rest f)
    (hagrees : other.Agrees rest) :
    m.Returned other f := by
  have habove := f.above_registers
  have hhigh : ∀ address : Word, 15 ≤ address.toNat →
      other.get address = rest.get address := by
    intro address haddress
    apply hagrees <;>
      · rintro rfl
        exact absurd haddress (by decide)
  constructor
  case stack => rw [hagrees 0 (by decide) (by decide), h.stack]
  case result => rw [hhigh f.argument (by omega), h.result]
  case lcl => rw [hagrees 1 (by decide) (by decide), h.lcl]
  case arg => rw [hagrees 2 (by decide) (by decide), h.arg]
  case this => rw [hagrees 3 (by decide) (by decide), h.this]
  case that => rw [hagrees 4 (by decide) (by decide), h.that]
  case elsewhere =>
    intro address haddress hother
    rw [hhigh address haddress, h.elsewhere address haddress hother]

theorem Active.leaveByScratch {m : Memory} {f : Frame} (h : m.Active f)
    (htop : f.base.toNat < (m.get 0).toNat) :
    ∃ rest, m.leaveByScratch = .ok rest ∧
      rest.get 14 = f.returnAddress ∧ m.Returned rest f := by
  have hroom := f.room
  have habove := f.above_registers
  have hclear : ∀ address : Word, 15 ≤ address.toNat → address ≠ 13 ∧ address ≠ 14 := by
    intro address haddress
    constructor <;>
      · rintro rfl
        exact absurd haddress (by decide)
  have hsp : (m.get 0 - 1).toNat = (m.get 0).toNat - 1 :=
    toNat_sub_of_le (Nat.le_refl 1) (by omega)
  have hframe : ∀ k ∈ ([1, 2, 3, 4, 5] : List Word), m.get 1 - k ≠ 13 ∧ m.get 1 - k ≠ 14 := by
    intro k hk
    have hk5 : k.toNat ≤ 5 := by
      simp only [List.mem_cons, List.not_mem_nil, or_false] at hk
      rcases hk with rfl | rfl | rfl | rfl | rfl <;> decide
    apply hclear
    rw [h.base, f.toNat_base_sub hk5]
    omega
  have halike := (Agrees.refl m).leave (hclear _ (by omega))
    (hclear _ (by rw [h.argument]; omega)) hframe
  rw [h.leave htop] at halike
  cases hleave : m.leaveByScratch with
  | error address =>
      rw [hleave] at halike
      cases halike
  | ok rest =>
      rw [hleave] at halike
      cases halike with
      | ok hsame => exact ⟨rest, rfl, hsame.1, (m.returned_afterReturn f).of_agrees hsame.2⟩

/-!
## Pushing and calling

The place of a pushed word is counted from the end of the stack.  A call succeeds if there is
room on the stack.
-/

theorem stack_ne_zero {m : Memory} (h : 16 ≤ (m.get 0).toNat) : m.get 0 ≠ 0 := by
  intro hzero
  rw [hzero] at h
  exact absurd h (by decide)

/-- The second memory comes from the first one by pushing a number of words. -/
structure Pushed (m rest : Memory) (count : Nat) : Prop where
  stack : (rest.get 0).toNat = (m.get 0).toNat + count
  fits : (m.get 0).toNat + count ≤ 32768
  elsewhere : ∀ address : Word, address ≠ 0 →
    address.toNat < (m.get 0).toNat ∨ (m.get 0).toNat + count ≤ address.toNat →
      rest.get address = m.get address

theorem pushed_of_push {m rest : Memory} {value : Word} (hsp : m.get 0 ≠ 0)
    (h : m.push value = .ok rest) :
    m.Pushed rest 1 ∧ rest.get (m.get 0) = value := by
  unfold push at h
  by_cases hlt : (m.get 0).toNat < 32768
  · rw [store_of_lt _ _ hlt] at h
    cases h
    refine ⟨⟨?_, by omega, ?_⟩, get_set_self _ _ hlt⟩
    · rw [get_set _ _ _ hlt, if_neg hsp.symm, get_set_self m _ (by decide), BitVec.toNat_add]
      show ((m.get 0).toNat + 1) % 65536 = _
      omega
    · intro address hzero haddress
      have hne : address ≠ m.get 0 := by
        rintro rfl
        omega
      rw [get_set _ _ _ hlt, if_neg hne, get_set _ _ _ (by decide), if_neg hzero]
  · rw [store_of_not_lt _ _ hlt] at h
    cases h

theorem Pushed.trans {m middle rest : Memory} {first second : Nat}
    (hfirst : m.Pushed middle first) (hsecond : middle.Pushed rest second) :
    m.Pushed rest (first + second) := by
  have hstack := hfirst.stack
  have hfits := hsecond.fits
  refine ⟨?_, ?_, ?_⟩
  · rw [hsecond.stack, hstack]
    omega
  · omega
  · intro address hzero haddress
    rw [hsecond.elsewhere address hzero (by omega), hfirst.elsewhere address hzero (by omega)]

theorem Pushed.ne_zero {m rest : Memory} {count : Nat} (h : m.Pushed rest count)
    (hsp : m.get 0 ≠ 0) :
    rest.get 0 ≠ 0 := by
  have hstack := h.stack
  intro hzero
  apply hsp
  apply BitVec.eq_of_toNat_eq
  rw [hzero] at hstack
  change 0 = _ at hstack
  show _ = 0
  omega

theorem Pushed.stack_sub {m rest : Memory} {count : Nat} (h : m.Pushed rest count) :
    rest.get 0 - BitVec.ofNat 16 count = m.get 0 := by
  have hstack := h.stack
  have hfits := h.fits
  have hcount : (BitVec.ofNat 16 count).toNat = count := by
    rw [BitVec.toNat_ofNat]
    omega
  apply BitVec.eq_of_toNat_eq
  rw [toNat_sub_of_le (Nat.le_of_eq hcount) (by omega)]
  omega

theorem Pushed.get_of_push {m middle rest : Memory} {value : Word} {count : Nat}
    (hsp : m.get 0 ≠ 0) (hpush : m.push value = .ok middle) (h : middle.Pushed rest count) :
    rest.get (m.get 0) = value := by
  rcases pushed_of_push hsp hpush with ⟨hfirst, hvalue⟩
  have hstack := hfirst.stack
  rw [h.elsewhere _ hsp (by omega), hvalue]

/-- What a call leaves behind. -/
structure Entered (m rest : Memory) (returnAddress arguments : Word) (f : Frame) : Prop where
  active : rest.Active f
  stack : rest.get 0 = f.base
  base : f.base.toNat = (m.get 0).toNat + 5
  argument : f.argument = m.get 0 - arguments
  returnAddress : f.returnAddress = returnAddress
  lcl : f.lcl = m.get 1
  arg : f.arg = m.get 2
  this : f.this = m.get 3
  that : f.that = m.get 4
  elsewhere : ∀ address : Word, 3 ≤ address.toNat → address.toNat < (m.get 0).toNat →
    rest.get address = m.get address

theorem pushed_of_enter {m rest : Memory} {returnAddress arguments : Word}
    (hsp : 16 ≤ (m.get 0).toNat) (h : m.enter returnAddress arguments = .ok rest) :
    ∃ full, m.Pushed full 5 ∧
      rest = (full.set 1 (full.get 0)).set 2 (full.get 0 - (arguments + 5)) ∧
      full.get (full.get 0 - 5) = returnAddress ∧ full.get (full.get 0 - 4) = m.get 1 ∧
      full.get (full.get 0 - 3) = m.get 2 ∧ full.get (full.get 0 - 2) = m.get 3 ∧
      full.get (full.get 0 - 1) = m.get 4 := by
  rcases exists_of_bind_eq_ok h with ⟨m1, h1, h⟩
  rcases exists_of_bind_eq_ok h with ⟨m2, h2, h⟩
  rcases exists_of_bind_eq_ok h with ⟨m3, h3, h⟩
  rcases exists_of_bind_eq_ok h with ⟨m4, h4, h⟩
  rcases exists_of_bind_eq_ok h with ⟨m5, h5, h⟩
  cases h
  have hzero := stack_ne_zero hsp
  have p1 := (pushed_of_push hzero h1).1
  have z1 := p1.ne_zero hzero
  have p2 := (pushed_of_push z1 h2).1
  have z2 := p2.ne_zero z1
  have p3 := (pushed_of_push z2 h3).1
  have z3 := p3.ne_zero z2
  have p4 := (pushed_of_push z3 h4).1
  have z4 := p4.ne_zero z3
  have p5 := (pushed_of_push z4 h5).1
  -- The cells 1 to 4 lie below the stack, so each push finds them as they were.
  have hlow : ∀ {other : Memory} {count : Nat} {cell : Word}, m.Pushed other count →
    cell ≠ 0 → cell.toNat < 16 →
      other.get cell = m.get cell := by
    intro other count cell hpushed hne hcell
    exact hpushed.elsewhere cell hne (Or.inl (by omega))
  have hone : m1.get 1 = m.get 1 := hlow p1 (by decide) (by decide)
  have htwo : m2.get 2 = m.get 2 := hlow (p1.trans p2) (by decide) (by decide)
  have hthree : m3.get 3 = m.get 3 := hlow ((p1.trans p2).trans p3) (by decide) (by decide)
  have hfour : m4.get 4 = m.get 4 :=
    hlow (((p1.trans p2).trans p3).trans p4) (by decide) (by decide)
  have q4 : m3.Pushed m5 2 := p4.trans p5
  have q3 : m2.Pushed m5 3 := p3.trans q4
  have q2 : m1.Pushed m5 4 := p2.trans q3
  have q1 : m.Pushed m5 5 := p1.trans q2
  refine ⟨m5, q1, rfl, ?_, ?_, ?_, ?_, ?_⟩
  · rw [show m5.get 0 - 5 = _ from q1.stack_sub, q2.get_of_push hzero h1]
  · rw [show m5.get 0 - 4 = _ from q2.stack_sub, q3.get_of_push z1 h2, hone]
  · rw [show m5.get 0 - 3 = _ from q3.stack_sub, q4.get_of_push z2 h3, htwo]
  · rw [show m5.get 0 - 2 = _ from q4.stack_sub, p5.get_of_push z3 h4, hthree]
  · rw [show m5.get 0 - 1 = _ from p5.stack_sub, (pushed_of_push z4 h5).2, hfour]

theorem entered_of_enter {m rest : Memory} {returnAddress arguments : Word}
    (hroom : 16 + arguments.toNat ≤ (m.get 0).toNat)
    (h : m.enter returnAddress arguments = .ok rest) :
    ∃ f, m.Entered rest returnAddress arguments f := by
  rcases pushed_of_enter (by omega) h with
    ⟨full, hpushed, rfl, hreturn, hlcl, harg, hthis, hthat⟩
  have hstack := hpushed.stack
  have hfits := hpushed.fits
  have hargument : full.get 0 - (arguments + 5) = m.get 0 - arguments := by
    rw [← hpushed.stack_sub]
    grind
  have htoNat : (m.get 0 - arguments).toNat = (m.get 0).toNat - arguments.toNat :=
    toNat_sub_of_le (Nat.le_refl _) (by omega)
  -- The words above the sixteen lowest cells are those of the full stack.
  have hhigh : ∀ address : Word, 15 ≤ address.toNat →
      ((full.set 1 (full.get 0)).set 2 (full.get 0 - (arguments + 5))).get address =
        full.get address := by
    intro address haddress
    rw [get_set_low _ _ (by decide) haddress, get_set_low _ _ (by decide) haddress]
  have hsp : ((full.set 1 (full.get 0)).set 2 (full.get 0 - (arguments + 5))).get 0 =
      full.get 0 := by
    rw [get_set_of_ne _ _ (by decide) (by decide), get_set_of_ne _ _ (by decide) (by decide)]
  have hword : ∀ k : Word, k.toNat ≤ 5 → 15 ≤ (full.get 0 - k).toNat := by
    intro k hk
    rw [toNat_sub_of_le hk (by omega)]
    omega
  refine ⟨⟨full.get 0, m.get 0 - arguments, returnAddress, m.get 1, m.get 2, m.get 3,
    m.get 4, by omega, by omega, by omega⟩, ?_⟩
  constructor
  case active =>
    constructor
    case base => rw [get_set_of_ne _ _ (by decide) (by decide), get_set_self _ _ (by decide)]
    case argument => rw [get_set_self _ _ (by decide), hargument]
    case saves =>
      refine ⟨?_, (hhigh _ (hword 5 (by decide))).trans hreturn⟩
      intro word hmem
      simp only [Frame.pointers, List.mem_cons, List.not_mem_nil, or_false] at hmem
      rcases hmem with rfl | rfl | rfl | rfl
      · exact (hhigh _ (hword 1 (by decide))).trans hthat
      · exact (hhigh _ (hword 2 (by decide))).trans hthis
      · exact (hhigh _ (hword 3 (by decide))).trans harg
      · exact (hhigh _ (hword 4 (by decide))).trans hlcl
    case le_stack => exact Nat.le_of_eq (congrArg BitVec.toNat hsp).symm
    case stack_le =>
      rw [hsp]
      omega
  case stack => exact hsp
  case base => exact hstack
  case elsewhere =>
    intro address hlow haddress
    have hne : address ≠ 0 := by
      rintro rfl
      exact absurd hlow (by decide)
    rw [get_set_of_ne _ _ (by decide) (by show address.toNat ≠ 2; omega),
      get_set_of_ne _ _ (by decide) (by show address.toNat ≠ 1; omega),
      hpushed.elsewhere address hne (Or.inl haddress)]
  all_goals rfl

theorem exists_push (m : Memory) (value : Word) (hlt : (m.get 0).toNat < 32768) :
    ∃ rest, m.push value = .ok rest :=
  ⟨_, store_of_lt _ value hlt⟩

theorem exists_enter (m : Memory) (returnAddress arguments : Word)
    (hlow : 16 ≤ (m.get 0).toNat) (hroom : (m.get 0).toNat + 5 ≤ 32768) :
    ∃ rest, m.enter returnAddress arguments = .ok rest := by
  have hsp := stack_ne_zero hlow
  rcases m.exists_push returnAddress (by omega) with ⟨m1, h1⟩
  have p1 := (pushed_of_push hsp h1).1
  have s1 := p1.stack
  rcases m1.exists_push (m1.get 1) (by omega) with ⟨m2, h2⟩
  have p2 := p1.trans (pushed_of_push (p1.ne_zero hsp) h2).1
  have s2 := p2.stack
  rcases m2.exists_push (m2.get 2) (by omega) with ⟨m3, h3⟩
  have p3 := p2.trans (pushed_of_push (p2.ne_zero hsp) h3).1
  have s3 := p3.stack
  rcases m3.exists_push (m3.get 3) (by omega) with ⟨m4, h4⟩
  have p4 := p3.trans (pushed_of_push (p3.ne_zero hsp) h4).1
  have s4 := p4.stack
  rcases m4.exists_push (m4.get 4) (by omega) with ⟨m5, h5⟩
  refine ⟨(m5.set 1 (m5.get 0)).set 2 (m5.get 0 - (arguments + 5)), ?_⟩
  simp only [enter, bind_def, h1, h2, h3, h4, h5, ok_bind]
  rfl

end Memory
end HackVM
