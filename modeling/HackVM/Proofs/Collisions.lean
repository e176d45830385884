import Mathlib.Data.List.Nodup
import HackVM.Proofs.Legibility
import HackVM.Proofs.StackMachine

/-!
# Labels that are spelled alike

The labels of a linked program come in four families: the entries of functions, the labels
within functions, the two labels of every comparison, and the return labels of the call
sites.  Their texts are put together with dots and dollar signs, which names may contain as
well.  So labels of different families can be spelled alike, and even two labels within
functions.  Here it is said exactly when they are.
-/

namespace HackVM

/-!
## Texts that are cut at a mark

Two cuts of one text at the same mark fall together, unless the mark occurs behind one of
them.
-/

namespace Text

theorem cut_cases {mark : Char} {first last front back : List Char}
    (h : first ++ mark :: last = front ++ mark :: back) (hback : mark ∉ back) :
    (first = front ∧ last = back) ∨ ∃ middle, front = first ++ mark :: middle := by
  rcases List.append_eq_append_iff.mp h with ⟨extra, hfront, hlast⟩ | ⟨extra, hfirst, hback'⟩
  · cases extra with
    | nil =>
        simp only [List.append_nil] at hfront
        exact Or.inl ⟨hfront.symm, (List.cons.inj hlast).2⟩
    | cons c middle =>
        cases (List.cons.inj hlast).1
        exact Or.inr ⟨middle, hfront⟩
  · cases extra with
    | nil =>
        simp only [List.append_nil] at hfirst
        exact Or.inl ⟨hfirst, (List.cons.inj hback').2.symm⟩
    | cons c middle =>
        rw [(List.cons.inj hback').2] at hback
        exact absurd (by simp) hback

theorem cut_unique {mark : Char} {first last front back : List Char}
    (h : first ++ mark :: last = front ++ mark :: back) (hlast : mark ∉ last)
    (hback : mark ∉ back) :
    first = front ∧ last = back := by
  rcases cut_cases h hback with hsame | ⟨middle, rfl⟩
  · exact hsame
  · rcases cut_cases h.symm hlast with hsame | ⟨other, hother⟩
    · exact ⟨hsame.1.symm, hsame.2.symm⟩
    · have hlength := congrArg List.length hother
      simp at hlength

theorem dot_not_mem_repr (n : Nat) : '.' ∉ (Nat.repr n).toList := by
  intro h
  cases isDigit_of_mem_repr h

theorem repr_injective {n m : Nat} (h : (Nat.repr n).toList = (Nat.repr m).toList) :
    n = m := by
  have hdigits : Nat.toDigits 10 n = Nat.toDigits 10 m := by
    rw [← Nat.toList_repr, ← Nat.toList_repr, h]
  have hn := decimal?_toDigits n
  rw [hdigits, decimal?_toDigits m] at hn
  exact (Option.some.inj hn).symm

theorem repr_not_isName (n : Nat) : isName (Nat.repr n).toList = false := by
  cases hlist : (Nat.repr n).toList with
  | nil => rfl
  | cons c cs =>
      have hdigit : c.isDigit = true := by
        apply isDigit_of_mem_repr (n := n)
        rw [hlist]
        exact List.mem_cons_self
      simp [isName, hdigit]

end Text

/-!
## Symbols with a number

What stands in front of the number tells the kind of a numbered symbol, and together with the
number the symbol itself.  So numbered symbols with the same name are the same.
-/

namespace Symbol

/-- What stands in front of the number in the name of a numbered symbol. -/
def stem? : Symbol → Option (List Char × Nat)
  | .holds number => some ("CMP$TRUE".toList, number)
  | .compared number => some ("CMP$END".toList, number)
  | .returned function number => some (function.toList ++ "$ret".toList, number)
  | _ => none

theorem name_of_stem? {s : Symbol} {stem : List Char} {number : Nat}
    (h : s.stem? = some (stem, number)) :
    s.name.toList = stem ++ '.' :: (Nat.repr number).toList := by
  cases s with
  | holds n | compared n | returned function n =>
      cases h
      simp [name]
  | _ => cases h

theorem toList_name_scoped (function label : String) :
    (Symbol.scoped function label).name.toList = function.toList ++ '.' :: label.toList := by
  simp [name]

def ofStem (stem : List Char) (number : Nat) : Symbol :=
  if stem = "CMP$TRUE".toList then .holds number
  else if stem = "CMP$END".toList then .compared number
  else .returned (String.ofList (stem.take (stem.length - 4))) number

theorem ofStem_of_stem? {s : Symbol} {stem : List Char} {number : Nat}
    (h : s.stem? = some (stem, number)) :
    ofStem stem number = s := by
  cases s with
  | holds n =>
      cases h
      exact if_pos rfl
  | compared n =>
      cases h
      rw [ofStem, if_neg (by decide), if_pos rfl]
  | returned function n =>
      cases h
      have hlast : (function.toList ++ "$ret".toList).getLast? = some 't' := by
        rw [List.getLast?_append]
        rfl
      have hholds : function.toList ++ "$ret".toList ≠ "CMP$TRUE".toList := by
        intro heq
        rw [heq] at hlast
        cases hlast
      have hcompared : function.toList ++ "$ret".toList ≠ "CMP$END".toList := by
        intro heq
        rw [heq] at hlast
        cases hlast
      rw [ofStem, if_neg hholds, if_neg hcompared]
      simp
  | _ => cases h

theorem eq_of_name_of_stem? {s t : Symbol} (hs : s.stem?.isSome) (ht : t.stem?.isSome)
    (h : s.name = t.name) :
    s = t := by
  rcases Option.isSome_iff_exists.mp hs with ⟨⟨stem, number⟩, hs⟩
  rcases Option.isSome_iff_exists.mp ht with ⟨⟨other, count⟩, ht⟩
  have htext : stem ++ '.' :: (Nat.repr number).toList = other ++
      '.' :: (Nat.repr count).toList := by
    rw [← name_of_stem? hs, ← name_of_stem? ht, h]
  rcases Text.cut_unique htext (Text.dot_not_mem_repr _) (Text.dot_not_mem_repr _) with
    ⟨rfl, hrepr⟩
  rw [← ofStem_of_stem? hs, ← ofStem_of_stem? ht, Text.repr_injective hrepr]

theorem scoped_name_ne {function label : String} {t : Symbol} {stem : List Char} {number : Nat}
    (hlabel : Text.isName label.toList = true) (ht : t.stem? = some (stem, number))
    (hstem : '.' ∉ stem) :
    (Symbol.scoped function label).name ≠ t.name := by
  intro h
  have htext : function.toList ++ '.' :: label.toList = stem ++
      '.' :: (Nat.repr number).toList := by
    rw [← toList_name_scoped, h, name_of_stem? ht]
  rcases Text.cut_cases htext (Text.dot_not_mem_repr _) with ⟨-, hrepr⟩ | ⟨middle, rfl⟩
  · rw [hrepr, Text.repr_not_isName] at hlabel
    cases hlabel
  · exact hstem (by simp)

end Symbol

/-!
## The four families

The symbols that a program defines are listed family by family.  They are spelled differently
exactly if the program is unambiguous; most pairs of families cannot meet, because of the
dots and dollar signs that they have.
-/

namespace Command

def callee? : Command → Option String
  | .call name _ => some name
  | _ => none

def isComparison : Command → Bool
  | .operate (.compare _) => true
  | _ => false

end Command

def Placed.label? (p : Placed) : Option (String × String) :=
  match p.command with
  | .label name => some (p.scope, name)
  | _ => none

namespace Program

def functionNames (program : Program) : List String :=
  program.filterMap fun p => p.command.functionName?

def labels (program : Program) : List (String × String) :=
  program.filterMap Placed.label?

def callees (program : Program) : List String :=
  program.filterMap fun p => p.command.callee?

def comparisons (program : Program) : Nat :=
  program.countP fun p => p.command.isComparison

def symbols (program : Program) (comparisons callSites : Nat) : List Symbol :=
  program.functionNames.map .entry ++
    ((program.labels.map fun label => .scoped label.1 label.2) ++
      ((List.range' (comparisons + 1) program.comparisons).map .holds ++
        ((List.range' (comparisons + 1) program.comparisons).map .compared ++
          (program.callees.zipIdx (callSites + 1)).map fun site => .returned site.1 site.2)))

theorem mem_of_mem_place {scope : String} {commands : List (String × Command)} {p : Placed}
    (h : p ∈ place scope commands) : (p.module, p.command) ∈ commands := by
  induction commands generalizing scope with
  | nil => cases h
  | cons pair rest ih =>
      rcases pair with ⟨module, command⟩
      rcases List.mem_cons.mp h with rfl | h
      · exact List.mem_cons_self
      · exact List.mem_cons_of_mem _ (ih h)

end Program

theorem perm_cons_last {α : Type} (x : α) (a b c d e : List α) :
    (x :: (a ++ (b ++ (c ++ (d ++ e))))).Perm (a ++ (b ++ (c ++ (d ++ x :: e)))) := by
  refine List.perm_middle.symm.trans (.append_left _ ?_)
  refine List.perm_middle.symm.trans (.append_left _ ?_)
  refine List.perm_middle.symm.trans (.append_left _ ?_)
  exact List.perm_middle.symm

theorem Emitter.labels_perm_symbols (e : Emitter) (commands : List (String × Command)) :
    ((e.trace commands).flatMap fun met => met.1.labelsOf met.2).Perm
      ((Program.place e.function commands).symbols e.comparisons e.callSites) := by
  induction commands generalizing e with
  | nil => exact .refl _
  | cons pair rest ih =>
      rcases pair with ⟨module, command⟩
      have hrest := ih ({ e with module := module }.advance command)
      rw [trace, List.flatMap_cons]
      cases command with
      | function name locals => exact hrest.cons _
      | label name =>
          refine (hrest.cons _).trans ?_
          exact List.perm_middle.symm
      | call name arguments =>
          refine (hrest.cons _).trans ?_
          exact perm_cons_last ..
      | operate op =>
          cases op with
          | unary op | binary op => exact hrest
          | compare op =>
              have hcount :
                (Program.place e.function
                ((module, .operate (.compare op)) :: rest)).comparisons =
                  (Program.place e.function rest).comparisons + 1 :=
                    List.countP_cons_of_pos rfl
              rw [Program.symbols, hcount, List.range'_succ, List.map_cons, List.map_cons]
              -- The two labels go to two families, the second one first.
              refine ((hrest.cons _).cons _).trans ?_
              refine (List.Perm.cons _ ?_).trans
                (List.perm_middle.symm.trans (.append_left _ List.perm_middle.symm))
              refine List.perm_middle.symm.trans (.append_left _ ?_)
              refine List.perm_middle.symm.trans (.append_left _ ?_)
              exact List.perm_middle.symm
      | _ => exact hrest

namespace Program

def callSites (program : Program) (bootstrap : Bool) : List (String × Nat) :=
  ((if bootstrap then ["Sys.init"] else []) ++ program.callees).zipIdx 1

def numberedSymbols (program : Program) (bootstrap : Bool) : List Symbol :=
  (List.range' 1 program.comparisons).map .holds ++
    ((List.range' 1 program.comparisons).map .compared ++
      (callSites program bootstrap).map fun site => .returned site.1 site.2)

def definedSymbols (program : Program) (bootstrap : Bool) : List Symbol :=
  program.functionNames.map .entry ++
    ((program.labels.map fun label => .scoped label.1 label.2) ++
      numberedSymbols program bootstrap)

/--
No two labels of a program are spelled alike, as far as their spelling does not rule it out
anyway.
-/
structure Unambiguous (program : Program) (bootstrap : Bool) : Prop where
  scoped_injective : ∀ first ∈ program.labels, ∀ second ∈ program.labels,
    first.1 ++ "." ++ first.2 = second.1 ++ "." ++ second.2 → first = second
  entry_ne_scoped : ∀ name ∈ program.functionNames,
    ∀ label ∈ program.labels, name ≠ label.1 ++ "." ++ label.2
  entry_ne_holds : ∀ name ∈ program.functionNames,
    ∀ number ∈ List.range' 1 program.comparisons, name ≠ "CMP$TRUE." ++ Nat.repr number
  entry_ne_compared : ∀ name ∈ program.functionNames,
    ∀ number ∈ List.range' 1 program.comparisons, name ≠ "CMP$END." ++ Nat.repr number
  entry_ne_returned : ∀ name ∈ program.functionNames,
    ∀ site ∈ callSites program bootstrap, name ≠ site.1 ++ "$ret." ++ Nat.repr site.2
  scoped_ne_returned : ∀ label ∈ program.labels, ∀ site ∈ callSites program bootstrap,
    label.1 ++ "." ++ label.2 ≠ site.1 ++ "$ret." ++ Nat.repr site.2

variable {program : Program} {bootstrap : Bool}

theorem mem_definedSymbols {s : Symbol} :
    s ∈ definedSymbols program bootstrap ↔
      (∃ name ∈ program.functionNames, s = .entry name) ∨
      (∃ label ∈ program.labels, s = .scoped label.1 label.2) ∨
      s ∈ numberedSymbols program bootstrap := by
  simp [definedSymbols, eq_comm]

theorem mem_numberedSymbols {s : Symbol} :
    s ∈ numberedSymbols program bootstrap ↔
      (∃ number ∈ List.range' 1 program.comparisons, s = .holds number) ∨
      (∃ number ∈ List.range' 1 program.comparisons, s = .compared number) ∨
      (∃ site ∈ callSites program bootstrap, s = .returned site.1 site.2) := by
  simp [numberedSymbols, eq_comm]

theorem nodup_numberedSymbols : (numberedSymbols program bootstrap).Nodup := by
  have hsites : (callSites program bootstrap).Nodup := by
    apply List.Nodup.of_map Prod.snd
    rw [callSites, List.zipIdx_map_snd]
    exact List.nodup_range'
  rw [numberedSymbols, List.nodup_append, List.nodup_append]
  refine ⟨?_, ⟨?_, ?_, ?_⟩, ?_⟩
  · exact List.Nodup.map (fun _ _ h => Symbol.holds.inj h) List.nodup_range'
  · exact List.Nodup.map (fun _ _ h => Symbol.compared.inj h) List.nodup_range'
  · apply hsites.map
    rintro ⟨name, number⟩ ⟨other, count⟩ h
    cases h
    rfl
  · intro s hs t ht hst
    rcases List.mem_map.mp hs with ⟨number, -, rfl⟩
    rcases List.mem_map.mp ht with ⟨site, -, rfl⟩
    cases hst
  · intro s hs t ht hst
    rcases List.mem_map.mp hs with ⟨number, -, rfl⟩
    rcases List.mem_append.mp ht with ht | ht
    · rcases List.mem_map.mp ht with ⟨count, -, rfl⟩
      cases hst
    · rcases List.mem_map.mp ht with ⟨site, -, rfl⟩
      cases hst

theorem stem?_of_mem_numberedSymbols {s : Symbol} (h : s ∈ numberedSymbols program bootstrap) :
    s.stem?.isSome := by
  rcases mem_numberedSymbols.mp h with ⟨number, -, rfl⟩ | ⟨number, -, rfl⟩ | ⟨site, -, rfl⟩ <;>
    rfl

theorem nodup_definedSymbols (hfunctions : program.functionNames.Nodup)
    (hlabels : program.labels.Nodup) : (definedSymbols program bootstrap).Nodup := by
  rw [definedSymbols, List.nodup_append, List.nodup_append]
  refine ⟨?_, ⟨?_, nodup_numberedSymbols, ?_⟩, ?_⟩
  · exact hfunctions.map fun _ _ h => Symbol.entry.inj h
  · apply hlabels.map
    rintro ⟨scope, label⟩ ⟨other, name⟩ h
    cases h
    rfl
  · intro s hs t ht hst
    rcases List.mem_map.mp hs with ⟨label, -, rfl⟩
    have hstem := stem?_of_mem_numberedSymbols ht
    rw [← hst] at hstem
    cases hstem
  · intro s hs t ht hst
    rcases List.mem_map.mp hs with ⟨name, -, rfl⟩
    rcases List.mem_append.mp ht with ht | ht
    · rcases List.mem_map.mp ht with ⟨label, -, rfl⟩
      cases hst
    · have hstem := stem?_of_mem_numberedSymbols ht
      rw [← hst] at hstem
      cases hstem

namespace Unambiguous

variable (h : Unambiguous program bootstrap) (hnames : ∀ label ∈ program.labels,
    Text.isName label.2.toList = true)
include h

theorem entry_ne {name : String} (hname : name ∈ program.functionNames) {s : Symbol}
    (hs : s ∈ numberedSymbols program bootstrap) : (Symbol.entry name).name ≠ s.name := by
  rcases mem_numberedSymbols.mp hs with
    ⟨number, hnumber, rfl⟩ | ⟨number, hnumber, rfl⟩ | ⟨site, hsite, rfl⟩
  · exact h.entry_ne_holds name hname number hnumber
  · exact h.entry_ne_compared name hname number hnumber
  · exact h.entry_ne_returned name hname site hsite

include hnames in
theorem scoped_ne {label : String × String} (hlabel : label ∈ program.labels) {s : Symbol}
    (hs : s ∈ numberedSymbols program bootstrap) :
    (Symbol.scoped label.1 label.2).name ≠ s.name := by
  have hname := hnames label hlabel
  rcases mem_numberedSymbols.mp hs with
    ⟨number, -, rfl⟩ | ⟨number, -, rfl⟩ | ⟨site, hsite, rfl⟩
  · exact Symbol.scoped_name_ne hname rfl (by decide)
  · exact Symbol.scoped_name_ne hname rfl (by decide)
  · exact h.scoped_ne_returned label hlabel site hsite

include hnames in
theorem name_injective {s t : Symbol} (hs : s ∈ definedSymbols program bootstrap)
    (ht : t ∈ definedSymbols program bootstrap) (hst : s.name = t.name) : s = t := by
  rcases mem_definedSymbols.mp hs with ⟨name, hname, rfl⟩ | ⟨label, hlabel, rfl⟩ | hs
  · rcases mem_definedSymbols.mp ht with ⟨other, -, rfl⟩ | ⟨label, hlabel, rfl⟩ | ht
    · exact congrArg Symbol.entry hst
    · exact absurd hst (h.entry_ne_scoped name hname label hlabel)
    · exact absurd hst (h.entry_ne hname ht)
  · rcases mem_definedSymbols.mp ht with ⟨name, hname, rfl⟩ | ⟨other, hother, rfl⟩ | ht
    · exact absurd hst.symm (h.entry_ne_scoped name hname label hlabel)
    · rw [h.scoped_injective label hlabel other hother hst]
    · exact absurd hst (h.scoped_ne hnames hlabel ht)
  · rcases mem_definedSymbols.mp ht with ⟨name, hname, rfl⟩ | ⟨label, hlabel, rfl⟩ | ht
    · exact absurd hst.symm (h.entry_ne hname hs)
    · exact absurd hst.symm (h.scoped_ne hnames hlabel hs)
    · exact Symbol.eq_of_name_of_stem? (stem?_of_mem_numberedSymbols hs)
        (stem?_of_mem_numberedSymbols ht) hst

end Unambiguous

theorem unambiguous_of_nodup (h : ((definedSymbols program bootstrap).map Symbol.name).Nodup) :
    Unambiguous program bootstrap := by
  have hinjective := List.inj_on_of_nodup_map h
  have hentry : ∀ {name}, name ∈ program.functionNames →
      Symbol.entry name ∈ definedSymbols program bootstrap :=
    fun hname => mem_definedSymbols.mpr (Or.inl ⟨_, hname, rfl⟩)
  have hscoped : ∀ {label}, label ∈ program.labels →
      Symbol.scoped label.1 label.2 ∈ definedSymbols program bootstrap :=
    fun hlabel => mem_definedSymbols.mpr (Or.inr (Or.inl ⟨_, hlabel, rfl⟩))
  have hnumbered : ∀ {s}, s ∈ numberedSymbols program bootstrap →
      s ∈ definedSymbols program bootstrap :=
    fun hs => mem_definedSymbols.mpr (Or.inr (Or.inr hs))
  constructor
  · rintro ⟨scope, label⟩ hfirst ⟨other, name⟩ hsecond hname
    cases hinjective (hscoped hfirst) (hscoped hsecond) hname
    rfl
  · intro name hname label hlabel hsame
    cases hinjective (hentry hname) (hscoped hlabel) hsame
  · intro name hname number hnumber hsame
    cases hinjective (hentry hname)
      (hnumbered (mem_numberedSymbols.mpr (Or.inl ⟨number, hnumber, rfl⟩))) hsame
  · intro name hname number hnumber hsame
    cases hinjective (hentry hname)
      (hnumbered (mem_numberedSymbols.mpr (Or.inr (Or.inl ⟨number, hnumber, rfl⟩)))) hsame
  · intro name hname site hsite hsame
    cases hinjective (hentry hname)
      (hnumbered (mem_numberedSymbols.mpr (Or.inr (Or.inr ⟨site, hsite, rfl⟩)))) hsame
  · intro label hlabel site hsite hsame
    cases hinjective (hscoped hlabel)
      (hnumbered (mem_numberedSymbols.mpr (Or.inr (Or.inr ⟨site, hsite, rfl⟩)))) hsame

theorem nodup_names_iff (hnames : ∀ label ∈ program.labels, Text.isName label.2.toList = true)
    (hfunctions : program.functionNames.Nodup) (hlabels : program.labels.Nodup) :
    ((definedSymbols program bootstrap).map Symbol.name).Nodup ↔
      Unambiguous program bootstrap := by
  constructor
  · exact unambiguous_of_nodup
  · intro h
    exact (nodup_definedSymbols hfunctions hlabels).map_on fun s hs t ht =>
      h.name_injective hnames hs ht

theorem not_predefined_of_dot {name : String} (h : '.' ∈ name.toList) :
    name ∉ Predefined.table.map Prod.fst := by
  have hdots : ∀ other ∈ Predefined.table.map Prod.fst, '.' ∉ other.toList := by
    decide +kernel
  intro hname
  exact hdots name hname h

theorem not_predefined_of_mem_definedSymbols
    (hpredefined : ∀ name ∈ program.functionNames, name ∉ Predefined.table.map Prod.fst)
    {s : Symbol} (hs : s ∈ definedSymbols program bootstrap) :
    s.name ∉ Predefined.table.map Prod.fst := by
  rcases mem_definedSymbols.mp hs with ⟨name, hname, rfl⟩ | ⟨label, -, rfl⟩ | hs
  · exact hpredefined name hname
  · apply not_predefined_of_dot
    rw [Symbol.toList_name_scoped]
    simp
  · rcases Option.isSome_iff_exists.mp (stem?_of_mem_numberedSymbols hs) with
      ⟨⟨stem, number⟩, hstem⟩
    apply not_predefined_of_dot
    rw [Symbol.name_of_stem? hstem]
    simp

instance (program : Program) (bootstrap : Bool) : Decidable (Unambiguous program bootstrap) :=
  decidable_of_iff
    ((∀ first ∈ program.labels, ∀ second ∈ program.labels,
        first.1 ++ "." ++ first.2 = second.1 ++ "." ++ second.2 → first = second) ∧
      (∀ name ∈ program.functionNames,
        ∀ label ∈ program.labels, name ≠ label.1 ++ "." ++ label.2) ∧
      (∀ name ∈ program.functionNames,
        ∀ number ∈ List.range' 1 program.comparisons, name ≠ "CMP$TRUE." ++ Nat.repr number) ∧
      (∀ name ∈ program.functionNames,
        ∀ number ∈ List.range' 1 program.comparisons, name ≠ "CMP$END." ++ Nat.repr number) ∧
      (∀ name ∈ program.functionNames,
        ∀ site ∈ callSites program bootstrap, name ≠ site.1 ++ "$ret." ++ Nat.repr site.2) ∧
      (∀ label ∈ program.labels, ∀ site ∈ callSites program bootstrap,
        label.1 ++ "." ++ label.2 ≠ site.1 ++ "$ret." ++ Nat.repr site.2))
    ⟨fun h => ⟨h.1, h.2.1, h.2.2.1, h.2.2.2.1, h.2.2.2.2.1, h.2.2.2.2.2⟩,
      fun h => ⟨h.1, h.2, h.3, h.4, h.5, h.6⟩⟩

end Program

/-!
## What the assembler says

The linked labels are a permutation of the symbols of the four families, so the assembler
refuses one of them exactly if two are spelled alike.
-/

namespace Module

variable {modules : List Module} {options : Options}

theorem linkedLabels_perm (modules : List Module) (options : Options) :
    (linkedLabels modules options).Perm
      ((Program.ofModules modules).definedSymbols options.bootstrap) := by
  have hsymbols := Emitter.labels_perm_symbols (opener modules options) (allCommands modules)
  unfold linkedLabels Program.definedSymbols Program.numberedSymbols Program.callSites
  cases hboot : options.bootstrap with
  | false =>
      have hopener : opener modules options = starter modules options := by
        rw [opener, hboot]
        rfl
      rw [hopener] at hsymbols ⊢
      exact hsymbols
  | true =>
      have hopener : opener modules options = (starter modules options).bootstrap.2 := by
        rw [opener, hboot]
        rfl
      rw [hopener] at hsymbols ⊢
      refine (hsymbols.cons _).trans ?_
      exact perm_cons_last ..

theorem isName_of_mem_labels {label : String × String}
    (h : label ∈ (Program.ofModules modules).labels) :
    Text.isName label.2.toList = true := by
  rcases List.mem_filterMap.mp h with ⟨⟨module, scope, command⟩, hp, hlabel⟩
  have hwell := wellNamed_commands modules (module, command) (Program.mem_of_mem_place hp)
  cases command with
  | label name =>
      cases hlabel
      exact hwell
  | _ => cases hlabel

theorem definedLabels_of_link {lines : List String}
    (hlink : linkedLines modules options = .ok lines) :
    Image.definedLabels lines = (linkedLabels modules options).map Symbol.name := by
  rcases linkedLines_ok hlink with ⟨haccepts, rfl⟩
  have hread := Code.read_render (legible_linkedCode haccepts)
  have hitem : Statement.labelName? ∘ Item.statement = fun item =>
      item.label?.map Symbol.name := by
    funext item
    cases item <;> rfl
  rw [Image.definedLabels_eq, hread, List.filterMap_map, hitem, ← labels_linkedCode haccepts,
    Code.labels, List.map_filterMap]

/--
In a program where functions are defined once and not named like a predefined symbol, and
labels are defined once in each function, all labels differ exactly if the program is
unambiguous.  If it is, no label is refused as a duplicate; if it is not, a label is refused,
unless the lines before it are already too many.
-/
theorem labels_differ_iff_unambiguous {lines : List String}
    (hlink : linkedLines modules options = .ok lines)
    (hfunctions : (Program.ofModules modules).functionNames.Nodup)
    (hpredefined : ∀ name ∈ (Program.ofModules modules).functionNames,
      name ∉ Predefined.table.map Prod.fst)
    (hlabels : (Program.ofModules modules).labels.Nodup) :
    ((Image.definedLabels lines).Nodup ↔
      (Program.ofModules modules).Unambiguous options.bootstrap) ∧
    ((Program.ofModules modules).Unambiguous options.bootstrap →
      ∀ name, Machine.load lines ≠ .error (.duplicateLabel name)) ∧
    (¬ (Program.ofModules modules).Unambiguous options.bootstrap →
      (∃ name, Machine.load lines = .error (.duplicateLabel name)) ∨
        Machine.load lines = .error .tooManyLines) := by
  have hnodup : (Image.definedLabels lines).Nodup ↔
      (Program.ofModules modules).Unambiguous options.bootstrap := by
    rw [definedLabels_of_link hlink,
      ((linkedLabels_perm modules options).map Symbol.name).nodup_iff]
    exact Program.nodup_names_iff (fun label => isName_of_mem_labels) hfunctions hlabels
  have hadmits : SymbolTable.Admits {} (Image.definedLabels lines) ↔
      (Program.ofModules modules).Unambiguous options.bootstrap := by
    rw [← hnodup, SymbolTable.admits_empty_iff]
    refine ⟨fun h => h.1, fun h => ⟨h, ?_⟩⟩
    intro name hname
    rw [definedLabels_of_link hlink] at hname
    rcases List.mem_map.mp hname with ⟨s, hs, rfl⟩
    exact Program.not_predefined_of_mem_definedSymbols hpredefined
      ((linkedLabels_perm modules options).mem_iff.mp hs)
  simp only [Machine.load_eq_error, ne_eq]
  refine ⟨hnodup, ?_, ?_⟩
  · intro h name
    rcases Image.assemble_labels lines with ⟨-, hfine⟩ | ⟨hrefused, -⟩ | ⟨hroom, -⟩
    · exact hfine name
    · exact absurd (hadmits.mpr h) hrefused
    · rw [hroom]
      intro heq
      cases heq
  · intro h
    rcases Image.assemble_labels lines with ⟨hfine, -⟩ | ⟨-, hrefused⟩ | ⟨hroom, -⟩
    · exact absurd (hadmits.mp hfine) h
    · exact Or.inl hrefused
    · exact Or.inr hroom

/-- A label within a function and the entry of another function that are spelled alike. -/
def overlappingNames : List Module :=
  [⟨"Main", "function f 0\nlabel g\nfunction f.g 0\n"⟩]

theorem overlappingNames_collide :
    linkedLines overlappingNames ⟨false, false⟩ = .ok ["(f)", "(f.g)", "(f.g)"] ∧
    (Program.ofModules overlappingNames).functionNames.Nodup ∧
    (∀ name ∈ (Program.ofModules overlappingNames).functionNames,
      name ∉ Predefined.table.map Prod.fst) ∧
    (Program.ofModules overlappingNames).labels.Nodup ∧
    ¬ (Image.definedLabels ["(f)", "(f.g)", "(f.g)"]).Nodup ∧
    Machine.load ["(f)", "(f.g)", "(f.g)"] = .error (.duplicateLabel "f.g") := by
  refine ⟨?_, ?_, ?_, ?_, ?_, rfl⟩
  · decide +kernel
  · decide +kernel
  · decide +kernel
  · decide +kernel
  · decide +kernel

/-- A program with labels of all families, which differ. -/
def distinctNames : List Module :=
  [⟨"Main",
    "function Main.loop 1\nlabel AGAIN\npush local 0\npush constant 1\neq\nif-goto AGAIN\n" ++
    "call Main.loop 0\n"⟩]

theorem distinctNames_differ :
    ∃ lines, linkedLines distinctNames ⟨true, false⟩ = .ok lines ∧
      (Image.definedLabels lines).Nodup ∧
      ∀ name, Machine.load lines ≠ .error (.duplicateLabel name) := by
  have hok : (linkedLines distinctNames ⟨true, false⟩).isOk = true := by
    decide +kernel
  have hprogram : Program.ofModules distinctNames =
      [⟨"Main", "", .function "Main.loop" 1⟩, ⟨"Main", "Main.loop", .label "AGAIN"⟩,
        ⟨"Main", "Main.loop", .push .locals 0⟩, ⟨"Main", "Main.loop", .push .constant 1⟩,
        ⟨"Main", "Main.loop", .operate (.compare .eq)⟩, ⟨"Main", "Main.loop", .ifGoto "AGAIN"⟩,
        ⟨"Main", "Main.loop", .call "Main.loop" 0⟩] := by
    decide +kernel
  rcases exists_of_isOk hok with ⟨lines, hlink⟩
  have h := labels_differ_iff_unambiguous hlink
  rw [hprogram] at h
  have hdiffer := h (by decide) (by decide +kernel) (by decide)
  have hunambiguous := hdiffer.1.mpr (by decide +kernel)
  exact ⟨lines, hlink, hunambiguous, hdiffer.2.1 (hdiffer.1.mp hunambiguous)⟩

end Module
end HackVM
