import Mathlib.Data.List.Induction
import HackVM.Listing
import HackVM.Proofs.Readers

/-!
# The grammar of commands

Which texts are commands, and what command each of them is, said without regard to how a line
is read: keywords, names and numerals are put next to each other with gaps between them.
Reading from the front accepts exactly these texts, and gives the command that the grammar
gives: no keyword begins another one, and every run of characters that is read ends where the
next part of the command begins.
-/

namespace HackVM
namespace Text

/-!
## The parts of a command

Gaps are runs of spaces and tabs, names are made of letters, digits and four marks, and
numerals are digits with their value.
-/

structure IsGap (cs : List Char) : Prop where
  ne_nil : cs ≠ []
  chars : ∀ c ∈ cs, c = ' ' ∨ c = '\t'

def IsDigit (c : Char) : Prop :=
  '0' ≤ c ∧ c ≤ '9'

def IsLetter (c : Char) : Prop :=
  ('A' ≤ c ∧ c ≤ 'Z') ∨ ('a' ≤ c ∧ c ≤ 'z')

structure IsIdentifier (cs : List Char) : Prop where
  ne_nil : cs ≠ []
  chars : ∀ c ∈ cs, IsLetter c ∨ IsDigit c ∨ c = '_' ∨ c = '.' ∨ c = '$' ∨ c = ':'
  front : ∀ c, cs.head? = some c → ¬ IsDigit c

inductive Numeral : List Char → Nat → Prop where
  | digit {c : Char} : IsDigit c → Numeral [c] (c.toNat - '0'.toNat)
  | snoc {cs : List Char} {n : Nat} {c : Char} :
      Numeral cs n → IsDigit c → Numeral (cs ++ [c]) (10 * n + (c.toNat - '0'.toNat))

end Text

namespace Command

open Text (IsGap IsIdentifier Numeral)

/--
The text is the command: nothing stands before it, behind it, or between its parts but gaps.
-/
inductive Denotes : List Char → Command → Prop where
  | operate (op : Operation) : Denotes op.spelling.toList (.operate op)
  | ret : Denotes "return".toList .ret
  | push {gap space numeral : List Char} (segment : Segment) {index : Word} :
      IsGap gap → IsGap space → Numeral numeral index.toNat →
      Denotes ("push".toList ++ gap ++ segment.spelling.toList ++ space ++ numeral)
        (.push segment index)
  | pop {gap space numeral : List Char} (segment : Segment) {index : Word} :
      IsGap gap → IsGap space → Numeral numeral index.toNat →
      Denotes ("pop".toList ++ gap ++ segment.spelling.toList ++ space ++ numeral)
        (.pop segment index)
  | label {gap : List Char} {name : String} :
      IsGap gap → IsIdentifier name.toList →
        Denotes ("label".toList ++ gap ++ name.toList) (.label name)
  | goto {gap : List Char} {name : String} :
      IsGap gap → IsIdentifier name.toList →
        Denotes ("goto".toList ++ gap ++ name.toList) (.goto name)
  | ifGoto {gap : List Char} {name : String} :
      IsGap gap → IsIdentifier name.toList →
        Denotes ("if-goto".toList ++ gap ++ name.toList) (.ifGoto name)
  | function {gap space numeral : List Char} {name : String} {locals : Word} :
      IsGap gap → IsGap space → IsIdentifier name.toList → Numeral numeral locals.toNat →
      Denotes ("function".toList ++ gap ++ name.toList ++ space ++ numeral)
        (.function name locals)
  | call {gap space numeral : List Char} {name : String} {arguments : Word} :
      IsGap gap → IsGap space → IsIdentifier name.toList → Numeral numeral arguments.toNat →
      Denotes ("call".toList ++ gap ++ name.toList ++ space ++ numeral) (.call name arguments)

end Command

/-!
## Reading the parts

Each part is read exactly where the grammar has it, as far as its characters go.
-/

namespace Text

theorem isDigit_iff {c : Char} : c.isDigit = true ↔ IsDigit c := by
  simp [Char.isDigit, IsDigit, Char.le_def]

theorem isNameChar_iff {c : Char} :
    isNameChar c = true ↔ IsLetter c ∨ IsDigit c ∨ c = '_' ∨ c = '.' ∨ c = '$' ∨ c = ':' := by
  delta isNameChar Char.isAlphanum Char.isAlpha Char.isUpper Char.isLower Char.isDigit
  simp only [IsLetter, IsDigit, Char.le_def, Bool.or_eq_true, Bool.and_eq_true,
    decide_eq_true_eq, beq_iff_eq, ge_iff_le, or_assoc]

theorem isName_iff {cs : List Char} : isName cs = true ↔ IsIdentifier cs := by
  cases cs with
  | nil =>
      constructor
      · intro h
        cases h
      · intro h
        exact absurd rfl h.ne_nil
  | cons c cs =>
      simp only [isName, Bool.and_eq_true, List.all_eq_true, isNameChar_iff, Bool.not_eq_true',
        Bool.eq_false_iff, ne_eq, isDigit_iff]
      constructor
      · rintro ⟨hfront, hchars⟩
        refine ⟨List.cons_ne_nil _ _, hchars, ?_⟩
        intro d hd
        cases hd
        exact hfront
      · intro h
        exact ⟨h.front c rfl, h.chars⟩

theorem Numeral.ne_nil {cs : List Char} {n : Nat} (h : Numeral cs n) : cs ≠ [] := by
  cases h with
  | digit _ => exact List.cons_ne_nil _ _
  | snoc _ _ => simp

theorem Numeral.chars {cs : List Char} {n : Nat} (h : Numeral cs n) : ∀ c ∈ cs, IsDigit c := by
  induction h with
  | digit hc =>
      intro d hd
      rwa [List.mem_singleton.mp hd]
  | snoc _ hc ih =>
      intro d hd
      rcases List.mem_append.mp hd with hd | hd
      · exact ih d hd
      · rwa [List.mem_singleton.mp hd]

theorem Numeral.value {cs : List Char} {n : Nat} (h : Numeral cs n) :
    Nat.ofDigitChars 10 cs 0 = n := by
  induction h with
  | digit _ => simp [Nat.ofDigitChars]
  | snoc _ _ ih =>
      rw [Nat.ofDigitChars_append, ih, Nat.ofDigitChars_cons, Nat.ofDigitChars_nil]

theorem numeral_of_chars {cs : List Char} (hne : cs ≠ []) (hchars : ∀ c ∈ cs, IsDigit c) :
    Numeral cs (Nat.ofDigitChars 10 cs 0) := by
  induction cs using List.reverseRecOn with
  | nil => exact absurd rfl hne
  | append_singleton cs c ih =>
      have hc : IsDigit c := hchars c (by simp)
      rw [Nat.ofDigitChars_append, Nat.ofDigitChars_cons, Nat.ofDigitChars_nil]
      cases cs with
      | nil =>
          rw [Nat.ofDigitChars_nil, Nat.mul_zero, Nat.zero_add]
          exact .digit hc
      | cons d ds =>
          exact .snoc (ih (List.cons_ne_nil _ _) fun e he =>
            hchars e (List.mem_append_left _ he)) hc

theorem decimal?_eq_some_iff {cs : List Char} {n : Nat} :
    decimal? cs = some n ↔ Numeral cs n := by
  have hdigits : cs.all Char.isDigit = true ↔ ∀ c ∈ cs, IsDigit c := by
    simp only [List.all_eq_true, isDigit_iff]
  constructor
  · intro h
    unfold decimal? at h
    split at h
    · next hcs =>
        rw [Bool.and_eq_true, hdigits] at hcs
        cases h
        exact numeral_of_chars (by simpa using hcs.1) hcs.2
    · cases h
  · intro h
    have hne : cs.isEmpty = false := by simpa using h.ne_nil
    rw [decimal?, hne, hdigits.mpr h.chars, h.value]
    rfl

theorem word?_eq_some_iff {cs : List Char} {w : Word} :
    word? cs = some w ↔ Numeral cs w.toNat := by
  rw [word?, Option.bind_eq_some_iff]
  constructor
  · rintro ⟨n, hn, hw⟩
    rw [Word.ofNat?_eq_some_iff.mp hw]
    exact decimal?_eq_some_iff.mp hn
  · intro h
    exact ⟨w.toNat, decimal?_eq_some_iff.mpr h, Word.ofNat?_toNat w⟩

/-!
## Where the parts end

A name or a numeral is read as far as its characters go, so the part that follows must not
begin with one of them.  Gaps and the other parts have no character in common.
-/

theorem isSeparator_iff {c : Char} : isSeparator c = true ↔ c = ' ' ∨ c = '\t' := by
  simp [isSeparator]

theorem isSeparator_of_isNameChar {c : Char} (h : isNameChar c = true) :
    isSeparator c = false := by
  rw [Bool.eq_false_iff, ne_eq, isSeparator_iff]
  rintro (rfl | rfl) <;> cases h

theorem isNameChar_of_isSeparator {c : Char} (h : isSeparator c = true) :
    isNameChar c = false := by
  rcases isSeparator_iff.mp h with rfl | rfl <;> rfl

theorem IsIdentifier.not_isSeparator {cs : List Char} (h : IsIdentifier cs) :
    ∀ c ∈ cs, isSeparator c = false :=
  fun c hc => isSeparator_of_isNameChar (isNameChar_iff.mpr (h.chars c hc))

theorem Numeral.not_isSeparator {cs : List Char} {n : Nat} (h : Numeral cs n) :
    ∀ c ∈ cs, isSeparator c = false :=
  fun c hc => isSeparator_of_isNameChar (isNameChar_iff.mpr (Or.inr (Or.inl (h.chars c hc))))

theorem IsGap.stops_isNameChar {gap : List Char} (h : IsGap gap) (rest : List Char) :
    Reader.Stops isNameChar (gap ++ rest) :=
  Reader.stops_append h.ne_nil
    (fun c hc => isNameChar_of_isSeparator (isSeparator_iff.mpr (h.chars c hc))) rest

end Text

namespace Reader

open Text (IsGap IsIdentifier Numeral)

variable {cs rest : List Char}

theorem run_gap_eq_some_iff {front : List Char} :
    gap.run cs = some (front, rest) ↔
      cs = front ++ rest ∧ IsGap front ∧ Stops Text.isSeparator rest := by
  rw [gap, run_longest_eq_some_iff]
  simp only [Text.isSeparator_iff]
  constructor
  · rintro ⟨hcs, hne, hchars, hstops⟩
    exact ⟨hcs, ⟨hne, hchars⟩, hstops⟩
  · rintro ⟨hcs, hgap, hstops⟩
    exact ⟨hcs, hgap.ne_nil, hgap.chars, hstops⟩

theorem run_numeral_eq_some_iff {w : Word} :
    numeral.run cs = some (w, rest) ↔
      ∃ digits, cs = digits ++ rest ∧ Numeral digits w.toNat ∧ Stops Char.isDigit rest := by
  have hlift : ∀ digits middle, (StateT.lift (Text.word? digits) : Reader Word).run middle =
      some (w, rest) ↔ Numeral digits w.toNat ∧ middle = rest := by
    intro digits middle
    rw [StateT.run_lift, ← Text.word?_eq_some_iff]
    simp [Option.bind_eq_some_iff]
  simp only [numeral, run_bind_eq_some_iff, run_longest_eq_some_iff, hlift]
  constructor
  · rintro ⟨digits, middle, ⟨hcs, -, -, hstops⟩, hnumeral, rfl⟩
    exact ⟨digits, hcs, hnumeral, hstops⟩
  · rintro ⟨digits, hcs, hnumeral, hstops⟩
    refine ⟨digits, rest, ⟨hcs, hnumeral.ne_nil, ?_, hstops⟩, hnumeral, rfl⟩
    exact fun c hc => Text.isDigit_iff.mpr (hnumeral.chars c hc)

theorem run_name_eq_some_iff {name : String} :
    Reader.name.run cs = some (name, rest) ↔
      cs = name.toList ++ rest ∧ IsIdentifier name.toList ∧ Stops Text.isNameChar rest := by
  simp only [Reader.name, run_bind_eq_some_iff, run_longest_eq_some_iff]
  constructor
  · rintro ⟨chars, middle, ⟨rfl, hne, hchars, hstops⟩, hreturn⟩
    split at hreturn
    · cases hreturn
    · next hfront =>
        rcases run_pure_eq_some_iff.mp hreturn with ⟨rfl, rfl⟩
        rw [String.toList_ofList]
        refine ⟨rfl, ⟨hne, fun c hc => Text.isNameChar_iff.mp (hchars c hc), ?_⟩, hstops⟩
        intro c hc hdigit
        exact hfront (by simp [hc, Text.isDigit_iff.mpr hdigit])
  · rintro ⟨hcs, hname, hstops⟩
    have hchars : ∀ c ∈ name.toList, Text.isNameChar c = true :=
      fun c hc => Text.isNameChar_iff.mpr (hname.chars c hc)
    refine ⟨name.toList, rest, ⟨hcs, hname.ne_nil, hchars, hstops⟩, ?_⟩
    have hfront : name.toList.head?.any Char.isDigit = false := by
      rw [Bool.eq_false_iff, ne_eq, Option.any_eq_true]
      rintro ⟨c, hc, hdigit⟩
      exact hname.front c hc (Text.isDigit_iff.mp hdigit)
    rw [hfront, if_neg Bool.false_ne_true, String.ofList_toList]
    exact run_pure_eq_some_iff.mpr ⟨rfl, rfl⟩

/-!
## Operands

An operand is a segment or a name.  It is told from the gap behind it, whatever follows.
-/

/-- What the reader takes in front of a gap is the text of what it gives, and nothing else. -/
structure ReadsOperand {α : Type} (r : Reader α) (text : α → List Char) (valid : α → Prop) :
    Prop where
  sound : ∀ {cs x rest}, r.run cs = some (x, rest) → cs = text x ++ rest ∧ valid x
  complete : ∀ {x gap}, valid x → IsGap gap → ∀ rest,
    r.run (text x ++ (gap ++ rest)) = some (x, gap ++ rest)
  ne_nil : ∀ {x}, valid x → text x ≠ []
  not_isSeparator : ∀ {x}, valid x → ∀ c ∈ text x, Text.isSeparator c = false

theorem readsOperand_name :
    ReadsOperand name String.toList fun name => IsIdentifier name.toList where
  sound h := by
    rcases run_name_eq_some_iff.mp h with ⟨hcs, hname, -⟩
    exact ⟨hcs, hname⟩
  complete hname hgap rest :=
    run_name_eq_some_iff.mpr ⟨rfl, hname, hgap.stops_isNameChar rest⟩
  ne_nil hname := hname.ne_nil
  not_isSeparator hname := hname.not_isSeparator

theorem apart_segments : ((keyedSpellings Segment).map Prod.fst).Pairwise Apart := by
  decide +kernel

theorem apart_operations : ((keyedSpellings Operation).map Prod.fst).Pairwise Apart := by
  decide +kernel

theorem readsOperand_segment :
    ReadsOperand spelled (fun segment : Segment => segment.spelling.toList) fun _ => True where
  sound h := ⟨(run_spelled_eq_some_iff apart_segments).mp h, trivial⟩
  complete _ _ _ := (run_spelled_eq_some_iff apart_segments).mpr rfl
  ne_nil {segment} _ := by cases segment <;> decide
  not_isSeparator {segment} _ := by
    have hall : (segment.spelling.toList.all fun c => !Text.isSeparator c) = true := by
      cases segment <;> decide
    simpa using List.all_eq_true.mp hall

end Reader

/-!
## Forms of commands

Each form is read exactly where the grammar has it, so that the grammar is what the forms
accept together.
-/

namespace Command

open Text (IsGap IsIdentifier Numeral)

variable {cs : List Char} {command : Command}

theorem whole_labelled_iff {keyword : String} {make : String → Command} :
    (labelled keyword make).run cs = some (command, []) ↔
      ∃ gap name, IsGap gap ∧ IsIdentifier name.toList ∧
        cs = keyword.toList ++ gap ++ name.toList ∧ command = make name := by
  simp only [labelled, Reader.run_bind_eq_some_iff, Reader.run_tag_eq_some_iff,
    Reader.run_gap_eq_some_iff, Reader.run_name_eq_some_iff, Reader.run_pure_eq_some_iff]
  constructor
  · rintro ⟨-, _, rfl, gap, _, ⟨rfl, hgap, -⟩, name, _, ⟨rfl, hname, -⟩, rfl, rfl⟩
    exact ⟨gap, name, hgap, hname, by simp, rfl⟩
  · rintro ⟨gap, name, hgap, hname, rfl, rfl⟩
    have hstops : Reader.Stops Text.isSeparator (name.toList ++ []) :=
      Reader.stops_append hname.ne_nil hname.not_isSeparator []
    exact ⟨(), _, List.append_assoc _ _ _, gap, _, ⟨rfl, hgap, by simpa using hstops⟩, name,
      [], ⟨by simp, hname, Reader.stops_nil _⟩, rfl, rfl⟩

theorem whole_counted_iff {α : Type} {keyword : String} {target : Reader α}
    {make : α → Word → Command} {text : α → List Char} {valid : α → Prop}
    (htarget : Reader.ReadsOperand target text valid) :
    (counted keyword target make).run cs = some (command, []) ↔
      ∃ gap x space numeral w, IsGap gap ∧ valid x ∧ IsGap space ∧
        Numeral numeral (BitVec.toNat w) ∧
        cs = keyword.toList ++ gap ++ text x ++ space ++ numeral ∧ command = make x w := by
  simp only [counted, Reader.run_bind_eq_some_iff, Reader.run_tag_eq_some_iff,
    Reader.run_gap_eq_some_iff, Reader.run_numeral_eq_some_iff, Reader.run_pure_eq_some_iff]
  constructor
  · rintro ⟨-, _, rfl, gap, _, ⟨rfl, hgap, -⟩, x, middle, hx, space, _, ⟨rfl, hspace, -⟩, w, _,
      ⟨numeral, rfl, hnumeral, -⟩, rfl, rfl⟩
    rcases htarget.sound hx with ⟨rfl, hvalid⟩
    exact ⟨gap, x, space, numeral, w, hgap, hvalid, hspace, hnumeral, by simp, rfl⟩
  · rintro ⟨gap, x, space, numeral, w, hgap, hvalid, hspace, hnumeral, rfl, rfl⟩
    have hfront : Reader.Stops Text.isSeparator (text x ++ (space ++ numeral)) :=
      Reader.stops_append (htarget.ne_nil hvalid) (htarget.not_isSeparator hvalid) _
    have hback : Reader.Stops Text.isSeparator (numeral ++ []) :=
      Reader.stops_append hnumeral.ne_nil hnumeral.not_isSeparator []
    exact ⟨(), _, by simp only [List.append_assoc], gap, _, ⟨rfl, hgap, hfront⟩, x, _,
      htarget.complete hvalid hspace numeral, space, numeral,
      ⟨rfl, hspace, by simpa using hback⟩, w, [],
      ⟨numeral, by simp, hnumeral, Reader.stops_nil _⟩, rfl, rfl⟩

def keyedBranches : List (List String × Reader Command) :=
  [(["label"], labelled "label" .label), (["goto"], labelled "goto" .goto),
    (["if-goto"], labelled "if-goto" .ifGoto)]

def keyedForms : List (List String × Reader Command) :=
  [(["push"], counted "push" Reader.spelled .push),
    (["pop"], counted "pop" Reader.spelled .pop),
    ((Spelled.all : List Operation).map Spelled.spell, .operate <$> Reader.spelled),
    (["label", "goto", "if-goto"], Reader.firstOf branches),
    (["function"], counted "function" Reader.name .function),
    (["call"], counted "call" Reader.name .call),
    (["return"], (fun _ => .ret) <$> Reader.tag "return")]

theorem startsWith_of_mem_keyedBranches :
    ∀ entry ∈ keyedBranches, Reader.StartsWith entry.2 entry.1 := by
  simp only [keyedBranches, List.forall_mem_cons]
  exact ⟨Reader.startsWith_tag_bind _ _, Reader.startsWith_tag_bind _ _,
    Reader.startsWith_tag_bind _ _, List.forall_mem_nil _⟩

theorem startsWith_of_mem_keyedForms :
    ∀ entry ∈ keyedForms, Reader.StartsWith entry.2 entry.1 := by
  simp only [keyedForms, List.forall_mem_cons]
  exact ⟨Reader.startsWith_tag_bind _ _, Reader.startsWith_tag_bind _ _,
    Reader.startsWith_map Reader.startsWith_spelled _,
    Reader.startsWith_firstOf startsWith_of_mem_keyedBranches,
    Reader.startsWith_tag_bind _ _, Reader.startsWith_tag_bind _ _,
    Reader.startsWith_map (Reader.startsWith_tag _) _, List.forall_mem_nil _⟩

theorem exclusive_branches : branches.Pairwise Reader.Exclusive :=
  Reader.pairwise_exclusive startsWith_of_mem_keyedBranches (by decide +kernel)

theorem exclusive_forms : forms.Pairwise Reader.Exclusive :=
  Reader.pairwise_exclusive startsWith_of_mem_keyedForms (by decide +kernel)

theorem denotes_of_branch {branch : Reader Command} (h : branch ∈ branches)
    (hrun : branch.run cs = some (command, [])) : Denotes cs command := by
  simp only [branches, List.mem_cons, List.not_mem_nil, or_false] at h
  rcases h with rfl | rfl | rfl
  · rcases whole_labelled_iff.mp hrun with ⟨gap, name, hgap, hname, rfl, rfl⟩
    exact .label hgap hname
  · rcases whole_labelled_iff.mp hrun with ⟨gap, name, hgap, hname, rfl, rfl⟩
    exact .goto hgap hname
  · rcases whole_labelled_iff.mp hrun with ⟨gap, name, hgap, hname, rfl, rfl⟩
    exact .ifGoto hgap hname

theorem denotes_of_form {form : Reader Command} (h : form ∈ forms)
    (hrun : form.run cs = some (command, [])) : Denotes cs command := by
  simp only [forms, List.mem_cons, List.not_mem_nil, or_false] at h
  rcases h with rfl | rfl | rfl | rfl | rfl | rfl | rfl
  · rcases (whole_counted_iff Reader.readsOperand_segment).mp hrun with
      ⟨gap, segment, space, numeral, w, hgap, -, hspace, hnumeral, rfl, rfl⟩
    exact .push segment hgap hspace hnumeral
  · rcases (whole_counted_iff Reader.readsOperand_segment).mp hrun with
      ⟨gap, segment, space, numeral, w, hgap, -, hspace, hnumeral, rfl, rfl⟩
    exact .pop segment hgap hspace hnumeral
  · rcases Reader.run_map_eq_some_iff.mp hrun with ⟨op, hop, rfl⟩
    rw [(Reader.run_spelled_eq_some_iff Reader.apart_operations).mp hop, List.append_nil]
    exact .operate op
  · rcases Reader.exists_of_run_firstOf hrun with ⟨branch, hbranch, hrun⟩
    exact denotes_of_branch hbranch hrun
  · rcases (whole_counted_iff Reader.readsOperand_name).mp hrun with
      ⟨gap, name, space, numeral, w, hgap, hname, hspace, hnumeral, rfl, rfl⟩
    exact .function hgap hspace hname hnumeral
  · rcases (whole_counted_iff Reader.readsOperand_name).mp hrun with
      ⟨gap, name, space, numeral, w, hgap, hname, hspace, hnumeral, rfl, rfl⟩
    exact .call hgap hspace hname hnumeral
  · rcases Reader.run_map_eq_some_iff.mp hrun with ⟨u, htag, rfl⟩
    rw [Reader.run_tag_eq_some_iff.mp htag, List.append_nil]
    exact .ret

theorem exists_form_of_branch {branch : Reader Command} (h : branch ∈ branches)
    (hrun : branch.run cs = some (command, [])) :
    ∃ form ∈ forms, form.run cs = some (command, []) := by
  refine ⟨Reader.firstOf branches, by simp [forms], ?_⟩
  exact (Reader.run_firstOf_eq_some_iff exclusive_branches).mpr ⟨branch, h, hrun⟩

theorem exists_form_of_denotes (h : Denotes cs command) :
    ∃ form ∈ forms, form.run cs = some (command, []) := by
  cases h with
  | operate op =>
      refine ⟨.operate <$> Reader.spelled, by simp [forms], ?_⟩
      refine Reader.run_map_eq_some_iff.mpr ⟨op, ?_, rfl⟩
      exact (Reader.run_spelled_eq_some_iff Reader.apart_operations).mpr
        (List.append_nil _).symm
  | ret =>
      refine ⟨(fun _ => .ret) <$> Reader.tag "return", by simp [forms], ?_⟩
      refine Reader.run_map_eq_some_iff.mpr ⟨(), ?_, rfl⟩
      exact Reader.run_tag_eq_some_iff.mpr (List.append_nil _).symm
  | push segment hgap hspace hnumeral =>
      refine ⟨counted "push" Reader.spelled .push, by simp [forms], ?_⟩
      exact (whole_counted_iff Reader.readsOperand_segment).mpr
        ⟨_, segment, _, _, _, hgap, trivial, hspace, hnumeral, rfl, rfl⟩
  | pop segment hgap hspace hnumeral =>
      refine ⟨counted "pop" Reader.spelled .pop, by simp [forms], ?_⟩
      exact (whole_counted_iff Reader.readsOperand_segment).mpr
        ⟨_, segment, _, _, _, hgap, trivial, hspace, hnumeral, rfl, rfl⟩
  | label hgap hname =>
      refine exists_form_of_branch (by simp [branches] : labelled "label" .label ∈ branches) ?_
      exact whole_labelled_iff.mpr ⟨_, _, hgap, hname, rfl, rfl⟩
  | goto hgap hname =>
      refine exists_form_of_branch (by simp [branches] : labelled "goto" .goto ∈ branches) ?_
      exact whole_labelled_iff.mpr ⟨_, _, hgap, hname, rfl, rfl⟩
  | ifGoto hgap hname =>
      refine exists_form_of_branch
        (by simp [branches] : labelled "if-goto" .ifGoto ∈ branches) ?_
      exact whole_labelled_iff.mpr ⟨_, _, hgap, hname, rfl, rfl⟩
  | function hgap hspace hname hnumeral =>
      refine ⟨counted "function" Reader.name .function, by simp [forms], ?_⟩
      exact (whole_counted_iff Reader.readsOperand_name).mpr
        ⟨_, _, _, _, _, hgap, hname, hspace, hnumeral, rfl, rfl⟩
  | call hgap hspace hname hnumeral =>
      refine ⟨counted "call" Reader.name .call, by simp [forms], ?_⟩
      exact (whole_counted_iff Reader.readsOperand_name).mpr
        ⟨_, _, _, _, _, hgap, hname, hspace, hnumeral, rfl, rfl⟩

/-!
## Lines

Since no two forms meet, the first form that succeeds is the only one, and the line is what
the grammar says it is.
-/

theorem read?_eq_some_iff_denotes : read? cs = some command ↔ Denotes cs command := by
  rw [read?, Reader.whole_eq_some_iff, reader, Reader.run_firstOf_eq_some_iff exclusive_forms]
  constructor
  · rintro ⟨form, hform, hrun⟩
    exact denotes_of_form hform hrun
  · intro h
    exact exists_form_of_denotes h

theorem Denotes.unique {other : Command} (h : Denotes cs command) (hother : Denotes cs other) :
    command = other := by
  have hread := read?_eq_some_iff_denotes.mpr h
  rw [read?_eq_some_iff_denotes.mpr hother] at hread
  exact (Option.some.inj hread).symm

theorem parse_eq_ok_iff_denotes {number : Nat} {line : String} :
    parse number line = .ok command ↔ Denotes line.toList command := by
  rw [← read?_eq_some_iff_denotes, parse]
  cases read? line.toList with
  | none => simp
  | some other => simp

/--
A line is read exactly if the grammar gives it, and then as the command that the grammar
gives.  No line is two commands.  The readers that are tried one after the other can be tried
in any order, with the same results and the same rests on all texts: the forms of commands,
the forms with a label, the operations and the segments.  All other lines are reported as
they are, with their number.
-/
theorem parse_exactly_denoted (number : Nat) (line : String) :
    (∀ command, parse number line = .ok command ↔ Denotes line.toList command) ∧
    (∀ first second, Denotes line.toList first → Denotes line.toList second →
      first = second) ∧
    (∀ readers, readers.Perm forms → Reader.firstOf readers = reader) ∧
    (∀ readers, readers.Perm branches → Reader.firstOf readers = Reader.firstOf branches) ∧
    (∀ readers, readers.Perm (Reader.spellings Operation) →
      Reader.firstOf readers = Reader.spelled) ∧
    (∀ readers, readers.Perm (Reader.spellings Segment) →
      Reader.firstOf readers = Reader.spelled) ∧
    ((∀ command, ¬Denotes line.toList command) →
      parse number line = .error ⟨number, line⟩) := by
  refine ⟨fun command => parse_eq_ok_iff_denotes,
    fun first second => Denotes.unique, ?_, ?_, ?_, ?_, ?_⟩
  · intro readers hperm
    exact Reader.firstOf_perm exclusive_forms hperm
  · intro readers hperm
    exact Reader.firstOf_perm exclusive_branches hperm
  · intro readers hperm
    exact Reader.firstOf_perm (Reader.exclusive_spellings Reader.apart_operations) hperm
  · intro readers hperm
    exact Reader.firstOf_perm (Reader.exclusive_spellings Reader.apart_segments) hperm
  · intro h
    rw [parse]
    cases hread : read? line.toList with
    | none => rfl
    | some command => exact absurd (read?_eq_some_iff_denotes.mp hread) (h command)

/-- Tabs and leading zeros are allowed, and numerals beyond the words are not. -/
theorem paddedNumeral_read :
    parse 3 "push  pointer\t0032" = .ok (.push .pointer 32) ∧
    parse 7 "push constant 70000" = .error ⟨7, "push constant 70000"⟩ := by
  have hgap : IsGap [' ', ' '] := ⟨by simp, by simp⟩
  have hspace : IsGap ['\t'] := ⟨by simp, by simp⟩
  have hnumeral : Numeral ['0', '0', '3', '2'] (32 : Word).toNat :=
    Text.decimal?_eq_some_iff.mp rfl
  constructor
  · exact ((parse_exactly_denoted 3 "push  pointer\t0032").1 _).mpr
      (.push .pointer hgap hspace hnumeral)
  · apply (parse_exactly_denoted 7 "push constant 70000").2.2.2.2.2.2
    intro command hcommand
    have hnone : read? "push constant 70000".toList = none := by
      decide +kernel
    rw [read?_eq_some_iff_denotes.mpr hcommand] at hnone
    cases hnone

end Command
end HackVM
