import Mathlib.Data.List.Nodup
import HackVM.Assembler.Image
import HackVM.Text.Names

/-!
# Reading back what was written

The assembler sees only texts.  Here every line of symbolic code is followed through the
removal of comments and outer blanks to the statement it is read as.  A label definition is
read back if its name has only characters of names; a reference is always read as a load, and
its operand is the whole name as long as no slash in it starts a comment.
-/

namespace HackVM

/-!
## Vocabularies

No two values of a vocabulary are spelled alike, so that looking a word up finds the value it
spells.
-/

namespace Spelled

variable {α : Type} [Spelled α]

theorem spell_injective {x y : α} (h : spell x = spell y) : x = y :=
  List.inj_on_of_nodup_map nodup_spell (mem_all x) (mem_all y) h

theorem read?_spell (x : α) : read? (spell x) = some x := by
  unfold read?
  cases hfind : (all : List α).find? (fun y => spell y == spell x) with
  | none =>
      have hnone := List.find?_eq_none.mp hfind x (mem_all x)
      simp at hnone
  | some y =>
      have hy := List.find?_some hfind
      rw [spell_injective (by simpa using hy : spell y = spell x)]

end Spelled

namespace Text

/-!
## Cleaning a text that has nothing to remove

A text of visible characters without slashes is left as it is.
-/

theorem beforeComment_eq_self {cs : List Char} (h : '/' ∉ cs) : beforeComment cs = cs := by
  induction cs with
  | nil => rfl
  | cons c cs ih =>
      rw [List.mem_cons, not_or] at h
      rw [beforeComment, ih h.2]
      intro rest hc _
      exact h.1 hc.symm

theorem trimStart_cons {c : Char} (cs : List Char) (h : isBlank c = false) :
    trimStart (c :: cs) = c :: cs := by
  simp [trimStart, h]

theorem trimEnd_concat {c : Char} (cs : List Char) (h : isBlank c = false) :
    trimEnd (cs ++ [c]) = cs ++ [c] := by
  rw [trimEnd, List.reverse_append, List.reverse_singleton,
    List.singleton_append, trimStart_cons _ h]
  simp

theorem trim_eq_self
    {first last : Char} {cs : List Char}
    (hfirst : isBlank first = false)
    (hlast : (first :: cs).getLast? = some last)
    (hblank : isBlank last = false) :
    trim (first :: cs) = first :: cs := by
  rcases List.getLast?_eq_some_iff.mp hlast with ⟨front, hfront⟩
  rw [trim, trimStart_cons cs hfirst, hfront]
  exact trimEnd_concat front hblank

theorem clean_eq_self {cs : List Char} (h : ∀ c ∈ cs, isBlank c = false ∧ c ≠ '/') :
    clean cs = cs := by
  have hslash : '/' ∉ cs := fun hmem => (h '/' hmem).2 rfl
  rw [clean, beforeComment_eq_self hslash]
  cases cs with
  | nil => rfl
  | cons first cs =>
      cases hlast : (first :: cs).getLast? with
      | none => cases List.getLast?_eq_none_iff.mp hlast
      | some last =>
          have hmem : last ∈ first :: cs := List.mem_of_getLast? hlast
          exact trim_eq_self (h first List.mem_cons_self).1 hlast (h last hmem).1

theorem trim_cons {c : Char} (cs : List Char) (h : isBlank c = false) :
    trim (c :: cs) = c :: trimEnd cs := by
  rw [trim, trimStart_cons cs h, trimEnd, trimEnd, List.reverse_cons]
  unfold trimStart
  rw [List.dropWhile_append]
  cases hdrop : cs.reverse.dropWhile isBlank with
  | nil => simp [h]
  | cons d ds => simp

/-!
## The characters of names

The characters of names are visible ASCII characters other than a slash, and only digits make
a numeral.
-/

theorem toNat_of_isNameChar {c : Char} (h : isNameChar c = true) :
    36 ≤ c.toNat ∧ c.toNat ≤ 122 := by
  delta isNameChar Char.isAlphanum Char.isAlpha Char.isUpper Char.isLower Char.isDigit at h
  simp only [Bool.or_eq_true, Bool.and_eq_true, decide_eq_true_eq, beq_iff_eq,
    UInt32.le_iff_toNat_le, Char.toNat_val, Char.reduceToNat] at h
  rcases h with ((((((h | h) | h) | h) | h) | h) | h)
  case inl.inl.inl.inl.inl.inl | inl.inl.inl.inl.inl.inr | inl.inl.inl.inl.inr => omega
  all_goals
    subst h
    decide

theorem isBlank_of_isNameChar {c : Char} (h : isNameChar c = true) : isBlank c = false := by
  have hcode := toNat_of_isNameChar h
  rw [isBlank, List.any_eq_false]
  intro range hrange
  simp only [blankRanges, List.mem_cons, List.not_mem_nil, or_false] at hrange
  rcases hrange with rfl | rfl | rfl | rfl | rfl | rfl | rfl | rfl | rfl | rfl <;> simp <;>
    omega

theorem not_mem_of_isNameChar
    {cs : List Char} {c : Char}
    (hcs : ∀ d ∈ cs, isNameChar d = true)
    (hc : isNameChar c = false) :
    c ∉ cs := by
  intro hmem
  rw [hcs c hmem] at hc
  cases hc

theorem isNameChar_of_isDigit {c : Char} (h : c.isDigit = true) : isNameChar c = true := by
  simp [isNameChar, Char.isAlphanum, h]

theorem signedWord?_eq_none
    {cs : List Char} {c : Char}
    (hmem : c ∈ cs) (hdigit : c.isDigit = false) (hplus : c ≠ '+') :
    signedWord? cs = none := by
  have hdecimal : ∀ ds : List Char, c ∈ ds → word? ds = none := by
    intro ds hds
    have hall : ds.all Char.isDigit = false := by
      rw [List.all_eq_false]
      exact ⟨c, hds, by simp [hdigit]⟩
    simp [word?, decimal?, hall]
  unfold signedWord?
  split
  · next rest =>
      rcases List.mem_cons.mp hmem with hc | hrest
      · exact absurd hc hplus
      · exact hdecimal rest hrest
  · exact hdecimal cs hmem

theorem isDigit_of_mem_repr {n : Nat} {c : Char} (h : c ∈ (Nat.repr n).toList) :
    c.isDigit = true := by
  rw [Nat.toList_repr] at h
  exact Nat.isDigit_of_mem_toDigits (by decide) (by decide) h

theorem signedWord?_render (w : Word) : signedWord? w.render.toList = some w := by
  unfold signedWord?
  split
  · next rest hrest =>
      have hdigit : ('+' : Char).isDigit = true := by
        apply isDigit_of_mem_repr (n := w.toNat)
        show '+' ∈ w.render.toList
        rw [hrest]
        exact List.mem_cons_self
      cases hdigit
  · exact word?_render w

end Text

/-!
## Symbols as operands

The operand of a reference is the name itself, if no slash occurs in the name and the name
does not end in a blank.
-/

namespace Symbol

/-- A symbol whose name has only the characters of names, and not only digits. -/
structure Legible (s : Symbol) : Prop where
  chars : ∀ c ∈ s.name.toList, Text.isNameChar c = true
  nonDigit : ∃ c ∈ s.name.toList, c.isDigit = false

/-- What the assembler reads after the sign when a line refers to the symbol. -/
def operand (s : Symbol) : List Char :=
  (Text.clean ('@' :: s.name.toList)).tail

theorem clean_reference (s : Symbol) :
    Text.clean ('@' :: s.name.toList) = '@' :: s.operand := by
  have hcut : Text.beforeComment ('@' :: s.name.toList) =
    '@' :: Text.beforeComment s.name.toList := rfl
  unfold operand Text.clean
  rw [hcut, Text.trim_cons _ (by decide)]
  rfl

theorem operand_eq_name
    {s : Symbol}
    (hslash : '/' ∉ s.name.toList)
    (hlast : ∀ c, s.name.toList.getLast? = some c → Text.isBlank c = false) :
    s.operand = s.name.toList := by
  have hcut : Text.beforeComment ('@' :: s.name.toList) = '@' :: s.name.toList := by
    apply Text.beforeComment_eq_self
    simp [hslash]
  unfold operand Text.clean
  rw [hcut]
  cases hname : s.name.toList.getLast? with
  | none =>
      have hnil : s.name.toList = [] := List.getLast?_eq_none_iff.mp hname
      rw [hnil]
      rfl
  | some c =>
      rw [Text.trim_eq_self (by decide) _ (hlast c hname)]
      · rfl
      · rw [List.getLast?_cons, hname]
        rfl

theorem Legible.operand_eq {s : Symbol} (h : s.Legible) : s.operand = s.name.toList := by
  apply operand_eq_name
  · exact Text.not_mem_of_isNameChar h.chars (by decide)
  · intro c hc
    exact Text.isBlank_of_isNameChar (h.chars c (List.mem_of_getLast? hc))

theorem Legible.signedWord?_operand {s : Symbol} (h : s.Legible) :
    Text.signedWord? s.operand = none := by
  rcases h.nonDigit with ⟨c, hc, hdigit⟩
  rw [h.operand_eq]
  refine Text.signedWord?_eq_none hc hdigit ?_
  rintro rfl
  exact Text.not_mem_of_isNameChar h.chars (by decide) hc

end Symbol

/-!
## Lines as statements

Each kind of item is read back as its own kind of statement.
-/

namespace Instruction

theorem bne_of_not_mem {c : Char} {cs : List Char} (h : c ∉ cs) :
    ∀ d ∈ cs, (d != c) = true := by
  intro d hd
  rw [bne_iff_ne]
  intro hdc
  exact h (hdc ▸ hd)

theorem splitFirst_eq_none {c : Char} {cs : List Char} (h : c ∉ cs) :
    splitFirst c cs = none := by
  have hdrop : (cs ++ []).dropWhile (· != c) = [] := by
    rw [List.dropWhile_append_of_pos (bne_of_not_mem h)]
    rfl
  rw [List.append_nil] at hdrop
  rw [splitFirst, hdrop]

theorem splitFirst_append {c : Char} {cs : List Char} (rest : List Char) (h : c ∉ cs) :
    splitFirst c (cs ++ c :: rest) = some (cs, rest) := by
  have hall := bne_of_not_mem h
  have hdrop : (cs ++ c :: rest).dropWhile (· != c) = c :: rest := by
    rw [List.dropWhile_append_of_pos hall]
    simp
  have htake : (cs ++ c :: rest).takeWhile (· != c) = cs := by
    rw [List.takeWhile_append_of_pos hall]
    simp
  rw [splitFirst, hdrop, htake]

/-!
A computation is written with characters that have no other role in a line: they neither
separate its fields, nor start a comment or another kind of statement, nor are they blank.
-/

def isFieldChar (c : Char) : Bool :=
  !Text.isBlank c && c != '/' && c != ';' && c != '=' && c != '@' && c != '('

theorem dest_spelling_isFieldChar (dest : Dest) :
    ∀ c ∈ dest.spelling.toList, isFieldChar c = true := by
  apply List.all_eq_true.mp
  cases dest <;> rfl

theorem jump_spelling_isFieldChar (jump : Jump) :
    ∀ c ∈ jump.spelling.toList, isFieldChar c = true := by
  apply List.all_eq_true.mp
  cases jump <;> rfl

theorem comp_spelling_isFieldChar (comp : Comp) :
    ∀ c ∈ comp.spelling.toList, isFieldChar c = true := by
  apply List.all_eq_true.mp
  cases comp with
  | zero | one | minusOne | d | notD | negD | incD | decD => rfl
  | copy x | not x | neg x | inc x | dec x | add x | sub x | subFrom x | and x | or x =>
      cases x <;> rfl

theorem comp_spelling_ne_nil (comp : Comp) : comp.spelling.toList ≠ [] := by
  cases comp
  case copy x | not x | neg x | inc x | dec x | add x | sub x | subFrom x | and x | or x =>
    cases x <;> decide
  all_goals decide

theorem not_mem_of_isFieldChar
    {cs : List Char} {c : Char}
    (hcs : ∀ d ∈ cs, isFieldChar d = true)
    (hc : isFieldChar c = false) :
    c ∉ cs := by
  intro hmem
  rw [hcs c hmem] at hc
  cases hc

def destField (dest : Dest) : List Char :=
  if dest = .none then [] else dest.spelling.toList ++ ['=']

def jumpField (jump : Jump) : List Char :=
  if jump = .never then [] else ';' :: jump.spelling.toList

theorem toList_render_compute (dest : Dest) (comp : Comp) (jump : Jump) :
    (Item.compute dest comp jump).render.toList = destField dest ++
      comp.spelling.toList ++ jumpField jump := by
  by_cases hdest : dest = .none <;> by_cases hjump : jump = .never <;>
    simp [Item.render, destField, jumpField, hdest, hjump]

theorem splitFirst_dest (dest : Dest) (comp : Comp) :
    (splitFirst '=' (destField dest ++ comp.spelling.toList)).getD
      ([], destField dest ++ comp.spelling.toList) =
      (dest.spelling.toList, comp.spelling.toList) := by
  unfold destField
  split
  · next hdest =>
      subst hdest
      rw [List.nil_append, splitFirst_eq_none]
      · rfl
      · exact not_mem_of_isFieldChar (comp_spelling_isFieldChar comp) (by decide)
  · rw [List.append_assoc, List.singleton_append, splitFirst_append]
    · rfl
    · exact not_mem_of_isFieldChar (dest_spelling_isFieldChar dest) (by decide)

theorem semicolon_not_mem (dest : Dest) (comp : Comp) :
    ';' ∉ destField dest ++ comp.spelling.toList := by
  have hcomp : ';' ∉ comp.spelling.toList :=
    not_mem_of_isFieldChar (comp_spelling_isFieldChar comp) (by decide)
  have hdest : ';' ∉ dest.spelling.toList :=
    not_mem_of_isFieldChar (dest_spelling_isFieldChar dest) (by decide)
  unfold destField
  split <;> simp [hcomp, hdest]

theorem fields_render (dest : Dest) (comp : Comp) (jump : Jump) :
    fields (Item.compute dest comp jump).render.toList =
      (dest.spelling, comp.spelling, jump.spelling) := by
  have hsplit :
      (splitFirst ';' (destField dest ++ comp.spelling.toList ++ jumpField jump)).getD
          (destField dest ++ comp.spelling.toList ++ jumpField jump, []) =
        (destField dest ++ comp.spelling.toList, jump.spelling.toList) := by
    unfold jumpField
    split
    · next hjump =>
        subst hjump
        rw [List.append_nil, splitFirst_eq_none (semicolon_not_mem dest comp)]
        rfl
    · rw [splitFirst_append _ (semicolon_not_mem dest comp)]
      rfl
  rw [toList_render_compute]
  unfold fields
  rw [hsplit]
  simp only
  rw [splitFirst_dest]
  simp

theorem ofCompute_render (dest : Dest) (comp : Comp) (jump : Jump) :
    ofCompute (Item.compute dest comp jump).render.toList = .ok (.compute dest comp jump) := by
  have hcomp : (Spelled.read? comp.spelling : Option Comp) =
    some comp := Spelled.read?_spell comp
  have hdest : (Spelled.read? dest.spelling : Option Dest) =
    some dest := Spelled.read?_spell dest
  have hjump : (Spelled.read? jump.spelling : Option Jump) =
    some jump := Spelled.read?_spell jump
  simp only [ofCompute, fields_render, hcomp, hdest, hjump]

end Instruction

namespace Item

def statement : Item → Statement
  | .comment _ => .blank
  | .label symbol => .label symbol.name
  | .refer symbol => .load symbol.operand
  | .literal value => .load value.render.toList
  | .compute dest comp jump => .compute (Item.compute dest comp jump).render.toList

/-- Only the definition of a label asks for something: its name must be legible. -/
def Legible : Item → Prop
  | .label symbol => symbol.Legible
  | _ => True

theorem read_comment (text : String) : Statement.read (Item.comment text).render = .blank := by
  have hclean : Text.clean (Item.comment text).render.toList = [] := by
    simp [render, Text.clean_of_comment]
  rw [Statement.read, hclean]
  rfl

theorem read_label {symbol : Symbol} (h : symbol.Legible) :
    Statement.read (Item.label symbol).render = .label symbol.name := by
  have hrender : (Item.label symbol).render.toList = '(' :: (symbol.name.toList ++ [')']) := by
    simp [render]
  have hclean : Text.clean ('(' :: (symbol.name.toList ++ [')'])) =
      '(' :: (symbol.name.toList ++ [')']) := by
    apply Text.clean_eq_self
    intro c hc
    rcases List.mem_cons.mp hc with rfl | hc
    · decide
    · rcases List.mem_append.mp hc with hname | hclose
      · refine ⟨Text.isBlank_of_isNameChar (h.chars c hname), ?_⟩
        rintro rfl
        exact Text.not_mem_of_isNameChar h.chars (by decide) hname
      · rw [List.mem_singleton] at hclose
        subst hclose
        decide
  rw [Statement.read, hrender, hclean]
  simp [Statement.ofContent]

theorem read_refer (symbol : Symbol) :
    Statement.read (Item.refer symbol).render = .load symbol.operand := by
  have hrender : (Item.refer symbol).render.toList = '@' :: symbol.name.toList := by
    simp [render]
  rw [Statement.read, hrender, Symbol.clean_reference]
  rfl

theorem read_literal (value : Word) :
    Statement.read (Item.literal value).render = .load value.render.toList := by
  have hrender : (Item.literal value).render.toList = '@' :: value.render.toList := by
    simp [render]
  have hclean : Text.clean ('@' :: value.render.toList) = '@' :: value.render.toList := by
    apply Text.clean_eq_self
    intro c hc
    rcases List.mem_cons.mp hc with rfl | hdigit
    · decide
    · have hname := Text.isNameChar_of_isDigit (Text.isDigit_of_mem_repr hdigit)
      refine ⟨Text.isBlank_of_isNameChar hname, ?_⟩
      rintro rfl
      cases hname
  rw [Statement.read, hrender, hclean]
  rfl

theorem visible_of_mem_compute
    {dest : Dest} {comp : Comp} {jump : Jump} {c : Char}
    (h : c ∈ (Item.compute dest comp jump).render.toList) :
    Text.isBlank c = false ∧ c ≠ '/' ∧ c ≠ '(' ∧ c ≠ '@' := by
  have hfield : Instruction.isFieldChar c = true ∨ c = '=' ∨ c = ';' := by
    rw [Instruction.toList_render_compute] at h
    rcases List.mem_append.mp h with hfront | hjump
    · rcases List.mem_append.mp hfront with hdest | hcomp
      · unfold Instruction.destField at hdest
        split at hdest
        · cases hdest
        · rcases List.mem_append.mp hdest with hspell | hsign
          · exact Or.inl (Instruction.dest_spelling_isFieldChar dest c hspell)
          · exact Or.inr (Or.inl (List.mem_singleton.mp hsign))
      · exact Or.inl (Instruction.comp_spelling_isFieldChar comp c hcomp)
    · unfold Instruction.jumpField at hjump
      split at hjump
      · cases hjump
      · rcases List.mem_cons.mp hjump with hsign | hspell
        · exact Or.inr (Or.inr hsign)
        · exact Or.inl (Instruction.jump_spelling_isFieldChar jump c hspell)
  rcases hfield with hfield | rfl | rfl
  · simp only [Instruction.isFieldChar, Bool.and_eq_true, bne_iff_ne, Bool.not_eq_true']
      at hfield
    exact ⟨hfield.1.1.1.1.1, hfield.1.1.1.1.2, hfield.2, hfield.1.2⟩
  · decide
  · decide

theorem read_compute (dest : Dest) (comp : Comp) (jump : Jump) :
    Statement.read (Item.compute dest comp jump).render =
      .compute (Item.compute dest comp jump).render.toList := by
  have hclean : Text.clean (Item.compute dest comp jump).render.toList =
      (Item.compute dest comp jump).render.toList := by
    apply Text.clean_eq_self
    intro c hc
    exact ⟨(visible_of_mem_compute hc).1, (visible_of_mem_compute hc).2.1⟩
  have hne : (Item.compute dest comp jump).render.toList ≠ [] := by
    rw [Instruction.toList_render_compute]
    intro hnil
    rw [List.append_eq_nil_iff, List.append_eq_nil_iff] at hnil
    exact Instruction.comp_spelling_ne_nil comp hnil.1.2
  rw [Statement.read, hclean]
  cases htext : (Item.compute dest comp jump).render.toList with
  | nil => exact absurd htext hne
  | cons c rest =>
      have hc : c ∈ (Item.compute dest comp jump).render.toList := by
        rw [htext]
        exact List.mem_cons_self
      have hvisible := visible_of_mem_compute hc
      unfold Statement.ofContent
      split
      · next heq => cases heq
      · next heq =>
          cases heq
          exact absurd rfl hvisible.2.2.1
      · next heq =>
          cases heq
          exact absurd rfl hvisible.2.2.2
      · rfl

/-- Every line of legible code is read as the statement of its item. -/
theorem read_render {item : Item} (h : item.Legible) :
    Statement.read item.render = item.statement := by
  cases item with
  | comment text => exact read_comment text
  | label symbol => exact read_label h
  | refer symbol => exact read_refer symbol
  | literal value => exact read_literal value
  | compute dest comp jump => exact read_compute dest comp jump

end Item

theorem Code.read_render {code : Code} (h : ∀ item ∈ code, item.Legible) :
    code.render.map Statement.read = code.map Item.statement := by
  rw [Code.render, List.map_map]
  apply List.map_congr_left
  intro item hitem
  exact Item.read_render (h item hitem)

end HackVM
