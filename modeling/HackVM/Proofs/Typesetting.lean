import HackVM.Proofs.Grammar
import HackVM.Proofs.Legibility

/-!
# Listings set as source texts

A listing can be set as a source text in many ways: with blanks around the commands, with
comments, with empty lines anywhere, and with either kind of line end.  Parsing finds the
listing again, whatever way was chosen.
-/

namespace HackVM

/-!
## Lines of a text

A text is cut at its line feeds, whatever stands between them.
-/

namespace Text

theorem lines_append_lineFeed {content : List Char} (h : '\n' ∉ content) (rest : List Char) :
    lines (content ++ '\n' :: rest) = dropReturn content :: lines rest := by
  have hchars : ∀ c ∈ content, (c == '\n') = false := by
    intro c hc
    rw [beq_eq_false_iff_ne]
    rintro rfl
    exact h hc
  have hsplit : (content ++ '\n' :: rest).splitOn '\n' = content :: rest.splitOn '\n' := by
    rw [List.splitOn_eq_splitOnP, List.splitOnP_append_cons_of_forall_mem hchars '\n' (by rfl)]
    rfl
  rw [lines, hsplit]
  cases hrest : rest.splitOn '\n' with
  | nil => exact absurd hrest (List.splitOnP_ne_nil _ _)
  | cons piece pieces =>
      rw [lines, hrest]
      rfl

theorem lines_unended {content : List Char} (h : '\n' ∉ content) :
    lines content = if content.isEmpty then [] else [content] := by
  rw [lines, List.splitOn_eq_singleton h]
  rfl

/-!
## Blanks at the ends

Blanks at the ends of a text do not matter.
-/

theorem trimStart_append {before : List Char} (h : ∀ c ∈ before, isBlank c = true)
    (cs : List Char) :
    trimStart (before ++ cs) = trimStart cs :=
  List.dropWhile_append_of_pos h

theorem trimEnd_append {after : List Char} (h : ∀ c ∈ after, isBlank c = true)
    (cs : List Char) :
    trimEnd (cs ++ after) = trimEnd cs := by
  rw [trimEnd, List.reverse_append, trimStart_append, trimEnd]
  intro c hc
  exact h c (List.mem_reverse.mp hc)

theorem trim_surrounded {before after : List Char} (hbefore : ∀ c ∈ before, isBlank c = true)
    (hafter : ∀ c ∈ after, isBlank c = true) (cs : List Char) :
    trim (before ++ cs ++ after) = trim cs := by
  rw [trim, List.append_assoc, trimStart_append hbefore, trim]
  cases hstart : trimStart cs with
  | nil =>
      have hafter' : trimStart after = [] := trimStart_eq_nil (List.all_eq_true.mpr hafter)
      have hnone : trimStart (cs ++ after) = [] := by
        unfold trimStart at hstart hafter' ⊢
        rw [List.dropWhile_append, hstart, hafter']
        rfl
      rw [hnone]
  | cons c rest =>
      have hsome : trimStart (cs ++ after) = c :: rest ++ after := by
        unfold trimStart at hstart ⊢
        rw [List.dropWhile_append, hstart]
        rfl
      rw [hsome, trimEnd_append hafter]

/-!
## Comments

A comment goes on to the end of its line.  A last character that is no slash is cut off with
it, or stays the last one.
-/

def IsRemark (cs : List Char) : Prop :=
  cs = [] ∨ ∃ text, cs = '/' :: '/' :: text ∧ '\n' ∉ text

theorem beforeComment_append_remark {cs remark : List Char} (hcs : '/' ∉ cs)
    (hremark : IsRemark remark) :
    beforeComment (cs ++ remark) = cs := by
  induction cs with
  | nil =>
      rcases hremark with rfl | ⟨text, rfl, -⟩ <;> rfl
  | cons c cs ih =>
      rw [List.mem_cons, not_or] at hcs
      rw [List.cons_append, beforeComment, ih hcs.2]
      intro rest hc _
      exact hcs.1 hc.symm

theorem beforeComment_concat (cs : List Char) {c : Char} (hc : c ≠ '/') :
    beforeComment (cs ++ [c]) = beforeComment cs ∨ beforeComment (cs ++ [c]) =
      beforeComment cs ++ [c] := by
  fun_induction beforeComment cs with
  | case1 =>
      right
      rw [List.nil_append, beforeComment]
      · rfl
      · intro rest h
        exact absurd h hc
  | case2 rest => exact Or.inl rfl
  | case3 d ds hslash ih =>
      have hcut : beforeComment (d :: ds ++ [c]) = d :: beforeComment (ds ++ [c]) := by
        rw [List.cons_append, beforeComment]
        intro rest hd hrest
        cases ds with
        | nil =>
            cases hrest
            exact hc rfl
        | cons e es =>
            cases hrest
            exact hslash es hd rfl
      rw [hcut]
      rcases ih with ih | ih
      · exact Or.inl (by rw [ih])
      · exact Or.inr (by rw [ih]; rfl)

theorem trim_concat_return (cs : List Char) : trim (cs ++ ['\r']) = trim cs := by
  have hreturn : ∀ c ∈ ['\r'], isBlank c = true := List.all_eq_true.mp rfl
  exact trim_surrounded (List.forall_mem_nil _) hreturn cs

theorem clean_concat_return (cs : List Char) : clean (cs ++ ['\r']) = clean cs := by
  have hslash : '\r' ≠ '/' := by decide
  unfold clean
  rcases beforeComment_concat cs hslash with h | h
  · rw [h]
  · rw [h, trim_concat_return]

theorem dropReturn_cases (cs : List Char) :
    dropReturn cs = cs ∨ cs = dropReturn cs ++ ['\r'] := by
  unfold dropReturn
  split
  · next hlast =>
      rcases List.getLast?_eq_some_iff.mp hlast with ⟨front, rfl⟩
      simp
  · exact Or.inl rfl

theorem clean_dropReturn (cs : List Char) : clean (dropReturn cs) = clean cs := by
  rcases dropReturn_cases cs with h | h
  · rw [h]
  · rw [h, clean_concat_return, ← h]

theorem trim_dropReturn (cs : List Char) : trim (dropReturn cs) = trim cs := by
  rcases dropReturn_cases cs with h | h
  · rw [h]
  · rw [h, trim_concat_return, ← h]

end Text

/-!
## Rows

Reading looks at a row only through its content, however the row is ended.  Only the last row
may lack a line end.
-/

/-- A line of a text, with the characters that end it. -/
structure Row where
  content : List Char
  ending : List Char

namespace Row

def IsLineEnd (cs : List Char) : Prop :=
  cs = ['\n'] ∨ cs = ['\r', '\n']

def Ended : List Row → Prop
  | [] => True
  | [last] => last.ending = [] ∨ IsLineEnd last.ending
  | row :: rest => IsLineEnd row.ending ∧ Ended rest

def text (rows : List Row) : List Char :=
  rows.flatMap fun row => row.content ++ row.ending

theorem ended_of_forall {rows : List Row} (h : ∀ row ∈ rows, IsLineEnd row.ending) :
    Ended rows := by
  induction rows with
  | nil => trivial
  | cons row rest ih =>
      have hrest := ih fun other hother => h other (List.mem_cons_of_mem _ hother)
      cases rest with
      | nil => exact Or.inr (h row List.mem_cons_self)
      | cons next others => exact ⟨h row List.mem_cons_self, hrest⟩

end Row

namespace Listing

theorem ofLines_cons_congr {number : Nat} {line other : List Char}
    {rest others : List (List Char)} (hclean : Text.clean line = Text.clean other)
    (htrim : Text.trim line = Text.trim other)
    (hrest : ofLines (number + 1) rest = ofLines (number + 1) others) :
    ofLines number (line :: rest) = ofLines number (other :: others) := by
  rw [ofLines, ofLines, hclean, htrim, hrest]

theorem ofLines_lineEnd {number : Nat} {row : Row} (hcontent : '\n' ∉ row.content)
    (hending : Row.IsLineEnd row.ending) {rest : List Char} {others : List (List Char)}
    (hrest : ofLines (number + 1) (Text.lines rest) = ofLines (number + 1) others) :
    ofLines number (Text.lines (row.content ++ row.ending ++ rest)) = ofLines number
      (row.content :: others) := by
  rcases hending with hending | hending
  · rw [hending, List.append_assoc, List.singleton_append, Text.lines_append_lineFeed hcontent]
    exact ofLines_cons_congr (Text.clean_dropReturn _) (Text.trim_dropReturn _) hrest
  · have hreturn : '\n' ∉ row.content ++ ['\r'] := by
      simp [hcontent]
    have htext : row.content ++ row.ending ++ rest =
        (row.content ++ ['\r']) ++ '\n' :: rest := by
      simp [hending]
    rw [htext, Text.lines_append_lineFeed hreturn]
    refine ofLines_cons_congr ?_ ?_ hrest
    · rw [Text.clean_dropReturn, Text.clean_concat_return]
    · rw [Text.trim_dropReturn, Text.trim_concat_return]

theorem ofLines_text {rows : List Row} (hended : Row.Ended rows)
    (hcontents : ∀ row ∈ rows, '\n' ∉ row.content) (number : Nat) :
    ofLines number (Text.lines (Row.text rows)) = ofLines number (rows.map Row.content) := by
  induction rows generalizing number with
  | nil => rfl
  | cons row rest ih =>
      have hcontent := hcontents row List.mem_cons_self
      have hrest : Row.Ended rest →
          ofLines (number + 1) (Text.lines (Row.text rest)) = ofLines (number + 1)
            (rest.map Row.content) :=
        fun h => ih h (fun other hother => hcontents other (List.mem_cons_of_mem _ hother))
          (number + 1)
      show ofLines number (Text.lines (row.content ++ row.ending ++ Row.text rest)) = _
      cases rest with
      | nil =>
          rcases hended with hnone | hending
          · have htext : row.content ++ row.ending ++ Row.text [] = row.content := by
              simp [hnone, Row.text]
            rw [htext, Text.lines_unended hcontent]
            show _ = ofLines number [row.content]
            cases row.content <;> rfl
          · exact ofLines_lineEnd hcontent hending (hrest trivial)
      | cons next others => exact ofLines_lineEnd hcontent hended.1 (hrest hended.2)

end Listing

/-!
## Canonical forms

The canonical form of a command is one of its forms in the grammar.
-/

namespace Command

theorem isGap_space : Text.IsGap [' '] :=
  ⟨List.cons_ne_nil _ _, by simp⟩

theorem numeral_render (w : Word) : Text.Numeral w.render.toList w.toNat :=
  Text.word?_eq_some_iff.mp (Text.word?_render w)

theorem denotes_render {command : Command} (h : command.WellNamed) :
    Denotes command.render.toList command := by
  cases command with
  | operate op => exact .operate op
  | ret => exact .ret
  | push segment index =>
      simpa [render] using Denotes.push segment isGap_space isGap_space (numeral_render index)
  | pop segment index =>
      simpa [render] using Denotes.pop segment isGap_space isGap_space (numeral_render index)
  | label name => simpa [render] using Denotes.label isGap_space (Text.isName_iff.mp h)
  | goto name => simpa [render] using Denotes.goto isGap_space (Text.isName_iff.mp h)
  | ifGoto name => simpa [render] using Denotes.ifGoto isGap_space (Text.isName_iff.mp h)
  | function name locals =>
      simpa [render] using Denotes.function isGap_space isGap_space
        (Text.isName_iff.mp h) (numeral_render locals)
  | call name arguments =>
      simpa [render] using Denotes.call isGap_space isGap_space (Text.isName_iff.mp h)
        (numeral_render arguments)

theorem parse_render {command : Command} (h : command.WellNamed) (number : Nat) :
    parse number command.render = .ok command := by
  rw [parse, read?_eq_some_iff_denotes.mpr (denotes_render h)]

end Command

/-!
## The characters of a command

Within a command only the separators are blank, and it begins and ends with other characters.
-/

namespace Text

def isCommandChar (c : Char) : Bool :=
  isNameChar c || c == '-' || isSeparator c

theorem IsGap.all_isCommandChar {cs : List Char} (h : IsGap cs) :
    cs.all isCommandChar = true := by
  rw [List.all_eq_true]
  intro c hc
  simp [isCommandChar, isSeparator_iff.mpr (h.chars c hc)]

theorem IsIdentifier.all_isCommandChar {cs : List Char} (h : IsIdentifier cs) :
    cs.all isCommandChar = true := by
  rw [List.all_eq_true]
  intro c hc
  simp [isCommandChar, isNameChar_iff.mpr (h.chars c hc)]

theorem Numeral.all_isCommandChar {cs : List Char} {n : Nat} (h : Numeral cs n) :
    cs.all isCommandChar = true := by
  rw [List.all_eq_true]
  intro c hc
  simp [isCommandChar, isNameChar_of_isDigit (isDigit_iff.mpr (h.chars c hc))]

theorem isBlank_of_isCommandChar {c : Char} (h : isCommandChar c = true)
    (hc : isSeparator c = false) :
    isBlank c = false := by
  rw [isCommandChar, hc, Bool.or_false, Bool.or_eq_true, beq_iff_eq] at h
  rcases h with h | rfl
  · exact isBlank_of_isNameChar h
  · rfl

end Text

namespace Command.Denotes

variable {cs : List Char} {command : Command} (h : Denotes cs command)
include h

theorem all_isCommandChar : cs.all Text.isCommandChar = true := by
  cases h with
  | operate op => rcases op with op | op | op <;> cases op <;> rfl
  | ret => rfl
  | push segment hgap hspace hindex | pop segment hgap hspace hindex =>
      have hsegment : segment.spelling.toList.all Text.isCommandChar = true := by
        cases segment <;> rfl
      simp only [List.all_append, hgap.all_isCommandChar, hspace.all_isCommandChar, hsegment,
        hindex.all_isCommandChar]
      rfl
  | label hgap hname | goto hgap hname | ifGoto hgap hname =>
      simp only [List.all_append, hgap.all_isCommandChar, hname.all_isCommandChar]
      rfl
  | function hgap hspace hname hnumeral | call hgap hspace hname hnumeral =>
      simp only [List.all_append, hgap.all_isCommandChar, hspace.all_isCommandChar,
        hname.all_isCommandChar, hnumeral.all_isCommandChar]
      rfl

theorem not_mem {c : Char} (hc : Text.isCommandChar c = false) : c ∉ cs := by
  intro hmem
  rw [List.all_eq_true.mp h.all_isCommandChar c hmem] at hc
  cases hc

theorem exists_ends :
    ∃ first last, cs.head? = some first ∧ Text.isSeparator first = false ∧
      cs.getLast? = some last ∧ Text.isSeparator last = false := by
  have hends : ∀ {front back : List Char} {first : Char}, front.head? = some first →
      Text.isSeparator first = false → back ≠ [] →
      (∀ c ∈ back, Text.isSeparator c = false) →
      ∃ first last, (front ++ back).head? = some first ∧ Text.isSeparator first = false ∧
        (front ++ back).getLast? = some last ∧ Text.isSeparator last = false := by
    intro front back first hfirst hseparator hback hchars
    rcases List.eq_nil_or_concat' back with rfl | ⟨others, last, rfl⟩
    · exact absurd rfl hback
    · refine ⟨first, last, ?_, hseparator, ?_, hchars last (by simp)⟩
      · rw [List.head?_append, hfirst, Option.some_or]
      · rw [← List.append_assoc, List.getLast?_concat]
  cases h with
  | operate op => rcases op with op | op | op <;> cases op <;> exact ⟨_, _, rfl, rfl, rfl, rfl⟩
  | ret => exact ⟨_, _, rfl, rfl, rfl, rfl⟩
  | push segment _ _ hnumeral | pop segment _ _ hnumeral =>
      exact hends rfl rfl hnumeral.ne_nil hnumeral.not_isSeparator
  | label _ hname | goto _ hname | ifGoto _ hname =>
      exact hends rfl rfl hname.ne_nil hname.not_isSeparator
  | function _ _ _ hnumeral | call _ _ _ hnumeral =>
      exact hends rfl rfl hnumeral.ne_nil hnumeral.not_isSeparator

theorem ne_nil : cs ≠ [] := by
  rcases h.exists_ends with ⟨first, -, hfirst, -⟩
  rintro rfl
  cases hfirst

theorem trim_eq : Text.trim cs = cs := by
  have hchars := List.all_eq_true.mp h.all_isCommandChar
  rcases h.exists_ends with ⟨first, last, hfirst, hfirst', hlast, hlast'⟩
  have hend := Text.isBlank_of_isCommandChar (hchars last (List.mem_of_getLast? hlast)) hlast'
  cases cs with
  | nil => cases hfirst
  | cons c rest =>
      cases hfirst
      have hstart := Text.isBlank_of_isCommandChar (hchars first List.mem_cons_self) hfirst'
      exact Text.trim_eq_self hstart hlast hend

end Command.Denotes

/-!
## Rows that hold a command, and idle rows

Blanks and comments may stand around a command, or alone in an idle row.
-/

namespace Text

def IsBlankRun (cs : List Char) : Prop :=
  ∀ c ∈ cs, isBlank c = true ∧ c ≠ '\n'

/-- Nothing but blanks and a comment, both of which may be absent. -/
def Idle (content : List Char) : Prop :=
  ∃ blanks remark, IsBlankRun blanks ∧ IsRemark remark ∧ content = blanks ++ remark

/--
The canonical form of the command, with blanks around it and a comment behind it, all of
which may be absent.
-/
def Holds (content : List Char) (command : Command) : Prop :=
  ∃ before after remark, IsBlankRun before ∧ IsBlankRun after ∧ IsRemark remark ∧
    content = before ++ command.render.toList ++ after ++ remark

theorem IsBlankRun.slash_not_mem {cs : List Char} (h : IsBlankRun cs) : '/' ∉ cs := by
  intro hmem
  cases (h '/' hmem).1

theorem IsBlankRun.lineFeed_not_mem {cs : List Char} (h : IsBlankRun cs) : '\n' ∉ cs :=
  fun hmem => (h '\n' hmem).2 rfl

theorem IsRemark.lineFeed_not_mem {cs : List Char} (h : IsRemark cs) : '\n' ∉ cs := by
  rcases h with rfl | ⟨text, rfl, htext⟩
  · simp
  · simp [htext]

theorem Idle.clean_eq {content : List Char} (h : Idle content) : clean content = [] := by
  rcases h with ⟨blanks, remark, hblanks, hremark, rfl⟩
  rw [clean, beforeComment_append_remark hblanks.slash_not_mem hremark]
  exact trim_eq_nil (List.all_eq_true.mpr fun c hc => (hblanks c hc).1)

theorem Idle.lineFeed_not_mem {content : List Char} (h : Idle content) : '\n' ∉ content := by
  rcases h with ⟨blanks, remark, hblanks, hremark, rfl⟩
  simp [hblanks.lineFeed_not_mem, hremark.lineFeed_not_mem]

theorem Holds.clean_eq {content : List Char} {command : Command} (h : Holds content command)
    (hcommand : command.WellNamed) : clean content = command.render.toList := by
  rcases h with ⟨before, after, remark, hbefore, hafter, hremark, rfl⟩
  have hdenotes := Command.denotes_render hcommand
  have hslash : '/' ∉ before ++ command.render.toList ++ after := by
    simp [hbefore.slash_not_mem, hafter.slash_not_mem, hdenotes.not_mem (c := '/') rfl]
  rw [clean, beforeComment_append_remark hslash hremark,
    trim_surrounded (fun c hc => (hbefore c hc).1)
      (fun c hc => (hafter c hc).1), hdenotes.trim_eq]

theorem Holds.lineFeed_not_mem {content : List Char} {command : Command}
    (h : Holds content command) (hcommand : command.WellNamed) : '\n' ∉ content := by
  rcases h with ⟨before, after, remark, hbefore, hafter, hremark, rfl⟩
  simp [hbefore.lineFeed_not_mem, hafter.lineFeed_not_mem, hremark.lineFeed_not_mem,
    (Command.denotes_render hcommand).not_mem (c := '\n') rfl]

end Text

/-!
## Reading a listing back

Each command is found in the row of its number, and the rows between are skipped.
-/

namespace Listing

structure Numbered (listing : Listing) : Prop where
  positive : ∀ line ∈ listing, 1 ≤ line.number
  increasing : listing.Pairwise fun first second => first.number < second.number

/-- Each command stands in the row of its number, and the other rows are idle. -/
structure LaidOut (listing : Listing) (rows : List Row) : Prop where
  ended : Row.Ended rows
  within : ∀ line ∈ listing, line.number ≤ rows.length
  holds : ∀ i row line, rows[i]? = some row → line ∈ listing → line.number = i + 1 →
    Text.Holds row.content line.command
  idle : ∀ i row, rows[i]? = some row → (∀ line ∈ listing, line.number ≠ i + 1) →
    Text.Idle row.content

/-- The lines stand in the given contents, of which the first one has the given number. -/
structure SetFrom (number : Nat) (listing : Listing) (contents : List (List Char)) : Prop where
  wellNamed : ∀ line ∈ listing, line.command.WellNamed
  increasing : listing.Pairwise fun first second => first.number < second.number
  after : ∀ line ∈ listing, number ≤ line.number
  before : ∀ line ∈ listing, line.number < number + contents.length
  holds : ∀ i content line, contents[i]? = some content → line ∈ listing →
    line.number = number + i →
    Text.Holds content line.command
  idle : ∀ i content, contents[i]? = some content →
    (∀ line ∈ listing, line.number ≠ number + i) → Text.Idle content

theorem SetFrom.tail {number : Nat} {listing others : Listing} {content : List Char}
    {rest : List (List Char)} (h : SetFrom number listing (content :: rest))
    (hsublist : others.Sublist listing)
    (hfirst : ∀ line ∈ listing, line ∈ others ∨ line.number = number)
    (hlater : ∀ line ∈ others, number + 1 ≤ line.number) :
    SetFrom (number + 1) others rest := by
  have hmem : ∀ line ∈ others, line ∈ listing := fun line hline => hsublist.subset hline
  refine ⟨?_, h.increasing.sublist hsublist, hlater, ?_, ?_, ?_⟩
  · intro line hline
    exact h.wellNamed line (hmem line hline)
  · intro line hline
    have hbefore := h.before line (hmem line hline)
    rw [List.length_cons] at hbefore
    omega
  · intro i other line hother hline hnumber
    exact h.holds (i + 1) other line hother (hmem line hline) (by omega)
  · intro i other hother hnone
    apply h.idle (i + 1) other hother
    intro line hline
    rcases hfirst line hline with hline | hnumber
    · have hne := hnone line hline
      omega
    · omega

theorem SetFrom.ofLines_eq {number : Nat} {listing : Listing} {contents : List (List Char)}
    (h : SetFrom number listing contents) : ofLines number contents = .ok listing := by
  induction contents generalizing number listing with
  | nil =>
      cases listing with
      | nil => rfl
      | cons line others =>
          have hafter := h.after line List.mem_cons_self
          have hbefore := h.before line List.mem_cons_self
          simp only [List.length_nil] at hbefore
          omega
  | cons content rest ih =>
      by_cases hnumber : ∃ line others, listing = line :: others ∧ line.number = number
      · rcases hnumber with ⟨line, others, rfl, hnumber⟩
        have hcommand := h.wellNamed line List.mem_cons_self
        have hclean :=
          (h.holds 0 content line rfl List.mem_cons_self hnumber).clean_eq hcommand
        have hdenotes := Command.denotes_render hcommand
        have htail : SetFrom (number + 1) others rest := by
          apply h.tail (List.sublist_cons_self line others)
          · intro other hother
            rcases List.mem_cons.mp hother with rfl | hother
            · exact Or.inr hnumber
            · exact Or.inl hother
          · intro other hother
            have hlt := List.rel_of_pairwise_cons h.increasing hother
            omega
        rw [ofLines, hclean, if_neg hdenotes.ne_nil,
          Command.read?_eq_some_iff_denotes.mpr hdenotes, ih htail, ← hnumber]
        rfl
      · -- The first line comes later, and so do all others.
        have hlater : ∀ line ∈ listing, number + 1 ≤ line.number := by
          intro line hline
          cases listing with
          | nil => cases hline
          | cons first others =>
              have hfirst := h.after first List.mem_cons_self
              have hne : first.number ≠ number := fun heq => hnumber ⟨first, others, rfl, heq⟩
              rcases List.mem_cons.mp hline with rfl | hline
              · omega
              · have hlt := List.rel_of_pairwise_cons h.increasing hline
                omega
        have hidle : Text.Idle content := by
          apply h.idle 0 content rfl
          intro line hline
          have hlt := hlater line hline
          omega
        rw [ofLines, if_pos hidle.clean_eq]
        exact ih (h.tail (List.Sublist.refl _) (fun line hline => Or.inl hline) hlater)

theorem LaidOut.setFrom {listing : Listing} {rows : List Row} (h : listing.LaidOut rows)
    (hnumbered : listing.Numbered) (hnames : ∀ line ∈ listing, line.command.WellNamed) :
    SetFrom 1 listing (rows.map Row.content) := by
  have hrow : ∀ {i : Nat} {content : List Char}, (rows.map Row.content)[i]? = some content →
      ∃ row : Row, rows[i]? = some row ∧ content = row.content := by
    intro i content hcontent
    rw [List.getElem?_map, Option.map_eq_some_iff] at hcontent
    rcases hcontent with ⟨row, hrow, rfl⟩
    exact ⟨row, hrow, rfl⟩
  refine ⟨hnames, hnumbered.increasing, hnumbered.positive, ?_, ?_, ?_⟩
  · intro line hline
    have hwithin := h.within line hline
    rw [List.length_map]
    omega
  · intro i content line hcontent hline hnumber
    rcases hrow hcontent with ⟨row, hrow, rfl⟩
    exact h.holds i row line hrow hline (by omega)
  · intro i content hcontent hnone
    rcases hrow hcontent with ⟨row, hrow, rfl⟩
    apply h.idle i row hrow
    intro line hline
    have hne := hnone line hline
    omega

theorem LaidOut.lineFeed_not_mem {listing : Listing} {rows : List Row}
    (h : listing.LaidOut rows) (hnames : ∀ line ∈ listing, line.command.WellNamed) :
    ∀ row ∈ rows, '\n' ∉ row.content := by
  intro row hrow
  rcases List.mem_iff_getElem?.mp hrow with ⟨i, hi⟩
  by_cases hline : ∃ line ∈ listing, line.number = i + 1
  · rcases hline with ⟨line, hline, hnumber⟩
    exact (h.holds i row line hi hline hnumber).lineFeed_not_mem (hnames line hline)
  · apply (h.idle i row hi ?_).lineFeed_not_mem
    intro line hmem hnumber
    exact hline ⟨line, hmem, hnumber⟩

theorem parse_of_laidOut {listing : Listing} {rows : List Row} (h : listing.LaidOut rows)
    (hnumbered : listing.Numbered) (hnames : ∀ line ∈ listing, line.command.WellNamed) :
    parse (String.ofList (Row.text rows)) = .ok listing := by
  rw [parse, String.toList_ofList, ofLines_text h.ended (h.lineFeed_not_mem hnames)]
  exact (h.setFrom hnumbered hnames).ofLines_eq

/-!
## Setting a listing again

Every listing can be set, for instance with nothing but the canonical forms of its commands.
-/

theorem numbered_of_ofLines {number : Nat} {lines : List (List Char)} {listing : Listing}
    (h : ofLines number lines = .ok listing) :
    (∀ line ∈ listing, number ≤ line.number) ∧
      listing.Pairwise fun first second => first.number < second.number := by
  induction lines generalizing number listing with
  | nil =>
      cases h
      exact ⟨fun line hline => absurd hline List.not_mem_nil, List.Pairwise.nil⟩
  | cons text rest ih =>
      rw [ofLines] at h
      split at h
      · rcases ih h with ⟨hafter, hincreasing⟩
        exact ⟨fun line hline => Nat.le_of_succ_le (hafter line hline), hincreasing⟩
      · split at h
        · cases h
        · next command hcommand =>
            cases hrest : ofLines (number + 1) rest with
            | error error =>
                rw [hrest] at h
                cases h
            | ok others =>
                rw [hrest] at h
                cases h
                rcases ih hrest with ⟨hafter, hincreasing⟩
                constructor
                · intro line hline
                  rcases List.mem_cons.mp hline with rfl | hline
                  · exact Nat.le_refl _
                  · exact Nat.le_of_succ_le (hafter line hline)
                · exact List.pairwise_cons.mpr ⟨hafter, hincreasing⟩

theorem numbered_of_parse {source : String} {listing : Listing}
    (h : parse source = .ok listing) : listing.Numbered :=
  ⟨(numbered_of_ofLines h).1, (numbered_of_ofLines h).2⟩

def contentAt (listing : Listing) (number : Nat) : List Char :=
  match listing.find? (fun line => line.number = number) with
  | some line => line.command.render.toList
  | none => []

def rows (listing : Listing) : List Row :=
  (List.range ((listing.getLast?.map NumberedCommand.number).getD 0)).map fun i =>
    ⟨listing.contentAt (i + 1), ['\n']⟩

theorem Numbered.eq_of_number {listing : Listing} (h : listing.Numbered)
    {first second : NumberedCommand} (hfirst : first ∈ listing) (hsecond : second ∈ listing)
    (hnumber : first.number = second.number) :
    first = second := by
  have hnodup : (listing.map NumberedCommand.number).Nodup :=
    List.pairwise_map.mpr (h.increasing.imp fun hlt => Nat.ne_of_lt hlt)
  exact List.inj_on_of_nodup_map hnodup hfirst hsecond hnumber

theorem Numbered.contentAt_eq {listing : Listing} (h : listing.Numbered)
    {line : NumberedCommand} (hline : line ∈ listing) :
    listing.contentAt line.number = line.command.render.toList := by
  rw [contentAt]
  cases hfind : listing.find? (fun other => other.number = line.number) with
  | none =>
      have hnone := List.find?_eq_none.mp hfind line hline
      simp at hnone
  | some other =>
      have hnumber : other.number = line.number := by
        simpa using List.find?_some hfind
      rw [h.eq_of_number (List.mem_of_find?_eq_some hfind) hline hnumber]

theorem contentAt_of_absent {listing : Listing} {number : Nat}
    (h : ∀ line ∈ listing, line.number ≠ number) :
    listing.contentAt number = [] := by
  have hfind : listing.find? (fun line => line.number = number) = none := by
    rw [List.find?_eq_none]
    intro line hline
    simpa using h line hline
  rw [contentAt, hfind]

theorem Numbered.number_le_last {listing : Listing} (h : listing.Numbered)
    {line : NumberedCommand} (hline : line ∈ listing) :
    line.number ≤ (listing.getLast?.map NumberedCommand.number).getD 0 := by
  rcases List.eq_nil_or_concat listing with rfl | ⟨front, last, rfl⟩
  · cases hline
  · have hincreasing := h.increasing
    simp only [List.concat_eq_append] at hline hincreasing ⊢
    rw [List.getLast?_concat]
    rcases List.mem_append.mp hline with hline | hline
    · exact Nat.le_of_lt
        ((List.pairwise_append.mp hincreasing).2.2 line hline last List.mem_cons_self)
    · rw [List.mem_singleton.mp hline]
      exact Nat.le_refl _

theorem Numbered.laidOut_rows {listing : Listing} (h : listing.Numbered) :
    listing.LaidOut listing.rows := by
  have hcontent : ∀ {i : Nat} {row : Row}, listing.rows[i]? = some row →
      row.content = listing.contentAt (i + 1) := by
    intro i row hrow
    rw [rows, List.getElem?_map, Option.map_eq_some_iff] at hrow
    rcases hrow with ⟨j, hj, rfl⟩
    rcases List.getElem?_eq_some_iff.mp hj with ⟨_, rfl⟩
    rw [List.getElem_range]
  refine ⟨?_, ?_, ?_, ?_⟩
  · apply Row.ended_of_forall
    intro row hrow
    rcases List.mem_map.mp hrow with ⟨i, -, rfl⟩
    exact Or.inl rfl
  · intro line hline
    rw [rows, List.length_map, List.length_range]
    exact h.number_le_last hline
  · intro i row line hrow hline hnumber
    refine ⟨[], [], [], ?_, ?_, Or.inl rfl, ?_⟩
    · exact fun c hc => absurd hc List.not_mem_nil
    · exact fun c hc => absurd hc List.not_mem_nil
    · rw [hcontent hrow, ← hnumber, h.contentAt_eq hline]
      simp
  · intro i row hrow hnone
    refine ⟨[], [], ?_, Or.inl rfl, ?_⟩
    · exact fun c hc => absurd hc List.not_mem_nil
    · rw [hcontent hrow, contentAt_of_absent hnone]
      rfl

/--
Whatever way a listing is set as a source text, parsing finds exactly that listing again.  So
a listing that was parsed can be set anew, with each command on its line, and be parsed to
the same result.
-/
theorem parse_inverts_setting :
    (∀ (listing : Listing) (rows : List Row),
      listing.Numbered → (∀ line ∈ listing, line.command.WellNamed) → listing.LaidOut rows →
        parse (String.ofList (Row.text rows)) = .ok listing) ∧
    (∀ (source : String) (listing : Listing), parse source = .ok listing →
      listing.LaidOut listing.rows ∧
        parse (String.ofList (Row.text listing.rows)) = .ok listing ∧
        ∀ rows, listing.LaidOut rows →
          parse (String.ofList (Row.text rows)) = .ok listing) := by
  constructor
  · intro listing rows hnumbered hnames hrows
    exact parse_of_laidOut hrows hnumbered hnames
  · intro source listing hparse
    have hnumbered := numbered_of_parse hparse
    have hnames : ∀ line ∈ listing, line.command.WellNamed := wellNamed_of_ofLines hparse
    refine ⟨hnumbered.laidOut_rows, ?_, ?_⟩
    · exact parse_of_laidOut hnumbered.laidOut_rows hnumbered hnames
    · intro rows hrows
      exact parse_of_laidOut hrows hnumbered hnames

/--
A command behind a heading, an empty line and blanks, a comment behind it, and both kinds of
line ends.
-/
def headedRows : List Row :=
  [⟨"// heading".toList, ['\n']⟩, ⟨[], ['\r', '\n']⟩,
    ⟨"  push constant 7   // seven".toList, ['\r', '\n']⟩,
    ⟨"\tlabel a.b\u00a0".toList, []⟩]

def headedListing : Listing :=
  [⟨3, .push .constant 7⟩, ⟨4, .label "a.b"⟩]

theorem headedListing_laidOut : headedListing.LaidOut headedRows := by
  refine ⟨⟨Or.inl rfl, Or.inr rfl, Or.inr rfl, Or.inl rfl⟩, ?_, ?_, ?_⟩
  · simp [headedListing, headedRows]
  · intro i row line hrow hline hnumber
    simp only [headedListing, List.mem_cons, List.not_mem_nil, or_false] at hline
    rcases hline with rfl | rfl
    · obtain rfl : i = 2 := by simpa using hnumber.symm
      cases hrow
      refine ⟨[' ', ' '], [' ', ' ', ' '], "// seven".toList, ?_, ?_,
        Or.inr ⟨" seven".toList, rfl, ?_⟩, rfl⟩
      · simp [Text.IsBlankRun, Text.isBlank, Text.blankRanges]
      · simp [Text.IsBlankRun, Text.isBlank, Text.blankRanges]
      · simp
    · obtain rfl : i = 3 := by simpa using hnumber.symm
      cases hrow
      refine ⟨['\t'], ['\u00a0'], [], ?_, ?_, Or.inl rfl, rfl⟩
      · simp [Text.IsBlankRun, Text.isBlank, Text.blankRanges]
      · simp [Text.IsBlankRun, Text.isBlank, Text.blankRanges]
  · intro i row hrow hnone
    rcases i with _ | _ | _ | _ | i
    · cases hrow
      exact ⟨[], "// heading".toList, by simp [Text.IsBlankRun],
        Or.inr ⟨" heading".toList, rfl, by simp⟩, rfl⟩
    · cases hrow
      exact ⟨[], [], by simp [Text.IsBlankRun], Or.inl rfl, rfl⟩
    · exact absurd rfl (hnone ⟨3, .push .constant 7⟩ (by simp [headedListing]))
    · exact absurd rfl (hnone ⟨4, .label "a.b"⟩ (by simp [headedListing]))
    · cases hrow

theorem headedListing_parsed :
    parse "// heading\n\r\n  push constant 7   // seven\r\n\tlabel a.b\u00a0" =
      .ok headedListing ∧
    parse "\n\npush constant 7\nlabel a.b\n" = .ok headedListing := by
  have hnumbered : headedListing.Numbered := by
    constructor <;> simp [headedListing]
  have hnames : ∀ line ∈ headedListing, line.command.WellNamed := by
    simp [headedListing, Command.WellNamed]
    rfl
  have hfirst := parse_inverts_setting.1 headedListing headedRows hnumbered
    hnames headedListing_laidOut
  exact ⟨hfirst, (parse_inverts_setting.2 _ _ hfirst).2.1⟩

end Listing
end HackVM
