import HackVM.Proofs.LineByLine

/-!
# Sources put together

A source that ends where a line ends can be continued by any other source.  Its lines come
first, so its commands and its faults do too, and those of the continuation are found with
their numbers raised by the number of lines in front.  What is found on a line depends on
that line alone.
-/

namespace HackVM

/-!
## Lines of texts put together

A text that stops at the end of a line has as many lines as line feeds, and its lines come
before those of any continuation.
-/

namespace Text

def EndsLine (cs : List Char) : Prop :=
  cs = [] ∨ cs.getLast? = some '\n'

/-- Such a text is empty, or it has a first line and is followed by a text of the same kind. -/
@[elab_as_elim]
theorem EndsLine.line_induction {motive : (cs : List Char) → EndsLine cs → Prop}
    (nil : motive [] (Or.inl rfl))
    (line : ∀ content rest, '\n' ∉ content → ∀ hrest h, motive rest hrest →
      motive (content ++ '\n' :: rest) h)
    {cs : List Char} (h : EndsLine cs) : motive cs h := by
  induction hlength : cs.length using Nat.strongRecOn generalizing cs with
  | ind n ih =>
      rcases h with rfl | h
      · exact nil
      · rcases List.eq_append_cons_of_mem (List.mem_of_getLast? h) with
          ⟨content, rest, rfl, hcontent⟩
        have hrest : EndsLine rest := by
          cases rest with
          | nil => exact Or.inl rfl
          | cons c cs =>
              refine Or.inr ?_
              rw [← h, List.getLast?_append_cons, List.getLast?_cons_cons]
        have hshorter : rest.length < n := by
          rw [← hlength, List.length_append, List.length_cons]
          omega
        exact line content rest hcontent hrest (Or.inr h) (ih rest.length hshorter hrest rfl)

theorem lines_append {first : List Char} (h : EndsLine first) (second : List Char) :
    lines (first ++ second) = lines first ++ lines second := by
  induction h using EndsLine.line_induction with
  | nil => rfl
  | line content rest hcontent _ _ ih =>
      rw [List.append_assoc, List.cons_append, lines_append_lineFeed hcontent,
        lines_append_lineFeed hcontent, ih, List.cons_append]

theorem length_lines {cs : List Char} (h : EndsLine cs) :
    (lines cs).length = cs.count '\n' := by
  induction h using EndsLine.line_induction with
  | nil => rfl
  | line content rest hcontent _ _ ih =>
      rw [lines_append_lineFeed hcontent, List.length_cons, ih, List.count_append,
        List.count_eq_zero.mpr hcontent, List.count_cons_self, Nat.zero_add]

end Text

/-!
## Numbers of lines

With more lines in front, a command is found with its number raised and otherwise as before.
-/

theorem Command.parse_eq_ok_iff {number : Nat} {cs : List Char} {command : Command} :
    Command.parse number (String.ofList cs) = .ok command ↔
      Command.read? cs = some command := by
  rw [Command.parse, String.toList_ofList]
  cases Command.read? cs with
  | none => simp
  | some other => simp

def NumberedCommand.raise (count : Nat) (line : NumberedCommand) : NumberedCommand :=
  { line with number := line.number + count }

def ParseError.raise (count : Nat) (error : ParseError) : ParseError :=
  { error with line := error.line + count }

namespace Listing

def raise (count : Nat) (listing : Listing) : Listing :=
  listing.map (NumberedCommand.raise count)

theorem ofLines_add (number count : Nat) (lines : List (List Char)) :
    ofLines (number + count) lines =
      ((ofLines number lines).map (raise count)).mapError (ParseError.raise count) := by
  induction lines generalizing number with
  | nil => rfl
  | cons line rest ih =>
      rw [ofLines, ofLines, Nat.add_right_comm, ih]
      split
      · rfl
      · cases Command.read? (Text.clean line) with
        | none => rfl
        | some command => cases ofLines (number + 1) rest <;> rfl

theorem parse_append {first : String} (h : Text.EndsLine first.toList) (second : String) :
    parse (first ++ second) =
      (parse first).bind fun front =>
        (((parse second).map (raise (Text.lines first.toList).length)).mapError
          (ParseError.raise (Text.lines first.toList).length)).map (front ++ ·) := by
  rw [parse, String.toList_append, Text.lines_append h, ofLines_append, ofLines_add]
  rfl

end Listing

/-!
## What a line tells

A line with content is not left out of a listing, and the first one that is refused is
reported.
-/

namespace Text

def line? (source : String) : Nat → Option (List Char)
  | 0 => none
  | n + 1 => (lines source.toList)[n]?

/-- The line with the given number has content that is not accepted as a command. -/
def RefusedAt (source : String) (number : Nat) : Prop :=
  ∃ line, line? source number = some line ∧ clean line ≠ [] ∧
    ∀ command, Command.parse number (String.ofList (clean line)) ≠ .ok command

theorem refusedAt_succ_iff {source : String} {n : Nat} :
    RefusedAt source (n + 1) ↔
      ∃ line, (lines source.toList)[n]? = some line ∧ Unreadable line := by
  simp only [RefusedAt, line?, unreadable_iff, ne_eq, Command.parse_eq_ok_iff,
    Option.eq_none_iff_forall_ne_some]

end Text

namespace Listing

theorem first_refused_of_parse {source : String} {error : ParseError}
    (h : parse source = .error error) :
    Text.RefusedAt source error.line ∧ (∀ n < error.line, ¬ Text.RefusedAt source n) ∧
      ∃ line, Text.line? source error.line = some line ∧
        error.text = String.ofList (Text.trim line) := by
  rcases exists_unreadable_of_parse h with ⟨good, bad, rest, hlines, hgood, hbad⟩
  rw [parse_of_unreadable hlines hgood hbad] at h
  cases h
  have hline : (Text.lines source.toList)[good.length]? = some bad := by
    rw [hlines]
    simp
  refine ⟨Text.refusedAt_succ_iff.mpr ⟨bad, hline, hbad⟩, ?_, bad, hline, rfl⟩
  rintro (_ | n) hn hrefused
  · rcases hrefused with ⟨line, hnone, -⟩
    cases hnone
  · rcases Text.refusedAt_succ_iff.mp hrefused with ⟨line, hother, hunreadable⟩
    rw [hlines, List.getElem?_append_left (Nat.lt_of_succ_lt_succ hn)] at hother
    exact hgood line (List.mem_of_getElem? hother) hunreadable

theorem exists_command_of_ofLines {number n : Nat} {lines : List (List Char)}
    {listing : Listing} {line : List Char} (h : ofLines number lines = .ok listing)
    (hline : lines[n]? = some line) (hcontent : Text.clean line ≠ []) :
    ∃ command, ⟨number + n, command⟩ ∈ listing := by
  rcases List.getElem?_eq_some_iff.mp hline with ⟨hn, rfl⟩
  rw [← List.take_append_drop n lines, List.drop_eq_getElem_cons hn] at h
  rcases ofLines_append_ok h with ⟨front, back, -, hback, rfl⟩
  rw [List.length_take, Nat.min_eq_left (Nat.le_of_lt hn), ofLines, if_neg hcontent] at hback
  cases hread : Command.read? (Text.clean lines[n]) with
  | none =>
      rw [hread] at hback
      cases hback
  | some command =>
      rw [hread] at hback
      cases hrest : ofLines (number + n + 1) (lines.drop (n + 1)) with
      | error error =>
          rw [hrest] at hback
          cases hback
      | ok others =>
          rw [hrest] at hback
          cases hback
          exact ⟨command, List.mem_append_right _ List.mem_cons_self⟩

theorem exists_line_of_parse {source : String} {listing : Listing}
    (h : parse source = .ok listing) {entry : NumberedCommand} (hentry : entry ∈ listing) :
    ∃ line, Text.line? source entry.number = some line ∧ Text.clean line ≠ [] ∧
      Command.parse entry.number (String.ofList (Text.clean line)) = .ok entry.command := by
  rcases exists_line_of_ofLines h entry hentry with ⟨n, line, hnumber, hline, hread⟩
  have hcontent : Text.clean line ≠ [] := (Command.read?_eq_some_iff_denotes.mp hread).ne_nil
  refine ⟨line, ?_, hcontent, Command.parse_eq_ok_iff.mpr hread⟩
  rw [hnumber, Nat.add_comm]
  exact hline

theorem mem_numbers_of_parse {source : String} {listing : Listing}
    (h : parse source = .ok listing) (number : Nat) :
    number ∈ listing.map NumberedCommand.number ↔
      ∃ line, Text.line? source number = some line ∧ Text.clean line ≠ [] := by
  constructor
  · intro hnumber
    rcases List.mem_map.mp hnumber with ⟨entry, hentry, rfl⟩
    rcases exists_line_of_parse h hentry with ⟨line, hline, hcontent, -⟩
    exact ⟨line, hline, hcontent⟩
  · rintro ⟨line, hline, hcontent⟩
    cases number with
    | zero => cases hline
    | succ n =>
        rcases exists_command_of_ofLines h hline hcontent with ⟨command, hmem⟩
        exact List.mem_map.mpr ⟨_, hmem, Nat.add_comm 1 n⟩

/--
Reading goes line by line.  A source that ends where a line ends is read before whatever
follows it, and what follows is read as if it stood alone, but for the numbers.  In any
source, the first line with content that is no command is reported, and if there is none,
every line with content is found.
-/
theorem parse_goes_line_by_line {first : String}
    (h : first = "" ∨ first.toList.getLast? = some '\n') (second : String) :
    (∀ error, parse first = .error error → parse (first ++ second) = .error error) ∧
    (∀ front back, parse first = .ok front → parse second = .ok back →
      parse (first ++ second) = .ok (front ++ back.raise (Text.lines first.toList).length)) ∧
    (∀ front error, parse first = .ok front → parse second = .error error →
      parse (first ++ second) = .error (error.raise (Text.lines first.toList).length)) ∧
    (Text.lines first.toList).length = first.toList.count '\n' ∧
    (∀ source error, parse source = .error error →
      Text.RefusedAt source error.line ∧ (∀ n < error.line, ¬ Text.RefusedAt source n) ∧
        ∃ line, Text.line? source error.line = some line ∧
          error.text = String.ofList (Text.trim line)) ∧
    ∀ source listing, parse source = .ok listing →
      listing.Pairwise (fun entry later => entry.number < later.number) ∧
      (∀ number, number ∈ listing.map NumberedCommand.number ↔
        ∃ line, Text.line? source number = some line ∧ Text.clean line ≠ []) ∧
      ∀ entry ∈ listing, ∃ line, Text.line? source entry.number = some line ∧
        Command.parse entry.number (String.ofList (Text.clean line)) = .ok entry.command := by
  have hends : Text.EndsLine first.toList := by
    rcases h with rfl | h
    · exact Or.inl rfl
    · exact Or.inr h
  refine ⟨?_, ?_, ?_, Text.length_lines hends, ?_, ?_⟩
  · intro error hfirst
    rw [parse_append hends, hfirst]
    rfl
  · intro front back hfirst hsecond
    rw [parse_append hends, hfirst, hsecond]
    rfl
  · intro front error hfirst hsecond
    rw [parse_append hends, hfirst, hsecond]
    rfl
  · intro source error herror
    exact first_refused_of_parse herror
  · intro source listing hlisting
    refine ⟨(numbered_of_parse hlisting).increasing, mem_numbers_of_parse hlisting, ?_⟩
    intro entry hentry
    rcases exists_line_of_parse hlisting hentry with ⟨line, hline, -, hparse⟩
    exact ⟨line, hline, hparse⟩

/-- Both kinds of line ends, a comment line and an empty one. -/
def headedSource : String := "// head\r\npush constant 7\r\n\n"

/-- The last line is not ended, though it has a carriage return. -/
def faultySource : String := "add // plus\nfrobnicate // what\r"

theorem headedSource_continued :
    headedSource.toList.getLast? = some '\n' ∧
      parse headedSource = .ok [⟨2, .push .constant 7⟩] ∧
      parse faultySource = .error ⟨2, "frobnicate // what"⟩ ∧
      parse (headedSource ++ faultySource) = .error ⟨5, "frobnicate // what"⟩ := by
  have hlast : headedSource.toList.getLast? = some '\n' := by
    decide +kernel
  have hhead : parse headedSource = .ok [⟨2, .push .constant 7⟩] := by
    decide +kernel
  have hfault : parse faultySource = .error ⟨2, "frobnicate // what"⟩ := by
    decide +kernel
  have hlength : (Text.lines headedSource.toList).length = 3 := by
    decide +kernel
  have hboth := (parse_goes_line_by_line (Or.inr hlast) faultySource).2.2.1 _ _ hhead hfault
  rw [hlength] at hboth
  exact ⟨hlast, hhead, hfault, hboth⟩

end Listing
end HackVM
