import HackVM.Proofs.Typesetting

/-!
# Sources line by line

Reading a source goes through its lines in order, so that a text which is cut between two
lines can be read in two parts.  From this follow what is reported about a text that cannot
be read, namely the first of its lines that holds something else than a command, and what the
lines before a given command hold.
-/

namespace HackVM

theorem exists_first_failing {α : Type} {p : α → Prop} {xs : List α} (h : ¬ ∀ x ∈ xs, p x) :
    ∃ before x after, xs = before ++ x :: after ∧ (∀ y ∈ before, p y) ∧ ¬ p x := by
  induction xs with
  | nil => exact absurd (List.forall_mem_nil p) h
  | cons x xs ih =>
      by_cases hx : p x
      · have hrest : ¬ ∀ y ∈ xs, p y := fun hxs => h (List.forall_mem_cons.mpr ⟨hx, hxs⟩)
        rcases ih hrest with ⟨before, y, after, rfl, hbefore, hy⟩
        exact ⟨x :: before, y, after, rfl, List.forall_mem_cons.mpr ⟨hx, hbefore⟩, hy⟩
      · exact ⟨[], x, xs, rfl, List.forall_mem_nil p, hx⟩

theorem filter_append_eq_left {α : Type} {p : α → Bool} {first second : List α}
    (hfirst : ∀ x ∈ first, p x = true) (hsecond : ∀ x ∈ second, p x = false) :
    (first ++ second).filter p = first := by
  rw [List.filter_append, List.filter_eq_self.mpr hfirst,
    List.filter_eq_nil_iff.mpr, List.append_nil]
  intro x hx
  simp [hsecond x hx]

namespace Text

/-- A line that has content, but holds no command. -/
structure Unreadable (line : List Char) : Prop where
  content : clean line ≠ []
  noCommand : ∀ command, ¬ Command.Denotes (clean line) command

theorem unreadable_iff {line : List Char} :
    Unreadable line ↔ clean line ≠ [] ∧ Command.read? (clean line) = none := by
  rw [Option.eq_none_iff_forall_ne_some]
  simp only [ne_eq, Command.read?_eq_some_iff_denotes]
  exact ⟨fun h => ⟨h.content, h.noCommand⟩, fun h => ⟨h.1, h.2⟩⟩

instance : DecidablePred Unreadable :=
  fun _ => decidable_of_iff _ unreadable_iff.symm

end Text

/-!
## Reading in parts

What is reported is the first line that cannot be read, with its number.
-/

namespace Listing

theorem ofLines_append (number : Nat) (first second : List (List Char)) :
    ofLines number (first ++ second) =
      (ofLines number first).bind fun front =>
        (ofLines (number + first.length) second).map (front ++ ·) := by
  induction first generalizing number with
  | nil =>
      rw [List.nil_append, List.length_nil, Nat.add_zero]
      cases h : ofLines number second <;> simp [ofLines, Except.bind, Except.map]
  | cons line rest ih =>
      have hnumber : number + (line :: rest).length = number + 1 + rest.length := by
        rw [List.length_cons]
        omega
      rw [List.cons_append, ofLines, ofLines, ih (number + 1), hnumber]
      split
      · rfl
      · cases Command.read? (Text.clean line) with
        | none => rfl
        | some command =>
            cases ofLines (number + 1) rest with
            | error error => rfl
            | ok front => cases ofLines (number + 1 + rest.length) second <;> rfl

theorem ofLines_append_ok {number : Nat} {first second : List (List Char)} {listing : Listing}
    (h : ofLines number (first ++ second) = .ok listing) :
    ∃ front back, ofLines number first = .ok front ∧
      ofLines (number + first.length) second = .ok back ∧
      listing = front ++ back := by
  rw [ofLines_append] at h
  cases hfirst : ofLines number first with
  | error error =>
      rw [hfirst] at h
      cases h
  | ok front =>
      cases hsecond : ofLines (number + first.length) second with
      | error error =>
          rw [hfirst, Except.bind, hsecond] at h
          cases h
      | ok back =>
          rw [hfirst, Except.bind, hsecond] at h
          cases h
          exact ⟨front, back, rfl, rfl, rfl⟩

theorem ofLines_of_readable {lines : List (List Char)}
    (h : ∀ line ∈ lines, ¬ Text.Unreadable line) (number : Nat) :
    ∃ listing, ofLines number lines = .ok listing := by
  induction lines generalizing number with
  | nil => exact ⟨[], rfl⟩
  | cons line rest ih =>
      rcases ih (fun other hother => h other (List.mem_cons_of_mem _ hother)) (number + 1) with
        ⟨listing, hlisting⟩
      have hline := h line List.mem_cons_self
      rw [Text.unreadable_iff] at hline
      rw [ofLines, hlisting]
      split
      · exact ⟨listing, rfl⟩
      · next hcontent =>
          cases hread : Command.read? (Text.clean line) with
          | none => exact absurd ⟨hcontent, hread⟩ hline
          | some command => exact ⟨⟨number, command⟩ :: listing, rfl⟩

theorem ofLines_of_unreadable {good rest : List (List Char)} {bad : List Char}
    (hgood : ∀ line ∈ good, ¬ Text.Unreadable line) (hbad : Text.Unreadable bad)
    (number : Nat) :
    ofLines number (good ++ bad :: rest) =
      .error ⟨number + good.length, String.ofList (Text.trim bad)⟩ := by
  rcases ofLines_of_readable hgood number with ⟨front, hfront⟩
  rcases Text.unreadable_iff.mp hbad with ⟨hcontent, hread⟩
  rw [ofLines_append, hfront]
  simp [Except.bind, ofLines, hcontent, hread, Except.map]

theorem parse_of_unreadable {source : String} {good rest : List (List Char)} {bad : List Char}
    (hlines : Text.lines source.toList = good ++ bad :: rest)
    (hgood : ∀ line ∈ good, ¬ Text.Unreadable line) (hbad : Text.Unreadable bad) :
    parse source = .error ⟨good.length + 1, String.ofList (Text.trim bad)⟩ := by
  rw [parse, hlines, ofLines_of_unreadable hgood hbad, Nat.add_comm]

theorem exists_unreadable_of_parse {source : String} {error : ParseError}
    (h : parse source = .error error) :
    ∃ good bad rest, Text.lines source.toList = good ++ bad :: rest ∧
      (∀ line ∈ good, ¬ Text.Unreadable line) ∧
      Text.Unreadable bad := by
  have hsome : ¬ ∀ line ∈ Text.lines source.toList, ¬ Text.Unreadable line := by
    intro hall
    rcases ofLines_of_readable hall 1 with ⟨listing, hlisting⟩
    rw [parse, hlisting] at h
    cases h
  rcases exists_first_failing hsome with ⟨good, bad, rest, hlines, hgood, hbad⟩
  exact ⟨good, bad, rest, hlines, hgood, Classical.not_not.mp hbad⟩

/-!
## The lines before a command

The number of a command tells on which line it stands, and the lines before it hold the
commands before it.
-/

theorem exists_line_of_ofLines {number : Nat} {lines : List (List Char)} {listing : Listing}
    (h : ofLines number lines = .ok listing) :
    ∀ line ∈ listing, ∃ n text, line.number = number + n ∧ lines[n]? = some text ∧
      Command.read? (Text.clean text) = some line.command := by
  induction lines generalizing number listing with
  | nil =>
      cases h
      exact List.forall_mem_nil _
  | cons first rest ih =>
      have hlater : ∀ {others : Listing}, ofLines (number + 1) rest = .ok others →
          ∀ line ∈ others, ∃ n text, line.number = number + n ∧
            (first :: rest)[n]? = some text ∧
            Command.read? (Text.clean text) = some line.command := by
        intro others hothers line hline
        rcases ih hothers line hline with ⟨n, text, hnumber, htext, hread⟩
        exact ⟨n + 1, text, by omega, htext, hread⟩
      rw [ofLines] at h
      split at h
      · exact hlater h
      · split at h
        · cases h
        · next command hcommand =>
            cases hrest : ofLines (number + 1) rest with
            | error error =>
                rw [hrest] at h
                cases h
            | ok others =>
                rw [hrest] at h
                cases h
                exact List.forall_mem_cons.mpr ⟨⟨0, first, rfl, rfl, hcommand⟩, hlater hrest⟩

theorem number_lt_of_ofLines {number : Nat} {lines : List (List Char)} {listing : Listing}
    (h : ofLines number lines = .ok listing) :
    ∀ line ∈ listing, line.number < number + lines.length := by
  intro line hline
  rcases exists_line_of_ofLines h line hline with ⟨n, text, hnumber, htext, -⟩
  have hn : n < lines.length := (List.getElem?_eq_some_iff.mp htext).1
  omega

theorem ofLines_take {number : Nat} {lines : List (List Char)} {good rest : Listing}
    {line : NumberedCommand} (h : ofLines number lines = .ok (good ++ line :: rest)) :
    ofLines number (lines.take (line.number - number)) = .ok good := by
  have hnumbers := numbered_of_ofLines h
  have hincreasing := List.pairwise_append.mp hnumbers.2
  have hline : number ≤ line.number := hnumbers.1 line (by simp)
  have hlength : (lines.take (line.number - number)).length = line.number - number := by
    have hlast : line.number < number + lines.length := number_lt_of_ofLines h line (by simp)
    rw [List.length_take]
    omega
  rw [← List.take_append_drop (line.number - number) lines] at h
  rcases ofLines_append_ok h with ⟨first, second, hfirst, hsecond, hcut⟩
  rw [hlength] at hsecond
  -- Both cuts leave in front what has a smaller number than the command.
  have hleft : (first ++ second).filter (fun other => other.number < line.number) = first := by
    apply filter_append_eq_left
    · intro other hother
      have hlt := number_lt_of_ofLines hfirst other hother
      rw [decide_eq_true_eq]
      omega
    · intro other hother
      have hle := (numbered_of_ofLines hsecond).1 other hother
      rw [decide_eq_false_iff_not]
      omega
  have hright : (good ++ line :: rest).filter (fun other => other.number < line.number) =
      good := by
    apply filter_append_eq_left
    · intro other hother
      exact decide_eq_true (hincreasing.2.2 other hother line List.mem_cons_self)
    · intro other hother
      rw [decide_eq_false_iff_not]
      rcases List.mem_cons.mp hother with rfl | hother
      · exact Nat.lt_irrefl _
      · exact Nat.lt_asymm (List.rel_of_pairwise_cons hincreasing.2.1 hother)
  rw [hfirst, ← hleft, ← hcut, hright]

end Listing

namespace Text

def front : Nat → List Char → List Char
  | 0, _ => []
  | _ + 1, [] => []
  | n + 1, c :: cs => c :: (if c = '\n' then front n cs else front (n + 1) cs)

theorem front_of_unended (n : Nat) {content : List Char} (h : '\n' ∉ content) :
    front (n + 1) content = content := by
  induction content with
  | nil => rfl
  | cons c content ih =>
      rw [List.mem_cons, not_or] at h
      rw [front, if_neg (Ne.symm h.1), ih h.2]

theorem front_append_lineFeed (n : Nat) {content : List Char} (h : '\n' ∉ content)
    (rest : List Char) :
    front (n + 1) (content ++ '\n' :: rest) = content ++ '\n' :: front n rest := by
  induction content with
  | nil => rfl
  | cons c content ih =>
      rw [List.mem_cons, not_or] at h
      rw [List.cons_append, front, if_neg (Ne.symm h.1), ih h.2, List.cons_append]

theorem lines_front (n : Nat) (cs : List Char) : lines (front n cs) = (lines cs).take n := by
  induction n generalizing cs with
  | zero =>
      rw [front]
      rfl
  | succ n ih =>
      by_cases hend : '\n' ∈ cs
      · rcases List.eq_append_cons_of_mem hend with ⟨content, rest, rfl, hcontent⟩
        rw [front_append_lineFeed n hcontent, lines_append_lineFeed hcontent,
          lines_append_lineFeed hcontent, ih, List.take_succ_cons]
      · rw [front_of_unended n hend, lines_unended hend]
        split <;> simp

end Text

namespace Listing

theorem parse_front {source : String} {good rest : Listing} {line : NumberedCommand}
    (h : parse source = .ok (good ++ line :: rest)) :
    parse (String.ofList (Text.front (line.number - 1) source.toList)) = .ok good := by
  rw [parse, String.toList_ofList, Text.lines_front]
  exact ofLines_take h

end Listing
end HackVM
