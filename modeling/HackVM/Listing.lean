import HackVM.Command.Spelling
import HackVM.Text.Lines

/-!
# Listings

A source text holds at most one command a line.  Reading keeps the number of every line that
holds one, counted from 1, and stops at the first line that holds something else.
-/

namespace HackVM

structure ParseError where
  line : Nat
  text : String
deriving DecidableEq

def ParseError.message (e : ParseError) : String :=
  "line " ++ Nat.repr e.line ++ ": cannot parse `" ++ e.text ++ "`"

def Command.parse (number : Nat) (line : String) : Except ParseError Command :=
  match Command.read? line.toList with
  | some command => .ok command
  | none => .error { line := number, text := line }

structure NumberedCommand where
  number : Nat
  command : Command
deriving DecidableEq

abbrev Listing := List NumberedCommand

namespace Listing

/--
Reads lines that are numbered from the given number.  Lines without content are skipped; a
line that cannot be read is reported with its comment.
-/
def ofLines : Nat → List (List Char) → Except ParseError Listing
  | _, [] => .ok []
  | number, line :: rest =>
      if Text.clean line = [] then ofLines (number + 1) rest
      else
        match Command.read? (Text.clean line) with
        | none => .error { line := number, text := String.ofList (Text.trim line) }
        | some command => (ofLines (number + 1) rest).map (⟨number, command⟩ :: ·)

def parse (source : String) : Except ParseError Listing :=
  ofLines 1 (Text.lines source.toList)

end Listing
end HackVM
