import HackVM.Text.Blank

/-!
# Lines and comments

A text is cut into lines at line feeds.  A carriage return directly before the line feed
belongs to the line end, and a text that ends in a line feed has no further, empty line.
Within a line, two slashes start a comment.
-/

namespace HackVM
namespace Text

def dropReturn (cs : List Char) : List Char :=
  if cs.getLast? = some '\r' then cs.dropLast else cs

/--
Turns the pieces between line feeds into lines: every piece but the last was ended by a line
feed, and the last one is a line only if it holds a character.
-/
def closeLines : List (List Char) → List (List Char)
  | [] => []
  | [last] => if last.isEmpty then [] else [last]
  | piece :: rest => dropReturn piece :: closeLines rest

def lines (cs : List Char) : List (List Char) :=
  closeLines (cs.splitOn '\n')

def beforeComment : List Char → List Char
  | [] => []
  | '/' :: '/' :: _ => []
  | c :: cs => c :: beforeComment cs

def clean (cs : List Char) : List Char :=
  trim (beforeComment cs)

theorem clean_of_comment (cs : List Char) : clean ('/' :: '/' :: cs) = [] := rfl

end Text
end HackVM
