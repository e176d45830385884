/-!
# Separators and names

The parts of a command are separated by spaces and tabs, and by no other blank.
-/

namespace HackVM
namespace Text

def isSeparator (c : Char) : Bool :=
  c == ' ' || c == '\t'

/-- The characters of names: ASCII letters and digits, and four marks. -/
def isNameChar (c : Char) : Bool :=
  c.isAlphanum || c == '_' || c == '.' || c == '$' || c == ':'

def isName : List Char → Bool
  | [] => false
  | c :: cs => !c.isDigit && (c :: cs).all isNameChar

end Text
end HackVM
