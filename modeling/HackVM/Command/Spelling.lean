import HackVM.Command.Basic
import HackVM.Text.Decimal
import HackVM.Text.Reader
import HackVM.Text.Names

/-!
# How commands are written

The canonical form of a command puts one space between its words.  Reading accepts any run of
spaces and tabs there, and leading zeros in numerals.
-/

namespace HackVM

namespace Operation

def spelling : Operation → String
  | .binary .add => "add"
  | .binary .sub => "sub"
  | .unary .neg => "neg"
  | .compare .eq => "eq"
  | .compare .gt => "gt"
  | .compare .lt => "lt"
  | .binary .and => "and"
  | .binary .or => "or"
  | .unary .not => "not"

instance : Spelled Operation where
  all := [.binary .add, .binary .sub, .unary .neg, .compare .eq, .compare .gt,
    .compare .lt, .binary .and,
    .binary .or, .unary .not]
  spell := spelling
  mem_all := by rintro (op | op | op) <;> cases op <;> decide
  nodup_spell := by decide

end Operation

namespace Segment

def spelling : Segment → String
  | .constant => "constant"
  | .locals => "local"
  | .static => "static"
  | .argument => "argument"
  | .this => "this"
  | .that => "that"
  | .pointer => "pointer"
  | .temp => "temp"

instance : Spelled Segment where
  all := [.constant, .locals, .static, .argument, .this, .that, .pointer, .temp]
  spell := spelling
  mem_all := by intro s; cases s <;> decide
  nodup_spell := by decide

end Segment

namespace Command

def render : Command → String
  | .operate op => op.spelling
  | .push segment index => "push " ++ segment.spelling ++ " " ++ index.render
  | .pop segment index => "pop " ++ segment.spelling ++ " " ++ index.render
  | .label name => "label " ++ name
  | .goto name => "goto " ++ name
  | .ifGoto name => "if-goto " ++ name
  | .function name locals => "function " ++ name ++ " " ++ locals.render
  | .call name arguments => "call " ++ name ++ " " ++ arguments.render
  | .ret => "return"

end Command

/-!
## Reading

A line is read from its front: a keyword, and then gaps and operands in turn.  The forms of
commands are tried one after the other, and the form that is found has to take the whole
line.
-/

namespace Reader

def gap : Reader (List Char) :=
  longest Text.isSeparator

def numeral : Reader Word := do
  let digits ← longest Char.isDigit
  StateT.lift (Text.word? digits)

def name : Reader String := do
  let chars ← longest Text.isNameChar
  if chars.head?.any Char.isDigit then failure else return String.ofList chars

end Reader

namespace Command

def labelled (keyword : String) (make : String → Command) : Reader Command := do
  Reader.tag keyword
  let _ ← Reader.gap
  return make (← Reader.name)

def counted {α : Type} (keyword : String) (target : Reader α) (make : α → Word → Command) :
    Reader Command := do
  Reader.tag keyword
  let _ ← Reader.gap
  let x ← target
  let _ ← Reader.gap
  return make x (← Reader.numeral)

def branches : List (Reader Command) :=
  [labelled "label" .label, labelled "goto" .goto, labelled "if-goto" .ifGoto]

def forms : List (Reader Command) :=
  [counted "push" Reader.spelled .push, counted "pop" Reader.spelled .pop,
    .operate <$> Reader.spelled, Reader.firstOf branches,
    counted "function" Reader.name .function, counted "call" Reader.name .call,
    (fun _ => .ret) <$> Reader.tag "return"]

def reader : Reader Command :=
  Reader.firstOf forms

def read? (line : List Char) : Option Command :=
  reader.whole line

end Command
end HackVM
