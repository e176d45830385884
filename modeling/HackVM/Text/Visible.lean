/-!
# Visible text

What is left of a text that was written for a terminal when it goes elsewhere.  Control
sequences are dropped whole, and so are the control characters that stand alone, except for
those that lay the text out.

A control sequence begins with the escape character.  What follows it tells how far the
sequence reaches: to a single character, to the letter behind a row of parameters, or to the
terminator of a string.
-/

namespace HackVM
namespace Text

def isLayout (c : Char) : Bool :=
  c == '\t' || c == '\n' || c == '\x0c' || c == '\r'

def isVisible (c : Char) : Bool :=
  isLayout c || (' ' ≤ c && c != '\x7f')

def isEscape (c : Char) : Bool :=
  c == '\x1b'

def isCancel (c : Char) : Bool :=
  c == '\x18' || c == '\x1a'

inductive ControlSequence where
  | escape
  | escapeIntermediate
  | control
  | command
  | device
  | deviceParameters
  | deviceIntermediate
  | string
deriving DecidableEq

namespace ControlSequence

def isIntermediate (c : Char) : Bool :=
  ' ' ≤ c && c ≤ '/'

def isParameter (c : Char) : Bool :=
  '0' ≤ c && c ≤ '?'

def isPrivate (c : Char) : Bool :=
  '<' ≤ c && c ≤ '?'

def isFinal (c : Char) : Bool :=
  '@' ≤ c && c ≤ '~'

/-- The terminator of a string is one byte, and it counts within a longer character as well. -/
def hasTerminator (c : Char) : Bool :=
  (String.utf8EncodeChar c).contains 0x9c

def begun? (c : Char) : Option ControlSequence :=
  if c == '[' then some .control
  else if c == ']' then some .command
  else if c == 'P' then some .device
  else if c == 'X' || c == '^' || c == '_' then some .string
  else none

def next? (s : ControlSequence) (c : Char) : Option ControlSequence :=
  match s with
  | .escape =>
      if isIntermediate c then some .escapeIntermediate
      else if isParameter c || isFinal c then begun? c
      else some .escape
  | .escapeIntermediate =>
      if isParameter c || isFinal c then none else some .escapeIntermediate
  | .control => if isFinal c then none else some .control
  | .command => if c == '\x07' then none else some .command
  | .device =>
      if isIntermediate c then some .deviceIntermediate
      else if isParameter c then some .deviceParameters
      else if isFinal c then some .string
      else some .device
  | .deviceParameters =>
      if isIntermediate c then some .deviceIntermediate
      else if isPrivate c || isFinal c then some .string
      else some .deviceParameters
  | .deviceIntermediate =>
      if isParameter c || isFinal c then some .string else some .deviceIntermediate
  | .string => if hasTerminator c then none else some .string

def isOpen : ControlSequence → Bool
  | .escape | .escapeIntermediate | .control => true
  | _ => false

end ControlSequence

/--
Where a reader of a text stands: outside of control sequences, inside of one, or in text that
interrupts one.
-/
inductive View where
  | plain
  | inside (sequence : ControlSequence)
  | interrupted (sequence : ControlSequence)
deriving DecidableEq

namespace View

/--
One character further, and whether this character is shown.  Layout interrupts a sequence.
The sequence goes on after the next character that is not shown, and is forgotten after a
character that is not ASCII.
-/
def step (v : View) (c : Char) : View × Bool :=
  if isEscape c then (.inside .escape, false)
  else if isCancel c then (.plain, false)
  else
    match v with
    | .plain => (.plain, isVisible c)
    | .inside s =>
        if s.isOpen && isLayout c then (.interrupted s, true)
        else (((s.next? c).map View.inside).getD .plain, false)
    | .interrupted s =>
        if !isVisible c then (.inside s, false)
        else if c.toNat < 0x80 then (.interrupted s, true)
        else (.plain, true)

def visible (v : View) : List Char → List Char
  | [] => []
  | c :: cs => if (v.step c).2 then c :: (v.step c).1.visible cs else (v.step c).1.visible cs

end View

def visible (cs : List Char) : List Char :=
  View.plain.visible cs

end Text
end HackVM
