import HackVM.Text.Spelled

/-!
# Readers

A reader takes a front of a text and gives what it has read, together with the rest of the
text.  Where there are several ways to go on, the first that succeeds is taken for good: no
other one is tried when what follows turns out not to fit.
-/

namespace HackVM

abbrev Reader := StateT (List Char) Option

namespace Reader

variable {α : Type}

def tag (word : String) : Reader Unit :=
  fun cs => (word.toList.isPrefixOf? cs).map fun rest => ((), rest)

def longest (p : Char → Bool) : Reader (List Char) :=
  fun cs => if (cs.takeWhile p).isEmpty then none else some (cs.takeWhile p, cs.dropWhile p)

def firstOf : List (Reader α) → Reader α
  | [] => fun _ => none
  | first :: others => fun cs => (first cs).or (firstOf others cs)

def spellings (α : Type) [Spelled α] : List (Reader α) :=
  (Spelled.all : List α).map fun x => (fun _ => x) <$> tag (Spelled.spell x)

def spelled [Spelled α] : Reader α :=
  firstOf (spellings α)

def whole (r : Reader α) (cs : List Char) : Option α :=
  match r cs with
  | some (x, []) => some x
  | _ => none

end Reader
end HackVM
