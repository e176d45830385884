/-!
# Paths

A path is a text.  It is taken apart only where a rule asks for a part of it, and every path
that is made from another one keeps the text of the other one in front.
-/

namespace HackVM

structure Path where
  text : String
deriving DecidableEq

namespace Path

def components (p : Path) : List String :=
  (p.text.toList.splitOn '/').map String.ofList

def isAbsolute (p : Path) : Bool :=
  p.text.toList.head? == some '/'

def parentText (p : Path) : List Char :=
  (p.text.toList.reverse.dropWhile (· != '/')).reverse

def nameText (p : Path) : List Char :=
  (p.text.toList.reverse.takeWhile (· != '/')).reverse

/--
Cuts a file name at its last dot into stem and extension.  A dot at the very beginning does
not start an extension, and neither does any dot of the name of the parent directory.
-/
def splitName (name : List Char) : List Char × Option (List Char) :=
  if name = ['.', '.'] then (name, none)
  else
    match name.reverse.dropWhile (· != '.') with
    | [] | [_] => (name, none)
    | _ :: before => (before.reverse, some (name.reverse.takeWhile (· != '.')).reverse)

def stem (p : Path) : String :=
  String.ofList (splitName p.nameText).1

def extension? (p : Path) : Option String :=
  (splitName p.nameText).2.map String.ofList

def upToDot (p : Path) : Path :=
  match p.extension? with
  | none => p
  | some _ => { text := String.ofList p.parentText ++ p.stem ++ "." }

/--
Replaces the extension, or adds one where there is none.  The name of the parent directory
takes no extension, also where it is what the old extension leaves.
-/
def withExtension (p : Path) (extension : String) : Path :=
  let bare := p.upToDot
  if bare.nameText = ['.', '.'] then bare
  else { text := String.ofList bare.parentText ++ bare.stem ++ "." ++ extension }

def join (p : Path) (name : String) : Path :=
  if p.text.toList.getLast? = some '/' then { text := p.text ++ name }
  else { text := p.text ++ "/" ++ name }

end Path
end HackVM
