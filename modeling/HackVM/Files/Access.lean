import HackVM.Files.Fault
import HackVM.Files.Path
import HackVM.Files.Tree

/-!
# Reaching files by their paths

A path is followed from the root if it begins with a slash, and else from the working
directory.  Every component but the last has to be a directory, and so has the last one if a
slash or a dot follows it.

Whatever the tree holds, a place may still refuse to be read, listed or written.  A listing
that breaks off at one of its entries counts as refused.
-/

namespace HackVM

inductive FileAccess where
  | read
  | list
  | create
deriving DecidableEq

structure FileSystem where
  tree : FileTree
  workingDirectory : Place
  refuses : FileAccess → Place → Option FileFault := fun _ _ => none

namespace FileSystem

def maxName : Nat := 255

def maxPath : Nat := 4095

end FileSystem

/-!
## Walking

A component that is no name leads to the same directory, or to the one above.  What is not a
directory leads nowhere, and a directory cannot be written as a file.  Names and paths are
measured in bytes.
-/

namespace FileTree

/--
The directory that a component leads to which is no name: the same one, or the one above.
-/
def relative? (here : Place) (component : String) : Option Place :=
  if component = "" ∨ component = "." then some here
  else if component = ".." then some here.dropLast
  else none

def enter (t : FileTree) (here : Place) (component : String) : Except FileFault Place :=
  match t.node? here with
  | none => .error .missing
  | some (.file _) => .error .notDirectory
  | some .directory =>
      match relative? here component with
      | some place => .ok place
      | none =>
          if FileSystem.maxName < component.utf8ByteSize then .error .nameTooLong
          else if (t.node? (here ++ [component])).isSome then .ok (here ++ [component])
          else .error .missing

def walk (t : FileTree) (here : Place) : List String → Except FileFault Place
  | [] => .ok here
  | component :: rest =>
      match t.enter here component with
      | .ok next => t.walk next rest
      | .error fault => .error fault

def depth (place : Place) : Nat :=
  place.foldl (fun bytes name => bytes + 1 + name.utf8ByteSize) 0

/-- Walks like `walk`, but not to places that lie too deep for a path from the root. -/
def walkFromRoot (t : FileTree) (here : Place) : List String → Except FileFault Place
  | [] => .ok here
  | component :: rest =>
      match t.enter here component with
      | .error fault => .error fault
      | .ok next =>
          if FileSystem.maxPath < depth next then .error .nameTooLong
          else t.walkFromRoot next rest

def outputPlace (t : FileTree) (parent : Place) (name : String) : Except FileFault Place :=
  match t.node? parent with
  | none => .error .missing
  | some (.file _) => .error .notDirectory
  | some .directory =>
      if (relative? parent name).isSome then .error .isDirectory
      else if FileSystem.maxName < name.utf8ByteSize then .error .nameTooLong
      else if t.node? (parent ++ [name]) = some .directory then .error .isDirectory
      else .ok (parent ++ [name])

def makeWay (t : FileTree) (here : Place) : List String → FileTree
  | [] => t
  | component :: rest =>
      match relative? here component with
      | some place => t.makeWay place rest
      | none =>
          let place := here ++ [component]
          if (t.node? place).isSome then t.makeWay place rest
          else (t.set place .directory).makeWay place rest

end FileTree

namespace FileSystem

def refused (p : Path) : Option FileFault :=
  if p.text.toList.contains '\x00' then some .nulInName
  else if p.text.isEmpty then some .missing
  else if maxPath < p.text.utf8ByteSize then some .nameTooLong
  else none

def startOf (fs : FileSystem) (p : Path) : Place :=
  if p.isAbsolute then [] else fs.workingDirectory

def locate (fs : FileSystem) (p : Path) : Except FileFault Place :=
  match refused p with
  | some fault => .error fault
  | none => fs.tree.walk (fs.startOf p) p.components

def find (fs : FileSystem) (p : Path) : Except FileFault (Place × Node) :=
  match fs.locate p with
  | .error fault => .error fault
  | .ok place =>
      match fs.tree.node? place with
      | some node => .ok (place, node)
      | none => .error .missing

/-- The place that a path leads to, when that place is to be named from the root. -/
def canonical (fs : FileSystem) (p : Path) : Except FileFault Place :=
  match refused p with
  | some fault => .error fault
  | none => fs.tree.walkFromRoot (fs.startOf p) p.components

def content (fs : FileSystem) (p : Path) : Except FileFault Bytes :=
  match fs.find p with
  | .error fault => .error fault
  | .ok (_, .directory) => .error .isDirectory
  | .ok (_, .file bytes) => .ok bytes

def permit (fs : FileSystem) (access : FileAccess) (place : Place) : Except FileFault Place :=
  match fs.refuses access place with
  | some fault => .error fault
  | none => .ok place

def read (fs : FileSystem) (p : Path) : Except FileFault String := do
  let (place, _) ← fs.find p
  let _ ← fs.permit .read place
  match Text.ofUtf8? (← fs.content p) with
  | some text => .ok text
  | none => .error .notText

def locateOutput (fs : FileSystem) (p : Path) : Except FileFault Place :=
  match refused p with
  | some fault => .error fault
  | none =>
      match fs.tree.walk (fs.startOf p) p.components.dropLast with
      | .error fault => .error fault
      | .ok parent => fs.tree.outputPlace parent (p.components.getLast?.getD "")

def create (fs : FileSystem) (p : Path) : Except FileFault Place := do
  fs.permit .create (← fs.locateOutput p)

def store (fs : FileSystem) (place : Place) (content : Bytes) : FileSystem :=
  { fs with tree := fs.tree.set place (.file content) }

/-!
## Setting up and listing

A node is made together with the directories on its way.  A listing shows everything below
the working directory, in the order of the names as they are shown.
-/

/-- The place that a path means when everything on its way is a directory. -/
def expand (fs : FileSystem) (p : Path) : Place :=
  p.components.foldl
    (fun here component => (FileTree.relative? here component).getD (here ++ [component]))
      (fs.startOf p)

def install (fs : FileSystem) (p : Path) : Node → FileSystem
  | .directory => { fs with tree := fs.tree.makeWay (fs.startOf p) p.components }
  | .file content =>
      let tree := fs.tree.makeWay (fs.startOf p) p.components.dropLast
      { fs with tree := tree.set (fs.expand p) (.file content) }

def withWorkingDirectory (place : Place) : FileSystem :=
  { tree := FileTree.empty.makeWay [] place, workingDirectory := place }

def refuse (fs : FileSystem) (access : FileAccess) (place : Place) (fault : FileFault) :
    FileSystem :=
  { fs with
    refuses := fun other spot =>
      if other = access ∧ spot = place then some fault else fs.refuses other spot }

def remove (fs : FileSystem) (p : Path) : FileSystem :=
  match fs.find p with
  | .ok (place, .file _) => { fs with tree := fs.tree.erase place }
  | _ => fs

def shownName (place : Place) (node : Node) : String :=
  "/".intercalate place ++ (if node = .directory then "/" else "")

def list (fs : FileSystem) : List (String × Node) :=
  let below := fs.tree.entries.filterMap fun entry =>
    match fs.workingDirectory.isPrefixOf? entry.1 with
    | none | some [] => none
    | some place => some (shownName place entry.2, entry.2)
  below.mergeSort fun x y => decide (x.1 ≤ y.1)

end FileSystem
end HackVM
