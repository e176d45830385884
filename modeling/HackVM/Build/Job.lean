import HackVM.Failure
import HackVM.Files.Access

/-!
# Jobs

A target is a file or a directory.  A file is compiled to a file beside it.  A directory is
compiled from all of its sources, in the order of their names, to a file inside it that bears
its name.  A file whose path would be too long is none of them.
-/

namespace HackVM

def sourceExtension : String := "vm"

def outputExtension : String := "asm"

structure Job where
  output : Path
  sources : List Path
deriving DecidableEq

namespace Job

def isSource : String × Node → Bool
  | (name, .file _) => (Path.splitName name.toList).2 == some sourceExtension.toList
  | (_, .directory) => false

def isReachable (target : Path) (name : String) : Bool :=
  (FileSystem.refused (target.join name)).isNone

def sourceNames (fs : FileSystem) (target : Path) (place : Place) : List String :=
  let names := ((fs.tree.children place).filter isSource).map Prod.fst
  (names.filter (isReachable target)).mergeSort fun x y => decide (x ≤ y)

def directoryOutput (place : Place) : String :=
  (place.getLast?.getD "out") ++ "." ++ outputExtension

def ofDirectory (fs : FileSystem) (target : Path) (place : Place) : Except Failure Job :=
  match fs.permit .list place with
  | .error fault => .error (.read target.text fault)
  | .ok place =>
      match sourceNames fs target place with
      | [] => .error (.noSources target.text)
      | names =>
          match fs.canonical target with
          | .error fault => .error (.read target.text fault)
          | .ok named =>
              .ok
                { output := target.join (directoryOutput named)
                  sources := names.map target.join }

/-- An output is not compiled, because it would be its own source. -/
def ofFile (target : Path) : Except Failure Job :=
  if target.extension? = some outputExtension then .error (.wouldOverwrite target.text)
  else .ok { output := target.withExtension outputExtension, sources := [target] }

def resolve (fs : FileSystem) (target : Path) : Except Failure Job :=
  match fs.find target with
  | .error _ => .error (.notFound target.text)
  | .ok (place, .directory) => ofDirectory fs target place
  | .ok (_, .file _) => ofFile target

end Job
end HackVM
