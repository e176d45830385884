import HackVM.CommandLine.Run

/-!
# The program

Takes a picture of the files that the targets can reach, lets the library work on it, and
writes the outputs back.  What the system refuses is part of the picture.
-/

namespace HackVM
namespace Main

/-!
## What the system says

The reasons are worded by the system, with the numbers of its errors.
-/

def fault (code : UInt32) (details : String) : FileFault :=
  .system (details ++ " (os error " ++ Nat.repr code.toNat ++ ")")

def faultOf : IO.Error → FileFault
  | .interrupted _ code details | .noFileOrDirectory _ code details => fault code details
  | .alreadyExists _ code details | .invalidArgument _ code details
  | .permissionDenied _ code details | .resourceExhausted _ code details
  | .inappropriateType _ code details | .noSuchThing _ code details => fault code details
  | .otherError code details | .resourceBusy code details | .resourceVanished code details
  | .unsupportedOperation code details | .hardwareFault code details
  | .unsatisfiedConstraints code details | .illegalOperation code details
  | .protocolError code details | .timeExpired code details => fault code details
  | .unexpectedEof => .system "failed to fill whole buffer"
  | .userError text => .system text

/-!
## The picture

A path is looked at from its first component on, since each of them may lead somewhere else.
What cannot even be looked at is not there.  Of the entries of a directory only the sources
are read.
-/

def placeOf (real : String) : Place :=
  (({ text := real } : Path).components).filter fun name => name != ""

def installFile (fs : FileSystem) (spot : Path) (content : IO ByteArray) : IO FileSystem := do
  match ← content.toBaseIO with
  | .ok bytes => return fs.install spot (.file bytes.data.toList)
  | .error error =>
      return (fs.install spot (.file [])).refuse .read (fs.expand spot) (faultOf error)

def lookInside (fs : FileSystem) (spot : Path) (metadata : IO IO.FS.Metadata)
    (content : IO ByteArray) : IO FileSystem := do
  match ← metadata.toBaseIO with
  | .error _ => return fs
  | .ok found =>
      match found.type with
      | .dir => return fs.install spot .directory
      | .file =>
          if (fs.tree.node? (fs.expand spot)).isSome then
            return fs
          else if spot.extension? = some sourceExtension then
            installFile fs spot content
          else
            return fs.install spot (.file [])
      | .symlink | .other => return fs

def look (fs : FileSystem) (path : String) : IO FileSystem := do
  let real ← IO.FS.realPath path
  let spot : Path := { text := real.toString }
  match (← real.metadata).type with
  | .dir =>
      let folder := fs.install spot .directory
      match ← real.readDir.toBaseIO with
      | .error error => return folder.refuse .list (fs.expand spot) (faultOf error)
      | .ok entries =>
          entries.foldlM
            (fun fs entry =>
              lookInside fs (spot.join entry.fileName) entry.path.metadata
                (IO.FS.readBinFile entry.path))
            folder
  | .file => installFile fs spot (IO.FS.readBinFile real)
  | .symlink | .other => return fs

def survey (fs : FileSystem) (target : String) : IO FileSystem := do
  let components := ({ text := target } : Path).components
  (List.range components.length).foldlM
    (fun fs n => do
      let path := "/".intercalate (components.take (n + 1))
      try look fs (if path.isEmpty then "/" else path) catch _ => return fs)
    fs

def picture (arguments : List String) : IO FileSystem := do
  let here ← IO.currentDir
  let start := FileSystem.withWorkingDirectory (placeOf here.toString)
  match Request.read arguments with
  | .ok (.build targets _) => targets.foldlM survey start
  | _ => return start

/-!
## The outputs

Outputs are written up to the first that is refused.
-/

def writeBack (fs : FileSystem) : List Place → IO (Option (Place × FileFault))
  | [] => return none
  | place :: rest => do
      let bytes : ByteArray :=
        match fs.tree.node? place with
        | some (.file content) => ⟨content.toArray⟩
        | _ => ⟨#[]⟩
      match ← (IO.FS.writeBinFile ("/" ++ "/".intercalate place) bytes).toBaseIO with
      | .ok _ => writeBack fs rest
      | .error error => return some (place, faultOf error)

/--
Runs the arguments on a picture.  An output that is refused becomes part of the picture, and
the run that knows of it ends where the output would have been created; all it writes before
that has been written already.
-/
def carryOut (fs : FileSystem) (arguments : List String) : IO CommandLine.Exit := do
  let finished := CommandLine.run fs arguments
  match ← writeBack finished.files finished.written with
  | none => return finished
  | some (place, fault) => return CommandLine.run (fs.refuse .create place fault) arguments

end Main
end HackVM

def main (arguments : List String) : IO UInt32 := do
  let finished ← HackVM.Main.carryOut (← HackVM.Main.picture arguments) arguments
  IO.print finished.stdout
  IO.eprint (if finished.code = 2 then finished.stderr ++ "\n" else finished.stderr)
  return UInt32.ofNat finished.code
