import HackVM.Build.Compile
import HackVM.CommandLine.Arguments

/-!
# Running a request

The targets are compiled one after the other.  The first that fails ends the run with a
report; what the earlier ones wrote stays.
-/

namespace HackVM
namespace CommandLine

def versionText : String :=
  "vm-translator 0.2.0\n"

def helpText : String :=
  "\n".intercalate
    ["Translate VM code into Hack assembly",
      "",
      "Usage: vm-translator [OPTIONS] <TARGETS>...",
      "",
      "Arguments:",
      "  <TARGETS>...  `.vm` files or directories of `.vm` files",
      "",
      "Options:",
      "  -b, --bootstrap    Emit bootstrap code (SP = 256, call Sys.init)",
      "      --no-comments  Leave out the `// <command>` comments in the output",
      "  -h, --help         Print help",
      "  -V, --version      Print version",
      ""]

/-!
## Reports

A failure without a cause of its own stands alone; otherwise failure and cause are numbered
from the outside in.  Further lines of a message are indented.
-/

def indented (lead pad message : String) : String :=
  lead ++ ("\n" ++ pad).intercalate ((message.toList.splitOn '\n').map String.ofList)

def causes (failure : Failure) : String :=
  match failure.cause? with
  | none => indented "    " "    " failure.message
  | some cause =>
      indented "    0: " "       " failure.message ++ "\n" ++
        indented "    1: " "       " cause

def report (target : String) (failure : Failure) : String :=
  "Error: Translating " ++ target ++ "\n\nCaused by:\n" ++ causes failure ++ "\n"

/-!
## Runs

A mistake in the arguments is reported in one line, and nothing is compiled.
-/

structure Exit where
  code : Nat
  stdout : String := ""
  stderr : String := ""
  files : FileSystem
  written : List Place := []

def compileAll (fs : FileSystem) (options : Options) (written : List Place) :
    List String → Exit
  | [] => { code := 0, files := fs, written := written }
  | target :: rest =>
      let build := Build.compile fs options { text := target }
      let written := written ++ build.written.toList
      match build.outcome with
      | .ok _ => compileAll build.files options written rest
      | .error failure =>
          { code := 1
            stderr := report target failure
            files := build.files
            written := written }

def usageReport (error : UsageError) : String :=
  String.ofList ((Text.lines error.message.toList).headD [])

def run (fs : FileSystem) (arguments : List String) : Exit :=
  match Request.read arguments with
  | .error error => { code := 2, stderr := usageReport error, files := fs }
  | .ok .help => { code := 0, stdout := helpText, files := fs }
  | .ok .version => { code := 0, stdout := versionText, files := fs }
  | .ok (.build targets options) => compileAll fs options [] targets

end CommandLine
end HackVM
