import HackVM.Files.Fault
import HackVM.Linking.Basic

/-!
# Failures

Paths stand in messages as they were given or put together, never normalised.
-/

namespace HackVM

inductive Failure where
  | link (error : LinkError)
  | read (path : String) (fault : FileFault)
  | write (path : String) (fault : FileFault)
  | wouldOverwrite (path : String)
  | noSources (path : String)
  | notFound (path : String)
deriving DecidableEq

namespace Failure

def message : Failure → String
  | .link error => error.message
  | .read path fault => "cannot read " ++ path ++ ": " ++ fault.message
  | .write path fault => "cannot write " ++ path ++ ": " ++ fault.message
  | .wouldOverwrite path => "refusing to overwrite source file " ++ path
  | .noSources path => "no .vm sources found in " ++ path
  | .notFound path => "no such file or directory: " ++ path

def cause? : Failure → Option String
  | .link error => some error.cause
  | .read _ fault | .write _ fault => some fault.message
  | .wouldOverwrite _ | .noSources _ | .notFound _ => none

end Failure
end HackVM
