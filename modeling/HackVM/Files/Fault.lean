/-!
# Why a file cannot be used

Most faults follow from what a file system holds.  The others come from the system below it,
in its own words.
-/

namespace HackVM

inductive FileFault where
  | missing
  | notDirectory
  | isDirectory
  | nameTooLong
  | nulInName
  | notText
  | full
  | system (reason : String)
deriving DecidableEq

namespace FileFault

def message : FileFault → String
  | .missing => "No such file or directory (os error 2)"
  | .notDirectory => "Not a directory (os error 20)"
  | .isDirectory => "Is a directory (os error 21)"
  | .nameTooLong => "File name too long (os error 36)"
  | .nulInName => "file name contained an unexpected NUL byte"
  | .notText => "stream did not contain valid UTF-8"
  | .full => "writer is full"
  | .system reason => reason

end FileFault
end HackVM
