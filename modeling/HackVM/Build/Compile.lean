import HackVM.Build.Job
import HackVM.Linking.Stream

/-!
# Compiling a target

All sources are read before the output is touched, so a source that cannot be read leaves an
earlier output alone.  A link that fails leaves in the output what had been emitted before.
Modules are named after their files, without the extension.
-/

namespace HackVM

namespace Module

def ofFile (fs : FileSystem) (source : Path) : Except Failure Module :=
  match fs.read source with
  | .ok text => .ok { name := source.stem, source := text }
  | .error fault => .error (.read source.text fault)

/-- Reads sources up to the first that cannot be read, and reports each before it is read. -/
def ofFiles (fs : FileSystem) : List Path → List Event × Except Failure (List Module)
  | [] => ([], .ok [])
  | source :: rest =>
      match ofFile fs source with
      | .error failure => ([.reading source.text], .error failure)
      | .ok m =>
          let (log, modules) := ofFiles fs rest
          (.reading source.text :: log, modules.map (m :: ·))

end Module

structure Build where
  files : FileSystem
  log : List Event
  written : Option Place
  outcome : Except Failure Path

namespace Build

def stopped (fs : FileSystem) (log : List Event) (failure : Failure) : Build :=
  { files := fs, log := log, written := none, outcome := .error failure }

def write (fs : FileSystem) (log : List Event) (output : Path) (run : Run) : Build :=
  match fs.create output with
  | .error fault => stopped fs log (.write output.text fault)
  | .ok place =>
      let delivery := run.stream none output.text
      { files := fs.store place delivery.taken
        log := log ++ run.log
        written := some place
        outcome := delivery.outcome.map fun _ => output }

def compile (fs : FileSystem) (options : Options) (target : Path) : Build :=
  match Job.resolve fs target with
  | .error failure => stopped fs [] failure
  | .ok job =>
      let (readings, modules) := Module.ofFiles fs job.sources
      let log := .compiling target.text job.output.text job.sources.length :: readings
      match modules with
      | .error failure => stopped fs log failure
      | .ok modules => write fs log job.output (Module.link modules options)

end Build
end HackVM
