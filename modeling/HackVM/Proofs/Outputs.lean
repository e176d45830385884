import HackVM.Build.Compile
import HackVM.Proofs.Jobs
import HackVM.Proofs.Streaming

/-!
# What a build changes

A build writes one file, and only when all of its sources have been read.  Up to that point
nothing has changed; from then on the file holds the lines that were linked, also if linking
fails, and every source is as it was.
-/

namespace HackVM

/-!
## Reading sources

Sources are read one after the other, up to the first that cannot be read.
-/

namespace Module

def IsReadFrom (fs : FileSystem) (source : Path) (m : Module) : Prop :=
  m.name = source.stem ∧ fs.read source = .ok m.source

variable {fs : FileSystem}

theorem ofFile_eq_ok_iff {source : Path} {m : Module} :
    ofFile fs source = .ok m ↔ IsReadFrom fs source m := by
  unfold ofFile IsReadFrom
  cases fs.read source with
  | error fault => simp
  | ok text =>
      rcases m with ⟨name, other⟩
      simp [eq_comm]

theorem ofFile_eq_error {source : Path} {failure : Failure}
    (h : ofFile fs source = .error failure) :
    ∃ fault, fs.read source = .error fault ∧ failure = .read source.text fault := by
  unfold ofFile at h
  split at h
  · cases h
  · next fault hread =>
      cases h
      exact ⟨fault, hread, rfl⟩

theorem ofFiles_eq_ok_iff {sources : List Path} {modules : List Module} :
    (ofFiles fs sources).2 = .ok modules ↔ List.Forall₂ (IsReadFrom fs) sources modules := by
  induction sources generalizing modules with
  | nil =>
      rw [ofFiles, List.forall₂_nil_left_iff]
      exact ⟨fun h => (Except.ok.inj h).symm, fun h => congrArg Except.ok h.symm⟩
  | cons source rest ih =>
      rw [ofFiles, List.forall₂_cons_left_iff]
      cases hfirst : ofFile fs source with
      | error failure =>
          constructor
          · intro h
            cases h
          · rintro ⟨m, others, hread, -⟩
            rw [ofFile_eq_ok_iff.mpr hread] at hfirst
            cases hfirst
      | ok m =>
          dsimp only
          constructor
          · intro h
            cases hrest : (ofFiles fs rest).2 with
            | error failure =>
                rw [hrest] at h
                cases h
            | ok others =>
                rw [hrest] at h
                cases h
                exact ⟨m, others, ofFile_eq_ok_iff.mp hfirst, ih.mp hrest, rfl⟩
          · rintro ⟨other, others, hread, hothers, rfl⟩
            rw [ofFile_eq_ok_iff.mpr hread] at hfirst
            cases hfirst
            rw [ih.mpr hothers]
            rfl

theorem exists_isReadFrom {sources : List Path} {modules : List Module}
    (h : List.Forall₂ (IsReadFrom fs) sources modules) {source : Path}
    (hsource : source ∈ sources) :
    ∃ m, IsReadFrom fs source m := by
  induction h with
  | nil => cases hsource
  | cons hfirst _ ih =>
      rcases List.mem_cons.mp hsource with rfl | hrest
      · exact ⟨_, hfirst⟩
      · exact ih hrest

theorem ofFiles_eq_error {sources : List Path} {failure : Failure}
    (h : (ofFiles fs sources).2 = .error failure) :
    ∃ source ∈ sources, ∃ fault, fs.read source = .error fault ∧
      failure = .read source.text fault := by
  induction sources with
  | nil => cases h
  | cons source rest ih =>
      rw [ofFiles] at h
      cases hfirst : ofFile fs source with
      | error failure =>
          rw [hfirst] at h
          cases h
          exact ⟨source, List.mem_cons_self, ofFile_eq_error hfirst⟩
      | ok m =>
          rw [hfirst] at h
          dsimp only at h
          cases hrest : (ofFiles fs rest).2 with
          | ok others =>
              rw [hrest] at h
              cases h
          | error failure =>
              rw [hrest] at h
              cases h
              rcases ih hrest with ⟨other, hmem, hfault⟩
              exact ⟨other, List.mem_cons_of_mem _ hmem, hfault⟩

end Module

theorem Sink.linkProgram_collect (modules : List Module) (options : Options) :
    linkProgram collect modules options [] =
      ((Module.link modules options).code.render,
        .ofOutcome (Module.link modules options).outcome) := by
  rw [linkProgram_eq_feed, Run.feed, sendCode, sendAll_collect]
  rfl

namespace Job

theorem resolve_ne_link {fs : FileSystem} {target : Path} {failure : Failure}
    (h : resolve fs target = .error failure) (error : LinkError) : failure ≠ .link error := by
  rintro rfl
  unfold resolve at h
  split at h
  · cases h
  · unfold ofDirectory at h
    split at h
    · cases h
    · split at h
      · cases h
      · split at h <;> cases h
  · unfold ofFile at h
    split at h <;> cases h

end Job

namespace Build

/-- A target whose sources have been read and whose output can be written. -/
structure Ready (fs : FileSystem) (target : Path) (job : Job) (modules : List Module)
    (place : Place) : Prop where
  resolved : Job.resolve fs target = .ok job
  readable : List.Forall₂ (Module.IsReadFrom fs) job.sources modules
  writable : fs.create job.output = .ok place

variable {fs : FileSystem} {target : Path}

theorem Ready.located {job : Job} {modules : List Module} {place : Place}
    (h : Ready fs target job modules place) : fs.locateOutput job.output = .ok place :=
  (FileSystem.create_eq_ok_iff.mp h.writable).1

/-!
## The ways of a build

A build that has read all of its sources and can write its output goes on to link.  It stops
before that with nothing written if there is no job, if a source cannot be read, or if the
output cannot be created.
-/

theorem compile_of_ready {job : Job} {modules : List Module} {place : Place}
    (h : Ready fs target job modules place) (options : Options) :
    (compile fs options target).files =
        fs.store place (Text.utf8
          (String.join ((Module.link modules options).code.render.map (· ++ "\n")))) ∧
      (compile fs options target).outcome =
        ((Module.linkedLines modules options).map fun _ => job.output).mapError
          Failure.link := by
  unfold compile
  rw [h.resolved]
  dsimp only
  rw [Module.ofFiles_eq_ok_iff.mpr h.readable]
  dsimp only [write]
  rw [h.writable]
  dsimp only
  rw [Run.stream_unlimited, flatten_lineWrites, Module.map_outcome_link]
  refine ⟨rfl, ?_⟩
  cases Module.linkedLines modules options <;> rfl

theorem compile_of_unresolved {failure : Failure} (h : Job.resolve fs target = .error failure)
    (options : Options) :
    (compile fs options target).files = fs ∧
      (compile fs options target).outcome = .error failure := by
  unfold compile
  rw [h]
  exact ⟨rfl, rfl⟩

theorem compile_of_unread {job : Job} {failure : Failure}
    (hresolve : Job.resolve fs target = .ok job)
    (hread : (Module.ofFiles fs job.sources).2 = .error failure) (options : Options) :
    (compile fs options target).files = fs ∧
      (compile fs options target).outcome = .error failure := by
  unfold compile
  rw [hresolve]
  dsimp only
  rw [hread]
  exact ⟨rfl, rfl⟩

theorem compile_of_uncreated {job : Job} {modules : List Module} {fault : FileFault}
    (hresolve : Job.resolve fs target = .ok job)
    (hread : List.Forall₂ (Module.IsReadFrom fs) job.sources modules)
    (hcreate : fs.create job.output = .error fault) (options : Options) :
    (compile fs options target).files = fs ∧
      (compile fs options target).outcome = .error (.write job.output.text fault) := by
  unfold compile
  rw [hresolve]
  dsimp only
  rw [Module.ofFiles_eq_ok_iff.mpr hread]
  dsimp only [write]
  rw [hcreate]
  exact ⟨rfl, rfl⟩

theorem compile_cases (fs : FileSystem) (options : Options) (target : Path) :
    (∃ job modules place, Ready fs target job modules place) ∨
      ∃ failure, (∀ error, failure ≠ .link error) ∧
        (compile fs options target).outcome = .error failure ∧
        (compile fs options target).files = fs := by
  cases hresolve : Job.resolve fs target with
  | error failure =>
      rcases compile_of_unresolved hresolve options with ⟨hfiles, houtcome⟩
      exact Or.inr ⟨failure, Job.resolve_ne_link hresolve, houtcome, hfiles⟩
  | ok job =>
      cases hmodules : (Module.ofFiles fs job.sources).2 with
      | error failure =>
          rcases compile_of_unread hresolve hmodules options with ⟨hfiles, houtcome⟩
          rcases Module.ofFiles_eq_error hmodules with ⟨source, -, fault, -, rfl⟩
          exact Or.inr ⟨_, fun error => by simp, houtcome, hfiles⟩
      | ok modules =>
          have hread := Module.ofFiles_eq_ok_iff.mp hmodules
          cases hcreate : fs.create job.output with
          | error fault =>
              rcases compile_of_uncreated hresolve hread hcreate options with
                ⟨hfiles, houtcome⟩
              exact Or.inr ⟨_, fun error => by simp, houtcome, hfiles⟩
          | ok place => exact Or.inl ⟨job, modules, place, hresolve, hread, hcreate⟩

theorem compile_of_unreadable {job : Job} (hresolve : Job.resolve fs target = .ok job)
    {source : Path} (hsource : source ∈ job.sources) {fault : FileFault}
    (hread : fs.read source = .error fault) (options : Options) :
    (compile fs options target).files = fs ∧
      ∃ first ∈ job.sources, ∃ cause, fs.read first = .error cause ∧
        (compile fs options target).outcome = .error (.read first.text cause) := by
  cases hmodules : (Module.ofFiles fs job.sources).2 with
  | ok modules =>
      rcases Module.exists_isReadFrom (Module.ofFiles_eq_ok_iff.mp hmodules) hsource with
        ⟨m, -, htext⟩
      rw [hread] at htext
      cases htext
  | error failure =>
      rcases compile_of_unread hresolve hmodules options with ⟨hfiles, houtcome⟩
      rcases Module.ofFiles_eq_error hmodules with ⟨first, hfirst, cause, hcause, rfl⟩
      exact ⟨hfiles, first, hfirst, cause, hcause, houtcome⟩

/-!
## The output and nothing else

Whatever comes to an end, or to an error of linking, has written what was linked until then.
A source is found where it was, since the output is somewhere else.
-/

theorem changed_place {options : Options} {place : Place}
    (h : (compile fs options target).files.tree.node? place ≠ fs.tree.node? place) :
    ∃ job, Job.resolve fs target = .ok job ∧ fs.locateOutput job.output = .ok place := by
  rcases compile_cases fs options target with
    ⟨job, modules, out, hready⟩ | ⟨failure, -, -, hfiles⟩
  · refine ⟨job, hready.resolved, ?_⟩
    rw [(compile_of_ready hready options).1, FileSystem.node?_store hready.located] at h
    split at h
    · next hplace =>
        rw [hplace]
        exact hready.located
    · exact absurd rfl h
  · rw [hfiles] at h
    exact absurd rfl h

theorem workingDirectory_compile (fs : FileSystem) (options : Options) (target : Path) :
    (compile fs options target).files.workingDirectory = fs.workingDirectory := by
  rcases compile_cases fs options target with
    ⟨job, modules, out, hready⟩ | ⟨failure, -, -, hfiles⟩
  · rw [(compile_of_ready hready options).1]
    rfl
  · rw [hfiles]

theorem content_source (hfs : fs.tree.WellFormed) {job : Job}
    (hresolve : Job.resolve fs target = .ok job) {source : Path}
    (hsource : source ∈ job.sources) (options : Options) :
    ∃ place bytes, fs.find source = .ok (place, .file bytes) ∧
      fs.locateOutput job.output ≠ .ok place ∧
      (compile fs options target).files.content source = .ok bytes := by
  rcases Job.find_source hfs hresolve hsource with ⟨place, bytes, hfind⟩
  refine ⟨place, bytes, hfind, fun hout =>
    Job.locateOutput_ne_source hfs hresolve hsource hout hfind rfl, ?_⟩
  refine FileSystem.content_eq_ok_iff.mpr ⟨place, ?_⟩
  rcases compile_cases fs options target with
    ⟨other, modules, out, hready⟩ | ⟨failure, -, -, hfiles⟩
  · have hjob := hready.resolved
    rw [hresolve] at hjob
    cases hjob
    have hne := Job.locateOutput_ne_source hfs hresolve hsource hready.located hfind
    rw [(compile_of_ready hready options).1]
    exact FileSystem.find_store hready.located _ hne hfind
  · rw [hfiles]
    exact hfind

theorem ready_of_linked {options : Options}
    (h : ∀ failure, (compile fs options target).outcome = .error failure →
      ∃ error, failure = .link error) :
    ∃ job modules place, Ready fs target job modules place ∧
      (compile fs options target).outcome =
        ((Module.linkedLines modules options).map fun _ => job.output).mapError Failure.link ∧
      (compile fs options target).files.content job.output =
        .ok (Text.utf8
          (String.join ((Module.link modules options).code.render.map (· ++ "\n")))) := by
  rcases compile_cases fs options target with
    ⟨job, modules, place, hready⟩ | ⟨failure, hlink, houtcome, -⟩
  · rcases compile_of_ready hready options with ⟨hfiles, houtcome⟩
    refine ⟨job, modules, place, hready, houtcome, ?_⟩
    rw [hfiles]
    exact FileSystem.content_store hready.located _
  · rcases h failure houtcome with ⟨error, herror⟩
    exact absurd herror (hlink error)

theorem files_of_failure {options : Options} {failure : Failure}
    (h : (compile fs options target).outcome = .error failure)
    (hlink : ∀ error, failure ≠ .link error) :
    (compile fs options target).files = fs := by
  rcases compile_cases fs options target with
    ⟨job, modules, place, hready⟩ | ⟨other, -, -, hfiles⟩
  · rw [(compile_of_ready hready options).2] at h
    cases hlines : Module.linkedLines modules options with
    | error error =>
        rw [hlines] at h
        cases h
        exact absurd rfl (hlink error)
    | ok lines =>
        rw [hlines] at h
        cases h
  · exact hfiles

theorem output_of_link_error {options : Options} {error : LinkError}
    (h : (compile fs options target).outcome = .error (.link error)) :
    ∃ job modules place lines, Ready fs target job modules place ∧
      Sink.linkProgram Sink.collect modules options [] = (lines, .failed error) ∧
      (compile fs options target).files.content job.output =
        .ok (Text.utf8 (String.join (lines.map (· ++ "\n")))) := by
  have hlink : ∀ failure, (compile fs options target).outcome = .error failure →
      ∃ error, failure = .link error := by
    intro failure hfailure
    rw [h] at hfailure
    cases hfailure
    exact ⟨error, rfl⟩
  rcases ready_of_linked hlink with ⟨job, modules, place, hready, houtcome, hcontent⟩
  refine ⟨job, modules, place, _, hready, ?_, hcontent⟩
  rw [h, Module.linkedLines] at houtcome
  rw [Sink.linkProgram_collect]
  cases hrun : (Module.link modules options).outcome with
  | error other =>
      rw [hrun] at houtcome
      cases houtcome
      rfl
  | ok e =>
      rw [hrun] at houtcome
      cases houtcome

theorem output_of_success {options : Options} {path : Path}
    (h : (compile fs options target).outcome = .ok path) :
    ∃ job modules place lines, Ready fs target job modules place ∧ path = job.output ∧
      Module.linkedLines modules options = .ok lines ∧
      (compile fs options target).files.content path =
        .ok (Text.utf8 (String.join (lines.map (· ++ "\n")))) := by
  have hlink : ∀ failure, (compile fs options target).outcome = .error failure →
      ∃ error, failure = .link error := by
    intro failure hfailure
    rw [h] at hfailure
    cases hfailure
  rcases ready_of_linked hlink with ⟨job, modules, place, hready, houtcome, hcontent⟩
  rw [h] at houtcome
  cases hlines : Module.linkedLines modules options with
  | error error =>
      rw [hlines] at houtcome
      cases houtcome
  | ok lines =>
      rw [hlines] at houtcome
      cases houtcome
      rw [Module.render_of_linkedLines hlines] at hcontent
      exact ⟨job, modules, place, lines, hready, rfl, hlines, hcontent⟩

/--
A build changes at most the output of its job, which is none of its sources.  As long as no
error is one of linking, it changes nothing at all.  Otherwise the output holds the lines
that were handed on before the error, and in the end all lines of the program.
-/
theorem compile_changes_output_only (fs : FileSystem) (options : Options) (target : Path)
    (hfs : fs.tree.WellFormed) :
    (compile fs options target).files.workingDirectory = fs.workingDirectory ∧
    (∀ place, (compile fs options target).files.tree.node? place ≠ fs.tree.node? place →
      ∃ job, Job.resolve fs target = .ok job ∧ fs.locateOutput job.output = .ok place) ∧
    (∀ job, Job.resolve fs target = .ok job → job.output ∉ job.sources ∧
      ∀ source ∈ job.sources, ∃ place bytes, fs.find source = .ok (place, .file bytes) ∧
        fs.locateOutput job.output ≠ .ok place ∧
          (compile fs options target).files.content source = .ok bytes) ∧
    (∀ failure, (compile fs options target).outcome = .error failure →
      (∀ error, failure ≠ .link error) →
      (compile fs options target).files = fs) ∧
    (∀ job, Job.resolve fs target = .ok job → ∀ source ∈ job.sources, ∀ fault,
      fs.read source = .error fault →
      (compile fs options target).files = fs ∧
      ∃ first ∈ job.sources, ∃ cause, fs.read first = .error cause ∧
        (compile fs options target).outcome = .error (.read first.text cause)) ∧
    (∀ place fault, fs.find target = .ok (place, .directory) →
      fs.refuses .list place = some fault →
      (compile fs options target).files = fs ∧
        (compile fs options target).outcome = .error (.read target.text fault)) ∧
    (∀ job modules fault, Job.resolve fs target = .ok job →
      List.Forall₂ (Module.IsReadFrom fs) job.sources modules →
      fs.create job.output = .error fault →
      (compile fs options target).files = fs ∧
        (compile fs options target).outcome = .error (.write job.output.text fault)) ∧
    (∀ error, (compile fs options target).outcome = .error (.link error) →
      ∃ job modules place lines, Ready fs target job modules place ∧
      Sink.linkProgram Sink.collect modules options [] = (lines, .failed error) ∧
      (compile fs options target).files.content job.output =
        .ok (Text.utf8 (String.join (lines.map (· ++ "\n"))))) ∧
    (∀ path, (compile fs options target).outcome = .ok path →
      ∃ job modules place lines, Ready fs target job modules place ∧ path = job.output ∧
      Module.linkedLines modules options = .ok lines ∧
      (compile fs options target).files.content path =
        .ok (Text.utf8 (String.join (lines.map (· ++ "\n"))))) ∧
    (∀ job modules place, Ready fs target job modules place →
      (∀ error, Module.linkedLines modules options = .error error →
        (compile fs options target).outcome = .error (.link error)) ∧
      ∀ lines, Module.linkedLines modules options = .ok lines →
        (compile fs options target).outcome = .ok job.output) := by
  refine ⟨workingDirectory_compile fs options target, fun place => changed_place, ?_,
    fun failure => files_of_failure, ?_, ?_, ?_, fun error => output_of_link_error,
    fun path => output_of_success, ?_⟩
  · intro job hresolve
    refine ⟨?_, fun source hsource => content_source hfs hresolve hsource options⟩
    intro hmem
    exact (Job.output_beside hfs hresolve hmem).2 rfl
  · intro job hresolve source hsource fault hread
    exact compile_of_unreadable hresolve hsource hread options
  · intro place fault hfind hrefuses
    exact compile_of_unresolved (Job.resolve_of_refuses hfind hrefuses) options
  · intro job modules fault hresolve hread hcreate
    exact compile_of_uncreated hresolve hread hcreate options
  · intro job modules place hready
    rw [(compile_of_ready hready options).2]
    constructor
    · intro error herror
      rw [herror]
      rfl
    · intro lines hlines
      rw [hlines]
      rfl

end Build

/-!
Two directories with an earlier output.  A source of the first has a fault in its second
command, and a source of the second may not be read.
-/

def FileSystem.faultySource : FileSystem where
  tree :=
    { entries :=
        [(["prog"], .directory),
          (["prog", "Main.vm"], .file (Text.utf8 "push constant 7\npop constant 0\n")),
          (["prog", "Main.asm"], .file (Text.utf8 "0;JMP\n")),
          (["prog", "Main.asm.vm"], .directory)]
      nodup := by decide }
  workingDirectory := ["prog"]

def FileSystem.deniedSource : FileSystem where
  tree :=
    { entries :=
        [(["prog"], .directory), (["prog", "Boot.vm"], .file (Text.utf8 "not\n")),
          (["prog", "Main.vm"], .file (Text.utf8 "neg\n")),
          (["prog", "prog.asm"], .file (Text.utf8 "0;JMP\n"))]
      nodup := by decide }
  workingDirectory := []
  refuses
    | .read, ["prog", "Main.vm"] => some (.system "Permission denied (os error 13)")
    | _, _ => none

theorem Job.resolve_deniedSource :
    resolve .deniedSource ⟨"prog"⟩ =
      .ok ⟨⟨"prog/prog.asm"⟩, [⟨"prog/Boot.vm"⟩, ⟨"prog/Main.vm"⟩]⟩ := by
  have hfind : FileSystem.deniedSource.find ⟨"prog"⟩ = .ok (["prog"], .directory) := by
    decide +kernel
  have hfiltered : (((FileSystem.deniedSource.tree.children ["prog"]).filter isSource).map
      Prod.fst).filter (isReachable ⟨"prog"⟩) = ["Boot.vm", "Main.vm"] := by
    decide +kernel
  have hnames : sourceNames .deniedSource ⟨"prog"⟩ ["prog"] = ["Boot.vm", "Main.vm"] := by
    rw [sourceNames, hfiltered]
    exact List.mergeSort_of_pairwise (by decide +kernel)
  rw [resolve_of_sources hfind rfl (by rw [hnames]; simp), hnames]
  decide +kernel

theorem Build.faultySource_kept :
    FileSystem.faultySource.tree.WellFormed ∧
      (compile .faultySource ⟨false, false⟩ ⟨"../prog/Main.vm"⟩).files.content ⟨"Main.asm"⟩ =
        .ok (Text.utf8 "@7\nD=A\n@SP\nM=M+1\nA=M-1\nM=D\n") ∧
      (∃ job modules place lines,
        Ready .faultySource ⟨"../prog/Main.vm"⟩ job modules place ∧
        Sink.linkProgram Sink.collect modules ⟨false, false⟩ [] =
          (lines, .failed (.inexpressible "Main" ⟨2, .pop .constant 0⟩ .popConstant)) ∧
        ∀ source ∈ job.sources,
          (compile .faultySource ⟨false, false⟩ ⟨"../prog/Main.vm"⟩).files.content source =
            FileSystem.faultySource.content source) ∧
      FileSystem.deniedSource.tree.WellFormed ∧
      FileSystem.deniedSource.content ⟨"prog/Main.vm"⟩ = .ok (Text.utf8 "neg\n") ∧
      (compile .deniedSource ⟨false, false⟩ ⟨"prog"⟩).files = .deniedSource ∧
      (compile .deniedSource ⟨false, false⟩ ⟨"prog"⟩).outcome =
        .error (.read "prog/Main.vm" (.system "Permission denied (os error 13)")) := by
  have hfs : FileSystem.faultySource.tree.WellFormed := by
    decide +kernel
  have houtcome : (compile .faultySource ⟨false, false⟩ ⟨"../prog/Main.vm"⟩).outcome =
      .error (.link (.inexpressible "Main" ⟨2, .pop .constant 0⟩ .popConstant)) := by
    decide +kernel
  have hdenied : FileSystem.deniedSource.tree.WellFormed := by
    decide +kernel
  have hread : FileSystem.deniedSource.read ⟨"prog/Main.vm"⟩ =
      .error (.system "Permission denied (os error 13)") := by
    decide +kernel
  have hboot : FileSystem.deniedSource.read ⟨"prog/Boot.vm"⟩ = .ok "not\n" := by
    decide +kernel
  refine ⟨hfs, by decide +kernel, ?_, hdenied, by decide +kernel, ?_⟩
  · rcases compile_changes_output_only .faultySource ⟨false, false⟩ ⟨"../prog/Main.vm"⟩
      hfs with ⟨-, -, hsources, -, -, -, -, hlinked, -⟩
    rcases hlinked _ houtcome with ⟨job, modules, place, lines, hready, hlines, -⟩
    refine ⟨job, modules, place, lines, hready, hlines, ?_⟩
    intro source hsource
    rcases (hsources job hready.resolved).2 source hsource with
      ⟨found, bytes, hfind, -, hcontent⟩
    rw [hcontent, FileSystem.content_eq_ok_iff.mpr ⟨found, hfind⟩]
  · rcases compile_changes_output_only .deniedSource ⟨false, false⟩ ⟨"prog"⟩ hdenied with
      ⟨-, -, -, -, hunread, -⟩
    rcases hunread _ Job.resolve_deniedSource _ (List.mem_cons_of_mem _ List.mem_cons_self) _
      hread with ⟨hfiles, first, hmem, cause, hfirst, hfailed⟩
    refine ⟨hfiles, ?_⟩
    -- the other source can be read, so it is not the one that is reported
    rcases List.mem_pair.mp hmem with rfl | rfl
    · rw [hboot] at hfirst
      cases hfirst
    · rw [hread] at hfirst
      cases hfirst
      exact hfailed

end HackVM
