import HackVM.Build.Job
import HackVM.Proofs.Places

/-!
# Sources and outputs

The output of a job lies in the directory of its sources and has a name of its own, so that
nothing that is written there can be read as a source.
-/

namespace HackVM

namespace FileTree

theorem mem_children_iff {t : FileTree} {place : Place} {name : String} {node : Node} :
    (name, node) ∈ t.children place ↔ t.node? (place ++ [name]) = some node := by
  unfold children
  rw [List.mem_filterMap]
  constructor
  · rintro ⟨⟨other, found⟩, hmem, hentry⟩
    dsimp only at hentry
    cases hlast : other.getLast? with
    | none =>
        rw [hlast] at hentry
        cases hentry
    | some last =>
        rw [hlast] at hentry
        dsimp only at hentry
        split at hentry
        · next hplace =>
            cases hentry
            rw [← hplace, List.dropLast_append_getLast? name hlast]
            refine node?_of_mem_entries hmem ?_
            rintro rfl
            cases hlast
        · cases hentry
  · intro hnode
    refine ⟨_, mem_entries_of_node? hnode (by simp), ?_⟩
    simp

end FileTree

namespace Job

/-!
## What is a source, and what an output

A source is a file directly inside a directory whose name has the extension of sources.  An
output is never one, whatever stands before its extension.
-/

def IsSourceName (name : String) : Prop :=
  (Path.splitName name.toList).2 = some sourceExtension.toList

instance (name : String) : Decidable (IsSourceName name) :=
  inferInstanceAs (Decidable (_ = _))

/-- Is there a file with the name of a source directly inside a directory? -/
def HoldsSource (fs : FileSystem) (place : Place) (name : String) (bytes : Bytes) : Prop :=
  fs.tree.node? (place ++ [name]) = some (.file bytes) ∧ IsSourceName name

theorem holdsSource_iff_mem {fs : FileSystem} {place : Place} {name : String} {bytes : Bytes} :
    HoldsSource fs place name bytes ↔
      (name, .file bytes) ∈ (fs.tree.children place).filter isSource := by
  rw [List.mem_filter, FileTree.mem_children_iff, isSource, beq_iff_eq]
  rfl

theorem mem_sourceNames_iff {fs : FileSystem} {target : Path} {place : Place} {name : String} :
    name ∈ sourceNames fs target place ↔
      (∃ bytes, HoldsSource fs place name bytes) ∧
        FileSystem.refused (target.join name) = none := by
  unfold sourceNames
  rw [List.mem_mergeSort, List.mem_filter, List.mem_map, isReachable,
    Option.isNone_iff_eq_none]
  refine and_congr_left fun _ => ?_
  constructor
  · rintro ⟨⟨name, node⟩, hmem, rfl⟩
    cases node with
    | directory => cases (List.mem_filter.mp hmem).2
    | file bytes => exact ⟨bytes, holdsSource_iff_mem.mpr hmem⟩
  · rintro ⟨bytes, hholds⟩
    exact ⟨(name, .file bytes), holdsSource_iff_mem.mp hholds, rfl⟩

theorem splitName_output {stem : List Char} (hstem : stem ≠ []) :
    Path.splitName (stem ++ '.' :: outputExtension.toList) =
      (stem, some outputExtension.toList) := by
  refine Path.splitName_dot hstem (by decide) ?_
  intro hdots
  have hlength := congrArg List.length hdots
  simp [outputExtension] at hlength

theorem not_isSourceName_directoryOutput (place : Place) :
    ¬IsSourceName (directoryOutput place) := by
  unfold IsSourceName directoryOutput
  rw [String.toList_append, String.toList_append, List.append_assoc]
  generalize (place.getLast?.getD "out").toList = stem
  by_cases hstem : stem = []
  · subst hstem
    decide
  · have hsplit := splitName_output hstem
    rw [show ".".toList ++ outputExtension.toList = '.' :: outputExtension.toList from rfl,
      hsplit]
    intro hsame
    exact absurd (Option.some.inj hsame) (by decide)

section Directory

variable {fs : FileSystem} {target : Path} {place : Place}
  (hfind : fs.find target = .ok (place, .directory))
include hfind

theorem resolve_of_directory : resolve fs target = ofDirectory fs target place := by
  rw [resolve, hfind]

theorem resolve_of_refuses {fault : FileFault} (h : fs.refuses .list place = some fault) :
    resolve fs target = .error (.read target.text fault) := by
  rw [resolve_of_directory hfind, ofDirectory, FileSystem.permit_of_refuses h]

theorem resolve_of_sources (hlisted : fs.refuses .list place = none)
    (hnames : sourceNames fs target place ≠ []) :
    resolve fs target =
      (((fs.canonical target).map List.getLast?).map fun last =>
        { output := target.join (last.getD "out" ++ "." ++ outputExtension)
          sources := (sourceNames fs target place).map target.join }).mapError
        (Failure.read target.text) := by
  rw [resolve_of_directory hfind, ofDirectory, FileSystem.permit_eq_ok_iff.mpr ⟨hlisted, rfl⟩]
  dsimp only
  split
  · next hnil => exact absurd hnil hnames
  · cases fs.canonical target <;> rfl

end Directory

theorem resolve_cases {fs : FileSystem} {target : Path} {job : Job}
    (h : resolve fs target = .ok job) :
    (∃ place, fs.find target = .ok (place, .directory) ∧ fs.refuses .list place = none ∧
        fs.canonical target = .ok place ∧ sourceNames fs target place ≠ [] ∧
        job = ⟨target.join (directoryOutput place),
          (sourceNames fs target place).map target.join⟩) ∨
      ∃ place bytes, fs.find target = .ok (place, .file bytes) ∧
        target.extension? ≠ some outputExtension ∧
        job = ⟨target.withExtension outputExtension, [target]⟩ := by
  unfold resolve at h
  split at h
  · cases h
  · next place hfind =>
      left
      unfold ofDirectory at h
      split at h
      · cases h
      · next listed hpermit =>
          rcases FileSystem.permit_eq_ok_iff.mp hpermit with ⟨hrefuses, rfl⟩
          split at h
          · cases h
          · next hnames =>
              split at h
              · cases h
              · next named hnamed =>
                  cases h
                  have hsame := FileSystem.locate_of_canonical hnamed
                  rw [(FileSystem.find_eq_ok_iff.mp hfind).1] at hsame
                  cases hsame
                  exact ⟨place, hfind, hrefuses, hnamed, hnames, rfl⟩
  · next place bytes hfind =>
      right
      unfold ofFile at h
      split at h
      · cases h
      · next hextension => exact ⟨place, bytes, hfind, hextension, (Except.ok.inj h).symm⟩

/-!
## Outputs beside their sources

Sources are files.  The output stands in the directory of every source, under another name,
so what is written is no source.
-/

section Beside

variable {fs : FileSystem} (hfs : fs.tree.WellFormed) {target : Path} {job : Job}
include hfs

theorem slash_not_mem_directoryOutput {place : Place} {node : Node}
    (hnode : fs.tree.node? place = some node) :
    '/' ∉ (directoryOutput place).toList := by
  have hlast : '/' ∉ (place.getLast?.getD "out").toList := by
    rcases List.eq_nil_or_concat' place with rfl | ⟨parent, name, rfl⟩
    · decide
    · rw [List.getLast?_concat]
      exact (hfs.isEntryName hnode).no_slash
  unfold directoryOutput
  rw [String.toList_append, String.toList_append, List.mem_append, List.mem_append]
  rintro ((hmem | hmem) | hmem)
  · exact hlast hmem
  · exact absurd hmem (by decide)
  · exact absurd hmem (by decide)

theorem find_source (h : resolve fs target = .ok job) {source : Path}
    (hsource : source ∈ job.sources) :
    ∃ place bytes, fs.find source = .ok (place, .file bytes) := by
  rcases resolve_cases h with ⟨place, hfind, -, -, -, rfl⟩ | ⟨place, bytes, hfind, -, rfl⟩
  · rcases List.mem_map.mp hsource with ⟨name, hname, rfl⟩
    rcases mem_sourceNames_iff.mp hname with ⟨⟨bytes, hnode, -⟩, hrefused⟩
    exact ⟨place ++ [name], bytes, FileSystem.find_join hfs hfind hnode hrefused⟩
  · rw [List.mem_singleton] at hsource
    subst hsource
    exact ⟨place, bytes, hfind⟩

theorem nameText_of_file {place : Place} {bytes : Bytes}
    (h : fs.find target = .ok (place, .file bytes)) :
    ∃ parent, fs.follow target.parentText = .ok parent ∧
      place = parent ++ [String.ofList target.nameText] ∧
      target.nameText ≠ [] ∧ target.nameText ≠ ['.', '.'] := by
  rcases FileSystem.find_eq_ok_iff.mp h with ⟨hlocate, hnode⟩
  rcases FileSystem.enter_of_locate hlocate with ⟨parent, hfollow, henter⟩
  rcases hfs.enter_file henter hnode with ⟨hrelative, hplace⟩
  rcases (FileTree.relative?_eq_none_iff _ _).mp hrelative with ⟨hempty, -, hdots⟩
  refine ⟨parent, hfollow, hplace, ?_, ?_⟩
  · rintro hname
    exact hempty (congrArg String.ofList hname)
  · rintro hname
    exact hdots (congrArg String.ofList hname)

/-- An output stands in the directory of every source, under another name. -/
theorem output_beside (h : resolve fs target = .ok job) {source : Path}
    (hsource : source ∈ job.sources) :
    job.output.parentText = source.parentText ∧ job.output.nameText ≠ source.nameText := by
  rcases resolve_cases h with
    ⟨place, hfind, -, -, -, rfl⟩ | ⟨place, bytes, hfind, hextension, rfl⟩
  · rcases List.mem_map.mp hsource with ⟨name, hname, rfl⟩
    rcases mem_sourceNames_iff.mp hname with ⟨⟨bytes, hnode, hsourceName⟩, -⟩
    have hslash := slash_not_mem_directoryOutput hfs (FileSystem.find_eq_ok_iff.mp hfind).2
    have hslashName := (hfs.isEntryName hnode).no_slash
    simp only [Path.join_eq_ofParts, Path.parentText_ofParts target.isFront_asFront hslash,
      Path.parentText_ofParts target.isFront_asFront hslashName,
      Path.nameText_ofParts target.isFront_asFront hslash,
      Path.nameText_ofParts target.isFront_asFront hslashName, true_and]
    intro hsame
    rw [← String.toList_injective hsame] at hsourceName
    exact not_isSourceName_directoryOutput place hsourceName
  · rw [List.mem_singleton] at hsource
    subst hsource
    rcases nameText_of_file hfs hfind with ⟨parent, -, -, hne, hdots⟩
    rcases Path.withExtension_eq hne (show '/' ∉ outputExtension.toList by decide) with
      ⟨name, houtput, hslash, hname⟩
    dsimp only
    rw [houtput, Path.parentText_ofParts source.isFront_parentText hslash,
      Path.nameText_ofParts source.isFront_parentText hslash]
    refine ⟨rfl, ?_⟩
    rcases hname with rfl | ⟨stem, hstem, rfl⟩
    · exact fun hsame => hdots hsame.symm
    · intro hsame
      -- a source with the name of its output would have been refused
      apply hextension
      rw [Path.extension?, ← hsame, splitName_output hstem]
      rfl

theorem locateOutput_ne_source (h : resolve fs target = .ok job) {source : Path}
    (hsource : source ∈ job.sources) {out place : Place} {bytes : Bytes}
    (hout : fs.locateOutput job.output = .ok out)
    (hfind : fs.find source = .ok (place, .file bytes)) : place ≠ out := by
  rcases output_beside hfs h hsource with ⟨hparent, hname⟩
  rcases nameText_of_file hfs hfind with ⟨parent, hfollow, rfl, -⟩
  rcases FileSystem.outputPlace_of_locateOutput hout with ⟨parent', hfollow', houtput⟩
  rw [hparent, hfollow] at hfollow'
  cases hfollow'
  rcases FileTree.outputPlace_eq_ok houtput with ⟨-, -, -, rfl, -⟩
  intro hsame
  have hlast := List.singleton_inj.mp (List.append_cancel_left hsame)
  exact hname (String.ofList_injective hlast).symm

end Beside

end Job
end HackVM
