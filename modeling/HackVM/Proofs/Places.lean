import HackVM.Files.Access
import HackVM.Proofs.Paths
import HackVM.Proofs.Results

/-!
# Places in a file system

A path is followed along its front to a directory, and from there one step to what its name
means.  Writing a file takes nothing away that a path could pass, so every path that led
somewhere before still leads there.
-/

namespace HackVM

/-!
## Well-formed trees

Whatever is in a tree is in a directory, and has a name that an entry can have.
-/

namespace FileTree

/-- The names that an entry of a directory can have. -/
structure IsEntryName (name : String) : Prop where
  not_empty : name ≠ ""
  not_here : name ≠ "."
  not_above : name ≠ ".."
  no_slash : '/' ∉ name.toList
  no_nul : '\x00' ∉ name.toList
  short : name.utf8ByteSize ≤ FileSystem.maxName

instance (name : String) : Decidable (IsEntryName name) :=
  decidable_of_iff
    (name ≠ "" ∧ name ≠ "." ∧ name ≠ ".." ∧ '/' ∉ name.toList ∧ '\x00' ∉ name.toList ∧
      name.utf8ByteSize ≤ FileSystem.maxName)
    ⟨fun ⟨h₁, h₂, h₃, h₄, h₅, h₆⟩ => ⟨h₁, h₂, h₃, h₄, h₅, h₆⟩,
      fun ⟨h₁, h₂, h₃, h₄, h₅, h₆⟩ => ⟨h₁, h₂, h₃, h₄, h₅, h₆⟩⟩

/-- Every place is made of names, and whatever is in the tree is in a directory. -/
structure WellFormed (t : FileTree) : Prop where
  names : ∀ entry ∈ t.entries, ∀ name ∈ entry.1, IsEntryName name
  folders : ∀ entry ∈ t.entries, t.node? entry.1.dropLast = some .directory

instance (t : FileTree) : Decidable t.WellFormed :=
  decidable_of_iff
    ((∀ entry ∈ t.entries, ∀ name ∈ entry.1, IsEntryName name) ∧
      ∀ entry ∈ t.entries, t.node? entry.1.dropLast = some .directory)
    ⟨fun h => ⟨h.1, h.2⟩, fun h => ⟨h.names, h.folders⟩⟩

variable {t : FileTree} {place : Place} {node : Node}

theorem mem_entries_of_node? (h : t.node? place = some node) (hne : place ≠ []) :
    (place, node) ∈ t.entries := by
  rw [node?, if_neg hne] at h
  rcases List.lookup_eq_some_iff.mp h with ⟨before, after, hentries, -⟩
  rw [hentries]
  exact List.mem_append_right _ List.mem_cons_self

theorem node?_of_mem_entries (h : (place, node) ∈ t.entries) (hne : place ≠ []) :
    t.node? place = some node := by
  rw [node?, if_neg hne]
  have hnodup := t.nodup
  generalize t.entries = entries at h hnodup
  induction entries with
  | nil => cases h
  | cons entry rest ih =>
      rw [List.map_cons, List.nodup_cons] at hnodup
      rcases List.mem_cons.mp h with rfl | h
      · simp
      · have hkey : (place == entry.1) = false := by
          rw [beq_eq_false_iff_ne]
          intro hkey
          exact hnodup.1 (List.mem_map.mpr ⟨_, h, hkey⟩)
        rw [List.lookup_cons, hkey]
        exact ih h hnodup.2

theorem WellFormed.isEntryName (h : t.WellFormed) {name : String}
    (hnode : t.node? (place ++ [name]) = some node) :
    IsEntryName name :=
  h.names _ (mem_entries_of_node? hnode (by simp)) name (by simp)

theorem WellFormed.node?_dropLast (h : t.WellFormed) (hnode : t.node? place = some node) :
    t.node? place.dropLast = some .directory := by
  by_cases hne : place = []
  · subst hne
    rfl
  · exact h.folders _ (mem_entries_of_node? hnode hne)

/-!
## One component further

What is found under a component that is no name is a directory.  Where the way to a place is
not too long, it is the way that every path takes.
-/

theorem relative?_eq_none_iff (here : Place) (name : String) :
    relative? here name = none ↔ name ≠ "" ∧ name ≠ "." ∧ name ≠ ".." := by
  unfold relative?
  split
  · next h => rcases h with h | h <;> simp [h]
  · next h =>
      rw [not_or] at h
      split
      · next hparent => simp [hparent]
      · next hparent => simp [h, hparent]

theorem IsEntryName.relative? {name : String} (h : IsEntryName name) (here : Place) :
    relative? here name = none :=
  (relative?_eq_none_iff here name).mpr ⟨h.not_empty, h.not_here, h.not_above⟩

theorem enter_eq_ok {here : Place} {component : String}
    (h : t.enter here component = .ok place) :
    t.node? here = some .directory ∧
      (relative? here component = some place ∨
        relative? here component = none ∧ component.utf8ByteSize ≤ FileSystem.maxName ∧
          (t.node? (here ++ [component])).isSome = true ∧ place = here ++ [component]) := by
  unfold enter at h
  split at h
  · cases h
  · cases h
  · next hhere =>
      refine ⟨hhere, ?_⟩
      cases hrelative : relative? here component with
      | some other =>
          rw [hrelative] at h
          cases h
          exact Or.inl rfl
      | none =>
          rw [hrelative] at h
          dsimp only at h
          split at h
          · cases h
          · next hsize =>
              split at h
              · next hsome =>
                  cases h
                  exact Or.inr ⟨rfl, Nat.le_of_not_lt hsize, hsome, rfl⟩
              · cases h

theorem enter_of_relative? {here : Place} {component : String}
    (hhere : t.node? here = some .directory) (h : relative? here component = some place) :
    t.enter here component = .ok place := by
  simp only [enter, hhere, h]

theorem enter_of_node? {here : Place} {component : String}
    (hhere : t.node? here = some .directory) (hrelative : relative? here component = none)
    (hsize : component.utf8ByteSize ≤ FileSystem.maxName)
    (hsome : (t.node? (here ++ [component])).isSome = true) :
    t.enter here component = .ok (here ++ [component]) := by
  simp only [enter, hhere, hrelative, if_neg (Nat.not_lt.mpr hsize), if_pos hsome]

theorem WellFormed.enter_file (h : t.WellFormed) {here : Place} {component : String}
    {content : Bytes} (henter : t.enter here component = .ok place)
    (hnode : t.node? place = some (.file content)) :
    relative? here component = none ∧ place = here ++ [component] := by
  rcases enter_eq_ok henter with ⟨hhere, hrelative | ⟨hrelative, -, -, hplace⟩⟩
  · have hdirectory : t.node? place = some .directory := by
      unfold relative? at hrelative
      split at hrelative
      · cases hrelative
        exact hhere
      · split at hrelative
        · cases hrelative
          exact h.node?_dropLast hhere
        · cases hrelative
    rw [hdirectory] at hnode
    cases hnode
  · exact ⟨hrelative, hplace⟩

theorem walk_append (t : FileTree) (here : Place) (first second : List String) :
    t.walk here (first ++ second) = (t.walk here first).bind fun place =>
      t.walk place second := by
  induction first generalizing here with
  | nil => rfl
  | cons component rest ih =>
      rw [List.cons_append, walk, walk]
      cases t.enter here component with
      | error fault => rfl
      | ok next => exact ih next

theorem walk_concat (t : FileTree) (here : Place) (components : List String)
    (component : String) :
    t.walk here (components ++ [component]) = (t.walk here components).bind fun place =>
      t.enter place component := by
  have hlast : ∀ place, t.walk place [component] = t.enter place component := by
    intro place
    rw [walk]
    cases t.enter place component <;> rfl
  rw [walk_append, funext hlast]

theorem walk_of_walkFromRoot {here : Place} {components : List String}
    (h : t.walkFromRoot here components = .ok place) : t.walk here components = .ok place := by
  induction components generalizing here with
  | nil => exact h
  | cons component rest ih =>
      rw [walkFromRoot] at h
      rw [walk]
      cases henter : t.enter here component with
      | error fault =>
          rw [henter] at h
          cases h
      | ok next =>
          rw [henter] at h
          dsimp only at h ⊢
          split at h
          · cases h
          · exact ih h

/-!
## Trees in which more is found

A tree that keeps its directories and loses nothing leads every path to where it led before.
-/

/-- Every directory is kept, and nothing is taken away. -/
structure Keeps (t other : FileTree) : Prop where
  directory : ∀ place, t.node? place = some .directory → other.node? place = some .directory
  present : ∀ place, (t.node? place).isSome = true → (other.node? place).isSome = true

theorem keeps_set (t : FileTree) (content : Bytes) (hplace : place ≠ [])
    (hnode : t.node? place ≠ some .directory) :
    t.Keeps (t.set place (.file content)) where
  directory := by
    intro other hother
    have hne : other ≠ place := by
      rintro rfl
      exact hnode hother
    rw [node?_set t hplace, if_neg hne, hother]
  present := by
    intro other hother
    rw [node?_set t hplace]
    split
    · rfl
    · exact hother

namespace Keeps

variable {other : FileTree} (h : t.Keeps other)
include h

theorem enter {here : Place} {component : String}
    (henter : t.enter here component = .ok place) :
    other.enter here component = .ok place := by
  rcases enter_eq_ok henter with ⟨hhere, hrelative | ⟨hrelative, hsize, hsome, rfl⟩⟩
  · exact enter_of_relative? (h.directory _ hhere) hrelative
  · exact enter_of_node? (h.directory _ hhere) hrelative hsize (h.present _ hsome)

theorem walk {here : Place} {components : List String}
    (hwalk : t.walk here components = .ok place) :
    other.walk here components = .ok place := by
  induction components generalizing here with
  | nil => exact hwalk
  | cons component rest ih =>
      rw [FileTree.walk] at hwalk ⊢
      cases henter : t.enter here component with
      | error fault =>
          rw [henter] at hwalk
          cases hwalk
      | ok next =>
          rw [henter] at hwalk
          rw [h.enter henter]
          exact ih hwalk

theorem walkFromRoot {here : Place} {components : List String}
    (hwalk : t.walkFromRoot here components = .ok place) :
    other.walkFromRoot here components = .ok place := by
  induction components generalizing here with
  | nil => exact hwalk
  | cons component rest ih =>
      rw [FileTree.walkFromRoot] at hwalk ⊢
      cases henter : t.enter here component with
      | error fault =>
          rw [henter] at hwalk
          cases hwalk
      | ok next =>
          rw [henter] at hwalk
          rw [h.enter henter]
          dsimp only at hwalk ⊢
          split at hwalk
          · cases hwalk
          · next hdepth =>
              rw [if_neg hdepth]
              exact ih hwalk

end Keeps

theorem outputPlace_eq_ok {parent : Place} {name : String}
    (h : t.outputPlace parent name = .ok place) :
    t.node? parent = some .directory ∧ relative? parent name = none ∧
      name.utf8ByteSize ≤ FileSystem.maxName ∧
      place = parent ++ [name] ∧ t.node? place ≠ some .directory := by
  unfold outputPlace at h
  split at h
  · cases h
  · cases h
  · next hparent =>
      split at h
      · cases h
      · next hrelative =>
          split at h
          · cases h
          · next hsize =>
              split at h
              · cases h
              · next hnode =>
                  cases h
                  exact ⟨hparent, Option.not_isSome_iff_eq_none.mp hrelative,
                    Nat.le_of_not_lt hsize, rfl, hnode⟩

end FileTree

/-!
## Following a path

What a path leads to is one step away from where its front leads.
-/

namespace FileSystem

/-- The directory to which a front leads. -/
def follow (fs : FileSystem) (front : List Char) : Except FileFault Place :=
  fs.tree.walk (if front.head? == some '/' then
    [] else fs.workingDirectory) (Path.folders front)

variable {fs : FileSystem} {p : Path} {place : Place}

theorem locate_ofParts (fs : FileSystem) {front name : List Char} (hfront : Path.IsFront front)
    (hname : '/' ∉ name) (hrefused : refused (.ofParts front name) = none) :
    fs.locate (.ofParts front name) =
      (fs.follow front).bind fun parent => fs.tree.enter parent (String.ofList name) := by
  unfold locate startOf follow
  rw [hrefused, Path.components_ofParts hfront hname,
    Path.isAbsolute_ofParts hname, ← FileTree.walk_concat]

theorem locateOutput_ofParts (fs : FileSystem) {front name : List Char}
    (hfront : Path.IsFront front) (hname : '/' ∉ name)
    (hrefused : refused (.ofParts front name) = none) :
    fs.locateOutput (.ofParts front name) =
      (fs.follow front).bind fun parent =>
        fs.tree.outputPlace parent (String.ofList name) := by
  unfold locateOutput startOf follow
  rw [hrefused, Path.components_ofParts hfront hname, Path.isAbsolute_ofParts hname,
    List.dropLast_concat, List.getLast?_concat]
  dsimp only
  cases fs.tree.walk _ (Path.folders front) <;> rfl

theorem refused_of_locate (h : fs.locate p = .ok place) : refused p = none := by
  unfold locate at h
  split at h
  · cases h
  · assumption

theorem refused_of_locateOutput (h : fs.locateOutput p = .ok place) : refused p = none := by
  unfold locateOutput at h
  split at h
  · cases h
  · assumption

theorem locate_eq (fs : FileSystem) (h : refused p = none) :
    fs.locate p =
      (fs.follow p.parentText).bind fun parent =>
        fs.tree.enter parent (String.ofList p.nameText) := by
  rw [p.eq_ofParts] at h
  have hlocate := locate_ofParts fs p.isFront_parentText p.slash_not_mem_nameText h
  rwa [← p.eq_ofParts] at hlocate

theorem locateOutput_eq (fs : FileSystem) (h : refused p = none) :
    fs.locateOutput p =
      (fs.follow p.parentText).bind fun parent =>
        fs.tree.outputPlace parent (String.ofList p.nameText) := by
  rw [p.eq_ofParts] at h
  have hlocate := locateOutput_ofParts fs p.isFront_parentText p.slash_not_mem_nameText h
  rwa [← p.eq_ofParts] at hlocate

theorem enter_of_locate (h : fs.locate p = .ok place) :
    ∃ parent, fs.follow p.parentText = .ok parent ∧
      fs.tree.enter parent (String.ofList p.nameText) = .ok place := by
  rw [locate_eq fs (refused_of_locate h)] at h
  exact exists_of_bind_eq_ok h

theorem outputPlace_of_locateOutput (h : fs.locateOutput p = .ok place) :
    ∃ parent, fs.follow p.parentText = .ok parent ∧
      fs.tree.outputPlace parent (String.ofList p.nameText) = .ok place := by
  rw [locateOutput_eq fs (refused_of_locateOutput h)] at h
  exact exists_of_bind_eq_ok h

theorem refused_eq_none_iff :
    refused p = none ↔ '\x00' ∉ p.text.toList ∧ p.text ≠ "" ∧
      p.text.utf8ByteSize ≤ maxPath := by
  unfold refused
  simp only [List.contains_iff_mem, String.isEmpty_iff]
  split
  · next hnul => simp [hnul]
  · next hnul =>
      split
      · next hempty => simp [hempty]
      · next hempty =>
          split
          · next hsize => simp [Nat.not_le.mpr hsize]
          · next hsize => simp [hnul, hempty, Nat.le_of_not_lt hsize]

theorem follow_asFront (hlocate : fs.locate p = .ok place) :
    fs.follow p.asFront = .ok place := by
  have hrefused := refused_of_locate hlocate
  have hstart : (if p.asFront.head? == some '/' then [] else fs.workingDirectory) =
      fs.startOf p := by
    rw [Path.head?_asFront (refused_eq_none_iff.mp hrefused).2.1]
    rfl
  unfold locate at hlocate
  rw [hrefused] at hlocate
  dsimp only at hlocate
  rw [follow, hstart]
  rcases p.components_cases with hcomponents | hcomponents
  · rw [← hcomponents]
    exact hlocate
  · -- an empty component leads nowhere else
    rw [hcomponents, FileTree.walk_concat] at hlocate
    rcases exists_of_bind_eq_ok hlocate with ⟨parent, hwalk, henter⟩
    have hempty : FileTree.relative? parent "" = some parent := rfl
    rcases FileTree.enter_eq_ok henter with ⟨-, hrelative | ⟨hrelative, -⟩⟩
    · rw [hempty] at hrelative
      cases hrelative
      exact hwalk
    · rw [hempty] at hrelative
      cases hrelative

theorem locate_of_canonical (h : fs.canonical p = .ok place) : fs.locate p = .ok place := by
  unfold canonical at h
  unfold locate
  split at h
  · cases h
  · exact FileTree.walk_of_walkFromRoot h

theorem find_eq_ok_iff {node : Node} :
    fs.find p = .ok (place, node) ↔ fs.locate p = .ok place ∧
      fs.tree.node? place = some node := by
  unfold find
  cases fs.locate p with
  | error fault => simp
  | ok found =>
      dsimp only
      cases hnode : fs.tree.node? found with
      | none =>
          constructor
          · intro h
            cases h
          · rintro ⟨h, hsome⟩
            cases h
            rw [hnode] at hsome
            cases hsome
      | some other =>
          constructor
          · intro h
            cases h
            exact ⟨rfl, hnode⟩
          · rintro ⟨h, hsome⟩
            cases h
            rw [hnode] at hsome
            cases hsome
            rfl

theorem content_eq_ok_iff {bytes : Bytes} :
    fs.content p = .ok bytes ↔ ∃ place, fs.find p = .ok (place, .file bytes) := by
  unfold content
  cases fs.find p with
  | error fault => simp
  | ok found =>
      rcases found with ⟨place, node⟩
      cases node <;> simp

/-!
## Refusals

What a place refuses depends on nothing else, so files with the same content are read alike
as long as their places refuse alike.
-/

theorem permit_of_refuses {access : FileAccess} {fault : FileFault}
    (h : fs.refuses access place = some fault) : fs.permit access place = .error fault := by
  rw [permit, h]

theorem permit_eq_ok_iff {access : FileAccess} {other : Place} :
    fs.permit access place = .ok other ↔ fs.refuses access place = none ∧ place = other := by
  unfold permit
  cases fs.refuses access place <;> simp

theorem create_eq_ok_iff :
    fs.create p = .ok place ↔
      fs.locateOutput p = .ok place ∧ fs.refuses .create place = none := by
  unfold create
  constructor
  · intro h
    rcases exists_of_bind_eq_ok h with ⟨found, hlocate, hpermit⟩
    rcases permit_eq_ok_iff.mp hpermit with ⟨hrefuses, rfl⟩
    exact ⟨hlocate, hrefuses⟩
  · rintro ⟨hlocate, hrefuses⟩
    rw [hlocate]
    exact permit_eq_ok_iff.mpr ⟨hrefuses, rfl⟩

section Inside

variable {target : Path} {name : String} (htarget : fs.find target = .ok (place, .directory))
  (hname : '/' ∉ name.toList) (hrefused : refused (target.join name) = none)
include htarget hname hrefused

theorem locate_join : fs.locate (target.join name) = fs.tree.enter place name := by
  have hlocate := (find_eq_ok_iff.mp htarget).1
  rw [Path.join_eq_ofParts] at hrefused ⊢
  rw [locate_ofParts fs target.isFront_asFront hname hrefused,
    follow_asFront hlocate, String.ofList_toList]
  rfl

end Inside

theorem find_join {target : Path} {name : String} {node : Node} (hfs : fs.tree.WellFormed)
    (htarget : fs.find target = .ok (place, .directory))
    (hnode : fs.tree.node? (place ++ [name]) = some node)
    (hrefused : refused (target.join name) = none) :
    fs.find (target.join name) = .ok (place ++ [name], node) := by
  have hentry := hfs.isEntryName hnode
  have hplace := (find_eq_ok_iff.mp htarget).2
  refine find_eq_ok_iff.mpr ⟨?_, hnode⟩
  rw [locate_join htarget hentry.no_slash hrefused]
  exact FileTree.enter_of_node? hplace (hentry.relative? place) hentry.short
    (Option.isSome_of_eq_some hnode)

/-!
## Writing

What was written is read again under the same path, and writing again goes to the same place.
-/

section Store

variable {out : Place} (hout : fs.locateOutput p = .ok out) (content : Bytes)
include hout

theorem locateOutput_ne_nil : out ≠ [] := by
  rcases outputPlace_of_locateOutput hout with ⟨parent, -, houtput⟩
  rcases FileTree.outputPlace_eq_ok houtput with ⟨-, -, -, rfl, -⟩
  simp

theorem keeps_store : fs.tree.Keeps (fs.store out content).tree := by
  rcases outputPlace_of_locateOutput hout with ⟨parent, -, houtput⟩
  rcases FileTree.outputPlace_eq_ok houtput with ⟨-, -, -, -, hnode⟩
  exact fs.tree.keeps_set content (locateOutput_ne_nil hout) hnode

theorem locate_store {q : Path} (h : fs.locate q = .ok place) :
    (fs.store out content).locate q = .ok place := by
  unfold locate at h ⊢
  split at h
  · cases h
  · exact (keeps_store hout content).walk h

theorem node?_store (place : Place) :
    (fs.store out content).tree.node? place =
      if place = out then some (.file content) else fs.tree.node? place :=
  fs.tree.node?_set (locateOutput_ne_nil hout)

theorem find_store {q : Path} {node : Node} (hne : place ≠ out)
    (h : fs.find q = .ok (place, node)) :
    (fs.store out content).find q = .ok (place, node) := by
  rcases find_eq_ok_iff.mp h with ⟨hlocate, hnode⟩
  refine find_eq_ok_iff.mpr ⟨locate_store hout content hlocate, ?_⟩
  rw [node?_store hout, if_neg hne, hnode]

theorem follow_store {front : List Char} (h : fs.follow front = .ok place) :
    (fs.store out content).follow front = .ok place :=
  (keeps_store hout content).walk h

theorem content_store : (fs.store out content).content p = .ok content := by
  have hrefused := refused_of_locateOutput hout
  rcases outputPlace_of_locateOutput hout with ⟨parent, hfollow, houtput⟩
  rcases FileTree.outputPlace_eq_ok houtput with ⟨hparent, hrelative, hsize, rfl, -⟩
  have hnode := node?_store hout content (parent ++ [String.ofList p.nameText])
  rw [if_pos rfl] at hnode
  refine content_eq_ok_iff.mpr ⟨_, find_eq_ok_iff.mpr ⟨?_, hnode⟩⟩
  rw [locate_eq _ hrefused, follow_store hout content hfollow]
  exact FileTree.enter_of_node? ((keeps_store hout content).directory _ hparent) hrelative
    hsize (Option.isSome_of_eq_some hnode)

end Store

end FileSystem
end HackVM
