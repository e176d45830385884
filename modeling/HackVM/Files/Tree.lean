import HackVM.Text.Utf8

/-!
# File trees

A tree gives every place at most one node.  Places are the names on the way from the root;
the root itself is always a directory and is not listed.
-/

namespace HackVM

abbrev Place := List String

inductive Node where
  | file (content : Bytes)
  | directory
deriving DecidableEq

structure FileTree where
  entries : List (Place × Node)
  nodup : (entries.map Prod.fst).Nodup

namespace FileTree

def empty : FileTree :=
  { entries := [], nodup := List.nodup_nil }

def node? (t : FileTree) (place : Place) : Option Node :=
  if place = [] then some .directory else t.entries.lookup place

def others (t : FileTree) (place : Place) : List (Place × Node) :=
  t.entries.filter fun entry => entry.1 != place

theorem nodup_others (t : FileTree) (place : Place) : ((t.others place).map Prod.fst).Nodup :=
  t.nodup.sublist (List.filter_sublist.map Prod.fst)

def erase (t : FileTree) (place : Place) : FileTree :=
  { entries := t.others place, nodup := t.nodup_others place }

def set (t : FileTree) (place : Place) (node : Node) : FileTree :=
  { entries := (place, node) :: t.others place
    nodup := by
      rw [List.map_cons, List.nodup_cons]
      constructor
      · intro hmem
        rcases List.mem_map.mp hmem with ⟨entry, hentry, hplace⟩
        have hne := (List.mem_filter.mp hentry).2
        simp [hplace] at hne
      · exact t.nodup_others place }

def children (t : FileTree) (place : Place) : List (String × Node) :=
  t.entries.filterMap fun entry =>
    match entry.1.getLast? with
    | some name => if entry.1.dropLast = place then some (name, entry.2) else none
    | none => none

/-! What is stored at a place is found there, and all other places keep what they had. -/

theorem lookup_others {t : FileTree} {place other : Place} (h : other ≠ place) :
    (t.others place).lookup other = t.entries.lookup other := by
  unfold others
  induction t.entries with
  | nil => rfl
  | cons entry rest ih =>
      rcases entry with ⟨key, node⟩
      by_cases hkey : key = place
      · have hfalse : (other == key) = false := by simpa [hkey] using h
        simpa [List.filter_cons, hkey, List.lookup_cons, hkey ▸ hfalse] using ih
      · cases hother : other == key with
        | true => simp [hkey, List.lookup_cons, hother]
        | false => simpa [List.filter_cons, hkey, List.lookup_cons, hother] using ih

theorem node?_set (t : FileTree) {place other : Place} {node : Node} (hplace : place ≠ []) :
    (t.set place node).node? other = if other = place then some node else t.node? other := by
  unfold node? set
  by_cases heq : other = place
  · subst heq
    simp [hplace]
  · have hfalse : (other == place) = false := by simpa using heq
    simp only [List.lookup_cons, hfalse, heq, if_false, lookup_others heq]

end FileTree
end HackVM
