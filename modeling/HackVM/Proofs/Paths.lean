import Mathlib.Data.List.Basic
import Mathlib.Data.List.TakeWhile
import HackVM.Files.Path

/-!
# Paths and their parts

A path consists of a front that leads to a directory, and of a name behind it.  The front is
empty or ends in a slash, and the name holds no slash.  Joining a name to a path and
replacing an extension are changes of the name alone, so that the paths they give lead to the
same directory.
-/

namespace HackVM
namespace Path

/-!
## Front and name

A path is cut behind its last slash.
-/

def ofParts (front name : List Char) : Path :=
  { text := String.ofList (front ++ name) }

def IsFront (front : List Char) : Prop :=
  front = [] ∨ ∃ before, front = before ++ ['/']

theorem bne_slash_of_not_mem {name : List Char} (h : '/' ∉ name) :
    ∀ c ∈ name.reverse, (c != '/') = true := by
  intro c hc
  rw [bne_iff_ne]
  rintro rfl
  exact h (List.mem_reverse.mp hc)

theorem parentText_ofParts {front name : List Char} (hfront : IsFront front)
    (hname : '/' ∉ name) :
    (ofParts front name).parentText = front := by
  rw [parentText, ofParts, String.toList_ofList, List.reverse_append,
    List.dropWhile_append_of_pos (bne_slash_of_not_mem hname)]
  rcases hfront with rfl | ⟨before, rfl⟩
  · rfl
  · simp

theorem nameText_ofParts {front name : List Char} (hfront : IsFront front)
    (hname : '/' ∉ name) :
    (ofParts front name).nameText = name := by
  rw [nameText, ofParts, String.toList_ofList, List.reverse_append,
    List.takeWhile_append_of_pos (bne_slash_of_not_mem hname)]
  rcases hfront with rfl | ⟨before, rfl⟩ <;> simp

theorem isFront_parentText (p : Path) : IsFront p.parentText := by
  unfold parentText
  cases hrest : p.text.toList.reverse.dropWhile (· != '/') with
  | nil => exact Or.inl rfl
  | cons c rest =>
      have hhead := List.head?_dropWhile_not (· != '/') p.text.toList.reverse
      rw [hrest] at hhead
      have hc : c = '/' := by
        simpa using hhead
      exact Or.inr ⟨rest.reverse, by rw [hc, List.reverse_cons]⟩

theorem slash_not_mem_nameText (p : Path) : '/' ∉ p.nameText := by
  intro hmem
  rw [nameText, List.mem_reverse] at hmem
  have hslash := List.mem_takeWhile_imp hmem
  cases hslash

theorem eq_ofParts (p : Path) : p = ofParts p.parentText p.nameText := by
  have htext : p.text.toList = p.parentText ++ p.nameText := by
    rw [parentText, nameText, ← List.reverse_append,
      List.takeWhile_append_dropWhile, List.reverse_reverse]
  rw [ofParts, ← htext, String.ofList_toList]

/-!
## Components

A front has the components of the directories that it passes, and a path one more.
-/

def folders (front : List Char) : List String :=
  ((front.splitOn '/').dropLast).map String.ofList

theorem splitOn_concat_slash (before name : List Char) (hname : '/' ∉ name) :
    (before ++ '/' :: name).splitOn '/' = before.splitOn '/' ++ [name] := by
  rw [List.splitOn_eq_splitOnP, List.splitOnP_append_cons _ _ (by rfl),
    ← List.splitOn_eq_splitOnP, ← List.splitOn_eq_splitOnP, List.splitOn_eq_singleton hname]

theorem components_ofParts {front name : List Char} (hfront : IsFront front)
    (hname : '/' ∉ name) :
    (ofParts front name).components = folders front ++ [String.ofList name] := by
  rw [components, ofParts, String.toList_ofList, folders]
  rcases hfront with rfl | ⟨before, rfl⟩
  · rw [List.nil_append, List.splitOn_eq_singleton hname]
    rfl
  · rw [List.append_assoc, List.singleton_append, splitOn_concat_slash before name hname,
      splitOn_concat_slash before [] (List.not_mem_nil), List.dropLast_concat, List.map_append]
    rfl

theorem isAbsolute_ofParts {front name : List Char} (hname : '/' ∉ name) :
    (ofParts front name).isAbsolute = (front.head? == some '/') := by
  rw [isAbsolute, ofParts, String.toList_ofList]
  cases front with
  | cons c front => rfl
  | nil =>
      cases name with
      | nil => rfl
      | cons c name =>
          have hc : c ≠ '/' := fun h => hname (h ▸ List.mem_cons_self)
          simpa using hc

/-!
## Joining

What is inside a directory has the path of the directory as its front.  A slash at the end of
a path is an empty component, which that front does not have.
-/

def asFront (p : Path) : List Char :=
  if p.text.toList.getLast? = some '/' then p.text.toList else p.text.toList ++ ['/']

theorem join_eq_ofParts (p : Path) (name : String) :
    p.join name = ofParts p.asFront name.toList := by
  unfold join ofParts asFront
  split
  · rw [String.ofList_append, String.ofList_toList, String.ofList_toList]
  · rw [String.ofList_append, String.ofList_append, String.ofList_toList, String.ofList_toList]

theorem isFront_asFront (p : Path) : IsFront p.asFront := by
  unfold asFront
  split
  · next hlast => exact Or.inr ⟨_, (List.dropLast_append_getLast? '/' hlast).symm⟩
  · exact Or.inr ⟨_, rfl⟩

theorem head?_asFront {p : Path} (h : p.text ≠ "") :
    p.asFront.head? = p.text.toList.head? := by
  unfold asFront
  split
  · rfl
  · cases htext : p.text.toList with
    | nil => exact absurd (String.toList_eq_nil_iff.mp htext) h
    | cons c rest => rfl

theorem components_cases (p : Path) :
    p.components = folders p.asFront ∨ p.components = folders p.asFront ++ [""] := by
  unfold asFront
  split
  · next hlast =>
      have htext := List.dropLast_append_getLast? '/' hlast
      have hfront : IsFront (p.text.toList.dropLast ++ ['/']) := Or.inr ⟨_, rfl⟩
      have hparts := components_ofParts hfront (List.not_mem_nil (a := '/'))
      rw [ofParts, List.append_nil, htext, String.ofList_toList] at hparts
      exact Or.inr hparts
  · left
    rw [folders, splitOn_concat_slash _ [] List.not_mem_nil, List.dropLast_concat]
    rfl

/-!
## Extensions

An extension begins at the last dot of the name.
-/

theorem splitName_dot {stem extension : List Char} (hstem : stem ≠ [])
    (hextension : '.' ∉ extension) (hne : stem ++ '.' :: extension ≠ ['.', '.']) :
    splitName (stem ++ '.' :: extension) = (stem, some extension) := by
  have hdots : ∀ c ∈ extension.reverse, (c != '.') = true := by
    intro c hc
    rw [bne_iff_ne]
    rintro rfl
    exact hextension (List.mem_reverse.mp hc)
  have hreverse : (stem ++ '.' :: extension).reverse = extension.reverse ++
      '.' :: stem.reverse := by
    simp
  have hdrop : (stem ++ '.' :: extension).reverse.dropWhile (· != '.') =
      '.' :: stem.reverse := by
    rw [hreverse, List.dropWhile_append_of_pos hdots]
    rfl
  have htake : (stem ++ '.' :: extension).reverse.takeWhile
      (· != '.') = extension.reverse := by
    rw [hreverse, List.takeWhile_append_of_pos hdots]
    exact List.append_nil _
  rw [splitName, if_neg hne, hdrop, htake, List.reverse_reverse]
  cases hcases : stem.reverse with
  | nil => exact absurd (List.reverse_eq_nil_iff.mp hcases) hstem
  | cons c rest => simp [← hcases]

theorem splitName_cases (name : List Char) :
    splitName name = (name, none) ∨
      ∃ stem extension, stem ≠ [] ∧ name = stem ++ '.' :: extension ∧
        splitName name = (stem, some extension) := by
  unfold splitName
  split
  · exact Or.inl rfl
  · cases hdrop : name.reverse.dropWhile (· != '.') with
    | nil => exact Or.inl rfl
    | cons c rest =>
        cases rest with
        | nil => exact Or.inl rfl
        | cons d rest =>
            have hhead := List.head?_dropWhile_not (· != '.') name.reverse
            rw [hdrop] at hhead
            have hc : c = '.' := by
              simpa using hhead
            have hname := List.takeWhile_append_dropWhile (p := (· != '.')) (l := name.reverse)
            rw [hdrop, hc, ← List.reverse_inj, List.reverse_reverse, List.reverse_append,
              List.reverse_cons, List.append_assoc, List.singleton_append] at hname
            exact Or.inr ⟨(d :: rest).reverse, _, by simp, hname.symm, rfl⟩

theorem stem_ne_nil {name : List Char} (h : name ≠ []) : (splitName name).1 ≠ [] := by
  rcases splitName_cases name with hsplit | ⟨stem, extension, hstem, -, hsplit⟩
  · rw [hsplit]
    exact h
  · rw [hsplit]
    exact hstem

theorem mem_of_mem_stem {name : List Char} {c : Char} (h : c ∈ (splitName name).1) :
    c ∈ name := by
  rcases splitName_cases name with hsplit | ⟨stem, extension, -, rfl, hsplit⟩
  · rw [hsplit] at h
    exact h
  · rw [hsplit] at h
    exact List.mem_append_left _ h

theorem upToDot_eq {p : Path} (h : p.nameText ≠ []) :
    ∃ name, p.upToDot = ofParts p.parentText name ∧ name ≠ [] ∧ '/' ∉ name := by
  have hslash := p.slash_not_mem_nameText
  unfold upToDot extension?
  rcases splitName_cases p.nameText with hsplit | ⟨before, extension, -, hname, hsplit⟩
  · rw [hsplit]
    exact ⟨p.nameText, p.eq_ofParts, h, hslash⟩
  · have hstem : p.stem = String.ofList before := by
      rw [stem, hsplit]
    have hbefore : '/' ∉ before := by
      rw [hname] at hslash
      exact fun hmem => hslash (List.mem_append_left _ hmem)
    rw [hsplit]
    refine ⟨before ++ ['.'], ?_, by simp, by simpa using hbefore⟩
    rw [ofParts, String.ofList_append, String.ofList_append, ← String.append_assoc, ← hstem]
    rfl

/--
The path with another extension: the same front, and a name that ends in the extension.  The
one exception is the name of the parent directory.
-/
theorem withExtension_eq {p : Path} (h : p.nameText ≠ []) {extension : String}
    (hextension : '/' ∉ extension.toList) :
    ∃ name, p.withExtension extension = ofParts p.parentText name ∧ '/' ∉ name ∧
      (name = ['.', '.'] ∨ ∃ stem, stem ≠ [] ∧ name = stem ++ '.' :: extension.toList) := by
  rcases upToDot_eq h with ⟨bare, hbare, hne, hslash⟩
  have hparent := parentText_ofParts p.isFront_parentText hslash
  have hname := nameText_ofParts p.isFront_parentText hslash
  simp only [withExtension, hbare, stem, hname, hparent]
  split
  · next hdots => exact ⟨bare, rfl, hslash, Or.inl hdots⟩
  · have hstem : '/' ∉ (splitName bare).1 := fun hmem => hslash (mem_of_mem_stem hmem)
    refine ⟨(splitName bare).1 ++ '.' :: extension.toList, ?_, ?_,
      Or.inr ⟨_, stem_ne_nil hne, rfl⟩⟩
    · simp [ofParts, String.ofList_append, String.append_assoc]
    · simp [hstem, hextension]

end Path
end HackVM
