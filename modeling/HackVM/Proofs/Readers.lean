import Mathlib.Data.List.Nodup
import HackVM.Text.Reader

/-!
# Laws of readers

What a reader takes from the front of a text is said together with the rest that it leaves.
Readers that never succeed on the same text can be tried in any order: the first one that
succeeds is the only one.
-/

namespace HackVM
namespace Reader

variable {α β : Type} {cs rest : List Char}

/-!
## One reader after the other

Each law says on which texts a reader succeeds, and how it cuts them.
-/

theorem run_bind_eq_some_iff {r : Reader α} {f : α → Reader β} {y : β} :
    (r >>= f).run cs = some (y, rest) ↔
      ∃ x middle, r.run cs = some (x, middle) ∧ (f x).run middle = some (y, rest) := by
  rw [StateT.run_bind]
  simp [Option.bind_eq_some_iff]

theorem run_pure_eq_some_iff {x y : α} :
    (pure x : Reader α).run cs = some (y, rest) ↔ x = y ∧ cs = rest := by
  rw [StateT.run_pure]
  simp

theorem run_map_eq_some_iff {f : α → β} {r : Reader α} {y : β} :
    (f <$> r).run cs = some (y, rest) ↔ ∃ x, r.run cs = some (x, rest) ∧ f x = y := by
  rw [StateT.run_map]
  simp

theorem run_tag_eq_some_iff {word : String} {u : Unit} :
    (tag word).run cs = some (u, rest) ↔ cs = word.toList ++ rest := by
  have hfront : (tag word).run cs = some (u, rest) ↔
      word.toList.isPrefixOf? cs = some rest := by
    simp [StateT.run, tag]
  rw [hfront, List.isPrefixOf?_eq_some_iff_append_eq, eq_comm]

def Stops (p : Char → Bool) (cs : List Char) : Prop :=
  ∀ c, cs.head? = some c → p c = false

theorem stops_nil (p : Char → Bool) : Stops p [] := by
  intro c hc
  cases hc

theorem stops_append {p : Char → Bool} (hcs : cs ≠ []) (hchars : ∀ c ∈ cs, p c = false)
    (rest : List Char) : Stops p (cs ++ rest) := by
  cases cs with
  | nil => exact absurd rfl hcs
  | cons first others =>
      intro c hc
      cases hc
      exact hchars first List.mem_cons_self

theorem Stops.takeWhile_eq {p : Char → Bool} (h : Stops p cs) : cs.takeWhile p = [] := by
  cases cs with
  | nil => rfl
  | cons c others => rw [List.takeWhile_cons, h c rfl, if_neg Bool.false_ne_true]

theorem Stops.dropWhile_eq {p : Char → Bool} (h : Stops p cs) : cs.dropWhile p = cs := by
  cases cs with
  | nil => rfl
  | cons c others => rw [List.dropWhile_cons, h c rfl, if_neg Bool.false_ne_true]

theorem run_longest_eq_some_iff {p : Char → Bool} {front : List Char} :
    (longest p).run cs = some (front, rest) ↔
      cs = front ++ rest ∧ front ≠ [] ∧ (∀ c ∈ front, p c = true) ∧ Stops p rest := by
  have hrun : (longest p).run cs =
      if (cs.takeWhile p).isEmpty then none else some (cs.takeWhile p, cs.dropWhile p) := rfl
  constructor
  · intro h
    rw [hrun] at h
    split at h
    · cases h
    · next hne =>
        cases h
        refine ⟨List.takeWhile_append_dropWhile.symm, by simpa using hne, ?_, ?_⟩
        · exact List.all_eq_true.mp List.all_takeWhile
        · intro c hc
          have hnot := List.head?_dropWhile_not p cs
          rw [hc] at hnot
          exact hnot
  · rintro ⟨rfl, hne, hchars, hstops⟩
    rw [hrun, List.takeWhile_append_of_pos hchars, List.dropWhile_append_of_pos hchars,
      hstops.takeWhile_eq, hstops.dropWhile_eq, List.append_nil, if_neg]
    simpa using hne

theorem whole_eq_some_iff {r : Reader α} {x : α} :
    r.whole cs = some x ↔ r.run cs = some (x, []) := by
  have hrun : r.run cs = r cs := rfl
  rw [hrun, whole]
  rcases r cs with _ | ⟨y, _ | ⟨c, others⟩⟩ <;> simp

/-!
## Readers in any order

No two of the readers succeed on the same text, whatever rests they would leave.  Keywords
show this at the front of the text: of two words that begin the same text, one begins the
other.
-/

def Exclusive (r s : Reader α) : Prop :=
  ∀ cs, r.run cs = none ∨ s.run cs = none

theorem Exclusive.symm {r s : Reader α} (h : Exclusive r s) : Exclusive s r :=
  fun cs => (h cs).symm

theorem exists_of_run_firstOf {rs : List (Reader α)} {result : α × List Char}
    (h : (firstOf rs).run cs = some result) : ∃ r ∈ rs, r.run cs = some result := by
  induction rs with
  | nil => cases h
  | cons first others ih =>
      rcases Option.or_eq_some_iff.mp h with hfirst | ⟨-, hothers⟩
      · exact ⟨first, List.mem_cons_self, hfirst⟩
      · rcases ih hothers with ⟨r, hr, hrun⟩
        exact ⟨r, List.mem_cons_of_mem _ hr, hrun⟩

theorem run_firstOf_eq_some_iff {rs : List (Reader α)} (h : rs.Pairwise Exclusive)
    {result : α × List Char} :
    (firstOf rs).run cs = some result ↔ ∃ r ∈ rs, r.run cs = some result := by
  refine ⟨exists_of_run_firstOf, ?_⟩
  rintro ⟨r, hr, hrun⟩
  induction rs with
  | nil => cases hr
  | cons first others ih =>
      rcases List.pairwise_cons.mp h with ⟨hfirst, hothers⟩
      rcases List.mem_cons.mp hr with rfl | hr
      · exact Option.or_eq_some_iff.mpr (Or.inl hrun)
      · refine Option.or_eq_some_iff.mpr (Or.inr ⟨?_, ih hothers hr⟩)
        -- The reader that succeeds stands further on, so the first one fails.
        rcases hfirst r hr cs with hnone | hnone
        · exact hnone
        · rw [hrun] at hnone
          cases hnone

theorem firstOf_perm {rs ss : List (Reader α)} (h : rs.Pairwise Exclusive)
    (hperm : ss.Perm rs) : firstOf ss = firstOf rs := by
  have hss : ss.Pairwise Exclusive := (hperm.pairwise_iff Exclusive.symm).mpr h
  funext cs
  apply Option.ext
  intro result
  have hfirst : (firstOf ss).run cs = some result ↔ ∃ r ∈ rs, r.run cs = some result := by
    rw [run_firstOf_eq_some_iff hss]
    simp only [hperm.mem_iff]
  exact hfirst.trans (run_firstOf_eq_some_iff h).symm

def StartsWith (r : Reader α) (keywords : List String) : Prop :=
  ∀ cs result, r.run cs = some result → ∃ keyword ∈ keywords, keyword.toList <+: cs

/-- No keyword of one list begins a keyword of the other. -/
def Apart (first second : List String) : Prop :=
  ∀ keyword ∈ first, ∀ other ∈ second,
    ¬keyword.toList <+: other.toList ∧ ¬other.toList <+: keyword.toList

instance (first second : List String) : Decidable (Apart first second) :=
  inferInstanceAs (Decidable (∀ keyword ∈ first, ∀ other ∈ second, _))

theorem exclusive_of_startsWith {r s : Reader α} {first second : List String}
    (hr : StartsWith r first) (hs : StartsWith s second) (h : Apart first second) :
    Exclusive r s := by
  intro cs
  cases hfirst : r.run cs with
  | none => exact Or.inl rfl
  | some result =>
      cases hsecond : s.run cs with
      | none => exact Or.inr rfl
      | some other =>
          rcases hr cs result hfirst with ⟨keyword, hkeyword, hbegins⟩
          rcases hs cs other hsecond with ⟨rival, hrival, hrivals⟩
          rcases h keyword hkeyword rival hrival with ⟨hnot, hnot'⟩
          rcases List.prefix_or_prefix_of_prefix hbegins hrivals with hbegun | hbegun
          · exact absurd hbegun hnot
          · exact absurd hbegun hnot'

theorem pairwise_exclusive {keyed : List (List String × Reader α)}
    (hstarts : ∀ entry ∈ keyed, StartsWith entry.2 entry.1)
    (hapart : (keyed.map Prod.fst).Pairwise Apart) :
    (keyed.map Prod.snd).Pairwise Exclusive := by
  rw [List.pairwise_map] at hapart ⊢
  refine hapart.imp_of_mem ?_
  intro entry other hentry hother h
  exact exclusive_of_startsWith (hstarts entry hentry) (hstarts other hother) h

theorem startsWith_tag_bind (keyword : String) (f : Unit → Reader α) :
    StartsWith (tag keyword >>= f) [keyword] := by
  rintro cs ⟨x, rest⟩ hrun
  rcases run_bind_eq_some_iff.mp hrun with ⟨u, middle, htag, -⟩
  refine ⟨keyword, List.mem_singleton.mpr rfl, middle, ?_⟩
  exact (run_tag_eq_some_iff.mp htag).symm

theorem startsWith_map {r : Reader α} {keywords : List String} (h : StartsWith r keywords)
    (f : α → β) : StartsWith (f <$> r) keywords := by
  rintro cs ⟨y, rest⟩ hrun
  rcases run_map_eq_some_iff.mp hrun with ⟨x, hx, -⟩
  exact h cs _ hx

theorem startsWith_tag (keyword : String) : StartsWith (tag keyword) [keyword] := by
  rintro cs ⟨u, rest⟩ hrun
  refine ⟨keyword, List.mem_singleton.mpr rfl, rest, ?_⟩
  exact (run_tag_eq_some_iff.mp hrun).symm

theorem startsWith_firstOf {keyed : List (List String × Reader α)}
    (hstarts : ∀ entry ∈ keyed, StartsWith entry.2 entry.1) :
    StartsWith (firstOf (keyed.map Prod.snd)) (keyed.flatMap Prod.fst) := by
  intro cs result hrun
  rcases exists_of_run_firstOf hrun with ⟨r, hr, hresult⟩
  rcases List.mem_map.mp hr with ⟨entry, hentry, rfl⟩
  rcases hstarts entry hentry cs result hresult with ⟨keyword, hkeyword, hbegins⟩
  exact ⟨keyword, List.mem_flatMap.mpr ⟨entry, hentry, hkeyword⟩, hbegins⟩

/-!
## Vocabularies

The words of a vocabulary are told apart at the front of a text if none of them begins
another.
-/

section Spelled

variable [Spelled α]

def keyedSpellings (α : Type) [Spelled α] : List (List String × Reader α) :=
  (Spelled.all : List α).map fun x =>
    ([Spelled.spell x], (fun _ => x) <$> tag (Spelled.spell x))

theorem spellings_eq : spellings α = (keyedSpellings α).map Prod.snd := by
  rw [keyedSpellings, List.map_map]
  rfl

theorem startsWith_of_mem_keyedSpellings :
    ∀ entry ∈ keyedSpellings α, StartsWith entry.2 entry.1 := by
  intro entry hentry
  rcases List.mem_map.mp hentry with ⟨x, -, rfl⟩
  exact startsWith_map (startsWith_tag _) _

theorem startsWith_spelled :
    StartsWith (spelled : Reader α) ((Spelled.all : List α).map Spelled.spell) := by
  have hstarts := startsWith_firstOf (@startsWith_of_mem_keyedSpellings α _)
  rw [← spellings_eq, keyedSpellings, List.flatMap_map] at hstarts
  rw [List.map_eq_flatMap]
  exact hstarts

theorem exclusive_spellings
    (h : ((keyedSpellings α).map Prod.fst).Pairwise Apart) :
    (spellings α).Pairwise Exclusive := by
  rw [spellings_eq]
  exact pairwise_exclusive startsWith_of_mem_keyedSpellings h

theorem run_spelled_eq_some_iff (h : ((keyedSpellings α).map Prod.fst).Pairwise Apart)
    {x : α} :
    (spelled : Reader α).run cs = some (x, rest) ↔ cs = (Spelled.spell x).toList ++ rest := by
  rw [spelled, run_firstOf_eq_some_iff (exclusive_spellings h)]
  constructor
  · rintro ⟨r, hr, hrun⟩
    rcases List.mem_map.mp hr with ⟨y, -, rfl⟩
    rcases run_map_eq_some_iff.mp hrun with ⟨u, htag, rfl⟩
    exact run_tag_eq_some_iff.mp htag
  · intro hcs
    refine ⟨_, List.mem_map.mpr ⟨x, Spelled.mem_all x, rfl⟩, ?_⟩
    exact run_map_eq_some_iff.mpr ⟨(), run_tag_eq_some_iff.mpr hcs, rfl⟩

end Spelled

end Reader
end HackVM
