import HackVM.Proofs.Acceptance
import HackVM.Proofs.Collisions
import HackVM.Session

/-!
# Generated labels over a session

Comparisons, calls and starts of a program make up labels of their own.  One emitter never
makes up the same label twice, whatever else it is asked for in between, and whatever the
called functions are named.
-/

namespace HackVM

/-!
## Label definitions as lines

A line defines a label exactly if its item does.
-/

def isDefinitionLine (line : String) : Bool :=
  line.toList.head? = some '('

theorem Item.isDefinitionLine_render (item : Item) :
    isDefinitionLine item.render = item.label?.isSome := by
  cases item with
  | compute dest comp jump =>
      rcases exists_cons_of_compute dest comp jump with ⟨c, rest, htext, -, hparen⟩
      simp [isDefinitionLine, htext, label?, hparen]
  | _ => simp [isDefinitionLine, render, label?]

namespace Code

def definitions (code : Code) : List String :=
  code.render.filter isDefinitionLine

theorem definitions_eq (code : Code) :
    code.definitions = code.labels.map fun s => "(" ++ s.name ++ ")" := by
  induction code with
  | nil => rfl
  | cons item code ih =>
      have hline := item.isDefinitionLine_render
      show (item.render :: render code).filter isDefinitionLine = _
      cases item with
      | label symbol =>
          rw [List.filter_cons_of_pos (by rw [hline]; rfl)]
          exact congrArg _ ih
      | _ =>
          rw [List.filter_cons_of_neg (by rw [hline]; exact Bool.false_ne_true)]
          exact ih

theorem definitions_compare {front : Code} (hfront : front.labels = []) (op : Comparison)
    (n : Nat) :
    definitions (front ++ compare op n) = ["(CMP$TRUE." ++ Nat.repr n ++ ")",
      "(CMP$END." ++ Nat.repr n ++ ")"] := by
  have hlabels : labels (compare op n) = [.holds n, .compared n] := rfl
  rw [definitions_eq, labels_append, hfront, hlabels]
  simp [Symbol.name, ← String.toList_inj]

theorem definitions_call {front : Code} (hfront : front.labels = []) (name : String)
    (arguments : Word) (n : Nat) :
    definitions (front ++ call name arguments n) =
      ["(" ++ name ++ "$ret." ++ Nat.repr n ++ ")"] := by
  have hlabels : labels (call name arguments n) = [.returned name n] := rfl
  rw [definitions_eq, labels_append, hfront, hlabels]
  simp [Symbol.name, ← String.toList_inj]

end Code

namespace Session

/-!
## What a session is asked for

Comparisons, calls and starts of a program have labels that are made up for them.  They are
collected from the steps that were answered with code.
-/

def Answer.code? : Answer → Option Code
  | .code lines => some lines
  | .done | .failed _ => none

namespace Step

def command? : Step → Option Command
  | .emit command => some command
  | .line text => Command.read? text.toList
  | .bootstrap | .enterModule _ | .annotate _ => none

theorem command?_line {text : String} {command : Command}
    (h : Command.parse 0 text = .ok command) :
    (line text).command? = some command := by
  unfold Command.parse at h
  split at h
  · next hread =>
      cases h
      exact hread
  · cases h

def isComparison (s : Step) : Bool :=
  s.command?.any Command.isComparison

def callee? : Step → Option String
  | .bootstrap => some "Sys.init"
  | s => s.command?.bind Command.callee?

def generates (s : Step) : Bool :=
  s.isComparison || s.callee?.isSome

end Step

def accepted (e : Emitter) (steps : List Step) : List (Step × Code) :=
  (steps.zip (run e steps)).filterMap fun met => met.2.1.code?.map fun code => (met.1, code)

def comparisons (e : Emitter) (steps : List Step) : List Code :=
  ((accepted e steps).filter fun met => met.1.isComparison).map Prod.snd

def callSites (e : Emitter) (steps : List Step) : List (String × Code) :=
  (accepted e steps).filterMap fun met => met.1.callee?.map fun name => (name, met.2)

def generated (e : Emitter) (steps : List Step) : List String :=
  ((accepted e steps).filter fun met => met.1.generates).flatMap fun met => met.2.definitions

/-!
## One step

A step makes up labels with the next number of their kind, or it makes up none and numbers
nothing.
-/

theorem step_line_error {e : Emitter} {text : String} {error : ParseError}
    (h : Command.parse 0 text = .error error) :
    step e (.line text) = (.failed (.unparsable error), e) := by
  simp only [step, h]

theorem step_line_ok {e : Emitter} {text : String} {command : Command}
    (h : Command.parse 0 text = .ok command) :
    step e (.line text) = emit e command := by
  simp only [step, h]

/-- What a step does to the numbering, and where the next number goes. -/
inductive Effect (e : Emitter) (s : Step) (next : Emitter) : Option Code → Prop where
  | none {answer : Option Code} (hidle : answer = Option.none ∨ s.generates = false)
      (hcomparisons : next.comparisons = e.comparisons)
        (hcallSites : next.callSites = e.callSites) :
      Effect e s next answer
  | comparison (front : Code) (op : Comparison) (hfront : front.labels = [])
      (hstep : s.isComparison = true)
      (hcallee : s.callee? = Option.none) (hcomparisons : next.comparisons = e.comparisons + 1)
      (hcallSites : next.callSites = e.callSites) :
      Effect e s next (some (front ++ Code.compare op (e.comparisons + 1)))
  | call (front : Code) (name : String) (arguments : Word) (hfront : front.labels = [])
      (hstep : s.isComparison = false) (hcallee : s.callee? = some name)
      (hcomparisons : next.comparisons = e.comparisons)
        (hcallSites : next.callSites = e.callSites + 1) :
      Effect e s next (some (front ++ Code.call name arguments (e.callSites + 1)))

theorem emit_of_ok {e : Emitter} {command : Command} {code : Code}
    (h : e.body command = .ok code) :
    emit e command = (.code (e.annotated command.render code), e.advance command) := by
  rw [emit, Emitter.translate_eq_settle, h]
  rfl

theorem emit_of_error {e : Emitter} {command : Command} {cause : Inexpressible}
    (h : e.body command = .error cause) :
    emit e command = (.failed (.inexpressible cause), e) := by
  rw [emit, Emitter.translate_eq_settle, h]
  rfl

theorem effect_emit (e : Emitter) (s : Step) {command : Command}
    (hs : s.command? = some command) (hcallee : s.callee? = command.callee?) :
    Effect e s (emit e command).2 (emit e command).1.code? := by
  have hcomparison : s.isComparison = command.isComparison := by
    simp [Step.isComparison, hs]
  cases hbody : e.body command with
  | error cause =>
      rw [emit_of_error hbody]
      exact .none (Or.inl rfl) rfl rfl
  | ok body =>
      rcases Emitter.annotated_eq e command.render body with ⟨front, hfront, -, hlabels⟩
      rw [emit_of_ok hbody, hfront]
      cases command with
      | operate op =>
          cases op with
          | compare op =>
              cases hbody
              exact .comparison front op hlabels hcomparison hcallee rfl rfl
          | unary op | binary op =>
              exact .none (Or.inr (by simp [Step.generates, hcomparison, hcallee,
                Command.isComparison, Command.callee?])) rfl rfl
      | call name arguments =>
          simp only [Emitter.body] at hbody
          split at hbody
          · cases hbody
            exact .call front name arguments hlabels hcomparison hcallee rfl rfl
          · cases hbody
      | _ =>
          exact .none (Or.inr (by simp [Step.generates, hcomparison, hcallee,
            Command.isComparison, Command.callee?])) rfl rfl

theorem effect_step (e : Emitter) (s : Step) : Effect e s (step e s).2 (step e s).1.code? := by
  cases s with
  | emit command => exact effect_emit e _ rfl rfl
  | line text =>
      cases hparse : Command.parse 0 text with
      | error error =>
          rw [step_line_error hparse]
          exact .none (Or.inl rfl) rfl rfl
      | ok command =>
          have hread := Step.command?_line hparse
          rw [step_line_ok hparse]
          exact effect_emit e _ hread (congrArg (Option.bind · Command.callee?) hread)
  | bootstrap =>
      rcases Emitter.annotated_eq e "bootstrap" (Code.bootstrap (e.callSites + 1)) with
        ⟨front, hfront, -, hlabels⟩
      have hcode : e.bootstrap.1 =
        (front ++ [Item.literal Code.stackBase, Item.assign .d (.copy .a), Item.cell .sp,
          Item.assign .m .d]) ++ Code.call "Sys.init" 0 (e.callSites + 1) := by
        rw [List.append_assoc]
        exact hfront
      show Effect e .bootstrap e.bootstrap.2 (some e.bootstrap.1)
      rw [hcode]
      refine .call _ "Sys.init" 0 ?_ rfl rfl rfl rfl
      rw [Code.labels_append, hlabels]
      rfl
  | enterModule name => exact .none (Or.inl rfl) rfl rfl
  | annotate on => exact .none (Or.inl rfl) rfl rfl

/-!
## Whole sessions

Along a session the numbers of each kind go up by one.
-/

theorem accepted_cons (e : Emitter) (s : Step) (rest : List Step) :
    accepted e (s :: rest) =
      ((step e s).1.code?.map fun code => (s, code)).toList ++ accepted (step e s).2 rest := by
  unfold accepted
  rw [run, List.zip_cons_cons, List.filterMap_cons]
  cases (step e s).1.code? <;> rfl

/--
The code of each comparison and of each call site has the next number of its kind, after the
given ones.
-/
inductive Numbered : Nat → Nat → List (Step × Code) → Prop where
  | nil {comparisons callSites : Nat} : Numbered comparisons callSites []
  | plain {comparisons callSites : Nat} {s : Step} {code : Code} {rest : List (Step × Code)} :
      s.generates = false → Numbered comparisons callSites rest →
      Numbered comparisons callSites ((s, code) :: rest)
  | comparison {comparisons callSites : Nat} {s : Step} {rest : List (Step × Code)}
      (front : Code) (op : Comparison) :
      s.isComparison = true → s.callee? = none → front.labels = [] →
        Numbered (comparisons + 1) callSites rest →
      Numbered comparisons callSites ((s, front ++ Code.compare op (comparisons + 1)) :: rest)
  | call {comparisons callSites : Nat} {s : Step} {rest : List (Step × Code)}
      (front : Code) (name : String)
      (arguments : Word) :
      s.isComparison = false → s.callee? = some name → front.labels = [] →
      Numbered comparisons (callSites + 1) rest →
      Numbered comparisons callSites
        ((s, front ++ Code.call name arguments (callSites + 1)) :: rest)

theorem numbered_accepted (e : Emitter) (steps : List Step) :
    Numbered e.comparisons e.callSites (accepted e steps) := by
  induction steps generalizing e with
  | nil => exact .nil
  | cons s rest ih =>
      have hrest := ih (step e s).2
      have heffect := effect_step e s
      rw [accepted_cons]
      generalize (step e s).1.code? = answer at heffect ⊢
      cases heffect with
      | none hidle hcomparisons hcallSites =>
          rw [hcomparisons, hcallSites] at hrest
          cases answer with
          | none => exact hrest
          | some code =>
              rcases hidle with hnone | hplain
              · cases hnone
              · exact .plain hplain hrest
      | comparison front op hfront hstep hcallee hcomparisons hcallSites =>
          rw [hcomparisons, hcallSites] at hrest
          exact .comparison front op hstep hcallee hfront hrest
      | call front name arguments hfront hstep hcallee hcomparisons hcallSites =>
          rw [hcomparisons, hcallSites] at hrest
          exact .call front name arguments hstep hcallee hfront hrest

namespace Numbered

variable {c k : Nat} {met : List (Step × Code)}

theorem comparison_code (h : Numbered c k met) {i : Nat} {code : Code}
    (hi : ((met.filter fun m => m.1.isComparison).map Prod.snd)[i]? = some code) :
    ∃ front op, front.labels = [] ∧ code = front ++ Code.compare op (c + i + 1) := by
  induction h generalizing i with
  | nil => cases hi
  | plain hplain _ ih =>
      rw [Step.generates, Bool.or_eq_false_iff] at hplain
      rw [List.filter_cons_of_neg (by simp [hplain.1])] at hi
      exact ih hi
  | comparison front op hstep _ hfront _ ih =>
      rw [List.filter_cons_of_pos (by simp [hstep]), List.map_cons] at hi
      cases i with
      | zero =>
          cases hi
          exact ⟨front, op, hfront, rfl⟩
      | succ i =>
          rcases ih hi with ⟨front, op, hfront, hcode⟩
          refine ⟨front, op, hfront, ?_⟩
          rw [hcode, Nat.add_assoc _ 1 i, Nat.add_comm 1 i]
  | call front name arguments hstep _ _ _ ih =>
      rw [List.filter_cons_of_neg (by simp [hstep])] at hi
      exact ih hi

theorem call_code (h : Numbered c k met) {i : Nat} {name : String} {code : Code}
    (hi : (met.filterMap fun m => m.1.callee?.map fun name => (name, m.2))[i]? =
      some (name, code)) :
    ∃ front arguments, front.labels = [] ∧
      code = front ++ Code.call name arguments (k + i + 1) := by
  induction h generalizing i with
  | nil => cases hi
  | plain hplain _ ih =>
      rw [Step.generates, Bool.or_eq_false_iff, Option.isSome_eq_false_iff,
        Option.isNone_iff_eq_none] at hplain
      rw [List.filterMap_cons_none (by simp [hplain.2])] at hi
      exact ih hi
  | comparison front op _ hcallee _ _ ih =>
      rw [List.filterMap_cons_none (by simp [hcallee])] at hi
      exact ih hi
  | call front name arguments _ hcallee hfront _ ih =>
      rw [List.filterMap_cons_some (by simp [hcallee]; rfl)] at hi
      cases i with
      | zero =>
          cases hi
          exact ⟨front, arguments, hfront, rfl⟩
      | succ i =>
          rcases ih hi with ⟨front, arguments, hfront, hcode⟩
          refine ⟨front, arguments, hfront, ?_⟩
          rw [hcode, Nat.add_assoc _ 1 i, Nat.add_comm 1 i]

end Numbered

/-!
## The labels of a session

A symbol that was made up has a number of its kind that was not given before, so no two of
them are the same.
-/

def symbols (met : List (Step × Code)) : List Symbol :=
  (met.filter fun m => m.1.generates).flatMap fun m => m.2.labels

theorem generated_eq (e : Emitter) (steps : List Step) :
    generated e steps = (symbols (accepted e steps)).map fun s => "(" ++ s.name ++ ")" := by
  rw [generated, symbols, List.map_flatMap]
  congr 1
  funext met
  exact Code.definitions_eq met.2

theorem symbols_cons_of_pos {s : Step} (code : Code) (rest : List (Step × Code))
    (h : s.generates = true) :
    symbols ((s, code) :: rest) = code.labels ++ symbols rest := by
  rw [symbols, List.filter_cons_of_pos (by simp [h])]
  rfl

theorem symbols_cons_of_neg {s : Step} (code : Code) (rest : List (Step × Code))
    (h : s.generates = false) :
    symbols ((s, code) :: rest) = symbols rest := by
  rw [symbols, List.filter_cons_of_neg (by simp [h])]
  rfl

theorem symbols_comparison {s : Step} (front : Code) (op : Comparison) (n : Nat)
    (rest : List (Step × Code)) (hstep : s.isComparison = true) (hfront : front.labels = []) :
    symbols ((s, front ++ Code.compare op n) :: rest) =
      .holds n :: .compared n :: symbols rest := by
  rw [symbols_cons_of_pos _ _ (by simp [Step.generates, hstep]), Code.labels_append, hfront]
  rfl

theorem symbols_call {s : Step} (front : Code) (name : String) (arguments : Word) (n : Nat)
    (rest : List (Step × Code)) (hcallee : s.callee? = some name)
    (hfront : front.labels = []) :
    symbols ((s, front ++ Code.call name arguments n) :: rest) =
      .returned name n :: symbols rest := by
  rw [symbols_cons_of_pos _ _ (by simp [Step.generates, hcallee]), Code.labels_append, hfront]
  rfl

def After (comparisons callSites : Nat) : Symbol → Prop
  | .holds number | .compared number => comparisons < number
  | .returned _ number => callSites < number
  | _ => False

theorem After.mono {c k d l : Nat} {s : Symbol} (h : After d l s) (hcomparisons : c ≤ d)
    (hcallSites : k ≤ l) :
    After c k s := by
  cases s with
  | holds number | compared number => exact Nat.lt_of_le_of_lt hcomparisons h
  | returned name number => exact Nat.lt_of_le_of_lt hcallSites h
  | _ => exact h

theorem After.stem?_isSome {c k : Nat} {s : Symbol} (h : After c k s) : s.stem?.isSome := by
  cases s with
  | holds number | compared number | returned name number => rfl
  | _ => exact h.elim

namespace Numbered

variable {c k : Nat} {met : List (Step × Code)}

theorem after (h : Numbered c k met) : ∀ s ∈ symbols met, After c k s := by
  induction h with
  | nil =>
      intro s hs
      cases hs
  | plain hplain _ ih =>
      rw [symbols_cons_of_neg _ _ hplain]
      exact ih
  | comparison front op hstep _ hfront _ ih =>
      rw [symbols_comparison front op _ _ hstep hfront]
      intro s hs
      rcases List.mem_cons.mp hs with rfl | hs
      · exact Nat.lt_succ_self _
      · rcases List.mem_cons.mp hs with rfl | hs
        · exact Nat.lt_succ_self _
        · exact (ih s hs).mono (Nat.le_succ _) (Nat.le_refl _)
  | call front name arguments _ hcallee hfront _ ih =>
      rw [symbols_call front name arguments _ _ hcallee hfront]
      intro s hs
      rcases List.mem_cons.mp hs with rfl | hs
      · exact Nat.lt_succ_self _
      · exact (ih s hs).mono (Nat.le_refl _) (Nat.le_succ _)

theorem nodup_symbols (h : Numbered c k met) : (symbols met).Nodup := by
  induction h with
  | nil => exact List.nodup_nil
  | plain hplain _ ih =>
      rw [symbols_cons_of_neg _ _ hplain]
      exact ih
  | comparison front op hstep _ hfront hrest ih =>
      rw [symbols_comparison front op _ _ hstep hfront, List.nodup_cons,
        List.nodup_cons, List.mem_cons, not_or]
      refine ⟨⟨?_, ?_⟩, ?_, ih⟩
      · intro hsame
        cases hsame
      · exact fun hmem => Nat.lt_irrefl _ (hrest.after _ hmem)
      · exact fun hmem => Nat.lt_irrefl _ (hrest.after _ hmem)
  | call front name arguments _ hcallee hfront hrest ih =>
      rw [symbols_call front name arguments _ _ hcallee hfront, List.nodup_cons]
      exact ⟨fun hmem => Nat.lt_irrefl _ (hrest.after _ hmem), ih⟩

end Numbered

theorem nodup_generated (e : Emitter) (steps : List Step) : (generated e steps).Nodup := by
  have hnumbered := numbered_accepted e steps
  rw [generated_eq]
  apply hnumbered.nodup_symbols.map_on
  intro s hs t ht htext
  have hname : s.name = t.name := by
    simpa [← String.toList_inj] using htext
  exact Symbol.eq_of_name_of_stem? (hnumbered.after s hs).stem?_isSome
    (hnumbered.after t ht).stem?_isSome hname

/--
Over a whole session, no two labels that were made up are spelled alike, whatever functions
are called.  The first accepted comparison has number 1, the next one number 2, and so on;
and likewise the call sites, among which the starts of a program count.
-/
theorem generated_labels_fresh (module : String) (steps : List Step) :
    (generated (Emitter.start module) steps).Nodup ∧
    (∀ k code, (comparisons (Emitter.start module) steps)[k]? = some code →
      (∃ front op, code = front ++ Code.compare op (k + 1)) ∧
      code.definitions =
        ["(CMP$TRUE." ++ Nat.repr (k + 1) ++ ")", "(CMP$END." ++ Nat.repr (k + 1) ++ ")"]) ∧
    (∀ k name code, (callSites (Emitter.start module) steps)[k]? = some (name, code) →
      (∃ front arguments, code = front ++ Code.call name arguments (k + 1)) ∧
      code.definitions = ["(" ++ name ++ "$ret." ++ Nat.repr (k + 1) ++ ")"]) := by
  have hnumbered := numbered_accepted (Emitter.start module) steps
  refine ⟨nodup_generated _ steps, ?_, ?_⟩
  · intro k code hcode
    rcases hnumbered.comparison_code hcode with ⟨front, op, hfront, rfl⟩
    have hnumber : (Emitter.start module).comparisons + k + 1 = k + 1 := by
      rw [Emitter.start, Nat.zero_add]
    rw [hnumber]
    exact ⟨⟨front, op, rfl⟩, Code.definitions_compare hfront op _⟩
  · intro k name code hcode
    rcases hnumbered.call_code hcode with ⟨front, arguments, hfront, rfl⟩
    have hnumber : (Emitter.start module).callSites + k + 1 = k + 1 := by
      rw [Emitter.start, Nat.zero_add]
    rw [hnumber]
    exact ⟨⟨front, arguments, rfl⟩, Code.definitions_call hfront name arguments _⟩

/-- Functions that are named like labels which are made up, and steps that fail, in between. -/
def lookalikeNames : List Step :=
  [.emit (.call "CMP$TRUE" 0), .emit (.call "f" 40000),
    .emit (.operate (.compare .eq)), .bootstrap,
    .enterModule "Other", .annotate true, .line "no command", .emit
      (.call "CMP$TRUE$ret.1" 2), .line "lt"]

theorem lookalikeNames_fresh :
    generated (Emitter.start "Main") lookalikeNames =
      ["(CMP$TRUE$ret.1)", "(CMP$TRUE.1)", "(CMP$END.1)", "(Sys.init$ret.2)",
        "(CMP$TRUE$ret.1$ret.3)",
        "(CMP$TRUE.2)", "(CMP$END.2)"] ∧
    (generated (Emitter.start "Main") lookalikeNames).Nodup ∧
    (∃ code, (comparisons (Emitter.start "Main") lookalikeNames)[1]? = some code ∧
      code.definitions = ["(CMP$TRUE.2)", "(CMP$END.2)"]) ∧
    ∃ code, (callSites (Emitter.start "Main") lookalikeNames)[2]? =
      some ("CMP$TRUE$ret.1", code) ∧
      code.definitions = ["(CMP$TRUE$ret.1$ret.3)"] := by
  have h := generated_labels_fresh "Main" lookalikeNames
  refine ⟨by decide +kernel, h.1, ⟨_, rfl, ?_⟩, ⟨_, rfl, ?_⟩⟩
  · exact (h.2.1 1 _ rfl).2
  · exact (h.2.2 2 "CMP$TRUE$ret.1" _ rfl).2

end Session
end HackVM
