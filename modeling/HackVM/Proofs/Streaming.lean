import HackVM.Linking.Stream
import HackVM.Proofs.Annotation
import HackVM.Proofs.Statics

/-!
# Streaming with limited room

A program that is streamed hands over each line as soon as it is emitted, and stops as soon
as a line is not taken.  This comes to the same as linking first and writing then: a writer
that has room for so many bytes holds the first ones of what an unlimited writer would hold,
and the run ends as it would have ended, unless the writer was full before.
-/

namespace HackVM

/-!
## Writers with limited room

It makes no difference where the limit falls between or within the writes.
-/

namespace Room

theorem take_of_fits {room : Room} {bytes : Bytes} (h : room.fits bytes = true) :
    room.take bytes = bytes := by
  cases room with
  | none => rfl
  | some n => exact List.take_of_length_le (of_decide_eq_true h)

theorem write_unlimited (writes : List Bytes) :
    Room.write none writes = (writes.flatten, true) := by
  induction writes with
  | nil => rfl
  | cons bytes rest ih =>
      have hfits : fits none bytes = true := rfl
      have hrest : Room.write (Room.after none bytes) rest = (rest.flatten, true) := ih
      rw [write, if_pos hfits, hrest]
      rfl

theorem write_limited (n : Nat) (writes : List Bytes) :
    Room.write (some n) writes =
      (writes.flatten.take n, decide (writes.flatten.length ≤ n)) := by
  induction writes generalizing n with
  | nil => simp [write]
  | cons bytes rest ih =>
      rw [write, List.flatten_cons, List.length_append, List.take_append]
      by_cases hle : bytes.length ≤ n
      · have hfits : fits (some n) bytes = true := decide_eq_true hle
        have hrest : Room.write (Room.after (some n) bytes) rest =
            (rest.flatten.take (n - bytes.length),
              decide (rest.flatten.length ≤ n - bytes.length)) := ih _
        have hlimit : decide (rest.flatten.length ≤ n - bytes.length) =
            decide (bytes.length + rest.flatten.length ≤ n) := by
          rw [decide_eq_decide]
          omega
        rw [if_pos hfits, hrest, hlimit, List.take_of_length_le hle]
      · have hfits : ¬ fits (some n) bytes = true := fun h => hle (of_decide_eq_true h)
        have hnone : n - bytes.length = 0 := by
          omega
        have hlimit : ¬ bytes.length + rest.flatten.length ≤ n := by
          omega
        rw [if_neg hfits, hnone, decide_eq_false hlimit, List.take_zero, List.append_nil]
        rfl

end Room

theorem lineWrites_cons (line : String) (rest : List String) :
    lineWrites (line :: rest) = Text.utf8 line :: Text.utf8 "\n" :: lineWrites rest := rfl

/-!
## Sinks

A sink takes lines one by one and may refuse one.  Sending stops there, and so does linking.
-/

/-- How linking ends that hands each line on as soon as it is emitted. -/
inductive Ending where
  | done (e : Emitter)
  | failed (error : LinkError)
  /-- A line was not taken. -/
  | refused

def Ending.ofOutcome : Except LinkError Emitter → Ending
  | .ok e => .done e
  | .error error => .failed error

namespace Sink

variable {σ : Type} (send : σ → String → σ × Bool)

def sendAll (s : σ) : List String → σ × Bool
  | [] => (s, true)
  | line :: rest => if (send s line).2 then sendAll (send s line).1 rest else send s line

def sendCode (s : σ) (code : Code) (next : σ → σ × Ending) : σ × Ending :=
  let sent := sendAll send s code.render
  if sent.2 then next sent.1 else (sent.1, .refused)

def goOn (result : σ × Ending) (next : Emitter → σ → σ × Ending) : σ × Ending :=
  match result.2 with
  | .done e => next e result.1
  | .failed _ | .refused => result

theorem sendAll_append (s : σ) (first second : List String) :
    sendAll send s (first ++ second) =
      if (sendAll send s first).2 then sendAll send (sendAll send s first).1 second
      else sendAll send s first := by
  induction first generalizing s with
  | nil => rfl
  | cons line rest ih =>
      rw [List.cons_append, sendAll, sendAll]
      split
      · exact ih _
      · rfl

theorem sendCode_append (s : σ) (first second : Code) (next : σ → σ × Ending) :
    sendCode send s (first ++ second) next = sendCode send s first fun t =>
      sendCode send t second next := by
  have hrender : Code.render (first ++ second) = first.render ++
    second.render := List.map_append
  rw [sendCode, sendCode, hrender, sendAll_append]
  split <;> rfl

theorem goOn_sendCode (s : σ) (code : Code) (first : σ → σ × Ending)
    (next : Emitter → σ → σ × Ending) :
    goOn (sendCode send s code first) next = sendCode send s code fun t =>
      goOn (first t) next := by
  rw [sendCode, sendCode]
  split <;> rfl

end Sink

namespace Run

variable {σ : Type} (send : σ → String → σ × Bool)

def feed (r : Run) (s : σ) : σ × Ending :=
  Sink.sendCode send s r.code fun t => (t, .ofOutcome r.outcome)

theorem feed_andThen (r : Run) (next : Emitter → Run) (s : σ) :
    (r.andThen next).feed send s = Sink.goOn (r.feed send s) fun e t =>
      (next e).feed send t := by
  rcases r with ⟨code, log, outcome⟩
  rw [feed, feed, Sink.goOn_sendCode]
  cases outcome with
  | error error => rfl
  | ok e => exact Sink.sendCode_append send s code (next e).code _

end Run

/-!
## Linking line by line

Handing on each line as soon as it is emitted comes to the same as sending the lines of a
finished run.
-/

namespace Sink

variable {σ : Type} (send : σ → String → σ × Bool)

def linkListing (module : String) : Listing → Emitter → σ → σ × Ending
  | [], e, s => (s, .done e)
  | line :: rest, e, s =>
      match e.emit line.command with
      | .error cause => (s, .failed (.inexpressible module line cause))
      | .ok (code, next) => sendCode send s code (linkListing module rest next)

def linkModules : List Module → Emitter → σ → σ × Ending
  | [], e, s => (s, .done e)
  | m :: rest, e, s =>
      match Listing.parse m.source with
      | .error error => (s, .failed (.unparsable m.name error))
      | .ok listing =>
          goOn (linkListing send m.name listing { e with module := m.name } s)
            (linkModules rest)

/--
Links a program whose lines go to a sink one by one.  Nothing is emitted after a line that
the sink refuses.
-/
def linkProgram (modules : List Module) (options : Options) (s : σ) : σ × Ending :=
  let e := Module.starter modules options
  if options.bootstrap then sendCode send s e.bootstrap.1
    (linkModules send modules e.bootstrap.2)
  else linkModules send modules e s

theorem linkListing_eq_feed (module : String) (listing : Listing) (e : Emitter) (s : σ) :
    linkListing send module listing e s =
      (Emitter.runListing module listing e).feed send s := by
  induction listing generalizing e s with
  | nil => rfl
  | cons line rest ih =>
      rw [linkListing, Emitter.runListing, Run.feed_andThen, Emitter.runCommand]
      cases e.emit line.command with
      | error cause => rfl
      | ok result =>
          have hrest : linkListing send module rest result.2 =
              fun t => (Emitter.runListing module rest result.2).feed send t :=
                funext fun t => ih result.2 t
          show sendCode send s result.1 (linkListing send module rest result.2) = _
          rw [hrest, Run.feed, goOn_sendCode]
          rfl

theorem linkModules_eq_feed (modules : List Module) (e : Emitter) (s : σ) :
    linkModules send modules e s = (Emitter.runModules modules e).feed send s := by
  induction modules generalizing e s with
  | nil => rfl
  | cons m rest ih =>
      have hrest : linkModules send rest = fun e t =>
          (Emitter.runModules rest e).feed send t :=
        funext fun e => funext fun t => ih e t
      rw [linkModules, Emitter.runModules, Run.feed_andThen, Emitter.runModule]
      cases Listing.parse m.source with
      | error error => rfl
      | ok listing =>
          dsimp only
          rw [hrest, linkListing_eq_feed, Run.feed_andThen]
          rfl

theorem linkProgram_eq_feed (modules : List Module) (options : Options) (s : σ) :
    linkProgram send modules options s = (Module.link modules options).feed send s := by
  have hmodules : ∀ e, linkModules send modules e = fun t =>
      (Emitter.runModules modules e).feed send t :=
    fun e => funext fun t => linkModules_eq_feed send modules e t
  rcases options with ⟨bootstrap, annotate⟩
  rw [linkProgram, Module.link, Run.feed_andThen]
  dsimp only
  rw [hmodules, hmodules]
  cases bootstrap with
  | false => rfl
  | true =>
      rw [if_pos rfl, Run.feed, goOn_sendCode]
      rfl

end Sink

/-!
## The sink that collects lines

Nothing is refused, so all lines are kept.
-/

def Sink.collect (lines : List String) (line : String) : List String × Bool :=
  (lines ++ [line], true)

theorem Sink.sendAll_collect (kept lines : List String) :
    sendAll collect kept lines = (kept ++ lines, true) := by
  induction lines generalizing kept with
  | nil => simp [sendAll]
  | cons line rest ih =>
      have htaken : (collect kept line).2 = true := rfl
      rw [sendAll, if_pos htaken, ih]
      simp [collect]

namespace Module

def collectedLines (modules : List Module) (options : Options) :
    Except LinkError (List String) :=
  match Sink.linkProgram Sink.collect modules options [] with
  | (_, .failed error) => .error error
  | (lines, .done _) | (lines, .refused) => .ok lines

theorem collectedLines_eq (modules : List Module) (options : Options) :
    collectedLines modules options = linkedLines modules options := by
  rw [collectedLines, Sink.linkProgram_eq_feed, Run.feed, Sink.sendCode,
    Sink.sendAll_collect, linkedLines]
  cases (link modules options).outcome with
  | error error => rfl
  | ok e => rfl

end Module

/-!
## The sink that writes lines

Lines that are sent one by one arrive as they do when they are written at once.
-/

structure Writer where
  taken : Bytes := []
  room : Room

namespace Writer

def write (w : Writer) (bytes : Bytes) : Writer × Bool :=
  ({ taken := w.taken ++ w.room.take bytes, room := w.room.after bytes }, w.room.fits bytes)

def writeLine (w : Writer) (line : String) : Writer × Bool :=
  let written := w.write (Text.utf8 line)
  if written.2 then written.1.write (Text.utf8 "\n") else written

theorem write_of_fits {w : Writer} {bytes : Bytes} (h : w.room.fits bytes = true) :
    w.write bytes = ({ taken := w.taken ++ bytes, room := w.room.after bytes }, true) := by
  rw [write, h, Room.take_of_fits h]

theorem sendAll_writeLine (w : Writer) (lines : List String) :
    (Sink.sendAll writeLine w lines).1.taken = w.taken ++ (w.room.write (lineWrites lines)).1 ∧
      (Sink.sendAll writeLine w lines).2 = (w.room.write (lineWrites lines)).2 := by
  induction lines generalizing w with
  | nil => exact ⟨(List.append_nil _).symm, rfl⟩
  | cons line rest ih =>
      rw [lineWrites_cons, Room.write, Room.write, Sink.sendAll, writeLine]
      by_cases hline : w.room.fits (Text.utf8 line) = true
      · rw [write_of_fits hline, if_pos hline]
        by_cases hfeed : (w.room.after (Text.utf8 line)).fits (Text.utf8 "\n") = true
        · have hwriter :=
            write_of_fits (w := ⟨w.taken ++ Text.utf8 line, w.room.after (Text.utf8 line)⟩)
            hfeed
          simp only [hwriter, hfeed, if_true]
          rcases ih ⟨w.taken ++ Text.utf8 line ++ Text.utf8 "\n",
            (w.room.after (Text.utf8 line)).after (Text.utf8 "\n")⟩ with ⟨htaken, hcomplete⟩
          refine ⟨?_, hcomplete⟩
          rw [htaken]
          simp only [List.append_assoc]
        · simp [write, hfeed]
      · simp [write, hline]

end Writer

def Delivery.ofEnding (path : String) (result : Writer × Ending) : Delivery where
  taken := result.1.taken
  outcome :=
    match result.2 with
    | .done _ => .ok ()
    | .failed error => .error (.link error)
    | .refused => .error (.write path .full)

namespace Module

def streamed (modules : List Module) (options : Options) (room : Room) (path : String) :
    Delivery :=
  .ofEnding path (Sink.linkProgram Writer.writeLine modules options { room := room })

theorem streamed_eq (modules : List Module) (options : Options) (room : Room) (path : String) :
    streamed modules options room path = (link modules options).stream room path := by
  rcases hwrite : room.write (lineWrites (link modules options).code.render) with
    ⟨taken, complete⟩
  rcases Writer.sendAll_writeLine { room := room } (link modules options).code.render with
    ⟨htaken, hcomplete⟩
  rw [List.nil_append, hwrite] at htaken
  rw [hwrite] at hcomplete
  rw [streamed, Sink.linkProgram_eq_feed, Run.feed, Sink.sendCode, Run.stream, hwrite]
  cases complete with
  | false =>
      rw [hcomplete, Delivery.ofEnding]
      exact congrArg (Delivery.mk · _) htaken
  | true =>
      rw [hcomplete, if_pos rfl, Delivery.ofEnding, htaken]
      cases (link modules options).outcome <;> rfl

end Module

/-!
## Limited and unlimited writers

A limit matters only if it cuts what would be written without it.
-/

namespace Run

theorem stream_unlimited (r : Run) (path : String) :
    r.stream none path =
      { taken := (lineWrites r.code.render).flatten
        outcome := (r.outcome.map fun _ => ()).mapError Failure.link } := by
  rw [stream, Room.write_unlimited]
  cases r.outcome <;> rfl

/--
A limit matters only if it cuts what would be written without it; then it decides how the run
ends.
-/
theorem stream_limited (r : Run) (n : Nat) (path : String) :
    r.stream (some n) path =
      if (r.stream none path).taken.length ≤ n then r.stream none path
      else
        { taken := (r.stream none path).taken.take n
          outcome := .error (.write path .full) } := by
  rw [stream, Room.write_limited, stream_unlimited]
  by_cases hle : (lineWrites r.code.render).flatten.length ≤ n
  · rw [if_pos hle, decide_eq_true hle, List.take_of_length_le hle]
    cases r.outcome <;> rfl
  · rw [if_neg hle, decide_eq_false hle]

end Run

/-!
## Splitting at line ends

A line holds no line feed, and no carriage return at its end.
-/

namespace Text

/-- The content of a line, without anything that would count as its end. -/
structure IsLine (cs : List Char) : Prop where
  unended : '\n' ∉ cs
  last : cs.getLast? ≠ some '\r'

namespace IsLine

theorem dropReturn_eq {cs : List Char} (h : IsLine cs) : dropReturn cs = cs :=
  if_neg h.last

theorem of_chars {p : Char → Bool} {cs : List Char} (hfeed : p '\n' = false)
    (hreturn : p '\r' = false) (h : ∀ c ∈ cs, p c = true) : IsLine cs where
  unended := by
    intro hmem
    rw [h _ hmem] at hfeed
    cases hfeed
  last := by
    intro hlast
    rw [h _ (List.mem_of_getLast? hlast)] at hreturn
    cases hreturn

theorem append {first second : List Char} (hfirst : '\n' ∉ first) (hsecond : IsLine second)
    (hne : second ≠ []) :
    IsLine (first ++ second) where
  unended := by
    rw [List.mem_append]
    exact not_or_intro hfirst hsecond.unended
  last := by
    rw [List.getLast?_append_of_ne_nil _ hne]
    exact hsecond.last

theorem cons {c : Char} {cs : List Char} (h : IsLine cs) (hfeed : c ≠ '\n')
    (hreturn : c ≠ '\r') :
    IsLine (c :: cs) := by
  have hunended : '\n' ∉ [c] := by
    simpa using hfeed.symm
  cases cs with
  | nil => exact ⟨hunended, by simpa using hreturn⟩
  | cons first rest =>
      have hline : IsLine ([c] ++ first :: rest) := h.append hunended (List.cons_ne_nil _ _)
      exact hline

end IsLine

theorem lines_flatMap {rows : List (List Char)} (h : ∀ row ∈ rows, IsLine row) :
    lines (rows.flatMap (· ++ ['\n'])) = rows := by
  induction rows with
  | nil => rfl
  | cons row rest ih =>
      have hrow := h row List.mem_cons_self
      have hrest := ih fun other hother => h other (List.mem_cons_of_mem _ hother)
      rw [List.flatMap_cons, List.append_assoc, List.singleton_append,
        lines_append_lineFeed hrow.unended, hrow.dropReturn_eq, hrest]

theorem utf8_append (s t : String) : utf8 (s ++ t) = utf8 s ++ utf8 t := by
  simp [utf8, String.toUTF8, String.toByteArray_append]

theorem lines_join {rows : List String} (h : ∀ row ∈ rows, IsLine row.toList) :
    (lines (String.join (rows.map (· ++ "\n"))).toList).map String.ofList = rows := by
  have htext : (String.join (rows.map (· ++ "\n"))).toList =
      (rows.map String.toList).flatMap (· ++ ['\n']) := by
    rw [String.toList_join, List.flatMap_map, List.flatMap_map]
    congr 1
    funext row
    exact String.toList_append
  have hrows : ∀ row ∈ rows.map String.toList, IsLine row := by
    rw [List.forall_mem_map]
    exact h
  rw [htext, lines_flatMap hrows, List.map_map]
  simp

end Text

theorem flatten_lineWrites (lines : List String) :
    (lineWrites lines).flatten = Text.utf8 (String.join (lines.map (· ++ "\n"))) := by
  induction lines with
  | nil => rfl
  | cons line rest ih =>
      rw [lineWrites_cons, List.flatten_cons, List.flatten_cons, ih, List.map_cons,
        String.join_cons, Text.utf8_append, Text.utf8_append, List.append_assoc]

/-!
## The lines of a program

A module's name is the only part of a program that could break a line.
-/

namespace Symbol

theorem Legible.isLine {s : Symbol} (h : s.Legible) : Text.IsLine s.name.toList :=
  .of_chars rfl rfl h.chars

theorem isLine_static {module : String} (h : '\n' ∉ module.toList) (index : Word) :
    Text.IsLine (Symbol.static module index).name.toList := by
  have hindex : Text.IsLine ('.' :: (Nat.repr index.toNat).toList) := by
    apply Text.IsLine.of_chars (p := Text.isNameChar) rfl rfl
    intro c hc
    rcases List.mem_cons.mp hc with rfl | hc
    · rfl
    · exact isNameChar_of_mem_repr hc
  have hname : (Symbol.static module index).name.toList = module.toList ++
      '.' :: (Nat.repr index.toNat).toList :=
    Program.toList_staticName (module, index)
  rw [hname]
  exact hindex.append h (List.cons_ne_nil _ _)

end Symbol

namespace Item

theorem isLine_comment {text : String} (h : Text.IsLine text.toList) :
    Text.IsLine (comment text).render.toList := by
  have hrender : (comment text).render.toList = '/' :: '/' :: ' ' :: text.toList := by
    simp [render]
  rw [hrender]
  exact ((h.cons (by decide) (by decide)).cons (by decide) (by decide)).cons (by decide)
    (by decide)

theorem isLine_label {symbol : Symbol} (h : symbol.Legible) :
    Text.IsLine (label symbol).render.toList := by
  have hrender : (label symbol).render.toList = ('(' :: symbol.name.toList) ++ [')'] := by
    simp [render]
  have hend : Text.IsLine [')'] := ⟨by decide, by decide⟩
  rw [hrender]
  refine hend.append ?_ (List.cons_ne_nil _ _)
  simp [h.isLine.unended]

theorem isLine_refer {symbol : Symbol} (h : Text.IsLine symbol.name.toList) :
    Text.IsLine (refer symbol).render.toList := by
  have hrender : (refer symbol).render.toList = '@' :: symbol.name.toList := by
    simp [render]
  rw [hrender]
  exact h.cons (by decide) (by decide)

theorem isLine_literal (value : Word) : Text.IsLine (literal value).render.toList := by
  have hrender : (literal value).render.toList = '@' :: (Nat.repr value.toNat).toList := by
    simp [render, Word.render]
  rw [hrender]
  apply Text.IsLine.of_chars (p := fun c => c == '@' || c.isDigit) rfl rfl
  intro c hc
  rcases List.mem_cons.mp hc with rfl | hc
  · rfl
  · simp [Text.isDigit_of_mem_repr hc]

theorem isLine_compute (dest : Dest) (comp : Comp) (jump : Jump) :
    Text.IsLine (compute dest comp jump).render.toList := by
  apply Text.IsLine.of_chars (p := fun c => !Text.isBlank c) rfl rfl
  intro c hc
  simp [(visible_of_mem_compute hc).1]

end Item

theorem Command.isLine_render {command : Command} (h : command.WellNamed) :
    Text.IsLine command.render.toList :=
  .of_chars rfl rfl (List.all_eq_true.mp (denotes_render h).all_isCommandChar)

theorem Emitter.referencesOf_cases {e : Emitter} {command : Command} {symbol : Symbol}
    (he : e.WellScoped) (hcommand : command.WellNamed) (h : symbol ∈ e.referencesOf command) :
    symbol.Legible ∨ ∃ index, symbol = .static e.module index := by
  unfold referencesOf at h
  split at h
  · rcases List.mem_pair.mp h with rfl | rfl
    · exact Or.inl (Symbol.legible_holds _)
    · exact Or.inl (Symbol.legible_compared _)
  · exact Or.inr ⟨_, List.mem_singleton.mp h⟩
  · exact Or.inr ⟨_, List.mem_singleton.mp h⟩
  · rw [List.mem_singleton] at h
    subst h
    exact Or.inl (Symbol.legible_scoped he hcommand)
  · rw [List.mem_singleton] at h
    subst h
    exact Or.inl (Symbol.legible_scoped he hcommand)
  · rcases List.mem_pair.mp h with rfl | rfl
    · exact Or.inl (Symbol.legible_returned hcommand _)
    · exact Or.inl (Symbol.legible_entry hcommand)
  · cases h

namespace Module

variable {modules : List Module}

theorem isLine_of_mem_linkedReferences {options : Options} {symbol : Symbol}
    (hnames : ∀ m ∈ modules, '\n' ∉ m.name.toList)
    (h : symbol ∈ linkedReferences modules options) :
    Text.IsLine symbol.name.toList := by
  rcases List.mem_append.mp h with hboot | hreference
  · split at hboot
    · rcases List.mem_pair.mp hboot with rfl | rfl
      · exact (Symbol.legible_returned rfl 1).isLine
      · exact (Symbol.legible_entry rfl).isLine
    · cases hboot
  · rcases List.mem_flatMap.mp hreference with ⟨met, hmet, hmem⟩
    have hmetNames := Emitter.wellScoped_trace (wellScoped_opener modules options)
      (wellNamed_commands modules) met hmet
    rcases Emitter.referencesOf_cases hmetNames.1 hmetNames.2 hmem with hlegible | ⟨index, rfl⟩
    · exact hlegible.isLine
    · rcases exists_of_mem_allCommands (Emitter.mem_of_mem_trace hmet) with ⟨m, hm, hmodule⟩
      rw [hmodule]
      exact Symbol.isLine_static (hnames m hm) index

theorem isLine_linkedCode {options : Options} (hannotate : options.annotate = true)
    (hnames : ∀ m ∈ modules, '\n' ∉ m.name.toList)
    (haccepts : (opener modules options).Accepts (allCommands modules)) :
    ∀ item ∈ linkedCode modules options, Text.IsLine item.render.toList := by
  intro item hitem
  cases item with
  | comment text =>
      have hmem : text ∈ (linkedCode modules options).comments :=
        List.mem_filterMap.mpr ⟨_, hitem, rfl⟩
      rw [comments_linkedCode hannotate haccepts] at hmem
      rcases List.mem_append.mp hmem with hboot | hcommand
      · split at hboot
        · rw [List.mem_singleton] at hboot
          subst hboot
          exact Item.isLine_comment ⟨by decide, by decide⟩
        · cases hboot
      · rcases List.mem_map.mp hcommand with ⟨pair, hpair, rfl⟩
        exact Item.isLine_comment
          (Command.isLine_render (wellNamed_commands modules pair hpair))
  | label symbol => exact Item.isLine_label (legible_linkedCode haccepts _ hitem)
  | refer symbol =>
      cases symbol with
      | register r => exact Item.isLine_refer (Symbol.legible_register r).isLine
      | _ =>
          have hmem : _ ∈ (linkedCode modules options).references :=
            List.mem_filterMap.mpr ⟨_, hitem, rfl⟩
          rw [references_linkedCode haccepts] at hmem
          exact Item.isLine_refer (isLine_of_mem_linkedReferences hnames hmem)
  | literal value => exact Item.isLine_literal value
  | compute dest comp jump => exact Item.isLine_compute dest comp jump

theorem isLine_of_mem_linkedLines {options : Options} {lines : List String}
    (hnames : ∀ m ∈ modules, '\n' ∉ m.name.toList)
    (h : linkedLines modules options = .ok lines) :
    ∀ line ∈ lines, Text.IsLine line.toList := by
  rcases options with ⟨bootstrap, annotate⟩
  have hannotated : ∀ lines, linkedLines modules ⟨bootstrap, true⟩ = .ok lines →
      ∀ line ∈ lines, Text.IsLine line.toList := by
    intro lines hlines line hline
    rcases linkedLines_ok hlines with ⟨haccepts, hcode⟩
    rw [hcode] at hline
    rcases List.mem_map.mp hline with ⟨item, hitem, rfl⟩
    exact isLine_linkedCode rfl hnames haccepts item hitem
  cases annotate with
  | true => exact hannotated lines h
  | false =>
      -- without comments there are fewer lines, and no others
      rw [linkedLines_bare] at h
      cases hlines : linkedLines modules ⟨bootstrap, true⟩ with
      | error error =>
          rw [hlines] at h
          cases h
      | ok all =>
          rw [hlines] at h
          cases h
          intro line hline
          exact hannotated all hlines line (List.mem_of_mem_filter hline)

theorem map_outcome_link (modules : List Module) (options : Options) :
    ((link modules options).outcome.map fun _ => ()) =
      (linkedLines modules options).map fun _ => () := by
  rw [linkedLines]
  cases (link modules options).outcome <;> rfl

theorem render_of_linkedLines {options : Options} {lines : List String}
    (h : linkedLines modules options = .ok lines) :
    (link modules options).code.render = lines := by
  rw [linkedLines] at h
  cases houtcome : (link modules options).outcome with
  | error error =>
      rw [houtcome] at h
      cases h
  | ok e =>
      rw [houtcome] at h
      cases h
      rfl

end Module

/-!
## Streaming and linking agree

The laws of the writers are put together with those of the sinks.
-/

/--
To stream a program while it is linked is to link it first and to write it then.  A writer
that takes `n` bytes holds the first `n` bytes of what is written without a limit; if that is
not everything, it is the writer that failed, even if linking would have failed later.  What
a complete program writes can be split into its lines again.
-/
theorem Module.streaming_agrees_with_linking (modules : List Module) (options : Options)
    (path : String) :
    collectedLines modules options = linkedLines modules options ∧
    (∀ room, streamed modules options room path = (link modules options).stream room path) ∧
    (∀ n, (streamed modules options none path).taken.length ≤ n →
      streamed modules options (some n) path = streamed modules options none path) ∧
    (∀ n, n < (streamed modules options none path).taken.length →
      streamed modules options (some n) path =
        { taken := (streamed modules options none path).taken.take n
          outcome := .error (.write path .full) }) ∧
    (∀ error, linkedLines modules options = .error error →
      (streamed modules options none path).outcome = .error (.link error)) ∧
    ∀ lines, linkedLines modules options = .ok lines →
      (streamed modules options none path).outcome = .ok () ∧
      (streamed modules options none path).taken =
        Text.utf8 (String.join (lines.map (· ++ "\n"))) ∧
      ((∀ m ∈ modules, '\n' ∉ m.name.toList) →
        ∃ text, Text.ofUtf8? (streamed modules options none path).taken = some text ∧
          (Text.lines text.toList).map String.ofList = lines) := by
  refine ⟨collectedLines_eq modules options, fun room => streamed_eq modules options room path,
    ?_, ?_, ?_, ?_⟩
  · intro n hle
    rw [streamed_eq] at hle
    rw [streamed_eq, streamed_eq, Run.stream_limited, if_pos hle]
  · intro n hlt
    rw [streamed_eq] at hlt
    rw [streamed_eq, streamed_eq, Run.stream_limited, if_neg (Nat.not_le_of_lt hlt)]
  · intro error herror
    rw [streamed_eq, Run.stream_unlimited, map_outcome_link, herror]
    rfl
  · intro lines hlines
    rw [streamed_eq, Run.stream_unlimited, map_outcome_link, hlines,
      render_of_linkedLines hlines, flatten_lineWrites]
    refine ⟨rfl, rfl, ?_⟩
    intro hnames
    exact ⟨_, Text.ofUtf8?_utf8 _, Text.lines_join (isLine_of_mem_linkedLines hnames hlines)⟩

/-- A module with a fault in its second command. -/
def Module.lateFault : List Module :=
  [⟨"Main", "push constant 7\npop constant 0\n"⟩]

theorem Module.lateFault_cut_short :
    streamed lateFault ⟨false, false⟩ (some 5) "out.asm" =
        ⟨Text.utf8 "@7\nD=", .error (.write "out.asm" .full)⟩ ∧
      (streamed lateFault ⟨false, false⟩ (some 27) "out.asm").taken =
        Text.utf8 "@7\nD=A\n@SP\nM=M+1\nA=M-1\nM=D\n" ∧
      (streamed lateFault ⟨false, false⟩ (some 27) "out.asm").outcome =
        .error (.link (.inexpressible "Main" ⟨2, .pop .constant 0⟩ .popConstant)) := by
  rcases streaming_agrees_with_linking lateFault ⟨false, false⟩ "out.asm" with
    ⟨-, -, hwhole, hcut, hfailed, -⟩
  have htaken : (streamed lateFault ⟨false, false⟩ none "out.asm").taken =
      Text.utf8 "@7\nD=A\n@SP\nM=M+1\nA=M-1\nM=D\n" := by
    decide +kernel
  have herror : linkedLines lateFault ⟨false, false⟩ =
      .error (.inexpressible "Main" ⟨2, .pop .constant 0⟩ .popConstant) := by
    decide +kernel
  have hshort := hcut 5
  have hexact := hwhole 27
  rw [htaken] at hshort hexact
  rw [hshort (by decide +kernel), hexact (by decide +kernel)]
  refine ⟨?_, htaken, hfailed _ herror⟩
  have hfirst : (Text.utf8 "@7\nD=A\n@SP\nM=M+1\nA=M-1\nM=D\n").take 5 =
      Text.utf8 "@7\nD=" := by
    decide +kernel
  rw [hfirst]

end HackVM
