import HackVM.Failure
import HackVM.Text.Utf8

/-!
# Streaming a program

The lines of a program are written one after the other, each followed by a line feed.  A
writer may have room for only so many bytes.  It takes of every write what still fits, and
fails with the first write that does not fit as a whole; nothing is written after that.
-/

namespace HackVM

/-- The bytes that a writer can still take; none means that it never fills up. -/
abbrev Room := Option Nat

namespace Room

def fits (room : Room) (bytes : Bytes) : Bool :=
  room.all fun n => bytes.length ≤ n

def take (room : Room) (bytes : Bytes) : Bytes :=
  match room with
  | none => bytes
  | some n => bytes.take n

def after (room : Room) (bytes : Bytes) : Room :=
  room.map fun n => n - bytes.length

def write (room : Room) : List Bytes → Bytes × Bool
  | [] => ([], true)
  | bytes :: rest =>
      if room.fits bytes then
        let (taken, complete) := (room.after bytes).write rest
        (bytes ++ taken, complete)
      else (room.take bytes, false)

end Room

def lineWrites (lines : List String) : List Bytes :=
  lines.flatMap fun line => [Text.utf8 line, Text.utf8 "\n"]

structure Delivery where
  taken : Bytes
  outcome : Except Failure Unit

namespace Run

/--
Feeds the lines of a run to a writer with the given path.  A writer that fills up ends the
run there, whatever would have come later.
-/
def stream (r : Run) (room : Room) (path : String) : Delivery :=
  match room.write (lineWrites r.code.render) with
  | (taken, false) => { taken := taken, outcome := .error (.write path .full) }
  | (taken, true) =>
      { taken := taken
        outcome := match r.outcome with
          | .ok _ => .ok ()
          | .error error => .error (.link error) }

end Run
end HackVM
