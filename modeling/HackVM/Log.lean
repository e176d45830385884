import HackVM.Listing

/-!
# Log events

What the library reports while it works, with the level and the wording of each report.
-/

namespace HackVM

inductive LogLevel where
  | info
  | debug
  | trace
deriving DecidableEq

namespace LogLevel

def name : LogLevel → String
  | .info => "INFO"
  | .debug => "DEBUG"
  | .trace => "TRACE"

end LogLevel

inductive Event where
  | linking (modules : Nat) (bootstrap : Bool)
  | parsed (module : String) (commands : Nat)
  | emitting (module : String) (line : NumberedCommand)
  | compiling (target output : String) (sources : Nat)
  | reading (source : String)
deriving DecidableEq

namespace Event

def level : Event → LogLevel
  | .linking _ _ | .compiling _ _ _ => .info
  | .parsed _ _ | .reading _ => .debug
  | .emitting _ _ => .trace

def message : Event → String
  | .linking modules bootstrap =>
      "linking " ++ Nat.repr modules ++ " module(s), bootstrap: " ++
        (if bootstrap then "true" else "false")
  | .parsed module commands =>
      "module " ++ module ++ ": " ++ Nat.repr commands ++ " command(s)"
  | .emitting module line =>
      module ++ ":" ++ Nat.repr line.number ++ ": " ++ line.command.render
  | .compiling target output sources =>
      target ++ " -> " ++ output ++ " (" ++ Nat.repr sources ++ " source(s))"
  | .reading source => "reading " ++ source

end Event
end HackVM
