import HackVM.Linking.Basic
import HackVM.Text.Spelled
import HackVM.Text.Visible

/-!
# Command-line arguments

Arguments are taken from left to right.  Help and version end the reading where they stand,
and so does the first mistake.  Two dashes alone end the switches; one dash alone is a
target.
-/

namespace HackVM

inductive Switch where
  | bootstrap
  | noComments
  | help
  | version
deriving DecidableEq

namespace Switch

def long : Switch → String
  | .bootstrap => "--bootstrap"
  | .noComments => "--no-comments"
  | .help => "--help"
  | .version => "--version"

instance : Spelled Switch where
  all := [.bootstrap, .noComments, .help, .version]
  spell := long
  mem_all := by intro s; cases s <;> decide
  nodup_spell := by decide

def ofLetter? : Char → Option Switch
  | 'b' => some .bootstrap
  | 'h' => some .help
  | 'V' => some .version
  | _ => none

end Switch

inductive UsageError where
  | noTargets
  | unexpectedArgument (argument : String)
  | repeated (switch : Switch)
  | unexpectedValue (switch : Switch) (value : String)
  | emptyTarget
deriving DecidableEq

namespace UsageError

def quoted (text : String) : String :=
  "'" ++ String.ofList (Text.visible text.toList) ++ "'"

def message : UsageError → String
  | .noTargets => "error: the following required arguments were not provided:"
  | .unexpectedArgument argument =>
      "error: unexpected argument " ++ quoted argument ++ " found"
  | .repeated switch =>
      "error: the argument '" ++ switch.long ++ "' cannot be used multiple times"
  | .unexpectedValue switch value =>
      "error: unexpected value " ++ quoted value ++ " for '" ++ switch.long ++
        "' found; no more were expected"
  | .emptyTarget => "error: a value is required for '<TARGETS>...' but none was supplied"

end UsageError

inductive Request where
  | help
  | version
  | build (targets : List String) (options : Options)
deriving DecidableEq

namespace Request

abbrev Reading := Except UsageError Request

structure Progress where
  targets : List String := []
  bootstrap : Bool := false
  noComments : Bool := false

namespace Progress

def hasEmptyTarget (p : Progress) : Bool :=
  p.targets.any String.isEmpty

/-- Switches are set once. The targets before a switch are checked when it is met. -/
def flip (p : Progress) (switch : Switch) : Except Reading Progress :=
  if p.hasEmptyTarget then .error (.error .emptyTarget)
  else
    match switch with
    | .help => .error (.ok .help)
    | .version => .error (.ok .version)
    | .bootstrap =>
        if p.bootstrap then .error (.error (.repeated .bootstrap))
        else .ok { p with bootstrap := true }
    | .noComments =>
        if p.noComments then .error (.error (.repeated .noComments))
        else .ok { p with noComments := true }

def letters (p : Progress) : List Char → Except Reading Progress
  | [] => .ok p
  | c :: rest =>
      match Switch.ofLetter? c with
      | none => .error (.error (.unexpectedArgument (String.ofList ['-', c])))
      | some switch =>
          match p.flip switch with
          | .ok next => next.letters rest
          | .error reading => .error reading

def longForm (p : Progress) (argument : List Char) : Except Reading Progress :=
  let name := String.ofList (argument.takeWhile (· != '='))
  match (Spelled.read? name : Option Switch), argument.dropWhile (· != '=') with
  | none, _ => .error (.error (.unexpectedArgument name))
  | some switch, _ :: value => .error (.error (.unexpectedValue switch (String.ofList value)))
  | some switch, [] => p.flip switch

def argument (p : Progress) (text : String) : Except Reading Progress :=
  match text.toList with
  | '-' :: '-' :: rest => p.longForm ('-' :: '-' :: rest)
  | '-' :: c :: rest => p.letters (c :: rest)
  | _ => .ok { p with targets := p.targets ++ [text] }

def finish (p : Progress) : Reading :=
  if p.hasEmptyTarget then .error .emptyTarget
  else if p.targets.isEmpty then .error .noTargets
  else .ok (.build p.targets { bootstrap := p.bootstrap, annotate := !p.noComments })

end Progress

def readFrom (p : Progress) : List String → Reading
  | [] => p.finish
  | text :: rest =>
      if text = "--" then { p with targets := p.targets ++ rest : Progress }.finish
      else
        match p.argument text with
        | .ok next => readFrom next rest
        | .error reading => reading

def read (arguments : List String) : Reading :=
  readFrom {} arguments

end Request
end HackVM
