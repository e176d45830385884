import HackVM.Assembly.Basic
import HackVM.Text.Spelled

/-!
# How assembly is written

A destination is followed by an equals sign, and a jump preceded by a semicolon; what is
absent leaves no trace.  Every item of symbolic code takes one line.
-/

namespace HackVM

namespace Operand

def spelling : Operand → String
  | .a => "A"
  | .m => "M"

end Operand

namespace Comp

def spelling : Comp → String
  | .zero => "0"
  | .one => "1"
  | .minusOne => "-1"
  | .d => "D"
  | .notD => "!D"
  | .negD => "-D"
  | .incD => "D+1"
  | .decD => "D-1"
  | .copy x => x.spelling
  | .not x => "!" ++ x.spelling
  | .neg x => "-" ++ x.spelling
  | .inc x => x.spelling ++ "+1"
  | .dec x => x.spelling ++ "-1"
  | .add x => "D+" ++ x.spelling
  | .sub x => "D-" ++ x.spelling
  | .subFrom x => x.spelling ++ "-D"
  | .and x => "D&" ++ x.spelling
  | .or x => "D|" ++ x.spelling

def withOperand (x : Operand) : List Comp :=
  [.copy x, .not x, .neg x, .inc x, .dec x, .add x, .sub x, .subFrom x, .and x, .or x]

instance : Spelled Comp where
  all := [.zero, .one, .minusOne, .d, .notD, .negD, .incD, .decD] ++
    withOperand .a ++ withOperand .m
  spell := spelling
  mem_all := by
    intro c
    cases c
    case copy x | not x | neg x | inc x | dec x | add x | sub x | subFrom x | and x | or x =>
      cases x <;> decide
    all_goals decide
  nodup_spell := by decide

end Comp

namespace Dest

def spelling : Dest → String
  | .none => ""
  | .m => "M"
  | .d => "D"
  | .md => "MD"
  | .a => "A"
  | .am => "AM"
  | .ad => "AD"
  | .amd => "AMD"

instance : Spelled Dest where
  all := [.none, .m, .d, .md, .a, .am, .ad, .amd]
  spell := spelling
  mem_all := by intro dest; cases dest <;> decide
  nodup_spell := by decide

end Dest

namespace Jump

def spelling : Jump → String
  | .never => ""
  | .gt => "JGT"
  | .eq => "JEQ"
  | .ge => "JGE"
  | .lt => "JLT"
  | .ne => "JNE"
  | .le => "JLE"
  | .always => "JMP"

instance : Spelled Jump where
  all := [.never, .gt, .eq, .ge, .lt, .ne, .le, .always]
  spell := spelling
  mem_all := by intro jump; cases jump <;> decide
  nodup_spell := by decide

end Jump

namespace Register

def name : Register → String
  | .sp => "SP"
  | .lcl => "LCL"
  | .arg => "ARG"
  | .this => "THIS"
  | .that => "THAT"
  | .numbered i => "R" ++ Nat.repr i

end Register

namespace Symbol

def name : Symbol → String
  | .register r => r.name
  | .entry function => function
  | .scoped function label => function ++ "." ++ label
  | .holds number => "CMP$TRUE." ++ Nat.repr number
  | .compared number => "CMP$END." ++ Nat.repr number
  | .returned function number => function ++ "$ret." ++ Nat.repr number
  | .static module index => module ++ "." ++ index.render

end Symbol

namespace Item

def render : Item → String
  | .comment text => "// " ++ text
  | .label symbol => "(" ++ symbol.name ++ ")"
  | .refer symbol => "@" ++ symbol.name
  | .literal value => "@" ++ value.render
  | .compute dest comp jump =>
      (if dest = .none then "" else dest.spelling ++ "=") ++ comp.spelling ++
        (if jump = .never then "" else ";" ++ jump.spelling)

end Item

def Code.render (code : Code) : List String :=
  code.map Item.render

end HackVM
