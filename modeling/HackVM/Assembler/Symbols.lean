import HackVM.Word

/-!
# Symbol tables

A symbol stands for a predefined cell, for the address of a label, or for a variable.
Variables take consecutive cells in the order in which they are first used, so the table only
keeps that order.
-/

namespace HackVM

namespace Predefined

def numbered : List (String × Word) :=
  (List.range 16).map fun n => ("R" ++ Nat.repr n, BitVec.ofNat 16 n)

def table : List (String × Word) :=
  [("SP", 0), ("LCL", 1), ("ARG", 2), ("THIS", 3), ("THAT", 4), ("SCREEN", 16384),
    ("KBD", 24576)] ++ numbered

end Predefined

structure SymbolTable where
  labels : List (String × Word) := []
  variableNames : List String := []

namespace SymbolTable

def firstVariable : Nat := 16

def variableCell? (t : SymbolTable) (name : String) : Option Word :=
  (t.variableNames.idxOf? name).map fun n => BitVec.ofNat 16 (firstVariable + n)

def get? (t : SymbolTable) (name : String) : Option Word :=
  (Predefined.table.lookup name).or ((t.labels.lookup name).or (t.variableCell? name))

def addLabel (t : SymbolTable) (name : String) (address : Word) : SymbolTable :=
  { t with labels := (name, address) :: t.labels }

def addVariable (t : SymbolTable) (name : String) : SymbolTable :=
  { t with variableNames := t.variableNames ++ [name] }

def nextVariable (t : SymbolTable) : Nat :=
  firstVariable + t.variableNames.length

end SymbolTable
end HackVM
