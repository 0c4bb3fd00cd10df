namespace Calculation

inductive Category where
  | aggregate | tableCalculation | logical | string | number | date | typeConversion | user | other
deriving DecidableEq, Repr, Inhabited

namespace Category

def all : List Category :=
  [aggregate, tableCalculation, logical, string, number, date, typeConversion, user, other]

def name : Category → String
  | aggregate => "aggregate"
  | tableCalculation => "tableCalculation"
  | logical => "logical"
  | string => "string"
  | number => "number"
  | date => "date"
  | typeConversion => "typeConversion"
  | user => "user"
  | other => "other"

def ofName? (text : String) : Option Category :=
  all.find? fun c => c.name == text

theorem ofName?_name (c : Category) : ofName? c.name = some c := by
  cases c <;> decide

end Category

structure Signature where
  name : String
  minArgs : Nat
  /-- Nothing when the function takes any number of further arguments. -/
  maxArgs : Option Nat
  argTypes : List String
  returnType : String
  category : Category
deriving DecidableEq, Repr, Inhabited

namespace Signature

def accepts (s : Signature) (count : Nat) : Bool :=
  s.minArgs ≤ count && s.maxArgs.all (count ≤ ·)

/-- The number of arguments in words: "1", "2 to 3", "at least 1". -/
def expected (s : Signature) : String :=
  match s.maxArgs with
  | some max => if max = s.minArgs then toString max else toString s.minArgs ++ " to " ++ toString max
  | none => "at least " ++ toString s.minArgs

def isAggregate (s : Signature) : Bool :=
  s.category == .aggregate

def isTableCalculation (s : Signature) : Bool :=
  s.category == .tableCalculation

end Signature

end Calculation
