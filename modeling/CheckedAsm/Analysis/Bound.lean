import CheckedAsm.Program
/-! # Bounds of ranges

The analysis keeps the least and the greatest value of each location that has a value. A bound is
normally a number. After a counting loop it is the constant that ended the loop, and for a static
definition it is what that definition starts with, which may be a whole list or text. Such bounds
cannot be compared with numbers or added to. -/

namespace CheckedAsm

open Text

/-- One end of a range. -/
inductive Bound where
  | int (n : Int)
  | const (c : Const)
  | values (ns : List Int)
  | text (s : String)
  deriving DecidableEq

namespace Bound

/-- The bound as it stands inside a written pair. -/
def describe : Bound → String
  | int n => toString n
  | const c => c.describe
  | values ns => bracketed (ns.map toString)
  | text s => quoted s

/-- The bound by itself. -/
def plain : Bound → String
  | text s => s
  | b => b.describe

/-- The bound that an initial value gives. -/
def ofInitial : Initial → Bound
  | .value n => int n
  | .values ns => values ns
  | .text s => text s

/-- The number, if the bound is one. -/
def int? : Bound → Option Int
  | int n => some n
  | _ => none

end Bound

/-- The least and the greatest value that a location may have. -/
structure Range where
  bottom : Bound
  top : Bound
  deriving DecidableEq

namespace Range

/-- The range between two numbers. -/
def ofInts (r : Int × Int) : Range := ⟨.int r.1, .int r.2⟩

/-- The range as reports write a pair. -/
def describe (r : Range) : String := "(" ++ r.bottom.describe ++ ", " ++ r.top.describe ++ ")"

/-- The range as dumps write it. -/
def dashed (r : Range) : String := r.bottom.plain ++ "-" ++ r.top.plain

end Range

end CheckedAsm
