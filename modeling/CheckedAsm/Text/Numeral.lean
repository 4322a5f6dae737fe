import CheckedAsm.Text.Blank
import CheckedAsm.Text.DecimalDigit
/-! # Reading numerals

A numeral may have blanks around it, then a sign, then digits of any script with single low lines
between them. A hexadecimal numeral may carry `0x` after its sign. -/

namespace CheckedAsm.Text

/-- The digits after the first one: each may have one low line before it. -/
def readDigits (value? : Char → Option Nat) (base : Nat) : Nat → List Char → Option Nat
  | acc, [] => some acc
  | acc, '_' :: c :: rest => do
    let d ← value? c
    readDigits value? base (acc * base + d) rest
  | acc, c :: rest => do
    let d ← value? c
    readDigits value? base (acc * base + d) rest

/-- A number without sign. -/
def readUnsigned (value? : Char → Option Nat) (base : Nat) : List Char → Option Nat
  | [] => none
  | c :: rest => do
    let d ← value? c
    readDigits value? base d rest

/-- A number with an optional sign. -/
def readSigned (unsigned : List Char → Option Nat) : List Char → Option Int
  | '-' :: rest => (unsigned rest).map fun n => -(n : Int)
  | '+' :: rest => (unsigned rest).map fun n => (n : Int)
  | rest => (unsigned rest).map fun n => (n : Int)

/-- What a decimal numeral stands for. -/
def decimal? (s : String) : Option Int :=
  readSigned (readUnsigned digitValue? 10) (trimBlanks s.toList)

/-- The value of a hexadecimal digit, where digits of other scripts count as digits too. -/
def anyHexValue? (c : Char) : Option Nat :=
  (hexValue? c).orElse fun _ => digitValue? c

/-- A hexadecimal number without sign. One low line may follow its `0x`. -/
def readHexUnsigned : List Char → Option Nat
  | '0' :: 'x' :: '_' :: rest => readUnsigned anyHexValue? 16 rest
  | '0' :: 'X' :: '_' :: rest => readUnsigned anyHexValue? 16 rest
  | '0' :: 'x' :: rest => readUnsigned anyHexValue? 16 rest
  | '0' :: 'X' :: rest => readUnsigned anyHexValue? 16 rest
  | rest => readUnsigned anyHexValue? 16 rest

/-- What a hexadecimal numeral stands for. -/
def hexadecimal? (s : String) : Option Int :=
  readSigned readHexUnsigned (trimBlanks s.toList)

end CheckedAsm.Text
