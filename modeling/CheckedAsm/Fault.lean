import CheckedAsm.Analysis.Bound
import CheckedAsm.Machine.Mnemonic
/-! # Faults

Everything that can go wrong, by its cause. A flaw is a breach of the grammar, a rejection is a breach
of the rules that the analysis enforces, and the other faults are requests that no rule answers.
`Fault.kind` names the class of a fault and `Fault.message?` words it; nothing else does. -/

namespace CheckedAsm

open Text

/-- A breach of the grammar. Where a text is optional, nothing was found because the text ended. -/
inductive Flaw where
  | expected (wanted : String) (found : Option String)
  | misplaced (kind : String) (found : Option String)
  | undefinedSymbol (name : String)
  | redeclared (name : String)
  | redeclaredLocally (name : String)
  | redeclaredGlobally (name : String)
  | typeRedeclared (name : String)
  | constRedeclared (name : String)
  | initialAndAddress
  | badConstant (found : Option String)
  | badTableSize
  | vectorOf (typeName : String)
  | undefinedType (found : Option String)
  | notRoutine (ty : Ty)
  | staticWithoutInitial (d : Defn)
  | localWithInitial (d : Defn)
  | noDirection (found : Option String)
  | badOpcode (found : Option String)

namespace Flaw

/-- The wording of a flaw. -/
def message : Flaw → String
  | expected w f => "Expected '" ++ w ++ "', but found '" ++ orNone f ++ "'"
  | misplaced k f => "Expected " ++ k ++ ", but found '" ++ orNone f ++ "'"
  | undefinedSymbol n => "Undefined symbol \"" ++ n ++ "\""
  | redeclared n => "Symbol \"" ++ n ++ "\" already declared"
  | redeclaredLocally n => "Symbol \"" ++ n ++ "\" already declared locally"
  | redeclaredGlobally n => "Symbol \"" ++ n ++ "\" already declared globally"
  | typeRedeclared n => "Type \"" ++ n ++ "\" already declared"
  | constRedeclared n => "Const \"" ++ n ++ "\" already declared"
  | initialAndAddress => "Definition cannot have both initial value and explicit address"
  | badConstant f => "bad constant \"" ++ orNone f ++ "\""
  | badTableSize => "Table size must be > 0 and <= 65536"
  | vectorOf n => "Vectors can only be of a routine, not " ++ quoted n
  | undefinedType f => "Undefined type '" ++ orNone f ++ "'"
  | notRoutine t => "Can only define a routine, not " ++ t.describe
  | staticWithoutInitial d => "Static definition " ++ d.describe ++ " must have initial value"
  | localWithInitial d => "Local definition " ++ d.describe ++ " may not have initial value"
  | noDirection f => "expected \"up\" or \"down\", found \"" ++ orNone f ++ "\""
  | badOpcode f => "bad opcode \"" ++ orNone f ++ "\""

end Flaw

/-- The rule of the analysis that a program breaks. -/
inductive Rule where
  | unmeaningfulRead
  | unmeaningfulOutput
  | inconsistentExit
  | forbiddenWrite
  | typeMismatch
  | illegalJump
  | terminatedContext
  | rangeExceeded
  | constantConstraint
  | inconsistentConstraints
  | incompatibleConstraints
  deriving DecidableEq

/-- The name of a rule's breach. -/
def Rule.name : Rule → String
  | unmeaningfulRead => "UnmeaningfulReadError"
  | unmeaningfulOutput => "UnmeaningfulOutputError"
  | inconsistentExit => "InconsistentExitError"
  | forbiddenWrite => "ForbiddenWriteError"
  | typeMismatch => "TypeMismatchError"
  | illegalJump => "IllegalJumpError"
  | terminatedContext => "TerminatedContextError"
  | rangeExceeded => "RangeExceededError"
  | constantConstraint => "ConstantConstraintError"
  | inconsistentConstraints => "InconsistentConstraintsError"
  | incompatibleConstraints => "IncompatibleConstraintsError"

/-- What a breach is reported against. -/
inductive Spot where
  | routine (name : String) (line : Nat)
  | instr (line : Nat)

/-- The three constraints of a routine. -/
inductive Constraint where
  | inputs
  | outputs
  | trashes

/-- The name of a constraint. -/
def Constraint.name : Constraint → String
  | inputs => "inputs"
  | outputs => "outputs"
  | trashes => "trashes"

/-- The locations that a constraint names. -/
def Constraint.of : Constraint → Signature → Slots
  | inputs, sig => sig.inputs
  | outputs, sig => sig.outputs
  | trashes, sig => sig.trashes

/-- What a breach is about. -/
inductive Detail where
  | named (r : Ref) (note : Option String)
  | ref (r : Ref)
  | names (r s : Ref)
  | refs (r s : Ref)
  | pair (r s : Ref)
  | instr (i : Instr)
  | exits
  | outside (inside : Ref) (has : Range) (offset : Const) (limit : Ref) (allowed : Range)
  | exceeds (what : Constraint) (affecting limiting : Signature)
  | copyTarget (r : Ref)
  | loopTop (r : Ref) (top : Bound) (final : Int)
  | loopBottom (r : Ref) (bottom : Bound) (final : Int)
  | unassociated (r : Ref)

namespace Detail

/-- The wording of what a breach is about. -/
def message : Detail → String
  | named r none => r.name
  | named r (some note) => r.name ++ " (" ++ note ++ ")"
  | ref r => r.describe
  | names r s => r.name ++ " and " ++ s.name
  | refs r s => r.describe ++ " and " ++ s.describe
  | pair r s => r.describePair s
  | instr i => i.describe
  | exits => "Exit contexts are not consistent"
  | outside i has o l allowed => "Possible range of " ++ i.describe ++ " " ++ has.describe ++ " (+"
      ++ o.describe ++ ") exceeds acceptable range of " ++ l.describe ++ " " ++ allowed.describe
  | exceeds what affecting limiting =>
      what.name ++ " for " ++ (Ty.routine limiting).describe ++ " are "
      ++ (what.of limiting).listed ++ "\n\nbut " ++ (Ty.routine affecting).describe ++ " affects "
      ++ (what.of affecting).listed ++ "\n\nwhich exceeds it by: "
      ++ ((what.of affecting).minus (what.of limiting)).listed ++ " "
  | copyTarget r => r.describe ++ " cannot be used as destination for copy"
  | loopTop r top final => "Top of range of " ++ r.describe ++ " is " ++ top.plain
      ++ " but must be lower than " ++ toString final
  | loopBottom r bottom final => "Bottom of range of " ++ r.describe ++ " is " ++ bottom.plain
      ++ " but must be higher than " ++ toString final
  | unassociated r => r.name ++ " is not associated with any table"

end Detail

/-- The wording of a breach with its spot. -/
def Spot.locate (message : String) : Spot → String
  | routine n line => message ++ " (in " ++ n ++ ", line " ++ toString line ++ ")"
  | instr line => message ++ " (line " ++ toString line ++ ")"

/-- Why a request could not be answered. -/
inductive Fault where
  /-- The text breaks the grammar. -/
  | flaw (file : String) (line : Nat) (flaw : Flaw)
  /-- The program breaks a rule of the analysis. -/
  | rejected (rule : Rule) (spot : Spot) (detail : Detail)
  /-- The machine has no code for the instruction. -/
  | unsupported (i : Instr)
  /-- Nothing has this name. -/
  | unknownName (name : String)
  /-- The reference is not in the table that was asked. -/
  | unknownRef (r : Ref)
  /-- There is no such format of images. -/
  | unknownFormat (name : Option String)
  /-- The instruction does not have this addressing mode. -/
  | noEncoding (mode : Mode)
  /-- Only bytes have a neighbour. -/
  | notByte
  /-- A range check needs two locations. -/
  | notLocation
  /-- The addressing mode does not take such an operand. -/
  | badOperand
  /-- The label has no address yet. -/
  | unresolved (label : String)
  /-- The number does not fit in a byte. -/
  | byteOverflow (n : Int)
  /-- There is nothing left to take away. -/
  | exhausted
  /-- The image is larger than its pad. -/
  | overfull (size limit : Int)
  /-- The reference is of a kind that has no answer here. -/
  | noAnswer
  /-- The reference is of a kind that has no type or no meaning of its own. -/
  | noMeaning (r : Ref)
  /-- Only two registers are indexes. -/
  | noIndex (r : Ref)
  /-- There is no code for values of the type. -/
  | noCodeFor (ty : Ty)
  /-- Values of the type have no size. -/
  | noSizeFor (ty : Ty)
  /-- A number was wanted where the text ended. -/
  | numberMissing
  /-- A vector of a compound type has no wording. -/
  | vectorOfCompound
  /-- The bounds cannot be compared or added to. -/
  | incomparable
  /-- The item has no size. -/
  | sizeless
  /-- A text that is not one character is no byte. -/
  | notOneCharacter
  /-- A character is no word. -/
  | notWord
  /-- The addressing mode takes no operand. -/
  | operandRefused
  /-- The file name is missing. -/
  | fileNameMissing
  /-- A table's base has to be declared before it is used. -/
  | lateBase
  /-- The reference has no value. -/
  | noValue
  /-- The type has no constraints. -/
  | noConstraints
  /-- The text is no numeral. -/
  | notNumeral
  /-- The file name holds a character that no file name has. -/
  | badFileName
  /-- There is no such file. -/
  | noSuchFile
  /-- The name is that of a directory. -/
  | isDirectory
  /-- A part of the path is not a directory. -/
  | notDirectory
  /-- A copy between these operands has no code. -/
  | noCopy
  /-- The emulator could not be run. -/
  | noEmulator
  /-- The input is nested more deeply than its length allows. -/
  | tooDeep

namespace Fault

/-- The name of the fault's class. -/
def kind : Fault → String
  | flaw .. => "SixtyPicalSyntaxError"
  | rejected rule _ _ => rule.name
  | unsupported _ => "UnsupportedOpcodeError"
  | unknownName _ | unknownRef _ | unknownFormat _ | noEncoding _ => "KeyError"
  | notByte | notLocation | badOperand | unresolved _ => "AssertionError"
  | byteOverflow _ | exhausted | overfull _ _ => "IndexError"
  | noAnswer | noMeaning _ | noIndex _ | noCodeFor _ | noSizeFor _ => "NotImplementedError"
  | numberMissing | vectorOfCompound | incomparable | sizeless | notOneCharacter | notWord
  | operandRefused | fileNameMissing => "TypeError"
  | lateBase | noValue | noConstraints => "AttributeError"
  | notNumeral | badFileName => "ValueError"
  | noSuchFile => "FileNotFoundError"
  | isDirectory => "IsADirectoryError"
  | notDirectory => "NotADirectoryError"
  | noCopy => "UnboundLocalError"
  | noEmulator => "CalledProcessError"
  | tooDeep => "RecursionError"

/-- The wording of the fault. Faults that say no more than their class have none. -/
def message? : Fault → Option String
  | flaw file line f => some (file ++ ", line " ++ toString line ++ ": " ++ f.message)
  | rejected _ spot detail => some (spot.locate detail.message)
  | unsupported i => some i.describe
  | unknownName n => some (quoted n)
  | unknownRef r => some r.describe
  | unknownFormat n => some (orNone (n.map quoted))
  | noEncoding m => some ("<class 'sixtypical.gen6502." ++ m.name ++ "'>")
  | notByte | notLocation | badOperand => some ""
  | unresolved l => some ("unresolved label: " ++ l)
  | byteOverflow n => some (toString n)
  | exhausted => some "pop from empty list"
  | overfull size limit =>
    some ("Emitter size " ++ toString size ++ " exceeds pad size " ++ toString limit)
  | noAnswer => some ""
  | noMeaning r | noIndex r => some r.describe
  | noCodeFor t => some t.describe
  | noSizeFor t => some ("Need size for type " ++ t.describe)
  | _ => none

/-- The class with the place it belongs to, where it has one. -/
def qualifiedKind (f : Fault) : String :=
  match f with
  | flaw .. => "sixtypical.scanner." ++ f.kind
  | rejected .. => "sixtypical.analyzer." ++ f.kind
  | unsupported _ => "sixtypical.compiler." ++ f.kind
  | noEmulator => "subprocess." ++ f.kind
  | _ => f.kind

/-- The fault on one line: its class, and its wording where there is any. -/
def headline (f : Fault) : String :=
  match f.message? with
  | none => f.qualifiedKind
  | some text => if text.isEmpty then f.qualifiedKind else f.qualifiedKind ++ ": " ++ text

end Fault

namespace Const

/-- The constant before a byte; below zero it wraps around. -/
def pred (c : Const) : Except Fault Const :=
  if c.ty = .byte then
    let v := c.value - 1
    .ok ⟨c.ty, if v < 0 then v % 256 else v⟩
  else .error .notByte

/-- The constant after a byte; above 255 it wraps around. -/
def succ (c : Const) : Except Fault Const :=
  if c.ty = .byte then
    let v := c.value + 1
    .ok ⟨c.ty, if v > 255 then v % 256 else v⟩
  else .error .notByte

end Const

end CheckedAsm
