/-! # Faulty programs

Short programs, each with one fault: first those that break the grammar, then those that break a rule
of the analysis. -/

namespace CheckedAsm.Sample

/-- A `main` that may change the registers and flags and has the given body. -/
def mainOf (before body : String) : String :=
  before ++ " define main routine trashes a, x, y, z, n, c, v \x7b " ++ body ++ " \x7d"

/-- Programs that break the grammar. -/
def ungrammatical : List String :=
  ["byte",
    "byte b byte b",
    "byte b : 1 @ 2",
    "byte table[0] t",
    "byte table[65537] t",
    "vector byte v",
    "const k zz",
    "const k 1 const k 2",
    "typedef byte t typedef byte t",
    "define main missing \x7b \x7d",
    "define main byte \x7b \x7d",
    "define main routine",
    "define main routine inputs q \x7b \x7d",
    "define main routine static byte s \x7b \x7d",
    "define main routine local byte s : 1 \x7b \x7d",
    mainOf "" "ld a, q",
    mainOf "" "zap a",
    mainOf "" "ld a 0",
    mainOf "" "for x sideways to 3 \x7b \x7d",
    mainOf "" "if z \x7b nop"]

/-- Programs that break a rule of the analysis. -/
def unsound : List String :=
  ["define main routine \x7b ld a, 0 \x7d",
    "define main routine trashes a, z, n \x7b ld a, x \x7d",
    "define main routine outputs a \x7b \x7d",
    "define main routine inputs 1 \x7b \x7d",
    "define main routine outputs a trashes a, z, n \x7b ld a, 0 \x7d",
    mainOf "byte b" "ld a, b",
    mainOf "byte b" "ld a, 0 st a, b",
    mainOf "word w" "ld a, w",
    mainOf "word w" "ld a, 0 st a, w",
    mainOf "byte b" "call b",
    mainOf "byte b" "goto b",
    mainOf "" "ld x, 0 add x, 1",
    mainOf "" "ld a, 1 add a, 1",
    mainOf "" "shl a",
    mainOf "" "inc a",
    mainOf "byte table[4] t" "ld x, 9 ld a, t + x",
    mainOf "byte table[4] t" "ld a, t + x",
    mainOf "" "ld x, 9 for x up to 3 \x7b nop \x7d",
    mainOf "" "ld x, 0 for x down to 3 \x7b nop \x7d",
    mainOf "define f routine trashes a \x7b trash a \x7d" "goto f ld a, 0"]

/-- All of them. -/
def faulty : List String := ungrammatical ++ unsound

end CheckedAsm.Sample
