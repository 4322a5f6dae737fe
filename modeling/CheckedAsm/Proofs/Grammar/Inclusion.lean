import CheckedAsm.Proofs.Grammar.Declarations
import Mathlib
/-! # Included files

To include files at the head of a file is to read them before it. What they declare is there when the file itself is read, and at
its end there is nothing left to settle in them, since no global name is lost on the way. -/

namespace CheckedAsm

open Grammar List Parse Symbols

variable {fs : Files} {path : List String} {s : Symbols} {p q : Program} {c : Cursor} {load load' : Include}

/-! ### Depth -/

end CheckedAsm
