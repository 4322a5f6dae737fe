import CheckedAsm.Codegen.Layout
/-! # Images

A compiled program is written in one of several formats. A format has an origin, the address of the
first byte, and may put the load address in front, code of its own before the program, and fill the
image up to the size of a cartridge, which ends with the addresses of its two vectors. -/

namespace CheckedAsm

/-- A format of images. -/
structure Format where
  name : String
  origin : Int
  loadAddress : Bool := false
  prelude : List UInt8 := []
  cartridge : Option Int := none

namespace Format

/-- The bare bytes. -/
def raw : Format := { name := "raw", origin := 0 }

/-- The bytes after their load address. -/
def prg : Format := { name := "prg", origin := 0xc000, loadAddress := true }

/-- A program behind one line of BASIC for the C64. -/
def c64 : Format where
  name := "c64-basic-prg"
  origin := 0x0801
  loadAddress := true
  prelude := [0x10, 0x08, 0xc9, 0x07, 0x9e, 0x32, 0x30, 0x36, 0x31, 0x00, 0x00, 0x00]

/-- A program behind one line of BASIC for the VIC-20. -/
def vic20 : Format where
  name := "vic20-basic-prg"
  origin := 0x1001
  loadAddress := true
  prelude := [0x0b, 0x10, 0xc9, 0x07, 0x9e, 0x34, 0x31, 0x30, 0x39, 0x00, 0x00, 0x00]

/-- A cartridge for the Atari 2600: the machine is set up first, and the last four bytes are the two
vectors. -/
def atari2600 : Format where
  name := "atari2600-cart"
  origin := 0xf000
  prelude := [0x78, 0xd8, 0xa2, 0xff, 0x9a, 0xa9, 0x00, 0x95, 0x00, 0xca, 0xd0, 0xfb]
  cartridge := some 4096

/-- All formats. -/
def all : List Format := [raw, prg, c64, vic20, atari2600]

/-- The format of a name. -/
def named (name : Option String) : Except Fault Format :=
  match all.find? fun f => some f.name == name with
  | some f => .ok f
  | none => .error (.unknownFormat name)

/-- What stands before the image. -/
def header (f : Format) (start : Int) : List UInt8 :=
  if f.loadAddress then [(wordBytes start).1, (wordBytes start).2] else []

/-- An emitter that holds the format's own code. -/
def opened (f : Format) (start : Int) : Emitter :=
  f.prelude.foldl Emitter.byte (.startingAt start)

/-- Fills a cartridge and adds its vectors. -/
def closed (f : Format) (start : Int) (e : Emitter) : Except Fault Emitter :=
  match f.cartridge with
  | none => .ok e
  | some size => do
    let e ← e.padTo (size - 4)
    let e ← e.emit (.word start)
    e.emit (.word start)

end Format

/-- An image: what stands before it, and its layout. -/
structure Image where
  header : List UInt8
  layout : Layout

namespace Image

/-- Compiles a program into a format. The origin is the format's own unless another one is given. -/
def ofProgram (symbols : Symbols) (p : Program) (roster : Option (List (List String)))
    (format : Option String) (origin : Option Int) : Except Fault Image := do
  let f ← Format.named format
  let start := origin.getD f.origin
  let layout ← p.layOut symbols roster (f.opened start)
  let e ← f.closed start layout.emitter
  pure ⟨f.header start, { layout with emitter := e }⟩

/-- The bytes of an image. -/
def bytes (i : Image) : Except Fault (List UInt8) := do
  let bs ← i.layout.emitter.bytes
  pure (i.header ++ bs)

end Image

end CheckedAsm
