/-! # The sample program

A program that uses most constructs of the language, of any length: between a fixed beginning and a
fixed end stand as many routines of one pattern as are asked for. All of these end by jumping to one
and the same routine. -/

namespace CheckedAsm.Sample

/-- The lines before the routines of the pattern. -/
def opening : List String :=
  ["// Comprehensive SixtyPical program exercising most language constructs.",
    "typedef routine",
    "  trashes a, z, n",
    "    printer_t",
    "",
    "const small 7",
    "const big word 1000",
    "const flag on",
    "",
    "byte b1",
    "byte b2 : 10",
    "byte zb @ 96",
    "word w1",
    "word w2 : 1000",
    "byte table[256] btab",
    "byte table[8]   sbtab : \"hello\"",
    "byte table[4]   ibtab : 1, 2, 3, 4",
    "word table[256] wtab",
    "word table[4]   iwtab : 100, 200, 300, 400",
    "byte table[2048] buf",
    "byte table[2048] buf2",
    "pointer ptr  @ 252",
    "pointer ptr2 @ 250",
    "",
    "vector printer_t vprint",
    "vector printer_t vprint2",
    "vector (printer_t) table[32] vectors",
    "",
    "define chrout routine",
    "  inputs a",
    "  trashes a",
    "  @ $FFD2",
    "",
    "define printa printer_t \x7b ld a, 65 \x7d",
    "define printb printer_t \x7b ld a, 66 \x7d",
    "",
    "define loadops routine",
    "  inputs b1, btab, zb",
    "  trashes a, x, y, z, n",
    "\x7b",
    "    ld a, 0      ld x, 0      ld y, 0",
    "    ld a, x      ld a, y      ld x, a      ld y, a",
    "    ld a, b1     ld a, zb",
    "    ld x, 0      ld y, 0",
    "    ld a, btab + x",
    "    ld a, btab + y",
    "    ld a, btab + small + x",
    "    ld x, btab + y",
    "    ld x, 0",
    "    ld y, btab + x",
    "    ld x, b1     ld y, b1",
    "\x7d",
    "",
    "define storeops routine",
    "  inputs btab",
    "  outputs b1, btab, zb",
    "  trashes a, x, y, z, n, c",
    "\x7b",
    "    ld a, 1  ld x, 2  ld y, 3",
    "    st off, c",
    "    st on,  c",
    "    st a, b1  st x, b1  st y, b1  st a, zb",
    "    st a, btab + x",
    "    st a, btab + y",
    "\x7d",
    "",
    "define arithops routine",
    "  inputs b1, b2, btab, w1, w2",
    "  outputs b1, w1",
    "  trashes a, x, y, z, n, c, v",
    "\x7b",
    "    ld a, 5  ld x, 0  ld y, 0",
    "    st off, c",
    "    add a, 1",
    "    add a, b2",
    "    add a, btab + x",
    "    add a, btab + y",
    "    st off, c",
    "    add b1, 3",
    "    add b1, b2",
    "    add w1, word 100",
    "    add w1, w2",
    "    ld a, 5",
    "    st on, c",
    "    sub a, 1",
    "    sub a, b2",
    "    sub a, btab + x",
    "    st on, c",
    "    sub b1, 3",
    "    sub b1, b2",
    "    sub w1, word 100",
    "    sub w1, w2",
    "\x7d",
    "",
    "define cmpops routine",
    "  inputs b1, btab, w1, w2",
    "  trashes a, x, y, z, n, c",
    "\x7b",
    "    ld a, 0  ld x, 0  ld y, 0",
    "    cmp a, 1",
    "    cmp a, b1",
    "    cmp a, btab + x",
    "    cmp x, 1   cmp x, b1",
    "    cmp y, 1   cmp y, b1",
    "    cmp w1, w2",
    "    cmp w1, word 500",
    "\x7d",
    "",
    "define bitops routine",
    "  inputs b1, btab",
    "  outputs b1, btab",
    "  trashes a, x, y, z, n, c",
    "\x7b",
    "    ld a, $0F  ld x, 0  ld y, 0",
    "    and a, 15",
    "    and a, b1",
    "    and a, btab + x",
    "    or  a, 1   or  a, b1   or  a, btab + x",
    "    xor a, 1   xor a, b1   xor a, btab + x",
    "    inc x  dec x  inc y  dec y",
    "    inc b1 dec b1",
    "    inc btab + x",
    "    dec btab + x",
    "    st off, c",
    "    shl a  shr a",
    "    shl b1 shr b1",
    "    shl btab + x",
    "    shr btab + x",
    "    nop",
    "    trash a",
    "    ld a, 0",
    "    st a, b1",
    "\x7d",
    "",
    "define copyops routine",
    "  inputs b1, w1, wtab, vectors, vprint",
    "  outputs b2, w1, w2, wtab, vectors, vprint, vprint2",
    "  trashes a, x, y, z, n",
    "\x7b",
    "    copy b1, b2",
    "    copy word 500, w1",
    "    copy w1, w2",
    "    copy printa, vprint",
    "    copy vprint, vprint2",
    "    ld x, 0",
    "    copy w1, wtab + x",
    "    copy word 1000, wtab + x",
    "    copy wtab + x, w1",
    "    copy printa, vectors + x",
    "    copy vprint, vectors + x",
    "    copy vectors + x, vprint",
    "    ld y, 0",
    "    copy w1, wtab + y",
    "\x7d",
    "",
    "define flowops routine",
    "  inputs btab",
    "  trashes a, x, y, z, n, c",
    "\x7b",
    "    ld a, 0",
    "    cmp a, 0",
    "    if z \x7b ld a, 1 \x7d else \x7b ld a, 2 \x7d",
    "    cmp a, 0",
    "    if not z \x7b ld a, 3 \x7d",
    "    cmp a, 0",
    "    if c \x7b ld a, 4 \x7d else \x7b ld a, 5 \x7d",
    "    cmp a, 0",
    "    if not c \x7b ld a, 6 \x7d",
    "    cmp a, 0",
    "    if n \x7b ld a, 7 \x7d",
    "    cmp a, 0",
    "    if not n \x7b ld a, 8 \x7d",
    "    ld x, 0",
    "    repeat \x7b inc x  cmp x, 10 \x7d until z",
    "    ld x, 10",
    "    repeat \x7b dec x  cmp x, 0 \x7d until not z",
    "    ld y, 0",
    "    repeat \x7b inc y  cmp y, 3 \x7d until not c",
    "    ld x, 0",
    "    for x up to 10 \x7b ld a, btab + x \x7d",
    "    ld x, 10",
    "    for x down to 0 \x7b ld a, btab + x \x7d",
    "    ld y, 0",
    "    for y up to 5 \x7b ld a, btab + y \x7d",
    "\x7d",
    "",
    "define pointerops routine",
    "  inputs b1, buf, buf2, w1",
    "  outputs b1, buf, buf2",
    "  trashes a, y, z, n, c, v, ptr, ptr2",
    "\x7b",
    "    ld y, 0",
    "    point ptr into buf \x7b",
    "        reset ptr 0",
    "        copy 123, [ptr] + y",
    "        copy b1, [ptr] + y",
    "        copy [ptr] + y, b1",
    "        ld a, [ptr] + y",
    "        st a, [ptr] + y",
    "        st off, c",
    "        add ptr, word 1",
    "        add ptr, w1",
    "        point ptr2 into buf2 \x7b",
    "            reset ptr2 0",
    "            copy [ptr] + y, [ptr2] + y",
    "        \x7d",
    "    \x7d",
    "\x7d",
    "",
    "define saveops routine",
    "  inputs b1",
    "  trashes a, x, y, z, n",
    "\x7b",
    "    ld a, 0  ld x, 0  ld y, 0",
    "    save a \x7b ld a, 1 \x7d",
    "    save x \x7b ld x, 1 \x7d",
    "    save y \x7b ld y, 1 \x7d",
    "    save b1 \x7b ld a, 0  st a, b1 \x7d",
    "    save a, x, y \x7b ld a, 0  ld x, 0  ld y, 0 \x7d",
    "    ld a, 0",
    "    with interrupts off \x7b ld a, 0 \x7d",
    "\x7d",
    "",
    "define leaf routine",
    "  trashes a, z, n",
    "\x7b ld a, 42 \x7d",
    "",
    "define tail routine",
    "  trashes a, z, n",
    "\x7b goto leaf \x7d",
    "",
    "define branchy routine",
    "  trashes a, z, n, c",
    "\x7b",
    "    ld a, 0",
    "    cmp a, 0",
    "    if z \x7b goto leaf \x7d else \x7b goto printa \x7d",
    "\x7d",
    "",
    "define unreachable routine",
    "  trashes a, z, n",
    "\x7b ld a, 99 \x7d",
    "",
    "define dovec routine",
    "  inputs vprint",
    "  trashes a, z, n",
    "\x7b",
    "    call vprint",
    "    goto vprint",
    "\x7d",
    "define extra_target routine",
    "  inputs b1",
    "  trashes a, x, z, n, c, v",
    "\x7b ld a, b1 \x7d"]

/-- The lines of one routine of the pattern. -/
def extra (i : Nat) : List String :=
  let value := toString (i + 1)
  ["define extra" ++ toString i ++ " routine",
    "  inputs b1",
    "  trashes a, x, z, n, c, v",
    "\x7b",
    "    ld a, " ++ value,
    "    ld x, 0",
    "    st off, c",
    "    add a, b1",
    "    cmp a, " ++ value,
    "    if z \x7b ld a, 1 \x7d else \x7b ld a, 2 \x7d",
    "    goto extra_target",
    "\x7d"]

/-- The lines after the routines of the pattern. -/
def closing : List String :=
  ["define spinner preserved routine",
    "  trashes a, z, n",
    "\x7b",
    "    repeat \x7b ld a, 0 \x7d forever",
    "\x7d",
    "define main routine",
    "  inputs b1, b2, btab, w1, w2, wtab, vectors, vprint, buf, buf2, zb, sbtab, ibtab, iwtab",
    "  outputs b1, b2, w1, w2, btab, wtab, vectors, vprint, vprint2, buf, buf2, zb",
    "  trashes a, x, y, z, n, c, v, ptr, ptr2",
    "  static byte slocal : 0",
    "  local byte llocal",
    "\x7b",
    "    ld a, slocal",
    "    st a, llocal",
    "    ld a, llocal",
    "    call loadops",
    "    call storeops",
    "    call arithops",
    "    call cmpops",
    "    call bitops",
    "    call copyops",
    "    call flowops",
    "    call pointerops",
    "    call saveops",
    "    call tail",
    "    call branchy",
    "    call dovec",
    "    copy printa, vprint",
    "    copy printb, vprint2",
    "    ld a, 0",
    "    st a, b1  st a, b2  st a, zb",
    "    copy word 0, w1",
    "    copy word 0, w2",
    "\x7d",
    ""]

/-- The sample program with `n` routines of the pattern. -/
def source (n : Nat) : String :=
  "\n".intercalate (opening ++ (List.range n).flatMap extra ++ closing)

end CheckedAsm.Sample
