import CheckedAsm.Proofs.Grammar.Declarations
import Mathlib
/-! # The size of literals

Constants that are bits or bytes fit their types wherever they stand in a program. Nothing bounds a literal, though: one that does
not fit a byte makes a word, and neither words nor initial values nor addresses are held to sixteen bits. -/

namespace CheckedAsm

open Grammar Parse Text

variable {fs : Files} {path mains : List String} {s : Symbols} {ps : List Program} {c : Cursor} {t : String} {n : Int}

theorem const_of_integer (ht : c.here.token = .integer t) (hn : decimal? t = some n) : const s c = .ok (.ofInt n, c.advance) := by
  have hbit : t ≠ "on" ∧ t ≠ "off" := by constructor <;> rintro rfl <;> cases hn
  simp [const, text?, Cursor.text?, ask, bind, StateT.bind, Except.bind, ht, Token.text?, hbit, Token.isInteger, Parse.number, hn, advance,
    pure, StateT.pure, Except.pure]

theorem integer_of_integer (ht : c.here.token = .integer t) (hn : decimal? t = some n) : integer c = .ok (n, c.advance) := by
  simp [integer, checkKind, Cursor.checkKind, Cursor.onKind, Token.kind, text?, Cursor.text?, ask, bind, StateT.bind, Except.bind, Except.map,
    ht, Token.text?, Parse.number, hn, advance, pure, StateT.pure, Except.pure]

/-- In programs that were read, bits and bytes fit their types, named or not. A literal is taken for what it says, however large. -/
theorem Files.constants_fit (hread : fs.loadAll path .initial mains = .ok (s, ps)) :
    (∀ name c, s.consts.get? name = some c → c.Spelled)
      ∧ (∀ r ∈ (Program.merge ps).routines, ∀ b, r.body = some b → b.Spelled)
      ∧ ∀ (c : Cursor) (t : String) (n : Int), c.here.token = .integer t → decimal? t = some n →
        const s c = .ok (.ofInt n, c.advance) ∧ integer c = .ok (n, c.advance)
          ∧ ∀ ty : Ty, ty.isTable = false → initial s ty c = .ok (.value n, c.advance) := by
  have h := (fs.read_agree hread).declares
  refine ⟨h.readable.consts, fun r hr b hb => h.bodies r hr _ (fun _ _ => trivial) b hb, fun c t n ht hn => ?_⟩
  refine ⟨const_of_integer ht hn, integer_of_integer ht hn, fun ty hty => ?_⟩
  simp [initial, hty, bind, StateT.bind, const_of_integer ht hn, Except.bind, pure, StateT.pure, Except.pure, Const.ofInt]

/-- A word that starts out with more than fits it, another at an address that is not there, and a constant for them. -/
def oversized : Files :=
  { entries := [⟨["m"], "const limit 70000 word one : 70000 word two @ 70000 define main routine \x7b copy 70000, one \x7d"⟩] }

theorem oversized_fits : ∃ s ps, oversized.loadAll [""] .initial ["m"] = .ok (s, ps)
    ∧ ∀ c, s.consts.get? "limit" = some c → c.Spelled := by
  refine ⟨?_, ?_, ?read, (Files.constants_fit ?read).1 "limit"⟩
  case read => cbv; rfl

theorem oversized_accepted : ∃ s ps, oversized.loadAll [""] .initial ["m"] = .ok (s, ps)
    ∧ s.consts.get? "limit" = some ⟨.word, 70000⟩
    ∧ (Program.merge ps).defns.map (fun d => (d.name, d.addr, d.initial)) = [("one", none, some (.value 70000)), ("two", some 70000, none)] := by
  refine ⟨?_, ?_, ?read, ?named, ?defns⟩
  case read => cbv; rfl
  case named => rfl
  case defns => rfl

end CheckedAsm
