import CheckedAsm.Proofs.Grammar.Declarations
import Mathlib
/-! # Which names are resolved

A name that is not declared where it is read is left pending. At the end of the file the operands of operations are resolved,
and so are the names that are called or jumped to, and those in the types of global locations. Other names stay pending, whether
or not they are declared later: conditions, the variables of loops, what is set aside, pointers and their tables, indices, and
the types of locals. -/

namespace CheckedAsm

/-- In programs that were read, each name that was found when it was read is global, or local to its routine; what was left pending
in operations is global, as is what is called or jumped to; and the types of global locations are settled, with global names. The
end of a file is passed just if this can be so, and otherwise a name is reported that is not global, or the base of a table cell
that was left pending. -/
theorem Files.names_resolved {fs : Files} {path mains : List String} {symbols : Symbols} {parsed : List Program}
    (hread : fs.loadAll path .initial mains = .ok (symbols, parsed)) :
    (∀ r ∈ (Program.merge parsed).routines, ∀ b, r.body = some b → b.Spelled (symbols.Knows r.name) ∧ b.Resolves symbols)
      ∧ symbols.Typed
      ∧ ∀ (s : Symbols) (p : Program) (c : Cursor),
        ((Grammar.settle s p c).isOk = true ↔ (∀ e ∈ s.globals.entries, ∀ n ∈ e.2.ty.names, s.hasGlobal n = true) ∧ s.Settles p)
          ∧ ∀ f, Grammar.settle s p c = .error f → s.Lacks c f := by
  have hagree := fs.read_agree hread
  refine ⟨fun r hr b hb => ⟨hagree.declares.bodies r hr _ (fun _ => id) b hb, hagree.settles r hr b hb⟩, hagree.typed, fun s p c => ?_⟩
  have hcases := Grammar.settle_cases s p c
  simp only [List.forall_mem_flatMap] at hcases
  obtain ⟨hall, hok⟩ | ⟨hall, f, herr, hlacks⟩ := hcases
  · rw [hok]
    exact ⟨⟨fun _ => hall, fun _ => rfl⟩, fun _ hf => nomatch hf⟩
  · rw [herr]
    exact ⟨⟨fun h => (nomatch h), fun h => absurd h hall⟩, fun _ hf => Except.error.inj hf ▸ hlacks⟩

/-- A routine that asks for a flag that is not there and jumps to another one that comes later. -/
def dangling : Files :=
  { entries := [⟨["m"], "define main routine \x7b if foo \x7b nop \x7d goto next \x7d define next routine @ 9"⟩] }

theorem dangling_read : ∃ symbols parsed r b, dangling.loadAll [] .initial ["m"] = .ok (symbols, parsed)
    ∧ r ∈ (Program.merge parsed).routines ∧ r.body = some b ∧ b.Contains (.goto 1 "next")
    ∧ (∃ line site yes, b.Contains (.ifThen line (.pending "foo" site) false yes)) ∧ symbols.hasGlobal "foo" = false := by
  refine ⟨?_, ?_, ?_, ?_, ?read, ?mem, ?body, ?goto, ⟨?_, ?_, ?_, ?choice⟩, ?foo⟩
  case read => cbv; rfl
  case mem => exact List.mem_cons_self
  case body => rfl
  case goto => exact .tail .head
  case choice => exact .head
  case foo => rfl

/-- The routine that comes later is found. -/
theorem dangling_jump_resolved : ∃ symbols parsed, dangling.loadAll [] .initial ["m"] = .ok (symbols, parsed)
    ∧ symbols.hasGlobal "next" = true := by
  obtain ⟨symbols, parsed, r, b, hread, hr, hb, hgoto, -⟩ := dangling_read
  exact ⟨symbols, parsed, hread, ((Files.names_resolved hread).1 r hr b hb).2 _ hgoto⟩

/-- The flag is left pending, and the file is accepted. -/
theorem dangling_condition_pending : ∃ symbols parsed r b line site yes, dangling.loadAll [] .initial ["m"] = .ok (symbols, parsed)
    ∧ r ∈ (Program.merge parsed).routines ∧ r.body = some b ∧ b.Contains (.ifThen line (.pending "foo" site) false yes)
    ∧ symbols.hasGlobal "foo" = false := by
  obtain ⟨symbols, parsed, r, b, hread, hr, hb, -, ⟨line, site, yes, hchoice⟩, hfoo⟩ := dangling_read
  exact ⟨symbols, parsed, r, b, line, site, yes, hread, hr, hb, hchoice, hfoo⟩

end CheckedAsm
