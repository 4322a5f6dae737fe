import CheckedAsm.Proofs.Grammar.Declarations
import Mathlib
/-! # What the table lists

Beside the registers and flags, the table of symbols lists just the names that the program defines, each with the definition or
routine of that name, and the local definitions of just those routines that have any. -/

namespace CheckedAsm

open Assoc List

namespace Symbols.Declares

variable {s : Symbols} {p : Program} (h : s.Declares p)
include h

theorem builtin_notMem {b : String × Entry} (hb : b ∈ Symbols.builtins) : b.1 ∉ p.names := by
  intro hmem
  obtain ⟨e, he, hdefines⟩ := h.defined b.1 hmem
  obtain rfl : b.2 = e := Option.some.inj ((h.builtins b hb).symm.trans he)
  have hbuiltin : ∀ b ∈ Symbols.builtins, b.2.decl = .builtin := by simp [Symbols.builtins]
  have hdecl := hbuiltin b hb
  obtain ⟨_, -, -, hd, -⟩ | ⟨_, -, -, hr, -⟩ := hdefines
  · cases hdecl.symm.trans hd
  · cases hdecl.symm.trans hr

theorem mem_keys {name : String} : name ∈ s.globals.keys ↔ name ∈ Symbols.builtins.map (·.1) ∨ name ∈ p.names := by
  rw [mem_keys_iff, Assoc.has, Option.isSome_iff_exists]
  constructor
  · rintro ⟨e, he⟩
    obtain hb | ⟨d, hd, rfl, -⟩ | ⟨r, hr, rfl, -⟩ := h.globals name e he
    · exact .inl (mem_map_of_mem hb)
    · exact .inr (mem_append_left _ (mem_map_of_mem hd))
    · exact .inr (Program.mem_names hr)
  · rintro (hb | hname)
    · obtain ⟨b, hmem, rfl⟩ := mem_map.1 hb
      exact ⟨b.2, h.builtins b hmem⟩
    · exact (h.defined name hname).imp fun _ => And.left

theorem local_entries {r : Routine} (hr : r ∈ p.routines) :
    (s.localsOf r.name).entries.map (fun e => (e.1, e.2.decl)) = r.locals.map fun d => (d.name, .defn d) := by
  rw [← forall₂_eq_eq_eq, forall₂_map_left_iff, forall₂_map_right_iff]
  exact (h.locals r hr).flip.imp fun e d hlocal => Prod.ext hlocal.name hlocal.decl

theorem mem_local_keys {name : String} : name ∈ s.locals.keys ↔ ∃ r ∈ p.routines, r.name = name ∧ r.locals ≠ [] := by
  rw [mem_keys_iff, Assoc.has]
  constructor
  · intro hsome
    by_contra hnone
    rw [h.others name fun r hr hname => by_contra fun hne => hnone ⟨r, hr, hname, hne⟩] at hsome
    cases hsome
  · rintro ⟨r, hr, rfl, hne⟩
    cases hget : s.locals.get? r.name with
    | some => rfl
    | none =>
      have hentries := h.local_entries hr
      rw [localsOf, hget] at hentries
      exact absurd (map_eq_nil_iff.1 hentries.symm) hne

end Symbols.Declares

/-- Programs that were read define each name once and no register or flag. The table lists these names beside the registers and
flags, each with what the program defines under it, and lists the local definitions of the routines that have any. -/
theorem Files.table_lists_program {fs : Files} {path mains : List String} {symbols : Symbols} {parsed : List Program}
    (hread : fs.loadAll path .initial mains = .ok (symbols, parsed)) :
    let p := Program.merge parsed
    p.names.Nodup ∧ (∀ b ∈ Symbols.builtins, b.1 ∉ p.names)
      ∧ (∀ name, name ∈ symbols.globals.keys ↔ name ∈ Symbols.builtins.map (·.1) ∨ name ∈ p.names)
      ∧ (∀ d ∈ p.defns, ∃ ty, symbols.globals.get? d.name = some ⟨.defn d, ty⟩)
      ∧ (∀ r ∈ p.routines, ∃ ty, symbols.globals.get? r.name = some ⟨.routine r, ty⟩)
      ∧ (∀ name, name ∈ symbols.locals.keys ↔ ∃ r ∈ p.routines, r.name = name ∧ r.locals ≠ [])
      ∧ ∀ r ∈ p.routines,
        (symbols.localsOf r.name).entries.map (fun e => (e.1, e.2.decl)) = r.locals.map fun d => (d.name, .defn d) := by
  have h := (fs.read_agree hread).declares
  refine ⟨h.names, fun _ => h.builtin_notMem, fun _ => h.mem_keys, fun d hd => ?_, fun r hr => ?_, fun _ => h.mem_local_keys,
    fun _ => h.local_entries⟩
  · obtain ⟨ty, he, -⟩ := h.defn hd
    exact ⟨ty, he⟩
  · obtain ⟨sig, he, -⟩ := h.routine hr
    exact ⟨_, he⟩

/-- A library with a location, and a routine with a local one. -/
def borrowing : Files :=
  { entries := [⟨["lib"], "byte one"⟩, ⟨["m"], "include lib word two define main routine \x7b \x7d define foo routine static byte b : 1 \x7b \x7d"⟩] }

theorem borrowing_listed : ∃ symbols parsed, borrowing.loadAll [""] .initial ["m"] = .ok (symbols, parsed)
    ∧ (Program.merge parsed).names = ["one", "two", "main", "foo"] ∧ symbols.locals.keys = ["foo"]
    ∧ (Program.merge parsed).names.Nodup := by
  refine ⟨?_, ?_, ?read, ?names, ?locals, (Files.table_lists_program ?read).1⟩
  case read => cbv; rfl
  case names => rfl
  case locals => rfl

end CheckedAsm
