import CheckedAsm.Proofs.Codegen.Placement
/-! # The labels of names

Before any code is generated, every definition and every routine gets a label of its own, in the order of the program. The
label of a definition has the address that the definition asks for and the length of its type; that of a routine has its
address and no length. No other labels are made. -/

namespace CheckedAsm

open Codegen List

variable {rs : List Routine} {ps : List Placed} {ls ls' : Labels} {symbols : Symbols} {name : String}

/-- The labels from the given one on are those of the routines and of the definitions, each of which has its own. -/
structure Labels.Names (globals : Assoc String LabelId) (rs : List Routine) (ps : List Placed) (n : Nat) (ls : Labels) :
    Prop extends Labels.Seats ps n ls where
  routine : ∀ r ∈ rs, ∃ id, n ≤ id ∧ id < ls.size ∧ globals.get? r.name = some id ∧ ls.entry id = ⟨r.name, r.addr, none⟩
  all : ∀ id, n ≤ id → id < ls.size → (∃ q ∈ ps, q.label = id) ∨ ∃ r ∈ rs, globals.get? r.name = some id

section

variable {globals : Assoc String LabelId} {ps' : List Placed} {n : Nat}

theorem Labels.Names.append (h : Labels.Names globals [] ps n ls) (h' : Labels.Names globals rs ps' ls.size ls')
    (hn : n ≤ ls.size) (hls : ls.Grows ls') : Labels.Names globals rs (ps ++ ps') n ls' where
  toSeats := h.toSeats.append h'.toSeats hn hls
  routine r hr := by
    obtain ⟨id, hle, hrest⟩ := h'.routine r hr
    exact ⟨id, hn.trans hle, hrest⟩
  all id hle hlt := by
    by_cases hid : id < ls.size
    · obtain ⟨q, hq, hlabel⟩ | ⟨r, hr, -⟩ := h.all id hle hid
      · exact .inl ⟨q, mem_append_left _ hq, hlabel⟩
      · cases hr
    · obtain ⟨q, hq, hlabel⟩ | hr := h'.all id (Nat.le_of_not_lt hid) hlt
      · exact .inl ⟨q, mem_append_right _ hq, hlabel⟩
      · exact .inr hr

/-- The label of a routine comes before those of its locals. -/
theorem Labels.Names.cons {r : Routine} (h : Labels.Names globals rs ps (n + 1) ls) (hlt : n < ls.size)
    (hget : globals.get? r.name = some n) (hentry : ls.entry n = ⟨r.name, r.addr, none⟩) :
    Labels.Names globals (r :: rs) ps n ls where
  toSeats := h.toSeats.of_le (Nat.le_succ n)
  routine r' hr' := by
    obtain rfl | hr' := mem_cons.1 hr'
    · exact ⟨n, Nat.le_refl n, hlt, hget, hentry⟩
    · obtain ⟨id, hle, hrest⟩ := h.routine r' hr'
      exact ⟨id, Nat.le_of_succ_le hle, hrest⟩
  all id hle hlt := by
    obtain rfl | hgt := Nat.eq_or_lt_of_le hle
    · exact .inr ⟨r, mem_cons_self, hget⟩
    · exact (h.all id hgt hlt).imp_right fun ⟨r', hr', hr⟩ => ⟨r', mem_cons_of_mem r hr', hr⟩

end

namespace Codegen

section

variable {cs : CodeSetting} {ds : List Defn} {m m' : LabelMap}

theorem DefnsPlaced.names (globals : Assoc String LabelId) (h : DefnsPlaced cs ds ls ls' ps) :
    Labels.Names globals [] ps ls.size ls' := by
  refine ⟨h.seats, by simp, fun id hle hlt => .inl ?_⟩
  induction h with
  | nil => exact (Nat.not_lt_of_le hle hlt).elim
  | cons _ _ _ ih =>
    obtain rfl | hgt := Nat.eq_or_lt_of_le hle
    · exact ⟨_, mem_cons_self, rfl⟩
    · obtain ⟨q, hq, hid⟩ := ih (by rwa [Array.size_push]) hlt
      exact ⟨q, mem_cons_of_mem _ hq, hid⟩

section

variable (h : RoutinesPlaced symbols rs ls m ls' m' ps)
include h

/-- Names that no routine has keep their labels. -/
theorem RoutinesPlaced.globals (hname : ∀ r ∈ rs, r.name ≠ name) : m'.globals.get? name = m.globals.get? name := by
  induction h with
  | nil => rfl
  | cons _ _ ih =>
    obtain ⟨hne, hrs⟩ := forall_mem_cons.1 hname
    rw [ih hrs, Assoc.get?_set, if_neg hne]

theorem RoutinesPlaced.names (hnodup : (rs.map (·.name)).Nodup) : Labels.Names m'.globals rs ps ls.size ls' := by
  induction h with
  | nil => exact ⟨⟨by simp, by simp⟩, by simp, fun id hle hlt => (Nat.not_lt_of_le hle hlt).elim⟩
  | @cons r rs ls ls1 ls' m m' ps ps' hdefns hrest ih =>
    obtain ⟨hnotin, hrs⟩ := nodup_cons.1 hnodup
    obtain ⟨hgrows, hsize, hentry⟩ := (hdefns.grows.trans hrest.grows).of_push
    -- the label of the routine stands under its name, which no later routine has
    have hglobal : m'.globals.get? r.name = some ls.size := by
      rw [hrest.globals fun r' hr' heq => hnotin (mem_map.2 ⟨r', hr', heq⟩), Assoc.get?_set, if_pos rfl]
    have hboth := (hdefns.names m'.globals).append (ih hrs) hdefns.grows.size hrest.grows
    rw [Array.size_push] at hboth
    exact hboth.cons hsize hglobal hentry

theorem RoutinesPlaced.defns : ps.map (·.defn) = rs.flatMap (·.locals) := by
  induction h with
  | nil => rfl
  | cons hdefns _ ih => rw [map_append, hdefns.defns, ih, flatMap_cons]

/-- Where routines have no locals of some kind of name, they have no local labels of that kind. -/
theorem RoutinesPlaced.unnamed {P : String → String → Prop}
    (hm : ∀ q ids, m.locals.get? q = some ids → ∀ name, P q name → ids.get? name = none)
    (hnot : ∀ r ∈ rs, ∀ d ∈ r.locals, ¬ P r.name d.name) :
    ∀ q ids, m'.locals.get? q = some ids → ∀ name, P q name → ids.get? name = none := by
  induction h with
  | nil => exact hm
  | cons hdefns _ ih =>
    obtain ⟨hr, hrs⟩ := forall_mem_cons.1 hnot
    refine ih (fun q ids hids name hP => ?_) hrs
    rw [Assoc.get?_set] at hids
    split at hids
    case isTrue heq =>
      cases hids
      rw [Option.eq_none_iff_forall_ne_some]
      intro id hid
      obtain ⟨p, hp, -, rfl⟩ := mem_labelsOf hid
      exact hr p.defn (hdefns.defns ▸ mem_map_of_mem hp) (heq ▸ hP)
    case isFalse => exact hm q ids hids name hP

end

end

end Codegen

/-- The routines have different names, and a routine without a body has an address. -/
structure Program.WellNamed (p : Program) : Prop where
  nodup : (p.routines.map (·.name)).Nodup
  given : ∀ r ∈ p.routines, r.body = none → r.addr.isSome = true

section

variable {p : Program} {e e' : Emitter} {labels : LabelMap}

section

variable (h : p.placed symbols e = .ok (e', labels, ps))
include h

theorem Program.placed_names (hnodup : (p.routines.map (·.name)).Nodup) :
    Labels.Names labels.globals p.routines ps e.labels.size e'.labels := by
  obtain ⟨ls, globals, locals, hglobals, hroutines, rfl, -⟩ := placed_ok h
  exact (hglobals.names labels.globals).append (hroutines.names hnodup) hglobals.grows.size hroutines.grows

/-- The placed definitions are those of the program, the global ones first. -/
theorem Program.placed_defns :
    ps.map (·.defn) = p.defns ++ p.routines.flatMap (·.locals) := by
  obtain ⟨ls, globals, locals, hglobals, hroutines, rfl, -⟩ := placed_ok h
  rw [map_append, hglobals.defns, hroutines.defns]

/-- A routine finds its own label under its name. -/
theorem Program.placed_label (hapart : p.NamesApart)
    {id : LabelId} : CodeSetting.label ⟨symbols, labels, some name⟩ name = .ok id ↔ labels.globals.get? name = some id := by
  obtain ⟨ls, globals, locals, -, hroutines, -⟩ := placed_ok h
  have hown := hroutines.unnamed (P := fun q name => name = q) (fun q ids hids => by cases hids) hapart
  have hnot : (labels.locals.get? name).bind (fun m => m.get? name) = none := by
    rw [Option.bind_eq_none_iff]
    exact fun ids hids => hown name ids hids name rfl
  simp only [CodeSetting.label, Option.bind_some, hnot]
  cases labels.globals.get? name with
  | none => simp
  | some id' => simp

end

/-- Nothing that the program defines has the name. -/
def Program.Spares (p : Program) (name : String) : Prop :=
  (∀ d ∈ p.defns, d.name ≠ name) ∧ ∀ r ∈ p.routines, r.name ≠ name ∧ ∀ d ∈ r.locals, d.name ≠ name

theorem Program.Spares.unlabelled {q : Option String} (hname : p.Spares name)
    (h : p.placed symbols e = .ok (e', labels, ps)) (id : LabelId) : CodeSetting.label ⟨symbols, labels, q⟩ name ≠ .ok id := by
  obtain ⟨ls, globals, locals, hglobals, hroutines, rfl, -⟩ := placed_ok h
  have hlocal := hroutines.unnamed (P := fun _ n => n = name) (fun q ids hids => by cases hids)
    fun r hr d hd => (hname.2 r hr).2 d hd
  have hglobal : labels.globals.get? name = none := by
    rw [hroutines.globals fun r hr => (hname.2 r hr).1, Option.eq_none_iff_forall_ne_some]
    intro id hid
    obtain ⟨d, hd, -, hdname⟩ := mem_labelsOf hid
    exact hname.1 d.defn (hglobals.defns ▸ mem_map_of_mem hd) hdname
  have hnone : (q.bind fun r => (labels.locals.get? r).bind fun m => m.get? name) = none := by
    simp only [Option.bind_eq_none_iff]
    exact fun r _ ids hids => hlocal r ids hids name rfl
  simp [CodeSetting.label, hnone, hglobal]

end

end CheckedAsm
