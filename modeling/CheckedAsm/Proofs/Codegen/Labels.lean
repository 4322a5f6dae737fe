import CheckedAsm.Proofs.Codegen.Course
import CheckedAsm.Proofs.Codegen.Flow
/-! # Labels stand exactly

In a program whose routines have no local location of their own name every label gets an address. A label of code is
as far from the start as the items before it have bytes, and `main` comes right after what the format begins with. -/

namespace CheckedAsm

open Codegen Emitter List Program

section

variable {symbols : Symbols} {p : Program} {e : Emitter} {L : Layout} {r : Routine} {id : LabelId}

/-- `main` stands before everything else. -/
theorem Program.main_first (h : p.layOut symbols none e = .ok L) (hnodup : (p.routines.map (·.name)).Nodup)
    (hapart : p.NamesApart) (hr : r ∈ p.routines) (hname : r.name = "main") (hbody : r.body.isSome = true)
    (hget : L.labels.globals.get? "main" = some id) : (L.emitter.labels.entry id).addr = some e.addr := by
  obtain ⟨e1, ps, st, hplaced, hlinks, hconclude⟩ := layOut_stages h
  obtain ⟨hbelow, -⟩ := placed_labels hplaced
  have hnames := placed_names hplaced hnodup
  have hlt : id < e1.labels.size := hbelow.globals _ _ hget
  obtain ⟨body, hbody⟩ := Option.isSome_iff_exists.1 hbody
  have hawaits : CodeState.Awaits e1.labels.size { emitter := e1 } := ⟨le_rfl, fun v id hv => by cases hv⟩
  obtain ⟨-, hst⟩ := lay_settles hbelow hawaits hlinks
  -- the name that a label belongs to can be read off the table
  have howner : ∀ r' ∈ p.routines, L.labels.globals.get? r'.name = some id →
      e1.labels.entry id = ⟨r'.name, r'.addr, none⟩ := by
    intro r' hr' hget'
    obtain ⟨id', -, -, hid', hentry⟩ := hnames.routine r' hr'
    rw [hget'] at hid'
    cases hid'
    exact hentry
  have hmain := howner r hr (hname ▸ hget)
  rw [Option.getD_none, defaultRoster_links, foldlM_cons_ok] at hlinks
  obtain ⟨st1, hlay, hrest⟩ := hlinks
  obtain ⟨r', hr', hroutine⟩ := bind_eq_ok.1 hlay
  have hfind : findRoutine p.routines "main" = .ok r := hname ▸ findRoutine_of_mem hnodup hr
  cases hfind.symm.trans hr'
  have hlabel : CodeSetting.label ⟨symbols, L.labels, some r.name⟩ r.name = .ok id :=
    (placed_label hplaced hapart).2 (hname ▸ hget)
  obtain ⟨as, hcomes, hnot⟩ := routine_comes hbody hroutine hlabel hlt
  obtain ⟨as', hothers⟩ := lays_comes hbelow hcomes.size hrest
  have hfirst : (st1.emitter.labels.entry id).addr = some e1.addr := by
    have hgets : e1.Gets (.resolve id :: as) id [] := ⟨.resolve id, as, rfl, ⟨rfl, hlt⟩, hnot⟩
    have haddr := hgets.addr
    rwa [show e1.acts (.resolve id :: as) = st1.emitter from hcomes.run] at haddr
  have hlt1 : id < st1.emitter.labels.size := hlt.trans_le hcomes.size
  have hnot' : .resolve id ∉ as' := by
    intro hmem
    obtain hle | ⟨x, hx, ⟨r', id', hr', -, hlabel', heq⟩ | hend⟩ := hothers.inner _ hmem
    · exact Nat.not_lt_of_le hle hlt1
    · cases heq
      obtain ⟨hname', hmem'⟩ := findRoutine_name hr'
      have hother := howner r' hmem' ((placed_label hplaced hapart).1 hlabel')
      obtain ⟨q, hq, rfl⟩ := mem_map.1 hx
      have hne : q.name ≠ "main" := by simpa using (mem_filter.1 hq).2
      rw [hmain, hname, hname'] at hother
      exact hne (Label.mk.inj hother).1.symm
    · simp [ending] at hend
  have hkept := addr_acts hlt1 hnot'
  rw [hothers.run, hfirst] at hkept
  have hstorage : ∀ q ∈ ps, q.label ≠ id := by
    intro q hq heq
    obtain ⟨-, n, -, hentry⟩ := (hnames.placed q hq).2
    rw [heq, hmain] at hentry
    cases (Label.mk.inj hentry).2.2
  have hentry : L.emitter.labels.entry id = st.emitter.labels.entry id :=
    conclude_kept (fun v hv => Nat.not_lt_of_le (hst.trampolines v id hv).1 hlt) hstorage hconclude
  rw [hentry, hkept, placed_emitter hplaced]

variable {e1 : Emitter} {ps : List Placed} {st : CodeState} {as tr ds : List Emitter.Action}

theorem Codegen.defaultRoster_alone (rs : List Routine) : ∀ x ∈ (defaultRoster rs).flatMap links, x.2 = none := by
  intro x hx
  rw [defaultRoster_links, mem_cons] at hx
  obtain rfl | hx := hx
  · rfl
  · obtain ⟨r, -, rfl⟩ := mem_map.1 hx
    rfl

theorem Codegen.defaultRoster_all {rs : List Routine} (hr : r ∈ rs) : ∃ next, (r.name, next) ∈ (defaultRoster rs).flatMap links := by
  refine ⟨none, ?_⟩
  rw [defaultRoster_links, mem_cons]
  by_cases hname : r.name = "main"
  · exact .inl (by rw [hname])
  · exact .inr (mem_map.2 ⟨r, by simp [hr, hname], rfl⟩)

/-- Every label gets an address. -/
theorem Program.Course.resolved (h : p.Course symbols (defaultRoster p.routines) e L e1 ps st as tr ds) (hnamed : p.WellNamed)
    (hapart : p.NamesApart) (he : e.labels = #[]) {id : LabelId} (hid : id < L.emitter.labels.size) :
    (L.emitter.labels.entry id).addr.isSome = true := by
  -- a label that has an address before the storage comes keeps one
  have hgot : ∀ before, e1.Gets (as ++ tr) id before → (L.emitter.labels.entry id).addr.isSome = true := by
    intro before hgets
    have hlt : id < (e1.acts (as ++ tr)).labels.size := by
      obtain ⟨a, after, heq, ha, -⟩ := hgets
      rw [heq, acts_append, acts_cons]
      exact ha.addr.1.trans_le (size_acts _ _)
    rw [← h.run, acts_append]
    exact isSome_acts (.inl (by rw [hgets.addr]; rfl)) hlt
  by_cases hlt : id < e1.labels.size
  · have hnames := placed_names h.placed hnamed.nodup
    rw [he] at hnames
    obtain ⟨q, hq, rfl⟩ | ⟨r, hr, hget⟩ := hnames.all id (Nat.zero_le _) hlt
    · rw [← h.run]
      refine isSome_acts ?_ hlt
      by_cases hneeds : q.defn.initial.isSome = true ∨ q.defn.addr = none
      · exact .inr (mem_append_right _ (h.stored q hq hneeds))
      · obtain ⟨n, -, hentry⟩ := (hnames.placed q hq).2.entry
        rw [hentry]
        exact .inl (Option.isSome_iff_ne_none.2 fun hnone => hneeds (.inr hnone))
    · cases hbody : r.body with
      | some body =>
        obtain ⟨before, hgets⟩ := h.gets_routine hnamed.nodup hapart hr (by rw [hbody]; rfl) (defaultRoster_all hr) hget
        exact hgot before hgets
      | none =>
        obtain ⟨id', -, -, hget', hentry⟩ := hnames.routine r hr
        rw [hget] at hget'
        cases hget'
        rw [← h.run]
        exact isSome_acts (.inl (by rw [hentry]; exact hnamed.given r hr hbody)) hlt
  · obtain ⟨before, hgets⟩ := h.gets_inner (Nat.le_of_not_lt hlt) hid
    exact hgot before hgets

end

/-- A program is laid out without a roster, and no routine has a local location of its own name. Then every label that an item
refers to has an address, so that no item fails to become bytes for want of one. The label of every routine with a body, and every
label that was made for a choice, a comparison, a loop or a trampoline, is as far from the start as the items that had been emitted
when it got its address have bytes. `main` stands right after what the format begins with. -/
theorem Program.labels_exact {symbols : Symbols} {p : Program} {f : Format} {start : Int} {L : Layout} (hnamed : p.WellNamed)
    (hapart : p.NamesApart) (h : p.layOut symbols none (f.opened start) = .ok L) :
    (∀ i ∈ L.emitter.items.toList, ∀ id ∈ i.labels, (L.emitter.labels.entry id).addr.isSome = true)
      ∧ (∀ e, f.closed start L.emitter = .ok e → Resolved e.bytes)
      ∧ (∃ e₁ ps as, p.placed symbols (f.opened start) = .ok (e₁, L.labels, ps) ∧ e₁.start = start
        ∧ e₁.acts as = L.emitter
        ∧ (∀ id, e₁.labels.size ≤ id → id < L.emitter.labels.size → e₁.StandsExactly as id)
        ∧ ∀ r ∈ p.routines, r.body.isSome = true →
          ∃ id, L.labels.globals.get? r.name = some id ∧ e₁.StandsExactly as id)
      ∧ ∀ r ∈ p.routines, r.name = "main" → r.body.isSome = true →
        ∃ id, L.labels.globals.get? "main" = some id
          ∧ (L.emitter.labels.entry id).addr = some (start + f.prelude.length) := by
  obtain ⟨e₁, ps, st, as, tr, ds, hcourse⟩ := layOut_course h
  have hemitter := placed_emitter hcourse.placed
  have hnames := placed_names hcourse.placed hnamed.nodup
  have htight : e₁.Tight := placed_tight hcourse.placed (f.opened_tight start)
  have hclosed : L.emitter.Closed := by
    refine hcourse.closed fun i hi id hid => ?_
    rw [hemitter, f.opened_items] at hi
    obtain ⟨b, -, rfl⟩ := mem_map.1 hi
    unfold Item.labels at hid
    cases hid
  have hresolved : ∀ i ∈ L.emitter.items.toList, ∀ id ∈ i.labels, (L.emitter.labels.entry id).addr.isSome = true :=
    fun i hi id hid => hcourse.resolved hnamed hapart (f.opened_labels start) (hclosed i hi id hid)
  have hexactly : ∀ id before, e₁.Gets (as ++ tr) id before → (∀ q ∈ ps, q.label ≠ id) →
      e₁.StandsExactly (as ++ tr ++ ds) id := fun id before hgets hne =>
    hgets.exactly htight hcourse.exact (hcourse.keeps (defaultRoster_alone _)) hcourse.appends (hcourse.untouched hne)
  refine ⟨hresolved, fun e he => ?_, ⟨e₁, ps, as ++ tr ++ ds, hcourse.placed, ?_, hcourse.run, fun id hle hlt => ?_,
    fun r hr hbody => ?_⟩, fun r hr hname hbody => ?_⟩
  · obtain ⟨hlabels, -, js, hitems, hjs⟩ := Format.closed_ok he
    refine bytesFrom_resolved fun i hi id hid => ?_
    rw [hitems] at hi
    rw [hlabels]
    obtain hi | hi := mem_append.1 hi
    · exact hresolved i hi id hid
    · rw [(hjs i hi).2] at hid
      cases hid
  · rw [hemitter]
    exact f.opened_start start
  · obtain ⟨before, hgets⟩ := hcourse.gets_inner hle hlt
    exact hexactly id before hgets fun q hq => Nat.ne_of_lt (Nat.lt_of_lt_of_le (hnames.placed q hq).2.lt hle)
  · obtain ⟨id, -, -, hget, hentry⟩ := hnames.routine r hr
    obtain ⟨before, hgets⟩ := hcourse.gets_routine hnamed.nodup hapart hr hbody (defaultRoster_all hr) hget
    refine ⟨id, hget, hexactly id before hgets fun q hq heq => ?_⟩
    obtain ⟨n, -, hstorage⟩ := (hnames.placed q hq).2.entry
    rw [heq, hentry] at hstorage
    cases (Label.mk.inj hstorage).2.2
  · obtain ⟨id, -, -, hget, -⟩ := hnames.routine r hr
    rw [hname] at hget
    refine ⟨id, hget, ?_⟩
    rw [main_first h hnamed.nodup hapart hr hname hbody hget, f.opened_addr]

theorem choiceThenCall_labels_exact :
    ∃ L, (spoilingProgram choiceThenCall).layOut spoilingSymbols none (Format.c64.opened 0x801) = .ok L
      ∧ (∀ i ∈ L.emitter.items.toList, ∀ id ∈ i.labels, (L.emitter.labels.entry id).addr.isSome = true)
      ∧ ∃ id, L.labels.globals.get? "main" = some id ∧ (L.emitter.labels.entry id).addr = some (0x801 + 12) := by
  have hL : ∃ L, (spoilingProgram choiceThenCall).layOut spoilingSymbols none (Format.c64.opened 0x801) = .ok L := ⟨_, rfl⟩
  obtain ⟨L, hL⟩ := hL
  have hnamed : (spoilingProgram choiceThenCall).WellNamed := ⟨by decide, by simp [spoilingProgram]⟩
  have hapart : (spoilingProgram choiceThenCall).NamesApart := by simp [Program.NamesApart, spoilingProgram]
  obtain ⟨hresolved, -, -, hmain⟩ := labels_exact hnamed hapart hL
  exact ⟨L, hL, hresolved, hmain ⟨0, "main", none, [], some choiceThenCall, false⟩ (by simp [spoilingProgram]) rfl rfl⟩

/-- A routine with a local location of its own name, and a main routine that calls it. -/
def captured : Program :=
  { routines := [⟨0, "foo", none, [⟨0, "foo", none, some (.value 0)⟩], some setA, false⟩,
      ⟨0, "main", none, [], some (.cons (.call 0 "foo") (.nil 0)), false⟩] }

/-- The symbols of the program. -/
def capturedSymbols : Symbols := spoilingSymbols.declareLocal "foo" "foo" ⟨.builtin, .byte⟩

/-- The local location takes the place of the routine's label, which never gets an address. -/
theorem captured_unresolved :
    (captured.analyse capturedSymbols).2.isOk = true
      ∧ ∃ L, captured.layOut capturedSymbols none (Format.raw.opened 0) = .ok L
        ∧ (∃ i ∈ L.emitter.items.toList, ∃ id ∈ i.labels, (L.emitter.labels.entry id).addr = none)
        ∧ L.emitter.bytes = .error (.unresolved "foo") := by
  refine ⟨rfl, _, rfl, ?_, rfl⟩
  have hlabels : (Item.code .jmp (.wide 0)).labels = [0] := by
    unfold Item.labels
    rfl
  exact ⟨.code .jmp (.wide 0), mem_of_mem_head? rfl, 0, hlabels ▸ mem_singleton_self 0, rfl⟩

end CheckedAsm
