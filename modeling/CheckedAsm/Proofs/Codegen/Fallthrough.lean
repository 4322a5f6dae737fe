import CheckedAsm.Proofs.Codegen.Abreast
import CheckedAsm.Proofs.Roster.Order
/-! # Running into the next routine

A routine that ends with a jump to the one that comes next in its chain does without the jump. The layout is then the
one in which every routine stands by itself, less those jumps: where a jump was, the first instruction of its target
stands, and every label stands where it stood among the instructions. That needs a jump that is the routine's own last
instruction, with no label after it, and a routine with code to come next. -/

namespace CheckedAsm

open Codegen Emitter List Program

variable {labels : LabelMap} {c : Int} {done : List String} {ms us vs : Marks} {i : Item} {name : String} {symbols : Symbols}
  {p : Program} {next owed : Option String} {st st' st1 : CodeState}

/-! ### Jumps that were taken back -/

namespace Marks

variable {ls ls' : Labels} {xs ws : Marks}

theorem split_append (hws : ∀ x ∈ ws, x.2 = true) (h : ms ++ ws = us ++ (i, false) :: vs) :
    ∃ ys, ms = us ++ (i, false) :: ys ∧ vs = ys ++ ws := by
  have hnot : (i, false) ∉ ws := fun hmem => by cases hws _ hmem
  obtain ⟨ys, hms, hvs⟩ | ⟨ys, hus, hws⟩ := append_eq_append_iff.1 h.symm
  · cases ys with
    | nil => exact (hnot (by rw [nil_append] at hvs; rw [← hvs]; exact mem_cons_self)).elim
    | cons y ys =>
      cases hvs
      exact ⟨ys, hms, rfl⟩
  · exact (hnot (by rw [hws]; simp)).elim

/-- What was taken back is a jump to a routine that has been added since: its label stands where the jump was, and
code follows. -/
def Standing (labels : LabelMap) (c : Int) (ls ls' : Labels) (done : List String) (ms : Marks) : Prop :=
  ∀ us i vs, ms = us ++ (i, false) :: vs → ∃ name ∈ done, ∃ id a a', i = .code .jmp (.wide id)
    ∧ labels.globals.get? name = some id ∧ (ls.entry id).addr = some a ∧ (ls'.entry id).addr = some a'
    ∧ Ends c (us ++ [(i, false)]) a a' ∧ ∀ x ∈ vs, ∃ k : Code, x.1 = k.item

namespace Standing

theorem append (h : ms.Standing labels c ls ls' done) (ks : List Code) : (ms ++ ofCodes ks).Standing labels c ls ls' done := by
  intro us i vs hsplit
  obtain ⟨ys, rfl, rfl⟩ := split_append (by simp [ofCodes, ofItems]) hsplit
  obtain ⟨name, hname, id, a, a', hi, hid, ha, ha', hends, hcodes⟩ := h us i ys rfl
  refine ⟨name, hname, id, a, a', hi, hid, ha, ha', hends, fun x hx => ?_⟩
  obtain hx | hx := mem_append.1 hx
  · exact hcodes x hx
  · simp only [ofCodes, ofItems, map_map, mem_map] at hx
    obtain ⟨k, -, rfl⟩ := hx
    exact ⟨k, rfl⟩

theorem of_append (h : (ms ++ ws).Standing labels c ls ls' done) : ms.Standing labels c ls ls' done := by
  intro us i vs hsplit
  obtain ⟨name, hname, id, a, a', hi, hid, ha, ha', hends, hcodes⟩ := h us i (vs ++ ws) (by simp [hsplit])
  exact ⟨name, hname, id, a, a', hi, hid, ha, ha', hends, fun x hx => hcodes x (mem_append_left _ hx)⟩

/-- The label of a jump that was taken back comes to stand there. -/
theorem snoc {id : LabelId} {a a' : Int} (h : xs.Standing labels c ls ls' done) (hname : name ∈ done)
    (hid : labels.globals.get? name = some id) (ha : (ls.entry id).addr = some a) (ha' : (ls'.entry id).addr = some a')
    (hends : Ends c (xs ++ [(.code .jmp (.wide id), false)]) a a') :
    Standing labels c ls ls' done (xs ++ [(.code .jmp (.wide id), false)]) := by
  intro us i vs hsplit
  obtain rfl | ⟨vs, v, rfl⟩ := eq_nil_or_concat vs
  · obtain ⟨rfl, hi⟩ := append_inj' hsplit rfl
    cases hi
    exact ⟨name, hname, id, a, a', rfl, hid, ha, ha', hends, by simp⟩
  · rw [concat_eq_append, ← cons_append, ← append_assoc] at hsplit
    obtain ⟨rfl, hv⟩ := append_inj' hsplit rfl
    cases hv
    obtain ⟨name, hname, id', a, a', hi, hid, ha, ha', hends, hcodes⟩ := h us i vs rfl
    refine ⟨name, hname, id', a, a', hi, hid, ha, ha', hends, fun x hx => ?_⟩
    rw [concat_eq_append] at hx
    obtain hx | hx := mem_append.1 hx
    · exact hcodes x hx
    · exact ⟨⟨.jmp, .wide id⟩, by rw [mem_singleton.1 hx]; rfl⟩

/-- Labels of routines that were added before stay where they are. -/
theorem mono {ls1 ls1' : Labels} {done' : List String} (h : ms.Standing labels c ls ls' done) (hdone : done ⊆ done')
    (hkept : ∀ name ∈ done, ∀ id, labels.globals.get? name = some id →
      ls1.entry id = ls.entry id ∧ ls1'.entry id = ls'.entry id) : ms.Standing labels c ls1 ls1' done' := by
  intro us i vs hsplit
  obtain ⟨name, hname, id, a, a', hi, hid, ha, ha', hrest⟩ := h us i vs hsplit
  obtain ⟨hl, hl'⟩ := hkept name hname id hid
  exact ⟨name, hdone hname, id, a, a', hi, hid, by rw [hl, ha], by rw [hl', ha'], hrest⟩

end Standing

/-- Either nothing was taken back just now, or a jump to the given routine was, which is still to come. -/
def Settled (labels : LabelMap) (c : Int) (ls ls' : Labels) (done : List String) (ms : Marks) : Option String → Prop
  | none => (∀ x, ms.getLast? = some x → x.2 = true) ∧ ms.Standing labels c ls ls' done
  | some name => ∃ (xs : Marks) (id : LabelId), ms = xs ++ [(.code .jmp (.wide id), false)]
    ∧ labels.globals.get? name = some id ∧ xs.Standing labels c ls ls' done

end Marks

/-- The two layouts after some routines. -/
structure CodeState.InStep (labels : LabelMap) (c : Int) (given : Labels) (done : List String) (owed : Option String)
    (ms : Marks) (st st' : CodeState) : Prop where
  abreast : st.Abreast c given ms st'
  settled : ms.Settled labels c st.emitter.labels st'.emitter.labels done owed

section

variable {given : Labels} {r : Routine} {body : Block} {names : Set String}

/-- Adding a routine with a body keeps the two layouts in step. -/
theorem Codegen.routine_inStep {HasCode : String → Prop} (htells : labels.Tells symbols given names)
    (hname : r.name ∈ names) (hnew : r.name ∉ done) (hbody : r.body = some body)
    (haddresses : body.Addresses ⟨symbols, labels, some r.name⟩ given.storage)
    (hstep : st.InStep labels c given done owed ms st')
    (howed : ∀ name, owed = some name → name = r.name ∧ body.tail ≠ .nothing)
    (hjoins : ∀ own st1 id, CodeSetting.label ⟨symbols, labels, some r.name⟩ r.name = .ok own →
      body.compile ⟨symbols, labels, some r.name⟩ (st.resolve own) = .ok st1 → TakesBack next st1.emitter id →
      body.tail = .jump ∧ ∃ name, next = some name ∧ labels.globals.get? name = some id ∧ HasCode name)
    (h : routine symbols labels st r next = .ok st1) :
    ∃ st1' ms' owed', routine symbols labels st' r none = .ok st1'
      ∧ st1.InStep labels c given (r.name :: done) owed' ms' st1'
      ∧ ∀ name, owed' = some name → next = some name ∧ HasCode name := by
  obtain ⟨own, st2, e, hown, hc, hf, rfl⟩ := routine_code hbody h
  obtain ⟨hglobal, hnone⟩ := htells.label_own hname hown
  have hstorage : own ∉ given.storage := by
    rintro ⟨-, hsome⟩
    rw [hnone] at hsome
    cases hsome
  have hpaired := hstep.abreast.emitter.labels
  have hlt : ∀ name id, labels.globals.get? name = some id → id < st.emitter.labels.size :=
    fun name id hid => (htells.below.globals name id hid).trans_le hpaired.given_le
  obtain ⟨st2', ks, hc', habreast, hspans, hadds', hfits, hjump⟩ :=
    body.compile_abreast (hstep.abreast.resolve hstorage) haddresses hc
  have hsize : (st.resolve own).emitter.labels.size = st.emitter.labels.size := size_resolve
  have hsize' : (st'.resolve own).emitter.labels.size = st.emitter.labels.size := size_resolve.trans hpaired.size
  -- the code leaves all labels of names alone
  have hkept : ∀ name id, labels.globals.get? name = some id →
      st2.emitter.labels.entry id = (st.resolve own).emitter.labels.entry id
        ∧ st2'.emitter.labels.entry id = (st'.resolve own).emitter.labels.entry id := fun name id hid =>
    ⟨hspans.adds.kept id (hsize ▸ hlt name id hid), hadds'.kept id (hsize' ▸ hlt name id hid)⟩
  have hothers : ∀ name ∈ done, ∀ id, labels.globals.get? name = some id →
      st2.emitter.labels.entry id = st.emitter.labels.entry id
        ∧ st2'.emitter.labels.entry id = st'.emitter.labels.entry id := by
    intro name hmem id hid
    have hne : own ≠ id := by
      rintro rfl
      have hsame := htells.named name own hid
      rw [htells.named r.name own hglobal] at hsame
      exact hnew (hsame ▸ hmem)
    obtain ⟨h1, h2⟩ := hkept name id hid
    exact ⟨h1.trans (entry_resolve_of_ne hne), h2.trans (entry_resolve_of_ne hne)⟩
  -- the label of this routine stands where a jump to it was taken back
  have hstanding : ms.Standing labels c st2.emitter.labels st2'.emitter.labels (r.name :: done) := by
    cases owed with
    | none => exact hstep.settled.2.mono (subset_cons_self _ _) hothers
    | some name =>
      obtain ⟨rfl, -⟩ := howed name rfl
      obtain ⟨xs, id, rfl, hid, hxs⟩ := hstep.settled
      obtain rfl : id = own := Option.some.inj (hid.symm.trans hglobal)
      obtain ⟨h1, h2⟩ := hkept r.name id hid
      refine (hxs.mono (subset_cons_self _ _) hothers).snoc mem_cons_self hid ?_ ?_ hstep.abreast.emitter.ends
      · rw [h1]
        exact entry_resolve (hlt r.name id hid)
      · rw [h2]
        exact entry_resolve (hpaired.size ▸ hlt r.name id hid)
  have hall := hstanding.append ks
  have hlast : ∀ x, (ms ++ Marks.ofCodes ks).getLast? = some x → x.2 = true := by
    obtain rfl | ⟨ys, k, rfl⟩ := eq_nil_or_concat ks
    · cases owed with
      | none =>
        intro x hx
        rw [Marks.ofCodes, map_nil, Marks.ofItems, map_nil, append_nil] at hx
        exact hstep.settled.1 x hx
      | some name => exact ((howed name rfl).2 hfits.eq_nothing).elim
    · intro x hx
      rw [concat_eq_append, Marks.ofCodes_append, ← append_assoc] at hx
      cases getLast?_concat.symm.trans hx
      rfl
  obtain ⟨e', hf', hl, hl', hend⟩ := finish_abreast habreast.emitter hlast hf
  have hroutine : routine symbols labels st' r none = .ok (st2'.withEmitter e') := by
    simp only [routine, hbody, hown, hc', hf', bind, Except.bind, pure, Except.pure]
  obtain ⟨ms', hcloses, h1⟩ | ⟨id, xs, x, htakes, hxs, h1⟩ := hend
  · refine ⟨_, ms', none, hroutine, ⟨habreast.withEmitter h1 hl hl', ?_⟩, by simp⟩
    simp only [CodeState.withEmitter, hl, hl']
    obtain rfl | rfl | ⟨xs, id, heq, rfl⟩ := hcloses
    · refine ⟨fun x hx => ?_, hall.append _⟩
      cases getLast?_concat.symm.trans hx
      rfl
    · exact ⟨hlast, hall⟩
    · refine ⟨fun x hx => ?_, (heq ▸ hall).of_append.append _⟩
      cases getLast?_concat.symm.trans hx
      rfl
  · obtain ⟨htail, name, hnext, hid, hcode⟩ := hjoins own st2 id hown hc htakes
    obtain ⟨ys, k, rfl, hbefore⟩ := hjump htail
    rw [Marks.ofCodes_append, ← append_assoc] at hxs
    obtain ⟨rfl, -⟩ := append_inj' hxs rfl
    refine ⟨_, _, some name, hroutine, ⟨habreast.withEmitter (h1 hbefore) hl hl', ?_⟩, fun n hn => ?_⟩
    · simp only [CodeState.withEmitter, hl, hl']
      rw [Marks.ofCodes_append, ← append_assoc] at hall
      exact ⟨_, id, rfl, hid, hall.of_append⟩
    · cases hn
      exact ⟨hnext, hcode⟩

end

/-! ### All routines -/

/-- The routine of the name has code. -/
def Program.HasCode (p : Program) (name : String) : Prop :=
  ∃ r body, findRoutine p.routines name = .ok r ∧ r.body = some body ∧ body.tail ≠ .nothing

/-- While the program is laid out, a jump or a call of the routine to the given label is taken back, because it bears the
name of what comes next. -/
def Program.Drops (symbols : Symbols) (p : Program) (labels : LabelMap) (rows : List (List String)) (e : Emitter)
    (r : Routine) (next : String) (id : LabelId) : Prop :=
  ∃ st st' body own st1, p.Lays symbols rows e r (some next) st st' ∧ r.body = some body
    ∧ CodeSetting.label ⟨symbols, labels, some r.name⟩ r.name = .ok own
    ∧ body.compile ⟨symbols, labels, some r.name⟩ (st.resolve own) = .ok st1 ∧ TakesBack (some next) st1.emitter id

/-- Whatever is taken back is the last instruction of a routine with no label after it, and its target is the routine that
comes next and has code. -/
def Program.Joins (symbols : Symbols) (p : Program) (labels : LabelMap) (rows : List (List String)) (e : Emitter) : Prop :=
  ∀ r next id, p.Drops symbols labels rows e r next id →
    (∀ body, r.body = some body → body.tail = .jump) ∧ labels.globals.get? next = some id ∧ p.HasCode next

/-- What is known of a program before its routines are added: it was accepted, all names have their labels, and
jumps are taken back only where they may be. -/
structure Program.Prepared (symbols : Symbols) (p : Program) (labels : LabelMap) (rows : List (List String)) (e e1 : Emitter)
    (ps : List Placed) : Prop where
  accepted : ∀ r ∈ p.routines, ∃ facts, (r.analyse symbols).2 = .ok facts
  describes : symbols.Describes p
  placed : p.placed symbols e = .ok (e1, labels, ps)
  tells : labels.Tells symbols e1.labels {name | ∃ r ∈ p.routines, r.name = name}
  joins : p.Joins symbols labels rows e

section

variable {rows : List (List String)} {e e1 e2 : Emitter} {ps : List Placed} {before after : List (String × Option String)}

section

variable (hp : p.Prepared symbols labels rows e e1 ps)
include hp

theorem Program.Prepared.lay_inStep (hsplit : rows.flatMap links = before ++ (name, next) :: after)
    (hbefore : before.foldlM (lay symbols labels p.routines) { emitter := e1 } = .ok st) (hnew : name ∉ done)
    (hstep : st.InStep labels c e1.labels done owed ms st') (howed : ∀ n, owed = some n → n = name ∧ p.HasCode n)
    (h : lay symbols labels p.routines st (name, next) = .ok st1) :
    ∃ st1' ms' owed', lay symbols labels p.routines st' (name, none) = .ok st1'
      ∧ st1.InStep labels c e1.labels (name :: done) owed' ms' st1'
      ∧ ∀ n, owed' = some n → next = some n ∧ p.HasCode n := by
  obtain ⟨r, hr, hroutine⟩ := bind_eq_ok.1 h
  obtain ⟨rfl, hmem⟩ := findRoutine_name hr
  cases hbody : r.body with
  | none =>
    obtain rfl : st = st1 := by
      simp only [routine, hbody] at hroutine
      exact Except.ok.inj hroutine
    cases owed with
    | none =>
      refine ⟨st', ms, none, bind_eq_ok.2 ⟨r, hr, by simp only [routine, hbody]⟩, ⟨hstep.abreast, hstep.settled.1, ?_⟩, by simp⟩
      exact hstep.settled.2.mono (subset_cons_self _ _) fun _ _ _ _ => ⟨rfl, rfl⟩
    | some n =>
      obtain ⟨rfl, r', body, hr', hbody', -⟩ := howed n rfl
      cases hr.symm.trans hr'
      cases hbody.symm.trans hbody'
  | some body =>
    obtain ⟨facts, hfacts⟩ := hp.accepted r hmem
    have hcode : ∀ n, owed = some n → n = r.name ∧ body.tail ≠ .nothing := by
      intro n hn
      obtain ⟨rfl, r', body', hr', hbody', htail⟩ := howed n hn
      cases hr.symm.trans hr'
      cases hbody.symm.trans hbody'
      exact ⟨rfl, htail⟩
    have hlast : ∀ own st2 id, CodeSetting.label ⟨symbols, labels, some r.name⟩ r.name = .ok own →
        body.compile ⟨symbols, labels, some r.name⟩ (st.resolve own) = .ok st2 → TakesBack next st2.emitter id →
        body.tail = .jump ∧ ∃ n, next = some n ∧ labels.globals.get? n = some id ∧ p.HasCode n := by
      rintro own st2 id hown hc ⟨htail, rfl⟩
      obtain ⟨hjump, hid, hcode⟩ := hp.joins r _ id ⟨st, st1, body, own, st2,
        ⟨e1, labels, ps, before, after, hp.placed, hsplit, hbefore, hr, hroutine⟩, hbody, hown, hc, htail, rfl⟩
      exact ⟨hjump body hbody, _, rfl, hid, hcode⟩
    obtain ⟨st1', ms', owed', hroutine', hstep', howed'⟩ := routine_inStep hp.tells ⟨r, hmem, rfl⟩ hnew hbody
      (r.addresses_storage hp.describes hp.tells hmem hfacts hbody) hstep hcode hlast hroutine
    exact ⟨st1', ms', owed', bind_eq_ok.2 ⟨r, hr, hroutine'⟩, hstep', howed'⟩

theorem Program.Prepared.row_inStep {row : List String} (hsplit : rows.flatMap links = before ++ (links row ++ after))
    (hbefore : before.foldlM (lay symbols labels p.routines) { emitter := e1 } = .ok st) (hrow : row.Nodup)
    (hnew : ∀ n ∈ row, n ∉ done) (hstep : st.InStep labels c e1.labels done owed ms st')
    (howed : ∀ n, owed = some n → row.head? = some n ∧ p.HasCode n)
    (h : (links row).foldlM (lay symbols labels p.routines) st = .ok st1) :
    ∃ st1' ms', (row.map fun n => (n, none)).foldlM (lay symbols labels p.routines) st' = .ok st1'
      ∧ st1.InStep labels c e1.labels (row.reverse ++ done) none ms' st1' := by
  induction row generalizing before st st' done owed ms with
  | nil =>
    obtain rfl : owed = none := Option.eq_none_iff_forall_ne_some.2 fun n hn => by cases (howed n hn).1
    cases h
    exact ⟨st', ms, rfl, hstep⟩
  | cons name rest ih =>
    rw [links, cons_append] at hsplit
    obtain ⟨st2, hlay, h⟩ := foldlM_cons_ok.1 h
    obtain ⟨hname, hrest⟩ := nodup_cons.1 hrow
    obtain ⟨hnew, hnew'⟩ := forall_mem_cons.1 hnew
    obtain ⟨st2', ms2, owed2, hlay', hstep2, howed2⟩ := hp.lay_inStep hsplit hbefore
      hnew hstep (fun n hn => ⟨(Option.some.inj (howed n hn).1).symm, (howed n hn).2⟩) hlay
    have hlaid : (before ++ [(name, rest.head?)]).foldlM (lay symbols labels p.routines) { emitter := e1 } = .ok st2 :=
      foldlM_append_ok.2 ⟨st, hbefore, foldlM_cons_ok.2 ⟨st2, hlay, rfl⟩⟩
    have hfresh : ∀ n ∈ rest, n ∉ name :: done := by
      intro n hn hmem
      obtain rfl | hmem := mem_cons.1 hmem
      · exact hname hn
      · exact hnew' n hn hmem
    obtain ⟨st1', ms', hrest', hstep'⟩ := ih (by rw [hsplit]; simp) hlaid hrest hfresh hstep2 howed2 h
    refine ⟨st1', ms', foldlM_cons_ok.2 ⟨st2', hlay', hrest'⟩, ?_⟩
    rw [reverse_cons, append_assoc]
    exact hstep'

/-- All routines keep the two layouts in step, in the one with the chains of the roster, in the other each by itself. -/
theorem Program.Prepared.rows_inStep {rest : List (List String)}
    (hsplit : rows.flatMap links = before ++ rest.flatMap links)
    (hbefore : before.foldlM (lay symbols labels p.routines) { emitter := e1 } = .ok st) (hrest : rest.flatten.Nodup)
    (hnew : ∀ n ∈ rest.flatten, n ∉ done) (hstep : st.InStep labels c e1.labels done none ms st')
    (h : (rest.flatMap links).foldlM (lay symbols labels p.routines) st = .ok st1) :
    ∃ st1' ms', (rest.flatten.map fun n => (n, none)).foldlM (lay symbols labels p.routines) st' = .ok st1'
      ∧ st1.InStep labels c e1.labels (rest.flatten.reverse ++ done) none ms' st1' := by
  induction rest generalizing before st st' done ms with
  | nil =>
    cases h
    exact ⟨st', ms, rfl, hstep⟩
  | cons row rest ih =>
    rw [flatMap_cons] at h hsplit
    rw [flatten_cons] at hrest hnew
    obtain ⟨st2, hlay, h⟩ := foldlM_append_ok.1 h
    obtain ⟨hrow, hrest, hdisjoint⟩ := nodup_append.1 hrest
    obtain ⟨st2', ms2, hlay', hstep2⟩ := hp.row_inStep hsplit hbefore hrow
      (fun n hn => hnew n (mem_append_left _ hn)) hstep (by simp) hlay
    have hfresh : ∀ n ∈ rest.flatten, n ∉ row.reverse ++ done := by
      intro n hn hmem
      obtain hmem | hmem := mem_append.1 hmem
      · exact hdisjoint n (mem_reverse.1 hmem) n hn rfl
      · exact hnew n (mem_append_right _ hn) hmem
    obtain ⟨st1', ms', hrest', hstep'⟩ := ih (by rw [hsplit, append_assoc]) (foldlM_append_ok.2 ⟨st, hbefore, hlay⟩) hrest
      hfresh hstep2 h
    refine ⟨st1', ms', ?_, ?_⟩
    · rw [flatten_cons, map_append]
      exact foldlM_append_ok.2 ⟨st2', hlay', hrest'⟩
    · rw [flatten_cons, reverse_append, append_assoc]
      exact hstep'

end

/-! ### The layout with every routine by itself -/

/-- Every routine by itself, in the order of a roster. -/
def Codegen.alone (rows : List (List String)) : List (List String) := rows.flatten.map fun name => [name]

theorem Codegen.alone_links (names : List String) (h : (names.map fun n => (n, none)).foldlM (lay symbols labels p.routines) st = .ok st1) :
    (names.map fun n => [n]).foldlM (fun st row => chain symbols labels p.routines row st) st = .ok st1 := by
  induction names generalizing st with
  | nil => exact h
  | cons name names ih =>
    obtain ⟨st2, hlay, h⟩ := foldlM_cons_ok.1 h
    obtain ⟨r, hr, hroutine⟩ := bind_eq_ok.1 hlay
    refine foldlM_cons_ok.2 ⟨st2, ?_, ih h⟩
    simp only [chain, hr, hroutine, bind, Except.bind, pure, Except.pure]

theorem Program.layOut_of_stages (hplaced : p.placed symbols e = .ok (e1, labels, ps))
    (hst : rows.foldlM (fun st row => chain symbols labels p.routines row st) { emitter := e1 } = .ok st)
    (hconclude : conclude symbols labels ps st = .ok e2) : p.layOut symbols (some rows) e = .ok ⟨e2, labels⟩ := by
  simp only [placed, bind_eq_ok, pure_eq_ok] at hplaced
  obtain ⟨⟨e0, globals⟩, hglobals, ⟨e1', labels', locals⟩, hlocals, heq⟩ := hplaced
  cases heq
  simp only [conclude, bind_eq_ok] at hconclude
  obtain ⟨e3, htr, e4, hin, hre⟩ := hconclude
  simp only [layOut, bind_eq_ok, pure_eq_ok]
  exact ⟨_, hglobals, _, hlocals, st, hst, e3, htr, e4, hin, e2, hre, rfl⟩

theorem Codegen.lay_names {xs : List (String × Option String)} {routines : List Routine}
    (h : xs.foldlM (lay symbols labels routines) st = .ok st1) : ∀ x ∈ xs, ∃ r ∈ routines, r.name = x.1 := by
  induction xs generalizing st with
  | nil => simp
  | cons x xs ih =>
    obtain ⟨st2, hlay, h⟩ := foldlM_cons_ok.1 h
    obtain ⟨r, hr, -⟩ := bind_eq_ok.1 hlay
    obtain ⟨hname, hmem⟩ := findRoutine_name hr
    exact forall_mem_cons.2 ⟨⟨r, hmem, hname⟩, ih h⟩

/-- Giving labels adds no items. -/
theorem Program.placed_items (h : p.placed symbols e = .ok (e1, labels, ps)) : e1.items = e.items ∧ e1.addr = e.addr := by
  rw [placed_emitter h]
  exact ⟨rfl, rfl⟩

/-- Code follows what was taken back. -/
theorem Marks.kept_code (hlast : ∀ x, (us ++ (i, false) :: vs).getLast? = some x → x.2 = true)
    (hcodes : ∀ x ∈ vs, ∃ k : Code, x.1 = k.item) : ∃ (k : Code) (rest : List Item), Marks.kept vs = k.item :: rest := by
  obtain rfl | ⟨vs, ⟨j, b⟩, rfl⟩ := eq_nil_or_concat vs
  · cases hlast _ getLast?_concat
  · rw [concat_eq_append] at hlast hcodes ⊢
    obtain rfl : b = true := hlast (j, b) (by rw [← cons_append, ← append_assoc, getLast?_concat])
    cases hkept : kept (vs ++ [(j, true)]) with
    | nil => simp [kept] at hkept
    | cons x rest =>
      have hx : x ∈ kept (vs ++ [(j, true)]) := by rw [hkept]; exact mem_cons_self
      obtain ⟨y, hy, rfl⟩ := mem_map.1 hx
      obtain ⟨k, hk⟩ := hcodes y (mem_of_mem_filter hy)
      exact ⟨k, rest, by rw [hk]⟩

end

/-- An accepted program is laid out with jumps taken back as it is with every routine by itself, less those jumps: the target
of each stands where it was, with its code, and all labels stand at the same places. -/
theorem Program.fallthrough_keeps_code {symbols : Symbols} {p : Program} {all : List Analysed} {rows : List (List String)}
    {e : Emitter} {L : Layout} (haccepted : (p.analyse symbols).2 = .ok all)
    (hroster : (Fallthrough.ofRoutines symbols all).roster = .ok rows) (hL : p.layOut symbols (some rows) e = .ok L)
    (hdescribes : symbols.Describes p) (hapart : p.NamesApart) (hjoins : p.Joins symbols L.labels rows e) :
    ∃ L' e₁ ps ms, p.layOut symbols (some (alone rows)) e = .ok L' ∧ L'.labels = L.labels
      ∧ p.placed symbols e = .ok (e₁, L.labels, ps)
      ∧ L.emitter.Beside (e.addr - Item.rooms e.items.toList) e₁.labels ms L'.emitter
      ∧ ∀ us i vs, ms = us ++ (i, false) :: vs → ∃ (id : LabelId) (a a' : Int) (k : Code) (rest : List Item),
        i = .code .jmp (.wide id) ∧ (L.emitter.labels.entry id).addr = some a
          ∧ (L'.emitter.labels.entry id).addr = some a'
          ∧ Marks.Ends (e.addr - Item.rooms e.items.toList) (us ++ [(i, false)]) a a' ∧ Marks.kept vs = k.item :: rest := by
  obtain ⟨e₁, ps, st, hplaced, hlinks, hconclude⟩ := layOut_stages hL
  obtain ⟨hlengths, htells⟩ := placed_tells hplaced hdescribes hapart
  obtain ⟨hbelow, hps⟩ := placed_labels hplaced
  obtain ⟨hitems, haddr⟩ := placed_items hplaced
  have hp : p.Prepared symbols L.labels rows e e₁ ps :=
    ⟨fun r hr => analyse_ok haccepted hr, hdescribes, hplaced, htells, hjoins⟩
  have hnodup := Fallthrough.roster_nodup hroster
  -- before any routine is added, the two layouts are the same
  have hstart : CodeState.InStep L.labels (e.addr - Item.rooms e.items.toList) e₁.labels [] none (.ofItems e.items.toList)
      { emitter := e₁ } { emitter := e₁ } := by
    refine ⟨⟨⟨?_, ?_, ⟨?_, ?_⟩, rfl, ⟨le_rfl, rfl, fun _ => rfl, fun _ => rfl, fun _ => .inl ⟨rfl, rfl⟩⟩⟩, rfl, rfl,
      fun _ _ => ⟨rfl, rfl⟩⟩, fun x hx => ?_, fun us i vs hsplit => ?_⟩
    · rw [Marks.kept_ofItems, ← hitems]
    · rw [Marks.all_ofItems, ← hitems]
    · rw [Marks.kept_ofItems, haddr, Int.sub_add_cancel]
    · rw [Marks.all_ofItems, haddr, Int.sub_add_cancel]
    · obtain ⟨i, -, rfl⟩ := mem_map.1 (mem_of_getLast? hx)
      rfl
    · obtain ⟨ys, hnil, -⟩ := @Marks.split_append [] us vs i _ (by simp) hsplit
      simp at hnil
  rw [Option.getD_some] at hlinks
  have hfirst : rows.flatMap links = [] ++ rows.flatMap links := rfl
  obtain ⟨st', ms, hlinks', hstep⟩ := hp.rows_inStep hfirst rfl hnodup (by simp) hstart hlinks
  obtain ⟨e₂, is, hconclude', hbeside⟩ := conclude_beside hstep.abreast hconclude
  obtain ⟨hlast, hstanding⟩ := hstep.settled
  refine ⟨⟨e₂, L.labels⟩, e₁, ps, _, layOut_of_stages hplaced (alone_links _ hlinks') hconclude', rfl, hplaced, hbeside,
    fun us i vs hsplit => ?_⟩
  obtain ⟨ys, rfl, rfl⟩ := Marks.split_append (by simp [Marks.ofItems]) hsplit
  obtain ⟨name, hname, id, a, a', hi, hid, ha, ha', hends, hcodes⟩ := hstanding us i ys rfl
  obtain ⟨k, rest, hkept⟩ := Marks.kept_code hlast hcodes
  -- the label of a routine is neither that of a trampoline nor one of storage
  have hnone : CodeState.Awaits e₁.labels.size { emitter := e₁ } := ⟨le_rfl, fun v id hv => by cases hv⟩
  obtain ⟨-, hawaits⟩ := lay_settles hbelow hnone hlinks
  have htr : ∀ v, (v, id) ∉ st.trampolines.entries := fun v hv =>
    Nat.not_lt.2 (hawaits.trampolines v id hv).1 (hbelow.globals name id hid)
  have hroutine : ∃ r ∈ p.routines, r.name = name := by
    rw [append_nil, mem_reverse] at hname
    exact lay_names hlinks' (name, none) (mem_map_of_mem hname)
  have hstorage : ∀ q ∈ ps, q.label ≠ id := by
    rintro q hq rfl
    obtain ⟨id, hid', hlength⟩ := htells.routine name hroutine
    cases hid.symm.trans hid'
    have hsome := hlengths q hq
    rw [hlength] at hsome
    cases hsome
  refine ⟨id, a, a', k, rest ++ is, hi, ?_, ?_, hends, ?_⟩
  · rw [conclude_kept htr hstorage hconclude, ha]
  · rw [conclude_kept (hstep.abreast.trampolines ▸ htr) hstorage hconclude', ha']
  · rw [Marks.kept_append, hkept, Marks.kept_ofItems, cons_append]

/-! ### A jump after a choice, and a jump in a choice -/

/-- A choice, and then a jump. -/
def choiceThenJump : Block := .cons (.ifThen 0 .c false setA) (.cons (.goto 0 "foo") (.nil 0))

/-- A jump in a choice. -/
def jumpInChoice : Block := .cons (.ifThen 0 .c false (.cons (.goto 0 "foo") (.nil 0))) (.nil 0)

theorem spoiling_describes (body : Block) : spoilingSymbols.Describes (spoilingProgram body) where
  registers := by
    rintro ⟨symbols, q, line⟩ rfl r hr
    simp only [Ref.isRegister, decide_eq_true_eq] at hr
    obtain rfl | rfl | rfl := hr <;> rfl
  routines := by simp [spoilingProgram, spoilingSymbols, Symbols.globalType?, Symbols.declare]
  locals r _ name ty hty := by cases hty
  words := by simp [spoilingProgram]

theorem spoiling_apart (body : Block) : (spoilingProgram body).NamesApart := by
  simp [Program.NamesApart, spoilingProgram]

/-- The jump of the main routine is its last instruction, and no label stands after it. -/
theorem choiceThenJump_joins : (spoilingProgram choiceThenJump).Joins spoilingSymbols
    ⟨⟨[("foo", 0), ("main", 1)]⟩, ⟨[("foo", ⟨[]⟩), ("main", ⟨[]⟩)]⟩⟩ [["main", "foo"]] (.startingAt 0) := by
  rintro r next id ⟨st, st', body, own, st1, ⟨e1, labels, ps, before, after, hplaced, hsplit, hbefore, hr, -⟩, hbody, hown, hc, htakes⟩
  cases before with
  | nil =>
    obtain ⟨hlink, -⟩ := List.cons.inj hsplit
    obtain ⟨hname, hnext⟩ := Prod.mk.inj hlink
    cases hnext
    rw [← hname] at hr hown hc
    cases hr
    cases hbody
    cases hplaced
    cases hbefore
    cases hown
    cases hc
    obtain ⟨htail | htail, -⟩ := htakes
    · cases htail
      exact ⟨fun body hbody => by cases hbody; rfl, rfl, _, _, rfl, rfl, by decide⟩
    · cases htail
  | cons x before => cases before <;> simp [links] at hsplit

theorem choiceThenJump_keeps_code : ∃ all rows L L' e₁ ps ms,
    ((spoilingProgram choiceThenJump).analyse spoilingSymbols).2 = .ok all
      ∧ (Fallthrough.ofRoutines spoilingSymbols all).roster = .ok rows ∧ rows = [["main", "foo"]]
      ∧ (spoilingProgram choiceThenJump).layOut spoilingSymbols (some rows) (.startingAt 0) = .ok L
      ∧ (spoilingProgram choiceThenJump).layOut spoilingSymbols (some [["main"], ["foo"]]) (.startingAt 0) = .ok L'
      ∧ (spoilingProgram choiceThenJump).placed spoilingSymbols (.startingAt 0) = .ok (e₁, L.labels, ps)
      ∧ L.emitter.items.size = 4 ∧ L'.emitter.items.size = 5 ∧ L.emitter.Beside 0 e₁.labels ms L'.emitter := by
  obtain ⟨L', e₁, ps, ms, hL', -, hplaced, hbeside, -⟩ := fallthrough_keeps_code (e := .startingAt 0) rfl rfl rfl
    (spoiling_describes choiceThenJump) (spoiling_apart choiceThenJump) choiceThenJump_joins
  exact ⟨_, _, _, L', e₁, ps, ms, rfl, rfl, rfl, rfl, hL', hplaced, rfl, by cases hL'; rfl, hbeside⟩

/-- A jump in a choice at the end is taken back although a label stands after it: the label, which stood at the first
instruction of what comes next, is then in the middle of that routine or past it. -/
theorem jumpInChoice_loses_place : ∃ all rows L L',
    ((spoilingProgram jumpInChoice).analyse spoilingSymbols).2 = .ok all
      ∧ (Fallthrough.ofRoutines spoilingSymbols all).roster = .ok rows
      ∧ (spoilingProgram jumpInChoice).layOut spoilingSymbols (some rows) (.startingAt 0) = .ok L
      ∧ (spoilingProgram jumpInChoice).layOut spoilingSymbols (some (alone rows)) (.startingAt 0) = .ok L'
      ∧ L.emitter.items.toList.head? = some (.code .bcc (.relative 2))
      ∧ L.emitter.labels.place 2 = 5 ∧ L'.emitter.labels.place 2 = 5
      ∧ fetchFrom 0 L'.emitter.items.toList 5 = some (.code .lda (.immediate (.byte 1)))
      ∧ fetchFrom 0 L.emitter.items.toList 5 = none :=
  ⟨_, _, _, _, rfl, rfl, rfl, rfl, rfl, rfl, rfl, rfl, rfl⟩

end CheckedAsm
