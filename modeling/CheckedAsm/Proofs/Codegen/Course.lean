import CheckedAsm.Image
import CheckedAsm.Proofs.Codegen.History
import CheckedAsm.Proofs.Codegen.Mentions
import CheckedAsm.Proofs.Codegen.Names
/-! # The course of a layout

A layout comes about in stages: the names get their labels, the routines are added one after the other, then the
trampolines, then the storage. Every label that was made for code gets its address before the storage comes, at the moment
when exactly the items before it have been emitted. -/

namespace CheckedAsm

open Codegen Emitter List

variable {as : List Emitter.Action} {st st' : CodeState} {id : LabelId} {symbols : Symbols} {labels : LabelMap}
  {routines : List Routine} {next : Option String} {e e' e1 : Emitter} {r : Routine} {n : Nat}
  {xs : List (String × Option String)} {cells is : List Item} {ps : List Placed} {tr : List (String × LabelId)}
  {initial : Initial} {p : Program} {L : Layout}

/-! ### Histories of routines -/

namespace CodeState.Comes

variable {extra extra' : Set Emitter.Action} {as' : List Emitter.Action} {st1 : CodeState}

/-- A label that was there before gets an address. -/
theorem ofResolve (st : CodeState) (id : LabelId) : Comes {.resolve id} ∅ [.resolve id] st (st.resolve id) where
  run := rfl
  inner a ha := .inr (mem_singleton.1 ha)
  done id' hid' := mem_singleton.2 hid'
  pending_lt _ hid := by cases hid
  stands id' hle hlt := by
    have hsize : (st.resolve id).emitter.labels.size = st.emitter.labels.size := size_resolve
    rw [hsize] at hlt
    exact (Nat.not_lt_of_le hle hlt).elim
  kept _ _ h := h

/-- The last items may change. -/
theorem ofActs (hrun : st.emitter.acts as = e) (hlabels : e.labels = st.emitter.labels)
    (has : ∀ a ∈ as, a.Inner st.emitter.labels.size ∨ a ∈ extra) (hextra : ∀ id, .resolve id ∉ extra) :
    Comes extra ∅ as st (st.withEmitter e) where
  run := hrun
  inner := has
  done id hid := (hextra id hid).elim
  pending_lt _ hid := by cases hid
  stands id hle hlt := by
    simp only [withEmitter, hlabels] at hlt
    exact (Nat.not_lt_of_le hle hlt).elim
  kept _ _ h := h

theorem mono (h : Comes extra ∅ as st st') (hsub : extra ⊆ extra') (hdone : ∀ id, .resolve id ∈ extra' → .resolve id ∈ extra) :
    Comes extra' ∅ as st st' :=
  ⟨h.run, fun a ha => (h.inner a ha).imp_right fun hx => hsub hx, fun id hid => h.done id (hdone id hid), h.pending_lt,
    h.stands, h.kept⟩

end CodeState.Comes

namespace Codegen

variable {body : Block}

/-- What ends a routine besides a return: a call becomes a jump, and in a chain a jump may be taken back. -/
def ending (next : Option String) : Set Emitter.Action := {a | a = .redirect ∨ (a = .retract ∧ next ≠ none)}

theorem finish_comes (h : finish next st.emitter = .ok e) : ∃ as, CodeState.Comes (ending next) ∅ as st (st.withEmitter e) := by
  have hlabels := finish_labels h
  have hextra : ∀ id, .resolve id ∉ ending next := by simp [ending]
  obtain ⟨e1, htail, hclose⟩ := bind_eq_ok.1 h
  have hfirst : st.emitter.acts [.redirect] = e1 := act_redirect htail
  have hmem : ∀ a ∈ [Emitter.Action.redirect], a.Inner st.emitter.labels.size ∨ a ∈ ending next := by simp [ending]
  obtain ⟨-, rfl⟩ | ⟨-, -, rfl⟩ | ⟨id, -, hnext, hr⟩ := close_cases hclose
  · refine ⟨[.redirect, .add (.code .rts .implied)], .ofActs ?_ hlabels (fun a ha => ?_) hextra⟩
    · rw [← hfirst]
      rfl
    · obtain rfl | ha := mem_cons.1 ha
      · exact hmem _ mem_cons_self
      · exact .inl (mem_singleton.1 ha ▸ ⟨⟨.rts, .implied⟩, rfl⟩)
  · exact ⟨[.redirect], .ofActs hfirst hlabels hmem hextra⟩
  · refine ⟨[.redirect, .retract], .ofActs ?_ hlabels (fun a ha => ?_) hextra⟩
    · rw [← act_retract hr, ← hfirst]
      rfl
    · obtain rfl | ha := mem_cons.1 ha
      · exact hmem _ mem_cons_self
      · exact .inr (mem_singleton.1 ha ▸ .inr ⟨rfl, by simp [hnext]⟩)

/-- The history of a routine begins with its label, which gets no other address in its course. -/
theorem routine_comes (hbody : r.body = some body) (h : routine symbols labels st r next = .ok st')
    (hid : CodeSetting.label ⟨symbols, labels, some r.name⟩ r.name = .ok id) (hlt : id < st.emitter.labels.size) :
    ∃ as, CodeState.Comes ({.resolve id} ∪ ending next) ∅ (.resolve id :: as) st st' ∧ .resolve id ∉ as := by
  obtain ⟨id', st1, e, hid', hc, hf, rfl⟩ := routine_code hbody h
  rw [hid] at hid'
  cases hid'
  obtain ⟨as, hcode⟩ := body.comes _ _ hc
  obtain ⟨as', hend⟩ := finish_comes hf
  refine ⟨as ++ as', (((CodeState.Comes.ofResolve st id).append hcode).join hend), fun hmem => ?_⟩
  have hsize : (st.resolve id).emitter.labels.size = st.emitter.labels.size := size_resolve
  obtain hmem | hmem := mem_append.1 hmem
  · obtain hle | hmem := hcode.inner _ hmem
    · exact Nat.not_lt_of_le (hsize ▸ hle) hlt
    · cases hmem
  · obtain hle | hmem := hend.inner _ hmem
    · exact Nat.not_lt_of_le ((hsize ▸ hcode.size).trans hle) hlt
    · simp [ending] at hmem

/-- What is done besides adding code when the routine of a name is added: its label gets an address, and it is ended. -/
def laying (symbols : Symbols) (labels : LabelMap) (routines : List Routine) (x : String × Option String) :
    Set Emitter.Action :=
  {a | (∃ r id, findRoutine routines x.1 = .ok r ∧ r.body.isSome = true
    ∧ CodeSetting.label ⟨symbols, labels, some r.name⟩ r.name = .ok id ∧ a = .resolve id) ∨ a ∈ ending x.2}

theorem lay_comes {x : String × Option String} (hbelow : labels.Below n) (hn : n ≤ st.emitter.labels.size)
    (h : lay symbols labels routines st x = .ok st') : ∃ as, CodeState.Comes (laying symbols labels routines x) ∅ as st st' := by
  obtain ⟨r, hr, h⟩ := bind_eq_ok.1 h
  have hextra : ∀ id, .resolve id ∉ ending x.2 := by simp [ending]
  cases hbody : r.body with
  | none =>
    unfold routine at h
    rw [hbody] at h
    cases h
    refine ⟨[], (CodeState.Comes.refl st).mono (Set.empty_subset _) fun id hid => ?_⟩
    obtain ⟨r', id', hr', hsome, -⟩ | hid := hid
    · rw [hr] at hr'
      cases hr'
      rw [hbody] at hsome
      cases hsome
    · exact (hextra id hid).elim
  | some body =>
    obtain ⟨id, -, -, hid, -⟩ := routine_code hbody h
    obtain ⟨as, hcomes, -⟩ := routine_comes hbody h hid ((hbelow.label hid).trans_le hn)
    refine ⟨_, hcomes.mono ?_ fun id' hid' => ?_⟩
    · rintro a (rfl | ha)
      · exact .inl ⟨r, id, hr, by rw [hbody]; rfl, hid, rfl⟩
      · exact .inr ha
    · obtain ⟨r', id'', hr', -, hid'', heq⟩ | hid' := hid'
      · rw [hr] at hr'
        cases hr'
        rw [hid] at hid''
        cases hid''
        exact .inl heq
      · exact (hextra id' hid').elim

theorem lays_comes (hbelow : labels.Below n)
    (hn : n ≤ st.emitter.labels.size) (h : xs.foldlM (lay symbols labels routines) st = .ok st') :
    ∃ as, CodeState.Comes {a | ∃ x ∈ xs, a ∈ laying symbols labels routines x} ∅ as st st' := by
  induction xs generalizing st with
  | nil =>
    cases h
    exact ⟨[], (CodeState.Comes.refl _).mono (Set.empty_subset _) fun id ⟨x, hx, _⟩ => (by cases hx)⟩
  | cons x xs ih =>
    obtain ⟨st1, hx, h⟩ := foldlM_cons_ok.1 h
    obtain ⟨as, hfirst⟩ := lay_comes hbelow hn hx
    obtain ⟨as', hrest⟩ := ih (hn.trans hfirst.size) h
    have hset : {a | ∃ y ∈ x :: xs, a ∈ laying symbols labels routines y}
        = laying symbols labels routines x ∪ {a | ∃ y ∈ xs, a ∈ laying symbols labels routines y} := by
      ext a
      simp
    rw [hset]
    exact ⟨_, hfirst.join hrest⟩

end Codegen

/-! ### Histories of trampolines and storage -/

/-- Actions by which storage is laid out: its labels get addresses and lengths, and room is left. -/
def Emitter.Action.Stores (ps : List Placed) : Emitter.Action → Prop
  | .add i => i.labels = []
  | .measure id _ | .resolve id => ∃ q ∈ ps, q.label = id
  | .leave _ => True
  | _ => False

/-- The numbers that an initial value stands for. -/
def Initial.numbers : Initial → List Int
  | .value n => [n]
  | .values ns => ns
  | .text s => s.toList.map fun c => (c.toNat : Int)

/-- The item of a definition's initial values. -/
def Placed.item (q : Placed) : Item :=
  match q.defn.initial with
  | some initial => (initialItem q.ty initial).toOption.getD .unknown
  | none => .unknown

/-- The actions that put initial values in their place. -/
def Placed.fills (q : Placed) : List Emitter.Action :=
  [.measure q.label q.item.width, .resolve q.label, .add q.item]

/-- The actions that leave as much room as the label says. -/
def Placed.leaves (ls : Labels) (q : Placed) : List Emitter.Action :=
  [.resolve q.label, .leave ((ls.entry q.label).length.getD 0)]

/-- The definitions that have initial values. -/
def initialised (ps : List Placed) : List Placed := ps.filter fun q => q.defn.initial.isSome

/-- The definitions that have neither an initial value nor an address. -/
def unfilled (ps : List Placed) : List Placed := ps.filter fun q => q.defn.initial.isNone && q.defn.addr.isNone

theorem Item.cellLabels_eq_nil (h : ∀ i ∈ is, i.labels = []) : Item.cellLabels is = [] := by
  induction is with
  | nil =>
    unfold cellLabels
    rfl
  | cons i is ih =>
    obtain ⟨hi, his⟩ := forall_mem_cons.1 h
    unfold cellLabels
    rw [hi, ih his]
    rfl

namespace Codegen

section

variable {cs : CodeSetting}

theorem mapM_byteOf {α : Type} {f : α → Int} {xs : List α} (h : (xs.mapM fun x => (byteOf (f x)).map Item.byte) = .ok cells) :
    cells = (xs.map fun x => .byte (lowBits (f x))) ∧ ∀ x ∈ xs, f x ≤ 255 := by
  induction xs generalizing cells with
  | nil =>
    cases h
    exact ⟨rfl, nofun⟩
  | cons x xs ih =>
    simp only [mapM_cons, bind_eq_ok, pure_eq_ok, map_eq_ok] at h
    obtain ⟨i, ⟨b, hb, rfl⟩, rest, hrest, rfl⟩ := h
    obtain ⟨rfl, -, hle⟩ := byteOf_ok hb
    obtain ⟨rfl, hall⟩ := ih hrest
    exact ⟨rfl, forall_mem_cons.2 ⟨hle, hall⟩⟩

theorem byteCells_ok (h : byteCells initial = .ok cells) :
    cells = (initial.numbers.map fun n => .byte (lowBits n)) ∧ ∀ n ∈ initial.numbers, n ≤ 255 := by
  cases initial with
  | value n =>
    simp only [byteCells, bind_eq_ok, pure_eq_ok] at h
    obtain ⟨b, hb, rfl⟩ := h
    obtain ⟨rfl, -, hle⟩ := byteOf_ok hb
    exact ⟨rfl, forall_mem_singleton.2 hle⟩
  | values ns => exact mapM_byteOf h
  | text s =>
    rw [Initial.numbers, map_map, forall_mem_map]
    exact mapM_byteOf h

theorem byteCells_labels (h : byteCells initial = .ok cells) : ∀ i ∈ cells, i.labels = [] := by
  intro i hi
  rw [(byteCells_ok h).1] at hi
  obtain ⟨n, -, rfl⟩ := mem_map.1 hi
  unfold Item.labels
  rfl

theorem wordCells_labels (initial : Initial) : ∀ i ∈ wordCells initial, i.labels = [] := by
  intro i hi
  cases initial with
  | value n =>
    obtain rfl := mem_singleton.1 hi
    unfold Item.labels
    rfl
  | values ns | text s =>
    obtain ⟨_, -, rfl⟩ := mem_map.1 hi
    unfold Item.labels
    rfl

/-- Initial values refer to no labels. -/
theorem initialItem_labels {ty : Ty} {item : Item} (h : initialItem ty initial = .ok item) : item.labels = [] := by
  unfold initialItem at h
  split at h
  · obtain ⟨b, -, rfl⟩ := map_eq_ok.1 h
    unfold Item.labels
    rfl
  · cases h
    unfold Item.labels
    rfl
  · obtain ⟨cells, hcells, rfl⟩ := map_eq_ok.1 h
    unfold Item.labels
    exact Item.cellLabels_eq_nil (byteCells_labels hcells)
  · cases h
    unfold Item.labels
    exact Item.cellLabels_eq_nil (wordCells_labels _)
  · cases h

theorem trampolines_acts (h : trampolines cs tr e = .ok e') :
    ∃ as, e.acts as = e' ∧ (∀ a ∈ as, (∃ k : Code, a = .add k.item) ∨ ∃ x ∈ tr, a = .resolve x.2)
      ∧ ∀ x ∈ tr, .resolve x.2 ∈ as := by
  induction tr generalizing e with
  | nil =>
    cases h
    exact ⟨[], rfl, fun a ha => (by cases ha), fun x hx => by cases hx⟩
  | cons x tr ih =>
    obtain ⟨vector, id⟩ := x
    simp only [trampolines, bind_eq_ok] at h
    obtain ⟨v, -, h⟩ := h
    obtain ⟨as, hrun, hall, hdone⟩ := ih h
    refine ⟨.resolve id :: .add (.code .jmp (.indirect v)) :: .add (.code .rts .implied) :: as, hrun, fun a ha => ?_,
      fun x hx => ?_⟩
    · simp only [mem_cons] at ha
      obtain rfl | rfl | rfl | ha := ha
      · exact .inr ⟨_, mem_cons_self, rfl⟩
      · exact .inl ⟨⟨.jmp, .indirect v⟩, rfl⟩
      · exact .inl ⟨⟨.rts, .implied⟩, rfl⟩
      · obtain hcode | ⟨x, hx, heq⟩ := hall a ha
        · exact .inl hcode
        · exact .inr ⟨x, mem_cons_of_mem _ hx, heq⟩
    · obtain rfl | hx := mem_cons.1 hx
      · exact mem_cons_self
      · simp [hdone x hx]

theorem initials_acts (h : initials ps e = .ok e') :
    e.acts ((initialised ps).flatMap Placed.fills) = e'
      ∧ ∀ q ∈ initialised ps, ∃ initial, q.defn.initial = some initial ∧ initialItem q.ty initial = .ok q.item := by
  induction ps generalizing e with
  | nil =>
    cases h
    exact ⟨rfl, fun q hq => by cases hq⟩
  | cons p ps ih =>
    unfold initials at h
    split at h
    case h_1 hnone =>
      have hskip : initialised (p :: ps) = initialised ps := filter_cons_of_neg (by rw [hnone]; simp)
      rw [hskip]
      exact ih h
    case h_2 initial hsome =>
      simp only [bind_eq_ok] at h
      obtain ⟨item, hitem, n, hn, e1, he, h⟩ := h
      obtain ⟨_, hn', rfl⟩ := map_eq_ok.1 he
      obtain rfl := Except.ok.inj (hn.symm.trans hn')
      obtain ⟨hrun, hitems⟩ := ih h
      have htake : initialised (p :: ps) = p :: initialised ps := filter_cons_of_pos (by rw [hsome]; rfl)
      have hown : p.item = item := by simp [Placed.item, hsome, hitem, Except.toOption]
      have hwidth : p.item.width = n := by simp [hown, Item.width, hn]
      rw [htake]
      refine ⟨?_, forall_mem_cons.2 ⟨⟨initial, hsome, hown ▸ hitem⟩, hitems⟩⟩
      rw [flatMap_cons, acts_append, ← hrun]
      subst hown hwidth
      rfl

theorem reserves_acts (h : reserves ps e = .ok e') :
    e.acts ((unfilled ps).flatMap (Placed.leaves e.labels)) = e' := by
  induction ps generalizing e with
  | nil =>
    cases h
    rfl
  | cons p ps ih =>
    unfold reserves at h
    split at h
    case isTrue hneeds =>
      obtain ⟨e1, he, h⟩ := bind_eq_ok.1 h
      unfold Emitter.reserve at he
      split at he
      · cases he
      case h_2 n hn =>
        cases he
        have htake : unfilled (p :: ps) = p :: unfilled ps := filter_cons_of_pos hneeds
        have hsame : Placed.leaves ((e.resolve p.label).move n).labels = Placed.leaves e.labels := by
          funext q
          simp only [Placed.leaves, Emitter.move, Emitter.resolve, Emitter.changeLabel, Labels.entry_modify]
          split <;> rfl
        rw [htake, flatMap_cons, acts_append, ← ih h, hsame, Placed.leaves, hn]
        rfl
    case isFalse hnot =>
      have hskip : unfilled (p :: ps) = unfilled ps := filter_cons_of_neg hnot
      rw [hskip]
      exact ih h

/-- The actions of storage concern its own labels. -/
theorem fills_stores (h : ∀ q ∈ initialised ps, ∃ initial, q.defn.initial = some initial ∧ initialItem q.ty initial = .ok q.item) :
    ∀ a ∈ (initialised ps).flatMap Placed.fills, a.Stores ps := by
  intro a ha
  obtain ⟨q, hq, ha⟩ := mem_flatMap.1 ha
  obtain ⟨initial, -, hitem⟩ := h q hq
  have hmem : q ∈ ps := mem_of_mem_filter hq
  simp only [Placed.fills, mem_cons, not_mem_nil, or_false] at ha
  obtain rfl | rfl | rfl := ha
  · exact ⟨q, hmem, rfl⟩
  · exact ⟨q, hmem, rfl⟩
  · exact initialItem_labels hitem

theorem leaves_stores (ls : Labels) : ∀ a ∈ (unfilled ps).flatMap (Placed.leaves ls), a.Stores ps := by
  intro a ha
  obtain ⟨q, hq, ha⟩ := mem_flatMap.1 ha
  simp only [Placed.leaves, mem_cons, not_mem_nil, or_false] at ha
  obtain rfl | rfl := ha
  · exact ⟨q, mem_of_mem_filter hq, rfl⟩
  · trivial

end

end Codegen

/-! ### Labels that a layout mentions -/

theorem Emitter.Closed.retract (h : e.Closed) (hr : e.retract = .ok e') : e'.Closed := by
  obtain ⟨is, i, hitems, hitems', -, hlabels, -⟩ := retract_ok hr
  intro j hj id hid
  rw [hlabels]
  refine h j ?_ id hid
  rw [hitems]
  exact mem_append_left _ (hitems' ▸ hj)

theorem Emitter.Closed.tailCall (h : e.Closed) (ht : tailCall e = .ok e') : e'.Closed := by
  obtain ⟨rfl, -⟩ | ⟨is, id, hitems, hitems', -, hlabels, -⟩ := tailCall_ok ht
  · exact h
  · intro j hj id' hid'
    rw [hlabels]
    rw [hitems', mem_append, mem_singleton] at hj
    obtain hj | rfl := hj
    · exact h j (hitems ▸ mem_append_left _ hj) id' hid'
    · exact h (.code .jsr (.wide id)) (hitems ▸ mem_append_right _ mem_cons_self) id' hid'

/-- Storage refers to no labels. -/
theorem Emitter.Closed.stores (h : e.Closed) (has : ∀ a ∈ as, a.Stores ps) : (e.acts as).Closed := by
  induction as generalizing e with
  | nil => exact h
  | cons a as ih =>
    obtain ⟨ha, has⟩ := forall_mem_cons.1 has
    refine ih ?_ has
    cases a with
    | add i =>
      intro j hj id hid
      simp only [act, append, move, Array.toList_push, mem_append, mem_singleton] at hj
      obtain hj | rfl := hj
      · exact h j hj id hid
      · rw [ha] at hid
        cases hid
    | resolve id => exact h.of_size rfl size_resolve.ge
    | measure id n => exact h.of_size rfl (size_act e (.measure id n))
    | leave n => exact h
    | name l => cases ha
    | top => cases ha
    | redirect => cases ha
    | retract => cases ha

namespace Codegen

section

variable {q : Option String}

theorem finish_closed (h : finish next e = .ok e') (he : e.Closed) : e'.Closed := by
  obtain ⟨e1, htail, hclose⟩ := bind_eq_ok.1 h
  have he1 := he.tailCall htail
  obtain ⟨-, rfl⟩ | ⟨-, -, rfl⟩ | ⟨id, -, -, hr⟩ := close_cases hclose
  · exact he1.codes (.single .implied) (Nat.zero_le _)
  · exact he1
  · exact he1.retract hr

theorem routine_closed (hbelow : labels.Below n) (hn : n ≤ st.emitter.labels.size) (hst : st.Closed)
    (h : routine symbols labels st r next = .ok st') : st'.Closed := by
  cases hbody : r.body with
  | none =>
    unfold routine at h
    rw [hbody] at h
    cases h
    exact hst
  | some body =>
    obtain ⟨id, st1, e, -, hc, he, rfl⟩ := routine_code hbody h
    have hcode := body.compile_closed (fun _ _ => hbelow.label) _ _ (hn.trans size_resolve.ge) hst.resolve hc
    exact hcode.withEmitter (finish_closed he hcode.emitter) (finish_labels he ▸ le_rfl)

theorem lays_closed (hbelow : labels.Below n) (hn : n ≤ st.emitter.labels.size)
    (hst : st.Closed) (h : xs.foldlM (lay symbols labels routines) st = .ok st') : st'.Closed := by
  induction xs generalizing st with
  | nil =>
    cases h
    exact hst
  | cons x xs ih =>
    obtain ⟨st1, hx, h⟩ := foldlM_cons_ok.1 h
    obtain ⟨as, hcomes⟩ := lay_comes hbelow hn hx
    obtain ⟨r, -, hr⟩ := bind_eq_ok.1 hx
    exact ih (hn.trans hcomes.size) (routine_closed hbelow hn hst hr) h

theorem trampolines_closed (hbelow : labels.Below n) (hn : n ≤ e.labels.size)
    (he : e.Closed) (h : trampolines ⟨symbols, labels, q⟩ tr e = .ok e') : e'.Closed := by
  induction tr generalizing e with
  | nil =>
    cases h
    exact he
  | cons x tr ih =>
    simp only [trampolines, bind_eq_ok] at h
    obtain ⟨v, hv, h⟩ := h
    have hsize : (e.resolve x.2).labels.size = e.labels.size := size_resolve
    refine ih ?_ ?_ h
    · rw [codes_labels, hsize]
      exact hn
    · have hresolve : (e.resolve x.2).Closed := he.of_size rfl hsize.ge
      exact hresolve.codes (.cons (.of_label rfl (hbelow.label hv)) (.single .implied)) (hsize ▸ hn)

end

end Codegen

/-! ### The history of a layout -/

/-- The course of a layout: the names get their labels, then come the actions of the routines, those of the trampolines and
those of the storage. -/
structure Program.Course (symbols : Symbols) (p : Program) (rows : List (List String)) (e : Emitter) (L : Layout) (e1 : Emitter)
    (ps : List Placed) (st : CodeState) (as tr ds : List Emitter.Action) : Prop where
  placed : p.placed symbols e = .ok (e1, L.labels, ps)
  code : CodeState.Comes {a | ∃ x ∈ rows.flatMap links, a ∈ laying symbols L.labels p.routines x} ∅ as { emitter := e1 } st
  trampolines : ∀ a ∈ tr, (∃ k : Code, a = .add k.item) ∨ ∃ x ∈ st.trampolines.entries, a = .resolve x.2
  reached : ∀ x ∈ st.trampolines.entries, .resolve x.2 ∈ tr
  awaits : st.Awaits e1.labels.size
  storage : ∀ a ∈ ds, a.Stores ps
  stored : ∀ q ∈ ps, q.defn.initial.isSome = true ∨ q.defn.addr = none → .resolve q.label ∈ ds
  closed : e1.Closed → L.emitter.Closed
  run : e1.acts (as ++ tr ++ ds) = L.emitter
  filled : ∃ e2, initials ps (e1.acts (as ++ tr)) = .ok e2 ∧ reserves ps e2 = .ok L.emitter

theorem Program.layOut_course {roster : Option (List (List String))} (h : p.layOut symbols roster e = .ok L) :
    ∃ e1 ps st as tr ds, p.Course symbols (roster.getD (defaultRoster p.routines)) e L e1 ps st as tr ds := by
  obtain ⟨e1, ps, st, hplaced, hlinks, hconclude⟩ := Program.layOut_stages h
  obtain ⟨hbelow, -⟩ := Program.placed_labels hplaced
  have hawaits : CodeState.Awaits e1.labels.size { emitter := e1 } := ⟨le_rfl, fun v id hv => by cases hv⟩
  obtain ⟨-, hst⟩ := lay_settles hbelow hawaits hlinks
  obtain ⟨as, hcode⟩ := lays_comes hbelow (le_rfl) hlinks
  simp only [conclude, bind_eq_ok] at hconclude
  obtain ⟨e2, htr, e3, hin, hre⟩ := hconclude
  obtain ⟨tr, hruntr, htrampolines, hreached⟩ := trampolines_acts htr
  obtain ⟨hrunin, hitems⟩ := initials_acts hin
  have hrunre := reserves_acts hre
  have hstorage : ∀ a ∈ (initialised ps).flatMap Placed.fills ++ (unfilled ps).flatMap (Placed.leaves e3.labels), a.Stores ps :=
    fun a ha => (mem_append.1 ha).elim (fills_stores hitems a) (leaves_stores e3.labels a)
  have hrun : e2.acts ((initialised ps).flatMap Placed.fills ++ (unfilled ps).flatMap (Placed.leaves e3.labels)) = L.emitter := by
    rw [acts_append, hrunin, hrunre]
  have hcoded : e1.acts (as ++ tr) = e2 := by
    have hruncode : e1.acts as = st.emitter := hcode.run
    rw [acts_append, hruncode, hruntr]
  refine ⟨e1, ps, st, as, tr, _, hplaced, hcode, htrampolines, hreached, hst, hstorage, fun q hq hneeds => ?_,
    fun hclosed => ?_, ?_, e3, hcoded ▸ hin, hre⟩
  · cases hinitial : q.defn.initial with
    | some initial =>
      refine mem_append_left _ (mem_flatMap.2 ⟨q, mem_filter.2 ⟨hq, ?_⟩, by simp [Placed.fills]⟩)
      rw [hinitial]
      rfl
    | none =>
      rw [hinitial] at hneeds
      refine mem_append_right _ (mem_flatMap.2 ⟨q, mem_filter.2 ⟨hq, ?_⟩, mem_cons_self⟩)
      rw [hinitial, hneeds.resolve_left (by simp)]
      rfl
  · have hstart : CodeState.Closed { emitter := e1 } := ⟨hclosed, fun v id hv => by cases hv⟩
    have hcodeClosed := lays_closed hbelow (le_rfl) hstart hlinks
    rw [← hrun]
    exact (trampolines_closed hbelow hst.size hcodeClosed.emitter htr).stores hstorage
  · rw [acts_append e1 (as ++ tr), hcoded, hrun]

/-! ### Addresses of labels -/

theorem Item.rooms_congr {js : List Item} (h : is.map Item.width = js.map Item.width) : Item.rooms is = Item.rooms js := by
  induction is generalizing js with
  | nil => rw [map_eq_nil_iff.1 h.symm]
  | cons i is ih =>
    cases js with
    | nil => cases h
    | cons j js =>
      obtain ⟨hwidth, hrest⟩ := List.cons.inj h
      exact congrArg₂ (· + ·) hwidth (ih hrest)

namespace Emitter

variable {as : List Action}

theorem size_acts_eq (has : ∀ a ∈ as, a ≠ .top ∧ ∀ l, a ≠ .name l) : (e.acts as).labels.size = e.labels.size := by
  induction as generalizing e with
  | nil => rfl
  | cons a as ih =>
    obtain ⟨⟨htop, hname⟩, has⟩ := forall_mem_cons.1 has
    rw [acts_cons, ih has]
    cases a with
    | name l => exact (hname l rfl).elim
    | top => exact (htop rfl).elim
    | add i | leave n => rfl
    | resolve id => exact size_resolve
    | measure id n => simp [act, changeLabel]
    | redirect => rw [act_labels_of_last (.inl rfl)]
    | retract => rw [act_labels_of_last (.inr rfl)]

theorem items_acts (has : ∀ a ∈ as, a ≠ .redirect ∧ a ≠ .retract) : e.items.toList <+: (e.acts as).items.toList := by
  induction as generalizing e with
  | nil => exact prefix_rfl
  | cons a as ih =>
    obtain ⟨⟨hredirect, hretract⟩, has⟩ := forall_mem_cons.1 has
    refine List.IsPrefix.trans ?_ (ih has)
    cases a with
    | add i => simp [act, append, move]
    | redirect => exact (hredirect rfl).elim
    | retract => exact (hretract rfl).elim
    | _ => exact prefix_rfl

/-- In the course of the actions the label gets its address when some of the items have been emitted, and the address is as
far from the start as the bytes of these items are many. -/
def StandsExactly (e : Emitter) (as : List Action) (id : LabelId) : Prop :=
  ∃ before, e.Gets as id before ∧ ((e.acts as).labels.entry id).addr = some (e.acts before).addr
    ∧ (e.acts before).items.size ≤ (e.acts as).items.size
    ∧ ∀ bs, bytesFrom (e.acts as).labels e.start ((e.acts as).items.toList.take (e.acts before).items.size) = .ok bs →
      (e.acts before).addr - e.start = bs.length

/-- Where no item is taken back and all have as many bytes as they say, a label stands exactly, whatever storage follows. -/
theorem Gets.exactly {before ds : List Action} (h : e.Gets as id before) (he : e.Tight) (has : ∀ a ∈ as, a.Exact)
    (hretract : .retract ∉ as) (hds : ∀ a ∈ ds, a ≠ .redirect ∧ a ≠ .retract) (hid : .resolve id ∉ ds) :
    e.StandsExactly (as ++ ds) id := by
  have hgets := h.append hid
  obtain ⟨a, after, rfl, -, -⟩ := h
  have hbefore : (e.acts before).Tight := he.acts fun b hb => has b (mem_append_left _ hb)
  have hall : (e.acts (before ++ a :: after)).Tight := he.acts has
  -- the items that were there keep their room, and nothing comes between them later
  have hwidths : (e.acts before).items.toList.map Item.width
      <+: (e.acts (before ++ a :: after)).items.toList.map Item.width := by
    rw [acts_append]
    exact widths_acts fun hmem => hretract (mem_append_right _ hmem)
  have hitems : (e.acts (before ++ a :: after)).items.toList <+: (e.acts (before ++ a :: after ++ ds)).items.toList := by
    rw [acts_append e (before ++ a :: after)]
    exact items_acts hds
  have hn : (e.acts before).items.size ≤ (e.acts (before ++ a :: after)).items.toList.length := by
    simpa using hwidths.length_le
  have htake : (e.acts (before ++ a :: after ++ ds)).items.toList.take (e.acts before).items.size
      = (e.acts (before ++ a :: after)).items.toList.take (e.acts before).items.size := by
    obtain ⟨rest, hrest⟩ := hitems
    rw [← hrest, take_append_of_le_length hn]
  refine ⟨before, hgets, hgets.addr, hn.trans (by simpa using hitems.length_le), fun bs hbs => ?_⟩
  rw [htake] at hbs
  have hlength := bytesFrom_length (fun i hi => hall.exact i (mem_of_mem_take hi)) hbs
  have hrooms : ((e.acts (before ++ a :: after)).items.toList.take (e.acts before).items.size).map Item.width
      = (e.acts before).items.toList.map Item.width := by
    rw [map_take, prefix_iff_eq_take.1 hwidths]
    simp
  rw [hlength, Item.rooms_congr hrooms, hbefore.addr, start_acts]
  omega

end Emitter

namespace Codegen

theorem findRoutine_of_mem {rs : List Routine} (hnodup : (rs.map (·.name)).Nodup) (hr : r ∈ rs) :
    findRoutine rs r.name = .ok r := by
  unfold findRoutine
  have hfind : rs.find? (fun r' => r'.name == r.name) = some r := by
    induction rs with
    | nil => cases hr
    | cons r' rs ih =>
      rw [map_cons, nodup_cons] at hnodup
      obtain rfl | hr := mem_cons.1 hr
      · simp
      · have hne : r'.name ≠ r.name := fun heq => hnodup.1 (heq ▸ mem_map_of_mem hr)
        rw [find?_cons_of_neg (by simpa using hne)]
        exact ih hnodup.2 hr
  rw [hfind]

/-- Without a roster `main` comes first, and every routine is by itself. -/
theorem defaultRoster_links (rs : List Routine) :
    (defaultRoster rs).flatMap links
      = ("main", none) :: ((rs.filter fun r => r.name ≠ "main").map fun r => (r.name, none)) := by
  rw [defaultRoster, flatMap_cons, flatMap_map, map_eq_flatMap]
  rfl

end Codegen

namespace Program.Course

variable {rows : List (List String)} {tr ds : List Emitter.Action}

section

variable (h : p.Course symbols rows e L e1 ps st as tr ds)
include h

theorem exact : ∀ a ∈ as ++ tr, a.Exact := by
  intro a ha
  obtain ha | ha := mem_append.1 ha
  · obtain hinner | ⟨x, -, ⟨-, id, -, -, -, rfl⟩ | rfl | ⟨rfl, -⟩⟩ := h.code.inner a ha
    · cases a with
      | add i =>
        obtain ⟨k, rfl⟩ := hinner
        exact k.item_exact
      | leave n => cases hinner
      | _ => trivial
    all_goals trivial
  · obtain ⟨k, rfl⟩ | ⟨x, -, rfl⟩ := h.trampolines a ha
    · exact k.item_exact
    · trivial

/-- Items are taken back only in chains. -/
theorem keeps (hrows : ∀ x ∈ rows.flatMap links, x.2 = none) :
    .retract ∉ as ++ tr := by
  intro hmem
  obtain hmem | hmem := mem_append.1 hmem
  · obtain hinner | ⟨x, hx, ⟨_, _, -, -, -, heq⟩ | heq | ⟨-, hne⟩⟩ := h.code.inner _ hmem
    · cases hinner
    · cases heq
    · cases heq
    · exact hne (hrows x hx)
  · obtain ⟨k, heq⟩ | ⟨x, -, heq⟩ := h.trampolines _ hmem
    · cases heq
    · cases heq

theorem appends : ∀ a ∈ ds, a ≠ .redirect ∧ a ≠ .retract := by
  intro a ha
  have hstores := h.storage a ha
  refine ⟨?_, ?_⟩
  all_goals
    rintro rfl
    cases hstores

/-- No labels are made after the routines. -/
theorem size : L.emitter.labels.size = st.emitter.labels.size := by
  have hcode : e1.acts as = st.emitter := h.code.run
  rw [← h.run, append_assoc, acts_append, hcode, size_acts_eq]
  intro a ha
  obtain ha | ha := mem_append.1 ha
  · obtain ⟨k, rfl⟩ | ⟨x, -, rfl⟩ := h.trampolines a ha <;> simp
  · have hstores := h.storage a ha
    refine ⟨?_, fun l => ?_⟩
    all_goals
      rintro rfl
      cases hstores

/-- A label that was made for code gets its address before the storage comes. -/
theorem gets_inner (hle : e1.labels.size ≤ id)
    (hlt : id < L.emitter.labels.size) : ∃ before, e1.Gets (as ++ tr) id before := by
  have hcode : e1.acts as = st.emitter := h.code.run
  rw [h.size] at hlt
  have hlater : .resolve id ∈ tr → ∃ before, e1.Gets (as ++ tr) id before := by
    intro hmem
    obtain ⟨before, hgets⟩ := Emitter.Gets.of_mem hmem hlt
    exact ⟨as ++ before, .prepend (hcode ▸ hgets)⟩
  by_cases hmem : .resolve id ∈ tr
  · exact hlater hmem
  · obtain hp | ⟨before, hgets⟩ | ⟨v, hv⟩ := h.code.stands id hle hlt
    · cases hp
    · exact ⟨before, hgets.append hmem⟩
    · exact hlater (h.reached _ (Assoc.mem_of_get? hv))

/-- The label of a routine gets its address before the storage comes. -/
theorem gets_routine (hnodup : (p.routines.map (·.name)).Nodup)
    (hapart : p.NamesApart) (hr : r ∈ p.routines) (hbody : r.body.isSome = true)
    (hrow : ∃ next, (r.name, next) ∈ rows.flatMap links) (hget : L.labels.globals.get? r.name = some id) :
    ∃ before, e1.Gets (as ++ tr) id before := by
  obtain ⟨next, hrow⟩ := hrow
  have hlabel := (Program.placed_label h.placed hapart).2 hget
  have hdone := h.code.done id
    ⟨(r.name, next), hrow, .inl ⟨r, id, findRoutine_of_mem hnodup hr, hbody, hlabel, rfl⟩⟩
  have hlt := (Program.placed_labels h.placed).1.globals _ _ hget
  exact Emitter.Gets.of_mem (mem_append_left _ hdone) hlt

/-- Storage has labels of its own. -/
theorem untouched (hid : ∀ q ∈ ps, q.label ≠ id) : .resolve id ∉ ds := by
  intro hmem
  obtain ⟨q, hq, heq⟩ := h.storage _ hmem
  exact hid q hq heq

end

end Program.Course

/-- Giving out labels adds no items. -/
theorem Program.placed_tight (h : p.placed symbols e = .ok (e1, labels, ps)) (he : e.Tight) : e1.Tight := by
  rw [Program.placed_emitter h]
  exact ⟨he.addr, he.exact⟩

/-! ### Formats -/

/-- Whether an item is data and not an instruction. -/
def Item.isData : Item → Bool
  | .byte _ | .word _ | .table _ _ => true
  | _ => false

namespace Format

variable {f : Format} {start : Int}

theorem opened_acts (f : Format) (start : Int) :
    f.opened start = (Emitter.startingAt start).acts (f.prelude.map fun b => .add (.byte b)) := by
  rw [Emitter.acts, foldl_map]
  rfl

/-- What a format begins with has as many bytes as it says, and no labels. -/
theorem opened_tight (f : Format) (start : Int) : (f.opened start).Tight := by
  have hstart : (Emitter.startingAt start).Tight := ⟨(Int.add_zero start).symm, fun i hi => by cases hi⟩
  rw [opened_acts]
  refine hstart.acts fun a ha => ?_
  obtain ⟨b, -, rfl⟩ := mem_map.1 ha
  exact Item.byte_exact b

theorem opened_start (f : Format) (start : Int) : (f.opened start).start = start := by
  rw [opened_acts, start_acts]
  rfl

theorem bytes_foldl (bs : List UInt8) (e : Emitter) :
    bs.foldl Emitter.byte e = { e with items := e.items ++ (bs.map Item.byte).toArray, addr := e.addr + bs.length } := by
  induction bs generalizing e with
  | nil => simp
  | cons b bs ih =>
    rw [foldl_cons, ih]
    simp only [Emitter.byte, Emitter.append, Emitter.move, map_cons, length_cons]
    congr 1
    · omega
    · simp

theorem opened_items (f : Format) (start : Int) : (f.opened start).items.toList = f.prelude.map .byte := by
  rw [opened, bytes_foldl]
  simp [Emitter.startingAt]

theorem opened_addr (f : Format) (start : Int) : (f.opened start).addr = start + f.prelude.length := by
  rw [opened, bytes_foldl]
  rfl

theorem opened_labels (f : Format) (start : Int) : (f.opened start).labels = #[] := by
  rw [opened, bytes_foldl]
  rfl

theorem opened_counter (f : Format) (start : Int) : (f.opened start).counter = 0 := by
  rw [opened, bytes_foldl]
  rfl

/-- What a format ends with is bytes and words, which refer to no labels. -/
theorem closed_ok (h : f.closed start e = .ok e') :
    e'.labels = e.labels ∧ e'.start = e.start
      ∧ ∃ js, e'.items.toList = e.items.toList ++ js ∧ ∀ j ∈ js, j.isData = true ∧ j.labels = [] := by
  unfold closed at h
  split at h
  · cases h
    exact ⟨rfl, rfl, [], by simp, fun j hj => by cases hj⟩
  case h_2 size _ =>
    simp only [bind_eq_ok, Emitter.padTo] at h
    obtain ⟨e1, ⟨n, -, hpad⟩, e2, hfirst, hsecond⟩ := h
    split at hpad
    · cases hpad
    · rw [pure_eq_ok] at hpad
      subst hpad
      obtain ⟨_, -, rfl⟩ := map_eq_ok.1 hfirst
      obtain ⟨_, -, rfl⟩ := map_eq_ok.1 hsecond
      refine ⟨rfl, rfl, List.replicate (size - 4 - n).toNat (.byte 0) ++ [.word start, .word start], ?_, fun j hj => ?_⟩
      · simp [Emitter.append, Emitter.move]
      · simp only [mem_append, mem_replicate, mem_cons, not_mem_nil, or_false, or_self] at hj
        obtain ⟨-, rfl⟩ | rfl := hj
        all_goals
          unfold Item.labels
          exact ⟨rfl, rfl⟩

end Format

end CheckedAsm
