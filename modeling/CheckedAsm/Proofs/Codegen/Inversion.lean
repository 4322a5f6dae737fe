import CheckedAsm.Proofs.Codegen.Operations
/-! # What blocks become

Code that was generated for an instruction tells how it was put together: the code of its blocks, the
branches and jumps around it, and the labels they go to. The code, the labels and the trampolines only
grow, and the tables that pointers lead into are at the end those of the beginning or fewer. -/

namespace CheckedAsm

open Codegen

namespace CodeState

variable {st st' st'' : CodeState}

/-- Adds a branch to a new label. -/
def branched (st : CodeState) (m : Mnemonic) : CodeState :=
  (st.newLabel "else_label").2.codes [⟨m, .relative st.emitter.labels.size⟩]

/-- Adds a jump to a new label, and puts an earlier label after it. -/
def parted (st : CodeState) (otherwise : LabelId) : CodeState :=
  ((st.newLabel "end_label").2.codes [⟨.jmp, .wide st.emitter.labels.size⟩]).resolve otherwise

/-- Adds a label for the beginning of a loop. -/
def topped (st : CodeState) : CodeState := st.withEmitter (st.emitter.labelHere none).2

/-- The state with more code and labels, with the trampolines it had and perhaps others, and with no
other tables for its pointers. -/
structure Grows (st st' : CodeState) : Prop where
  emitter : st.emitter.Adds st'.emitter
  trampolines : ∀ v id, st.trampolines.get? v = some id → st'.trampolines.get? v = some id
  pointers : ∀ p t, st'.pointers.get? p = some t → st.pointers.get? p = some t

namespace Grows

theorem refl (st : CodeState) : Grows st st := ⟨.refl _, fun _ _ h => h, fun _ _ h => h⟩

theorem trans (h : Grows st st') (h' : Grows st' st'') : Grows st st'' where
  emitter := h.emitter.trans h'.emitter
  trampolines v id hv := h'.trampolines v id (h.trampolines v id hv)
  pointers p t hp := h.pointers p t (h'.pointers p t hp)

theorem ofEmitter {e : Emitter} (h : st.emitter.Adds e) : Grows st (st.withEmitter e) :=
  ⟨h, fun _ _ h => h, fun _ _ h => h⟩

theorem ofCodes (st : CodeState) (ks : List Code) : Grows st (st.codes ks) := .ofEmitter (.ofCodes _ _)

theorem resolve {id : LabelId} (h : Grows st st') (hid : st.emitter.labels.size ≤ id) :
    Grows st (st'.resolve id) :=
  ⟨h.emitter.resolve hid, h.trampolines, h.pointers⟩

theorem ofBranched (st : CodeState) (m : Mnemonic) : Grows st (st.branched m) :=
  .ofEmitter ((Emitter.Adds.ofNewLabel _ _).trans (.ofCodes _ _))

theorem ofParted {otherwise : LabelId} (h : Grows st st') (ho : st.emitter.labels.size ≤ otherwise) :
    Grows st (st'.parted otherwise) :=
  (h.trans (.ofEmitter ((Emitter.Adds.ofNewLabel _ _).trans (.ofCodes _ _)))).resolve ho

theorem ofTopped (st : CodeState) : Grows st st.topped := .ofEmitter (.ofLabelHere _)

end Grows

end CodeState

/-! ### Inversion -/

/-- How the code of an instruction is put together. -/
inductive Instr.Compiled (cs : CodeSetting) (st : CodeState) : Instr → CodeState → Prop
  | op {l op e} : single cs (.op l op) st.emitter op.settled = .ok e → Compiled cs st (.op l op) (st.withEmitter e)
  | call {l target st'} : Codegen.call cs st target = .ok st' → Compiled cs st (.call l target) st'
  | goto {l target st'} : jump cs st target = .ok st' → Compiled cs st (.goto l target) st'
  | reset {l p offset st'} : Codegen.reset cs st p offset = .ok st' → Compiled cs st (.reset l p offset) st'
  | ifThen {l src inverted} (yes : Block) (m : Mnemonic) (st1 : CodeState) : branch (.ifThen l src inverted yes) src inverted = .ok m →
      yes.compile cs (st.branched m) = .ok st1 → Compiled cs st (.ifThen l src inverted yes) (st1.resolve st.emitter.labels.size)
  | ifElse {l src inverted st'} (yes no : Block) (m : Mnemonic) (st1 : CodeState) :
      branch (.ifElse l src inverted yes no) src inverted = .ok m → yes.compile cs (st.branched m) = .ok st1 →
      ((yes.hasGoto = true ∧ no.compile cs (st1.resolve st.emitter.labels.size) = .ok st')
        ∨ (yes.hasGoto = false ∧ ∃ st2, no.compile cs (st1.parted st.emitter.labels.size) = .ok st2
          ∧ st' = st2.resolve st1.emitter.labels.size)) → Compiled cs st (.ifElse l src inverted yes no) st'
  | forever {l inverted} (body : Block) (st1 : CodeState) : body.compile cs st.topped = .ok st1 →
      Compiled cs st (.loop l none inverted body) (st1.codes [⟨.jmp, .wide st.emitter.labels.size⟩])
  | loop {l src inverted} (body : Block) (m : Mnemonic) (st1 : CodeState) : body.compile cs st.topped = .ok st1 →
      branch (.loop l (some src) inverted body) src inverted = .ok m →
      Compiled cs st (.loop l (some src) inverted body) (st1.codes [⟨m, .relative st.emitter.labels.size⟩])
  | count {l d dir final past} (body : Block) (st1 : CodeState) (ks : List Code) (e : Emitter) :
      body.compile cs st.topped = .ok st1 → countStep cs dir d = .ok ks → limit final dir = .ok past →
      compare cs (.count l d dir final body) (st1.emitter.codes ks) (.constant past) d = .ok e →
      Compiled cs st (.count l d dir final body) (st1.withEmitter (e.codes [⟨.bne, .relative st.emitter.labels.size⟩]))
  | interruptsOff {l} (body : Block) (st1 : CodeState) : body.compile cs (st.codes [⟨.sei, .implied⟩]) = .ok st1 →
      Compiled cs st (.interruptsOff l body) (st1.codes [⟨.cli, .implied⟩])
  | save {l rs} (body : Block) (before : List Code) (st1 : CodeState) (after : List Code) : forEach (push cs) rs = .ok before →
      body.compile cs (st.codes before) = .ok st1 → forEach (pull cs) rs.reverse = .ok after →
      Compiled cs st (.save l rs body) (st1.codes after)
  | pointInto {l p t} (body : Block) (st1 : CodeState) :
      body.compile cs { st with pointers := st.pointers.set p.name t.name } = .ok st1 →
      Compiled cs st (.pointInto l p t body) { st1 with pointers := st1.pointers.erase p.name }

section

variable {cs : CodeSetting} {st st' : CodeState} {p : Ref} {tail : Block} {head : Instr} {target : String}

attribute [local simp] Instr.compile Block.compile

/-- Where a jump to a name leads. -/
def CodeSetting.exit (cs : CodeSetting) (target : String) : Except Fault Operand := do
  let id ← cs.label target
  match ← cs.typeOfName target with
  | .routine _ => pure (.wide id)
  | .vector _ => pure (.indirect id)
  | t => .error (.noCodeFor t)

/-- Where a call of a name leads, given the trampolines. -/
def CodeSetting.entry (cs : CodeSetting) (trampolines : Assoc String LabelId) (target : String) :
    Option Operand :=
  match cs.label target, cs.typeOfName target with
  | .ok id, .ok (.routine _) => some (.wide id)
  | .ok _, .ok (.vector _) => (trampolines.get? target).map .wide
  | _, _ => none

theorem exit_names {o : Operand} (h : cs.exit target = .ok o) : o.Names cs := by
  simp only [CodeSetting.exit, bind_eq_ok] at h
  obtain ⟨id, hid, t, -, h⟩ := h
  cases t <;> cases h <;> exact .of_label hid rfl

theorem jump_code (h : jump cs st target = .ok st') :
    ∃ o, cs.exit target = .ok o ∧ st' = st.codes [⟨.jmp, o⟩] := by
  simp only [jump, bind_eq_ok] at h
  obtain ⟨id, hid, t, ht, h⟩ := h
  cases t with
  | routine sig =>
    rw [pure_eq_ok] at h
    exact ⟨.wide id, by simp [CodeSetting.exit, hid, ht, bind, Except.bind, pure, Except.pure], h.symm⟩
  | vector of =>
    rw [pure_eq_ok] at h
    exact ⟨.indirect id, by simp [CodeSetting.exit, hid, ht, bind, Except.bind, pure, Except.pure], h.symm⟩
  | _ => cases h

theorem trampoline_grows (st : CodeState) (vector : String) :
    st.Grows (st.trampoline vector).2
      ∧ (st.trampoline vector).2.trampolines.get? vector = some (st.trampoline vector).1 := by
  unfold CodeState.trampoline
  cases hv : st.trampolines.get? vector with
  | some id => exact ⟨.refl st, hv⟩
  | none =>
    refine ⟨⟨.ofNewLabel _ _, fun v id hid => ?_, fun _ _ hp => hp⟩, ?_⟩
    · have hne : vector ≠ v := fun hvv => by
        subst hvv
        rw [hv] at hid
        cases hid
      change (st.trampolines.set vector _).get? v = some id
      rw [Assoc.get?_set, if_neg hne, hid]
    · change (st.trampolines.set vector _).get? vector = _
      rw [Assoc.get?_set, if_pos rfl]

theorem call_code (h : call cs st target = .ok st') :
    ∃ o st1, st.Grows st1 ∧ st1.emitter.items = st.emitter.items ∧ st1.emitter.addr = st.emitter.addr
      ∧ st' = st1.codes [⟨.jsr, o⟩] ∧ cs.entry st'.trampolines target = some o := by
  simp only [call, bind_eq_ok] at h
  obtain ⟨id, hid, t, ht, h⟩ := h
  cases t with
  | routine sig =>
    rw [pure_eq_ok] at h
    exact ⟨.wide id, st, .refl st, rfl, rfl, h.symm, by simp [CodeSetting.entry, hid, ht]⟩
  | vector of =>
    rw [pure_eq_ok] at h
    obtain ⟨hg, hv⟩ := trampoline_grows st target
    refine ⟨_, _, hg, ?_, ?_, h.symm, ?_⟩
    · unfold CodeState.trampoline
      split <;> rfl
    · unfold CodeState.trampoline
      split <;> rfl
    · subst h
      simp only [CodeSetting.entry, hid, ht]
      exact congrArg (Option.map Operand.wide) hv
  | _ => cases h

theorem reset_code {offset : Const} (h : reset cs st p offset = .ok st') :
    ∃ table ks, st.pointers.get? p.name = some table ∧ (ks ≠ [] ∧ Sound cs ks) ∧ st' = st.codes ks
      ∧ ∀ st1 : CodeState, st1.pointers.get? p.name = some table →
        reset cs st1 p offset = .ok (st1.codes ks) := by
  unfold reset at h
  cases hp : st.pointers.get? p.name with
  | none =>
    rw [hp] at h
    cases h
  | some table =>
    rw [hp] at h
    simp only [bind_eq_ok, pure_eq_ok] at h
    obtain ⟨t, ht, q, hq, rfl⟩ := h
    refine ⟨table, _, rfl, ?_, rfl, fun st1 h1 => ?_⟩
    · have ht : ∀ {o : Operand}, o.label? = some t → o.Names cs := .of_label ht
      have hq : ∀ {o : Operand}, o.label? = some q → o.Names cs := .of_label hq
      exact ⟨by simp, .cons rfl (ht rfl) (.cons rfl (hq rfl) (.cons rfl (ht rfl) (.single rfl (hq rfl))))⟩
    · simp [reset, h1, ht, hq, bind, Except.bind, pure, Except.pure]

theorem Instr.compiled {i : Instr} (h : i.compile cs st = .ok st') : i.Compiled cs st st' := by
  cases i with
  | op =>
    obtain ⟨e, he, rfl⟩ := map_eq_ok.1 h
    exact .op he
  | call | goto | reset =>
    constructor
    exact h
  | ifThen =>
    simp only [Instr.compile, bind_eq_ok, pure_eq_ok] at h
    obtain ⟨m, hm, st1, hy, rfl⟩ := h
    exact .ifThen _ m st1 hm hy
  | ifElse =>
    simp only [Instr.compile, bind_eq_ok] at h
    obtain ⟨m, hm, st1, hy, h⟩ := h
    refine .ifElse _ _ m st1 hm hy ?_
    split at h
    case isTrue hg => exact .inl ⟨hg, h⟩
    case isFalse hg =>
      simp only [bind_eq_ok, pure_eq_ok] at h
      obtain ⟨st2, hn, rfl⟩ := h
      exact .inr ⟨by simpa using hg, st2, hn, rfl⟩
  | loop l src =>
    simp only [Instr.compile, bind_eq_ok] at h
    obtain ⟨st1, hb, h⟩ := h
    cases src with
    | none =>
      cases h
      exact .forever _ st1 hb
    | some src =>
      simp only [bind_eq_ok, pure_eq_ok] at h
      obtain ⟨m, hm, rfl⟩ := h
      exact .loop _ m st1 hb hm
  | count =>
    simp only [Instr.compile, countEnd, bind_eq_ok, pure_eq_ok] at h
    obtain ⟨st1, hb, ks, hk, past, hl, e, he, rfl⟩ := h
    exact .count _ st1 ks e hb hk hl he
  | interruptsOff =>
    simp only [Instr.compile, bind_eq_ok, pure_eq_ok] at h
    obtain ⟨st1, hb, rfl⟩ := h
    exact .interruptsOff _ st1 hb
  | save =>
    simp only [Instr.compile, bind_eq_ok, pure_eq_ok] at h
    obtain ⟨before, hb, st1, hc, after, ha, rfl⟩ := h
    exact .save _ before st1 after hb hc ha
  | pointInto =>
    simp only [Instr.compile, bind_eq_ok, leavePoint] at h
    obtain ⟨st1, hb, h⟩ := h
    split at h
    · cases h
      exact .pointInto _ st1 hb
    · cases h

theorem compile_cons (h : (Block.cons head tail).compile cs st = .ok st') :
    ∃ st1, head.compile cs st = .ok st1 ∧ tail.compile cs st1 = .ok st' := by
  simpa only [Block.compile, bind_eq_ok] using h

/-! ### Setting aside -/

section

variable {f : Ref → Except Fault (List Code)} {r : Ref} {ks : List Code}

theorem forEach_cons_ok :
    forEach f (r :: rs) = .ok ks ↔ ∃ k ks', f r = .ok k ∧ forEach f rs = .ok ks' ∧ ks = k ++ ks' := by
  simp only [forEach, List.mapM_cons, bind_eq_ok, pure_eq_ok]
  constructor
  · rintro ⟨parts, ⟨k, hk, parts', hp, rfl⟩, rfl⟩
    exact ⟨k, _, hk, ⟨parts', hp, rfl⟩, rfl⟩
  · rintro ⟨k, ks', hk, ⟨parts', hp, rfl⟩, rfl⟩
    exact ⟨_, ⟨k, hk, parts', hp, rfl⟩, rfl⟩

theorem forEach_straight (hf : ∀ r k, f r = .ok k → Code.Straight k) (h : forEach f rs = .ok ks) :
    Code.Straight ks := by
  induction rs generalizing ks with
  | nil =>
    cases h
    simp [Code.Straight]
  | cons r rs ih =>
    obtain ⟨k, ks', hk, hks, rfl⟩ := forEach_cons_ok.1 h
    exact (hf r k hk).append (ih hks)

theorem push_code (h : push cs r = .ok ks) : ∃ f, Sound cs f ∧ ks = f ++ [⟨.pha, .implied⟩] := by
  unfold push at h
  repeat' split at h
  · cases h
    exact ⟨[], .nil, rfl⟩
  · cases h
    exact ⟨[_], .single rfl (.of_none rfl), rfl⟩
  · cases h
    exact ⟨[_], .single rfl (.of_none rfl), rfl⟩
  · obtain ⟨id, hid, ⟨⟩⟩ := bind_eq_ok.1 h
    exact ⟨[_], .single rfl (.of_label hid rfl), rfl⟩

theorem pull_code (h : pull cs r = .ok ks) : ∃ g, Sound cs g ∧ ks = ⟨.pla, .implied⟩ :: g := by
  unfold pull at h
  repeat' split at h
  · cases h
    exact ⟨[], .nil, rfl⟩
  · cases h
    exact ⟨[_], .single rfl (.of_none rfl), rfl⟩
  · cases h
    exact ⟨[_], .single rfl (.of_none rfl), rfl⟩
  · obtain ⟨id, hid, ⟨⟩⟩ := bind_eq_ok.1 h
    exact ⟨[_], .single rfl (.of_label hid rfl), rfl⟩

theorem push_straight (h : push cs r = .ok ks) : Code.Straight ks := by
  obtain ⟨f, hf, rfl⟩ := push_code h
  exact hf.level.straight.append (.single rfl)

theorem pull_straight (h : pull cs r = .ok ks) : Code.Straight ks := by
  obtain ⟨g, hg, rfl⟩ := pull_code h
  exact Code.Straight.append (.single rfl) hg.level.straight

end

end

/-! ### Growth -/

mutual

theorem Instr.compile_grows {cs : CodeSetting} (i : Instr) (st st' : CodeState) (h : i.compile cs st = .ok st') : st.Grows st' := by
  cases Instr.compiled h with
  | op he => exact .ofEmitter (single_adds he)
  | call h =>
    obtain ⟨o, st1, hg, -, -, rfl, -⟩ := call_code h
    exact hg.trans (.ofCodes _ _)
  | goto h =>
    obtain ⟨o, -, rfl⟩ := jump_code h
    exact .ofCodes _ _
  | reset h =>
    obtain ⟨table, ks, -, -, rfl, -⟩ := reset_code h
    exact .ofCodes _ _
  | ifThen yes m st1 _ hy => exact ((CodeState.Grows.ofBranched st m).trans (yes.compile_grows _ _ hy)).resolve (le_rfl)
  | ifElse yes no m st1 _ hy hn =>
    have h1 := (CodeState.Grows.ofBranched st m).trans (yes.compile_grows _ _ hy)
    obtain ⟨-, hn⟩ | ⟨-, st2, hn, rfl⟩ := hn
    · exact (h1.resolve (le_rfl)).trans (no.compile_grows _ _ hn)
    · exact ((h1.ofParted (le_rfl)).trans (no.compile_grows _ _ hn)).resolve h1.emitter.size
  | forever body st1 hb | loop body _ st1 hb =>
    exact ((CodeState.Grows.ofTopped st).trans (body.compile_grows _ _ hb)).trans (.ofCodes _ _)
  | count body st1 ks e hb _ _ he =>
    have hc : (st1.emitter.codes ks).Adds e := compare_adds he
    exact ((CodeState.Grows.ofTopped st).trans (body.compile_grows _ _ hb)).trans
      (.ofEmitter (((Emitter.Adds.ofCodes _ _).trans hc).trans (.ofCodes _ _)))
  | interruptsOff body st1 hb | save body _ st1 _ _ hb =>
    exact ((CodeState.Grows.ofCodes _ _).trans (body.compile_grows _ _ hb)).trans (.ofCodes _ _)
  | pointInto body st1 hb =>
    obtain ⟨he, ht, hp⟩ := body.compile_grows _ _ hb
    refine ⟨he, ht, fun q u hq => ?_⟩
    rw [Assoc.get?_erase] at hq
    split at hq
    · cases hq
    case isFalse hne =>
      have hq' := hp q u hq
      rwa [Assoc.get?_set, if_neg hne] at hq'

theorem Block.compile_grows {cs : CodeSetting} : (b : Block) → (st st' : CodeState) →
    b.compile cs st = .ok st' → st.Grows st'
  | .nil l, st, st', h => by
    cases h
    exact .refl st
  | .cons head tail, st, st', h => by
    obtain ⟨st1, hh, ht⟩ := compile_cons h
    exact (head.compile_grows _ _ hh).trans (tail.compile_grows _ _ ht)

end

end CheckedAsm
