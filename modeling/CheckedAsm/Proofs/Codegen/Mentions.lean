import CheckedAsm.Proofs.Codegen.Layout
/-! # Labels that code mentions

Every label that an instruction refers to is in the table: it is the label of a name, or one that was made for a choice, a
loop or a trampoline before the instruction was added. -/

namespace CheckedAsm

open Codegen

variable {n n' : Nat} {id : LabelId} {o : Operand} {ks : List Code} {m : Mnemonic} {cs : CodeSetting} {e e' : Emitter}
  {st : CodeState}

/-- The label of the operand, if there is one, comes before the given one. -/
def Operand.Below (n : Nat) (o : Operand) : Prop := ∀ id, o.label? = some id → id < n

/-- The labels of all operands come before the given one. -/
def Codegen.Below (n : Nat) (ks : List Code) : Prop := ∀ k ∈ ks, k.operand.Below n

namespace Operand.Below

variable {t : Target}

theorem mono (h : o.Below n) (hn : n ≤ n') : o.Below n' := fun id hid => (h id hid).trans_le hn

theorem implied : Operand.implied.Below n := by
  rintro _ ⟨⟩

theorem of_label (h : o.label? = some id) (hid : id < n) : o.Below n := by
  intro id' hid'
  rw [h] at hid'
  exact Option.some.inj hid' ▸ hid

end Operand.Below

namespace Codegen

namespace Below

variable {k : Code} {ks' : List Code}

theorem nil : Below n [] := by
  intro k hk
  cases hk

theorem cons (hk : k.operand.Below n) (hks : Below n ks) : Below n (k :: ks) := List.forall_mem_cons.2 ⟨hk, hks⟩

theorem append (h : Below n ks) (h' : Below n ks') : Below n (ks ++ ks') := by
  intro k hk
  exact (List.mem_append.1 hk).elim (h k) (h' k)

theorem single (ho : o.Below n) : Below n [⟨m, o⟩] := cons ho nil

end Below

theorem wide_below (hid : id < n) : (Operand.wide id).Below n := .of_label rfl hid

section

variable {r : Ref} (hl : ∀ name id, cs.label name = .ok id → id < n)

include hl

theorem below_of_names (h : o.Names cs) : o.Below n := by
  intro id hid
  obtain ⟨name, hname⟩ := h id hid
  exact hl name id hname

theorem Sound.below (h : Sound cs ks) : Below n ks := fun k hk => below_of_names hl (h.names k hk)

theorem push_below (h : push cs r = .ok ks) : Below n ks := by
  obtain ⟨f, hf, rfl⟩ := push_code h
  exact (hf.below hl).append (.single .implied)

theorem pull_below (h : pull cs r = .ok ks) : Below n ks := by
  obtain ⟨g, hg, rfl⟩ := pull_code h
  exact .cons .implied (hg.below hl)

omit hl in
theorem forEach_below {f : Ref → Except Fault (List Code)} {rs : List Ref} (hf : ∀ r k, f r = .ok k → Below n k)
    (h : forEach f rs = .ok ks) : Below n ks := by
  induction rs generalizing ks with
  | nil =>
    cases h
    exact .nil
  | cons r rs ih =>
    obtain ⟨k, ks', hk, hks, rfl⟩ := forEach_cons_ok.1 h
    exact (hf r k hk).append (ih hks)

end

end Codegen

/-! ### States -/

/-- All labels that the items refer to are in the table. -/
def Emitter.Closed (e : Emitter) : Prop := ∀ i ∈ e.items.toList, ∀ id ∈ i.labels, id < e.labels.size

theorem Emitter.Closed.codes (h : e.Closed) (hks : Codegen.Below n ks) (hn : n ≤ e.labels.size) : (e.codes ks).Closed := by
  intro i hi id hid
  rw [codes_labels]
  rw [codes_items, List.mem_append, List.mem_map] at hi
  obtain hi | ⟨k, hk, rfl⟩ := hi
  · exact h i hi id hid
  · unfold Code.item Item.labels at hid
    exact (hks k hk id (Option.mem_toList.1 hid)).trans_le hn

theorem Emitter.Closed.of_size (h : e.Closed) (hitems : e'.items = e.items)
    (hsize : e.labels.size ≤ e'.labels.size) : e'.Closed := by
  intro i hi id hid
  exact (h i (hitems ▸ hi) id hid).trans_le hsize

/-- All labels that the code and the trampolines refer to are in the table. -/
structure CodeState.Closed (st : CodeState) : Prop where
  emitter : st.emitter.Closed
  trampolines : ∀ v id, st.trampolines.get? v = some id → id < st.emitter.labels.size

namespace CodeState.Closed

section

variable (h : st.Closed)
include h

theorem withEmitter (he : e.Closed) (hsize : st.emitter.labels.size ≤ e.labels.size) : (st.withEmitter e).Closed :=
  ⟨he, fun v id hv => (h.trampolines v id hv).trans_le hsize⟩

theorem codes (hks : Codegen.Below n ks) (hn : n ≤ st.emitter.labels.size) : (st.codes ks).Closed :=
  h.withEmitter (h.emitter.codes hks hn) (by simp)

theorem newLabel (name : String) : (st.newLabel name).2.Closed := by
  have hsize : st.emitter.labels.size ≤ (st.newLabel name).2.emitter.labels.size := by
    simp [CodeState.newLabel, Emitter.newLabel, CodeState.withEmitter]
  exact h.withEmitter (h.emitter.of_size rfl hsize) hsize

theorem resolve : (st.resolve id).Closed :=
  h.withEmitter (h.emitter.of_size rfl Emitter.size_resolve.ge) Emitter.size_resolve.ge

theorem topped : st.topped.Closed := by
  have hsize : st.emitter.labels.size ≤ st.topped.emitter.labels.size := (Emitter.Adds.ofLabelHere _).size
  exact h.withEmitter (h.emitter.of_size rfl hsize) hsize

omit h in
theorem size_newLabel (st : CodeState) (name : String) :
    (st.newLabel name).2.emitter.labels.size = st.emitter.labels.size + 1 := by
  simp [CodeState.newLabel, Emitter.newLabel, CodeState.withEmitter]

theorem branched : (st.branched m).Closed := by
  refine (h.newLabel "else_label").codes (.single (.of_label rfl (Nat.lt_succ_self _))) ?_
  rw [size_newLabel]

theorem parted : (st.parted id).Closed := by
  refine ((h.newLabel "end_label").codes (.single (wide_below (Nat.lt_succ_self _))) ?_).resolve
  rw [size_newLabel]

theorem trampoline (vector : String) :
    (st.trampoline vector).2.Closed ∧ (st.trampoline vector).1 < (st.trampoline vector).2.emitter.labels.size := by
  cases hget : st.trampolines.get? vector with
  | some id =>
    have hst : st.trampoline vector = (id, st) := by simp only [CodeState.trampoline, hget]
    rw [hst]
    exact ⟨h, h.trampolines vector id hget⟩
  | none =>
    have hst : st.trampoline vector = (st.emitter.labels.size, { (st.newLabel (vector ++ "_trampoline")).2 with
        trampolines := st.trampolines.set vector st.emitter.labels.size }) := by
      simp only [CodeState.trampoline, hget]
      rfl
    have hnew := h.newLabel (vector ++ "_trampoline")
    have hlt : st.emitter.labels.size < (st.newLabel (vector ++ "_trampoline")).2.emitter.labels.size := by
      rw [size_newLabel]
      exact Nat.lt_succ_self _
    rw [hst]
    refine ⟨⟨hnew.emitter, fun v id hv => ?_⟩, hlt⟩
    simp only [Assoc.get?_set] at hv
    split at hv
    · cases hv
      exact hlt
    · exact hnew.trampolines v id hv

end

end CodeState.Closed

section

variable {st' : CodeState} {i : Instr} {op : Op} {src dest p : Ref} {target : String}

theorem Emitter.Closed.wordComparison {low high : Operand} (h : e.Closed) (hn : n ≤ e.labels.size)
    (hid : id < n) (hlow : low.Below n) (hhigh : high.Below n) : (wordComparison e id low high).Closed := by
  let lower : List Code := [⟨.lda, .wide id⟩, ⟨.cmp, low⟩]
  have hsize : (CodeState.codes ⟨e, ⟨[]⟩, ⟨[]⟩⟩ lower).emitter.labels.size = e.labels.size := by
    simp [CodeState.codes, CodeState.withEmitter]
  have hlower : (CodeState.codes ⟨e, ⟨[]⟩, ⟨[]⟩⟩ lower).Closed :=
    CodeState.Closed.codes ⟨h, fun v id hv => by cases hv⟩ (.cons (wide_below hid) (.single hlow)) hn
  have hupper : Below (e.labels.size + 1) [⟨.bne, .relative e.labels.size⟩, ⟨.lda, .wideNext id⟩, ⟨.cmp, high⟩] := by
    refine .cons (.of_label rfl (Nat.lt_succ_self _)) (.cons (.of_label rfl ?_) (.single (hhigh.mono ?_)))
    · exact Nat.lt_succ_of_lt (hid.trans_le hn)
    · exact Nat.le_succ_of_le hn
  have hall := (hlower.newLabel "end_label").codes hupper (by rw [CodeState.Closed.size_newLabel, hsize])
  exact hall.emitter.of_size rfl Emitter.size_resolve.ge

section

variable (hl : ∀ name id, cs.label name = .ok id → id < n)
include hl

theorem single_closed (hn : n ≤ e.labels.size) (he : e.Closed) (h : single cs i e op = .ok e') : e'.Closed := by
  have hemits : Emits cs ⟨#[], ⟨[]⟩, fun _ _ => none⟩ i op e e' := single_emits h
  cases hemits with
  | line hs => exact he.codes (hs.2.below hl) hn
  | word _ _ hid hnames => exact he.wordComparison hn (hl _ _ hid) (below_of_names hl hnames.1) (below_of_names hl hnames.2)
  | nothing => exact he

theorem compare_closed (hn : n ≤ e.labels.size) (he : e.Closed) (h : compare cs i e src dest = .ok e') : e'.Closed := by
  have hs : single cs i e (.cmp dest src) = .ok e' := h
  exact single_closed hl hn he hs

theorem call_closed (hn : n ≤ st.emitter.labels.size) (hst : st.Closed) (h : call cs st target = .ok st') : st'.Closed := by
  simp only [call, bind_eq_ok] at h
  obtain ⟨id, hid, t, -, h⟩ := h
  cases t with
  | routine sig =>
    cases h
    exact hst.codes (.single (wide_below (hl target id hid))) hn
  | vector of =>
    cases h
    obtain ⟨hclosed, hlt⟩ := hst.trampoline target
    exact hclosed.codes (.single (wide_below hlt)) (le_rfl)
  | _ => cases h

end

end

mutual

/-- The code of an instruction refers to labels that are in the table. -/
theorem Instr.compile_closed {cs : CodeSetting} {n : Nat} (hl : ∀ name id, cs.label name = .ok id → id < n) (i : Instr)
    (st st' : CodeState) (hn : n ≤ st.emitter.labels.size) (hst : st.Closed) (h : i.compile cs st = .ok st') : st'.Closed := by
  have htop : st.emitter.labels.size < st.topped.emitter.labels.size := by
    simp [CodeState.topped, CodeState.withEmitter, Emitter.labelHere, Emitter.newLabel]
  cases Instr.compiled h with
  | op he => exact hst.withEmitter (single_closed hl hn hst.emitter he) (single_adds he).size
  | call h => exact call_closed hl hn hst h
  | goto h =>
    obtain ⟨o, ho, rfl⟩ := jump_code h
    exact hst.codes (.single (below_of_names hl (exit_names ho))) hn
  | reset h =>
    obtain ⟨table, ks, -, hs, rfl, -⟩ := reset_code h
    exact hst.codes (hs.2.below hl) hn
  | ifThen yes m st1 _ hy =>
    have hsize := (CodeState.Grows.ofBranched st m).emitter.size
    exact (yes.compile_closed hl _ _ (hn.trans hsize) hst.branched hy).resolve
  | ifElse yes no m st1 _ hy hno =>
    have hgrows := (CodeState.Grows.ofBranched st m).trans (yes.compile_grows _ _ hy)
    have hn1 := hn.trans (CodeState.Grows.ofBranched st m).emitter.size
    have hyes := yes.compile_closed hl _ _ hn1 hst.branched hy
    obtain ⟨-, hno⟩ | ⟨-, st2, hno, rfl⟩ := hno
    · have hsize := (hgrows.resolve (le_rfl)).emitter.size
      exact no.compile_closed hl _ _ (hn.trans hsize) hyes.resolve hno
    · have hsize := (hgrows.ofParted (le_rfl)).emitter.size
      exact (no.compile_closed hl _ _ (hn.trans hsize) hyes.parted hno).resolve
  | forever body st1 hb | loop body _ st1 hb =>
    have hbody := body.compile_closed hl _ _ (hn.trans htop.le) hst.topped hb
    have hlt := htop.trans_le (body.compile_grows _ _ hb).emitter.size
    exact hbody.codes (.single (.of_label rfl hlt)) (le_rfl)
  | count body st1 ks e hb hk _ he =>
    have hbody := body.compile_closed hl _ _ (hn.trans htop.le) hst.topped hb
    have hsize := (body.compile_grows _ _ hb).emitter.size
    have hn1 : n ≤ (st1.codes ks).emitter.labels.size := by
      rw [CodeState.codes, CodeState.withEmitter, Emitter.codes_labels]
      exact hn.trans (htop.le.trans hsize)
    have hstep := hbody.codes ((countStep_sound ks hk).2.below hl) (by simpa [CodeState.codes, CodeState.withEmitter] using hn1)
    have hgrow : (st1.emitter.codes ks).labels.size ≤ e.labels.size := (compare_adds he).size
    have hcompare := hstep.withEmitter (compare_closed hl hn1 hstep.emitter he) hgrow
    have hlt : st.emitter.labels.size < e.labels.size := by
      rw [Emitter.codes_labels] at hgrow
      exact htop.trans_le (hsize.trans hgrow)
    exact hcompare.codes (n := e.labels.size) (.single (.of_label rfl hlt)) (le_rfl)
  | interruptsOff body st1 hb =>
    have hsei : (st.codes [⟨.sei, .implied⟩]).Closed := hst.codes (.single .implied) hn
    have hbody := body.compile_closed hl _ _ (by simpa [CodeState.codes, CodeState.withEmitter] using hn) hsei hb
    exact hbody.codes (.single .implied) (Nat.zero_le _)
  | save body before st1 after hbefore hb hafter =>
    have hpush := hst.codes (forEach_below (fun _ _ => push_below hl) hbefore) hn
    have hn1 : n ≤ (st.codes before).emitter.labels.size := by simpa [CodeState.codes, CodeState.withEmitter] using hn
    have hbody := body.compile_closed hl _ _ hn1 hpush hb
    have hsize := (body.compile_grows _ _ hb).emitter.size
    exact hbody.codes (forEach_below (fun _ _ => pull_below hl) hafter) (hn1.trans hsize)
  | @pointInto _ p t body st1 hb =>
    obtain ⟨he, htr⟩ := body.compile_closed hl { st with pointers := st.pointers.set p.name t.name } _ hn ⟨hst.emitter, hst.trampolines⟩ hb
    exact ⟨he, htr⟩

theorem Block.compile_closed {cs : CodeSetting} {n : Nat} (hl : ∀ name id, cs.label name = .ok id → id < n) :
    (b : Block) → (st st' : CodeState) → n ≤ st.emitter.labels.size → st.Closed → b.compile cs st = .ok st' → st'.Closed
  | .nil l, st, st', hn, hst, h => by
    cases h
    exact hst
  | .cons head tail, st, st', hn, hst, h => by
    obtain ⟨st1, hh, ht⟩ := compile_cons h
    have hhead := head.compile_closed hl _ _ hn hst hh
    exact tail.compile_closed hl _ _ (hn.trans (head.compile_grows _ _ hh).emitter.size) hhead ht

end

end CheckedAsm
