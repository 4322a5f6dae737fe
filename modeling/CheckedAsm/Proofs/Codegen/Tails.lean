import CheckedAsm.Proofs.Codegen.Spans
/-! # How code ends

How the code of a block ends can be read off the block: there is no code, or it ends with an instruction after which
the machine goes on, or with a jump or a call, or with a label that stands after a jump or a call. -/

namespace CheckedAsm

open Codegen List Mnemonic

variable {m : Mnemonic} {cs : CodeSetting} {st st' : CodeState} {ks : List Code}

/-- How code ends. -/
inductive Tail where
  | nothing
  | onward
  | jump
  | label
  deriving DecidableEq

/-- Code after code. -/
def Tail.before (t : Tail) : Tail → Tail
  | .nothing => t
  | u => u

/-- A label after code. -/
def Tail.marked : Tail → Tail
  | .jump => .label
  | t => t

/-- How the code of a single operation ends. -/
def Op.tail : Op → Tail
  | .trash _ => .nothing
  | _ => .onward

mutual

/-- How the code of an instruction ends. -/
def Instr.tail : Instr → Tail
  | .op _ op => op.tail
  | .reset .. | .loop _ (some _) _ _ | .count .. | .interruptsOff .. => .onward
  | .call .. | .goto .. | .loop _ none _ _ => .jump
  | .ifThen _ _ _ yes => (Tail.onward.before yes.tail).marked
  | .ifElse _ _ _ yes no =>
    if yes.hasGoto then (Tail.onward.before yes.tail).marked.before no.tail else (Tail.label.before no.tail).marked
  | .save _ rs body => if rs.isEmpty then body.tail else .onward
  | .pointInto _ _ _ body => body.tail

/-- How the code of a block ends. -/
def Block.tail : Block → Tail
  | .nil _ => .nothing
  | .cons head rest => head.tail.before rest.tail

end

/-- Whether the machine goes elsewhere. -/
def Mnemonic.isTransfer : Mnemonic → Bool
  | jmp | jsr => true
  | _ => false

theorem Mnemonic.isTransfer_of_isBranch (hm : m.isBranch = true) : m.isTransfer = false := by
  cases m <;> first | rfl | cases hm

/-- The code between two states ends in the given way. A label after a jump or a call is one that a branch or a jump
of the code goes to. -/
def Tail.Fits (st st' : CodeState) (ks : List Code) : Tail → Prop
  | .nothing => ks = [] ∧ ∀ id, st.emitter.labels.size ≤ id → (st'.emitter.labels.entry id).addr = none
  | .onward => ∃ k, ks.getLast? = some k ∧ k.mnemonic.isTransfer = false
  | .jump => (∃ k, ks.getLast? = some k ∧ k.mnemonic.isTransfer = true)
    ∧ ∀ id a, st.emitter.labels.size ≤ id → (st'.emitter.labels.entry id).addr = some a → a < st'.emitter.addr
  | .label => (∃ k, ks.getLast? = some k ∧ k.mnemonic.isTransfer = true)
    ∧ ∃ k ∈ ks, ∃ id, ((k.mnemonic.isBranch = true ∧ k.operand = .relative id) ∨ k = ⟨.jmp, .wide id⟩)
      ∧ st.emitter.labels.size ≤ id ∧ (st'.emitter.labels.entry id).addr = some st'.emitter.addr

section

variable {pending : Set LabelId} {st1 st2 : CodeState} {ks' : List Code} {k : Code} {id : LabelId} {t u : Tail}

/-- A label stands before the end of the code or at it. -/
theorem CodeState.Spans.landed_le {a : Int} (h : CodeState.Spans cs pending st st' ks)
    (hid : st.emitter.labels.size ≤ id) (ha : (st'.emitter.labels.entry id).addr = some a) :
    a ≤ st'.emitter.addr := by
  obtain ⟨xs, ys, rfl, rfl⟩ := h.landed id a hid ha
  have hys := Code.room_nonneg ys
  rw [h.adds.addr_eq h.items, Code.room_append]
  omega

theorem Code.room_pos (h : ks ≠ []) : 0 < Code.room ks := by
  cases ks with
  | nil => exact (h rfl).elim
  | cons k ks =>
    have hk := k.size_pos
    have hks := Code.room_nonneg ks
    rw [Code.room_cons]
    omega

theorem getLast?_append_of_some {xs ys : List Code} (h : ys.getLast? = some k) : (xs ++ ys).getLast? = some k := by
  rw [getLast?_append, h]
  rfl

namespace Tail.Fits

/-- Code after code ends as the second does, if there is any. -/
theorem before (hs : CodeState.Spans cs pending st st1 ks) (hs' : CodeState.Spans cs ∅ st1 st2 ks')
    (h : t.Fits st st1 ks) (h' : u.Fits st1 st2 ks') : (t.before u).Fits st st2 (ks ++ ks') := by
  cases u with
  | nothing =>
    obtain ⟨rfl, hnone⟩ := h'
    have haddr : st2.emitter.addr = st1.emitter.addr := by
      rw [hs'.adds.addr_eq hs'.items, Code.room_nil, Int.add_zero]
    -- labels that came with the second code have no address
    have hold : ∀ id a, (st2.emitter.labels.entry id).addr = some a → (st1.emitter.labels.entry id).addr = some a := by
      intro id a ha
      by_cases hlt : id < st1.emitter.labels.size
      · rwa [hs'.adds.kept id hlt] at ha
      · rw [hnone id (Nat.le_of_not_lt hlt)] at ha
        cases ha
    rw [append_nil]
    cases t with
    | nothing =>
      refine ⟨h.1, fun id hid => ?_⟩
      cases ha : (st2.emitter.labels.entry id).addr with
      | none => rfl
      | some a =>
        have hn := h.2 id hid
        rw [hold id a ha] at hn
        cases hn
    | onward => exact h
    | jump => exact ⟨h.1, fun id a hid ha => haddr ▸ h.2 id a hid (hold id a ha)⟩
    | label =>
      obtain ⟨hlast, k, hk, id, ho, hid, ha⟩ := h
      exact ⟨hlast, k, hk, id, ho, hid, haddr ▸ hs'.adds.addr_kept ha⟩
  | onward =>
    obtain ⟨k, hk, hm⟩ := h'
    exact ⟨k, getLast?_append_of_some hk, hm⟩
  | jump =>
    obtain ⟨⟨k, hk, hm⟩, hbefore⟩ := h'
    refine ⟨⟨k, getLast?_append_of_some hk, hm⟩, fun id a hid ha => ?_⟩
    by_cases hlt : id < st1.emitter.labels.size
    · rw [hs'.adds.kept id hlt] at ha
      have hle := hs.landed_le hid ha
      have hpos : 0 < Code.room ks' := Code.room_pos fun h => by simp [h] at hk
      rw [hs'.adds.addr_eq hs'.items]
      omega
    · exact hbefore id a (Nat.le_of_not_lt hlt) ha
  | label =>
    obtain ⟨⟨k, hk, hm⟩, d, hd, id, ho, hid, ha⟩ := h'
    exact ⟨⟨k, getLast?_append_of_some hk, hm⟩, d, mem_append_right _ hd, id, ho, hs.adds.size.trans hid, ha⟩

/-- A label that an instruction of the code goes to is put after the code. -/
theorem marked (hs : CodeState.Spans cs (insert id pending) st st1 ks) (h : t.Fits st st1 ks) (ht : t ≠ .nothing)
    (hid : st.emitter.labels.size ≤ id) (hk : k ∈ ks)
    (ho : (k.mnemonic.isBranch = true ∧ k.operand = .relative id) ∨ k = ⟨.jmp, .wide id⟩) :
    t.marked.Fits st (st1.resolve id) ks := by
  have hself : ((st1.resolve id).emitter.labels.entry id).addr = some st1.emitter.addr :=
    Emitter.entry_resolve (hs.pending_lt id (Set.mem_insert _ _))
  cases t with
  | nothing => exact (ht rfl).elim
  | onward => exact h
  | jump => exact ⟨h.1, k, hk, id, ho, hid, hself⟩
  | label => exact ⟨h.1, k, hk, id, ho, hid, hself⟩

theorem onward_snoc (hk : k.mnemonic.isTransfer = false) : Tail.onward.Fits st st' (ks ++ [k]) :=
  ⟨k, by simp, hk⟩

/-- The label of a branch stands after the jump over what follows. -/
theorem parted {n : LabelId} (hs : CodeState.Spans cs (insert n ∅) st st1 ks) (hn : st.emitter.labels.size ≤ n)
    (hk : k ∈ ks) (ho : k.mnemonic.isBranch = true ∧ k.operand = .relative n) :
    Tail.label.Fits st (st1.parted n) (ks ++ [⟨.jmp, .wide st1.emitter.labels.size⟩]) := by
  refine ⟨⟨_, getLast?_concat, rfl⟩, k, mem_append_left _ hk, n, .inl ho, hn, Emitter.entry_resolve ?_⟩
  exact (hs.newLabel "end_label").pending_lt n (.inr (Set.mem_insert _ _))

/-- After one more instruction no label stands at the end. -/
theorem jump_snoc (hs : CodeState.Spans cs pending st st1 ks) (hk : k.mnemonic.isTransfer = true) :
    Tail.jump.Fits st (st1.codes [k]) (ks ++ [k]) := by
  refine ⟨⟨k, by simp, hk⟩, fun id a hid ha => ?_⟩
  simp only [CodeState.codes, CodeState.withEmitter, Emitter.codes_labels] at ha
  have hle := hs.landed_le hid ha
  have hpos := k.size_pos
  have haddr : (st1.codes [k]).emitter.addr = st1.emitter.addr + Code.room [k] := Emitter.codes_addr _ _
  rw [haddr, Code.room_cons, Code.room_nil]
  omega

theorem onward_straight (hs : Code.Straight ks) (hne : ks ≠ []) : Tail.onward.Fits st st' ks := by
  obtain ⟨k, hk⟩ := Option.ne_none_iff_exists'.1 (mt getLast?_eq_none_iff.1 hne)
  refine ⟨k, hk, ?_⟩
  have hplain := hs k (mem_of_getLast? hk)
  cases hm : k.mnemonic <;> rw [hm] at hplain <;> first | rfl | cases hplain

theorem withPointers {ps ps' : Assoc String String} (h : t.Fits { st with pointers := ps } st1 ks) :
    t.Fits st { st1 with pointers := ps' } ks := by
  cases t <;> exact h

end Tail.Fits

theorem Tail.before_ne_nothing (ht : t ≠ .nothing) : t.before u ≠ .nothing := by
  cases u <;> first | exact ht | simp [Tail.before]

end

/-! ### Single operations -/

namespace Codegen

section

variable {ls : Labels} {i : Instr} {src dest : Ref} {op : Op} {e : Emitter}

theorem wordComparison_spans (st : CodeState) (id : LabelId) (low high : Operand) :
    CodeState.Spans cs ∅ st (st.withEmitter (wordComparison st.emitter id low high))
      [⟨.lda, .wide id⟩, ⟨.cmp, low⟩, ⟨.bne, .relative st.emitter.labels.size⟩, ⟨.lda, .wideNext id⟩, ⟨.cmp, high⟩] := by
  let lower : List Code := [⟨.lda, .wide id⟩, ⟨.cmp, low⟩]
  let upper : List Code := [⟨.lda, .wideNext id⟩, ⟨.cmp, high⟩]
  have hlower : Code.Straight lower := by simp [lower, Code.Straight, Mnemonic.isPlain]
  have hupper : Code.Straight upper := by simp [upper, Code.Straight, Mnemonic.isPlain]
  have hsize : (st.codes lower).emitter.labels.size = st.emitter.labels.size := by
    simp [CodeState.codes, CodeState.withEmitter]
  have hbranch := (((CodeState.Spans.refl st : CodeState.Spans cs ∅ st st []).straight hlower).newLabel "end_label").snoc
    (.ofBranch (m := .bne) rfl (le_rfl) (.inl (.inl hsize.symm)))
  exact (hbranch.straight hupper).resolve hsize.ge

theorem Sound.spans (hs : ks ≠ [] ∧ Sound cs ks) :
    ∃ ks', CodeState.Spans cs ∅ st (st.codes ks) ks' ∧ Tail.onward.Fits st (st.codes ks) ks' :=
  ⟨ks, (CodeState.Spans.refl st).straight hs.2.level.straight, .onward_straight hs.2.level.straight hs.1⟩

theorem Op.tail_of_ne (h : ¬ ∃ r, op = .trash r) : op.tail = .onward := by
  cases op with
  | trash r => exact (h ⟨r, rfl⟩).elim
  | _ => rfl

theorem single_spans (h : single cs i st.emitter op = .ok e) :
    ∃ ks, CodeState.Spans cs ∅ st (st.withEmitter e) ks ∧ op.tail.Fits st (st.withEmitter e) ks := by
  have hemits : Emits cs ⟨#[], ⟨[]⟩, fun _ _ => none⟩ i op st.emitter e := single_emits h
  cases hemits with
  | line hs _ _ _ hop =>
    rw [Op.tail_of_ne hop]
    exact Sound.spans hs
  | word hop =>
    subst hop
    exact ⟨_, wordComparison_spans st _ _ _, _, rfl, rfl⟩
  | nothing hop =>
    subst hop
    exact ⟨[], .refl st, rfl, fun id hid => by rw [CodeState.withEmitter, Labels.entry_of_size_le hid]⟩

theorem compare_spans (h : compare cs i st.emitter src dest = .ok e) :
    ∃ ks, CodeState.Spans cs ∅ st (st.withEmitter e) ks ∧ Tail.onward.Fits st (st.withEmitter e) ks := by
  have hs : single cs i st.emitter (.cmp dest src) = .ok e := h
  exact single_spans hs

end

end Codegen

theorem Op.tail_settled (op : Op) : op.settled.tail = op.tail := by
  cases op <;> rfl

/-! ### All instructions -/

section

variable {target : String} {rs : List Ref}

theorem call_spans (h : call cs st target = .ok st') :
    ∃ ks, CodeState.Spans cs ∅ st st' ks ∧ Tail.jump.Fits st st' ks := by
  simp only [call, bind_eq_ok] at h
  obtain ⟨id, hid, t, ht, h⟩ := h
  have hrefl : CodeState.Spans cs ∅ st st [] := .refl st
  cases t with
  | routine sig =>
    rw [pure_eq_ok] at h
    subst h
    have hentry : cs.entry st.trampolines target = some (.wide id) := by simp [CodeSetting.entry, hid, ht]
    exact ⟨_, hrefl.snoc (.ofEntry hentry), .jump_snoc hrefl rfl⟩
  | vector of =>
    rw [pure_eq_ok] at h
    subst h
    have hentry : cs.entry (st.trampoline target).2.trampolines target = some (.wide (st.trampoline target).1) := by
      simp [CodeSetting.entry, hid, ht, (trampoline_grows st target).2]
    have htr : CodeState.Spans cs ∅ st (st.trampoline target).2 [] := .ofTrampoline st target
    exact ⟨_, htr.snoc (.ofEntry hentry), .jump_snoc htr rfl⟩
  | _ => cases h

theorem jump_spans (h : jump cs st target = .ok st') :
    ∃ ks, CodeState.Spans cs ∅ st st' ks ∧ Tail.jump.Fits st st' ks := by
  obtain ⟨o, ho, rfl⟩ := jump_code h
  have hrefl : CodeState.Spans cs ∅ st st [] := .refl st
  exact ⟨_, hrefl.snoc (.ofExit ho), .jump_snoc hrefl rfl⟩

theorem reset_spans {p : Ref} {offset : Const} (h : reset cs st p offset = .ok st') :
    ∃ ks, CodeState.Spans cs ∅ st st' ks ∧ Tail.onward.Fits st st' ks := by
  obtain ⟨table, ks, -, hs, rfl, -⟩ := reset_code h
  exact Sound.spans hs

/-- What takes bytes back is code, unless there is nothing to take back. -/
theorem forEach_pull_ne_nil (h : forEach (pull cs) rs = .ok ks) (hne : rs ≠ []) : ks ≠ [] := by
  obtain ⟨r, rs, rfl⟩ := exists_cons_of_ne_nil hne
  obtain ⟨k, ks', hk, -, rfl⟩ := forEach_cons_ok.1 h
  obtain ⟨g, -, rfl⟩ := pull_code hk
  exact cons_ne_nil _ _

end

mutual

/-- The code of an instruction ends as the instruction says. -/
theorem Instr.spans {cs : CodeSetting} (i : Instr) (st st' : CodeState) (h : i.compile cs st = .ok st') :
    ∃ ks, CodeState.Spans cs ∅ st st' ks ∧ i.tail.Fits st st' ks := by
  cases Instr.compiled h with
  | op he =>
    obtain ⟨ks, hs, hf⟩ := single_spans he
    rw [Op.tail_settled] at hf
    exact ⟨ks, hs, hf⟩
  | call h => exact call_spans h
  | goto h => exact jump_spans h
  | reset h => exact reset_spans h
  | ifThen yes m st1 hm hy =>
    have hbranch := isBranch_of_branch hm
    obtain ⟨ks, hs, hf⟩ := yes.spans _ _ hy
    have hb : CodeState.Spans cs _ st (st.branched m) _ := .ofBranched st hbranch
    have hfirst : Tail.onward.Fits st (st.branched m) [⟨m, .relative st.emitter.labels.size⟩] :=
      ⟨_, rfl, isTransfer_of_isBranch hbranch⟩
    have hyes := hb.append hs
    refine ⟨_, hyes.resolve (le_rfl), ?_⟩
    exact .marked hyes (.before hb hs hfirst hf) (Tail.before_ne_nothing (by simp)) (le_rfl) mem_cons_self
      (.inl ⟨hbranch, rfl⟩)
  | ifElse yes no m st1 hm hy hn =>
    have hbranch := isBranch_of_branch hm
    obtain ⟨ks, hs, hf⟩ := yes.spans _ _ hy
    have hb : CodeState.Spans cs _ st (st.branched m) _ := .ofBranched st hbranch
    have hfirst : Tail.onward.Fits st (st.branched m) [⟨m, .relative st.emitter.labels.size⟩] :=
      ⟨_, rfl, isTransfer_of_isBranch hbranch⟩
    have hyes := hb.append hs
    unfold Instr.tail
    obtain ⟨hgoto, hn⟩ | ⟨hgoto, st2, hn, rfl⟩ := hn
    · obtain ⟨ks', hs', hf'⟩ := no.spans _ _ hn
      have hmarked := hyes.resolve (le_rfl)
      rw [if_pos hgoto]
      have hfits := Tail.Fits.marked hyes (.before hb hs hfirst hf) (Tail.before_ne_nothing (by simp)) (le_rfl)
        mem_cons_self (.inl ⟨hbranch, rfl⟩)
      exact ⟨_, hmarked.append hs', .before hmarked hs' hfits hf'⟩
    · obtain ⟨ks', hs', hf'⟩ := no.spans _ _ hn
      have hparted := hyes.parted (le_rfl)
      have hboth := hparted.append hs'
      have hfits := Tail.Fits.parted hyes (le_rfl) mem_cons_self ⟨hbranch, rfl⟩
      rw [hgoto, if_neg (by simp)]
      refine ⟨_, hboth.resolve hyes.adds.size, ?_⟩
      exact .marked hboth (.before hparted hs' hfits hf') (Tail.before_ne_nothing (by simp)) hyes.adds.size (by simp) (.inr rfl)
  | forever body st1 hb =>
    obtain ⟨ks, hs, -⟩ := body.spans _ _ hb
    have hall := (CodeState.Spans.ofTopped st).append hs
    have htop := hs.adds.addr_kept CodeState.topped_entry
    exact ⟨_, hall.snoc (.ofJump (le_rfl) (.inr (by rw [htop]; rfl))), .jump_snoc hall rfl⟩
  | loop body m st1 hb hm =>
    obtain ⟨ks, hs, -⟩ := body.spans _ _ hb
    have hbranch := isBranch_of_branch hm
    have hall := (CodeState.Spans.ofTopped st).append hs
    have htop := hs.adds.addr_kept CodeState.topped_entry
    exact ⟨_, hall.snoc (.ofBranch hbranch (le_rfl) (.inr (by rw [htop]; rfl))), .onward_snoc (isTransfer_of_isBranch hbranch)⟩
  | count body st1 ks e hb hk _ he =>
    obtain ⟨ks1, hs1, -⟩ := body.spans _ _ hb
    obtain ⟨ks2, hs2, -⟩ : ∃ ks2, CodeState.Spans cs ∅ (st1.codes ks) (st1.withEmitter e) ks2 ∧ _ := compare_spans he
    have hround := (hs1.straight (countStep_sound ks hk).2.level.straight).append hs2
    have htop := hround.adds.addr_kept CodeState.topped_entry
    have hall := (CodeState.Spans.ofTopped st).append hround
    exact ⟨_, hall.snoc (.ofBranch rfl (le_rfl) (.inr (by rw [htop]; rfl))), .onward_snoc rfl⟩
  | interruptsOff body st1 hb =>
    obtain ⟨ks, hs, -⟩ := body.spans _ _ hb
    have hsei : CodeState.Spans cs ∅ st (st.codes [⟨.sei, .implied⟩]) _ := (CodeState.Spans.refl st).snoc (.ofPlain rfl)
    exact ⟨_, (hsei.append hs).snoc (.ofPlain rfl), .onward_snoc rfl⟩
  | @save _ rs body before st1 after hbefore hb hafter =>
    obtain ⟨ks, hs, hf⟩ := body.spans _ _ hb
    have hpush : CodeState.Spans cs ∅ st (st.codes before) _ :=
      (CodeState.Spans.refl st).straight (forEach_straight (fun _ _ => push_straight) hbefore)
    have hpull := forEach_straight (fun _ _ => pull_straight) hafter
    refine ⟨_, (hpush.append hs).straight hpull, ?_⟩
    unfold Instr.tail
    cases rs with
    | nil =>
      cases hbefore
      cases hafter
      change body.tail.Fits st st1 (ks ++ [])
      rw [append_nil]
      exact hf
    | cons r rs =>
      have hne := forEach_pull_ne_nil hafter (by simp)
      obtain ⟨k, hk, hm⟩ : Tail.onward.Fits st st after := .onward_straight hpull hne
      exact ⟨k, getLast?_append_of_some hk, hm⟩
  | pointInto body st1 hb =>
    obtain ⟨ks, hs, hf⟩ := body.spans _ _ hb
    exact ⟨ks, hs.withPointers, hf.withPointers⟩

/-- The code of a block ends as the block says. -/
theorem Block.spans {cs : CodeSetting} : (b : Block) → (st st' : CodeState) → b.compile cs st = .ok st' →
    ∃ ks, CodeState.Spans cs ∅ st st' ks ∧ b.tail.Fits st st' ks
  | .nil l, st, st', h => by
    cases h
    exact ⟨[], .refl st, rfl, fun id hid => by rw [Labels.entry_of_size_le hid]⟩
  | .cons head rest, st, st', h => by
    obtain ⟨st1, hh, ht⟩ := compile_cons h
    obtain ⟨ks, hs, hf⟩ := head.spans _ _ hh
    obtain ⟨ks', hs', hf'⟩ := rest.spans _ _ ht
    exact ⟨ks ++ ks', hs.append hs', .before hs hs' hf hf'⟩

end

end CheckedAsm
