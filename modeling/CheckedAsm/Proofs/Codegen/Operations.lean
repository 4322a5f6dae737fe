import CheckedAsm.Proofs.Codegen.Emission
import CheckedAsm.Proofs.Machine.Frame
import CheckedAsm.Proofs.Machine.Meaning
import CheckedAsm.Proofs.Machine.Serial
/-! # Code for single operations

Single operations become straight-line code, but for the comparison of words, which looks at the upper
bytes only where the lower ones agree. -/

namespace CheckedAsm

variable {cs : CodeSetting} {ls : Labels} {k : Code} {x y : Except Fault (List Code)} {f g : LabelId → Operand}
  {mode : Target → Operand} {pointers : Bool} {T : Text} {h : Host} {e : Emitter}

namespace Operand

/-- The operand with its address in two bytes. -/
def widened : Operand → Operand
  | zeroPage t => absolute t
  | o => o

theorem widened_direct (ls : Labels) (id : LabelId) : (direct ls id).widened = wide id := by
  unfold direct
  split
  · split <;> rfl
  · rfl

/-- The operand mentions no label but that of a name. -/
def Names (cs : CodeSetting) (o : Operand) : Prop := ∀ id, o.label? = some id → ∃ name, cs.label name = .ok id

theorem Names.of_none {o : Operand} (h : o.label? = none) : o.Names cs := by
  rintro id hid
  cases h.symm.trans hid

theorem Names.of_label {o : Operand} {name : String} {id : LabelId} (hid : cs.label name = .ok id)
    (h : o.label? = some id) : o.Names cs := by
  intro id' hid'
  cases h.symm.trans hid'
  exact ⟨name, hid⟩

end Operand

namespace Code

/-- The instruction with its address in two bytes. -/
def widened (k : Code) : Code := ⟨k.mnemonic, k.operand.widened⟩

theorem exec_widened (ls : Labels) (σ : Cpu) (k : Code) : k.widened.exec ls σ = k.exec ls σ := by
  obtain ⟨m, o⟩ := k
  cases o <;> rfl

/-- Instructions that differ only in the width of their addresses do the same. -/
theorem execAll_congr {ks ks' : List Code}
    (hk : ks.map widened = ks'.map widened) (σ : Cpu) : execAll ls ks σ = execAll ls ks' σ := by
  have hw : ∀ ks : List Code, execAll ls (ks.map widened) σ = execAll ls ks σ := by
    intro ks
    simp only [execAll, List.foldl_map, exec_widened]
  rw [← hw ks, hk, hw ks']

/-- After each of the instructions the machine goes on with the next. -/
def Straight (ks : List Code) : Prop := ∀ k ∈ ks, k.mnemonic.isPlain

theorem Straight.append {ks ks' : List Code} (h : Straight ks) (h' : Straight ks') :
    Straight (ks ++ ks') := by
  intro k hk
  rcases List.mem_append.1 hk with hk | hk
  · exact h k hk
  · exact h' k hk

theorem Straight.single (h : k.mnemonic.isPlain) : Straight [k] := by
  simpa [Straight] using h

end Code

/-- Whether the machine goes on with the next instruction, and the stack and the interrupts are as they were. -/
def Mnemonic.isLevel (m : Mnemonic) : Bool := m.isPlain && m.sparesSystem

namespace Code

/-- After each of the instructions the machine goes on with the next, and none of them changes the stack or the
interrupts. -/
def Level (ks : List Code) : Prop := ∀ k ∈ ks, k.mnemonic.isLevel

theorem Level.straight {ks : List Code} (h : Level ks) : Straight ks :=
  fun k hk => (Bool.and_eq_true_iff.1 (h k hk)).1

theorem Level.append {ks ks' : List Code} (h : Level ks) (h' : Level ks') : Level (ks ++ ks') :=
  List.forall_mem_append.2 ⟨h, h'⟩

theorem Level.single (h : k.mnemonic.isLevel) : Level [k] := by
  simpa [Level] using h

end Code

namespace Codegen

open Code

variable {ls' : Labels} {i : Instr} {m : Mnemonic} {src dest r : Ref} {ks : List Code}

/-! ### Operands -/

/-- Wherever one table of labels gives an operand, it mentions no label but that of a name, and another table gives the same up to
the width. -/
def Matches (cs : CodeSetting) (x y : Except Fault Operand) : Prop :=
  ∀ o, x = .ok o → o.Names cs ∧ ∃ o', y = .ok o' ∧ o'.widened = o.widened

theorem Matches.same {x : Except Fault Operand} (hx : ∀ o, x = .ok o → o.Names cs) : Matches cs x x :=
  fun o ho => ⟨hx o ho, o, ho, rfl⟩

theorem Matches.label (hf : ∀ id, (f id).label? = some id) (hg : ∀ id, (g id).widened = (f id).widened) :
    Matches cs (cs.labelOf r >>= fun id => pure (f id)) (cs.labelOf r >>= fun id => pure (g id)) := by
  intro o ho
  simp only [bind_eq_ok, pure_eq_ok] at ho
  obtain ⟨id, hid, rfl⟩ := ho
  exact ⟨.of_label hid (hf id), g id, by rw [hid]; rfl, hg id⟩

theorem ofInt_names {n : Int} (o : Operand) (h : Operand.ofInt n = .ok o) : o.Names cs := by
  obtain ⟨b, -, rfl⟩ := map_eq_ok.1 h
  exact .of_none rfl

theorem direct_label (ls : Labels) (id : LabelId) : (Operand.direct ls id).label? = some id := by
  unfold Operand.direct
  split
  · split <;> rfl
  · rfl

theorem direct_matches : Matches cs (direct cs ls r) (direct cs ls' r) :=
  .label (direct_label ls) fun _ => by rw [Operand.widened_direct, Operand.widened_direct]

section

variable {base offset index : Ref} {id : LabelId} {o : Operand}

theorem cell_names (hmode : ∀ t, (mode t).label? = some t.id) (o : Operand)
    (h : cell cs mode base offset = .ok o) : o.Names cs := by
  simp only [cell, bind_eq_ok, pure_eq_ok] at h
  obtain ⟨id, hid, d, -, rfl⟩ := h
  exact .of_label hid (hmode _)

theorem indexMode_label (h : indexMode index = .ok mode) (t : Target) : (mode t).label? = some t.id := by
  unfold indexMode at h
  split at h
  · cases h
    rfl
  · split at h <;> cases h
    rfl

theorem cellBy_names (o : Operand) (h : cellBy cs base offset index = .ok o) : o.Names cs := by
  obtain ⟨mode, hmode, h⟩ := bind_eq_ok.1 h
  exact cell_names (indexMode_label hmode) o h

theorem cellBytes_names {o : Operand × Operand} (hid : cs.labelOf base = .ok id) (h : cellBytes id offset index = .ok o) :
    o.1.Names cs ∧ o.2.Names cs := by
  simp only [cellBytes, bind_eq_ok, pure_eq_ok] at h
  obtain ⟨mode, hmode, d, -, rfl⟩ := h
  exact ⟨.of_label hid (indexMode_label hmode _), .of_label hid (indexMode_label hmode _)⟩

theorem sourceBytes_names {o : Operand × Operand} (h : sourceBytes cs i src = .ok o) : o.1.Names cs ∧ o.2.Names cs := by
  unfold sourceBytes at h
  split at h
  · cases h
    exact ⟨.of_none rfl, .of_none rfl⟩
  · obtain ⟨id, hid, h⟩ := bind_eq_ok.1 h
    cases h
    exact ⟨.of_label hid rfl, .of_label hid rfl⟩
  · cases h

end

/-- The cell behind a pointer, or a location where there is no pointer. -/
theorem behind_matches {base : Ref} : Matches cs
    (cs.typeOf base >>= fun t => if t.isPointer then cs.labelOf base >>= fun id => pure (.indirectY (.label id)) else direct cs ls r)
    (cs.typeOf base >>= fun t => if t.isPointer then cs.labelOf base >>= fun id => pure (.indirectY (.label id))
      else direct cs ls' r) := by
  cases cs.typeOf base with
  | error f => rintro _ ⟨⟩
  | ok t =>
    show Matches cs (if t.isPointer then _ else _) (if t.isPointer then _ else _)
    split
    · exact .label (fun _ => rfl) fun _ => rfl
    · exact direct_matches

theorem accSource_matches : Matches cs (accSource cs ls src) (accSource cs ls' src) := by
  unfold accSource
  split
  · exact .same ofInt_names
  · split
    · exact .same (cell_names fun _ => rfl)
    · split
      · exact .same (cell_names fun _ => rfl)
      · exact direct_matches
  · exact behind_matches
  · exact direct_matches

theorem indexSource_matches {other : Ref} (hmode : ∀ t, (mode t).label? = some t.id) :
    Matches cs (indexSource cs ls other mode src) (indexSource cs ls' other mode src) := by
  unfold indexSource
  split
  · exact .same ofInt_names
  · split
    · exact .same (cell_names hmode)
    · exact direct_matches
  · exact direct_matches

theorem storeTarget_matches : Matches cs (storeTarget cs ls dest) (storeTarget cs ls' dest) := by
  unfold storeTarget
  split
  · refine .same fun o h => ?_
    split at h
    · exact cell_names (fun _ => rfl) o h
    · split at h
      · exact cell_names (fun _ => rfl) o h
      · cases h
  · exact behind_matches
  · exact direct_matches

theorem accOperand_matches (hf : ∀ id, (f id).label? = some id)
    (hg : ∀ id, (g id).widened = (f id).widened) : Matches cs (accOperand cs f src) (accOperand cs g src) := by
  unfold accOperand
  split
  · exact .same ofInt_names
  · exact .same cellBy_names
  · exact .label hf hg

theorem accOperand_names (o : Operand) (h : accOperand cs .wide src = .ok o) : o.Names cs :=
  (accOperand_matches (fun _ => rfl) (fun _ => rfl) o h).1

/-! ### Straight-line code -/

/-- Instructions after each of which the machine goes on with the next. None of them changes the stack or the interrupts, and none
mentions a label but that of a name. -/
structure Sound (cs : CodeSetting) (ks : List Code) : Prop where
  level : Level ks
  names : ∀ k ∈ ks, k.operand.Names cs

namespace Sound

variable {o d s : Operand} {p q : Operand × Operand}

theorem nil : Sound cs [] := ⟨by simp [Level], by simp⟩

theorem cons (hm : k.mnemonic.isLevel) (ho : k.operand.Names cs) (h : Sound cs ks) : Sound cs (k :: ks) :=
  ⟨List.forall_mem_cons.2 ⟨hm, h.level⟩, List.forall_mem_cons.2 ⟨ho, h.names⟩⟩

theorem single (hm : m.isLevel) (ho : o.Names cs) : Sound cs [⟨m, o⟩] := cons hm ho nil

theorem append {ks' : List Code} (h : Sound cs ks) (h' : Sound cs ks') : Sound cs (ks ++ ks') :=
  ⟨h.level.append h'.level, List.forall_mem_append.2 ⟨h.names, h'.names⟩⟩

theorem sumByte (hm : m.isLevel) (hd : d.Names cs) (hs : s.Names cs) : Sound cs (sumByte m d s) :=
  cons rfl hd (cons hm hs (single rfl hd))

theorem move (hs : s.Names cs) (hd : d.Names cs) : Sound cs (move s d) := cons rfl hs (single rfl hd)

theorem moveBoth (hs : p.1.Names cs ∧ p.2.Names cs) (hd : q.1.Names cs ∧ q.2.Names cs) : Sound cs (moveBoth p q) :=
  (move hs.1 hd.1).append (move hs.2 hd.2)

end Sound

/-- Wherever one table of labels gives code, it is sound and not empty, and another gives the same up to widths. -/
def Alike (cs : CodeSetting) (x y : Except Fault (List Code)) : Prop :=
  ∀ ks, x = .ok ks → (ks ≠ [] ∧ Sound cs ks) ∧ ∃ ks', y = .ok ks' ∧ ks'.map widened = ks.map widened

theorem Alike.same (hx : ∀ ks, x = .ok ks → ks ≠ [] ∧ Sound cs ks) : Alike cs x x :=
  fun ks hk => ⟨hx ks hk, ks, hk, rfl⟩

theorem Alike.implied (hm : m.isLevel) : Alike cs (pure [⟨m, .implied⟩]) (pure [⟨m, .implied⟩]) := by
  refine .same ?_
  rintro _ ⟨⟩
  exact ⟨by simp, .single hm (.of_none rfl)⟩

theorem Alike.error {f : Fault} : Alike cs (.error f) y := by
  rintro _ ⟨⟩

/-- One instruction on operands that match. -/
theorem Alike.of_matches {x y : Except Fault Operand} (hm : m.isLevel) (hxy : Matches cs x y) :
    Alike cs (x >>= fun o => pure [⟨m, o⟩]) (y >>= fun o => pure [⟨m, o⟩]) := by
  intro ks hk
  simp only [bind_eq_ok, pure_eq_ok] at hk
  obtain ⟨o, ho, rfl⟩ := hk
  obtain ⟨hnames, o', rfl, hw⟩ := hxy o ho
  exact ⟨⟨by simp, .single hm hnames⟩, [⟨m, o'⟩], rfl, by simp [widened, hw]⟩

theorem load_alike : Alike cs (load cs ls i dest src) (load cs ls' i dest src) := by
  unfold load
  split
  · split
    · exact .implied rfl
    · split
      · exact .implied rfl
      · exact .of_matches rfl accSource_matches
  · split
    · split
      · exact .implied rfl
      · exact .of_matches rfl (indexSource_matches fun _ => rfl)
    · split
      · split
        · exact .implied rfl
        · exact .of_matches rfl (indexSource_matches fun _ => rfl)
      · exact .error

theorem storeMnemonic?_cases (hm : storeMnemonic? r = some m) : m = .sta ∨ m = .stx ∨ m = .sty := by
  unfold storeMnemonic? at hm
  split at hm
  · cases hm
    simp
  · split at hm
    · cases hm
      simp
    · split at hm <;> cases hm
      simp

theorem store_alike : Alike cs (store cs ls i src dest) (store cs ls' i src dest) := by
  unfold store
  split
  · exact .implied rfl
  · split
    · exact .implied rfl
    · cases hm : storeMnemonic? src with
      | none =>
        intro ks hk
        obtain ⟨_, -, ⟨⟩⟩ := bind_eq_ok.1 hk
      | some m =>
        refine .of_matches ?_ storeTarget_matches
        obtain rfl | rfl | rfl := storeMnemonic?_cases hm <;> rfl

theorem bitwise_alike (hm : m.isLevel) : Alike cs (bitwise cs ls i m dest src) (bitwise cs ls' i m dest src) := by
  unfold bitwise
  split
  · exact .of_matches hm (accOperand_matches (direct_label ls) fun _ => by rw [Operand.widened_direct, Operand.widened_direct])
  · exact .error

theorem shift_alike (hm : m.isLevel) : Alike cs (shift cs ls m dest) (shift cs ls' m dest) := by
  unfold shift
  split
  · exact .implied hm
  · split
    · exact .of_matches hm (.same cellBy_names)
    · exact .of_matches hm direct_matches

theorem isLevel_of_compareMnemonic? (hm : compareMnemonic? r = some m) : m.isLevel := by
  unfold compareMnemonic? at hm
  split at hm
  · cases hm; rfl
  · cases hm; rfl
  · cases hm; rfl
  · cases hm

/-- How the code of a sum is put together, by its destination. -/
inductive SumTo (cs : CodeSetting) (i : Instr) (m : Mnemonic) (src : Ref) : Ref → List Code → Prop
  | accumulator {o} : accOperand cs .wide src = .ok o → SumTo cs i m src .a [⟨m, o⟩]
  | byte {dest s id} : dest ≠ .a → cs.typeOf src = .ok .byte → cs.typeOf dest = .ok .byte → sourceBytes cs i src = .ok s →
      cs.labelOf dest = .ok id → SumTo cs i m src dest (sumByte m (.wide id) s.1)
  | word {dest s id} : dest ≠ .a → cs.typeOf src = .ok .word → cs.typeOf dest = .ok .word → sourceBytes cs i src = .ok s →
      cs.labelOf dest = .ok id → SumTo cs i m src dest (sumByte m (.wide id) s.1 ++ sumByte m (.wideNext id) s.2)
  | pointer {dest s id} : dest ≠ .a → cs.typeOf src = .ok .word → cs.typeOf dest = .ok .pointer → sourceBytes cs i src = .ok s →
      cs.labelOf dest = .ok id → SumTo cs i m src dest (sumByte m (.page id) s.1 ++ sumByte m (.pageNext id) s.2)

theorem sum_to (h : sum cs i m pointers dest src = .ok ks) : SumTo cs i m src dest ks := by
  unfold sum at h
  split at h
  · cases h
  split at h
  case isTrue ha =>
    simp only [bind_eq_ok, pure_eq_ok] at h
    obtain ⟨o, ho, rfl⟩ := h
    exact ha ▸ .accumulator ho
  case isFalse ha =>
    split at h
    case h_2 => cases h
    simp only [sumLocation, bind_eq_ok] at h
    obtain ⟨t, ht, u, hu, h⟩ := h
    split at h
    case isTrue htu =>
      simp only [bind_eq_ok, pure_eq_ok] at h
      obtain ⟨s, hs, id, hid, rfl⟩ := h
      exact .byte ha (htu.1 ▸ ht) (htu.2 ▸ hu) hs hid
    split at h
    case isTrue htu =>
      simp only [bind_eq_ok, pure_eq_ok] at h
      obtain ⟨s, hs, id, hid, rfl⟩ := h
      exact .word ha (htu.1 ▸ ht) (htu.2 ▸ hu) hs hid
    split at h
    case isTrue htu =>
      simp only [bind_eq_ok, pure_eq_ok] at h
      obtain ⟨s, hs, id, hid, rfl⟩ := h
      exact .pointer ha (htu.1 ▸ ht) (htu.2.1 ▸ hu) hs hid
    case isFalse => cases h

theorem sum_sound (hm : m.isLevel) (ks : List Code) (h : sum cs i m pointers dest src = .ok ks) : ks ≠ [] ∧ Sound cs ks := by
  cases sum_to h with
  | accumulator ho => exact ⟨by simp, .single hm (accOperand_names _ ho)⟩
  | byte _ _ _ hs hid => exact ⟨by simp [sumByte], .sumByte hm (.of_label hid rfl) (sourceBytes_names hs).1⟩
  | word _ _ _ hs hid | pointer _ _ _ hs hid =>
    obtain ⟨hlow, hhigh⟩ := sourceBytes_names hs
    exact ⟨by simp [sumByte], (Sound.sumByte hm (.of_label hid rfl) hlow).append (.sumByte hm (.of_label hid rfl) hhigh)⟩

theorem count_alike {onX onY other : Mnemonic} (hx : onX.isLevel) (hy : onY.isLevel) (ho : other.isLevel) :
    Alike cs (count cs onX onY other dest) (count cs onX onY other dest) := by
  unfold count
  split
  · exact .implied hx
  · split
    · exact .implied hy
    · split
      · exact .of_matches ho (.same cellBy_names)
      · refine .same fun ks h => ?_
        obtain ⟨id, hid, ⟨⟩⟩ := bind_eq_ok.1 h
        exact ⟨by simp, .single ho (.of_label hid rfl)⟩

theorem countStep_sound {dir : Direction} (ks : List Code) (h : countStep cs dir dest = .ok ks) : ks ≠ [] ∧ Sound cs ks := by
  cases dir with
  | up => exact (count_alike rfl rfl rfl ks h).1
  | down => exact (count_alike rfl rfl rfl ks h).1

/-- Where the code of a copy takes one byte from. -/
inductive ByteFrom (cs : CodeSetting) : Ref → Operand → Prop
  | constant {v o} : Operand.ofInt v = .ok o → ByteFrom cs (.constant ⟨.byte, v⟩) o
  | behind {base id} : cs.labelOf base = .ok id → ByteFrom cs (.indirect base) (.indirectY (.label id))
  | location {src id} : cs.labelOf src = .ok id → cs.typeOf src = .ok .byte → (∀ c, src ≠ .constant c) → ByteFrom cs src (.wide id)

/-- Where the code of a copy takes two bytes from. -/
inductive PairFrom (cs : CodeSetting) : Ref → Operand × Operand → Prop
  | constant {v} : PairFrom cs (.constant ⟨.word, v⟩) (constBytes ⟨.word, v⟩)
  | address {src sig id} : cs.labelOf src = .ok id → cs.typeOf src = .ok (.routine sig) → PairFrom cs src (addressBytes id)
  | cell {base offset index id o} : cs.labelOf base = .ok id → cellBytes id offset index = .ok o →
      PairFrom cs (.indexed base offset index) o
  | location {src t id} : cs.labelOf src = .ok id → cs.typeOf src = .ok t → t = .word ∧ (∀ c, src ≠ .constant c) ∨ t.isVector = true →
      PairFrom cs src (locationBytes id)

/-- What the code of a copy looks like, by its destination. -/
inductive CopyTo (cs : CodeSetting) (src : Ref) : Ref → List Code → Prop
  | behind {base id s} : cs.labelOf base = .ok id → ByteFrom cs src s → CopyTo cs src (.indirect base) (move s (.indirectY (.label id)))
  | cell {base offset index id d s} : cs.labelOf base = .ok id → cellBytes id offset index = .ok d → PairFrom cs src s →
      CopyTo cs src (.indexed base offset index) (moveBoth s d)
  | byte {dest id s} : cs.labelOf dest = .ok id → cs.typeOf dest = .ok .byte → ByteFrom cs src s → CopyTo cs src dest (move s (.wide id))
  | pair {dest t id s} : cs.labelOf dest = .ok id → cs.typeOf dest = .ok t → t = .word ∨ t.isVector → PairFrom cs src s →
      CopyTo cs src dest (moveBoth s (locationBytes id))

theorem ByteFrom.names {o : Operand} (h : ByteFrom cs src o) : o.Names cs := by
  cases h with
  | constant ho => exact ofInt_names _ ho
  | behind hid | location hid => exact .of_label hid rfl

theorem PairFrom.names {o : Operand × Operand} (h : PairFrom cs src o) : o.1.Names cs ∧ o.2.Names cs := by
  cases h with
  | constant => exact ⟨.of_none rfl, .of_none rfl⟩
  | address hid | location hid => exact ⟨.of_label hid rfl, .of_label hid rfl⟩
  | cell hid ho => exact cellBytes_names hid ho

section

variable {t u : Ty} {base : Ref}

theorem copyToIndirect_ok (h : copyToIndirect cs src base = .ok ks)
    (ht : (∀ base', src ≠ .indirect base') → cs.typeOf src = .ok .byte) : CopyTo cs src (.indirect base) ks := by
  unfold copyToIndirect at h
  split at h
  all_goals simp only [bind_eq_ok, pure_eq_ok] at h
  case h_1 c =>
    obtain ⟨d, hd, o, ho, rfl⟩ := h
    obtain ⟨ty, v⟩ := c
    obtain rfl : ty = .byte := Except.ok.inj (ht (by simp))
    exact .behind hd (.constant ho)
  all_goals obtain ⟨s, hs, d, hd, rfl⟩ := h
  case h_2 => exact .behind hd (.behind hs)
  case h_3 hconst hind => exact .behind hd (.location hs (ht hind) hconst)

theorem copyToCell_ok {offset index : Ref} (h : copyToCell cs src t base offset index = .ok ks) (ht : cs.typeOf src = .ok t)
    (hsrc : t = .word ∨ (∀ c, src ≠ .constant c) ∧ (t.isVector = true ∨ t.isRoutine = true)) :
    CopyTo cs src (.indexed base offset index) ks := by
  unfold copyToCell at h
  split at h
  all_goals simp only [bind_eq_ok, pure_eq_ok] at h
  case h_1 c =>
    obtain ⟨d, hd, o, ho, rfl⟩ := h
    obtain rfl : t = .word := hsrc.resolve_right fun hr => hr.1 c rfl
    obtain ⟨ty, v⟩ := c
    cases ht
    exact .cell hd ho .constant
  all_goals obtain ⟨s, hs, d, hd, o, ho, rfl⟩ := h
  case h_2 => exact .cell hd ho (.address hs ht)
  case h_3 hno hroutine =>
    refine .cell hd ho (.location hs ht ?_)
    obtain rfl | ⟨-, hvector | hcode⟩ := hsrc
    · exact .inl ⟨rfl, hno⟩
    · exact .inr hvector
    · cases t with
      | routine sig => exact (hroutine sig rfl).elim
      | _ => cases hcode

theorem copyPlain_ok (ht : cs.typeOf src = .ok t) (hu : cs.typeOf dest = .ok u)
    (h : copyPlain cs src dest t u = .ok ks) : CopyTo cs src dest ks := by
  unfold copyPlain at h
  split at h
  case h_2 | h_7 => cases h
  all_goals simp only [bind_eq_ok, pure_eq_ok] at h
  case h_1 c =>
    obtain ⟨d, hd, rfl⟩ := h
    obtain ⟨ty, v⟩ := c
    cases ht
    exact .pair hd hu (.inl rfl) .constant
  all_goals obtain ⟨s, hs, d, hd, rfl⟩ := h
  case h_3 hno => exact .byte hd hu (.location hs ht (by simpa using hno))
  case h_4 hno => exact .pair hd hu (.inl rfl) (.location hs ht (.inl ⟨rfl, by simpa using hno⟩))
  case h_5 => exact .pair hd hu (.inr rfl) (.location hs ht (.inr rfl))
  case h_6 => exact .pair hd hu (.inr rfl) (.address hs ht)

end

theorem baseType_of_plain {t : Ty} (hi : ∀ base, r = .indirect base → False)
    (hx : ∀ base offset index, r = .indexed base offset index → False) (h : baseType cs r = .ok t) :
    cs.typeOf r = .ok t := by
  cases r with
  | indirect base => exact (hi base rfl).elim
  | indexed base offset index => exact (hx base offset index rfl).elim
  | location n => exact h
  | constant c => exact h
  | pending n site => exact h

theorem copy_code (h : copy cs src dest = .ok ks) : CopyTo cs src dest ks := by
  simp only [copy, bind_eq_ok] at h
  obtain ⟨t, ht, u, hu, h⟩ := h
  split at h
  case h_8 hi hx | h_9 hi hx => exact copyPlain_ok ht (baseType_of_plain hi hx hu) h
  case h_10 => cases h
  all_goals
    split at h
    case isFalse => cases h
  case h_1.isTrue hc | h_2.isTrue hc => exact copyToIndirect_ok h fun _ => hc.1 ▸ ht
  case h_3.isTrue => exact copyToIndirect_ok h fun hno => (hno _ rfl).elim
  case h_4.isTrue hc =>
    simp only [bind_eq_ok, pure_eq_ok] at h
    obtain ⟨s, hs, d, hd, rfl⟩ := h
    exact .byte hd (hc.2 ▸ hu) (.behind hs)
  case h_5.isTrue hc => exact copyToCell_ok h ht (hc.imp And.left fun hv => ⟨by simp, hv.1⟩)
  case h_6.isTrue hc => exact copyToCell_ok h ht (.inl hc.1)
  case h_7.isTrue hc =>
    simp only [bind_eq_ok, pure_eq_ok] at h
    obtain ⟨s, hs, d, hd, o, ho, rfl⟩ := h
    exact .pair hd hu (hc.imp And.right And.right) (.cell hs ho)

theorem copy_sound (ks : List Code) (h : copy cs src dest = .ok ks) : ks ≠ [] ∧ Sound cs ks := by
  cases copy_code h with
  | behind hd hs | byte hd _ hs => exact ⟨by simp [move], .move hs.names (.of_label hd rfl)⟩
  | cell hd hc hs => exact ⟨by simp [move, moveBoth], .moveBoth hs.names (cellBytes_names hd hc)⟩
  | pair hd _ _ hs => exact ⟨by simp [move, moveBoth], .moveBoth hs.names ⟨.of_label hd rfl, .of_label hd rfl⟩⟩

/-! ### Comparison of words -/

/-- The code that compares the word at a label with two bytes. -/
def wordComparison (e : Emitter) (id : LabelId) (low high : Operand) : Emitter :=
  let e := e.codes [⟨.lda, .wide id⟩, ⟨.cmp, low⟩]
  let (done, e) := e.newLabel ⟨"end_label", none, none⟩
  let e := e.codes [⟨.bne, .relative done⟩, ⟨.lda, .wideNext id⟩, ⟨.cmp, high⟩]
  e.resolve done

/-- The comparison of a word: of its lower byte, then of its upper byte if the lower ones agree. -/
def compared (h : Host) (id : LabelId) (low high : Operand) : Meaning :=
  (Meaning.basic (execAll h.labels [⟨.lda, .wide id⟩, ⟨.cmp, low⟩])).seq
    (.choice (·.z) (.basic (execAll h.labels [⟨.lda, .wideNext id⟩, ⟨.cmp, high⟩])) .skip)

theorem wordComparison_adds (e : Emitter) (id : LabelId) (low high : Operand) :
    e.Adds (wordComparison e id low high) := by
  have h1 := Emitter.Adds.ofCodes e [⟨.lda, .wide id⟩, ⟨.cmp, low⟩]
  have h2 := Emitter.Adds.ofNewLabel (e.codes [⟨.lda, .wide id⟩, ⟨.cmp, low⟩]) ⟨"end_label", none, none⟩
  exact ((h1.trans h2).trans (.ofCodes _ _)).resolve (by simp)

theorem wordComparison_items (e : Emitter) (id : LabelId) (low high : Operand) :
    (wordComparison e id low high).items.toList = e.items.toList
      ++ [⟨.lda, .wide id⟩, ⟨.cmp, low⟩, ⟨.bne, .relative e.labels.size⟩, ⟨.lda, .wideNext id⟩,
        ⟨.cmp, high⟩].map Code.item := by
  simp [wordComparison, Emitter.resolve, Emitter.changeLabel, Emitter.codes_items, Emitter.newLabel]

theorem wordComparison_label (e : Emitter) (id : LabelId) (low high : Operand) :
    ((wordComparison e id low high).labels.entry e.labels.size).addr
      = some (wordComparison e id low high).addr := by
  have hs : (e.codes [⟨.lda, .wide id⟩, ⟨.cmp, low⟩]).labels.size = e.labels.size := by simp
  rw [← hs]
  exact Emitter.entry_resolve (by simp)

/-- The branch over the second comparison realises the comparison of words. -/
theorem realises_wordComparison {id : LabelId} {low high : Operand} (hT : T.Carries e (wordComparison e id low high))
    (hk : T.Knows h e (wordComparison e id low high)) :
    T.Realises h e.addr (wordComparison e id low high).addr (compared h id low high) := by
  have hi := wordComparison_items e id low high
  have hq := hk.place (le_rfl) (wordComparison_label e id low high)
  rw [(wordComparison_adds e id low high).addr_eq hi] at hq ⊢
  obtain ⟨hlow, hbne, hhigh⟩ := Text.holds_append.1
    (hT _ hi : T.Holds e.addr ([⟨.lda, .wide id⟩, ⟨.cmp, low⟩] ++ ⟨.bne, .relative e.labels.size⟩ ::
      [⟨.lda, .wideNext id⟩, ⟨.cmp, high⟩]))
  have hfork : T.Forks h _ (·.z) _ _ := Text.forks_branch hbne fun _ => rfl
  rw [hq] at hfork
  refine (Text.realises_codes hlow ?_).seq (.choice hfork ?_ Text.realises_skip)
  · simp [Mnemonic.isPlain]
  · have hr := Text.realises_codes (h := h) hhigh (by simp [Mnemonic.isPlain])
    simp only [Code.room_cons, Code.room_nil, Int.add_assoc, Int.zero_add] at hr ⊢
    exact hr

/-! ### All operations -/

/-- An emitter that has labels and nothing else. -/
def blank (ls : Labels) : Emitter := { start := 0, addr := 0, labels := ls }

/-- The instructions of an emitter. -/
def codeList (e : Emitter) : List Code :=
  e.items.toList.filterMap fun
    | .code m o => some ⟨m, o⟩
    | _ => none

theorem codeList_codes (ls : Labels) (ks : List Code) : codeList ((blank ls).codes ks) = ks := by
  rw [codeList, Emitter.codes_items]
  simp [blank, Code.item, List.filterMap_map, Function.comp_def]

/-- The meaning of straight-line code that was generated. -/
def straight (h : Host) (x : Except Fault Emitter) : Meaning :=
  match x with
  | .ok e => .basic (execAll h.labels (codeList e))
  | .error _ => .stuck

/-- The meaning of the comparison of a word. -/
def wordCompared (cs : CodeSetting) (h : Host) (i : Instr) (src dest : Ref) : Meaning :=
  match sourceBytes cs i src, cs.labelOf dest with
  | .ok (low, high), .ok id => compared h id low high
  | _, _ => .stuck

/-- The meaning of a single operation: that of the instructions it becomes. -/
def meaning (cs : CodeSetting) (h : Host) (i : Instr) (op : Op) : Meaning :=
  match op with
  | .cmp dest src =>
    match isWordSource cs src with
    | .ok true => wordCompared cs h i src dest
    | _ => straight h (single cs i (blank h.labels) op)
  | _ => straight h (single cs i (blank h.labels) op)

/-- What a single operation adds to an emitter. -/
inductive Emits (cs : CodeSetting) (h : Host) (i : Instr) (op : Op) (e : Emitter) : Emitter → Prop
  | line {ks ks'} : ks ≠ [] ∧ Sound cs ks → single cs i (blank h.labels) op = .ok ((blank h.labels).codes ks') →
      ks'.map widened = ks.map widened → meaning cs h i op = straight h (single cs i (blank h.labels) op) →
      (¬ ∃ q, op = .trash q) → Emits cs h i op e (e.codes ks)
  | word {d s id low high} : op = .cmp d s → meaning cs h i op = compared h id low high → cs.labelOf d = .ok id →
      low.Names cs ∧ high.Names cs → Emits cs h i op e (wordComparison e id low high)
  | nothing {q} : op = .trash q → Emits cs h i op e e

section

variable {op : Op} {e' : Emitter}

theorem Emits.of_alike (hxy : Alike cs x y) (hx : x.map e.codes = .ok e')
    (hy : single cs i (blank h.labels) op = y.map (blank h.labels).codes)
    (hm : meaning cs h i op = straight h (single cs i (blank h.labels) op)) (hop : ¬ ∃ r, op = .trash r) : Emits cs h i op e e' := by
  obtain ⟨ks, hks, rfl⟩ := map_eq_ok.1 hx
  obtain ⟨hs, ks', rfl, hw⟩ := hxy ks hks
  exact .line hs hy hw hm hop

theorem compare_emits (hc : compare cs i e src dest = .ok e') : Emits cs h i (.cmp dest src) e e' := by
  simp only [compare, bind_eq_ok] at hc
  obtain ⟨word, hword, hc⟩ := hc
  cases word with
  | true =>
    simp only [if_true, compareWord, bind_eq_ok, pure_eq_ok] at hc
    obtain ⟨⟨low, high⟩, hs, id, hd, rfl⟩ := hc
    exact .word rfl (by simp [meaning, hword, wordCompared, hs, hd]) hd (sourceBytes_names hs)
  | false =>
    simp only [Bool.false_eq_true, if_false] at hc
    cases hm : compareMnemonic? dest with
    | none => simp [hm] at hc
    | some m =>
      simp only [hm, bind_eq_ok, pure_eq_ok] at hc
      obtain ⟨o, ho, rfl⟩ := hc
      refine .line ⟨by simp, .single (isLevel_of_compareMnemonic? hm) (accOperand_names o ho)⟩ ?_ rfl ?_ (by simp)
      · simp [single, compare, hword, hm, ho, bind, Except.bind, pure, Except.pure]
      · simp [meaning, hword]

theorem single_emits (hs : single cs i e op = .ok e') : Emits cs h i op e e' := by
  by_cases hop : ∃ r, op = .trash r
  · obtain ⟨r, rfl⟩ := hop
    cases hs
    exact .nothing rfl
  cases op with
  | ld dest src => exact .of_alike load_alike hs rfl rfl hop
  | st src dest => exact .of_alike store_alike hs rfl rfl hop
  | add dest src | sub dest src => exact .of_alike (.same (sum_sound rfl)) hs rfl rfl hop
  | cmp dest src => exact compare_emits hs
  | and dest src | or dest src | xor dest src => exact .of_alike (bitwise_alike rfl) hs rfl rfl hop
  | inc dest | dec dest => exact .of_alike (.same countStep_sound) hs rfl rfl hop
  | shl dest | shr dest => exact .of_alike (shift_alike rfl) hs rfl rfl hop
  | copy src dest => exact .of_alike (.same copy_sound) hs rfl rfl hop
  | trash dest => exact (hop ⟨dest, rfl⟩).elim
  | nop =>
    cases hs
    exact .line ⟨by simp, .single rfl (.of_none rfl)⟩ rfl rfl rfl hop

theorem Emits.adds (hs : Emits cs h i op e e') : e.Adds e' := by
  cases hs with
  | line => exact .ofCodes _ _
  | word => exact wordComparison_adds _ _ _ _
  | nothing => exact .refl e

theorem single_adds (hs : single cs i e op = .ok e') : e.Adds e' := by
  have hem : Emits cs ⟨e.labels, ⟨[]⟩, fun _ _ => none⟩ i op e e' := single_emits hs
  exact hem.adds

theorem compare_adds (hc : compare cs i e src dest = .ok e') : e.Adds e' := by
  have hs : single cs i e (.cmp dest src) = .ok e' := hc
  exact single_adds hs

/-- The code of a single operation realises its meaning. -/
theorem Emits.realises (hs : Emits cs h i op e e') (hT : T.Carries e e')
    (hk : T.Knows h e e') : T.Realises h e.addr e'.addr (meaning cs h i op) := by
  cases hs with
  | @line ks ks' hst hb hw hm =>
    rw [hm, hb, straight, codeList_codes, Emitter.codes_addr]
    have hr := Text.realises_codes (h := h) hT.holds hst.2.level.straight
    rwa [show execAll h.labels ks' = execAll h.labels ks from funext (execAll_congr hw)]
  | word _ hm =>
    rw [hm]
    exact realises_wordComparison hT hk
  | nothing hop =>
    subst hop
    exact Text.realises_skip

end

end Codegen

end CheckedAsm
