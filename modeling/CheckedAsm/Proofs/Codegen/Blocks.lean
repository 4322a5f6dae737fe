import CheckedAsm.Proofs.Codegen.Inversion
/-! # Blocks mean what their structure says

The meaning of a block follows its structure: instructions one after the other, choices by a flag, loops
up to a test. The instructions that single operations become, and those that set bytes aside and take them
back, have the meaning they have on the machine. What a called routine does is given from outside. The
generated code, with its branches and jumps, realises this meaning. So the machine comes to the end of the
code, or leaves it by a jump, exactly where the meaning ends so and in the same state, and it goes on
without end exactly where the meaning does. -/

namespace CheckedAsm

open CodeState Codegen Emitter Text

variable {cs : CodeSetting} {h : Host} {T : Text}

variable {pointers : Assoc String String} {i : Instr} {target : String} {o : Operand} {e e' : Emitter} {src : Ref}
  {inverted : Bool} {l : Nat}

/-- Whether a flag is on or, inverted, off. -/
def Cpu.holds (src : Ref) (inverted : Bool) (σ : Cpu) : Bool :=
  match src.name with
  | "c" => σ.c != inverted
  | "z" => σ.z != inverted
  | "n" => σ.n != inverted
  | _ => false

/-- The meaning of generated instructions. -/
def Meaning.ofCodes (h : Host) : Except Fault (List Code) → Meaning
  | .ok ks => .basic (Code.execAll h.labels ks)
  | .error _ => .stuck

/-- One step of a counting loop and the comparison after it. -/
def Codegen.counted (cs : CodeSetting) (h : Host) (i : Instr) (d : Ref) (dir : Direction)
    (final : Const) : Meaning :=
  match limit final dir with
  | .ok past => (Meaning.ofCodes h (countStep cs dir d)).seq (meaning cs h i (.cmp d (.constant past)))
  | .error _ => .stuck

mutual

/-- The meaning of an instruction, where pointers lead into the given tables. -/
def Instr.meaning (cs : CodeSetting) (h : Host) (pointers : Assoc String String) (i : Instr) : Meaning :=
  match i with
  | .op _ op => Codegen.meaning cs h i op.settled
  | .call _ target =>
    match cs.entry h.trampolines target with
    | some o => .call (h.callee o)
    | none => .stuck
  | .goto _ target =>
    match cs.exit target with
    | .ok o => .leave o
    | .error _ => .stuck
  | .reset _ p offset =>
    straight h ((reset cs ⟨blank h.labels, ⟨[]⟩, pointers⟩ p offset).map CodeState.emitter)
  | .ifThen _ src inverted yes => .choice (Cpu.holds src inverted) (yes.meaning cs h pointers) .skip
  | .ifElse _ src inverted yes no =>
    .choice (Cpu.holds src inverted) (yes.meaning cs h pointers) (no.meaning cs h pointers)
  | .loop _ none _ body => (body.meaning cs h pointers).loop fun _ => false
  | .loop _ (some src) inverted body => (body.meaning cs h pointers).loop (Cpu.holds src inverted)
  | .count _ d dir final body =>
    ((body.meaning cs h pointers).seq (counted cs h i d dir final)).loop (·.z)
  | .interruptsOff _ body =>
    (Meaning.basic fun σ => { σ with masked := true }).seq
      ((body.meaning cs h pointers).seq (.basic fun σ => { σ with masked := false }))
  | .save _ rs body =>
    (Meaning.ofCodes h (forEach (push cs) rs)).seq
      ((body.meaning cs h pointers).seq (.ofCodes h (forEach (pull cs) rs.reverse)))
  | .pointInto _ p t body => body.meaning cs h (pointers.set p.name t.name)

/-- The meaning of a block. -/
def Block.meaning (cs : CodeSetting) (h : Host) (pointers : Assoc String String) : Block → Meaning
  | .nil _ => .skip
  | .cons head tail => (head.meaning cs h pointers).seq (tail.meaning cs h pointers)

end

theorem Instr.leaves_of_isGoto (hi : i.isGoto = true) : (i.meaning cs h pointers).Leaves := by
  cases i with
  | goto l target =>
    intro σ σ' he
    unfold Instr.meaning at he
    cases ho : cs.exit target with
    | ok o =>
      rw [ho] at he
      cases he
    | error f =>
      rw [ho] at he
      exact he
  | _ => cases hi

/-- A block with a jump of its own never goes on with what follows. -/
theorem Block.leaves_of_hasGoto :
    (b : Block) → b.hasGoto = true → (b.meaning cs h pointers).Leaves
  | .nil l, hb => by cases hb
  | .cons head tail, hb => by
    unfold Block.meaning
    have hor : head.isGoto = true ∨ tail.hasGoto = true := by
      simpa only [Block.hasGoto, Block.instrs, List.any_cons, Bool.or_eq_true] using hb
    obtain hh | ht := hor
    · exact .seq_left (Instr.leaves_of_isGoto hh)
    · exact .seq_right (tail.leaves_of_hasGoto ht)

/-! ### Code in its place -/

/-- The text holds the code between two states, and the host has what belongs to it. -/
structure Text.Hosts (T : Text) (h : Host) (st st' : CodeState) : Prop where
  carries : T.Carries st.emitter st'.emitter
  knows : T.Knows h st.emitter st'.emitter
  trampolines : ∀ v id, st'.trampolines.get? v = some id → h.trampolines.get? v = some id

section

variable {st st' st1 st2 : CodeState} {id : LabelId} {ks : List Code} {m : Mnemonic}

theorem Text.Hosts.split (hh : T.Hosts h st st2) (h1 : st.Grows st1) (h2 : st1.Grows st2) :
    T.Hosts h st st1 ∧ T.Hosts h st1 st2 := by
  obtain ⟨hc, hc'⟩ := hh.carries.split h1.emitter h2.emitter
  obtain ⟨hk, hk'⟩ := hh.knows.split h1.emitter h2.emitter
  exact ⟨⟨hc, hk, fun v id hv => hh.trampolines v id (h2.trampolines v id hv)⟩, ⟨hc', hk', hh.trampolines⟩⟩

theorem Text.Hosts.of_resolve (hh : T.Hosts h st (st1.resolve id))
    (hn : (st1.emitter.labels.entry id).addr = none) : T.Hosts h st st1 :=
  ⟨hh.carries, hh.knows.of_resolve hn, hh.trampolines⟩

theorem Text.Hosts.place_resolve (hh : T.Hosts h st (st1.resolve id)) (ho : st.emitter.labels.size ≤ id)
    (hid : id < st1.emitter.labels.size) : h.labels.place id = st1.emitter.addr :=
  hh.knows.place ho (entry_resolve hid)

theorem Text.Hosts.codes (hh : T.Hosts h st (st.codes ks)) (hs : Code.Straight ks) :
    T.Realises h st.emitter.addr (st.codes ks).emitter.addr (.basic (Code.execAll h.labels ks)) := by
  have ha : (st.codes ks).emitter.addr = st.emitter.addr + Code.room ks := codes_addr _ _
  rw [ha]
  exact realises_codes hh.carries.holds hs

namespace CodeState

theorem branched_addr : (st.branched m).emitter.addr = st.emitter.addr + 2 := by
  have ha := codes_addr (st.newLabel "else_label").2.emitter
    [⟨m, .relative st.emitter.labels.size⟩]
  exact ha

theorem branched_size : (st.branched m).emitter.labels.size = st.emitter.labels.size + 1 := by
  simp [branched, codes, withEmitter, newLabel, Emitter.newLabel]

theorem branched_entry :
    (st.branched m).emitter.labels.entry st.emitter.labels.size = ⟨"else_label", none, none⟩ := by
  simp only [branched, codes, withEmitter, newLabel, codes_labels]
  exact Labels.entry_push_self

/-- Code that came after a branch has not resolved its label. -/
theorem unresolved_of_branched (hg : (st.branched m).Grows st1) :
    st.emitter.labels.size < st1.emitter.labels.size
      ∧ (st1.emitter.labels.entry st.emitter.labels.size).addr = none := by
  have hlt : st.emitter.labels.size < (st.branched m).emitter.labels.size := by
    rw [branched_size]
    exact Nat.lt_succ_self _
  refine ⟨hlt.trans_le hg.emitter.size, ?_⟩
  rw [hg.emitter.kept _ hlt, branched_entry]

/-- Code that came after a jump over it has not resolved the label of the jump. -/
theorem unresolved_of_parted (hid : id < st1.emitter.labels.size) (hg : (st1.parted id).Grows st2) :
    st1.emitter.labels.size < st2.emitter.labels.size
      ∧ (st2.emitter.labels.entry st1.emitter.labels.size).addr = none := by
  have hlt : st1.emitter.labels.size < (st1.parted id).emitter.labels.size := by
    simp [parted, codes, resolve, withEmitter, newLabel, Emitter.newLabel, size_resolve]
  refine ⟨hlt.trans_le hg.emitter.size, ?_⟩
  rw [hg.emitter.kept _ hlt]
  simp only [parted, resolve, withEmitter]
  rw [entry_resolve_of_ne (Nat.ne_of_lt hid)]
  simp only [codes, withEmitter, newLabel, codes_labels]
  have he : ((st1.emitter.newLabel ⟨"end_label", none, none⟩).2.labels.entry st1.emitter.labels.size)
      = ⟨"end_label", none, none⟩ := Labels.entry_push_self
  rw [he]

theorem topped_entry : (st.topped.emitter.labels.entry st.emitter.labels.size).addr = some st.emitter.addr := by
  have he : st.topped.emitter.labels.entry st.emitter.labels.size
      = ⟨"label" ++ toString st.emitter.counter, some st.emitter.addr, none⟩ := Labels.entry_push_self
  rw [he]

end CodeState

theorem entry_of_trampolines {tr tr' : Assoc String LabelId} (htr : ∀ v id, tr.get? v = some id → tr'.get? v = some id)
    (he : cs.entry tr target = some o) : cs.entry tr' target = some o := by
  unfold CodeSetting.entry at he ⊢
  split at he
  · exact he
  · obtain ⟨id, hid, rfl⟩ := Option.map_eq_some_iff.1 he
    rw [htr _ _ hid]
    rfl
  · cases he

/-- A jump to a name leaves the text. -/
theorem jump_exit (hl : ∀ name id, cs.label name = .ok id → T.inner id = false) (ho : cs.exit target = .ok o) (σ : Cpu) :
    T.jump h σ o = .left o σ := by
  simp only [CodeSetting.exit, bind_eq_ok] at ho
  obtain ⟨id, hid, t, -, ho⟩ := ho
  cases t with
  | routine sig =>
    cases ho
    exact if_neg (by simp [hl target id hid])
  | vector of =>
    cases ho
    rfl
  | _ => cases ho

/-- Between the two parts of a choice there is a jump over the second, whose label comes after it. -/
theorem Text.Hosts.parted (hh : T.Hosts h st (st1.parted id)) (hg : st.Grows st1)
    (hid : id < st1.emitter.labels.size) (hn : (st1.emitter.labels.entry id).addr = none)
    (ho : st.emitter.labels.size ≤ id) :
    T.Hosts h st st1
      ∧ T.fetch st1.emitter.addr = some (.code .jmp (.wide st1.emitter.labels.size))
      ∧ h.labels.place id = (st1.parted id).emitter.addr := by
  have hadd : st1.emitter.Adds ((st1.newLabel "end_label").2.codes [⟨.jmp, .wide st1.emitter.labels.size⟩]).emitter :=
    (Emitter.Adds.ofNewLabel _ _).trans (.ofCodes _ _)
  have hn' : (((st1.newLabel "end_label").2.codes
      [⟨.jmp, .wide st1.emitter.labels.size⟩]).emitter.labels.entry id).addr = none := by
    rw [hadd.kept id hid, hn]
  have hh' := hh.of_resolve hn'
  obtain ⟨h1, h2⟩ := hh'.split hg (.ofEmitter hadd)
  have hc : T.Carries (st1.newLabel "end_label").2.emitter
    ((st1.newLabel "end_label").2.codes [⟨.jmp, .wide st1.emitter.labels.size⟩]).emitter := h2.carries
  exact ⟨h1, hc.holds.1, hh.place_resolve ho (hid.trans_le hadd.size)⟩

/-- The label at the beginning of a loop stands there. -/
theorem Text.Hosts.place_topped (hh : T.Hosts h st st1) (hg : st.topped.Grows st1) :
    h.labels.place st.emitter.labels.size = st.emitter.addr ∧ T.inner st.emitter.labels.size = true := by
  have ha := hg.emitter.addr_kept topped_entry
  exact ⟨hh.knows.place (le_rfl) ha, (hh.knows _ _ (le_rfl) ha).2⟩

/-! ### Choices and loops -/

/-- A choice starts with a branch over its first part. -/
theorem Text.Hosts.branch (hh : T.Hosts h st st1) (hg : (st.branched m).Grows st1) :
    T.Hosts h (st.branched m) st1 ∧ T.fetch st.emitter.addr = some (.code m (.relative st.emitter.labels.size)) := by
  obtain ⟨hb, hy⟩ := hh.split (.ofBranched st m) hg
  have hc : T.Carries (st.newLabel "else_label").2.emitter (st.branched m).emitter := hb.carries
  exact ⟨hy, hc.holds.1⟩

/-- The branch of a choice without a second part, or whose first part never goes on, leads behind the first part. -/
theorem Text.Hosts.ifThen (hh : T.Hosts h st (st1.resolve st.emitter.labels.size)) (hg : (st.branched m).Grows st1) :
    T.Hosts h (st.branched m) st1 ∧ T.fetch st.emitter.addr = some (.code m (.relative st.emitter.labels.size))
      ∧ h.labels.place st.emitter.labels.size = st1.emitter.addr := by
  obtain ⟨hlt, hnone⟩ := unresolved_of_branched hg
  obtain ⟨hy, hb⟩ := (hh.of_resolve hnone).branch hg
  exact ⟨hy, hb, hh.place_resolve (le_rfl) hlt⟩

/-- The branch of a choice leads to its second part, and the jump after the first part leads behind both. -/
theorem Text.Hosts.ifElse (hh : T.Hosts h st (st2.resolve st1.emitter.labels.size)) (hg : (st.branched m).Grows st1)
    (hg' : (st1.parted st.emitter.labels.size).Grows st2) :
    (T.Hosts h (st.branched m) st1 ∧ T.Hosts h (st1.parted st.emitter.labels.size) st2)
      ∧ T.fetch st.emitter.addr = some (.code m (.relative st.emitter.labels.size))
      ∧ T.fetch st1.emitter.addr = some (.code .jmp (.wide st1.emitter.labels.size)) ∧ T.inner st1.emitter.labels.size = true
      ∧ h.labels.place st.emitter.labels.size = (st1.parted st.emitter.labels.size).emitter.addr
      ∧ h.labels.place st1.emitter.labels.size = st2.emitter.addr := by
  obtain ⟨hlt, hnone⟩ := unresolved_of_branched hg
  have h1 := (CodeState.Grows.ofBranched st m).trans hg
  obtain ⟨hlt2, hnone2⟩ := unresolved_of_parted hlt hg'
  obtain ⟨hp, hn⟩ := (hh.of_resolve hnone2).split (h1.ofParted (le_rfl)) hg'
  obtain ⟨hp1, hj, hplace⟩ := hp.parted h1 hlt hnone (le_rfl)
  obtain ⟨hy, hb⟩ := hp1.branch hg
  exact ⟨⟨hy, hn⟩, hb, hj, (hh.knows _ _ h1.emitter.size (entry_resolve hlt2)).2, hplace, hh.place_resolve h1.emitter.size hlt2⟩

/-- A loop has a label at its beginning and then its body. -/
theorem Text.Hosts.loop (hh : T.Hosts h st st') (hg : st.topped.Grows st1) (hg' : st1.Grows st') :
    (T.Hosts h st.topped st1 ∧ T.Hosts h st1 st') ∧ h.labels.place st.emitter.labels.size = st.emitter.addr
      ∧ T.inner st.emitter.labels.size = true := by
  obtain ⟨-, hh'⟩ := hh.split (.ofTopped st) (hg.trans hg')
  exact ⟨hh'.split hg hg', hh.place_topped (hg.trans hg')⟩

/-- A counting loop has its body, then a step and a comparison, then the branch back. -/
theorem Text.Hosts.count (hg : st.topped.Grows st1) (hcmp : (st1.emitter.codes ks).Adds e)
    (hh : T.Hosts h st (st1.withEmitter (e.codes [⟨.bne, .relative st.emitter.labels.size⟩]))) :
    T.Hosts h st.topped st1 ∧ T.Hosts h st1 (st1.codes ks) ∧ T.Hosts h (st1.codes ks) (st1.withEmitter e)
      ∧ T.fetch e.addr = some (.code .bne (.relative st.emitter.labels.size))
      ∧ h.labels.place st.emitter.labels.size = st.emitter.addr := by
  have hstep : (st1.codes ks).Grows (st1.withEmitter e) := .ofEmitter hcmp
  have hlast : (st1.withEmitter e).Grows (st1.withEmitter (e.codes [⟨.bne, .relative st.emitter.labels.size⟩])) :=
    .ofEmitter (.ofCodes _ _)
  obtain ⟨⟨hbody, hend⟩, hplace, -⟩ := hh.loop hg (((CodeState.Grows.ofCodes st1 ks).trans hstep).trans hlast)
  obtain ⟨h1, h2⟩ := hend.split (.ofCodes st1 ks) (hstep.trans hlast)
  obtain ⟨h2, h3⟩ := h2.split hstep hlast
  exact ⟨hbody, h1, h2, h3.carries.holds.1, hplace⟩

/-- What stands between two pieces of straight-line code. -/
theorem Text.Hosts.between {ks' : List Code} (hh : T.Hosts h st (st1.codes ks')) (hg : (st.codes ks).Grows st1) :
    T.Hosts h st (st.codes ks) ∧ T.Hosts h (st.codes ks) st1 ∧ T.Hosts h st1 (st1.codes ks') := by
  obtain ⟨h1, h2⟩ := hh.split (.ofCodes st ks) (hg.trans (.ofCodes st1 ks'))
  exact ⟨h1, h2.split hg (.ofCodes st1 ks')⟩

/-- A branch is taken where the flag does not have the value that is asked for. -/
theorem taken_of_branch (hb : branch i src inverted = .ok m) (σ : Cpu) : m.taken? σ = some (!Cpu.holds src inverted σ) := by
  unfold branch at hb
  unfold Cpu.holds
  split at hb
  case h_1 m' hm =>
    cases hb
    unfold branchMnemonic? at hm
    split at hm <;> cases hm <;> simp_all [Mnemonic.taken?]
  case h_2 => cases hb

/-- The machine takes the branch of a choice where the flag does not have the value that is asked for. -/
theorem forks_branched {q : Int} (hm : branch i src inverted = .ok m)
    (hb : T.fetch st.emitter.addr = some (.code m (.relative st.emitter.labels.size)))
    (hplace : h.labels.place st.emitter.labels.size = q) :
    T.Forks h st.emitter.addr (Cpu.holds src inverted) (st.branched m).emitter.addr q := by
  rw [branched_addr, ← hplace]
  exact forks_branch hb (taken_of_branch hm)

/-! ### All instructions -/

/-- The pointers of a state lead into the tables that are given for them. -/
def CodeState.PointsBy (st : CodeState) (pointers : Assoc String String) : Prop :=
  ∀ p t, st.pointers.get? p = some t → pointers.get? p = some t

section

theorem realises_call {l : Nat} {target : String} (hc : call cs st target = .ok st')
    (hh : T.Hosts h st st') :
    T.Realises h st.emitter.addr st'.emitter.addr ((Instr.call l target).meaning cs h pointers) := by
  obtain ⟨o, st1, hg, hitems, haddr, rfl, he⟩ := call_code hc
  obtain ⟨-, hj⟩ := hh.split hg (.ofCodes st1 [⟨.jsr, o⟩])
  have hentry : cs.entry h.trampolines target = some o := entry_of_trampolines hh.trampolines he
  have ha : (st1.codes [⟨.jsr, o⟩]).emitter.addr = st.emitter.addr + (1 + o.size) := by
    rw [← haddr]
    exact codes_addr _ _
  have hf : T.fetch st.emitter.addr = some (.code .jsr o) := haddr ▸ hj.carries.holds.1
  rw [ha]
  unfold Instr.meaning
  rw [hentry]
  exact realises_call hf

theorem realises_goto (hl : ∀ name id, cs.label name = .ok id → T.inner id = false)
    (hj : jump cs st target = .ok st') (hh : T.Hosts h st st') :
    T.Realises h st.emitter.addr st'.emitter.addr ((Instr.goto l target).meaning cs h pointers) := by
  obtain ⟨o, ho, rfl⟩ := jump_code hj
  unfold Instr.meaning
  rw [ho]
  refine realises_leave hh.carries.holds.1 fun σ => ?_
  exact jump_exit hl ho σ

theorem realises_reset {p : Ref} {offset : Const} (hr : reset cs st p offset = .ok st')
    (hp : st.PointsBy pointers) (hh : T.Hosts h st st') :
    T.Realises h st.emitter.addr st'.emitter.addr ((Instr.reset l p offset).meaning cs h pointers) := by
  obtain ⟨table, ks, ht, hs, rfl, hany⟩ := reset_code hr
  have hb : reset cs ⟨blank h.labels, ⟨[]⟩, pointers⟩ p offset = .ok _ := hany _ (hp _ _ ht)
  unfold Instr.meaning
  rw [hb]
  change T.Realises h _ _ (.basic (Code.execAll h.labels (codeList ((blank h.labels).codes ks))))
  rw [codeList_codes]
  exact hh.codes hs.2.level.straight

theorem realises_count {d : Ref} {dir : Direction} {final : Const} {body : Block} {M : Meaning}
    (hh : T.Hosts h st st') (hc : (Instr.count l d dir final body).compile cs st = .ok st')
    (hM : ∀ st1, body.compile cs st.topped = .ok st1 → T.Hosts h st.topped st1 →
      T.Realises h st.emitter.addr st1.emitter.addr M) :
    T.Realises h st.emitter.addr st'.emitter.addr
      ((M.seq (counted cs h (.count l d dir final body) d dir final)).loop (·.z)) := by
  cases Instr.compiled hc with | count _ st1 ks e hb hk hl he =>
  obtain ⟨hbody, h1, h2, hbne, hplace⟩ := Hosts.count (body.compile_grows _ _ hb) (compare_adds he) hh
  have hfork : T.Forks h e.addr (·.z) _ _ := forks_branch hbne fun _ => rfl
  rw [hplace] at hfork
  have ha : (e.codes [⟨.bne, .relative st.emitter.labels.size⟩]).addr = e.addr + 2 := codes_addr _ _
  refine Realises.loop ((hM st1 hb hbody).seq ?_) (ha ▸ hfork)
  unfold counted
  rw [hl, hk]
  exact (h1.codes (countStep_sound ks hk).2.level.straight).seq ((compare_emits he).realises h2.carries h2.knows)

end

mutual

theorem Instr.realises (hl : ∀ name id, cs.label name = .ok id → T.inner id = false)
    (i : Instr) (st st' : CodeState) (pointers : Assoc String String) (hc : i.compile cs st = .ok st') (hp : st.PointsBy pointers)
    (hh : T.Hosts h st st') : T.Realises h st.emitter.addr st'.emitter.addr (i.meaning cs h pointers) := by
  cases Instr.compiled hc with
  | op he =>
    unfold Instr.meaning
    exact (single_emits he).realises hh.carries hh.knows
  | call hc => exact realises_call hc hh
  | goto hc => exact realises_goto hl hc hh
  | reset hc => exact realises_reset hc hp hh
  | ifThen yes m st1 hm hy =>
    unfold Instr.meaning
    obtain ⟨hyes, hb, hplace⟩ := hh.ifThen (yes.compile_grows _ _ hy)
    exact .choice (forks_branched hm hb hplace) (yes.realises hl _ st1 pointers hy hp hyes) realises_skip
  | ifElse yes no m st1 hm hy hn =>
    have hgy := yes.compile_grows _ _ hy
    have hp1 : st1.PointsBy pointers := fun q t hq => hp q t (hgy.pointers q t hq)
    unfold Instr.meaning
    obtain ⟨hgoto, hn⟩ | ⟨-, st2, hn, rfl⟩ := hn
    · -- without a jump over it, the second part follows a first part that never goes on
      obtain ⟨hh1, hh2⟩ := hh.split (((CodeState.Grows.ofBranched st m).trans hgy).resolve le_rfl) (no.compile_grows _ _ hn)
      obtain ⟨hyes, hb, hplace⟩ := hh1.ifThen hgy
      exact .choice (forks_branched hm hb hplace)
        ((yes.realises hl _ _ pointers hy hp hyes).of_leaves (yes.leaves_of_hasGoto hgoto)) (no.realises hl (st1.resolve _) st' pointers hn hp1 hh2)
    · obtain ⟨⟨hyes, hno⟩, hb, hj, hinner, hplace, hend⟩ := hh.ifElse hgy (no.compile_grows _ _ hn)
      have hjump := forks_jump (h := h) (q := 0) hj hinner
      rw [hend] at hjump
      exact .choice (forks_branched hm hb hplace) ((yes.realises hl _ _ pointers hy hp hyes).jump hjump) (no.realises hl _ st2 pointers hn hp1 hno)
  | forever body st1 hb =>
    unfold Instr.meaning
    obtain ⟨⟨hbody, hend⟩, hplace, htop⟩ := hh.loop (body.compile_grows _ _ hb) (.ofCodes _ _)
    have hjump := forks_jump (h := h) (q := (st1.codes [⟨.jmp, .wide st.emitter.labels.size⟩]).emitter.addr)
      hend.carries.holds.1 htop
    rw [hplace] at hjump
    exact (body.realises hl st.topped st1 pointers hb hp hbody).loop hjump
  | loop body m st1 hb hm =>
    unfold Instr.meaning
    obtain ⟨⟨hbody, hend⟩, hplace, -⟩ := hh.loop (body.compile_grows _ _ hb) (.ofCodes _ _)
    have hfork := forks_branch (h := h) hend.carries.holds.1 (taken_of_branch hm)
    rw [hplace] at hfork
    have ha : (st1.codes [⟨m, .relative st.emitter.labels.size⟩]).emitter.addr = st1.emitter.addr + 2 := codes_addr _ _
    rw [ha]
    exact (body.realises hl st.topped st1 pointers hb hp hbody).loop hfork
  | count body =>
    unfold Instr.meaning
    exact realises_count hh hc fun st1 hb => body.realises hl st.topped st1 pointers hb hp
  | interruptsOff body st1 hb =>
    obtain ⟨h1, h2, h3⟩ := hh.between (body.compile_grows _ _ hb)
    unfold Instr.meaning
    exact (h1.codes (.single rfl)).seq ((body.realises hl _ _ pointers hb hp h2).seq (h3.codes (.single rfl)))
  | save body before st1 after hbefore hb hafter =>
    obtain ⟨h1, h2, h3⟩ := hh.between (body.compile_grows _ _ hb)
    unfold Instr.meaning
    rw [hbefore, hafter]
    exact (h1.codes (forEach_straight (fun _ _ => push_straight) hbefore)).seq
      ((body.realises hl _ _ pointers hb hp h2).seq
        (h3.codes (forEach_straight (fun _ _ => pull_straight) hafter)))
  | @pointInto _ p t body st1 hb =>
    unfold Instr.meaning
    have hset : CodeState.PointsBy { st with pointers := st.pointers.set p.name t.name }
        (pointers.set p.name t.name) := by
      intro q u hq
      rw [Assoc.get?_set] at hq ⊢
      by_cases hpq : p.name = q
      · rwa [if_pos hpq] at hq ⊢
      · rw [if_neg hpq] at hq ⊢
        exact hp q u hq
    have hr := body.realises hl _ _ _ hb hset ⟨hh.carries, hh.knows, hh.trampolines⟩
    exact hr

theorem Block.realises
    (hl : ∀ name id, cs.label name = .ok id → T.inner id = false) : (b : Block) → (st st' : CodeState) →
    (pointers : Assoc String String) → b.compile cs st = .ok st' → st.PointsBy pointers →
    T.Hosts h st st' → T.Realises h st.emitter.addr st'.emitter.addr (b.meaning cs h pointers)
  | .nil l, st, st', pointers, hc, _, _ => by
    cases hc
    exact realises_skip
  | .cons head tail, st, st', pointers, hc, hp, hh => by
    obtain ⟨st1, hhead, htail⟩ := compile_cons hc
    have hg := head.compile_grows _ _ hhead
    obtain ⟨h1, h2⟩ := hh.split hg (tail.compile_grows _ _ htail)
    exact (head.realises hl _ _ pointers hhead hp h1).seq
      (tail.realises hl _ _ pointers htail (fun q t hq => hp q t (hg.pointers q t hq)) h2)

end

/-! ### The code of a block by itself -/

/-- The text that the second emitter has more than the first. Of its labels, those of trampolines have no
address yet and stand elsewhere. -/
def Text.between (e e' : Emitter) : Text :=
  ⟨e.addr, e'.items.toList.drop e.items.size,
    fun id => decide (e.labels.size ≤ id) && (e'.labels.entry id).addr.isSome⟩

/-- The host has the addresses and the trampolines that came with the code. -/
structure Host.Completes (h : Host) (st st' : CodeState) : Prop where
  labels : ∀ id a, st.emitter.labels.size ≤ id → (st'.emitter.labels.entry id).addr = some a →
    (h.labels.entry id).addr = some a
  trampolines : ∀ v id, st'.trampolines.get? v = some id → h.trampolines.get? v = some id

theorem Text.between_items (hi : e'.items.toList = e.items.toList ++ ks.map Code.item) :
    (Text.between e e').items = ks.map Code.item := by
  simp [Text.between, hi]

theorem Text.carries_between (e e' : Emitter) : (Text.between e e').Carries e e' := by
  intro ks hi
  have hh : (Text.between e e').Holds (e.addr + Code.room []) ks :=
    holds_of_items (between_items hi)
  rwa [Code.room_nil, Int.add_zero] at hh

theorem Text.hosts_between (hc : h.Completes st st') :
    (Text.between st.emitter st'.emitter).Hosts h st st' := by
  refine ⟨carries_between _ _, fun id a hid ha => ⟨hc.labels id a hid ha, ?_⟩, hc.trampolines⟩
  simp [Text.between, hid, ha]

theorem Text.not_inside_between (ha : e.Adds e') (σ : Cpu) : ¬ (Text.between e e').Inside (.here e'.addr σ) := by
  rintro ⟨pc, τ, hs, hf⟩
  cases hs
  obtain ⟨ks, hi, haddr⟩ := ha.codes
  have hpast : fetchFrom e.addr (ks.map Code.item) e'.addr = none :=
    fetchFrom_past _ _ _ (Int.le_of_eq haddr.symm)
  rw [Text.fetch, between_items hi] at hf
  exact Option.not_isSome_iff_eq_none.2 hpast hf

/-- Where a meaning is realised up to the end of the text, the machine does nothing else. -/
theorem Text.Realises.exact {p q : Int} {M : Meaning} (hM : T.Realises h p q M)
    (hq : ∀ σ, ¬ T.Inside (.here q σ)) (σ : Cpu) :
    (∀ o : Outcome, T.Reaches h (.here p σ) (o.status q) ↔ M.ends σ o)
      ∧ ((∀ n, T.Lasts h n (.here p σ)) ↔ M.diverges σ) := by
  have hstop : ∀ o : Outcome, ¬ T.Inside (o.status q) := by
    intro o ho
    cases o with
    | done τ => exact hq τ ho
    | left t τ =>
      obtain ⟨pc, τ, hs, -⟩ := ho
      cases hs
  refine ⟨fun o => ⟨fun hr => ?_, hM.ends σ o⟩, fun hn => ?_, hM.lasts σ⟩
  · obtain ⟨o', ho'⟩ | hd := hM.total σ
    · have heq := hr.unique (hM.ends σ o' ho') (hstop o) (hstop o')
      rwa [Outcome.status_inj heq]
    · exact (not_lasts_of_reaches hr (hstop o) (hM.lasts σ hd)).elim
  · obtain ⟨o, ho⟩ | hd := hM.total σ
    · exact (not_lasts_of_reaches (hM.ends σ o ho) (hstop o) hn).elim
    · exact hd

end

/-! ### A loop and a jump -/

/-- The one name that the code refers to: a routine elsewhere. -/
def countdownSetting : CodeSetting :=
  ⟨Symbols.initial.declare "away" ⟨.routine ⟨4, "away", some 65490, [], none, false⟩, .routine {}⟩,
    ⟨⟨[("away", 0)]⟩, ⟨[]⟩⟩, none⟩

/-- Before the code is generated, the routine elsewhere has its label. -/
def countdownStart : CodeState :=
  { emitter := { start := 2049, addr := 2049, labels := #[⟨"away", some 65490, none⟩] } }

/-- Afterwards there are three instructions, and the label of the loop. -/
def countdownEnd : CodeState :=
  { emitter :=
      { start := 2049, addr := 2055,
        items := #[.code .dex .implied, .code .bne (.relative 1), .code .jmp (.wide 0)],
        labels := #[⟨"away", some 65490, none⟩, ⟨"label0", some 2049, none⟩], counter := 1 } }

/-- A machine on which nothing else is known. -/
def countdownHost : Host := ⟨countdownEnd.emitter.labels, ⟨[]⟩, fun _ _ => none⟩

/-- A processor that has to count down from three. -/
def countdownCpu : Cpu := ⟨0, 3, 0, false, false, false, false, false, [], fun _ => 0⟩

end CheckedAsm
