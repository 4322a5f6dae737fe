import CheckedAsm.Proofs.Codegen.Endings
/-! # Interrupts are let in again

None of the instructions that a block without interrupts is made of calls a routine or jumps away. Nothing is said of what stands
deeper. So interrupts are let in again by the instruction that belongs to the one that held them off, on every way through the
routine, unless a call or a jump is hidden in the block; and where one is hidden, the routine that gets control may find
interrupts held off. -/

namespace CheckedAsm

open Codegen List

/-! ### Where blocks stand -/

section

variable {cs : CodeSetting} {st st' st1 st2 u u' : CodeState} {i i' : Instr} {b b' w w' : Block} {l l' : Nat}

/-- The code of the second state is that of the first and more. -/
def CodeState.Precedes (st st' : CodeState) : Prop :=
  ∃ ks : List Code, st'.emitter.items.toList = st.emitter.items.toList ++ ks.map Code.item
    ∧ st'.emitter.addr = st.emitter.addr + Code.room ks

namespace CodeState.Precedes

theorem refl (st : CodeState) : st.Precedes st := ⟨[], by simp, by simp⟩

theorem trans (h : st.Precedes st1) (h' : st1.Precedes st2) : st.Precedes st2 := by
  obtain ⟨ks, hitems, haddr⟩ := h
  obtain ⟨ks', hitems', haddr'⟩ := h'
  refine ⟨ks ++ ks', ?_, ?_⟩
  · rw [hitems', hitems, map_append, append_assoc]
  · rw [haddr', haddr, Code.room_append, Int.add_assoc]

theorem ofGrows (h : st.Grows st') : st.Precedes st' := h.emitter.codes

theorem ofCodes (st : CodeState) (ks : List Code) : st.Precedes (st.codes ks) := .ofGrows (.ofCodes st ks)

/-- It does not matter where labels are. -/
theorem resolve (h : st.Precedes st') (id : LabelId) : st.Precedes (st'.resolve id) := h

theorem ofParted (st : CodeState) (id : LabelId) : st.Precedes (st.parted id) :=
  (ofCodes (st.newLabel "end_label").2 [⟨.jmp, .wide st.emitter.labels.size⟩]).resolve id

theorem addr_le (h : st.Precedes st') : st.emitter.addr ≤ st'.emitter.addr := by
  obtain ⟨ks, -, haddr⟩ := h
  have hroom := Code.room_nonneg ks
  omega

/-- Code that was added on the way is in the text of all that was added. -/
theorem holds {ks : List Code} (h : st.Precedes u) (h' : (u.codes ks).Precedes st') :
    (Text.between st.emitter st'.emitter).Holds u.emitter.addr ks := by
  obtain ⟨before, hitems, haddr⟩ := h
  obtain ⟨after, hitems', -⟩ := h'
  have hall : st'.emitter.items.toList = st.emitter.items.toList ++ List.map Code.item (before ++ (ks ++ after)) := by
    have hcodes : (u.codes ks).emitter.items.toList = u.emitter.items.toList ++ ks.map Code.item := Emitter.codes_items _ _
    rw [hitems', hcodes, hitems]
    simp only [map_append, append_assoc]
  have hcarried := Text.carries_between st.emitter st'.emitter _ hall
  rw [haddr]
  exact (Text.holds_append.1 (Text.holds_append.1 hcarried).2).1

end CodeState.Precedes

/-- The code of a block in an instruction is part of the code of the instruction. -/
theorem Instr.Enters.compiles (h : i.Enters cs st b st1) (hc : i.compile cs st = .ok st') :
    ∃ st2, b.compile cs st1 = .ok st2 ∧ st.Precedes st1 ∧ st2.Precedes st' := by
  cases h with
  | @ifThen _ _ _ _ m hm =>
    cases Instr.compiled hc with | ifThen _ m' st2 hm' hy =>
    cases hm.symm.trans hm'
    exact ⟨st2, hy, .ofGrows (.ofBranched st m), (CodeState.Precedes.refl st2).resolve _⟩
  | @ifElse _ _ _ _ no m hm =>
    cases Instr.compiled hc with | ifElse _ _ m' st2 hm' hy hn =>
    cases hm.symm.trans hm'
    refine ⟨st2, hy, .ofGrows (.ofBranched st m), ?_⟩
    rcases hn with ⟨-, hn⟩ | ⟨-, st3, hn, rfl⟩
    · exact ((CodeState.Precedes.refl st2).resolve _).trans (.ofGrows (no.compile_grows _ _ hn))
    · exact ((CodeState.Precedes.ofParted st2 _).trans (.ofGrows (no.compile_grows _ _ hn))).resolve _
  | @otherwise _ _ _ yes _ m st2 hm hy =>
    cases Instr.compiled hc with | ifElse _ _ m' st2' hm' hy' hn =>
    cases hm.symm.trans hm'
    cases hy.symm.trans hy'
    have hyes : st.Precedes st2 := .ofGrows ((CodeState.Grows.ofBranched st m).trans (yes.compile_grows _ _ hy))
    rcases hn with ⟨hg, hn⟩ | ⟨hg, st3, hn, rfl⟩
    · rw [if_pos hg]
      exact ⟨st', hn, hyes.resolve _, .refl st'⟩
    · rw [if_neg (by simp [hg])]
      exact ⟨st3, hn, hyes.trans (.ofParted st2 _), (CodeState.Precedes.refl st3).resolve _⟩
  | @loop l src inverted body =>
    have htop : st.Precedes st.topped := .ofGrows (.ofTopped st)
    cases Instr.compiled hc with
    | forever _ st2 hb | loop _ _ st2 hb => exact ⟨st2, hb, htop, .ofCodes st2 _⟩
  | count =>
    cases Instr.compiled hc with | count _ st2 ks e hb _ _ he =>
    refine ⟨st2, hb, .ofGrows (.ofTopped st), .ofGrows ?_⟩
    exact ((CodeState.Grows.ofCodes st2 ks).trans (.ofEmitter (compare_adds he))).trans (.ofEmitter (.ofCodes _ _))
  | interruptsOff =>
    cases Instr.compiled hc with | interruptsOff _ st2 hb =>
    exact ⟨st2, hb, .ofCodes st _, .ofCodes st2 _⟩
  | save hbefore =>
    cases Instr.compiled hc with | save _ before st2 after hbefore' hb =>
    cases hbefore.symm.trans hbefore'
    exact ⟨st2, hb, .ofCodes st _, .ofCodes st2 _⟩
  | pointInto =>
    cases Instr.compiled hc with | pointInto _ st2 hb =>
    exact ⟨st2, hb, .refl st, .refl st2⟩

/-- The code of an instruction in a block, at any depth, is part of the code of the block. -/
theorem Block.Generates.compiles (h : b.Generates cs st i u) (hc : b.compile cs st = .ok st') :
    ∃ u', i.compile cs u = .ok u' ∧ st.Precedes u ∧ u'.Precedes st' := by
  induction h generalizing st' with
  | @head i tail st =>
    obtain ⟨st1, hi, htail⟩ := compile_cons hc
    exact ⟨st1, hi, .refl st, .ofGrows (tail.compile_grows _ _ htail)⟩
  | @tail head i tail st st1 u hhead _ ih =>
    obtain ⟨st2, hhead', htail⟩ := compile_cons hc
    cases hhead.symm.trans hhead'
    obtain ⟨u', hi, hbefore, hafter⟩ := ih htail
    exact ⟨u', hi, .trans (.ofGrows (head.compile_grows _ _ hhead)) hbefore, hafter⟩
  | @inside head i tail b st st1 u he _ ih =>
    obtain ⟨st2, hhead, htail⟩ := compile_cons hc
    obtain ⟨st3, hb, henters, hleaves⟩ := he.compiles hhead
    obtain ⟨u', hi, hbefore, hafter⟩ := ih hb
    exact ⟨u', hi, henters.trans hbefore, (hafter.trans hleaves).trans (.ofGrows (tail.compile_grows _ _ htail))⟩

/-- The code of two blocks in an instruction is the same or apart. -/
theorem Instr.Enters.apart (h : i.Enters cs st b st1) (h' : i.Enters cs st b' st2) :
    (b = b' ∧ st1 = st2) ∨ (∀ t, b.compile cs st1 = .ok t → t.emitter.addr ≤ st2.emitter.addr)
      ∨ (∀ t, b'.compile cs st2 = .ok t → t.emitter.addr ≤ st1.emitter.addr) := by
  have hparts : ∀ {yes : Block} {t t' : CodeState} {id : LabelId}, t = t' →
      t.emitter.addr ≤ (if yes.hasGoto then t'.resolve id else t'.parted id).emitter.addr := by
    rintro yes t _ id rfl
    split
    · exact le_rfl
    · exact (CodeState.Precedes.ofParted t id).addr_le
  cases h with
  | ifThen hm =>
    cases h' with
    | ifThen hm' =>
      cases hm.symm.trans hm'
      exact .inl ⟨rfl, rfl⟩
  | ifElse hm =>
    cases h' with
    | ifElse hm' =>
      cases hm.symm.trans hm'
      exact .inl ⟨rfl, rfl⟩
    | otherwise hm' hy =>
      cases hm.symm.trans hm'
      exact .inr (.inl fun t ht => hparts (Except.ok.inj (ht.symm.trans hy)))
  | otherwise hm hy =>
    cases h' with
    | ifElse hm' =>
      cases hm.symm.trans hm'
      exact .inr (.inr fun t ht => hparts (Except.ok.inj (ht.symm.trans hy)))
    | otherwise hm' hy' =>
      cases hm.symm.trans hm'
      cases hy.symm.trans hy'
      exact .inl ⟨rfl, rfl⟩
  | save hbefore =>
    cases h' with
    | save hbefore' =>
      cases hbefore.symm.trans hbefore'
      exact .inl ⟨rfl, rfl⟩
  | loop =>
    cases h'
    exact .inl ⟨rfl, rfl⟩
  | count =>
    cases h'
    exact .inl ⟨rfl, rfl⟩
  | interruptsOff =>
    cases h'
    exact .inl ⟨rfl, rfl⟩
  | pointInto =>
    cases h'
    exact .inl ⟨rfl, rfl⟩

/-- What stands in a block without interrupts comes after the instruction that holds them off. -/
theorem Instr.Enters.addr_lt (h : (Instr.interruptsOff l w).Enters cs st b st1) : st.emitter.addr < st1.emitter.addr := by
  cases h
  have ha : (st.codes [⟨.sei, .implied⟩]).emitter.addr = st.emitter.addr + 1 := Emitter.codes_addr _ _
  omega

/-- The code of a block without interrupts is not empty. -/
theorem Instr.interruptsOff_addr_lt (h : (Instr.interruptsOff l w).compile cs st = .ok st') :
    st.emitter.addr < st'.emitter.addr := by
  have henters : (Instr.interruptsOff l w).Enters cs st w (st.codes [⟨.sei, .implied⟩]) := .interruptsOff
  obtain ⟨st1, hw, -, hleaves⟩ := henters.compiles h
  have hw : (st.codes [⟨.sei, .implied⟩]).Precedes st1 := .ofGrows (w.compile_grows _ _ hw)
  have hlt := henters.addr_lt
  have hle := (hw.trans hleaves).addr_le
  omega

/-- No two blocks without interrupts begin at one address. -/
theorem Block.Generates.interruptsOff_inj (hc : b.compile cs st = .ok st') (h : b.Generates cs st i u)
    (h' : b.Generates cs st i' u') (hi : i = .interruptsOff l w) (hi' : i' = .interruptsOff l' w')
    (haddr : u.emitter.addr = u'.emitter.addr) : w = w' := by
  induction h generalizing st' u' with
  | @head i tail st =>
    subst hi
    cases h' with
    | head =>
      cases hi'
      rfl
    | tail hhead h' =>
      obtain ⟨st1, hhead', htail⟩ := compile_cons hc
      cases hhead.symm.trans hhead'
      obtain ⟨-, -, hbefore, -⟩ := h'.compiles htail
      have hlt := Instr.interruptsOff_addr_lt hhead
      have hle := hbefore.addr_le
      omega
    | inside he h' =>
      obtain ⟨st1, hhead, -⟩ := compile_cons hc
      obtain ⟨st2, hb, -⟩ := he.compiles hhead
      obtain ⟨-, -, hbefore, -⟩ := h'.compiles hb
      have hlt := he.addr_lt
      have hle := hbefore.addr_le
      omega
  | @tail head i tail st st1 u hhead hgen ih =>
    obtain ⟨st2, hhead', htail⟩ := compile_cons hc
    cases hhead.symm.trans hhead'
    obtain ⟨-, -, hbefore, -⟩ := hgen.compiles htail
    have hle := hbefore.addr_le
    cases h' with
    | head =>
      subst hi'
      have hlt := Instr.interruptsOff_addr_lt hhead
      omega
    | tail hhead' h' =>
      cases hhead.symm.trans hhead'
      exact ih htail h' hi haddr
    | inside he h' =>
      obtain ⟨st3, hb, -, hleaves⟩ := he.compiles hhead
      obtain ⟨v, hv, -, hafter⟩ := h'.compiles hb
      subst hi'
      have hlt := Instr.interruptsOff_addr_lt hv
      have hle' := (hafter.trans hleaves).addr_le
      omega
  | @inside head i tail b st st1 u he hgen ih =>
    obtain ⟨st2, hhead, htail⟩ := compile_cons hc
    obtain ⟨st3, hb, -, hleaves⟩ := he.compiles hhead
    obtain ⟨v, hv, hbefore, hafter⟩ := hgen.compiles hb
    subst hi
    have hlt := Instr.interruptsOff_addr_lt hv
    have hle := hbefore.addr_le
    have hle3 := hafter.addr_le
    cases h' with
    | head =>
      subst hi'
      have hlt := he.addr_lt
      omega
    | tail hhead' h' =>
      cases hhead.symm.trans hhead'
      obtain ⟨-, -, hbefore', -⟩ := h'.compiles htail
      have hle' := (hleaves.trans hbefore').addr_le
      omega
    | inside he' h' =>
      obtain ⟨st4, hb', -⟩ := he'.compiles hhead
      obtain ⟨v', hv', hbefore', hafter'⟩ := h'.compiles hb'
      rcases he.apart he' with ⟨rfl, rfl⟩ | hapart | hapart
      · exact ih hb h' rfl haddr
      · have hle4 := hapart st3 hb
        have hle' := hbefore'.addr_le
        omega
      · have hle4 := hapart st4 hb'
        subst hi'
        have hlt' := Instr.interruptsOff_addr_lt hv'
        have hle' := hafter'.addr_le
        omega

end

/-! ### Interrupts of the machine -/

theorem Code.exec_masked {ls : Labels} {σ : Cpu} {k : Code} (hsei : k.mnemonic ≠ .sei) (hcli : k.mnemonic ≠ .cli) :
    (k.exec ls σ).masked = σ.masked := by
  by_cases hsystem : k.mnemonic.sparesSystem = true
  · have hkeeps : σ.Keeps Set.univ Set.univ False (k.exec ls σ) := exec_keeps (fun _ _ => trivial) (fun _ _ => trivial) hsystem
    exact hkeeps.masked id
  · obtain ⟨m, o⟩ := k
    cases m <;> first | rfl | exact (hsystem rfl).elim | exact (hsei rfl).elim | exact (hcli rfl).elim

/-- Where interrupts are held off that came in at the beginning, an instruction that held them off is open. -/
theorem Text.Traces.masked {T : Text} {h : Host} {σ0 σ : Cpu} {history xs : List (Int × Cpu)} {pc : Int}
    (hcallee : ∀ o τ τ', h.callee o τ = some τ' → τ'.masked = true → τ.masked = true) (hstart : σ0.masked = false)
    (ht : T.Traces h σ0 history pc σ) (hx : T.opened .interrupts Prod.fst history = some xs) (hmasked : σ.masked = true) :
    xs ≠ [] := by
  induction ht generalizing xs with
  | start => cases hstart.symm.trans hmasked
  | @step history pc pc' σ σ' _ hg hs ih =>
    obtain ⟨ys, k, hys, ⟨-, rfl, -⟩ | ⟨hcli, -, rfl⟩ | ⟨hsei, hcli, rfl, hnext⟩⟩ := Text.opened_step hg hs hx
    · exact cons_ne_nil _ _
    · rw [Code.exec, hcli] at hmasked
      cases hmasked
    · refine ih hys ?_
      rcases hnext with rfl | hcall
      · rwa [Code.exec_masked hsei hcli] at hmasked
      · exact hcallee _ _ _ hcall hmasked

/-! ### Routines -/

section

variable {symbols : Symbols} {p : Program} {roster : Option (List (List String))} {e : Emitter} {L : Layout} {r : Routine}
  {next : Option String} {st st' u u' : CodeState} {body w w' : Block} {line line' : Nat}

/-- The code of a block without interrupts stands between the instruction that holds them off and the one that lets them in. -/
theorem Program.Lays.interruptsOff (hlays : p.Lays symbols (roster.getD (defaultRoster p.routines)) e r next st st')
    (hL : p.layOut symbols roster e = .ok L) (h : r.Generates symbols L.labels st (.interruptsOff line w) u) :
    let T := Text.between st.emitter st'.emitter
    ∃ v, w.compile ⟨symbols, L.labels, some r.name⟩ (u.codes [⟨.sei, .implied⟩]) = .ok v
      ∧ T.mnemonic? u.emitter.addr = some .sei ∧ T.mnemonic? v.emitter.addr = some .cli := by
  intro T
  obtain ⟨-, -, -, -, -, hroutine⟩ := hlays.settles hL
  obtain ⟨body, id, hbody, hid, hgenerates⟩ := h
  obtain ⟨id', st1, e', hid', hc, rfl, -, hends⟩ := routine_ends hbody hroutine
  cases hid.symm.trans hid'
  obtain ⟨u', hu, hbefore, hafter⟩ := hgenerates.compiles hc
  cases Instr.compiled hu with | interruptsOff _ v hw =>
  have hbody : (u.codes [⟨.sei, .implied⟩]).Precedes v := .ofGrows (w.compile_grows _ _ hw)
  have hplain : ∀ m : Mnemonic, m.isPlain = true → Code.Straight [⟨m, .implied⟩] := by
    intro m hm k hk
    obtain rfl := mem_singleton.1 hk
    exact hm
  have hsei : (Text.between (st.resolve id).emitter st1.emitter).Holds u.emitter.addr [⟨.sei, .implied⟩] :=
    hbefore.holds (hbody.trans (.trans (.ofCodes v _) hafter))
  have hcli : (Text.between (st.resolve id).emitter st1.emitter).Holds v.emitter.addr [⟨.cli, .implied⟩] :=
    (hbefore.trans (.trans (.ofCodes u _) hbody)).holds hafter
  exact ⟨v, hw, Text.mnemonic?_of_fetch (hends.holds hsei (hplain .sei rfl)).1,
    Text.mnemonic?_of_fetch (hends.holds hcli (hplain .cli rfl)).1⟩

theorem Program.Lays.interruptsOff_inj (hlays : p.Lays symbols (roster.getD (defaultRoster p.routines)) e r next st st')
    (hL : p.layOut symbols roster e = .ok L) (h : r.Generates symbols L.labels st (.interruptsOff line w) u)
    (h' : r.Generates symbols L.labels st (.interruptsOff line' w') u') (haddr : u.emitter.addr = u'.emitter.addr) : w = w' := by
  obtain ⟨-, -, -, -, -, hroutine⟩ := hlays.settles hL
  obtain ⟨body, id, hbody, hid, hgenerates⟩ := h
  obtain ⟨body', id', hbody', hid', hgenerates'⟩ := h'
  cases hbody.symm.trans hbody'
  cases hid.symm.trans hid'
  obtain ⟨id', st1, -, hid', hc, -⟩ := routine_ends hbody hroutine
  cases hid.symm.trans hid'
  exact hgenerates.interruptsOff_inj hc hgenerates' rfl rfl haddr

end

/-- In an accepted program none of the instructions that a block without interrupts is made of is a call, a jump or another such
block. The code of the block begins with an instruction that holds interrupts off and ends with one that lets them in. Along
every path through the routine, whatever follows it, interrupts are let in by the instruction that belongs to the last one open;
nothing is open where the code of the routine ends; and where the routine returns, jumps away or calls another one, each that is
open belongs to a block with a call or a jump in it, which then is hidden in an instruction of the block. So, when the machine
runs through the routine and interrupts come in at the beginning, they come in where it leaves the routine or calls another,
unless it is in such a block. -/
theorem Program.interrupts_let_in (symbols : Symbols) (p : Program) (all : List Analysed) (roster : Option (List (List String)))
    (e : Emitter) (L : Layout) (ha : (p.analyse symbols).2 = .ok all) (hL : p.layOut symbols roster e = .ok L) (r : Routine)
    (next : Option String) (st st' : CodeState)
    (hlays : p.Lays symbols (roster.getD (defaultRoster p.routines)) e r next st st') (body : Block) (hbody : r.body = some body) :
    let T := Text.between st.emitter st'.emitter
    let ls := L.emitter.labels
    let cs : CodeSetting := ⟨symbols, L.labels, some r.name⟩
    (∀ line w, body.Contains (.interruptsOff line w) → ∀ i ∈ w.instrs, i.leavesInterruptsOff = false)
      ∧ (∀ line w u, r.Generates symbols L.labels st (.interruptsOff line w) u →
        ∃ v, w.compile cs (u.codes [⟨.sei, .implied⟩]) = .ok v ∧ T.mnemonic? u.emitter.addr = some .sei
          ∧ T.mnemonic? v.emitter.addr = some .cli)
      ∧ (∀ path pc, T.Passes ls path pc → ∃ xs, T.opened .interrupts id path = some xs
        ∧ (T.mnemonic? pc = some .cli → ∃ x rest line w u v, xs = x :: rest
          ∧ r.Generates symbols L.labels st (.interruptsOff line w) u ∧ w.compile cs (u.codes [⟨.sei, .implied⟩]) = .ok v
          ∧ x = u.emitter.addr ∧ pc = v.emitter.addr)
        ∧ (∀ k : Code, T.fetch pc = some k.item → T.Departs .interrupts k → ∀ x ∈ xs,
          (∃ line w u, r.Generates symbols L.labels st (.interruptsOff line w) u ∧ x = u.emitter.addr)
            ∧ ∀ line w u, r.Generates symbols L.labels st (.interruptsOff line w) u → x = u.emitter.addr →
              ∃ j, w.Contains j ∧ j.departs .interrupts = true)
        ∧ (T.fetch pc = none → xs = []))
      ∧ ∀ (h : Host) (σ₀ : Cpu) (history : List (Int × Cpu)) (pc : Int) (σ : Cpu), h.labels = ls →
        (∀ o τ τ', h.callee o τ = some τ' → τ'.masked = true → τ.masked = true) → T.Traces h σ₀ history pc σ →
        σ₀.masked = false → σ.masked = true →
        T.fetch pc = none ∨ (∃ k : Code, T.fetch pc = some k.item ∧ T.Departs .interrupts k) →
        ∃ line w u, r.Generates symbols L.labels st (.interruptsOff line w) u ∧ u.emitter.addr ∈ history.map Prod.fst
          ∧ ∃ j, w.Contains j ∧ j.departs .interrupts = true := by
  intro T ls cs
  refine ⟨fun line w hw => ?_, fun line w u hu => hlays.interruptsOff hL hu, fun path pc hp => ?_,
    fun h σ₀ history pc σ hh hcallee ht hstart hmasked hleaves => ?_⟩
  · obtain ⟨t, t', hwalk⟩ := Program.walk_contained ha hlays.mem_routines hbody hw
    exact w.walkInterruptsOff_instrs _ hwalk
  · obtain ⟨xs, hopened, hcloses, hdeparts, hend⟩ := hlays.passes hL hbody .interrupts hp
    refine ⟨xs, hopened, fun hcli => ?_, fun k hf hk x hx => ?_, hend⟩
    · obtain ⟨x, hx, i, u, hgenerates, hencloses⟩ := hcloses hcli
      cases hencloses with
      | @interrupts line w v hw =>
        obtain ⟨rest, rfl⟩ := head?_eq_some_iff.1 hx
        exact ⟨_, rest, line, w, u, v, rfl, hgenerates, hw, rfl, rfl⟩
    · obtain ⟨i, u, y, hgenerates, hencloses, b, hb, j, hj, hd⟩ := hdeparts k hf hk x hx
      cases hencloses with
      | @interrupts line w v hw =>
        obtain rfl := mem_singleton.1 hb
        refine ⟨⟨line, b, u, hgenerates, rfl⟩, fun line' w' u' hgenerates' haddr => ?_⟩
        obtain rfl := hlays.interruptsOff_inj hL hgenerates hgenerates' haddr
        exact ⟨j, hj, hd⟩
  · have hpasses := ht.passes
    rw [hh] at hpasses
    obtain ⟨places, hopened, -, hdeparts, hend⟩ := hlays.passes hL hbody .interrupts hpasses
    have hsub := Text.opened_subset hopened
    rw [← Text.opened_map, Option.map_eq_some_iff] at hopened
    obtain ⟨xs, hxs, rfl⟩ := hopened
    have hne : xs.map Prod.fst ≠ [] := fun hnil => ht.masked hcallee hstart hxs hmasked (map_eq_nil_iff.1 hnil)
    rcases hleaves with hnone | ⟨k, hf, hk⟩
    · exact (hne (hend hnone)).elim
    · obtain ⟨x, hx⟩ := exists_mem_of_ne_nil _ hne
      obtain ⟨i, u, y, hgenerates, hencloses, b, hb, j, hj, hd⟩ := hdeparts k hf hk x hx
      cases hencloses with
      | @interrupts line w v hw =>
        obtain rfl := mem_singleton.1 hb
        exact ⟨line, b, u, hgenerates, hsub hx, j, hj, hd⟩

/-! ### A call after a block without interrupts, and one hidden in it -/

/-- Changes the accumulator in a choice, with interrupts held off, and calls a routine after that. -/
def callAfterUnmasked : Block :=
  .cons (.interruptsOff 0 (.cons (.ifThen 0 .c false setA) (.nil 0))) (.cons (.call 0 "foo") (.nil 0))

theorem callAfterUnmasked_interrupts_let_in :
    ((spoilingProgram callAfterUnmasked).analyse spoilingSymbols).2.isOk = true
      ∧ ∃ L, (spoilingProgram callAfterUnmasked).layOut spoilingSymbols none (.startingAt 0) = .ok L
        ∧ ∃ st st', (spoilingProgram callAfterUnmasked).Lays spoilingSymbols [["main"], ["foo"]] (.startingAt 0)
            (spoilingMain callAfterUnmasked) none st st'
          ∧ (Text.between st.emitter st'.emitter).mnemonic? 6 = some .jmp
          ∧ (∃ history σ, (Text.between st.emitter st'.emitter).Traces ⟨L.emitter.labels, st'.trampolines, fun _ => some⟩
              { restingCpu with c := true } history 6 σ ∧ 0 ∈ history.map Prod.fst)
          ∧ ∀ history σ, (Text.between st.emitter st'.emitter).Traces ⟨L.emitter.labels, st'.trampolines, fun _ => some⟩
              { restingCpu with c := true } history 6 σ → σ.masked = false := by
  refine ⟨rfl, _, rfl, _, _, ⟨_, _, _, [], [("foo", none)], rfl, rfl, rfl, rfl, rfl⟩, rfl, ?_, fun history σ htrace => ?_⟩
  · exact ⟨_, _, .step (.step (.step (.step .start
      (.on (k := ⟨.sei, .implied⟩) rfl (by decide) (by decide)) rfl)
      (.on (k := ⟨.bcc, .relative 2⟩) rfl (by decide) (by decide)) rfl)
      (.on (k := ⟨.lda, .immediate (.byte 1)⟩) rfl (by decide) (by decide)) rfl)
      (.on (k := ⟨.cli, .implied⟩) rfl (by decide) (by decide)) rfl, by decide⟩
  · refine Bool.eq_false_iff.2 fun hmasked => ?_
    have hlet := Program.interrupts_let_in spoilingSymbols (spoilingProgram callAfterUnmasked) _ none (.startingAt 0) _ rfl rfl
      (spoilingMain callAfterUnmasked) none _ _ ⟨_, _, _, [], [("foo", none)], rfl, rfl, rfl, rfl, rfl⟩ callAfterUnmasked rfl
    obtain ⟨line, w, u, hgenerates, -, j, hj, hd⟩ := hlet.2.2.2 _ _ _ _ _ rfl
      (fun _ _ _ hcallee => by cases hcallee; exact id) htrace rfl hmasked
      (.inr ⟨⟨.jmp, .wide 0⟩, rfl, .inr (.inl ⟨rfl, fun _ hid => by cases hid; rfl⟩)⟩)
    have hblock : w = .cons (.ifThen 0 .c false setA) (.nil 0) := by
      have hcontains : callAfterUnmasked.Contains (.interruptsOff line w) := hgenerates.contains rfl
      rcases hcontains with _ | ⟨_ | ⟨⟨⟩⟩ | ⟨hb, -⟩⟩ | ⟨hb, hinside⟩
      · rfl
      · cases hb
      · obtain rfl := mem_singleton.1 hb
        rcases hinside with _ | ⟨⟨⟩⟩ | ⟨hb, hinside⟩
        obtain rfl := mem_singleton.1 hb
        rcases hinside with _ | ⟨⟨⟩⟩ | ⟨hb, hinside⟩
        cases hb
    subst hblock
    rcases hj with _ | ⟨⟨⟩⟩ | ⟨hb, hj⟩
    · cases hd
    · obtain rfl := mem_singleton.1 hb
      rcases hj with _ | ⟨⟨⟩⟩ | ⟨hb, -⟩
      · cases hd
      · cases hb

/-- Calls a routine in a choice, with interrupts held off. -/
def callWhileMasked : Block := .cons (.interruptsOff 0 callInChoice) (.nil 0)

/-- A program is accepted in which a call is hidden in a block without interrupts. The routine is called with interrupts held
off: the instruction that held them off is open where control comes to the call. -/
theorem callWhileMasked_departs_masked :
    ((spoilingProgram callWhileMasked).analyse spoilingSymbols).2.isOk = true
      ∧ callWhileMasked.Contains (.interruptsOff 0 callInChoice) ∧ callInChoice.Contains (.call 0 "foo")
      ∧ ∃ L, (spoilingProgram callWhileMasked).layOut spoilingSymbols none (.startingAt 0) = .ok L
        ∧ ∃ st st', (spoilingProgram callWhileMasked).Lays spoilingSymbols [["main"], ["foo"]] (.startingAt 0)
            (spoilingMain callWhileMasked) none st st'
          ∧ (Text.between st.emitter st'.emitter).mnemonic? 0 = some .sei
          ∧ (Text.between st.emitter st'.emitter).mnemonic? 3 = some .jsr
          ∧ (Text.between st.emitter st'.emitter).Passes L.emitter.labels [1, 0] 3
          ∧ (Text.between st.emitter st'.emitter).opened .interrupts id [1, 0] = some [0]
          ∧ ∃ history σ, (Text.between st.emitter st'.emitter).Traces ⟨L.emitter.labels, st'.trampolines, fun _ => some⟩
              { restingCpu with c := true } history 3 σ ∧ σ.masked = true := by
  refine ⟨rfl, .head, .inside mem_cons_self .head, _, rfl, _, _, ⟨_, _, _, [], [("foo", none)], rfl, rfl, rfl, rfl, rfl⟩,
    rfl, rfl, ?_, rfl, ?_⟩
  · exact .step (.step .start (.on (k := ⟨.sei, .implied⟩) rfl (by decide) (by decide)))
      (.on (k := ⟨.bcc, .relative 2⟩) rfl (by decide) (by decide))
  · exact ⟨_, _, .step (.step .start (.on (k := ⟨.sei, .implied⟩) rfl (by decide) (by decide)) rfl)
      (.on (k := ⟨.bcc, .relative 2⟩) rfl (by decide) (by decide)) rfl, rfl⟩

end CheckedAsm
