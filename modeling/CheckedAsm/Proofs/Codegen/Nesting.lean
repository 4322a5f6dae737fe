import CheckedAsm.Proofs.Analysis.Nested
import CheckedAsm.Proofs.Codegen.Brackets
import CheckedAsm.Proofs.Codegen.Hidden
/-! # The code of a block nests

The code of a block in which interrupts are held off stands between the two instructions that do that, and the code of a block
with bytes set aside stands between those that put the bytes on the stack and those that take them off. Whatever way control
takes through the code of a block, what it opens it closes, in turn and by the instructions that belong together. Only a jump
away, or a call as far as interrupts are concerned, may find something open: what was opened for the blocks it stands in. -/

namespace CheckedAsm

open CodeState Codegen Emitter List

variable {cs : CodeSetting} {D : Discipline} {T : Text} {h : Host}

variable {xs : List Int} {e : Emitter} {target : String}

/-! ### Where the code of an instruction stands -/

/-- The code of an instruction, generated from a state, has the code of a block in it, generated from another. -/
inductive Instr.Enters (cs : CodeSetting) (st : CodeState) : Instr → Block → CodeState → Prop
  | ifThen {l src inverted yes m} :
      branch (.ifThen l src inverted yes) src inverted = .ok m → Enters cs st (.ifThen l src inverted yes) yes (st.branched m)
  | ifElse {l src inverted yes no m} :
      branch (.ifElse l src inverted yes no) src inverted = .ok m →
      Enters cs st (.ifElse l src inverted yes no) yes (st.branched m)
  | otherwise {l src inverted yes no m st1} :
      branch (.ifElse l src inverted yes no) src inverted = .ok m → yes.compile cs (st.branched m) = .ok st1 →
      Enters cs st (.ifElse l src inverted yes no) no
        (if yes.hasGoto then st1.resolve st.emitter.labels.size else st1.parted st.emitter.labels.size)
  | loop {l src inverted body} : Enters cs st (.loop l src inverted body) body st.topped
  | count {l d dir final body} :
      Enters cs st (.count l d dir final body) body st.topped
  | interruptsOff {l body} : Enters cs st (.interruptsOff l body) body (st.codes [⟨.sei, .implied⟩])
  | save {l rs body before} : forEach (push cs) rs = .ok before →
      Enters cs st (.save l rs body) body (st.codes before)
  | pointInto {l p t body} :
      Enters cs st (.pointInto l p t body) body { st with pointers := st.pointers.set p.name t.name }

/-- The code of a block, generated from a state, has the code of an instruction in it, at any depth, generated from another. -/
inductive Block.Generates (cs : CodeSetting) : Block → CodeState → Instr → CodeState → Prop
  | head {i tail st} : Generates cs (.cons i tail) st i st
  | tail {head i tail st st1 u} : head.compile cs st = .ok st1 → tail.Generates cs st1 i u →
      Generates cs (.cons head tail) st i u
  | inside {head i tail b st st1 u} : head.Enters cs st b st1 → b.Generates cs st1 i u →
      Generates cs (.cons head tail) st i u

section

variable {st st1 u : CodeState} {i : Instr} {b : Block}

theorem Instr.Enters.mem_blocks (h : i.Enters cs st b st1) : b ∈ i.blocks := by
  cases h <;> simp [Instr.blocks]

theorem Block.Generates.contains (h : b.Generates cs st i u) : b.Contains i := by
  induction h with
  | head => exact .head
  | tail _ _ ih => exact .tail ih
  | inside he _ ih => exact .inside he.mem_blocks ih

end

/-- The code generated from a state for setting bytes aside puts the byte of a location on the stack at the first place, and
takes it off at the second. -/
def Text.SetsAside (T : Text) (cs : CodeSetting) (u : CodeState) (rs : List Ref) (body : Block) (r : Ref) (x y : Int) : Prop :=
  ∃ front back before f g ks ks' v, rs = front ++ r :: back ∧ forEach (push cs) rs = .ok before
    ∧ body.compile cs (u.codes before) = .ok v ∧ forEach (push cs) front = .ok f ∧ forEach (pull cs) back.reverse = .ok g
    ∧ push cs r = .ok ks ∧ pull cs r = .ok ks' ∧ T.Holds (u.emitter.addr + Code.room f) ks
    ∧ T.Holds (v.emitter.addr + Code.room g) ks' ∧ x = u.emitter.addr + Code.room f + Code.room ks - 1
    ∧ y = v.emitter.addr + Code.room g

/-- The code of an instruction, generated from a state, opens a pair at the first place and closes it at the second. -/
inductive Instr.Encloses (T : Text) (cs : CodeSetting) (u : CodeState) : Bracket → Instr → Int → Int → Prop
  | interrupts {l body v} : body.compile cs (u.codes [⟨.sei, .implied⟩]) = .ok v →
      Encloses T cs u .interrupts (.interruptsOff l body) u.emitter.addr v.emitter.addr
  | stack {l rs body r x y} : T.SetsAside cs u rs body r x y →
      Encloses T cs u .stack (.save l rs body) x y

/-- Whether control leaves the routine at the instruction, or, as far as interrupts are concerned, another routine gets it. -/
def Instr.departs (B : Bracket) : Instr → Bool
  | .goto .. => true
  | .call .. => B = .interrupts
  | _ => false

namespace Discipline

/-- What the discipline says fits an instruction: what the instruction encloses belongs together, and may be open where a
departure stands in it. -/
structure Suits (D : Discipline) (T : Text) (cs : CodeSetting) (i : Instr) (u : CodeState) : Prop where
  pairs : ∀ x y, i.Encloses T cs u D.bracket x y → D.Pairs x y
  stays : ∀ x y, i.Encloses T cs u D.bracket x y → ∀ b ∈ i.blocks, ∀ j, b.Contains j → j.departs D.bracket = true → D.Stays x

/-- What the discipline says fits all instructions of a block. -/
def SuitsAll (D : Discipline) (T : Text) (cs : CodeSetting) (b : Block) (st : CodeState) : Prop :=
  ∀ i u, b.Generates cs st i u → D.Suits T cs i u

/-- The given places may be open where a departure stands in the block. -/
def Allows (D : Discipline) (b : Block) (xs : List Int) : Prop :=
  ∀ j, b.Contains j → j.departs D.bracket = true → ∀ x ∈ xs, D.Stays x

theorem Allows.cons {b : Block} {x : Int} (h : D.Allows b xs)
    (hx : ∀ j, b.Contains j → j.departs D.bracket = true → D.Stays x) : D.Allows b (x :: xs) := by
  intro j hj hd y hy
  rcases mem_cons.1 hy with rfl | hy
  · exact hx j hj hd
  · exact h j hj hd y hy

end Discipline

/-! ### Single instructions -/

section

variable {st st' st1 st2 : CodeState} {m : Mnemonic} {ks : List Code} {i : Instr}

theorem Text.Hosts.nests_codes (hh : T.Hosts h st (st.codes ks)) (hks : Code.Level ks) :
    T.Nests h.labels D st.emitter.addr (st.codes ks).emitter.addr xs xs := by
  have ha : (st.codes ks).emitter.addr = st.emitter.addr + Code.room ks := codes_addr _ _
  rw [ha]
  exact .level hh.carries.holds hks

theorem Codegen.nests_wordComparison {id : LabelId} {low high : Operand}
    (hT : T.Carries e (wordComparison e id low high)) (hk : T.Knows h e (wordComparison e id low high)) :
    T.Nests h.labels D e.addr (wordComparison e id low high).addr xs xs := by
  have hi := wordComparison_items e id low high
  have hq := hk.place (le_rfl) (wordComparison_label e id low high)
  rw [(wordComparison_adds e id low high).addr_eq hi] at hq ⊢
  obtain ⟨hlow, hbne, hhigh⟩ := Text.holds_append.1
    (hT _ hi : T.Holds e.addr ([⟨.lda, .wide id⟩, ⟨.cmp, low⟩] ++ ⟨.bne, .relative e.labels.size⟩ ::
      [⟨.lda, .wideNext id⟩, ⟨.cmp, high⟩]))
  have hlevel : ∀ o o' : Operand, Code.Level [⟨.lda, o⟩, ⟨.cmp, o'⟩] := by
    simp [Code.Level, Mnemonic.isLevel, Mnemonic.isPlain, Mnemonic.sparesSystem]
  refine (Text.Nests.level hlow (hlevel _ _)).seq (.choice hbne rfl ?_ .skip hq)
  have hupper : T.Nests h.labels D _ _ xs xs := Text.Nests.level hhigh (hlevel _ _)
  simp only [Code.room_cons, Code.room_nil, Int.add_assoc, Int.zero_add] at hupper ⊢
  exact hupper

theorem Codegen.Emits.nests {op : Op} {e' : Emitter} (hs : Emits cs h i op e e') (hT : T.Carries e e') (hk : T.Knows h e e') :
    T.Nests h.labels D e.addr e'.addr xs xs := by
  cases hs with
  | line hs =>
    rw [codes_addr]
    exact .level hT.holds hs.2.level
  | word => exact nests_wordComparison hT hk
  | nothing => exact .skip

theorem nests_call {l : Nat} (hc : call cs st target = .ok st') (hh : T.Hosts h st st')
    (hxs : (Instr.call l target).departs D.bracket = true → ∀ x ∈ xs, D.Stays x) :
    T.Nests h.labels D st.emitter.addr st'.emitter.addr xs xs := by
  obtain ⟨o, st1, hg, -, haddr, rfl, -⟩ := call_code hc
  obtain ⟨-, hj⟩ := hh.split hg (.ofCodes st1 [⟨.jsr, o⟩])
  have hf : T.fetch st.emitter.addr = some (Code.item ⟨.jsr, o⟩) := haddr ▸ hj.carries.holds.1
  have ha : (st1.codes [⟨.jsr, o⟩]).emitter.addr = st.emitter.addr + Code.size ⟨.jsr, o⟩ := by
    rw [← haddr]
    exact codes_addr _ _
  rw [ha]
  refine .single hf (fun pc' hgoes => ?_) (.level rfl ?_)
  · rcases hgoes.cases_of_fetch hf with h | ⟨hb, -⟩ | ⟨hj, -⟩
    · exact h
    · cases hb
    · cases hj
  · rintro (h | ⟨h, -⟩ | ⟨h, -⟩)
    · cases h
    · cases h
    · exact hxs (by simpa [Instr.departs] using h)

theorem nests_goto {l : Nat} (hl : ∀ name id, cs.label name = .ok id → T.inner id = false)
    (hj : jump cs st target = .ok st') (hh : T.Hosts h st st')
    (hxs : (Instr.goto l target).departs D.bracket = true → ∀ x ∈ xs, D.Stays x) :
    T.Nests h.labels D st.emitter.addr st'.emitter.addr xs xs := by
  obtain ⟨o, ho, rfl⟩ := jump_code hj
  have hf : T.fetch st.emitter.addr = some (Code.item ⟨.jmp, o⟩) := hh.carries.holds.1
  have ha : (st.codes [⟨.jmp, o⟩]).emitter.addr = st.emitter.addr + Code.size ⟨.jmp, o⟩ := codes_addr _ _
  rw [ha]
  refine .single hf (fun pc' hgoes => ?_) (.level rfl fun _ => hxs rfl)
  rcases hgoes.cases_of_fetch hf with h | ⟨hb, -⟩ | ⟨-, id, hwide, hinner, -⟩
  · exact h
  · cases hb
  · -- the name that the jump goes to stands elsewhere
    obtain rfl : o = .wide id := hwide
    simp only [CodeSetting.exit, bind_eq_ok] at ho
    obtain ⟨id', hid, t, -, ho⟩ := ho
    cases t with
    | routine sig =>
      cases ho
      rw [hl target id hid] at hinner
      cases hinner
    | _ => cases ho

/-! ### Loops -/

theorem nests_count {l : Nat} {d : Ref} {dir : Direction} {final : Const} {body : Block}
    (hh : T.Hosts h st st') (hc : (Instr.count l d dir final body).compile cs st = .ok st')
    (hbody : ∀ st1, body.compile cs st.topped = .ok st1 → T.Hosts h st.topped st1 →
      T.Nests h.labels D st.emitter.addr st1.emitter.addr xs xs) :
    T.Nests h.labels D st.emitter.addr st'.emitter.addr xs xs := by
  cases Instr.compiled hc with | count _ st1 ks e hb hk hl he =>
  obtain ⟨hbody', h1, h2, hbne, hplace⟩ := Text.Hosts.count (body.compile_grows _ _ hb) (compare_adds he) hh
  have hround : T.Nests h.labels D st.emitter.addr e.addr xs xs :=
    ((hbody st1 hb hbody').seq (h1.nests_codes (countStep_sound ks hk).2.level)).seq ((compare_emits he).nests h2.carries h2.knows)
  have ha : (e.codes [⟨.bne, .relative st.emitter.labels.size⟩]).addr = e.addr + 2 := codes_addr _ _
  have hround := hround.repeatWhile hbne rfl hplace
  rw [← ha] at hround
  exact hround

/-! ### Pairs -/

theorem Codegen.forEach_spares {B : Bracket} {code : Ref → Except Fault (List Code)} {rs : List Ref}
    (hcode : ∀ r ks, code r = .ok ks → ∀ k ∈ ks, k.mnemonic ≠ B.opening ∧ k.mnemonic ≠ B.closing) (hk : forEach code rs = .ok ks) :
    ∀ k ∈ ks, k.mnemonic ≠ B.opening ∧ k.mnemonic ≠ B.closing := by
  induction rs generalizing ks with
  | nil =>
    cases hk
    simp
  | cons r rs ih =>
    obtain ⟨ks1, ks2, h1, h2, rfl⟩ := forEach_cons_ok.1 hk
    exact forall_mem_append.2 ⟨hcode r ks1 h1, ih h2⟩

theorem Codegen.Sound.interrupts (h : Sound cs ks) :
    ∀ k ∈ ks, k.mnemonic ≠ Bracket.interrupts.opening ∧ k.mnemonic ≠ Bracket.interrupts.closing :=
  fun k hk => Bracket.ne_of_sparesSystem (Bool.and_eq_true_iff.1 (h.level k hk)).2

theorem Codegen.push_interrupts {r : Ref} (hk : push cs r = .ok ks) :
    ∀ k ∈ ks, k.mnemonic ≠ Bracket.interrupts.opening ∧ k.mnemonic ≠ Bracket.interrupts.closing := by
  obtain ⟨f, hf, rfl⟩ := push_code hk
  exact forall_mem_append.2 ⟨hf.interrupts, by decide⟩

theorem Codegen.pull_interrupts {r : Ref} (hk : pull cs r = .ok ks) :
    ∀ k ∈ ks, k.mnemonic ≠ Bracket.interrupts.opening ∧ k.mnemonic ≠ Bracket.interrupts.closing := by
  obtain ⟨g, hg, rfl⟩ := pull_code hk
  exact forall_mem_cons.2 ⟨by decide, hg.interrupts⟩

/-- Bytes set aside around a stretch. The induction takes one location at a time, from the outside to the inside. -/
theorem nests_setAside {rs : List Ref} {before after : List Code} {p q : Int} (departs : Prop) (hD : D.bracket = .stack)
    (hbefore : forEach (push cs) rs = .ok before) (hafter : forEach (pull cs) rs.reverse = .ok after)
    (hT : T.Holds p before) (hT' : T.Holds q after)
    (hpairs : ∀ front r back f g ks ks', rs = front ++ r :: back → forEach (push cs) front = .ok f →
      forEach (pull cs) back.reverse = .ok g → push cs r = .ok ks → pull cs r = .ok ks' → T.Holds (p + Code.room f) ks →
      T.Holds (q + Code.room g) ks' → D.Pairs (p + Code.room f + Code.room ks - 1) (q + Code.room g)
        ∧ (departs → D.Stays (p + Code.room f + Code.room ks - 1)))
    (hbody : ∀ xs, (departs → ∀ x ∈ xs, D.Stays x) → T.Nests h.labels D (p + Code.room before) q xs xs)
    (hxs : departs → ∀ x ∈ xs, D.Stays x) : T.Nests h.labels D p (q + Code.room after) xs xs := by
  induction rs generalizing p before after xs with
  | nil =>
    obtain rfl : [] = before := Except.ok.inj hbefore
    obtain rfl : [] = after := Except.ok.inj hafter
    have hmiddle := hbody xs hxs
    rw [Code.room_nil, Int.add_zero] at hmiddle ⊢
    exact hmiddle
  | cons r rs ih =>
    obtain ⟨ks, before', hks, hbefore', rfl⟩ := forEach_cons_ok.1 hbefore
    rw [reverse_cons] at hafter
    obtain ⟨after', ks', hafter', hks', rfl⟩ := forEach_concat hafter
    obtain ⟨hT1, hT2⟩ := Text.holds_append.1 hT
    obtain ⟨hT1', hT2'⟩ := Text.holds_append.1 hT'
    have hhere := hpairs [] r rs [] after' ks ks' rfl rfl hafter' hks hks' (by simpa using hT1) hT2'
    rw [Code.room_nil, Int.add_zero] at hhere
    obtain ⟨f, hf, rfl⟩ := push_code hks
    obtain ⟨g, hg, rfl⟩ := pull_code hks'
    have hroom : Code.room (f ++ [⟨.pha, .implied⟩]) = Code.room f + 1 := by
      rw [Code.room_append]
      rfl
    have hplace : p + Code.room (f ++ [⟨.pha, .implied⟩]) - 1 = p + Code.room f := by
      rw [hroom]
      omega
    rw [hplace] at hhere
    obtain ⟨hpair, hstay⟩ := hhere
    obtain ⟨hTf, hpha⟩ := Text.holds_append.1 hT1
    -- on the way in, the byte is put on the stack
    have hin : T.Nests h.labels D p (p + Code.room (f ++ [⟨.pha, .implied⟩])) xs ((p + Code.room f) :: xs) := by
      rw [hroom, ← Int.add_assoc]
      refine (Text.Nests.level hTf hf.level).seq (.single hpha.1 (fun pc' hgoes => hgoes.of_plain hpha.1 rfl) ⟨?_, ?_, ?_⟩)
      · rw [hD]
        exact Bracket.after_opening
      · rw [hD]
        rintro ⟨⟩
      · exact fun hd => (Text.not_departs_of_plain (k := ⟨.pha, .implied⟩) rfl hd).elim
    -- on the way out, it is taken off
    have hout : T.Nests h.labels D (q + Code.room after') (q + Code.room (after' ++ ⟨.pla, .implied⟩ :: g))
        ((p + Code.room f) :: xs) xs := by
      rw [Code.room_append, Code.room_cons, ← Int.add_assoc, ← Int.add_assoc]
      refine .cons hT2'.1 (fun pc' hgoes => hgoes.of_plain hT2'.1 rfl) ⟨?_, ?_, ?_⟩ (.level hT2'.2 hg.level)
      · rw [hD]
        exact Bracket.after_closing
      · exact fun _ => ⟨_, rfl, hpair⟩
      · exact fun hd => (Text.not_departs_of_plain (k := ⟨.pla, .implied⟩) rfl hd).elim
    refine (hin.seq (ih hbefore' hafter' hT2 hT1' ?_ ?_ ?_)).seq hout
    · intro front r' back f' g' ls ls' hsplit hfront hback hls hls' hH hH'
      have hfront' : forEach (push cs) (r :: front) = .ok (f ++ [⟨.pha, .implied⟩] ++ f') :=
        forEach_cons_ok.2 ⟨_, _, hks, hfront, rfl⟩
      have hroom' : p + Code.room (f ++ [⟨.pha, .implied⟩] ++ f')
          = p + Code.room (f ++ [⟨.pha, .implied⟩]) + Code.room f' := by
        rw [Code.room_append, Int.add_assoc]
      have hinner := hpairs (r :: front) r' back _ g' ls ls' (by rw [hsplit]; rfl) hfront' hback hls hls'
      rw [hroom'] at hinner
      exact hinner hH hH'
    · intro ys hys
      have hmiddle := hbody ys hys
      rwa [Code.room_append, ← Int.add_assoc] at hmiddle
    · intro hdeparts x hx
      rcases mem_cons.1 hx with rfl | hx
      · exact hstay hdeparts
      · exact hxs hdeparts x hx

theorem nests_save {l : Nat} {rs : List Ref} {body : Block} (hh : T.Hosts h st st')
    (hc : (Instr.save l rs body).compile cs st = .ok st') (hsuits : D.Suits T cs (.save l rs body) st) (hallows : D.Allows body xs)
    (hbody : ∀ before st1 ys, forEach (push cs) rs = .ok before → body.compile cs (st.codes before) = .ok st1 →
      T.Hosts h (st.codes before) st1 → D.Allows body ys →
      T.Nests h.labels D (st.codes before).emitter.addr st1.emitter.addr ys ys) :
    T.Nests h.labels D st.emitter.addr st'.emitter.addr xs xs := by
  cases Instr.compiled hc with | save _ before st1 after hbefore hb hafter =>
  obtain ⟨h1, h2, h3⟩ := hh.between (body.compile_grows _ _ hb)
  have ha : (st.codes before).emitter.addr = st.emitter.addr + Code.room before := codes_addr _ _
  have ha' : (st1.codes after).emitter.addr = st1.emitter.addr + Code.room after := codes_addr _ _
  rw [ha']
  cases hD : D.bracket with
  | stack =>
    refine nests_setAside (∃ j, body.Contains j ∧ j.departs D.bracket = true) hD hbefore hafter h1.carries.holds
      h3.carries.holds ?_ (fun ys hys => ?_) fun ⟨j, hj, hd⟩ => hallows j hj hd
    · intro front r back f g ks ks' hsplit hfront hback hks hks' hH hH'
      have haside : T.SetsAside cs st rs body r (st.emitter.addr + Code.room f + Code.room ks - 1) (st1.emitter.addr + Code.room g) :=
        ⟨front, back, before, f, g, ks, ks', st1, hsplit, hbefore, hb, hfront, hback, hks, hks', hH, hH', rfl, rfl⟩
      have hencloses : (Instr.save l rs body).Encloses T cs st D.bracket _ _ := hD.symm ▸ Instr.Encloses.stack haside
      refine ⟨hsuits.pairs _ _ hencloses, ?_⟩
      rintro ⟨j, hj, hd⟩
      exact hsuits.stays _ _ hencloses body (mem_singleton_self _) j hj hd
    · rw [← ha]
      exact hbody before st1 ys hbefore hb h2 fun j hj hd => hys ⟨j, hj, hd⟩
  | interrupts =>
    have hpush := hD ▸ forEach_spares (fun _ _ => push_interrupts) hbefore
    have hpull := hD ▸ forEach_spares (fun _ _ => pull_interrupts) hafter
    have hin : T.Nests h.labels D st.emitter.addr (st.codes before).emitter.addr xs xs := by
      rw [ha]
      exact .straight h1.carries.holds (forEach_straight (fun _ _ => push_straight) hbefore) hpush
    exact (hin.seq (hbody before st1 xs hbefore hb h2 hallows)).seq
      (.straight h3.carries.holds (forEach_straight (fun _ _ => pull_straight) hafter) hpull)

theorem nests_interruptsOff {l : Nat} {body : Block} (hh : T.Hosts h st st')
    (hc : (Instr.interruptsOff l body).compile cs st = .ok st') (hsuits : D.Suits T cs (.interruptsOff l body) st)
    (hallows : D.Allows body xs)
    (hbody : ∀ st1 ys, body.compile cs (st.codes [⟨.sei, .implied⟩]) = .ok st1 →
      T.Hosts h (st.codes [⟨.sei, .implied⟩]) st1 → D.Allows body ys →
      T.Nests h.labels D (st.codes [⟨.sei, .implied⟩]).emitter.addr st1.emitter.addr ys ys) :
    T.Nests h.labels D st.emitter.addr st'.emitter.addr xs xs := by
  cases Instr.compiled hc with | interruptsOff _ st1 hb =>
  obtain ⟨h1, h2, h3⟩ := hh.between (body.compile_grows _ _ hb)
  have hsei : T.fetch st.emitter.addr = some (Code.item ⟨.sei, .implied⟩) := h1.carries.holds.1
  have hcli : T.fetch st1.emitter.addr = some (Code.item ⟨.cli, .implied⟩) := h3.carries.holds.1
  have ha : (st.codes [⟨.sei, .implied⟩]).emitter.addr = st.emitter.addr + Code.size ⟨.sei, .implied⟩ := codes_addr _ _
  have ha' : (st1.codes [⟨.cli, .implied⟩]).emitter.addr = st1.emitter.addr + Code.size ⟨.cli, .implied⟩ :=
    codes_addr _ _
  rw [ha']
  -- what is open within the block
  obtain ⟨ys, hys, hin, hout⟩ : ∃ ys, D.Allows body ys ∧ D.Admits T st.emitter.addr ⟨.sei, .implied⟩ xs ys
      ∧ D.Admits T st1.emitter.addr ⟨.cli, .implied⟩ ys xs := by
    have hquiet : ∀ k : Code, k.mnemonic.isPlain = true → ∀ zs : List Int, T.Departs D.bracket k → ∀ x ∈ zs, D.Stays x :=
      fun k hk zs hd => (Text.not_departs_of_plain hk hd).elim
    cases hD : D.bracket with
    | stack =>
      refine ⟨xs, hallows, ⟨?_, ?_, hquiet _ rfl _⟩, ⟨?_, ?_, hquiet _ rfl _⟩⟩
      all_goals
        rw [hD]
        first | rfl | rintro ⟨⟩
    | interrupts =>
      have hencloses : (Instr.interruptsOff l body).Encloses T cs st D.bracket _ _ := hD.symm ▸ Instr.Encloses.interrupts hb
      have hpair := hsuits.pairs _ _ hencloses
      have hstays := hsuits.stays _ _ hencloses body (mem_singleton_self _)
      refine ⟨st.emitter.addr :: xs, hallows.cons hstays, ⟨?_, ?_, hquiet _ rfl _⟩, ⟨?_, fun _ => ⟨_, rfl, hpair⟩, hquiet _ rfl _⟩⟩
      · rw [hD]
        exact Bracket.after_opening
      · rw [hD]
        rintro ⟨⟩
      · rw [hD]
        exact Bracket.after_closing
  have hmiddle := hbody st1 ys hb h2 hys
  rw [ha] at hmiddle
  exact (Text.Nests.cons hsei (fun pc' hgoes => hgoes.of_plain hsei rfl) hin hmiddle).seq
    (.single hcli (fun pc' hgoes => hgoes.of_plain hcli rfl) hout)

end

/-! ### All instructions -/

mutual

/-- The code of an instruction nests. -/
theorem Instr.nests (hl : ∀ name id, cs.label name = .ok id → T.inner id = false) (i : Instr) (st st' : CodeState) (xs : List Int)
    (hc : i.compile cs st = .ok st') (hh : T.Hosts h st st') (hsuits : D.Suits T cs i st)
    (hall : ∀ b st1, i.Enters cs st b st1 → D.SuitsAll T cs b st1) (hself : i.departs D.bracket = true → ∀ x ∈ xs, D.Stays x)
    (hallows : ∀ b ∈ i.blocks, D.Allows b xs) : T.Nests h.labels D st.emitter.addr st'.emitter.addr xs xs := by
  cases Instr.compiled hc with
  | op he =>
    exact (single_emits he).nests hh.carries hh.knows
  | call hc => exact nests_call hc hh hself
  | goto hc => exact nests_goto hl hc hh hself
  | reset hc =>
    obtain ⟨table, ks, -, hs, rfl, -⟩ := reset_code hc
    exact hh.nests_codes hs.2.level
  | ifThen yes m st1 hm hy =>
    obtain ⟨hh1, hb, hplace⟩ := hh.ifThen (yes.compile_grows _ _ hy)
    have hyes := yes.nests hl _ _ xs hy hh1 (hall _ _ (.ifThen hm)) (hallows yes (by simp [Instr.blocks]))
    rw [branched_addr] at hyes
    exact .choice hb (Mnemonic.isBranch_of_branch hm) hyes .skip hplace
  | ifElse yes no m st1 hm hy hn =>
    have hgy := yes.compile_grows _ _ hy
    have hbranch := Mnemonic.isBranch_of_branch hm
    have hyes := fun hh1 : T.Hosts h (st.branched m) st1 =>
      yes.nests hl _ _ xs hy hh1 (hall _ _ (.ifElse hm)) (hallows yes (by simp [Instr.blocks]))
    rw [branched_addr] at hyes
    have hsuits := hall no _ (.otherwise hm hy)
    have hno := hallows no (by simp [Instr.blocks])
    obtain ⟨hgoto, hn⟩ | ⟨hgoto, st2, hn, rfl⟩ := hn
    · rw [if_pos hgoto] at hsuits
      obtain ⟨hh1, hh2⟩ := hh.split (((CodeState.Grows.ofBranched st m).trans hgy).resolve le_rfl) (no.compile_grows _ _ hn)
      obtain ⟨hh1, hb, hplace⟩ := hh1.ifThen hgy
      exact .choice hb hbranch (hyes hh1) (no.nests hl (st1.resolve st.emitter.labels.size) st' xs hn hh2 hsuits hno) hplace
    · rw [hgoto] at hsuits
      obtain ⟨⟨hh1, hh2⟩, hb, hj, hinner, hplace, hend⟩ := hh.ifElse hgy (no.compile_grows _ _ hn)
      have ha : (st1.parted st.emitter.labels.size).emitter.addr = st1.emitter.addr + 3 := codes_addr _ _
      have hno := no.nests hl _ _ xs hn hh2 hsuits hno
      rw [ha] at hplace hno
      exact .choiceElse hb hbranch (hyes hh1) hj hinner hno hplace hend
  | forever body st1 hb =>
    obtain ⟨⟨hbody, hend⟩, hplace, htop⟩ := hh.loop (body.compile_grows _ _ hb) (.ofCodes _ _)
    have hround := body.nests hl st.topped st1 xs hb hbody (hall _ _ .loop) (hallows body (by simp [Instr.blocks]))
    have ha : (st1.codes [⟨.jmp, .wide st.emitter.labels.size⟩]).emitter.addr = st1.emitter.addr + 3 := codes_addr _ _
    rw [ha]
    exact .repeatForever hround hend.carries.holds.1 htop hplace
  | loop body m st1 hb hm =>
    obtain ⟨⟨hbody, hend⟩, hplace, -⟩ := hh.loop (body.compile_grows _ _ hb) (.ofCodes _ _)
    have hround := body.nests hl st.topped st1 xs hb hbody (hall _ _ .loop) (hallows body (by simp [Instr.blocks]))
    have ha : (st1.codes [⟨m, .relative st.emitter.labels.size⟩]).emitter.addr = st1.emitter.addr + 2 := codes_addr _ _
    rw [ha]
    exact .repeatWhile hround hend.carries.holds.1 (Mnemonic.isBranch_of_branch hm) hplace
  | count body =>
    exact nests_count hh hc fun st1 hb hbody =>
      body.nests hl st.topped st1 xs hb hbody (hall _ _ .count) (hallows body (by simp [Instr.blocks]))
  | interruptsOff body =>
    exact nests_interruptsOff hh hc hsuits (hallows body (by simp [Instr.blocks])) fun st1 ys hb hbody hys =>
      body.nests hl _ st1 ys hb hbody (hall _ _ .interruptsOff) hys
  | save body =>
    exact nests_save hh hc hsuits (hallows body (by simp [Instr.blocks])) fun before st1 ys hbefore hb hbody hys =>
      body.nests hl _ st1 ys hb hbody (hall _ _ (.save hbefore)) hys
  | pointInto body st1 hb =>
    have hr := body.nests hl _ _ xs hb ⟨hh.carries, hh.knows, hh.trampolines⟩ (hall _ _ .pointInto)
      (hallows body (by simp [Instr.blocks]))
    exact hr

/-- The code of a block nests. -/
theorem Block.nests
    (hl : ∀ name id, cs.label name = .ok id → T.inner id = false) : (b : Block) → (st st' : CodeState) → (xs : List Int) →
    b.compile cs st = .ok st' → T.Hosts h st st' → D.SuitsAll T cs b st → D.Allows b xs →
    T.Nests h.labels D st.emitter.addr st'.emitter.addr xs xs
  | .nil l, st, st', xs, hc, _, _, _ => by
    cases hc
    exact .skip
  | .cons head tail, st, st', xs, hc, hh, hsuits, hallows => by
    obtain ⟨st1, hhead, htail⟩ := compile_cons hc
    obtain ⟨h1, h2⟩ := hh.split (head.compile_grows _ _ hhead) (tail.compile_grows _ _ htail)
    have hfirst := head.nests hl _ _ xs hhead h1 (hsuits _ _ .head) (fun b st2 he i u hi => hsuits i u (.inside he hi))
      (hallows head .head) fun b hb j hj => hallows j (.inside hb hj)
    exact hfirst.seq (tail.nests hl _ _ xs htail h2 (fun i u hi => hsuits i u (.tail hhead hi)) fun j hj => hallows j (.tail hj))

end

end CheckedAsm
