import CheckedAsm.Proofs.Codegen.Footprint
/-! # Code that the analysis does not see

Three instructions change more than the analysis records for them. The code at the end of a counting loop compares, which sets
three flags; the code that sets bytes aside and takes them back goes through the accumulator, which sets two flags; and the code
that points a pointer somewhere uses the accumulator for it. -/

namespace CheckedAsm

open Codegen List

/-- The registers and flags. -/
def registers : List Ref := Symbols.builtins.map (.location ·.1)

/-- The registers and flags have no labels. -/
def CodeSetting.Unlabelled (cs : CodeSetting) : Prop := ∀ r ∈ registers, ∀ id, cs.labelOf r ≠ .ok id

/-! ### Setting bytes aside -/

section

variable {cs : CodeSetting} {ls : Labels} {r : Ref} {rs : List Ref} {W : Set Ref} {F : Set Int} {I : Prop} {σ τ : Cpu}
  {before after : List Code}

/-- The registers and flags that may be different after some bytes were set aside and taken back, where the code in between
changes the given ones. -/
def unsaved (rs : List Ref) (W : Set Ref) : Set Ref :=
  {q | (q ∈ W ∧ q ∉ rs) ∨ q = .z ∨ q = .n ∨ (q = .a ∧ rs.head? ≠ some .a)}

/-- The bytes that may be different after some were set aside and taken back. -/
def CodeSetting.unsavedCells (cs : CodeSetting) (ls : Labels) (rs : List Ref) (F : Set Int) : Set Int :=
  {q | q ∈ F ∧ ∀ r ∈ rs, ∀ id, cs.labelOf r = .ok id → q ≠ ls.place id % 65536}

/-- What is not restored is what was changed and not set aside. -/
theorem not_mem_of_unsaved {q : Ref} (hq : q ∉ unsaved [r] W) (hne : q ≠ r) : q ∉ W :=
  fun hmem => hq (.inl ⟨hmem, by simpa using hne⟩)

theorem not_mem_of_unsavedCells {q : Int} (hr : ∀ id, cs.labelOf r ≠ .ok id)
    (hq : q ∉ cs.unsavedCells ls [r] F) : q ∉ F :=
  fun hmem => hq ⟨hmem, by simpa using fun id hid => (hr id hid).elim⟩

/-- One byte that is set aside is as it was when it has been taken back. -/
theorem saved_one (hnames : cs.Unlabelled) (hpush : push cs r = .ok before) (hpull : pull cs r = .ok after)
    (hbody : (Code.execAll ls before σ).Keeps W F I τ) :
    σ.Keeps (unsaved [r] W) (cs.unsavedCells ls [r] F) I (Code.execAll ls after τ) := by
  have hz : Ref.z ∈ unsaved [r] W := .inr (.inl rfl)
  have hn : Ref.n ∈ unsaved [r] W := .inr (.inr (.inl rfl))
  have ha : r ≠ .a → Ref.a ∈ unsaved [r] W := fun hr => .inr (.inr (.inr ⟨rfl, by simpa using hr⟩))
  unfold push at hpush
  unfold pull at hpull
  by_cases hra : r = .a
  · subst hra
    cases hpush
    cases hpull
    have hstack : τ.stack = σ.a :: σ.stack := hbody.stack
    exact {
      a := fun _ => congrArg (List.headD · 0) hstack
      x := fun hq => hbody.x (not_mem_of_unsaved hq (by decide))
      y := fun hq => hbody.y (not_mem_of_unsaved hq (by decide))
      c := fun hq => hbody.c (not_mem_of_unsaved hq (by decide))
      z := fun hq => (hq hz).elim
      n := fun hq => (hq hn).elim
      v := fun hq => hbody.v (not_mem_of_unsaved hq (by decide))
      masked := hbody.masked
      memory := fun q hq => hbody.memory q (not_mem_of_unsavedCells (hnames _ (by decide)) hq)
      stack := congrArg List.tail hstack }
  rw [if_neg hra] at hpush hpull
  by_cases hrx : r = .x
  · subst hrx
    cases hpush
    cases hpull
    have hstack : τ.stack = σ.x :: σ.stack := hbody.stack
    exact {
      a := fun hq => (hq (ha hra)).elim
      x := fun _ => congrArg (List.headD · 0) hstack
      y := fun hq => hbody.y (not_mem_of_unsaved hq (by decide))
      c := fun hq => hbody.c (not_mem_of_unsaved hq (by decide))
      z := fun hq => (hq hz).elim
      n := fun hq => (hq hn).elim
      v := fun hq => hbody.v (not_mem_of_unsaved hq (by decide))
      masked := hbody.masked
      memory := fun q hq => hbody.memory q (not_mem_of_unsavedCells (hnames _ (by decide)) hq)
      stack := congrArg List.tail hstack }
  rw [if_neg hrx] at hpush hpull
  by_cases hry : r = .y
  · subst hry
    cases hpush
    cases hpull
    have hstack : τ.stack = σ.y :: σ.stack := hbody.stack
    exact {
      a := fun hq => (hq (ha hra)).elim
      x := fun hq => hbody.x (not_mem_of_unsaved hq (by decide))
      y := fun _ => congrArg (List.headD · 0) hstack
      c := fun hq => hbody.c (not_mem_of_unsaved hq (by decide))
      z := fun hq => (hq hz).elim
      n := fun hq => (hq hn).elim
      v := fun hq => hbody.v (not_mem_of_unsaved hq (by decide))
      masked := hbody.masked
      memory := fun q hq => hbody.memory q (not_mem_of_unsavedCells (hnames _ (by decide)) hq)
      stack := congrArg List.tail hstack }
  rw [if_neg hry] at hpush hpull
  simp only [bind_eq_ok, pure_eq_ok] at hpush hpull
  obtain ⟨id, hid, rfl⟩ := hpush
  obtain ⟨id', hid', rfl⟩ := hpull
  obtain rfl : id = id' := by
    rw [hid] at hid'
    cases hid'
    rfl
  have hstack : τ.stack = σ.memory (ls.place id % 65536) :: σ.stack := by
    rw [hbody.stack, ← Operand.place_wide (σ := σ)]
    rfl
  have hne : ∀ q ∈ registers, q ≠ r := by
    rintro q hq rfl
    exact hnames q hq id hid
  exact {
    a := fun hq => (hq (ha hra)).elim
    x := fun hq => hbody.x (not_mem_of_unsaved hq (hne _ (by decide)))
    y := fun hq => hbody.y (not_mem_of_unsaved hq (hne _ (by decide)))
    c := fun hq => hbody.c (not_mem_of_unsaved hq (hne _ (by decide)))
    z := fun hq => (hq hz).elim
    n := fun hq => (hq hn).elim
    v := fun hq => hbody.v (not_mem_of_unsaved hq (hne _ (by decide)))
    masked := hbody.masked
    memory := fun q hq => by
      show (if q = (Operand.wide id).place ls (τ.pull) then τ.stack.headD 0 else τ.memory q) = σ.memory q
      rw [Operand.place_wide, hstack]
      split
      · next heq => rw [heq]; rfl
      · next hq' =>
        refine hbody.memory q fun hmem => hq ⟨hmem, ?_⟩
        simpa [hid] using hq'
    stack := congrArg List.tail hstack }

theorem forEach_concat {code : Ref → Except Fault (List Code)} (h : forEach code (rs ++ [r]) = .ok after) :
    ∃ ks ks', forEach code rs = .ok ks ∧ code r = .ok ks' ∧ after = ks ++ ks' := by
  simp only [forEach, mapM_append, mapM_cons, mapM_nil, bind_eq_ok, pure_eq_ok] at h
  obtain ⟨parts, ⟨parts1, hparts, last, ⟨ks', hks, rest, rfl, rfl⟩, rfl⟩, rfl⟩ := h
  refine ⟨parts1.flatten, ks', ?_, hks, by simp⟩
  simp only [forEach, bind_eq_ok, pure_eq_ok]
  exact ⟨parts1, hparts, rfl⟩

/-- Bytes that are set aside are as they were when they have been taken back, the last one first. -/
theorem saved (hnames : cs.Unlabelled) (hpush : forEach (push cs) rs = .ok before)
    (hpull : forEach (pull cs) rs.reverse = .ok after) (hbody : (Code.execAll ls before σ).Keeps W F I τ) :
    σ.Keeps (unsaved rs W) (cs.unsavedCells ls rs F) I (Code.execAll ls after τ) := by
  induction rs generalizing σ τ before after with
  | nil =>
    cases hpush
    cases hpull
    exact hbody.mono (fun q hq => .inl ⟨hq, by simp⟩) (fun q hq => ⟨hq, by simp⟩) id
  | cons r rs ih =>
    rw [reverse_cons] at hpull
    obtain ⟨before1, before2, hpush1, hpush2, rfl⟩ := forEach_cons_ok.1 hpush
    obtain ⟨after2, after1, hpull2, hpull1, rfl⟩ := forEach_concat hpull
    rw [Code.execAll_append] at hbody ⊢
    refine (saved_one hnames hpush1 hpull1 (ih hpush2 hpull2 hbody)).mono ?_ ?_ id
    · rintro q (⟨⟨hq, hrs⟩ | hq | hq | ⟨rfl, hrs⟩, hne⟩ | hq | hq | hq)
      · exact .inl ⟨hq, by simpa using ⟨by simpa using hne, hrs⟩⟩
      · exact .inr (.inl hq)
      · exact .inr (.inr (.inl hq))
      · exact .inr (.inr (.inr ⟨rfl, by simpa using fun heq => hne (by simp [heq])⟩))
      · exact .inr (.inl hq)
      · exact .inr (.inr (.inl hq))
      · exact .inr (.inr (.inr (by simpa using hq)))
    · rintro q ⟨⟨hq, hrs⟩, hr⟩
      exact ⟨hq, forall_mem_cons.2 ⟨forall_mem_singleton.1 hr, hrs⟩⟩

theorem CodeSetting.cells_of_byte {q : Int} (hr : cs.typeOf r = .ok .byte) (hq : q ∈ cs.cells ls r) :
    ∃ id, cs.labelOf r = .ok id ∧ q = ls.place id % 65536 := by
  obtain ⟨id, k, hid, hk, rfl⟩ := hq
  have hzero : k = 0 := by
    rcases hk with hk | ⟨t, ht, hk⟩
    · exact hk
    · rw [Ref.settled_of_typed hr, hr] at ht
      cases ht
      simpa [Ty.covers] using hk
  exact ⟨id, hid, by rw [hzero, Int.add_zero]⟩

/-- What is changed between setting bytes aside and taking them back, less the bytes, is changed in the end. -/
theorem unsaved_footprint {kept : Set Int} (hbytes : ∀ r ∈ rs, cs.typeOf r = .ok .byte) :
    cs.unsavedCells ls rs (cs.footprint ls W ∪ kept) ⊆ cs.footprint ls (unsaved rs W) ∪ kept := by
  rintro q ⟨⟨r, hr, hq⟩ | hq, hback⟩
  · refine .inl ⟨r, .inl ⟨hr, fun hmem => ?_⟩, hq⟩
    obtain ⟨id, hid, hplace⟩ := CodeSetting.cells_of_byte (hbytes r hmem) hq
    exact hback r hmem id hid hplace
  · exact .inr hq

end

/-! ### Counting and pointing -/

section

variable {cs : CodeSetting} {h : Host} {i : Instr} {d p : Ref} {dir : Direction} {final : Const} {σ : Cpu} {out : Outcome}
  {env : Pointees}

theorem limit_byte {past : Const} (hlimit : limit final dir = .ok past) : past.ty = .byte := by
  cases dir with
  | up =>
    simp only [limit, Const.succ] at hlimit
    split at hlimit
    · next hty =>
      cases hlimit
      exact hty
    · cases hlimit
  | down =>
    simp only [limit, Const.pred] at hlimit
    split at hlimit
    · next hty =>
      cases hlimit
      exact hty
    · cases hlimit

/-- Only registers can be compared, so that what is compared is a location by its name. -/
theorem named_of_compareMnemonic? {m : Mnemonic} (hm : compareMnemonic? d = some m) :
    (∀ q, d ≠ .indirect q) ∧ d.struck env = [d] ∧ d.Within cs h.labels env σ := by
  have hname : d.name.length = 1 := by
    unfold compareMnemonic? at hm
    split at hm
    case h_4 => cases hm
    all_goals
      next hname =>
      rw [hname]
      rfl
  cases d with
  | location | pending | constant => exact ⟨nofun, rfl, trivial⟩
  | indexed b o j =>
    have hplus : "+".length = 1 := rfl
    simp only [Ref.name, String.length_append] at hname
    omega
  | indirect b =>
    have hclose : "]+y".length = 3 := rfl
    simp only [Ref.name, String.length_append] at hname
    omega

theorem ofCodes_ends {x : Except Fault (List Code)} (he : (Meaning.ofCodes h x).ends σ out) :
    ∃ ks, x = .ok ks ∧ out = .done (Code.execAll h.labels ks σ) := by
  cases x with
  | error => exact he.elim
  | ok ks =>
    obtain ⟨σ', rfl, rfl⟩ := he
    exact ⟨ks, rfl, rfl⟩

/-- The end of a counting loop changes the counter, and three flags. -/
theorem counted_alters (he : (counted cs h i d dir final).ends σ out) :
    ∃ σ', out = .done σ' ∧ cs.Alters h.labels [d, .z, .n, .c] σ σ' := by
  unfold counted at he
  split at he
  · next past hlimit =>
    have hbyte : isWordSource cs (.constant past) = .ok false := by simp [isWordSource, limit_byte hlimit]
    obtain ⟨t, τ, hstep, -⟩ | ⟨τ, hstep, hcompare⟩ := he
    · obtain ⟨ks, -, hdone⟩ := ofCodes_ends hstep
      cases hdone
    · obtain ⟨ks, hks, hdone⟩ := ofCodes_ends hstep
      cases hdone
      obtain ⟨m, hm⟩ := compare_named hbyte hcompare
      have hloc : _ ∧ _ ∧ d.Within cs h.labels (fun _ => none) σ := named_of_compareMnemonic? hm
      obtain ⟨hd, hstruck, hin⟩ := hloc
      have hcount := countStep_alters hd hks hin
      rw [hstruck] at hcount
      obtain ⟨σ', rfl, hcompared⟩ : ∃ σ', out = .done σ' ∧ cs.Alters h.labels [d, .z, .n, .c] _ σ' :=
        compare_alters (by simp [hbyte]) (by simp) hcompare
      exact ⟨σ', rfl, (hcount.mono (by simp)).trans hcompared⟩
  · exact he.elim

/-- The code that points a pointer somewhere changes the pointer, the accumulator and two flags. -/
theorem reset_alters {pointers : Assoc String String} {offset : Const} (hp : cs.typeOf p = .ok .pointer)
    (he : (straight h ((reset cs ⟨blank h.labels, ⟨[]⟩, pointers⟩ p offset).map CodeState.emitter)).ends σ out) :
    ∃ σ', out = .done σ' ∧ cs.Alters h.labels [p, .a, .z, .n] σ σ' := by
  cases hr : reset cs ⟨blank h.labels, ⟨[]⟩, pointers⟩ p offset with
  | error =>
    rw [hr] at he
    exact he.elim
  | ok st =>
    rw [hr] at he
    obtain ⟨σ', rfl, rfl⟩ := he
    refine ⟨_, rfl, ?_⟩
    unfold reset at hr
    split at hr
    · cases hr
    · simp only [bind_eq_ok, pure_eq_ok] at hr
      obtain ⟨t, -, id, hid, rfl⟩ := hr
      have hlow : ∀ τ : Cpu, (Operand.page id).place h.labels τ ∈ cs.cells h.labels p := by
        intro τ
        rw [Operand.place_page]
        exact CodeSetting.first_mem_cells hid
      have hhigh : ∀ τ : Cpu, (Operand.pageNext id).place h.labels τ ∈ cs.cells h.labels p := by
        intro τ
        rw [Operand.place_pageNext]
        exact CodeSetting.mem_cells hid hp (by decide)
      change cs.Alters h.labels _ σ (Code.execAll h.labels (codeList ((blank h.labels).codes
        (move (.immediate (.high (.offset t offset.value))) (.page id)
          ++ move (.immediate (.low (.offset t offset.value))) (.pageNext id)))) σ)
      rw [codeList_codes]
      refine Code.Fits.alters (forall_mem_append.2 ⟨?_, ?_⟩)
      · exact Code.fits_move (by simp) rfl mem_cons_self fun τ _ _ => hlow τ
      · exact Code.fits_move (by simp) rfl mem_cons_self fun τ _ _ => hhigh τ

end

end CheckedAsm
