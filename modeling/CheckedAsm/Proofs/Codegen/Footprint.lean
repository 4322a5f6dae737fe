import CheckedAsm.Proofs.Codegen.Cells
/-! # What single operations change

The code of a single operation changes what the analysis records for the operation, and nothing else. The analysis speaks of
locations by their names; on the machine a location is a register, a flag, or some bytes of the memory. Where an operation
stores through an index or through a pointer, the store has to stay inside the table. -/

namespace CheckedAsm

open CodeSetting Codegen List

variable {cs : CodeSetting} {ls ls' : Labels} {base d index offset r src : Ref} {rs : List Ref} {id : LabelId} {cell t : Ty}
  {σ : Cpu} {env : Pointees} {o : Operand} {ks : List Code} {a size : Int} {m : Mnemonic} {dir : Direction}

/-! ### The bytes of a location -/

/-- Whether a location of the type has a byte at some distance from its label. The cells of a table of words or of vectors have
their upper bytes 256 places after the lower ones. -/
def Ty.covers (t : Ty) (k : Int) : Bool :=
  match t with
  | .bit | .byte | .routine _ => k = 0
  | .word | .pointer | .vector _ => k = 0 ∨ k = 1
  | .table .byte size => 0 ≤ k ∧ k < size
  | .table _ size => (0 ≤ k ∧ k < size) ∨ (256 ≤ k ∧ k < 256 + size)

/-- The addresses of the bytes of a location. -/
def CodeSetting.cells (cs : CodeSetting) (ls : Labels) (r : Ref) : Set Int :=
  {q | ∃ id k, cs.labelOf r = .ok id ∧ (k = 0 ∨ ∃ t, cs.typeOf r.settled = .ok t ∧ t.covers k = true)
    ∧ q = (ls.place id + k) % 65536}

/-- The addresses of the bytes of some locations. -/
def CodeSetting.footprint (cs : CodeSetting) (ls : Labels) (W : Set Ref) : Set Int := {q | ∃ r ∈ W, q ∈ cs.cells ls r}

/-- At most the given locations have changed. -/
def CodeSetting.Alters (cs : CodeSetting) (ls : Labels) (rs : List Ref) (σ σ' : Cpu) : Prop :=
  σ.Keeps {r | r ∈ rs} (cs.footprint ls {r | r ∈ rs}) False σ'

/-- The analysis and the code give the same types to names. -/
def CodeSetting.Agrees (cs : CodeSetting) (s : Setting) : Prop := ∀ name, cs.typeOfName name = s.typeOfName name

/-- A store to the operand stays inside the table that the operand is to lie in: the one that is indexed, or the one that the
pointer is associated with. -/
def Ref.Within (cs : CodeSetting) (ls : Labels) (env : Pointees) (σ : Cpu) : Ref → Prop
  | .indexed base offset index => ∃ cell size c v, cs.typeOf base = .ok (.table cell size) ∧ offset = .constant c
      ∧ index.indexValue? σ = some v ∧ 0 ≤ c.value + v.toNat ∧ c.value + v.toNat < size
  | .indirect p => ∃ table id, env p = some table ∧ cs.labelOf p = .ok id
      ∧ (σ.pointer (ls.place id) + σ.y.toNat) % 65536 ∈ cs.cells ls table
  | _ => True

/-- What an operation stores stays inside its table. -/
def Op.Within (cs : CodeSetting) (ls : Labels) (env : Pointees) (σ : Cpu) (op : Op) : Prop :=
  ∀ d, op.dest? = some d → d.Within cs ls env σ

section

variable {s : Setting} {rs' : List Ref} {k : Int} {σ' σ'' : Cpu} {W W' : Set Ref}

theorem CodeSetting.Agrees.typeOf (h : cs.Agrees s) (ht : s.typeOf r = .ok t) : cs.typeOf r = .ok t := by
  cases r with
  | location n => exact (h n).trans ht
  | constant c => exact ht
  | _ => cases ht

theorem Ref.settled_of_typed (h : cs.typeOf r = .ok t) : r.settled = r := by
  cases r with
  | pending => cases h
  | _ => rfl

theorem Ref.struck_of_typed (h : cs.typeOf r = .ok t) : r.struck env = [r] := by
  cases r with
  | indexed | indirect => cases h
  | _ => rfl

theorem CodeSetting.footprint_mono (h : W ⊆ W') : cs.footprint ls W ⊆ cs.footprint ls W' := by
  rintro q ⟨r, hr, hq⟩
  exact ⟨r, h hr, hq⟩

theorem CodeSetting.Alters.refl (σ : Cpu) : cs.Alters ls rs σ σ := Cpu.Keeps.refl σ

theorem CodeSetting.Alters.trans (h : cs.Alters ls rs σ σ') (h' : cs.Alters ls rs σ' σ'') : cs.Alters ls rs σ σ'' :=
  Cpu.Keeps.trans h h'

theorem CodeSetting.Alters.mono (h : cs.Alters ls rs σ σ') (hrs : rs ⊆ rs') : cs.Alters ls rs' σ σ' :=
  Cpu.Keeps.mono h (fun _ hr => hrs hr) (footprint_mono fun _ hr => hrs hr) id

/-! ### Where operands lead to -/

theorem CodeSetting.first_mem_cells (h : cs.labelOf r = .ok id) : ls.place id % 65536 ∈ cs.cells ls r :=
  ⟨id, 0, h, .inl rfl, by rw [Int.add_zero]⟩

theorem CodeSetting.mem_cells (h : cs.labelOf r = .ok id) (ht : cs.typeOf r = .ok t) (hk : t.covers k = true) :
    (ls.place id + k) % 65536 ∈ cs.cells ls r :=
  ⟨id, k, h, .inr ⟨t, (Ref.settled_of_typed ht).symm ▸ ht, hk⟩, rfl⟩

theorem Operand.place_wide : (Operand.wide id).place ls σ = ls.place id % 65536 := by
  simp [wide, place, Target.place, Target.id, Target.distance]

theorem Operand.place_page : (Operand.page id).place ls σ = ls.place id % 65536 := by
  simp [page, place, Target.place, Target.id, Target.distance]

theorem Operand.place_pageNext : (Operand.pageNext id).place ls σ = (ls.place id + 1) % 65536 := rfl

theorem Operand.place_direct : (Operand.direct ls' id).place ls σ = ls.place id % 65536 := by
  unfold direct
  split
  · split
    · exact place_page
    · exact place_wide
  · exact place_wide

theorem Operand.place_of_reach (h : o.reach? ls σ = some a) : o.place ls σ = a % 65536 := by
  cases o with
  | absoluteX t =>
    cases h
    rfl
  | absoluteY t =>
    cases h
    rfl
  | _ => cases h

theorem Operand.register_of_reach (h : o.reach? ls σ = some a) : o.register = [] := by
  cases o with
  | implied => cases h
  | _ => rfl

theorem Codegen.cellBy_reach (ls : Labels) (σ : Cpu) (h : cellBy cs base offset index = .ok o) :
    ∃ id c v, cs.labelOf base = .ok id ∧ offset = .constant c ∧ index.indexValue? σ = some v
      ∧ o.reach? ls σ = some (ls.place id + (c.value + v.toNat)) := by
  simp only [cellBy, cell, bind_eq_ok, pure_eq_ok] at h
  obtain ⟨mode, hmode, id, hid, n, hn, rfl⟩ := h
  -- the lower byte of a cell of a table of words is the cell of a table of bytes
  have hbytes : cellBytes id offset index = .ok (mode (.offset id n), mode (.offset id (n + 256))) := by
    simp [cellBytes, hmode, hn, bind, Except.bind, pure, Except.pure]
  obtain ⟨c, v, hc, hv, hlow, -⟩ := cellBytes_reach ls σ hbytes
  exact ⟨id, c, v, hid, hc, hv, hlow⟩

theorem Ty.covers_table (h : 0 ≤ k ∧ k < size) : (Ty.table cell size).covers k = true := by
  cases cell <;> simp [covers, h]

theorem Ty.covers_upper (hcell : cell ≠ .byte) (h : 0 ≤ k ∧ k < size) : (Ty.table cell size).covers (k + 256) = true := by
  have hk : 256 ≤ k + 256 ∧ k + 256 < 256 + size := by omega
  cases cell with
  | byte => exact (hcell rfl).elim
  | _ => simp [covers, hk]

theorem Codegen.cellBy_place (h : cellBy cs base offset index = .ok o) (hin : (Ref.indexed base offset index).Within cs ls env σ) :
    o.register = [] ∧ o.place ls σ ∈ cs.cells ls base := by
  obtain ⟨id, c, v, hid, hc, hv, hreach⟩ := cellBy_reach ls σ h
  obtain ⟨cell, size, c', v', hty, hc', hv', hbounds⟩ := hin
  cases hc.symm.trans hc'
  cases hv.symm.trans hv'
  refine ⟨Operand.register_of_reach hreach, ?_⟩
  rw [Operand.place_of_reach hreach]
  exact mem_cells hid hty (Ty.covers_table hbounds)

end

/-! ### Straight-line code -/

namespace Code

/-- An instruction that stores nothing and changes the given registers and flags. -/
structure Sets (k : Code) (rs : List Ref) : Prop where
  changes : k.changes = rs
  stores : k.mnemonic.isStore = false
  system : k.mnemonic.sparesSystem = true

/-- From states with the same index registers, an instruction changes at most the given locations, and not the index
registers. -/
structure Fits (cs : CodeSetting) (ls : Labels) (rs : List Ref) (σ : Cpu) (k : Code) : Prop where
  changes : ∀ r ∈ k.changes, r ∈ rs
  x : Ref.x ∉ k.changes
  y : Ref.y ∉ k.changes
  system : k.mnemonic.sparesSystem = true
  stores : ∀ τ : Cpu, τ.x = σ.x → τ.y = σ.y → k.StoresIn ls (cs.footprint ls {r | r ∈ rs}) τ

variable {τ : Cpu} {k : Code} {d src : Operand}

theorem Sets.alters (h : k.Sets rs) : cs.Alters ls rs σ (execAll ls [k] σ) := by
  refine exec_keeps (fun r hr => ?_) (fun hstore => ?_) h.system
  · rwa [h.changes] at hr
  · rw [h.stores] at hstore
    cases hstore

/-- An instruction that stores a byte of one of the locations. -/
theorem alters_store (hchanges : ∀ r ∈ k.changes, r ∈ rs) (hsystem : k.mnemonic.sparesSystem = true)
    (hplace : ∃ r ∈ rs, k.operand.place ls σ ∈ cs.cells ls r) : cs.Alters ls rs σ (execAll ls [k] σ) :=
  exec_keeps hchanges (fun _ _ => hplace) hsystem

theorem Fits.congr (h : k.Fits cs ls rs σ) (hx : τ.x = σ.x) (hy : τ.y = σ.y) : k.Fits cs ls rs τ :=
  ⟨h.changes, h.x, h.y, h.system, fun υ hx' hy' => h.stores υ (hx'.trans hx) (hy'.trans hy)⟩

theorem Fits.alters (h : ∀ k ∈ ks, k.Fits cs ls rs σ) : cs.Alters ls rs σ (execAll ls ks σ) := by
  induction ks generalizing σ with
  | nil => exact .refl σ
  | cons k ks ih =>
    have hk := h k mem_cons_self
    have hstep : cs.Alters ls rs σ (k.exec ls σ) := exec_keeps hk.changes (hk.stores σ rfl rfl) hk.system
    have hself : σ.Keeps {r | r ∈ k.changes} Set.univ False (k.exec ls σ) :=
      exec_keeps (fun _ hr => hr) (fun _ _ => trivial) hk.system
    exact hstep.trans (ih fun k' hk' => (h k' (mem_cons_of_mem k hk')).congr (hself.x hk.x) (hself.y hk.y))

theorem Fits.of_sets {qs : List Ref} (h : k.Sets qs) (hrs : qs ⊆ rs) (hx : Ref.x ∉ qs) (hy : Ref.y ∉ qs) : k.Fits cs ls rs σ where
  changes r hr := hrs (h.changes ▸ hr)
  x := h.changes.symm ▸ hx
  y := h.changes.symm ▸ hy
  system := h.system
  stores τ _ _ hstore := by
    rw [h.stores] at hstore
    cases hstore

theorem fits_lda (hrs : [.a, .z, .n] ⊆ rs) : Fits cs ls rs σ ⟨.lda, o⟩ := by
  have hsets : (Code.mk .lda o).Sets [.a, .z, .n] := ⟨rfl, rfl, rfl⟩
  exact .of_sets hsets hrs (by decide) (by decide)

theorem sets_sum (hm : m = .adc ∨ m = .sbc) : (Code.mk m o).Sets [.a, .z, .n, .c, .v] := by
  obtain rfl | rfl := hm
  all_goals exact ⟨rfl, rfl, rfl⟩

theorem fits_sta (ho : o.register = []) (hr : r ∈ rs)
    (hplace : ∀ τ : Cpu, τ.x = σ.x → τ.y = σ.y → o.place ls τ ∈ cs.cells ls r) : Fits cs ls rs σ ⟨.sta, o⟩ := by
  have hnone : (Code.mk .sta o).changes = [] := ho
  refine ⟨?_, ?_, ?_, rfl, fun τ hx hy _ _ => ⟨r, hr, hplace τ hx hy⟩⟩
  all_goals simp [hnone]

theorem fits_move (hrs : [.a, .z, .n] ⊆ rs) (hd : d.register = []) (hr : r ∈ rs)
    (hplace : ∀ τ : Cpu, τ.x = σ.x → τ.y = σ.y → d.place ls τ ∈ cs.cells ls r) : ∀ k ∈ move src d, Fits cs ls rs σ k := by
  simp only [move, forall_mem_cons]
  exact ⟨fits_lda hrs, fits_sta hd hr hplace, by simp⟩

theorem fits_sumByte (hm : m = .adc ∨ m = .sbc) (hrs : [.a, .z, .n, .c, .v] ⊆ rs) (hd : d.register = []) (hr : r ∈ rs)
    (hplace : ∀ τ : Cpu, d.place ls τ ∈ cs.cells ls r) : ∀ k ∈ sumByte m d src, Fits cs ls rs σ k := by
  have hrs' : [.a, .z, .n] ⊆ rs := List.Subset.trans (by simp) hrs
  simp only [sumByte, forall_mem_cons]
  exact ⟨fits_lda hrs', .of_sets (sets_sum hm) hrs (by decide) (by decide), fits_sta hd hr fun τ _ _ => hplace τ, by simp⟩

end Code

/-! ### Single operations -/

namespace Codegen

open Code

variable {f : Focus} {cx cx' : Context} {i : Instr}

theorem load_code (h : load cs ls i d src = .ok ks) : ∃ k : Code, ks = [k] ∧ k.Sets [d, .z, .n] := by
  have hfrom {m : Mnemonic} {rs : List Ref} {x : Except Fault Operand} (hm : ∀ o, (Code.mk m o).Sets rs)
      (h : (do let o ← x; pure [(⟨m, o⟩ : Code)]) = Except.ok ks) : ∃ k : Code, ks = [k] ∧ k.Sets rs := by
    obtain ⟨o, -, hks⟩ := bind_eq_ok.1 h
    exact ⟨_, (pure_eq_ok.1 hks).symm, hm o⟩
  unfold load at h
  repeat' split at h
  all_goals subst_vars
  case isFalse.isFalse.isFalse => cases h
  all_goals first
    | exact ⟨_, (Except.ok.inj h).symm, rfl, rfl, rfl⟩
    | exact hfrom (fun _ => ⟨rfl, rfl, rfl⟩) h

theorem bitwise_code (hm : m = .and ∨ m = .ora ∨ m = .eor) (h : bitwise cs ls i m d src = .ok ks) :
    ∃ k : Code, ks = [k] ∧ k.Sets [d, .z, .n] := by
  unfold bitwise at h
  split at h
  case isTrue hd =>
    subst hd
    simp only [bind_eq_ok, pure_eq_ok] at h
    obtain ⟨o, -, rfl⟩ := h
    obtain rfl | rfl | rfl := hm
    all_goals exact ⟨_, rfl, rfl, rfl, rfl⟩
  case isFalse => cases h

theorem direct_place (h : direct cs ls' r = .ok o) : o.register = [] ∧ o.place ls σ ∈ cs.cells ls r := by
  simp only [direct, bind_eq_ok, pure_eq_ok] at h
  obtain ⟨id, hid, rfl⟩ := h
  refine ⟨?_, ?_⟩
  · unfold Operand.direct
    split
    · split <;> rfl
    · rfl
  · rw [Operand.place_direct]
    exact first_mem_cells hid

/-- A store goes to the location that it is to change. -/
theorem storeTarget_place (hptr : ∀ p, d = .indirect p → cs.typeOf p = .ok .pointer) (h : storeTarget cs ls' d = .ok o)
    (hin : d.Within cs ls env σ) : o.register = [] ∧ ∃ r ∈ d.struck env, o.place ls σ ∈ cs.cells ls r := by
  cases d with
  | indexed base offset index =>
    have hcell : cellBy cs base offset index = .ok o := by
      simp only [storeTarget] at h
      unfold cellBy indexMode
      split at h
      case isTrue hx => simpa [hx, bind, Except.bind] using h
      case isFalse hx =>
        split at h
        case isTrue hy =>
          subst hy
          simpa [hx, bind, Except.bind] using h
        case isFalse => cases h
    obtain ⟨hreg, hplace⟩ := cellBy_place hcell hin
    exact ⟨hreg, base, by simp [Ref.struck], hplace⟩
  | indirect p =>
    simp only [storeTarget, hptr p rfl, bind_eq_ok, Except.ok.injEq, exists_eq_left', Ty.isPointer, if_true, pure_eq_ok] at h
    obtain ⟨id, hid, rfl⟩ := h
    obtain ⟨table, id', htable, hid', hcells⟩ := hin
    cases hid.symm.trans hid'
    refine ⟨rfl, table, by simp [Ref.struck, htable], ?_⟩
    simpa [Operand.place, Target.place, Target.id, Target.distance] using hcells
  | location | constant | pending =>
    obtain ⟨hreg, hplace⟩ := direct_place h
    exact ⟨hreg, _, by simp [Ref.struck], hplace⟩

theorem store_alters (hag : cs.Agrees f.setting) (ha : f.store cx src d = .ok cx') (h : store cs ls' i src d = .ok ks)
    (hin : d.Within cs ls cx.getAssoc σ) : cs.Alters ls (d.struck cx.getAssoc) σ (execAll ls ks σ) := by
  unfold store at h
  split at h
  case isTrue hc =>
    cases h
    rw [hc.1]
    exact Sets.alters ⟨rfl, rfl, rfl⟩
  case isFalse =>
    split at h
    case isTrue hc =>
      cases h
      rw [hc.1]
      exact Sets.alters ⟨rfl, rfl, rfl⟩
    case isFalse =>
      simp only [bind_eq_ok] at h
      obtain ⟨o, ho, h⟩ := h
      cases hm : storeMnemonic? src with
      | none => simp [hm] at h
      | some m =>
        rw [hm] at h
        cases h
        have hptr : ∀ p, d = .indirect p → cs.typeOf p = .ok .pointer := by
          rintro p rfl
          cases Focus.store_accepts ha with
          | storeBehind _ _ hb => exact hag.typeOf hb
          | store _ hty => cases hty
        obtain ⟨hreg, hplace⟩ := storeTarget_place hptr ho hin
        refine alters_store (k := ⟨m, o⟩) (fun r hr => ?_) ?_ hplace
        · obtain rfl | rfl | rfl := storeMnemonic?_cases hm
          all_goals
            simp only [changes, hreg] at hr
            cases hr
        · obtain rfl | rfl | rfl := storeMnemonic?_cases hm
          all_goals rfl

theorem not_indirect_of_shift (ha : f.shift cx d = .ok cx') (p : Ref) : d ≠ .indirect p := by
  rintro rfl
  cases (Focus.shift_accepts ha).1 with
  | shl _ hty => cases hty

theorem not_indirect_of_count (ha : f.count cx dir d = .ok cx') (p : Ref) : d ≠ .indirect p := by
  rintro rfl
  cases dir with
  | up =>
    cases Focus.count_accepts ha with
    | inc _ hty => cases hty
  | down =>
    cases Focus.count_accepts ha with
    | dec _ hty => cases hty

/-- An instruction that reads a byte and stores it again, in a cell of a table or at the place of another location. -/
theorem alters_inPlace {x : Except Fault Operand} {flags : List Ref} (hm : ∀ o, (Code.mk m o).changes = flags ++ o.register)
    (hsystem : m.sparesSystem = true) (hd : ∀ p, d ≠ .indirect p)
    (hx : ∀ o, x = .ok o → o.register = [] ∧ o.place ls σ ∈ cs.cells ls d)
    (h : (match d with
      | .indexed base offset index => do let o ← cellBy cs base offset index; pure [⟨m, o⟩]
      | _ => do let o ← x; pure [⟨m, o⟩]) = Except.ok ks)
    (hin : d.Within cs ls env σ) : cs.Alters ls (d.struck env ++ flags) σ (execAll ls ks σ) := by
  obtain ⟨o, rfl, hreg, r, hr, hp⟩ : ∃ o : Operand, ks = [⟨m, o⟩] ∧ o.register = [] ∧ ∃ r ∈ d.struck env, o.place ls σ ∈ cs.cells ls r := by
    cases d with
    | indirect p => exact (hd p rfl).elim
    | indexed base offset index =>
      obtain ⟨o, ho, hks⟩ := bind_eq_ok.1 h
      obtain ⟨hreg, hcell⟩ := cellBy_place ho hin
      exact ⟨o, (pure_eq_ok.1 hks).symm, hreg, base, by simp [Ref.struck], hcell⟩
    | location | constant | pending =>
      obtain ⟨o, ho, hks⟩ := bind_eq_ok.1 h
      exact ⟨o, (pure_eq_ok.1 hks).symm, (hx o ho).1, _, by simp [Ref.struck], (hx o ho).2⟩
  refine alters_store (k := ⟨m, o⟩) (fun q hq => ?_) hsystem ⟨r, mem_append_left _ hr, hp⟩
  rw [hm, hreg, append_nil] at hq
  exact mem_append_right _ hq

theorem shift_alters (hm : m = .rol ∨ m = .ror) (hd : ∀ p, d ≠ .indirect p) (h : shift cs ls' m d = .ok ks)
    (hin : d.Within cs ls env σ) : cs.Alters ls (d.struck env ++ [.z, .n, .c]) σ (execAll ls ks σ) := by
  have hsystem : m.sparesSystem = true := by obtain rfl | rfl := hm <;> rfl
  have hchanges (o : Operand) : (Code.mk m o).changes = [.z, .n, .c] ++ o.register := by obtain rfl | rfl := hm <;> rfl
  unfold shift at h
  split at h
  case isTrue ha =>
    cases h
    subst ha
    refine exec_keeps (fun q hq => ?_) (fun _ ho => (ho rfl).elim) hsystem
    rw [hchanges] at hq
    exact mem_append.2 (mem_append.1 hq).symm
  case isFalse => exact alters_inPlace hchanges hsystem hd (fun _ => direct_place) h hin

theorem count_alters {onX onY other : Mnemonic} (hx : (Code.mk onX .implied).Sets [.x, .z, .n])
    (hy : (Code.mk onY .implied).Sets [.y, .z, .n]) (hother : other = .inc ∨ other = .dec) (hd : ∀ p, d ≠ .indirect p)
    (h : count cs onX onY other d = .ok ks) (hin : d.Within cs ls env σ) :
    cs.Alters ls (d.struck env ++ [.z, .n]) σ (execAll ls ks σ) := by
  unfold count at h
  split at h
  case isTrue hdx =>
    cases h
    subst hdx
    exact hx.alters
  split at h
  case isTrue hdy =>
    cases h
    subst hdy
    exact hy.alters
  have hwide (o : Operand) (ho : (cs.labelOf d).map Operand.wide = .ok o) : o.register = [] ∧ o.place ls σ ∈ cs.cells ls d := by
    obtain ⟨id, hid, rfl⟩ := map_eq_ok.1 ho
    exact ⟨rfl, Operand.place_wide ▸ first_mem_cells hid⟩
  refine alters_inPlace (m := other) (fun o => ?_) ?_ hd hwide ?_ hin
  · obtain rfl | rfl := hother <;> rfl
  · obtain rfl | rfl := hother <;> rfl
  · rw [← h]
    cases d <;> first | rfl | (cases cs.labelOf _ <;> rfl)

theorem countStep_alters (hd : ∀ p, d ≠ .indirect p) (h : countStep cs dir d = .ok ks)
    (hin : d.Within cs ls env σ) : cs.Alters ls (d.struck env ++ [.z, .n]) σ (execAll ls ks σ) := by
  cases dir with
  | up => exact count_alters ⟨rfl, rfl, rfl⟩ ⟨rfl, rfl, rfl⟩ (.inl rfl) hd h hin
  | down => exact count_alters ⟨rfl, rfl, rfl⟩ ⟨rfl, rfl, rfl⟩ (.inr rfl) hd h hin

theorem cell?_of_typed (h : cs.typeOf src = .ok t) : src.cell? = none := by
  cases src with
  | indexed => cases h
  | _ => rfl

theorem sum_alters {pointers : Bool} (hm : m = .adc ∨ m = .sbc) (h : sum cs i m pointers d src = .ok ks) :
    cs.Alters ls ([d, .z, .n, .c, .v] ++ if src.cell?.isSome || d = .a then [] else [.a]) σ (execAll ls ks σ) := by
  have hspoils : ∀ {t}, cs.typeOf src = .ok t → d ≠ .a → (if src.cell?.isSome || (d = .a) then [] else [Ref.a]) = [.a] :=
    fun ht ha => by simp [cell?_of_typed ht, ha]
  cases sum_to h with
  | accumulator => exact (sets_sum hm).alters.mono (subset_append_left _ _)
  | byte ha ht hu _ hid =>
    rw [hspoils ht ha]
    exact Fits.alters (fits_sumByte hm (by simp) rfl (by simp) fun τ => Operand.place_wide ▸ first_mem_cells hid)
  | word ha ht hu _ hid =>
    rw [hspoils ht ha]
    refine Fits.alters (forall_mem_append.2 ⟨?_, ?_⟩)
    · exact fits_sumByte hm (by simp) rfl mem_cons_self fun τ => Operand.place_wide ▸ first_mem_cells hid
    · exact fits_sumByte hm (by simp) rfl mem_cons_self fun τ => mem_cells hid hu rfl
  | pointer ha ht hu _ hid =>
    rw [hspoils ht ha]
    refine Fits.alters (forall_mem_append.2 ⟨?_, ?_⟩)
    · exact fits_sumByte hm (by simp) rfl mem_cons_self fun τ => Operand.place_page ▸ first_mem_cells hid
    · exact fits_sumByte hm (by simp) rfl mem_cons_self fun τ => mem_cells hid hu rfl

/-! ### Copies -/

theorem fitsCell_ne_byte (h : Focus.fitsCell t (.table cell size) = true) : cell ≠ .byte := by
  rintro rfl
  have hcode : ∀ u : Ty, u.executableCompatible .byte = false := by
    intro u
    unfold Ty.executableCompatible
    cases u.target <;> rfl
  cases t with
  | vector of => exact Bool.false_ne_true ((hcode of).symm.trans h)
  | routine sig => exact Bool.false_ne_true ((hcode (.routine sig)).symm.trans h)
  | _ => cases h

/-- A byte that is moved through a pointer goes where the pointer leads to before. -/
theorem move_behind_alters {s : Operand} (hrs : [.a, .z, .n] ⊆ rs)
    (hplace : ∃ r ∈ rs, (σ.pointer (ls.place id) + σ.y.toNat) % 65536 ∈ cs.cells ls r) :
    cs.Alters ls rs σ (execAll ls (move s (.indirectY (.label id))) σ) := by
  have hsets : (Code.mk .lda s).Sets [.a, .z, .n] := ⟨rfl, rfl, rfl⟩
  have hload : σ.Keeps {r | r ∈ [Ref.a, .z, .n]} ∅ False (Code.exec ls σ ⟨.lda, s⟩) :=
    exec_keeps (fun _ hr => hr) (fun hstore => by cases hstore) rfl
  have hsame : (Operand.indirectY (.label id)).place ls (Code.exec ls σ ⟨.lda, s⟩)
      = (σ.pointer (ls.place id) + σ.y.toNat) % 65536 := by
    simp only [Operand.place, Cpu.pointer, Target.place, Target.id, Target.distance, Int.add_zero]
    rw [hload.memory _ (Set.notMem_empty _), hload.memory _ (Set.notMem_empty _), hload.y (by decide)]
  refine (hsets.alters.mono hrs).trans (alters_store (k := ⟨.sta, .indirectY (.label id)⟩) (fun q hq => by cases hq) rfl ?_)
  obtain ⟨r, hr, hp⟩ := hplace
  exact ⟨r, hr, hsame.symm ▸ hp⟩

theorem copy_alters (hag : cs.Agrees f.setting) (ha : f.copy cx src d = .ok cx') (h : copy cs src d = .ok ks)
    (hin : d.Within cs ls cx.getAssoc σ) : cs.Alters ls (d.struck cx.getAssoc ++ [.a, .z, .n]) σ (execAll ls ks σ) := by
  have hrs : [.a, .z, .n] ⊆ d.struck cx.getAssoc ++ [.a, .z, .n] := subset_append_right _ _
  cases copy_code h with
  | behind hid =>
    obtain ⟨table, id', htable, hid', hcells⟩ := hin
    cases hid.symm.trans hid'
    exact move_behind_alters hrs ⟨table, by simp [Ref.struck, htable], hcells⟩
  | @cell base offset index id d s hid hd =>
    obtain ⟨cell, size, c, v, hty, hc, hv, hbounds⟩ := hin
    -- the analysis lets only words and code into cells
    have hcell : cell ≠ .byte := by
      obtain ⟨-, cx1, hcopies, -⟩ := Focus.copy_ok ha
      cases hcopies with
      | toCell _ hu hfits =>
        cases (hag.typeOf hu).symm.trans hty
        exact fitsCell_ne_byte hfits
    have hmem : base ∈ (Ref.indexed base offset index).struck cx.getAssoc ++ [.a, .z, .n] := by simp [Ref.struck]
    -- the index registers are as they were when the bytes are put into the cell
    have hreach : ∀ τ : Cpu, τ.x = σ.x → τ.y = σ.y → d.1.reach? ls τ = some (ls.place id + (c.value + v.toNat))
        ∧ d.2.reach? ls τ = some (ls.place id + (c.value + v.toNat) + 256) := by
      intro τ hx hy
      obtain ⟨c', v', hc', hv', hlow, hhigh⟩ := cellBytes_reach ls τ hd
      cases hc.symm.trans hc'
      have hvs : index.indexValue? τ = some v := by
        rw [Ref.indexValue?, hx, hy]
        exact hv
      cases hvs.symm.trans hv'
      exact ⟨hlow, hhigh⟩
    obtain ⟨hlow, hhigh⟩ := hreach σ rfl rfl
    refine Fits.alters (forall_mem_append.2 ⟨?_, ?_⟩)
    · refine fits_move hrs (Operand.register_of_reach hlow) hmem fun τ hx hy => ?_
      rw [Operand.place_of_reach (hreach τ hx hy).1]
      exact mem_cells hid hty (Ty.covers_table hbounds)
    · refine fits_move hrs (Operand.register_of_reach hhigh) hmem fun τ hx hy => ?_
      rw [Operand.place_of_reach (hreach τ hx hy).2, Int.add_assoc]
      exact mem_cells hid hty (Ty.covers_upper hcell hbounds)
  | byte hid hty =>
    have hmem : d ∈ d.struck cx.getAssoc ++ [.a, .z, .n] := by rw [Ref.struck_of_typed hty]; simp
    refine Fits.alters (fits_move hrs rfl hmem fun τ _ _ => ?_)
    rw [Operand.place_wide]
    exact first_mem_cells hid
  | @pair _ t _ _ hid hty hpair =>
    have hmem : d ∈ d.struck cx.getAssoc ++ [.a, .z, .n] := by rw [Ref.struck_of_typed hty]; simp
    refine Fits.alters (forall_mem_append.2 ⟨?_, ?_⟩)
    · refine fits_move hrs rfl hmem fun τ _ _ => ?_
      rw [locationBytes, Operand.place_wide]
      exact first_mem_cells hid
    · refine fits_move hrs rfl hmem fun τ _ _ => mem_cells hid hty ?_
      obtain rfl | hv := hpair
      · rfl
      · cases t with
        | vector of => rfl
        | _ => cases hv

/-! ### Comparisons, and all operations -/

section

variable {h : Host} {out : Outcome} {op : Op}

theorem straight_alters {x : Except Fault (List Code)} (he : (straight h (x.map (blank h.labels).codes)).ends σ out)
    (hx : ∀ ks, x = .ok ks → cs.Alters h.labels rs σ (execAll h.labels ks σ)) : ∃ σ', out = .done σ' ∧ cs.Alters h.labels rs σ σ' := by
  cases x with
  | error f => exact he.elim
  | ok ks =>
    obtain ⟨σ', rfl, rfl⟩ := he
    rw [codeList_codes]
    exact ⟨_, rfl, hx ks rfl⟩

theorem compared_alters {low high : Operand} (hrs : [.a, .z, .n, .c] ⊆ rs) (he : (compared h id low high).ends σ out) :
    ∃ σ', out = .done σ' ∧ cs.Alters h.labels rs σ σ' := by
  have hline : ∀ (o1 o2 : Operand) (τ : Cpu), cs.Alters h.labels rs τ (execAll h.labels [⟨.lda, o1⟩, ⟨.cmp, o2⟩] τ) := by
    intro o1 o2 τ
    have hload : (Code.mk .lda o1).Sets [.a, .z, .n] := ⟨rfl, rfl, rfl⟩
    have hcmp : (Code.mk .cmp o2).Sets [.z, .n, .c] := ⟨rfl, rfl, rfl⟩
    exact (hload.alters.mono (List.Subset.trans (by simp) hrs)).trans
      (hcmp.alters.mono fun q hq => hrs (mem_cons_of_mem _ hq))
  obtain ⟨t, τ, ⟨_, -, hleft⟩, -⟩ | ⟨τ, ⟨_, rfl, hτ⟩, he⟩ := he
  · cases hleft
  · cases hτ
    unfold Meaning.choice at he
    dsimp only at he
    split at he
    · obtain ⟨σ', rfl, rfl⟩ := he
      exact ⟨_, rfl, (hline _ _ σ).trans (hline _ _ _)⟩
    · obtain ⟨σ', rfl, rfl⟩ := he
      exact ⟨_, rfl, hline _ _ σ⟩

theorem compareMnemonic?_sets (hm : compareMnemonic? d = some m) : (Code.mk m o).Sets [.z, .n, .c] := by
  unfold compareMnemonic? at hm
  split at hm
  case h_4 => cases hm
  all_goals
    cases hm
    exact ⟨rfl, rfl, rfl⟩

/-- Where bytes are compared, there is an instruction for it. -/
theorem compare_named (hw : isWordSource cs src = .ok false) (he : (meaning cs h i (.cmp d src)).ends σ out) :
    ∃ m, compareMnemonic? d = some m := by
  cases hm : compareMnemonic? d with
  | some m => exact ⟨m, rfl⟩
  | none =>
    have hnone : single cs i (blank h.labels) (.cmp d src) = .error (.unsupported i) := by
      simp [single, compare, hw, hm, bind, Except.bind]
    simp only [meaning, hw, hnone] at he
    exact he.elim

theorem compare_alters (hword : isWordSource cs src = .ok true → Ref.a ∈ rs) (hrs : [.z, .n, .c] ⊆ rs)
    (he : (meaning cs h i (.cmp d src)).ends σ out) : ∃ σ', out = .done σ' ∧ cs.Alters h.labels rs σ σ' := by
  cases hw : isWordSource cs src with
  | error fault =>
    have hnone : single cs i (blank h.labels) (.cmp d src) = .error fault := by
      simp [single, compare, hw, bind, Except.bind]
    simp only [meaning, hw, hnone] at he
    exact he.elim
  | ok word =>
    cases word with
    | true =>
      simp only [meaning, hw, wordCompared] at he
      split at he
      · exact compared_alters (cons_subset.2 ⟨hword hw, hrs⟩) he
      · exact he.elim
    | false =>
      obtain ⟨m, hm⟩ := compare_named hw he
      have hline : single cs i (blank h.labels) (.cmp d src)
          = ((accOperand cs .wide src).map fun o => [⟨m, o⟩]).map (blank h.labels).codes := by
        cases ho : accOperand cs .wide src <;>
          simp [single, compare, hw, hm, ho, bind, Except.bind, pure, Except.pure, Except.map]
      simp only [meaning, hw, hline] at he
      refine straight_alters he fun ks hks => ?_
      obtain ⟨o, -, rfl⟩ := map_eq_ok.1 hks
      exact (compareMnemonic?_sets hm).alters.mono hrs

theorem isWord_of_source (hag : cs.Agrees f.setting) (hw : isWordSource cs src = .ok true) : f.setting.isWord src = true := by
  cases src with
  | location n =>
    simp only [isWordSource, bind_eq_ok, pure_eq_ok, decide_eq_true_eq] at hw
    obtain ⟨t, ht, rfl⟩ := hw
    rw [hag n] at ht
    simp [Setting.isWord, Setting.typeOf, ht]
  | constant c =>
    simp only [isWordSource, Except.ok.injEq, decide_eq_true_eq] at hw
    simp [Setting.isWord, Setting.typeOf, hw]
  | _ => cases hw

/-- The code of an accepted operation goes on with what follows, and changes only what the operation is known to set and to spoil, if
what it stores stays inside its table. -/
theorem single_alters (ha : f.single cx op = .ok cx') (hag : cs.Agrees f.setting) (he : (meaning cs h i op).ends σ out)
    (hin : op.Within cs h.labels cx.getAssoc σ) :
    ∃ σ', out = .done σ' ∧ cs.Alters h.labels (op.sets cx.getAssoc ++ op.spoils f.setting) σ σ' := by
  have hgo := Focus.single_ok_terminated ha
  unfold Focus.single at ha
  rw [if_neg (by simp [hgo])] at ha
  have hsets : op.sets cx.getAssoc ⊆ op.sets cx.getAssoc ++ op.spoils f.setting := subset_append_left _ _
  have hline {x : Except Fault (List Code)} (he : (straight h (x.map (blank h.labels).codes)).ends σ out)
      (hx : ∀ ks, x = .ok ks → ∃ k : Code, ks = [k] ∧ k.Sets (op.sets cx.getAssoc)) :
      ∃ σ', out = .done σ' ∧ cs.Alters h.labels (op.sets cx.getAssoc ++ op.spoils f.setting) σ σ' :=
    straight_alters he fun ks hks => by
      obtain ⟨k, rfl, hk⟩ := hx ks hks
      exact hk.alters.mono hsets
  cases op with
  | ld d src => exact hline he fun _ => load_code
  | st src d => exact straight_alters he fun _ hks => (store_alters hag ha hks (hin d rfl)).mono hsets
  | add d src => exact straight_alters he fun _ => sum_alters (.inl rfl)
  | sub d src => exact straight_alters he fun _ => sum_alters (.inr rfl)
  | cmp d src =>
    refine compare_alters (fun hw => ?_) hsets he
    simp [Op.spoils, isWord_of_source hag hw]
  | and d src | or d src | xor d src => exact hline he fun _ => bitwise_code (by simp)
  | shl d => exact straight_alters he fun _ hks => (shift_alters (.inl rfl) (not_indirect_of_shift ha) hks (hin d rfl)).mono hsets
  | shr d => exact straight_alters he fun _ hks => (shift_alters (.inr rfl) (not_indirect_of_shift ha) hks (hin d rfl)).mono hsets
  | inc d | dec d => exact straight_alters he fun _ hks => (countStep_alters (not_indirect_of_count ha) hks (hin d rfl)).mono hsets
  | copy src d => exact straight_alters he fun _ hks => copy_alters hag ha hks (hin d rfl)
  | trash d => exact straight_alters (x := .ok []) he fun _ hks => Except.ok.inj hks ▸ .refl σ
  | nop => exact straight_alters (x := .ok [⟨.nop, .implied⟩]) he fun _ hks => Except.ok.inj hks ▸ .refl σ

end

end Codegen

end CheckedAsm
