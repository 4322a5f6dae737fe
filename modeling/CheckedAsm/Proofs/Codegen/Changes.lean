import CheckedAsm.Proofs.Analysis.Writeable
import CheckedAsm.Proofs.Codegen.Hidden
import CheckedAsm.Proofs.Values.Soundness
/-! # What blocks change

A run of the code of a block goes along a path through the block, and changes what is touched on the path. The exceptions are
registers and flags that change unnoticed, and counters: these may be written to, but are not touched. -/

namespace CheckedAsm

open Codegen Focus List

variable {cs : CodeSetting} {h : Host} {kept : Set Int} {I : Prop} {s : Setting}

variable {ls : Labels} {uses : Set Ref → List Use}

/-! ### Runs and paths -/

/-- At most the given locations have changed, bytes that called routines keep for themselves, and whether interrupts are held
off if it says so. -/
def CodeSetting.Confines (cs : CodeSetting) (ls : Labels) (kept : Set Int) (I : Prop) (W : Set Ref) (σ σ' : Cpu) : Prop :=
  σ.Keeps W (cs.footprint ls W ∪ kept) I σ'

/-- Routines that are called or jumped to change what their types declare, bytes that they keep for themselves, and whether
interrupts are held off if it says so. -/
def Host.Respects (h : Host) (cs : CodeSetting) (s : Setting) (kept : Set Int) (I : Prop) : Prop :=
  ∀ target ty sig o σ σ', s.typeOfName target = .ok ty → ty.target = .routine sig →
    cs.entry h.trampolines target = some o ∨ cs.exit target = .ok o → h.callee o σ = some σ' →
      cs.Confines h.labels kept I {r | r ∈ (sig.outputs ++ sig.trashes).map Ref.ofSlot} σ σ'

namespace Outcome

/-- The state when control is back at the caller: at the end of the code, or when the routine returns for which it was left. -/
def back? (h : Host) : Outcome → Option Cpu
  | done σ => some σ
  | left target σ => h.callee target σ

/-- How a path ends that the code follows. -/
def ending (after : Set Ref) : Outcome → Ending (Set Ref)
  | done _ => .done after
  | left _ _ => .left after

end Outcome

/-- From the states of some kind, each run follows a path, and changes at most what is touched on the path and the given
locations. -/
def Follows (cs : CodeSetting) (h : Host) (kept : Set Int) (I : Prop) (extra : Set Ref) (M : Meaning) (P : Cpu → Prop)
    (paths : Paths) : Prop :=
  ∀ σ out, P σ → M.ends σ out → ∀ live, ∃ log after, paths live log (out.ending after)
    ∧ ∀ σ', out.back? h = some σ' → cs.Confines h.labels kept I ({r | r ∈ log.touched} ∪ extra) σ σ'

/-- The states in which a loop begins a round. -/
inductive Meaning.Again (M : Meaning) (stop : Cpu → Bool) : Cpu → Cpu → Prop
  | first {σ} : Again M stop σ σ
  | next {σ σ' τ} : M.ends σ (.done σ') → stop σ' = false → Again M stop σ' τ → Again M stop σ τ

section

variable {I' : Prop} {extra extra' W W' : Set Ref} {M N : Meaning} {P Q : Cpu → Prop} {paths first second yes no : Paths}
  {σ σ' σ'' : Cpu} {rs : List Ref} {test stop : Cpu → Bool}

namespace CodeSetting.Confines

section

variable (hc : cs.Confines ls kept I W σ σ')
include hc

theorem mono (hW : W ⊆ W') : cs.Confines ls kept I W' σ σ' :=
  Cpu.Keeps.mono hc hW (Set.union_subset_union_left kept (footprint_mono hW)) id

theorem eased (hI : I → I') : cs.Confines ls kept I' W σ σ' :=
  Cpu.Keeps.mono hc (fun _ hr => hr) (fun _ hq => hq) hI

theorem trans (hc' : cs.Confines ls kept I W σ' σ'') : cs.Confines ls kept I W σ σ'' :=
  Cpu.Keeps.trans hc hc'

end

theorem of_alters (ha : cs.Alters ls rs σ σ') (hW : ∀ r ∈ rs, r ∈ W) : cs.Confines ls kept I W σ σ' :=
  Cpu.Keeps.mono ha hW (fun _ hq => .inl (footprint_mono hW hq)) False.elim

end CodeSetting.Confines

theorem touched_append_left (l m : Log) : {r | r ∈ l.touched} ∪ extra ⊆ {r | r ∈ (l ++ m).touched} ∪ extra :=
  Set.union_subset_union_left extra fun _ hr => mem_append_left _ hr

theorem touched_append_right (l m : Log) : {r | r ∈ m.touched} ∪ extra ⊆ {r | r ∈ (l ++ m).touched} ∪ extra :=
  Set.union_subset_union_left extra fun _ hr => mem_append_right _ hr

namespace Follows

section

variable (hM : Follows cs h kept I extra M P paths)
include hM

theorem mono (hI : I → I') (he : extra ⊆ extra') (hP : ∀ σ, Q σ → P σ) :
    Follows cs h kept I' extra' M Q paths := by
  intro σ out hσ hend live
  obtain ⟨log, after, hpath, hback⟩ := hM σ out (hP σ hσ) hend live
  exact ⟨log, after, hpath, fun σ' hσ' => ((hback σ' hσ').mono (Set.union_subset_union_right _ he)).eased hI⟩

omit hM in
theorem skip : Follows cs h kept I extra .skip P .skip := by
  rintro σ out - ⟨_, rfl, rfl⟩ live
  refine ⟨{}, live, ⟨rfl, .inr rfl⟩, fun σ' hσ' => ?_⟩
  cases hσ'
  exact Cpu.Keeps.refl _

omit hM in
/-- One thing after another. What comes second only counts where the first comes to its end. -/
theorem seq (hM : Follows cs h kept I extra M P first)
    (hN : ∀ live log mid, first live log (.done mid) → Follows cs h kept I extra N Q second)
    (hnext : ∀ σ σ', P σ → M.ends σ (.done σ') → Q σ') : Follows cs h kept I extra (M.seq N) P (.seq first second) := by
  rintro σ out hσ (⟨t, τ, hend, rfl⟩ | ⟨τ, hend, hend'⟩) live
  · obtain ⟨log, after, hpath, hback⟩ := hM σ _ hσ hend live
    exact ⟨log, after, .inl ⟨hpath, nofun⟩, hback⟩
  · obtain ⟨log, mid, hpath, hback⟩ := hM σ _ hσ hend live
    obtain ⟨log', after, hpath', hback'⟩ := hN live log mid hpath τ out (hnext σ τ hσ hend) hend' mid
    refine ⟨log ++ log', after, .inr (.inr ⟨mid, log, log', hpath, hpath', rfl⟩), fun σ' hσ' => ?_⟩
    exact ((hback τ rfl).mono (touched_append_left log log')).trans ((hback' σ' hσ').mono (touched_append_right log log'))

omit hM in
theorem choice (hM : Follows cs h kept I extra M P yes) (hN : Follows cs h kept I extra N Q no) :
    Follows cs h kept I extra (.choice test M N) (fun σ => (test σ = true → P σ) ∧ (test σ = false → Q σ))
      (.choice uses yes no) := by
  rintro σ out ⟨hP, hQ⟩ hend live
  unfold Meaning.choice at hend
  dsimp only at hend
  cases htest : test σ with
  | true =>
    rw [if_pos htest] at hend
    obtain ⟨log, after, hpath, hback⟩ := hM σ out (hP htest) hend live
    exact ⟨_, after, ⟨log, .inl hpath, rfl⟩, hback⟩
  | false =>
    rw [if_neg (by simp [htest])] at hend
    obtain ⟨log, after, hpath, hback⟩ := hN σ out (hQ htest) hend live
    exact ⟨_, after, ⟨log, .inr hpath, rfl⟩, hback⟩

/-- Each round of a loop is a turn through its body. -/
theorem loop {ends : Bool} (hends : ∀ σ, stop σ = true → ends = true) :
    Follows cs h kept I extra (M.loop stop) (fun σ => ∀ τ, M.Again stop σ τ → P τ) (Turns ends uses paths) := by
  intro σ out hagain hend
  induction hend with
  | left hend =>
    intro live
    obtain ⟨log, after, hpath, hback⟩ := hM _ _ (hagain _ .first) hend live
    exact ⟨log, after, .left hpath, hback⟩
  | last hend hstop =>
    intro live
    obtain ⟨log, after, hpath, hback⟩ := hM _ _ (hagain _ .first) hend live
    exact ⟨_, after, .last (hends _ hstop) hpath, fun σ' hσ' => (hback σ' hσ').mono (touched_append_left log _)⟩
  | more hend hstop _ ih =>
    intro live
    obtain ⟨log, mid, hpath, hback⟩ := hM _ _ (hagain _ .first) hend live
    obtain ⟨log', after, hpath', hback'⟩ := ih (fun τ hτ => hagain τ (.next hend hstop hτ)) mid
    refine ⟨_, after, .more hpath hpath', fun σ' hσ' => ?_⟩
    refine ((hback _ rfl).mono ?_).trans ((hback' σ' hσ').mono (touched_append_right _ log'))
    exact (touched_append_left log _).trans (touched_append_left _ log')

/-- Code at the end of what follows a path, of which nothing is touched on the path. -/
theorem then_acts
    (hN : ∀ σ out, N.ends σ out → ∃ σ', out = .done σ' ∧ cs.Confines h.labels kept I extra σ σ') :
    Follows cs h kept I extra (M.seq N) P paths := by
  rintro σ out hσ (⟨t, τ, hend, rfl⟩ | ⟨τ, hend, hend'⟩) live
  · exact hM σ _ hσ hend live
  · obtain ⟨σ1, rfl, hlast⟩ := hN τ out hend'
    obtain ⟨log, after, hpath, hback⟩ := hM σ _ hσ hend live
    refine ⟨log, after, hpath, fun σ' hσ' => ?_⟩
    cases hσ'
    exact (hback τ rfl).trans (hlast.mono Set.subset_union_right)

theorem acts_before {f : Cpu → Cpu}
    (hf : ∀ σ, cs.Confines h.labels kept I extra σ (f σ)) :
    Follows cs h kept I extra ((Meaning.basic f).seq M) (fun σ => P (f σ)) paths := by
  rintro σ out hσ (⟨t, τ, ⟨_, -, hleft⟩, -⟩ | ⟨τ, ⟨_, rfl, hτ⟩, hend⟩) live
  · cases hleft
  · cases hτ
    obtain ⟨log, after, hpath, hback⟩ := hM _ _ hσ hend live
    exact ⟨log, after, hpath, fun σ' hσ' => ((hf σ).mono Set.subset_union_right).trans (hback σ' hσ')⟩

/-- A path with something before and after it on which nothing happens. -/
theorem between {log log' : Set Ref → Log} {f g : Set Ref → Set Ref} :
    Follows cs h kept I extra M P (.seq (.acts log f) (.seq paths (.acts log' g))) := by
  intro σ out hσ hend live
  obtain ⟨l, after, hpath, hback⟩ := hM σ out hσ hend (f live)
  cases out with
  | done τ =>
    refine ⟨_, g after, .inr (.inr ⟨f live, log live, l ++ log' after, ⟨rfl, .inr rfl⟩, ?_, rfl⟩), fun σ' hσ' => ?_⟩
    · exact .inr (.inr ⟨after, l, log' after, hpath, ⟨rfl, .inr rfl⟩, rfl⟩)
    · exact (hback σ' hσ').mono ((touched_append_left l _).trans (touched_append_right _ _))
  | left t τ =>
    refine ⟨_, after, .inr (.inr ⟨f live, log live, l, ⟨rfl, .inr rfl⟩, .inl ⟨hpath, nofun⟩, rfl⟩),
      fun σ' hσ' => ?_⟩
    exact (hback σ' hσ').mono (touched_append_right _ l)

end

/-- Bytes are set aside around code that is not left by a jump. -/
theorem saving (hnames : cs.Unlabelled) (hbytes : ∀ r ∈ rs, cs.typeOf r = .ok .byte) (hM : Follows cs h kept I extra M P paths)
    (hstays : ∀ live log after, ¬ paths live log (.left after)) (hextra : ∀ r ∈ extra, r ∈ rs ∨ r ∈ extra')
    (hz : Ref.z ∈ extra') (hn : Ref.n ∈ extra') :
    Follows cs h kept I extra'
      ((Meaning.ofCodes h (forEach (push cs) rs)).seq (M.seq (.ofCodes h (forEach (pull cs) rs.reverse))))
      (fun σ => ∀ ks, forEach (push cs) rs = .ok ks → P (Code.execAll h.labels ks σ))
      (fun live log o => ∃ inner o', paths live inner o' ∧ log = { inner with touched := touchedSaving rs inner.touched o' }
        ∧ o = o'.map (valuesRestored rs live)) := by
  rintro σ out hP (⟨t, τ, hpush, -⟩ | ⟨τ, hpush, hend⟩) live
  · obtain ⟨ks, -, hdone⟩ := ofCodes_ends hpush
    cases hdone
  · obtain ⟨before, hbefore, hdone⟩ := ofCodes_ends hpush
    cases hdone
    rcases hend with ⟨t, τ, hend, -⟩ | ⟨τ, hend, hpull⟩
    · obtain ⟨log, after, hpath, -⟩ := hM _ _ (hP before hbefore) hend live
      exact (hstays live log after hpath).elim
    · obtain ⟨after, hafter, rfl⟩ := ofCodes_ends hpull
      obtain ⟨log, inside, hpath, hback⟩ := hM _ _ (hP before hbefore) hend live
      refine ⟨_, _, ⟨log, .done inside, hpath, rfl, rfl⟩, fun σ' hσ' => ?_⟩
      cases hσ'
      have hsaved := saved hnames hbefore hafter (hback τ rfl)
      have hconfined : cs.Confines h.labels kept I (unsaved rs ({r | r ∈ log.touched} ∪ extra)) σ _ :=
        hsaved.mono (fun _ hq => hq) (unsaved_footprint hbytes) id
      refine hconfined.mono ?_
      rintro q (⟨hq | hq, hrs⟩ | rfl | rfl | ⟨rfl, hfirst⟩)
      · exact .inl (mem_append_left _ (mem_filter.2 ⟨hq, by simpa using hrs⟩))
      · exact .inr ((hextra q hq).resolve_left hrs)
      · exact .inr hz
      · exact .inr hn
      · exact .inl (mem_append_right _ (by simp [hfirst]))

end Follows

end

/-! ### Blocks -/

mutual

/-- The registers and flags that the code of an instruction may change without any of it being touched on a path. -/
def Instr.hidden : Instr → List Ref
  | .op .. | .call .. | .goto .. => []
  | .reset .. => [.a, .z, .n]
  | .ifThen _ _ _ yes => yes.hidden
  | .ifElse _ _ _ yes no => yes.hidden ++ no.hidden
  | .loop _ _ _ body | .interruptsOff _ body | .pointInto _ _ _ body => body.hidden
  | .count _ _ _ _ body => body.hidden ++ [.z, .n, .c]
  | .save _ rs body => body.hidden.filter (!rs.contains ·) ++ [.z, .n]

/-- The registers and flags that the code of a block may change without any of it being touched on a path. -/
def Block.hidden : Block → List Ref
  | .nil _ => []
  | .cons head tail => head.hidden ++ tail.hidden

end

mutual

/-- Whether interrupts are held off anywhere in the code of an instruction. -/
def Instr.masks : Instr → Bool
  | .op .. | .call .. | .goto .. | .reset .. => false
  | .ifThen _ _ _ body | .loop _ _ _ body | .count _ _ _ _ body | .save _ _ body | .pointInto _ _ _ body => body.masks
  | .ifElse _ _ _ yes no => yes.masks || no.masks
  | .interruptsOff .. => true

/-- Whether interrupts are held off anywhere in the code of a block. -/
def Block.masks : Block → Bool
  | .nil _ => false
  | .cons head tail => head.masks || tail.masks

end

mutual

theorem Instr.hidden_registers : ∀ (i : Instr), ∀ r ∈ i.hidden, r ∈ registers
  | .op .., r, hr | .call .., r, hr | .goto .., r, hr => by cases hr
  | .reset .., r, hr => by
    have hall : ∀ r ∈ [Ref.a, .z, .n], r ∈ registers := by decide
    exact hall r hr
  | .ifThen _ _ _ yes, r, hr => yes.hidden_registers r hr
  | .ifElse _ _ _ yes no, r, hr => (mem_append.1 hr).elim (yes.hidden_registers r) (no.hidden_registers r)
  | .loop _ _ _ body, r, hr | .interruptsOff _ body, r, hr | .pointInto _ _ _ body, r, hr => body.hidden_registers r hr
  | .count _ _ _ _ body, r, hr => by
    have hall : ∀ r ∈ [Ref.z, .n, .c], r ∈ registers := by decide
    exact (mem_append.1 hr).elim (body.hidden_registers r) (hall r)
  | .save _ rs body, r, hr => by
    have hall : ∀ r ∈ [Ref.z, .n], r ∈ registers := by decide
    exact (mem_append.1 hr).elim (fun hr => body.hidden_registers r (mem_filter.1 hr).1) (hall r)

/-- What changes unnoticed is no storage. -/
theorem Block.hidden_registers : ∀ (b : Block), ∀ r ∈ b.hidden, r ∈ registers
  | .nil _, r, hr => by cases hr
  | .cons head tail, r, hr => (mem_append.1 hr).elim (head.hidden_registers r) (tail.hidden_registers r)

end

mutual

/-- The states from which the run of an instruction stores by an index and through a pointer only inside the table. -/
def Instr.Bounded (cs : CodeSetting) (h : Host) (env : Pointees) (pointers : Assoc String String) (i : Instr) : Cpu → Prop :=
  match i with
  | .op _ op => op.settled.Within cs h.labels env
  | .call .. | .goto .. | .reset .. => fun _ => True
  | .ifThen _ src inverted yes => fun σ => Cpu.holds src inverted σ = true → yes.Bounded cs h env pointers σ
  | .ifElse _ src inverted yes no => fun σ => (Cpu.holds src inverted σ = true → yes.Bounded cs h env pointers σ)
      ∧ (Cpu.holds src inverted σ = false → no.Bounded cs h env pointers σ)
  | .loop _ none _ body => fun σ =>
      ∀ τ, (body.meaning cs h pointers).Again (fun _ => false) σ τ → body.Bounded cs h env pointers τ
  | .loop _ (some src) inverted body => fun σ =>
      ∀ τ, (body.meaning cs h pointers).Again (Cpu.holds src inverted) σ τ → body.Bounded cs h env pointers τ
  | .count _ d dir final body => fun σ =>
      ∀ τ, ((body.meaning cs h pointers).seq (counted cs h i d dir final)).Again (·.z) σ τ →
        body.Bounded cs h env pointers τ
  | .interruptsOff _ body => fun σ => body.Bounded cs h env pointers { σ with masked := true }
  | .save _ rs body => fun σ =>
      ∀ ks, forEach (push cs) rs = .ok ks → body.Bounded cs h env pointers (Code.execAll h.labels ks σ)
  | .pointInto _ p t body => body.Bounded cs h (fun q => if q = p then some t else env q) (pointers.set p.name t.name)

/-- The states from which the run of a block stores by an index and through a pointer only inside the table. -/
def Block.Bounded (cs : CodeSetting) (h : Host) (env : Pointees) (pointers : Assoc String String) : Block → Cpu → Prop
  | .nil _ => fun _ => True
  | .cons head tail => fun σ => head.Bounded cs h env pointers σ
      ∧ ∀ σ', (head.meaning cs h pointers).ends σ (.done σ') → tail.Bounded cs h env pointers σ'

end

theorem Ref.within_of_direct {env : Pointees} {σ : Cpu} {r : Ref} (h : r.reach = []) : r.Within cs ls env σ := by
  cases r with
  | indexed | indirect => cases h
  | _ => trivial

mutual

theorem Instr.bounded_of_direct : ∀ (i : Instr) (env : Pointees) (pointers : Assoc String String)
    (σ : Cpu), (∀ op ∈ i.ops, ∀ d, op.dest? = some d → d.reach = []) → i.Bounded cs h env pointers σ
  | .op line op, env, pointers, σ, hops => by
    unfold Instr.Bounded
    exact fun d hd => Ref.within_of_direct (hops op.settled mem_cons_self d hd)
  | .call .., env, pointers, σ, hops | .goto .., env, pointers, σ, hops | .reset .., env, pointers, σ, hops => by
    unfold Instr.Bounded
    trivial
  | .ifThen line src inv yes, env, pointers, σ, hops => by
    unfold Instr.Bounded
    exact fun _ => yes.bounded_of_direct env pointers σ hops
  | .ifElse line src inv yes no, env, pointers, σ, hops => by
    unfold Instr.Bounded
    obtain ⟨hyes, hno⟩ := forall_mem_append.1 hops
    exact ⟨fun _ => yes.bounded_of_direct env pointers σ hyes, fun _ => no.bounded_of_direct env pointers σ hno⟩
  | .loop line src inv body, env, pointers, σ, hops => by
    cases src with
    | none | some =>
      unfold Instr.Bounded
      exact fun τ _ => body.bounded_of_direct env pointers τ hops
  | .count line d dir final body, env, pointers, σ, hops => by
    unfold Instr.Bounded
    exact fun τ _ => body.bounded_of_direct env pointers τ hops
  | .interruptsOff line body, env, pointers, σ, hops => by
    unfold Instr.Bounded
    exact body.bounded_of_direct env pointers _ hops
  | .save line rs body, env, pointers, σ, hops => by
    unfold Instr.Bounded
    exact fun ks _ => body.bounded_of_direct env pointers _ hops
  | .pointInto line p table body, env, pointers, σ, hops => by
    unfold Instr.Bounded
    exact body.bounded_of_direct _ _ σ hops

/-- A block in which nothing is stored by an index or through a pointer stores only where it is allowed to from every state. -/
theorem Block.bounded_of_direct : ∀ (b : Block) (env : Pointees) (pointers : Assoc String String)
    (σ : Cpu), (∀ op ∈ b.ops, ∀ d, op.dest? = some d → d.reach = []) → b.Bounded cs h env pointers σ
  | .nil _, env, pointers, σ, hops => by
    unfold Block.Bounded
    trivial
  | .cons head tail, env, pointers, σ, hops => by
    unfold Block.Bounded
    obtain ⟨hhead, htail⟩ := forall_mem_append.1 hops
    exact ⟨head.bounded_of_direct env pointers σ hhead, fun σ' _ => tail.bounded_of_direct env pointers σ' htail⟩

end

mutual

/-- A run of the code of an accepted instruction follows a path through it. What it changes is touched on the path, or it may be
written to as a counter is, or it changes unnoticed. -/
theorem Instr.runs_along (hag : cs.Agrees s)
    (hnames : cs.Unlabelled) (hrespects : h.Respects cs s kept I) (i : Instr) (pointers : Assoc String String) {t t' : Trail}
    (hwalk : i.walk s t = .ok t') (hgo : t.cx.terminated = false) (hw : t.cx.writeable.Nodup) :
    Follows cs h kept (I ∨ i.masks = true) {r | r ∈ t.cx.writeable ∨ r ∈ i.hidden} (i.meaning cs h pointers)
      (i.Bounded cs h t.cx.getAssoc pointers) (i.Paths s t.cx.getAssoc) := by
  cases Instr.walked hwalk with
  | op hop =>
    unfold Instr.meaning Instr.Bounded Instr.Paths
    intro σ out hin hend live
    obtain ⟨σ', rfl, halters⟩ := single_alters hop hag hend hin
    refine ⟨_, _, ⟨rfl, .inr rfl⟩, fun σ'' hσ => ?_⟩
    cases hσ
    exact .of_alters halters fun r hr => .inl hr
  | @call _ target _ hwalk =>
    obtain ⟨ty, sig, hty, hsig, -⟩ := call_values hwalk
    unfold Instr.meaning Instr.Paths
    rintro σ out - hend live
    split at hend
    · next o ho =>
      obtain ⟨σ', hcallee, rfl⟩ := hend
      refine ⟨_, _, ⟨_, ⟨ty, sig, hty, hsig, rfl, rfl⟩, .inr rfl⟩, fun σ'' hσ => ?_⟩
      cases hσ
      exact ((hrespects target ty sig o σ σ' hty hsig (.inl ho) hcallee).mono Set.subset_union_left).eased .inl
    · exact hend.elim
  | @goto _ target _ hwalk =>
    obtain ⟨ty, sig, left, hty, hsig, -⟩ := jump_values hwalk
    unfold Instr.meaning Instr.Paths
    rintro σ out - hend live
    split at hend
    · next o ho =>
      cases hend
      refine ⟨_, _, ⟨_, ⟨ty, sig, hty, hsig, rfl, rfl⟩, .inr rfl⟩, fun σ' hσ' => ?_⟩
      exact ((hrespects target ty sig o σ σ' hty hsig (.inr ho) hσ').mono Set.subset_union_left).eased .inl
    · exact hend.elim
  | reset hreset =>
    unfold Instr.meaning Instr.Paths Instr.hidden
    rintro σ out - hend live
    obtain ⟨σ', rfl, halters⟩ := reset_alters (hag.typeOf (reset_ok hreset).1) hend
    refine ⟨_, _, ⟨rfl, .inr rfl⟩, fun σ'' hσ => ?_⟩
    cases hσ
    refine .of_alters halters fun r hr => ?_
    rcases mem_cons.1 hr with rfl | hr
    · exact .inl mem_cons_self
    · exact .inr (.inr hr)
  | ifThen yes h1 =>
    have hyes := yes.runs_along hag hnames hrespects pointers h1 rfl hw
    unfold Instr.meaning Instr.Bounded Instr.Paths Instr.hidden Instr.masks
    exact (hyes.choice (.skip (P := fun _ => True))).mono id (fun r hr => hr) fun σ hσ => ⟨hσ, fun _ => trivial⟩
  | ifElse yes no h1 h2 =>
    have hyes := yes.runs_along hag hnames hrespects pointers h1 rfl hw
    have hno := no.runs_along hag hnames hrespects pointers h2 rfl hw
    unfold Instr.meaning Instr.Bounded Instr.Paths Instr.hidden Instr.masks
    refine Follows.choice (hyes.mono (Or.imp id ?_) ?_ fun _ hσ => hσ) (hno.mono (Or.imp id ?_) ?_ fun _ hσ => hσ)
    · exact fun hmasks => by rw [hmasks, Bool.true_or]
    · exact fun r hr => hr.imp id (mem_append_left _)
    · exact fun hmasks => by rw [hmasks, Bool.or_true]
    · exact fun r hr => hr.imp id (mem_append_right _)
  | @loop _ src _ _ _ body h1 _ _ _ _ =>
    have hbody := body.runs_along hag hnames hrespects pointers h1 hgo hw
    unfold Instr.Paths Instr.hidden Instr.masks
    cases src with
    | none =>
      unfold Instr.meaning Instr.Bounded
      exact hbody.loop nofun
    | some src =>
      unfold Instr.meaning Instr.Bounded
      exact hbody.loop fun _ _ => rfl
  | @count _ d _ _ _ _ _ _ body henter h1 _ _ =>
    have hd := mem_writeable_of_enterCount henter
    obtain ⟨range, inside, -, -, -, rfl⟩ := enterCount_ok henter
    have hbody := body.runs_along hag hnames hrespects pointers h1 hgo (hw.erase d)
    unfold Instr.meaning Instr.Bounded Instr.Paths Instr.hidden Instr.masks
    refine Follows.between (Follows.loop (Follows.then_acts (hbody.mono id ?_ fun _ hσ => hσ) ?_) fun _ _ => rfl)
    · exact fun r hr => hr.imp (fun hr => mem_of_mem_erase hr) (mem_append_left _)
    · intro σ out hend
      obtain ⟨σ', rfl, halters⟩ := counted_alters hend
      refine ⟨σ', rfl, .of_alters halters fun r hr => ?_⟩
      rcases mem_cons.1 hr with rfl | hr
      · exact .inl hd
      · exact .inr (mem_append_right _ hr)
  | interruptsOff body hwalk =>
    have hbody := body.runs_along hag hnames hrespects pointers hwalk hgo hw
    unfold Instr.meaning Instr.Bounded Instr.Paths Instr.hidden Instr.masks
    have hinside : Follows cs h kept (I ∨ true = true) _ _ _ _ :=
      hbody.mono (fun _ => .inr rfl) (fun r hr => hr) fun _ hσ => hσ
    refine (hinside.then_acts ?_).acts_before fun σ => (Cpu.Keeps.refl σ).setMask (.inr rfl) true
    rintro σ out ⟨σ', rfl, rfl⟩
    exact ⟨_, rfl, (Cpu.Keeps.refl σ).setMask (.inr rfl) false⟩
  | @save _ rs _ cx _ body hset h1 hnone =>
    obtain ⟨-, hterminated, -, hbytes, -⟩ := setAside_ok hset
    have hassoc : cx.getAssoc = t.cx.getAssoc := Context.getAssoc_congr (assoc_setAside hset).1
    have hgo1 : (t.withContext cx).cx.terminated = false := hterminated.trans hgo
    have hbody := body.runs_along hag hnames hrespects pointers h1 hgo1 (nodup_setAside hset hw)
    unfold Instr.meaning Instr.Bounded Instr.Paths Instr.hidden Instr.masks
    rw [← hassoc]
    refine hbody.saving hnames (fun r hr => hag.typeOf (hbytes r hr)) ?_ ?_ ?_ ?_
    · -- A jump out of the block would have been refused.
      intro live log after hpath
      exact (body.covers s h1 hgo1).gotos (body.paths_repeatable s _) hpath (refuseGotos_ok hnone)
    · rintro r (hr | hr)
      · exact (writeable_setAside hset r hr).imp id .inl
      · by_cases hrs : r ∈ rs
        · exact .inl hrs
        · exact .inr (.inr (mem_append_left _ (mem_filter.2 ⟨hr, by simpa using hrs⟩)))
    · exact .inr (mem_append_right _ (by simp))
    · exact .inr (mem_append_right _ (by simp))
  | @pointInto _ p table _ _ body henter h1 _ =>
    obtain ⟨-, -, -, rfl⟩ := enterPoint_ok henter
    have hbody := body.runs_along hag hnames hrespects (pointers.set p.name table.name) h1 hgo hw
    unfold Instr.meaning Instr.Bounded Instr.Paths Instr.hidden Instr.masks
    intro σ out hin hend live
    rw [pointInto_env] at hin ⊢
    obtain ⟨log, after, hpath, hback⟩ := hbody σ out hin hend (live \ {p})
    cases out with
    | done τ => exact ⟨log, _, ⟨_, hpath, rfl⟩, hback⟩
    | left target τ => exact ⟨log, _, ⟨_, hpath, rfl⟩, hback⟩

/-- A run of the code of an accepted block follows a path through it. -/
theorem Block.runs_along (hag : cs.Agrees s)
    (hnames : cs.Unlabelled) (hrespects : h.Respects cs s kept I) : ∀ (b : Block) (pointers : Assoc String String)
    {t t' : Trail}, b.walk s t = .ok t' → t.cx.terminated = false → t.cx.writeable.Nodup →
      Follows cs h kept (I ∨ b.masks = true) {r | r ∈ t.cx.writeable ∨ r ∈ b.hidden} (b.meaning cs h pointers)
        (b.Bounded cs h t.cx.getAssoc pointers) (b.Paths s t.cx.getAssoc)
  | .nil line, pointers, t, t', hwalk, hgo, hw => by
    unfold Block.meaning Block.Paths
    exact .skip
  | .cons head tail, pointers, t, t', hwalk, hgo, hw => by
    obtain ⟨t1, h1, h2⟩ := bind_eq_ok.1 hwalk
    have hhead := head.runs_along hag hnames hrespects pointers h1 hgo hw
    obtain ⟨hw1, hmem⟩ := (head.walk_orderly s h1).writeable hw
    unfold Block.meaning Block.Bounded Block.Paths Block.hidden Block.masks
    refine Follows.seq (hhead.mono (Or.imp id ?_) ?_ fun _ hσ => hσ.1) (fun live log mid hpath => ?_)
      fun σ σ' hσ hend => hσ.2 σ' hend
    · exact fun hmasks => by rw [hmasks, Bool.true_or]
    · exact fun r hr => hr.imp id (mem_append_left _)
    · -- The tail is walked through only where the head comes to its end.
      have hgo1 := (head.covers s h1 hgo).terminated (head.paths_repeatable s _) hpath
      have htail := tail.runs_along hag hnames hrespects pointers h2 hgo1 hw1
      rw [(head.walk_keeps s h1).assoc] at htail
      refine htail.mono (Or.imp id ?_) ?_ fun _ hσ => hσ
      · exact fun hmasks => by rw [hmasks, Bool.or_true]
      · exact fun r hr => hr.imp (hmem r).1 (mem_append_right _)

end

end CheckedAsm
