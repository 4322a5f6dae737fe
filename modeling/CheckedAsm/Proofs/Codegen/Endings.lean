import CheckedAsm.Proofs.Codegen.Nesting
import CheckedAsm.Proofs.Codegen.Returns
/-! # Paths through a routine

The code of a routine is that of its body but for the end: there may be a return, a call that comes last may have become a jump,
and a jump that comes last may be left out where the routine that follows is the one it goes to. None of this comes between
instructions that belong together. So what holds on the paths through the body holds on those through the routine, and where
the code of the routine comes to its end nothing is open. -/

namespace CheckedAsm

open Codegen Emitter List

variable {e : Emitter} {ks : List Code} {next : Option String} {T T0 : Text} {pc q : Int} {path : List Int} {p : Program}
  {st st' u : CodeState} {i : Instr} {symbols : Symbols} {labels : LabelMap} {r : Routine} {body : Block}

/-! ### Ends -/

section

variable {ls : Labels} {D : Discipline} {R : Chart} {pc' : Int} {xs zs : List Int}

namespace Text.Ends

/-- Straight-line code is where it was. -/
theorem holds (h : T.Ends T0 q) (hT : T0.Holds pc ks) (hks : Code.Straight ks) : T.Holds pc ks := by
  induction ks generalizing pc with
  | nil => trivial
  | cons k ks ih =>
    have hplain := hks k mem_cons_self
    refine ⟨?_, ih hT.2 fun d hd => hks d (mem_cons_of_mem k hd)⟩
    rcases h.fetch pc with hsame | ⟨rfl, -⟩ | ⟨d, hd, htransfer, -⟩
    · rw [hsame, hT.1]
    · cases h.ended.symm.trans hT.1
    · obtain rfl := Code.item_inj (Option.some.inj (hT.1.symm.trans hd))
      obtain hj | hj := Mnemonic.isTransfer_cases htransfer
      all_goals
        rw [hj] at hplain
        cases hplain

theorem goes (h : T.Ends T0 q) (hsame : T.fetch pc = T0.fetch pc) (hg : T.Goes ls pc pc') : T0.Goes ls pc pc' := by
  cases hg with
  | on hf hj hr => exact .on (hsame ▸ hf) hj hr
  | branch hf hb => exact .branch (hsame ▸ hf) hb
  | jump hf hid => exact .jump (hsame ▸ hf) (h.inner ▸ hid)

end Text.Ends

/-! ### Paths -/

/-- Where the code of the body ends, nothing is open but what is to be. -/
theorem Text.Charts.last {p : Int} {ys : List Int} {k : Code} (hR : T0.Charts ls D p q xs ys R) (hpc : R pc zs)
    (hf : T0.fetch pc = some k.item) (hk : k.mnemonic.isTransfer = true) (hq : pc + k.size = q) : zs = ys := by
  obtain ⟨d, zs', hd, -, -, hadmits, hnext, -⟩ := hR.admits pc zs hpc
  obtain rfl := Code.item_inj (Option.some.inj (hf.symm.trans hd))
  have hspares : k.mnemonic.sparesSystem = true := by
    obtain hj | hj := Mnemonic.isTransfer_cases hk
    all_goals
      rw [hj]
      rfl
  obtain ⟨ho, hc⟩ := Bracket.ne_of_sparesSystem (B := D.bracket) hspares
  obtain rfl : zs = zs' := Option.some.inj ((Bracket.after_other ho hc).symm.trans hadmits.after)
  rcases hnext with hpast | ⟨-, heq⟩
  · -- no instruction of the chart stands at the end
    obtain ⟨d, -, -, -, hle, -⟩ := hR.admits _ _ hpast
    have hsize := d.size_pos
    omega
  · exact heq

/-- A path through the routine is one through its body: what it opens is what the chart tells. -/
theorem Text.Ends.arrives (h : T.Ends T0 q) (hR : T0.Charts ls D T0.start q [] [] R)
    (hcalls : ∀ pc o, T0.fetch pc = some (Code.item ⟨.jsr, o⟩) → ∃ id, o = .wide id ∧ T0.inner id = false)
    (hp : T.Passes ls path pc) : ∃ xs, T.opened D.bracket id path = some xs ∧ R.Arrives q [] pc xs := by
  induction hp with
  | start => exact ⟨[], rfl, h.start ▸ hR.enters⟩
  | @step path pc pc' hp hg ih =>
    obtain ⟨xs, hopened, hpc | ⟨rfl, rfl⟩⟩ := ih
    · obtain ⟨k, zs, hf, -, -, hadmits, -, hgoes⟩ := hR.admits pc xs hpc
      rcases h.fetch pc with hsame | ⟨rfl, -⟩ | ⟨d, hd, -, -, hnone | ⟨hj, hjump⟩⟩
      · refine ⟨zs, ?_, hgoes pc' (h.goes hsame hg)⟩
        rw [opened_cons hopened (hsame.trans hf : T.fetch (id pc) = some k.item)]
        exact hadmits.after
      · cases h.ended.symm.trans hf
      · cases hg with
        | on hf => cases hnone.symm.trans hf
        | branch hf => cases hnone.symm.trans hf
        | jump hf => cases hnone.symm.trans hf
      · -- the routine that is called stands elsewhere
        obtain rfl := Code.item_inj (Option.some.inj (hf.symm.trans hd))
        obtain ⟨m, o⟩ := k
        obtain rfl : m = .jsr := hj
        cases hg with
        | @on d hf' hjmp =>
          obtain rfl := Code.item_inj (Option.some.inj (hjump.symm.trans hf'))
          exact (hjmp rfl).elim
        | branch hf' hb =>
          cases hjump.symm.trans hf'
          cases hb
        | jump hf' hid =>
          cases hjump.symm.trans hf'
          obtain ⟨_, hwide, hout⟩ := hcalls pc _ hf
          cases hwide
          cases hout.symm.trans (h.inner ▸ hid)
    · exfalso
      rcases h.fetch pc with hsame | ⟨-, hrts⟩ | ⟨d, hd, -⟩
      · rw [h.ended] at hsame
        cases hg with
        | on hf => cases hsame.symm.trans hf
        | branch hf => cases hsame.symm.trans hf
        | jump hf => cases hsame.symm.trans hf
      · cases hg with
        | on hf _ hr =>
          obtain rfl := Code.item_inj (Option.some.inj (hrts.symm.trans hf))
          exact hr rfl
        | branch hf hb =>
          cases hrts.symm.trans hf
        | jump hf => cases hrts.symm.trans hf
      · cases h.ended.symm.trans hd

/-- Along every path through the routine, what is closed was opened where the discipline says, control departs only with what
may stay open, and it comes to the end with nothing open. -/
theorem Text.Ends.passes (h : T.Ends T0 q) (hR : T0.Charts ls D T0.start q [] [] R)
    (hcalls : ∀ pc o, T0.fetch pc = some (Code.item ⟨.jsr, o⟩) → ∃ id, o = .wide id ∧ T0.inner id = false)
    (hp : T.Passes ls path pc) :
    ∃ xs, T.opened D.bracket id path = some xs
      ∧ (T.mnemonic? pc = some D.bracket.closing → ∃ x ∈ xs.head?, D.Pairs x pc)
      ∧ (∀ k : Code, T.fetch pc = some k.item → T.Departs D.bracket k → ∀ x ∈ xs, D.Stays x)
      ∧ (T.fetch pc = none → xs = []) := by
  obtain ⟨xs, hopened, harrives⟩ := h.arrives hR hcalls hp
  refine ⟨xs, hopened, ?_⟩
  have hnothing : xs = [] → T.mnemonic? pc ≠ some D.bracket.closing →
      (T.mnemonic? pc = some D.bracket.closing → ∃ x ∈ xs.head?, D.Pairs x pc)
        ∧ (∀ k : Code, T.fetch pc = some k.item → T.Departs D.bracket k → ∀ x ∈ xs, D.Stays x)
        ∧ (T.fetch pc = none → xs = []) := by
    rintro rfl hne
    exact ⟨fun hm => (hne hm).elim, fun _ _ _ _ hx => (not_mem_nil hx).elim, fun _ => rfl⟩
  have hcode : ∀ k : Code, T.fetch pc = some k.item → k.mnemonic.sparesSystem = true →
      T.mnemonic? pc ≠ some D.bracket.closing := by
    intro k hf hk
    rw [mnemonic?_of_fetch hf]
    exact fun hm => (Bracket.ne_of_sparesSystem hk).2 (Option.some.inj hm)
  have hnone : T.fetch pc = none → T.mnemonic? pc ≠ some D.bracket.closing := by
    intro hf
    simp [mnemonic?, hf]
  rcases harrives with hpc | ⟨rfl, rfl⟩
  · rcases h.fetch pc with hsame | ⟨rfl, -⟩ | ⟨k, hf, hk, hq, hend⟩
    · obtain ⟨k, zs, hf, -, -, hadmits, -⟩ := hR.admits pc xs hpc
      have hf' : T.fetch pc = some k.item := hsame.trans hf
      refine ⟨fun hm => ?_, fun d hd hdeparts => ?_, fun hnone => by cases hnone.symm.trans hf'⟩
      · rw [mnemonic?_of_fetch hf'] at hm
        exact hadmits.closes (Option.some.inj hm)
      · obtain rfl := Code.item_inj (Option.some.inj (hf'.symm.trans hd))
        unfold Text.Departs at hdeparts
        rw [h.inner] at hdeparts
        exact hadmits.departs hdeparts
    · obtain ⟨k, -, hf, -⟩ := hR.admits _ xs hpc
      cases h.ended.symm.trans hf
    · refine hnothing (hR.last hpc hf hk hq) ?_
      rcases hend with hf' | ⟨-, hf'⟩
      · exact hnone hf'
      · exact hcode _ hf' rfl
  · refine hnothing rfl ?_
    rcases h.fetch pc with hsame | ⟨-, hrts⟩ | ⟨d, hd, -⟩
    · exact hnone (hsame.trans h.ended)
    · exact hcode _ hrts rfl
    · cases h.ended.symm.trans hd

end

/-! ### Routines -/

theorem Instr.Encloses.of_ends {x y : Int} {cs : CodeSetting} {B : Bracket}
    (h : T.Ends T0 q) (hi : i.Encloses T0 cs u B x y) : i.Encloses T cs u B x y := by
  cases hi with
  | interrupts hb => exact .interrupts hb
  | stack haside =>
    obtain ⟨front, back, before, f, g, ks, ks', v, hsplit, hbefore, hb, hf, hg, hks, hks', hH, hH', hx, hy⟩ := haside
    exact .stack ⟨front, back, before, f, g, ks, ks', v, hsplit, hbefore, hb, hf, hg, hks, hks', h.holds hH (push_straight hks),
      h.holds hH' (pull_straight hks'), hx, hy⟩

/-- The code of a routine, which is added to a state, has the code of an instruction in it, at any depth, generated from
another. -/
def Routine.Generates (symbols : Symbols) (labels : LabelMap) (r : Routine) (st : CodeState) (i : Instr) (u : CodeState) : Prop :=
  ∃ body id, r.body = some body ∧ CodeSetting.label ⟨symbols, labels, some r.name⟩ r.name = .ok id
    ∧ body.Generates ⟨symbols, labels, some r.name⟩ (st.resolve id) i u

theorem Routine.Generates.contains (h : r.Generates symbols labels st i u) (hbody : r.body = some body) : body.Contains i := by
  obtain ⟨body', id, hbody', -, hgenerates⟩ := h
  cases hbody.symm.trans hbody'
  exact hgenerates.contains

theorem Program.Lays.mem_routines {roster : List (List String)} (h : p.Lays symbols roster e r next st st') : r ∈ p.routines := by
  obtain ⟨_, _, _, _, _, -, -, -, hr, -⟩ := h
  exact (findRoutine_name hr).2

/-- Along every path through a routine, whatever follows it: what is closed was opened by the same instruction; what is open where
control departs was opened by an instruction that has a departure in it; and at the end of the code nothing is open. -/
theorem Program.Lays.passes {roster : Option (List (List String))} {L : Layout}
    (hlays : p.Lays symbols (roster.getD (defaultRoster p.routines)) e r next st st') (hL : p.layOut symbols roster e = .ok L)
    (hbody : r.body = some body) (B : Bracket) (hp : (Text.between st.emitter st'.emitter).Passes L.emitter.labels path pc) :
    let T := Text.between st.emitter st'.emitter
    let cs : CodeSetting := ⟨symbols, L.labels, some r.name⟩
    ∃ xs, T.opened B id path = some xs
      ∧ (T.mnemonic? pc = some B.closing →
        ∃ x ∈ xs.head?, ∃ i u, r.Generates symbols L.labels st i u ∧ i.Encloses T cs u B x pc)
      ∧ (∀ k : Code, T.fetch pc = some k.item → T.Departs B k → ∀ x ∈ xs, ∃ i u y, r.Generates symbols L.labels st i u
        ∧ i.Encloses T cs u B x y ∧ ∃ b ∈ i.blocks, ∃ j, b.Contains j ∧ j.departs B = true)
      ∧ (T.fetch pc = none → xs = []) := by
  intro T cs
  obtain ⟨id, st1, e', hid, hc, rfl, hends, hcompletes, hout, hcalls⟩ := hlays.of_body hL hbody
  let T0 := Text.between (st.resolve id).emitter st1.emitter
  let D : Discipline :=
    { bracket := B
      Pairs := fun x y => ∃ i u, r.Generates symbols L.labels st i u ∧ i.Encloses T cs u B x y
      Stays := fun x => ∃ i u y, r.Generates symbols L.labels st i u ∧ i.Encloses T cs u B x y
        ∧ ∃ b ∈ i.blocks, ∃ j, b.Contains j ∧ j.departs B = true }
  have hsuits : D.SuitsAll T0 cs body (st.resolve id) := by
    intro i u hi
    have hgenerates : r.Generates symbols L.labels st i u := ⟨body, id, hbody, hid, hi⟩
    exact ⟨fun x y hxy => ⟨i, u, hgenerates, hxy.of_ends hends⟩,
      fun x y hxy b hb j hj hd => ⟨i, u, y, hgenerates, hxy.of_ends hends, b, hb, j, hj, hd⟩⟩
  obtain ⟨R, hR⟩ := body.nests (D := D) hout _ _ [] hc (Text.hosts_between (hcompletes fun _ _ => none)) hsuits
    fun _ _ _ x hx => (not_mem_nil hx).elim
  exact hends.passes hR hcalls hp

end CheckedAsm
