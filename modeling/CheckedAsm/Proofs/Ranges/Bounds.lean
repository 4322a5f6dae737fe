import CheckedAsm.Proofs.Analysis.Walk
import CheckedAsm.Proofs.Ranges.Single
/-! # Bounds of tables

A body that the analysis accepts, and that does not rely on a stale range, reaches every cell inside the
bounds of its table, in each of its executions. The invariant is that all ranges but the stale ones are
right; it is carried through single operations, calls, choices, loops and the rest by induction on the
body, and through the rounds of a loop by induction on the rounds. -/

namespace CheckedAsm

open Context Focus List

variable {after stale : Set Ref} {op : Op} {f : Focus} {t : Trail} {trace : List Access} {o : Option Store} {inside : Range}
  {final : Const} {dir : Direction}

variable {s : Setting} {cx cx' cx1 cx2 merged : Context} {σ σ' : Store} {stale1 stale2 within : Set Ref} {d r : Ref}
  {run : Behaviour}

/-- What is known about a run: its accesses lie inside their tables, and where it has come to its end, the
analysis expects control there and all ranges but the stale ones are right. -/
def Safe (s : Setting) (cx' : Context) (after : Set Ref) (trace : List Access) (o : Option Store) : Prop :=
  (∀ access ∈ trace, access.InBounds s)
    ∧ ∀ σ', o = some σ' → cx'.Holds s after σ' ∧ σ'.Typed s ∧ cx'.terminated = false

/-- Each run from a store for which the first ranges are right is safe. -/
def Carries (s : Setting) (run : Behaviour) (cx : Context) (stale : Set Ref) (cx' : Context)
    (after : Set Ref) : Prop :=
  ∀ σ trace o, cx.Holds s stale σ → σ.Typed s → run σ trace o → Safe s cx' after trace o

/-! ### Straight code -/

theorem safe_nil_none : Safe s cx' after [] none := ⟨by simp, nofun⟩

theorem Op.Acts.typed (h : op.Acts s σ σ') (hσ : σ.Typed s) : σ'.Typed s := by
  cases op with
  | ld d src => exact h.2.1.2
  | st src d =>
    cases d with
    | indexed _ _ _ | indirect _ => cases h; exact hσ
    | _ => exact h.2.1.2
  | add d src | sub d src | and d src | or d src | xor d src => exact h.2.1.2
  | cmp d src => exact h.2
  | shl d | shr d | inc d | dec d =>
    cases d with
    | indexed _ _ _ => exact h.2
    | _ => exact h.2.1.2
  | copy src d =>
    cases d with
    | indexed _ _ _ | indirect _ => exact h.2
    | _ => exact h.2.1.2
  | trash d | nop => cases h; exact hσ

theorem carries_op (h : f.single cx op = .ok cx') (hbacks : ∀ cell ∈ op.cells, cx.Backs f.setting stale cell)
    (hafter : staleAfter (op.changes f.setting cx cx' stale) stale ⊆ after) (hgo : cx'.terminated = false) :
    Carries f.setting (fun σ trace o => trace = op.accesses σ
      ∧ ∀ σ', o = some σ' → op.Acts f.setting σ σ') cx stale cx' after := by
  rintro σ _ o hcx hσ ⟨rfl, hact⟩
  refine ⟨single_inBounds h hcx hσ hbacks, fun σ' ho => ?_⟩
  have hact := hact σ' ho
  exact ⟨single_holds hcx hσ h hact hafter, hact.typed hσ, hgo⟩

/-- A call may leave anything in what the routine sets and spoils, and keeps the rest. -/
theorem carries_call {t' : Trail} {target : String} (h : f.call t target = .ok t')
    (hafter : ∀ ty sig, f.setting.typeOfName target = .ok ty → ty.target = .routine sig →
      staleAfter (sig.changed.map (Op.anyIn f.setting t'.cx)) stale ⊆ after) (hgo : t.cx.terminated = false) :
    Carries f.setting (fun σ trace o => trace = [] ∧ ∀ σ', o = some σ' →
      σ.Returns f.setting target σ') t.cx stale t'.cx after := by
  obtain ⟨ty, sig, cx, hty, hsig, -, hperform, rfl⟩ := call_ok h
  obtain ⟨-, -, -, terminated, ranges⟩ := perform_ok hperform
  have htarget : ty.target = .routine sig := by rcases hsig with rfl | rfl <;> rfl
  rintro σ _ o hcx hσ ⟨rfl, hret⟩
  refine ⟨by simp, fun σ' ho => ?_⟩
  obtain ⟨ty', sig', hty', htarget', hch⟩ := hret σ' ho
  rw [hty] at hty'
  cases hty'
  rw [htarget] at htarget'
  cases htarget'
  refine ⟨?_, hch.2, terminated.trans hgo⟩
  refine hcx.effect (sig.changed.map (Op.anyIn f.setting cx)) [] [] ?_ ?_ (by simp) ?_ ?_
  · simpa [Op.anyIn, Function.comp_def] using hch
  · intro r right hmem hright
    obtain ⟨q, -, hq⟩ := mem_map.1 hmem
    cases hq
    exact right_of_takes hright fun t ht => hch.2 _ t ht
  · intro r hr _
    refine ranges r fun hmem => hr ?_
    obtain ⟨o, ho, rfl⟩ := mem_map.1 hmem
    simp only [map_map, mem_map, Function.comp_apply, Op.anyIn, Signature.changed,
      mem_flatMap, mem_append]
    exact ⟨_, ⟨o, .inr ho, by simp⟩, rfl⟩
  · simpa [Trail.withContext] using hafter ty sig hty htarget

theorem carries_reset {pointer : Ref} {offset : Const} (h : f.reset cx pointer offset = .ok cx')
    (hafter : staleAfter [Op.anyIn f.setting cx' pointer] stale ⊆ after) (hgo : cx.terminated = false) :
    Carries f.setting (fun σ trace o => trace = [] ∧ ∀ σ', o = some σ' →
      pointer.IsPlace ∧ σ.Changes f.setting σ' [pointer]) cx stale cx' after := by
  obtain ⟨-, cx1, hm, rfl⟩ := reset_ok h
  obtain ⟨same, -, ranges⟩ := makeMeaningful_ok hm
  rintro σ _ o hcx hσ ⟨rfl, hch⟩
  refine ⟨by simp, fun σ' ho => ?_⟩
  obtain ⟨-, hch⟩ := hch σ' ho
  have hkept : ∀ r, Kept f.setting cx (cx1.touch pointer) r :=
    fun r => (ranges r).imp id fun h => h.2.2
  exact ⟨hcx.flags hch hkept hafter, hch.2, same.terminated.trans hgo⟩

/-! ### Choices -/

/-- After a choice the ranges are right, whichever branch was taken. -/
theorem merge_holds (h : Focus.merge s cx cx1 cx2 = .ok merged) (hσ : σ.Typed s)
    (hbranch : (cx1.terminated = false ∧ cx1.Holds s stale1 σ)
      ∨ (cx2.terminated = false ∧ cx2.Holds s stale2 σ))
    (hafter : staleMerged s cx cx1 cx2 merged stale1 stale2 ⊆ after) : merged.Holds s after σ := by
  obtain ⟨both, hmerged, -, hjoins⟩ := merge_ok h
  have hspoiled : ∀ r, merged.range? r = both.range? r ∨ merged.range? r = none := by
    intro r
    rw [hmerged, range?_spoilAll]
    split
    · exact .inr rfl
    · exact .inl rfl
  -- A branch that alone goes on hands its ranges over, but for those that are spoiled.
  have hover : ∀ {cxᵢ : Context} {staleᵢ : Set Ref}, (∀ r, both.range? r = cxᵢ.range? r) →
      cxᵢ.Holds s staleᵢ σ → staleᵢ ⊆ after → merged.Holds s after σ := by
    intro cxᵢ staleᵢ hranges hcx hsub r hr hnot
    rcases hspoiled r with h | h
    · exact (hcx r hr fun hmem => hnot (hsub hmem)).congr (h.trans (hranges r)) rfl
    · exact right_of_none h
  cases hjoins with
  | second h1 =>
    obtain ⟨-, hcx⟩ := hbranch.resolve_left (by simp [h1])
    exact hover (fun _ => rfl) hcx (by simpa [staleMerged, h1] using hafter)
  | first h1 h2 =>
    obtain ⟨-, hcx⟩ := hbranch.resolve_right (by simp [h2])
    exact hover (fun _ => rfl) hcx (by simpa [staleMerged, h1, h2] using hafter)
  | neither h1 h2 _ _ _ _ hranges =>
    intro r hr hnot
    simp only [staleMerged, h1, h2, Bool.false_eq_true, ↓reduceIte] at hafter
    cases hm : cx.isMeaningful r with
    | true =>
      have htakes := not_not.1 fun hwrong => hnot (hafter ⟨hm, hwrong⟩)
      refine right_of_takes htakes ?_
      exact hbranch.imp (fun h => h.2.mayBe hσ (Store.reads_place hr))
        fun h => h.2.mayBe hσ (Store.reads_place hr)
    | false =>
      rcases hspoiled r with h | h
      · rcases hranges r with h' | ⟨-, range, hmax, h'⟩
        · refine right_of_none (h.trans (h'.trans ?_))
          simpa [isMeaningful_eq] using hm
        · exact right_of_widest hσ hr ⟨range, hmax, h.trans h'⟩
      · exact right_of_none h

/-! ### Loops -/

theorem safe_append {trace' : List Access} (h : ∀ access ∈ trace, access.InBounds s) (h' : Safe s cx' after trace' o) :
    Safe s cx' after (trace ++ trace') o :=
  ⟨fun access hmem => (mem_append.1 hmem).elim (h access) (h'.1 access), h'.2⟩

theorem SameRanges.symm (h : SameRanges cx cx' stale) : SameRanges cx' cx stale :=
  fun r hr => h r hr.symm

theorem SameRanges.holds (h : SameRanges cx cx' stale) (hcx : cx.Holds s stale σ) :
    cx'.Holds s stale σ := by
  intro r hr hnot
  refine (hcx r hr hnot).congr ?_ rfl
  by_contra hne
  exact hnot (h r (Ne.symm hne))

/-- The second walk through the body of a loop, from where the first one ended, covers all further
rounds, since it ends with the ranges with which it began. -/
theorem Carries.again (h : Carries s run cx1 after cx2 after) (hsame : SameRanges cx1 cx2 after) (hgo : cx1.terminated = false) :
    Carries s run cx1 after cx1 after := by
  intro σ trace o hcx hσ hrun
  obtain ⟨haccess, hend⟩ := h σ trace o hcx hσ hrun
  refine ⟨haccess, fun σ' ho => ?_⟩
  obtain ⟨hcx', hσ', -⟩ := hend σ' ho
  exact ⟨hsame.symm.holds hcx', hσ', hgo⟩

/-- A second round is only begun where the first one came to its end. -/
theorem carries_loop (h1 : Carries s run cx stale cx1 after)
    (h2 : cx1.terminated = false → Carries s run cx1 after cx2 after)
    (hsame : SameRanges cx1 cx2 after) (hgo : cx1.terminated = false → cx2.terminated = false) :
    Carries s (Iterates run) cx stale cx2 after := by
  intro σ trace o hcx hσ hrun
  induction hrun generalizing cx stale with
  | last hbody =>
    obtain ⟨haccess, hend⟩ := h1 _ _ _ hcx hσ hbody
    refine ⟨haccess, fun σ' ho => ?_⟩
    obtain ⟨hcx', hσ', hgo'⟩ := hend σ' ho
    exact ⟨hsame.holds hcx', hσ', hgo hgo'⟩
  | more hbody _ ih =>
    obtain ⟨haccess, hend⟩ := h1 _ _ _ hcx hσ hbody
    obtain ⟨hcx', hσ', hgo'⟩ := hend _ rfl
    exact safe_append haccess (ih ((h2 hgo').again hsame hgo') hcx' hσ')

/-! ### Counting loops -/

/-- The range ends at the last value of the loop, on the side to which it counts. -/
def EndsAt (inside : Range) (final : Int) : Direction → Prop
  | .up => inside.top = .int final
  | .down => inside.bottom = .int final

theorem endsAt_of_loopRange {range : Range} {final : Int}
    (h : f.loopRange d range final dir = .ok inside) : EndsAt inside final dir := by
  rcases loopRange_ok h with ⟨rfl, t, -, -, rfl⟩ | ⟨rfl, b, -, -, rfl⟩ <;> rfl

theorem Ty.maxRange_fst (t : Ty) : t.maxRange.1 = 0 := by cases t <;> rfl

theorem Store.Typed.put (hσ : σ.Typed s) (d : Ref) (n : Int) : (σ.put d (s.wrap d n)).Typed s := by
  intro r t ht
  unfold Store.put
  split
  · next heq =>
    subst heq
    have hfits := hσ r t ht
    simp only [Ty.Fits, Ty.maxRange_fst] at hfits
    simp only [Setting.wrap, ht, Ty.wrap, Ty.Fits, Ty.maxRange_fst]
    have hpos : 0 < t.maxRange.2 + 1 := by omega
    have := Int.emod_nonneg n (by omega : t.maxRange.2 + 1 ≠ 0)
    have := Int.emod_lt_of_pos n hpos
    omega
  · exact hσ r t ht

/-- A variable that has not come to the last value yet does not wrap around. -/
theorem wrap_step {final : Int} (hσ : σ.Typed s) (hfits : s.Fits d final)
    (hup : dir = .up → σ d < final) (hdown : dir = .down → final < σ d) : s.wrap d (σ d + dir.step) = σ d + dir.step := by
  unfold Setting.wrap
  cases ht : s.typeOfName d.name with
  | error _ => rfl
  | ok t =>
    have hfinal := hfits t ht
    have hvalue := hσ d t ht
    simp only [Ty.Fits, Ty.maxRange_fst] at hfinal hvalue
    apply Int.emod_eq_of_lt
    · cases dir with
      | up => simp only [Direction.step]; omega
      | down => have := hdown rfl; simp only [Direction.step]; omega
    · cases dir with
      | up => have := hup rfl; simp only [Direction.step]; omega
      | down => simp only [Direction.step]; omega

/-- A step of the variable leaves the range right that it has inside the loop. -/
theorem Context.Holds.step {final : Int} (hcx : cx.Holds s within σ) (hσ : σ.Typed s) (hend : EndsAt inside final dir)
    (hinside : d.settled ∉ within → Countable s d final ∧ cx.range? d = some inside) (hne : σ d.settled ≠ final) :
    cx.Holds s within (σ.put d.settled (s.wrap d.settled (σ d.settled + dir.step))) := by
  intro r hr hnot
  by_cases hrd : r = d.settled
  · subst hrd
    obtain ⟨⟨hfits, hsettled⟩, hrange⟩ := hinside hnot
    rw [hsettled] at hr hnot hne ⊢
    obtain ⟨hadmits, hwithin⟩ := hcx d hr hnot
    obtain ⟨hlow, hhigh⟩ := hadmits inside hrange
    have hup : dir = .up → σ d ≤ final := by
      rintro rfl
      exact hhigh final (by rw [hend]; rfl)
    have hdown : dir = .down → final ≤ σ d := by
      rintro rfl
      exact hlow final (by rw [hend]; rfl)
    have hwrap : s.wrap d (σ d + dir.step) = σ d + dir.step :=
      wrap_step hσ hfits (fun h => by have := hup h; omega) fun h => by have := hdown h; omega
    refine ⟨?_, hwithin⟩
    intro range' hrange'
    rw [hrange] at hrange'
    cases hrange'
    simp only [Store.put, ↓reduceIte, hwrap]
    refine ⟨fun b hb => ?_, fun t ht => ?_⟩
    · cases dir with
      | up => have := hlow b hb; simp only [Direction.step]; omega
      | down =>
        rw [hend] at hb
        cases hb
        have := hdown rfl
        simp only [Direction.step]
        omega
    · cases dir with
      | up =>
        rw [hend] at ht
        cases ht
        have := hup rfl
        simp only [Direction.step]
        omega
      | down => have := hhigh t ht; simp only [Direction.step]; omega
  · exact (hcx r hr hnot).congr rfl (by simp [Store.put, hrd])

/-- Where the loop is left, nothing is claimed about the variable. -/
theorem holds_leaveCount {n : Int} (hcx : cx2.Holds s within σ) (hout : ∀ r ∈ within, r ≠ d → r ∈ after)
    (hinside : d.settled ∉ within → d.settled = d) :
    ((cx2.putRange d ⟨.const final, .const final⟩).unlock d).Holds s after (σ.put d.settled n) := by
  intro r hr hnot
  by_cases hrd : d = r
  · subst hrd
    have hrange : ((cx2.putRange d ⟨.const final, .const final⟩).unlock d).range? d
        = some ⟨.const final, .const final⟩ := by simp
    refine ⟨fun range h => ?_, fun cell size hty range h => ?_⟩ <;>
      (rw [hrange] at h; cases h; exact ⟨nofun, nofun⟩)
  · have hnot' : r ∉ within := fun hmem => hnot (hout r hmem (Ne.symm hrd))
    refine (hcx r hr hnot').congr (by simp [hrd]) ?_
    have hne : r ≠ d.settled := by
      rintro rfl
      exact hrd (hinside hnot').symm
    simp [Store.put, hne]

/-- Where the loop is entered, the range of the variable goes from where it was to the last value. -/
theorem holds_enterCount (h : f.enterCount cx d dir final = .ok cx') (hcx : cx.Holds f.setting stale σ) :
    cx'.Holds f.setting (staleCounting f.setting d final.value stale) σ := by
  obtain ⟨range, inside, -, hg, hl, rfl⟩ := enterCount_ok h
  intro r hr hnot
  have hfresh : r ∉ stale := fun hmem => hnot (.inl hmem)
  by_cases hrd : d = r
  · subst hrd
    have hcountable : Countable f.setting d final.value :=
      not_not.1 fun hnc => hnot (.inr ⟨.inl rfl, hnc⟩)
    have hrange : cx.range? d = some range := by
      rcases getRange_ok hg with ⟨c, rfl, -⟩ | hrange
      · exact hr.elim
      · exact hrange
    obtain ⟨hadmits, hwithin⟩ := hcx d hr hfresh
    obtain ⟨hlow, hhigh⟩ := hadmits range hrange
    have hinside : ∀ range', (cx.putRange d inside).range? d = some range' → range' = inside := by
      intro range' h
      simpa using h.symm
    refine ⟨fun range' h => ?_, fun cell size hty range' h => ?_⟩
    · obtain rfl := hinside range' h
      rcases loopRange_ok hl with ⟨-, t, ht, hlt, rfl⟩ | ⟨-, b, hb, hlt, rfl⟩
      · refine ⟨hlow, fun t' ht' => ?_⟩
        cases ht'
        have := hhigh t (by rw [ht]; rfl)
        omega
      · refine ⟨fun b' hb' => ?_, hhigh⟩
        cases hb'
        have := hlow b (by rw [hb]; rfl)
        omega
    · obtain rfl := hinside range' h
      obtain ⟨hzero, hsize⟩ := hwithin cell size hty range hrange
      have hfinal := hcountable.1 _ hty
      simp only [Ty.Fits, Ty.maxRange] at hfinal
      rcases loopRange_ok hl with ⟨-, t, -, -, rfl⟩ | ⟨-, b, -, -, rfl⟩
      · refine ⟨hzero, fun t' ht' => ?_⟩
        cases ht'
        exact hfinal.2
      · refine ⟨fun b' hb' => ?_, hsize⟩
        cases hb'
        exact hfinal.1
  · exact (hcx r hr hfresh).congr (by simp [range?, putRange, hrd]) rfl

theorem carries_count (h1 : Carries s run cx stale cx1 within) (h2 : cx1.terminated = false → Carries s run cx1 within cx2 within)
    (hsame : SameRanges cx1 cx2 within) (hend : EndsAt inside final.value dir)
    (hinside : d.settled ∉ within → Countable s d final.value ∧ cx1.range? d = some inside)
    (hout : ∀ r ∈ within, r ≠ d → r ∈ after) (hgo : cx1.terminated = false → cx2.terminated = false) :
    Carries s (Counts s d.settled dir final.value run) cx stale
      ((cx2.putRange d ⟨.const final, .const final⟩).unlock d) after := by
  intro σ trace o hcx hσ hrun
  induction hrun generalizing cx stale with
  | cut hbody => exact ⟨(h1 _ _ _ hcx hσ hbody).1, nofun⟩
  | last hbody _ =>
    obtain ⟨haccess, hdone⟩ := h1 _ _ _ hcx hσ hbody
    obtain ⟨hcx', hσ', hgo'⟩ := hdone _ rfl
    refine ⟨haccess, ?_⟩
    rintro _ ⟨⟩
    exact ⟨holds_leaveCount (hsame.holds hcx') hout fun h => (hinside h).1.2, hσ'.put _ _, hgo hgo'⟩
  | more hbody hne _ ih =>
    obtain ⟨haccess, hdone⟩ := h1 _ _ _ hcx hσ hbody
    obtain ⟨hcx', hσ', hgo'⟩ := hdone _ rfl
    exact safe_append haccess (ih ((h2 hgo').again hsame hgo') (hcx'.step hσ' hend hinside hne) (hσ'.put _ _))

/-! ### Setting bytes aside, and pointers -/

/-- Bytes that were set aside have their former values and ranges again. -/
theorem holds_restore {locations : List Ref} {batons : List Baton}
    (h : f.setAside locations cx = .ok (batons, cx1)) (hcx : cx.Holds s stale σ) {σ1 : Store}
    (hcx2 : cx2.Holds s stale1 σ1) (hσ' : σ.Restores s locations σ1 σ') (hout : staleRestored locations stale stale1 ⊆ after) :
    (Focus.restore cx2 batons locations.head?).Holds s after σ' := by
  obtain ⟨-, -, -, -, made, all⟩ := setAside_ok h
  obtain ⟨-, hacc, hrest⟩ := hσ'
  have hranges : ∀ r, (batons.foldl reintroduce cx2).range? r
      = if r ∈ locations then cx.range? r else cx2.range? r := by
    intro r
    rw [range?_reintroduceAll fun b hb => (made b hb).2.1]
    refine if_congr ⟨?_, all r⟩ rfl rfl
    rintro ⟨b, hb, rfl⟩
    exact (made b hb).1
  intro r hr hnot
  have hstale : (r = .a → locations.head? = some .a) →
      ¬ if r ∈ locations then r ∈ stale else r ∈ stale1 := fun ha hmem => hnot (hout ⟨ha, hmem⟩)
  have hplain : (r = .a → locations.head? = some .a) →
      (batons.foldl reintroduce cx2).Right s σ' r := by
    intro ha
    have hnot' := hstale ha
    by_cases hmem : r ∈ locations
    · rw [if_pos hmem] at hnot'
      refine (hcx r hr hnot').congr (by rw [hranges, if_pos hmem]) ?_
      by_cases hra : r = .a
      · rw [hra]; exact hacc (ha hra)
      · rw [hrest r hra, if_pos hmem]
    · rw [if_neg hmem] at hnot'
      have hra : r ≠ .a := by
        rintro rfl
        exact hmem (mem_of_mem_head? (ha rfl))
      refine (hcx2 r hr hnot').congr (by rw [hranges, if_neg hmem]) ?_
      rw [hrest r hra, if_neg hmem]
  unfold Focus.restore
  by_cases hfirst : locations.head? = some .a
  · rw [if_pos hfirst]
    exact hplain fun _ => hfirst
  · rw [if_neg hfirst]
    by_cases hra : r = .a
    · exact right_of_none (by simp [hra])
    · exact (hplain fun h => absurd h hra).congr (by simp [Ne.symm hra]) rfl

/-- Inside and after the block, nothing is known about a pointer that was associated with a table. -/
theorem holds_forget (hcx : cx.Holds s stale σ) (hranges : ∀ r, d ≠ r → cx'.range? r = cx.range? r)
    (hnone : cx'.range? d = none) (hout : ∀ r ∈ stale, r ≠ d → r ∈ after) : cx'.Holds s after σ := by
  intro r hr hnot
  by_cases hrd : d = r
  · exact right_of_none (hrd ▸ hnone)
  · exact (hcx r hr fun hmem => hnot (hout r hmem (Ne.symm hrd))).congr (hranges r hrd) rfl

/-! ### Bodies -/

mutual

/-- An accepted instruction that does not rely on stale ranges runs safely. -/
theorem Instr.carries (s : Setting) (i : Instr) {t t' : Trail} {stale after : Set Ref} (hw : i.walk s t = .ok t')
    (hb : i.Backed s t stale after) (hgo : t.cx.terminated = false) : Carries s (i.Runs s) t.cx stale t'.cx after := by
  cases Instr.walked hw with
  | op h =>
    have hop := carries_op h hb.1 (hb.2 _ hw) (terminated_single h)
    exact hop
  | call h =>
    have hcall := carries_call h (hb _ hw) hgo
    exact hcall
  | goto =>
    rintro σ _ _ hcx hσ ⟨rfl, rfl⟩
    exact safe_nil_none
  | reset h =>
    have hreset := carries_reset h (hb _ hw) hgo
    exact hreset
  | @ifThen _ _ _ t1 cx yes h1 hm =>
    obtain ⟨stale1, hb1, hafter⟩ := hb
    have hafter := hafter t1 cx h1 hm
    rintro σ trace o hcx hσ (hrun | ⟨rfl, rfl⟩)
    · obtain ⟨haccess, hdone⟩ := yes.carries s h1 hb1 rfl σ trace o hcx hσ hrun
      refine ⟨haccess, fun σ' ho => ?_⟩
      obtain ⟨hcx1, hσ', hgo1⟩ := hdone σ' ho
      refine ⟨merge_holds hm hσ' (.inl ⟨hgo1, hcx1⟩) hafter, hσ', ?_⟩
      refine (merge_terminated hm).trans ?_
      simp [hgo1, hgo]
    · refine ⟨by simp, ?_⟩
      rintro _ ⟨⟩
      refine ⟨merge_holds hm hσ (.inr ⟨rfl, hcx⟩) hafter, hσ, (merge_terminated hm).trans ?_⟩
      simp [Context.branch, hgo]
  | @ifElse _ _ _ t1 t2 cx yes no h1 h2 hm =>
    obtain ⟨stale1, stale2, hb1, hrest⟩ := hb
    obtain ⟨hb2, hafter⟩ := hrest t1 h1
    have hafter := hafter t2 cx h2 hm
    rintro σ trace o hcx hσ (hrun | hrun)
    · obtain ⟨haccess, hdone⟩ := yes.carries s h1 hb1 rfl σ trace o hcx hσ hrun
      refine ⟨haccess, fun σ' ho => ?_⟩
      obtain ⟨hcx1, hσ', hgo1⟩ := hdone σ' ho
      refine ⟨merge_holds hm hσ' (.inl ⟨hgo1, hcx1⟩) hafter, hσ', (merge_terminated hm).trans ?_⟩
      simp [hgo1, hgo]
    · obtain ⟨haccess, hdone⟩ := no.carries s h2 hb2 rfl σ trace o hcx hσ hrun
      refine ⟨haccess, fun σ' ho => ?_⟩
      obtain ⟨hcx2, hσ', hgo2⟩ := hdone σ' ho
      refine ⟨merge_holds hm hσ' (.inr ⟨hgo2, hcx2⟩) hafter, hσ', (merge_terminated hm).trans ?_⟩
      simp [hgo2, hgo]
  | @loop _ _ _ t1 _ body h1 _ _ h2 _ =>
    obtain ⟨hb1, hrest⟩ := hb
    obtain ⟨hb2, hsame⟩ := hrest t1 h1
    exact carries_loop (body.carries s h1 hb1 hgo) (body.carries s h2 hb2) (hsame _ h2)
      (Block.walk_again h1 h2 hgo)
  | @count _ d _ _ cx t1 t2 _ body henter h1 h2 hleave =>
    obtain ⟨within, hout, hrest⟩ := hb
    obtain rfl := leaveCount_ok hleave
    obtain ⟨hb1, hrest⟩ := hrest cx henter
    obtain ⟨hb2, hvariable, hsame⟩ := hrest t1 h1
    obtain ⟨range, inside, -, -, hl, hcx⟩ := enterCount_ok henter
    have hgo' : cx.terminated = false := by rw [hcx]; exact hgo
    have hrange : cx.range? d = some inside := by
      rw [hcx]
      exact range?_putRange.trans (if_pos rfl)
    rintro σ trace o hcx hσ ⟨-, hrun⟩
    have hentered := holds_enterCount henter hcx
    refine carries_count (body.carries s h1 hb1 hgo') (body.carries s h2 hb2) (hsame t2 h2)
      (endsAt_of_loopRange hl) ?_ hout (Block.walk_again h1 h2 hgo') σ trace o hentered hσ hrun
    intro hnot
    obtain ⟨hcountable, hsame⟩ := not_not.1 fun hnc => hnot (hvariable hnc)
    exact ⟨hcountable, hsame.symm.trans hrange⟩
  | interruptsOff body h => exact body.carries s h hb hgo
  | @save _ _ batons cx _ body hset h1 _ =>
    obtain ⟨stale1, hafter, hb1⟩ := hb
    obtain ⟨ranges, terminated, -⟩ := setAside_ok hset
    have hbody := body.carries s h1 (hb1 batons cx hset) (terminated.trans hgo)
    rintro σ trace o hcx hσ hrun
    have hcx' : cx.Holds s stale σ := fun r hr hnot => (hcx r hr hnot).congr (ranges r) rfl
    rcases hrun with ⟨hrun, rfl⟩ | ⟨σ1, σ', hrun, hrestores, rfl⟩
    · exact ⟨(hbody σ trace none hcx' hσ hrun).1, nofun⟩
    · obtain ⟨haccess, hdone⟩ := hbody σ trace _ hcx' hσ hrun
      obtain ⟨hcx1, -, hgo1⟩ := hdone σ1 rfl
      refine ⟨haccess, ?_⟩
      rintro _ ⟨⟩
      refine ⟨holds_restore hset hcx hcx1 hrestores hafter, hrestores.1, ?_⟩
      exact terminated_restore.trans hgo1
  | @pointInto _ pointer table cx t1 body henter h1 _ =>
    obtain ⟨stale1, hafter, hb1⟩ := hb
    have hb1 := hb1 cx henter
    obtain ⟨-, -, -, rfl⟩ := enterPoint_ok henter
    intro σ trace o hcx hσ hrun
    have hcx' : ((t.cx.setAssoc pointer (some table)).forget pointer).Holds s stale σ :=
      holds_forget (d := pointer) hcx (fun r hr => by simp [hr]) (by simp) fun r hr _ => hr
    obtain ⟨haccess, hdone⟩ := body.carries s h1 hb1 hgo σ trace o hcx' hσ hrun
    refine ⟨haccess, fun σ' ho => ?_⟩
    obtain ⟨hcx1, hσ', hgo1⟩ := hdone σ' ho
    have hleft : (Focus.leavePoint t1.cx pointer).Holds s after σ' :=
      holds_forget hcx1 (fun r hr => by simp [Focus.leavePoint, hr]) (by simp [Focus.leavePoint]) hafter
    exact ⟨hleft, hσ', hgo1⟩

/-- An accepted block that does not rely on stale ranges runs safely. -/
theorem Block.carries (s : Setting) : ∀ (b : Block) {t t' : Trail} {stale after : Set Ref},
    b.walk s t = .ok t' → b.Backed s t stale after → t.cx.terminated = false →
    Carries s (b.Runs s) t.cx stale t'.cx after
  | .nil _, t, t', stale, after, h, hb, hgo => by
    cases h
    rintro σ _ o hcx hσ ⟨rfl, hrun⟩
    refine ⟨by simp, fun σ' ho => ?_⟩
    obtain rfl := hrun σ' ho
    exact ⟨fun r hr hnot => hcx r hr fun hmem => hnot (hb hmem), hσ, hgo⟩
  | .cons head tail, t, t', stale, after, h, hb, hgo => by
    obtain ⟨stale1, hb1, hrest⟩ := hb
    obtain ⟨t1, h1, h2⟩ := bind_eq_ok.1 h
    have hhead := head.carries s h1 hb1 hgo
    rintro σ trace o hcx hσ (⟨hrun, rfl⟩ | ⟨σ', first, rest, hrun, hrun', rfl⟩)
    · exact ⟨(hhead σ trace none hcx hσ hrun).1, nofun⟩
    · obtain ⟨haccess, hdone⟩ := hhead σ first _ hcx hσ hrun
      obtain ⟨hcx1, hσ', hgo1⟩ := hdone σ' rfl
      exact safe_append haccess (tail.carries s h2 (hrest t1 h1) hgo1 σ' rest o hcx1 hσ' hrun')

end

/-! ### Routines -/

/-- At the start of a routine no ranges are recorded but the widest ones of its inputs. -/
theorem start_ok {inputs outputs trashes : List Ref} (h : Context.start s inputs outputs trashes = .ok cx) :
    cx.terminated = false ∧ ∀ r, cx.range? r = none ∨ cx.Widest s r := by
  have hfold : ∀ (l : List Ref) (m m' : Assoc Ref Range),
      l.foldlM (fun (m : Assoc Ref Range) r => (s.maxRange r).map fun range => m.set r range) m = .ok m' →
      (∀ r range, m.get? r = some range → s.maxRange r = .ok range) →
      ∀ r range, m'.get? r = some range → s.maxRange r = .ok range := by
    intro l
    induction l with
    | nil =>
      intro m m' h hm
      cases h
      exact hm
    | cons q l ih =>
      intro m m' h hm
      rw [foldlM_cons, bind_eq_ok] at h
      obtain ⟨m1, h1, h2⟩ := h
      obtain ⟨range1, hmax, rfl⟩ := map_eq_ok.1 h1
      refine ih _ _ h2 fun r range hr => ?_
      rw [Assoc.get?_set] at hr
      split at hr
      · next heq =>
        cases hr
        exact heq ▸ hmax
      · exact hm r range hr
  simp only [Context.start, bind_eq_ok, pure_eq_ok] at h
  obtain ⟨⟨⟩, -, ranges, hranges, ⟨⟩, -, ⟨⟩, -, rfl⟩ := h
  refine ⟨rfl, fun r => ?_⟩
  cases hr : ranges.get? r with
  | none => exact .inl hr
  | some range => exact .inr ⟨range, hfold _ _ _ hranges (by simp [Assoc.get?]) r range hr, hr⟩

/-- What the start of a routine does with one of its local locations. -/
def Routine.startStatic (s : Setting) (cx : Context) (e : String × Entry) : Except Fault Context :=
  match e.2.decl with
  | .defn d =>
    match d.initial with
    | none => pure cx
    | some initial => do
      let r := Ref.location e.1
      let cx ← cx.makeMeaningful s r
      cx.setRange s r ⟨.ofInitial initial, .ofInitial initial⟩
  | _ => pure cx

theorem Routine.startStatics_eq :
    Routine.startStatics s cx = (s.symbols.localsOf s.routine).entries.foldlM (Routine.startStatic s) cx :=
  rfl

theorem startStatic_ok {e : String × Entry} (h : Routine.startStatic s cx e = .ok cx') :
    cx'.terminated = cx.terminated
      ∧ ∀ r, (r = .location e.1 → ∀ d, e.2.decl = .defn d → d.initial = none) →
        cx'.range? r = cx.range? r := by
  unfold Routine.startStatic at h
  split at h
  · next d hd =>
    cases hinit : d.initial with
    | none =>
      rw [hinit] at h
      cases h
      exact ⟨rfl, fun _ _ => rfl⟩
    | some initial =>
      simp only [hinit, bind_eq_ok] at h
      obtain ⟨cx1, hm, hset⟩ := h
      obtain ⟨same, -, ranges⟩ := makeMeaningful_ok hm
      rw [setRange_ok hset]
      refine ⟨same.terminated, fun r hr => ?_⟩
      have hne : r ≠ .location e.1 := by
        intro heq
        have := hr heq d hd
        rw [hinit] at this
        cases this
      rw [range?_putRange, if_neg (Ne.symm hne)]
      exact (ranges r).resolve_right fun h => hne h.1
  · cases h
    exact ⟨rfl, fun _ _ => rfl⟩

/-- Only the ranges of static locations are set at the start of a routine. -/
theorem startStatics_ok (h : Routine.startStatics s cx = .ok cx') :
    cx'.terminated = cx.terminated ∧ ∀ r, r ∉ s.statics → cx'.range? r = cx.range? r := by
  rw [Routine.startStatics_eq] at h
  have hfold : ∀ (l : List (String × Entry)) (cx : Context), l.foldlM (Routine.startStatic s) cx = .ok cx' →
      cx'.terminated = cx.terminated ∧ ∀ r, (∀ e ∈ l, r = .location e.1 →
        ∀ d, e.2.decl = .defn d → d.initial = none) → cx'.range? r = cx.range? r := by
    intro l
    induction l with
    | nil =>
      intro cx h
      cases h
      exact ⟨rfl, fun _ _ => rfl⟩
    | cons e l ih =>
      intro cx h
      rw [foldlM_cons, bind_eq_ok] at h
      obtain ⟨cx1, h1, h2⟩ := h
      obtain ⟨hgo1, hranges1⟩ := startStatic_ok h1
      obtain ⟨hgo2, hranges2⟩ := ih cx1 h2
      refine ⟨hgo2.trans hgo1, fun r hr => ?_⟩
      rw [forall_mem_cons] at hr
      exact (hranges2 r hr.2).trans (hranges1 r hr.1)
  obtain ⟨hgo, hranges⟩ := hfold _ cx h
  refine ⟨hgo, fun r hr => hranges r fun e he heq d hd => ?_⟩
  by_contra hinit
  exact hr ⟨e, he, heq, d, hd, Option.isSome_iff_ne_none.2 hinit⟩

/-- An accepted routine that does not rely on stale ranges runs safely from each store. -/
theorem Routine.walk_safe {sig : Signature} {body : Block} (h : Routine.walk s sig body = .ok t)
    (hbacked : ∀ cx0 cx, Context.ofSignature s sig = .ok cx0 → Routine.startStatics s cx0 = .ok cx →
      ∃ after, body.Backed s { cx } s.statics after) (hσ : σ.Typed s) (hrun : body.Runs s σ trace o) :
    ∀ access ∈ trace, access.InBounds s := by
  simp only [Routine.walk, bind_eq_ok] at h
  obtain ⟨cx0, hstart, cx, hstatics, hwalk⟩ := h
  obtain ⟨after, hbody⟩ := hbacked cx0 cx hstart hstatics
  obtain ⟨hgo0, hranges0⟩ := start_ok hstart
  obtain ⟨hgo, hranges⟩ := startStatics_ok hstatics
  have hcx : cx.Holds s s.statics σ := by
    intro r hr hnot
    rcases hranges0 r with hnone | hwidest
    · exact right_of_none ((hranges r hnot).trans hnone)
    · exact (right_of_widest hσ hr hwidest).congr (hranges r hnot) rfl
  exact (body.carries s hwalk hbody (hgo.trans hgo0) σ trace o hcx hσ hrun).1

/-- In every execution of every routine of an accepted program whose body does not rely on a stale range,
each access to a cell lies inside the bounds of its table. -/
theorem Program.accesses_in_bounds (symbols : Symbols) (p : Program) (all : List Analysed)
    (haccepted : (p.analyse symbols).2 = .ok all) (r : Routine) (hr : r ∈ p.routines) (body : Block)
    (hbody : r.body = some body) (hbacked : r.Backed symbols) (σ : Store)
    (hσ : σ.Typed (r.setting symbols)) (trace : List Access) (o : Option Store)
    (hrun : body.Runs (r.setting symbols) σ trace o) :
    ∀ access ∈ trace, access.InBounds (r.setting symbols) := by
  obtain ⟨facts, hfacts⟩ := Program.analyse_ok haccepted hr
  obtain ⟨sig, t, hsig, hwalk, -⟩ := Routine.analyse_ok hfacts hbody
  exact Routine.walk_safe hwalk (fun cx₀ cx => hbacked body sig cx₀ cx hbody hsig) hσ hrun

/-! ### A table of four bytes -/

/-- The widest range is right whatever the location has come to hold. -/
theorem takes_of_widest (hr : r.IsPlace) (h : cx.Widest s r) : cx.Takes s r (s.Fits r) := by
  obtain ⟨range, hmax, hcx⟩ := h
  refine ⟨fun n hn range' hrange' => ?_, within_of_maxRange hr hmax hcx⟩
  rw [hcx] at hrange'
  cases hrange'
  rw [s.maxRange_place hr, map_eq_ok] at hmax
  obtain ⟨t, ht, rfl⟩ := hmax
  exact Range.admits_ofInts.2 (hn t ht)

/-- Nothing is stale after changes that all leave a right range, if nothing was before. -/
theorem staleAfter_subset {changes : List (Ref × Prop)} (h : ∀ e ∈ changes, e.2) (hstale : stale ⊆ after) :
    staleAfter changes stale ⊆ after := by
  rintro r (⟨right, hmem, hwrong⟩ | ⟨hr, -⟩)
  · exact absurd (h _ hmem) hwrong
  · exact hstale hr

/-- A routine that reads a table of four bytes, and spoils what it needs to do so. -/
def tableSymbols : Symbols :=
  let sig : Signature := ⟨.ofNames ["c", "tab"], [], .ofNames ["a", "n", "x", "z"]⟩
  { Symbols.initial with
    globals := ⟨Symbols.builtins ++ [("tab", ⟨.builtin, .table .byte 4⟩), ("main", ⟨.builtin, .routine sig⟩)]⟩ }

/-- The routine with the given body. -/
def tableRoutine (body : Block) : Routine := ⟨0, "main", none, [], some body, true⟩

/-- What names mean in the routine. -/
def tableSetting : Setting := ⟨tableSymbols, "main", 0⟩

/-- Loads the accumulator from the table. -/
def readTab : Instr := .op 0 (.ld .a (.indexed (.location "tab") (.constant ⟨.byte, 0⟩) .x))

/-- Reads the whole table: for each index from 0 up to 3, loads the accumulator. -/
def scan : Block :=
  .cons (.op 0 (.ld .x (.constant ⟨.byte, 0⟩)))
    (.cons (.count 0 .x .up ⟨.byte, 3⟩ (.cons readTab (.nil 0))) (.nil 0))

/-- Where the walk has come to, for a walk that was accepted. -/
def reached (walk : Except Fault Trail) : Trail := (walk.toOption).getD { cx := {} }

theorem reached_eq {walk : Except Fault Trail} (h : walk = .ok t) : t = reached walk := by
  rw [h]; rfl


theorem statics_table : tableSetting.statics = ∅ := by
  ext r
  simp [Setting.statics, tableSetting, tableSymbols, Symbols.localsOf, Symbols.initial, Assoc.get?]


/-- Where no range is stale, an access cannot rely on one. -/
theorem backs_empty {cell : Ref × Ref × Ref} : cx.Backs s ∅ cell := by
  rintro (h | h)
  · exact absurd h (Set.notMem_empty _)
  · exact absurd h (Set.notMem_empty _)

/-- A load of the accumulator from the table, into its widest range. -/
theorem readTab_backed (hstale : stale ⊆ after)
    (hbacks : t.cx.Backs tableSetting stale (.location "tab", .constant ⟨.byte, 0⟩, .x))
    (hwide : ∀ r ∈ [Ref.a, .z, .n], (reached (readTab.walk tableSetting t)).cx.Widest tableSetting r) :
    readTab.Backed tableSetting t stale after := by
  refine ⟨by simpa [Op.cells, Op.settled, Op.mapRefs, Op.src?, Op.dest?, Ref.settled, Ref.cell?, Ref.a]
    using hbacks, fun t' h => staleAfter_subset ?_ hstale⟩
  obtain rfl := reached_eq h
  simp only [forall_mem_cons] at hwide
  obtain ⟨ha, hz, hn, -⟩ := hwide
  simp only [Op.changes, Op.settled, Op.mapRefs, Op.anyIn, forall_mem_cons]
  exact ⟨takes_of_widest trivial ha, takes_of_widest trivial hz, takes_of_widest trivial hn, by simp⟩

theorem countable_table : Countable tableSetting .x 3 := by
  refine ⟨fun t ht => ?_, rfl⟩
  cases ht
  exact ⟨by decide, by decide⟩

theorem staleCounting_table : staleCounting tableSetting .x 3 ∅ = ∅ := by
  ext r
  simp [staleCounting, countable_table]

theorem scan_backed : (tableRoutine scan).Backed tableSymbols := by
  intro body sig cx0 cx hbody hsig hstart hstatics
  cases hbody
  cases hsig
  cases hstart
  cases hstatics
  change ∃ after, Block.Backed tableSetting _ _ tableSetting.statics after
  rw [statics_table]
  refine ⟨∅, ∅, ⟨by simp [Op.cells, Op.settled, Op.mapRefs, Op.src?, Op.dest?, Ref.settled, Ref.cell?, Ref.x], ?_⟩, ?_⟩
  · intro t h
    obtain rfl := reached_eq h
    refine staleAfter_subset ?_ (le_refl _)
    simp only [Op.changes, Op.settled, Op.mapRefs, Op.anyIn, forall_mem_cons, Ref.settled]
    refine ⟨⟨?_, ?_⟩, takes_of_widest trivial ⟨_, rfl, rfl⟩, takes_of_widest trivial ⟨_, rfl, rfl⟩, by simp⟩
    · rintro _ rfl range hrange
      cases hrange
      exact Range.admits_ofInts.2 (by decide)
    · exact within_of_byte rfl
  · intro t h
    obtain rfl := reached_eq h
    refine ⟨∅, ⟨∅, by simp, ?_⟩, ?_⟩
    · intro cx henter
      cases henter
      rw [staleCounting_table]
      refine ⟨⟨∅, readTab_backed (le_refl _) backs_empty ?_, fun t h => le_refl _⟩, fun t h => ?_⟩
      · simp only [forall_mem_cons]
        exact ⟨⟨_, rfl, rfl⟩, ⟨_, rfl, rfl⟩, ⟨_, rfl, rfl⟩, by simp⟩
      · obtain rfl := reached_eq h
        refine ⟨⟨∅, readTab_backed (le_refl _) backs_empty ?_, fun t h => le_refl _⟩, ?_, fun t h => ?_⟩
        · simp only [forall_mem_cons]
          exact ⟨⟨_, rfl, rfl⟩, ⟨_, rfl, rfl⟩, ⟨_, rfl, rfl⟩, by simp⟩
        · exact fun hne => hne ⟨countable_table, rfl⟩
        · obtain rfl := reached_eq h
          intro r hr
          exact absurd rfl hr
    · intro t h
      exact le_refl _
/-- The store in which every location is zero. -/
def zeros : Store := fun _ => 0

/-- The type of a name is that of an entry under the name. -/
theorem Setting.mem_of_typeOfName {name : String} {t : Ty} (h : s.typeOfName name = .ok t) :
    ∃ e ∈ (s.symbols.localsOf s.routine).entries ++ s.symbols.globals.entries, e.2.ty = t := by
  have hget : ∀ (m : Assoc String Entry) (t : Ty), (m.get? name).map (·.ty) = some t →
      ∃ e ∈ m.entries, e.2.ty = t := by
    intro m t h
    simp only [Assoc.get?, Option.map_map, Option.map_eq_some_iff] at h
    obtain ⟨e, he, rfl⟩ := h
    exact ⟨e, mem_of_find?_eq_some he, rfl⟩
  unfold Setting.typeOfName at h
  split at h
  · next t' ht' =>
    cases h
    obtain ⟨e, he, het⟩ := hget _ _ ht'
    exact ⟨e, mem_append_left _ he, het⟩
  · unfold Setting.globalType at h
    split at h
    · next t' ht' =>
      cases h
      obtain ⟨e, he, het⟩ := hget _ _ ht'
      exact ⟨e, mem_append_right _ he, het⟩
    · cases h

theorem zeros_typed : zeros.Typed tableSetting := by
  intro r t ht
  obtain ⟨e, he, rfl⟩ := Setting.mem_of_typeOfName ht
  have hall : ∀ e ∈ (tableSymbols.localsOf "main").entries ++ tableSymbols.globals.entries,
      e.2.ty.Fits 0 := by decide
  exact hall e he

/-- A round of the loop that leaves all values as they are. -/
theorem readTab_runs (hσ : σ.Typed tableSetting) :
    (Block.cons readTab (.nil 0)).Runs tableSetting σ
      [⟨.location "tab", .constant ⟨.byte, 0⟩, .x, σ .x⟩] (some σ) := by
  refine .inr ⟨σ, _, [], ⟨rfl, ?_⟩, ⟨rfl, by simp⟩, rfl⟩
  rintro _ ⟨⟩
  exact ⟨trivial, ⟨fun _ _ => rfl, hσ⟩, hσ .a _ rfl⟩

/-- The accesses of a scan up to its last round. -/
def scanTrace : List Access :=
  [0, 1, 2, 3].map fun n => ⟨.location "tab", .constant ⟨.byte, 0⟩, .x, n⟩

theorem scan_runs : scan.Runs tableSetting zeros scanTrace none := by
  refine .inr ⟨zeros, [], scanTrace, ⟨rfl, ?_⟩, .inl ⟨⟨trivial, ?_⟩, rfl⟩, rfl⟩
  · rintro _ ⟨⟩
    exact ⟨trivial, ⟨fun _ _ => rfl, zeros_typed⟩, rfl⟩
  · have h1 := zeros_typed.put .x 1
    have h2 := h1.put .x 2
    have h3 := h2.put .x 3
    refine .more (readTab_runs zeros_typed) (by decide) ?_
    refine .more (readTab_runs h1) (by decide) ?_
    refine .more (readTab_runs h2) (by decide) ?_
    exact .cut (.inl ⟨⟨rfl, nofun⟩, rfl⟩)

/-- The scan is accepted, and reaches each of the four cells. -/
theorem scan_accesses_in_bounds :
    ((Program.mk [] [tableRoutine scan]).analyse tableSymbols).2.isOk = true
      ∧ scan.Runs tableSetting zeros scanTrace none
      ∧ ∀ access ∈ scanTrace, access.InBounds tableSetting :=
  ⟨rfl, scan_runs, Program.accesses_in_bounds tableSymbols ⟨[], [tableRoutine scan]⟩ _ rfl
    (tableRoutine scan) (by simp) scan rfl scan_backed zeros zeros_typed scanTrace none scan_runs⟩

/-- Loads the index with 0, or else with 200, and then reads the table. -/
def overrun : Block :=
  .cons (.op 0 (.ld .x (.constant ⟨.byte, 0⟩)))
    (.cons (.ifThen 0 .c false (.cons (.op 0 (.ld .x (.constant ⟨.byte, 200⟩))) (.nil 0)))
      (.cons readTab (.nil 0)))

theorem loadX_runs (hσ : σ.Typed tableSetting) (n : Int) :
    (Instr.op 0 (.ld .x (.constant ⟨.byte, n⟩))).Runs tableSetting σ []
      (some (σ.put .x (tableSetting.wrap .x n))) := by
  refine ⟨rfl, ?_⟩
  rintro _ ⟨⟩
  refine ⟨trivial, ⟨fun r hr => ?_, hσ.put .x n⟩, rfl⟩
  have hne : r ≠ .x := fun h => hr (by simp [h, Ref.settled, Ref.x])
  simp [Store.put, hne]

/-- After a choice the index counts as 0 again, whichever branch was taken: the program is accepted,
although it may read the cell 200 of a table of four. -/
theorem overrun_out_of_bounds :
    ((Program.mk [] [tableRoutine overrun]).analyse tableSymbols).2.isOk = true
      ∧ ∃ σ trace, σ.Typed tableSetting ∧ overrun.Runs tableSetting σ trace none
        ∧ ∃ access ∈ trace, ¬ access.InBounds tableSetting := by
  refine ⟨rfl, zeros, [⟨.location "tab", .constant ⟨.byte, 0⟩, .x, 200⟩], zeros_typed, ?_, _,
    mem_singleton.2 rfl, ?_⟩
  · have h₁ := zeros_typed.put .x 0
    refine .inr ⟨_, [], _, loadX_runs zeros_typed 0, ?_, rfl⟩
    refine .inr ⟨(zeros.put .x 0).put .x 200, [], _, .inl ?_, .inl ⟨⟨rfl, nofun⟩, rfl⟩, rfl⟩
    exact .inr ⟨_, [], [], loadX_runs h₁ 200, ⟨rfl, by rintro _ ⟨⟩; rfl⟩, rfl⟩
  · rintro ⟨cell, size, c, hty, hoffset, -, hhigh⟩
    cases hty
    cases hoffset
    revert hhigh
    decide

end CheckedAsm
