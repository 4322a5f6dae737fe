import CheckedAsm.Analysis.Report
import CheckedAsm.Proofs.Codegen.History
/-! # Control stays within a routine

Control goes from an instruction to the next one, either way at a branch, and to the label of a jump within the
routine. A routine that ends with a jump is not given a return. That is enough unless a label stands after the jump,
or the jump is not the routine's own because the routine has no code: then control runs on into whatever follows.
Otherwise control never comes past the last instruction. -/

namespace CheckedAsm

open Codegen List

variable {ls : Labels} {ks xs ys : List Code} {k : Code} {e : Emitter} {o : Operand} {is : List Item} {id : LabelId}
  {st st' : CodeState}

/-! ### Control -/

/-- Control may go from one place to another. -/
inductive Text.Goes (T : Text) (ls : Labels) (pc : Int) : Int → Prop
  | on {k : Code} : T.fetch pc = some k.item → k.mnemonic ≠ .jmp → k.mnemonic ≠ .rts → T.Goes ls pc (pc + k.size)
  | branch {m : Mnemonic} {id : LabelId} : T.fetch pc = some (.code m (.relative id)) → m.isBranch = true →
      T.Goes ls pc (ls.place id)
  | jump {id : LabelId} : T.fetch pc = some (.code .jmp (.wide id)) → T.inner id = true → T.Goes ls pc (ls.place id)

/-- The places that control may come to from the first instruction. -/
inductive Text.Visits (T : Text) (ls : Labels) : Int → Prop
  | start : T.Visits ls T.start
  | step {pc pc' : Int} : T.Visits ls pc → T.Goes ls pc pc' → T.Visits ls pc'

/-- What makes sure that control stays: the code ends with a jump or a return, and branches and inner jumps go to
its instructions. -/
structure Text.Sealed (T : Text) (ls : Labels) (ks : List Code) : Prop where
  items : T.items = ks.map Code.item
  last : ∃ k, ks.getLast? = some k ∧ (k.mnemonic = .jmp ∨ k.mnemonic = .rts)
  branches : ∀ m id, ⟨m, .relative id⟩ ∈ ks → m.isBranch = true → T.inner id = true
  landed : ∀ id, T.inner id = true → ∃ xs k ys, ks = xs ++ k :: ys ∧ ls.place id = T.start + Code.room xs

section

variable {T : Text} {pc : Int}

theorem Text.fetch_of_items (hi : T.items = (xs ++ k :: ys).map Code.item) :
    T.fetch (T.start + Code.room xs) = some k.item := by
  rw [fetch, hi, map_append, map_cons]
  exact fetchFrom_append _ _ _ _

theorem Code.item_inj {d : Code} (h : k.item = d.item) : k = d := by
  obtain ⟨m, o⟩ := k
  obtain ⟨m', o'⟩ := d
  cases h
  rfl

/-- Control comes only to instructions. -/
theorem Text.Sealed.visits (h : T.Sealed ls ks) (hv : T.Visits ls pc) :
    ∃ xs k ys, ks = xs ++ k :: ys ∧ pc = T.start + Code.room xs := by
  induction hv with
  | start =>
    obtain ⟨k, hk, -⟩ := h.last
    obtain ⟨k, ys, rfl⟩ := exists_cons_of_ne_nil fun hn : ks = [] => by simp [hn] at hk
    exact ⟨[], k, ys, rfl, (Int.add_zero _).symm⟩
  | step _ hgoes ih =>
    obtain ⟨xs, k, ys, rfl, rfl⟩ := ih
    have hfetch := Text.fetch_of_items h.items
    cases hgoes with
    | @on d hd hjmp hrts =>
      obtain rfl := Code.item_inj (Option.some.inj (hfetch.symm.trans hd))
      -- an instruction after which control goes on is not the last
      cases ys with
      | nil =>
        obtain ⟨last, hlast, hm⟩ := h.last
        rw [getLast?_concat] at hlast
        cases hlast
        exact (hm.elim hjmp hrts).elim
      | cons y ys =>
        refine ⟨xs ++ [k], y, ys, by simp, ?_⟩
        rw [Code.room_append, Code.room_cons, Code.room_nil, Int.add_zero, Int.add_assoc]
    | @branch m id hd hm =>
      obtain rfl := Code.item_inj (d := ⟨m, .relative id⟩) (Option.some.inj (hfetch.symm.trans hd))
      exact h.landed id (h.branches m id (by simp) hm)
    | jump hd hid => exact h.landed _ hid

/-- Wherever control comes, it has an end there or goes on. -/
theorem Text.Sealed.goes_on (h : T.Sealed ls ks) (hv : T.Visits ls pc) :
    ∃ k ∈ ks, T.fetch pc = some k.item ∧ (k.mnemonic = .rts
      ∨ (k.mnemonic = .jmp ∧ ∀ id, k.operand = .wide id → T.inner id = false) ∨ ∃ pc', T.Goes ls pc pc') := by
  obtain ⟨xs, k, ys, rfl, rfl⟩ := h.visits hv
  have hfetch := Text.fetch_of_items h.items
  refine ⟨k, by simp, hfetch, ?_⟩
  by_cases hrts : k.mnemonic = .rts
  · exact .inl hrts
  · by_cases hjmp : k.mnemonic = .jmp
    · by_cases hinner : ∃ id, k.operand = .wide id ∧ T.inner id = true
      · obtain ⟨id, ho, hid⟩ := hinner
        obtain ⟨m, o⟩ := k
        cases hjmp
        cases ho
        exact .inr (.inr ⟨_, .jump hfetch hid⟩)
      · refine .inr (.inl ⟨hjmp, fun id ho => ?_⟩)
        rw [← Bool.not_eq_true]
        exact fun hid => hinner ⟨id, ho, hid⟩
    · exact .inr (.inr ⟨_, .on hfetch hjmp hrts⟩)

end

/-! ### The end of a routine -/

theorem Mnemonic.isTransfer_cases {m : Mnemonic} (h : m.isTransfer = true) : m = .jmp ∨ m = .jsr := by
  cases m <;> simp [isTransfer] at h ⊢

namespace Codegen

variable {ks' : List Code} {e' : Emitter} {pre : List Item} {next : Option String}

/-- What the code of a body becomes at the end of a routine: there is a return, or a jump in place of the jump or call that came
last, or that is left out. A body without code may be taken for ended by what comes before it. -/
inductive EndsAs (next : Option String) (pre : List Item) (ks : List Code) : List Code → Prop
  | returning : (∀ k, ks.getLast? = some k → k.mnemonic.isTransfer = false) → EndsAs next pre ks (ks ++ [⟨.rts, .implied⟩])
  | nothing {m : Mnemonic} {o : Operand} : ks = [] → pre.getLast? = some (.code m o) → m.isTransfer = true → EndsAs next pre ks []
  | jumping {xs : List Code} {k : Code} : ks = xs ++ [k] → k.mnemonic.isTransfer = true → EndsAs next pre ks (xs ++ [⟨.jmp, k.operand⟩])
  | falling {xs : List Code} {k : Code} : ks = xs ++ [k] → k.mnemonic.isTransfer = true → next ≠ none → EndsAs next pre ks xs

theorem tail?_of_items (h : e.items.toList = is) : e.tail? = is.getLast? := by
  rw [Emitter.tail?, ← h, Array.getLast?_toList]

/-- Before it is ended, a routine has a jump in place of the call that came last. -/
theorem tailCall_last (hitems : e.items.toList = pre ++ (xs ++ [k]).map Code.item)
    (hk : k.mnemonic = .jsr → ∃ id, k.operand = .wide id) (h : tailCall e = .ok e') :
    ∃ d : Code, e'.items.toList = pre ++ (xs ++ [d]).map Code.item
      ∧ (d = k ∧ k.mnemonic ≠ .jsr ∨ d = ⟨.jmp, k.operand⟩ ∧ k.mnemonic = .jsr) := by
  have hconcat : ∀ d : Code, pre ++ (xs ++ [d]).map Code.item = pre ++ xs.map Code.item ++ [d.item] := by simp
  rcases Emitter.tailCall_ok h with ⟨rfl, hnot⟩ | ⟨is, id, hbefore, hafter, -⟩
  · refine ⟨k, hitems, .inl ⟨rfl, fun hj => ?_⟩⟩
    obtain ⟨id, ho⟩ := hk hj
    refine hnot id ?_
    rw [tail?_of_items hitems, hconcat, getLast?_concat, Code.item, hj, ho]
  · rw [hitems, hconcat] at hbefore
    obtain ⟨rfl, hk⟩ := append_inj' hbefore rfl
    obtain rfl := Code.item_inj (d := ⟨.jsr, .wide id⟩) (singleton_inj.1 hk)
    exact ⟨_, by rw [hafter, hconcat]; rfl, .inr ⟨rfl, rfl⟩⟩

/-- What ends a routine changes the code of its body in one of these ways, whatever follows. -/
theorem finish_endsAs (hitems : e.items.toList = pre ++ ks.map Code.item)
    (hcalls : ∀ k ∈ ks, k.mnemonic = .jsr → ∃ id, k.operand = .wide id) (h : finish next e = .ok e') :
    ∃ ks', e'.items.toList.drop pre.length = ks'.map Code.item ∧ EndsAs next pre ks ks' := by
  rw [finish_eq, bind_eq_ok] at h
  obtain ⟨e1, hcall, hclose⟩ := h
  obtain rfl | ⟨xs, k, rfl⟩ := eq_nil_or_concat ks
  · -- the body has no code, so what is changed comes before it
    rw [map_nil, append_nil] at hitems
    obtain ⟨hlength, hlast⟩ : e1.items.toList.length = pre.length
        ∧ ∀ o, e1.tail? = some (.code .jmp o) → EndsAs next pre [] [] := by
      rcases Emitter.tailCall_ok hcall with ⟨rfl, -⟩ | ⟨is, id, hbefore, hafter, -⟩
      · exact ⟨by rw [hitems], fun o ho => .nothing rfl (tail?_of_items hitems ▸ ho) rfl⟩
      · rw [hitems] at hbefore
        exact ⟨by simp [hafter, hbefore], fun _ _ => .nothing rfl (hbefore ▸ getLast?_concat) rfl⟩
    rcases close_cases hclose with ⟨-, rfl⟩ | ⟨o, ho, rfl⟩ | ⟨id, ho, -, hretract⟩
    · refine ⟨_, ?_, .returning (by simp)⟩
      rw [Emitter.codes_items, ← hlength, drop_left]
      rfl
    · exact ⟨[], drop_eq_nil_of_le (Nat.le_of_eq hlength), hlast o ho⟩
    · refine ⟨[], ?_, hlast _ ho⟩
      obtain ⟨is, i, hbefore, hafter, -⟩ := Emitter.retract_ok hretract
      rw [hbefore, length_append] at hlength
      rw [hafter]
      exact drop_eq_nil_of_le (by omega)
  · rw [concat_eq_append] at hitems hcalls ⊢
    obtain ⟨d, hitems1, hd⟩ := tailCall_last hitems (hcalls k (by simp)) hcall
    have htail : e1.tail? = some d.item := by
      rw [tail?_of_items hitems1, map_append, ← append_assoc]
      exact getLast?_concat
    have hjump : ∀ o, e1.tail? = some (.code .jmp o) → d = ⟨.jmp, k.operand⟩ ∧ k.mnemonic.isTransfer = true := by
      intro o ho
      obtain rfl := Code.item_inj (d := ⟨.jmp, o⟩) (Option.some.inj (htail.symm.trans ho))
      rcases hd with ⟨rfl, -⟩ | ⟨hd, hj⟩
      · exact ⟨rfl, rfl⟩
      · exact ⟨hd, hj ▸ rfl⟩
    rcases close_cases hclose with ⟨hnot, rfl⟩ | ⟨o, ho, rfl⟩ | ⟨id, ho, hnext, hretract⟩
    · obtain ⟨rfl, hj⟩ | ⟨rfl, -⟩ := hd
      · refine ⟨_, ?_, .returning fun k' hk' => ?_⟩
        · rw [Emitter.codes_items, hitems1, append_assoc, drop_left, ← map_append]
        · rw [getLast?_concat] at hk'
          cases hk'
          refine Bool.eq_false_iff.2 fun ht => ?_
          obtain hm | hm := Mnemonic.isTransfer_cases ht
          · exact hnot _ (htail.trans (by rw [Code.item, hm]))
          · exact hj hm
      · exact (hnot _ htail).elim
    · obtain ⟨rfl, ht⟩ := hjump o ho
      exact ⟨_, by rw [hitems1, drop_left], .jumping rfl ht⟩
    · obtain ⟨is, i, hbefore, hafter, -⟩ := Emitter.retract_ok hretract
      rw [hitems1, map_append, ← append_assoc] at hbefore
      obtain ⟨rfl, -⟩ := append_inj' hbefore rfl
      exact ⟨xs, by rw [hafter, drop_left], .falling rfl (hjump _ ho).2 (by simp [hnext])⟩

namespace EndsAs

theorem mem (h : EndsAs next pre ks ks') (hk : k ∈ ks') :
    k ∈ ks ∨ k = ⟨.rts, .implied⟩ ∨ ∃ o, k = ⟨.jmp, o⟩ ∧ ⟨.jsr, o⟩ ∈ ks := by
  cases h with
  | returning => exact (mem_append.1 hk).imp id fun hk => .inl (mem_singleton.1 hk)
  | nothing => cases hk
  | @jumping xs d hks hd =>
    subst hks
    obtain hk | hk := mem_append.1 hk
    · exact .inl (mem_append_left _ hk)
    · obtain rfl := mem_singleton.1 hk
      obtain ⟨m, o⟩ := d
      obtain rfl | rfl := Mnemonic.isTransfer_cases hd
      · exact .inl (by simp)
      · exact .inr (.inr ⟨o, rfl, by simp⟩)
  | falling hks => exact .inl (hks ▸ mem_append_left _ hk)

variable (h : EndsAs none pre ks ks')

include h

/-- A routine by itself ends with a jump or a return, unless it has no code of its own. -/
theorem last (hown : ks = [] → ∀ m o, pre.getLast? = some (.code m o) → m.isTransfer = false) :
    ∃ k, ks'.getLast? = some k ∧ (k.mnemonic = .jmp ∨ k.mnemonic = .rts) := by
  cases h with
  | returning => exact ⟨_, getLast?_concat, .inr rfl⟩
  | nothing hks hm ht => cases (hown hks _ _ hm).symm.trans ht
  | jumping => exact ⟨_, getLast?_concat, .inl rfl⟩
  | falling _ _ hnext => exact (hnext rfl).elim

/-- A jump or a call that comes last is a jump in a routine by itself. -/
theorem of_transfer (hlast : ks.getLast? = some k) (hk : k.mnemonic.isTransfer = true) :
    ∃ xs, ks = xs ++ [k] ∧ ks' = xs ++ [⟨.jmp, k.operand⟩] := by
  cases h with
  | returning hnot => cases (hnot k hlast).symm.trans hk
  | nothing hks => cases hks ▸ hlast
  | @jumping xs d hks =>
    rw [hks, getLast?_concat] at hlast
    cases hlast
    exact ⟨xs, hks, rfl⟩
  | falling _ _ hnext => exact (hnext rfl).elim

/-- A place within the code of a body is before an instruction of the routine, unless it is after a jump or a call that comes
last. -/
theorem split (hks : ks = xs ++ ys) (hown : ks = [] → ∀ m o, pre.getLast? = some (.code m o) → m.isTransfer = false)
    (hend : ys ≠ [] ∨ ∀ k, ks.getLast? = some k → k.mnemonic.isTransfer = false) : ∃ k zs, ks' = xs ++ k :: zs := by
  have hcons : ∀ (zs : List Code) (k : Code), ∃ d zs', xs ++ zs ++ [k] = xs ++ d :: zs' := by
    intro zs k
    cases zs with
    | nil => exact ⟨k, [], by simp⟩
    | cons d zs => exact ⟨d, zs ++ [k], by simp⟩
  cases h with
  | returning =>
    rw [hks]
    exact hcons ys _
  | nothing hnil hm ht => cases (hown hnil _ _ hm).symm.trans ht
  | @jumping zs k hzs hk =>
    obtain rfl | ⟨ys, y, rfl⟩ := eq_nil_or_concat ys
    · cases (hend.resolve_left (fun hn => hn rfl) k (hzs ▸ getLast?_concat)).symm.trans hk
    · rw [hzs, concat_eq_append, ← append_assoc] at hks
      rw [(append_inj' hks rfl).1]
      exact hcons ys _
  | falling _ _ hnext => exact (hnext rfl).elim

end EndsAs

end Codegen

/-- After the given code, the code of the block leaves no way on to whatever follows: it ends with no label after a jump
or a call, and where there is no code, what comes before does not end with a jump or a call. -/
structure Block.ClosesAfter (b : Block) (st : CodeState) : Prop where
  label : b.tail ≠ .label
  nothing : b.tail = .nothing → ∀ m o, st.emitter.tail? = some (.code m o) → m.isTransfer = false

/-- Where a jump away from a routine leads: where a jump or a call to some name leads. -/
def CodeSetting.Leaves (cs : CodeSetting) (trampolines : Assoc String LabelId) (o : Operand) : Prop :=
  ∃ target, cs.exit target = .ok o ∨ cs.entry trampolines target = some o

section

variable {cs : CodeSetting} {st1 : CodeState} {body : Block} {t : Tail}

theorem Tail.Fits.eq_nothing (h : t.Fits st st' []) : t = .nothing := by
  cases t with
  | nothing => rfl
  | onward =>
    obtain ⟨k, hk, -⟩ := h
    cases hk
  | jump =>
    obtain ⟨⟨k, hk, -⟩, -⟩ := h
    cases hk
  | label =>
    obtain ⟨⟨k, hk, -⟩, -⟩ := h
    cases hk

/-- A label stands before an instruction, or after one that is no jump or call. -/
theorem Tail.Fits.before_end {a : Int} (h : t.Fits st st' (xs ++ ys))
    (hs : CodeState.Spans cs ∅ st st' (xs ++ ys)) (ht : t ≠ .label) (hid : st.emitter.labels.size ≤ id)
    (ha : (st'.emitter.labels.entry id).addr = some a) (hxs : a = st.emitter.addr + Code.room xs) :
    ys ≠ [] ∨ ∀ k, (xs ++ ys).getLast? = some k → k.mnemonic.isTransfer = false := by
  cases t with
  | nothing =>
    rw [h.2 id hid] at ha
    cases ha
  | onward =>
    obtain ⟨k, hk, hm⟩ := h
    refine .inr fun d hd => ?_
    cases hk.symm.trans hd
    exact hm
  | jump =>
    refine .inl ?_
    rintro rfl
    have hlt := h.2 id a hid ha
    rw [hs.adds.addr_eq hs.items, append_nil] at hlt
    omega
  | label => exact (ht rfl).elim

/-- The code of a routine is that of its body but for the end. -/
theorem routine_endsAs {next : Option String} (hs : CodeState.Spans cs ∅ (st.resolve id) st1 ks)
    (hf : finish next st1.emitter = .ok e) :
    ∃ ks', (Text.between st.emitter e).items = ks'.map Code.item ∧ EndsAs next st.emitter.items.toList ks ks' := by
  refine finish_endsAs hs.items (fun k hk hj => ?_) hf
  obtain ⟨target, id, ho, -⟩ := (hs.leads k hk).call hj
  exact ⟨id, ho⟩

theorem routine_sealed (hc : body.compile cs (st.resolve id) = .ok st1) (hf : finish none st1.emitter = .ok e)
    (hclose : body.ClosesAfter st)
    (hls : ∀ id a, st.emitter.labels.size ≤ id → (e.labels.entry id).addr = some a → (ls.entry id).addr = some a) :
    ∃ ks, (Text.between st.emitter e).Sealed ls ks
      ∧ ∀ k ∈ ks, k.mnemonic = .jmp → (∃ id, k.operand = .wide id ∧ (Text.between st.emitter e).inner id = true)
        ∨ cs.Leaves st1.trampolines k.operand := by
  obtain ⟨ks, hs, hfits⟩ := body.spans _ _ hc
  obtain ⟨ks', hitems, hends⟩ := routine_endsAs hs hf
  have hown : ks = [] → ∀ m o, st.emitter.items.toList.getLast? = some (.code m o) → m.isTransfer = false := by
    rintro rfl m o ht
    rw [← tail?_of_items rfl] at ht
    exact hclose.nothing hfits.eq_nothing m o ht
  have hlabels : e.labels = st1.emitter.labels := finish_labels hf
  have hsize : (st.resolve id).emitter.labels.size = st.emitter.labels.size := Emitter.size_resolve
  have hinner : ∀ id', st.emitter.labels.size ≤ id' → (st1.emitter.labels.entry id').addr.isSome = true →
      (Text.between st.emitter e).inner id' = true := by
    intro id' hid' ha
    simp [Text.between, hid', hlabels, ha]
  refine ⟨ks', ⟨hitems, hends.last hown, fun m id' hk hm => ?_, fun id' hid' => ?_⟩, fun k hk hj => ?_⟩
  · obtain hk | hk | ⟨o, hk, -⟩ := hends.mem hk
    · obtain ⟨id'', ho, hle, ha⟩ := (hs.leads _ hk).branch hm
      cases ho
      exact hinner id' (hsize ▸ hle) (ha.resolve_left (Set.notMem_empty _))
    · cases hk
    · cases hk
      cases hm
  · obtain ⟨hle, ha⟩ : st.emitter.labels.size ≤ id' ∧ (st1.emitter.labels.entry id').addr.isSome = true := by
      simpa [Text.between, hlabels] using hid'
    obtain ⟨a, ha⟩ := Option.isSome_iff_exists.1 ha
    obtain ⟨xs, ys, rfl, hxs⟩ := hs.landed id' a (hsize.symm ▸ hle) ha
    obtain ⟨k, zs, hk⟩ := hends.split rfl hown (hfits.before_end hs hclose.label (hsize.symm ▸ hle) ha hxs)
    refine ⟨xs, k, zs, hk, ?_⟩
    rw [Labels.place, hls id' a hle (hlabels ▸ ha)]
    exact hxs
  · obtain hk | rfl | ⟨o, rfl, hcall⟩ := hends.mem hk
    · obtain ⟨target, ht⟩ | ⟨id', ho, hle, ha⟩ := (hs.leads _ hk).jump hj
      · exact .inr ⟨target, .inl ht⟩
      · exact .inl ⟨id', ho, hinner id' (hsize ▸ hle) (ha.resolve_left (Set.notMem_empty _))⟩
    · cases hj
    · obtain ⟨target, id', -, he⟩ := (hs.leads ⟨.jsr, o⟩ hcall).call rfl
      exact .inr ⟨target, .inr he⟩

/-- Where a label stands after a jump or a call, something in the code goes there, past the last instruction. -/
theorem routine_runs_on (hc : body.compile cs (st.resolve id) = .ok st1) (hf : finish none st1.emitter = .ok e)
    (hlabel : body.tail = .label)
    (hls : ∀ id a, st.emitter.labels.size ≤ id → (e.labels.entry id).addr = some a → (ls.entry id).addr = some a) :
    ∃ pc pc', (Text.between st.emitter e).Goes ls pc pc' ∧ (Text.between st.emitter e).fetch pc' = none := by
  obtain ⟨ks, hs, hfits⟩ := body.spans _ _ hc
  rw [hlabel] at hfits
  obtain ⟨ks', hT, hends⟩ := routine_endsAs hs hf
  have hlabels : e.labels = st1.emitter.labels := finish_labels hf
  have hsize : (st.resolve id).emitter.labels.size = st.emitter.labels.size := Emitter.size_resolve
  obtain ⟨⟨last, hlast, htransfer⟩, k, hk, id', ho, hle, ha⟩ := hfits
  rw [hsize] at hle
  obtain ⟨zs, rfl, rfl⟩ := hends.of_transfer hlast htransfer
  -- the end of the code is where it was, as a jump takes the room of a call
  have haddr : st1.emitter.addr = st.emitter.addr + Code.room (zs ++ [⟨.jmp, last.operand⟩]) := by
    have hroom : st1.emitter.addr = st.emitter.addr + Code.room (zs ++ [last]) := hs.adds.addr_eq hs.items
    rw [hroom, Code.room_append, Code.room_append]
    rfl
  have hplace : ls.place id' = st1.emitter.addr := by
    rw [Labels.place, hls id' _ hle (hlabels ▸ ha)]
    rfl
  have hmem : k ∈ zs ++ [⟨.jmp, last.operand⟩] := by
    rcases mem_append.1 hk with hk | hk
    · exact mem_append_left _ hk
    · obtain rfl := mem_singleton.1 hk
      obtain ⟨hb, -⟩ | rfl := ho
      · obtain hj | hj := Mnemonic.isTransfer_cases htransfer
        all_goals cases hj ▸ hb
      · simp
  obtain ⟨xs, ys, hsplit⟩ := append_of_mem hmem
  have hfetch : (Text.between st.emitter e).fetch (st.emitter.addr + Code.room xs) = some k.item :=
    Text.fetch_of_items (hsplit ▸ hT)
  refine ⟨st.emitter.addr + Code.room xs, ls.place id', ?_, ?_⟩
  · obtain ⟨m, o⟩ := k
    obtain ⟨hb, rfl⟩ | hj := ho
    · exact .branch hfetch hb
    · cases hj
      refine .jump hfetch ?_
      simp [Text.between, hle, hlabels, ha]
  · rw [Text.fetch, hT, hplace, haddr]
    exact Text.fetchFrom_past _ _ _ (le_rfl)

end

/-- Every routine of the program is laid out by itself. -/
theorem Program.exists_lays {symbols : Symbols} {p : Program} {L : Layout}
    (hL : p.layOut symbols none e = .ok L) {r : Routine} (hr : findRoutine p.routines r.name = .ok r) :
    ∃ st st', p.Lays symbols (defaultRoster p.routines) e r none st st' := by
  obtain ⟨e1, ps, st, hplaced, hlinks, -⟩ := Program.layOut_stages hL
  have hmem : (r.name, none) ∈ (defaultRoster p.routines).flatMap links := by
    refine mem_flatMap.2 ⟨[r.name], ?_, mem_singleton.2 rfl⟩
    by_cases hmain : r.name = "main"
    · simp [defaultRoster, hmain]
    · exact mem_cons_of_mem _ (mem_map.2 ⟨r, by simp [hmain, (findRoutine_name hr).2], rfl⟩)
  obtain ⟨before, after, hsplit⟩ := append_of_mem hmem
  have hrows : (defaultRoster p.routines).flatMap links = before ++ (r.name, none) :: after := hsplit
  simp only [Option.getD_none, hrows] at hlinks
  obtain ⟨st1, hbefore, hrest⟩ := foldlM_append_ok.1 hlinks
  obtain ⟨st2, hlay, -⟩ := foldlM_cons_ok.1 hrest
  obtain ⟨r', hr', hst2⟩ := bind_eq_ok.1 hlay
  cases hr.symm.trans hr'
  exact ⟨st1, st2, e1, L.labels, ps, before, after, hplaced, hrows, hbefore, hr, hst2⟩

/-- Every routine is laid out, and control never comes past its last instruction, unless a label stands after a jump or
a call at its end or it has no code: from every place that control comes to it goes on within the routine, or it
returns or jumps away. Where there is such a label, there is an instruction that goes past the last one. -/
theorem Program.control_stays_in_routine {symbols : Symbols} {p : Program} {e : Emitter} {L : Layout}
    (hL : p.layOut symbols none e = .ok L) (r : Routine) (hr : findRoutine p.routines r.name = .ok r) (body : Block)
    (hbody : r.body = some body) :
    (∃ st st', p.Lays symbols (defaultRoster p.routines) e r none st st')
      ∧ ∀ st st', p.Lays symbols (defaultRoster p.routines) e r none st st' →
        let T := Text.between st.emitter st'.emitter
        let ls := L.emitter.labels
        (body.ClosesAfter st → ∀ pc, T.Visits ls pc → ∃ k : Code, T.fetch pc = some k.item
          ∧ (k.mnemonic = .rts
            ∨ (k.mnemonic = .jmp ∧ CodeSetting.Leaves ⟨symbols, L.labels, some r.name⟩ st'.trampolines k.operand)
            ∨ ∃ pc', T.Goes ls pc pc'))
          ∧ (body.tail = .label → ∃ pc pc', T.Goes ls pc pc' ∧ T.fetch pc' = none) := by
  refine ⟨Program.exists_lays hL hr, ?_⟩
  intro st st' (hlays : p.Lays symbols (Option.getD none _) e r none st st') T ls
  obtain ⟨n, -, hst, -, hsettles, hroutine⟩ := hlays.settles hL
  obtain ⟨id, st₁, e', hid, hc, hf, rfl⟩ := routine_code hbody hroutine
  have hls : ∀ id a, st.emitter.labels.size ≤ id → (e'.labels.entry id).addr = some a → (ls.entry id).addr = some a :=
    fun id a hid ha => hsettles id a (hst.size.trans hid) ha
  refine ⟨fun hclose pc hv => ?_, fun hlabel => routine_runs_on hc hf hlabel hls⟩
  obtain ⟨ks, hsealed, hjumps⟩ := routine_sealed hc hf hclose hls
  obtain ⟨k, hk, hfetch, hrts | ⟨hjmp, hout⟩ | hgoes⟩ := hsealed.goes_on hv
  · exact ⟨k, hfetch, .inl hrts⟩
  · obtain ⟨id, ho, hinner⟩ | hleaves := hjumps k hk hjmp
    · rw [hout id ho] at hinner
      cases hinner
    · exact ⟨k, hfetch, .inr (.inl ⟨hjmp, hleaves⟩)⟩
  · exact ⟨k, hfetch, .inr (.inr hgoes)⟩

/-! ### A choice before a call, and a call in a choice -/

/-- A routine that spoils the accumulator. -/
def spoiling : Signature := { trashes := [⟨"a", none⟩, ⟨"n", none⟩, ⟨"z", none⟩] }

/-- A routine that is given the carry, and the routine that it calls. -/
def spoilingSymbols : Symbols :=
  (Symbols.initial.declare "foo" ⟨.builtin, .routine spoiling⟩).declare "main"
    ⟨.builtin, .routine { spoiling with inputs := [⟨"c", none⟩] }⟩

/-- Puts a byte into the accumulator. -/
def setA : Block := .cons (.op 0 (.ld .a (.constant ⟨.byte, 1⟩))) (.nil 0)

/-- A main routine of the given body, and the routine that it calls. -/
def spoilingProgram (body : Block) : Program :=
  { routines := [⟨0, "foo", none, [], some setA, false⟩, ⟨0, "main", none, [], some body, false⟩] }

/-- The main routine of that program. -/
def spoilingMain (body : Block) : Routine := ⟨0, "main", none, [], some body, false⟩

/-- A choice, and then a call. -/
def choiceThenCall : Block := .cons (.ifThen 0 .c false setA) (.cons (.call 0 "foo") (.nil 0))

/-- A call in a choice. -/
def callInChoice : Block := .cons (.ifThen 0 .c false (.cons (.call 0 "foo") (.nil 0))) (.nil 0)

theorem choiceThenCall_stays :
    ((spoilingProgram choiceThenCall).analyse spoilingSymbols).2.isOk = true
      ∧ ∃ L, (spoilingProgram choiceThenCall).layOut spoilingSymbols none (.startingAt 0) = .ok L
        ∧ ∃ st st', (spoilingProgram choiceThenCall).Lays spoilingSymbols [["main"], ["foo"]] (.startingAt 0)
          ⟨0, "main", none, [], some choiceThenCall, false⟩ none st st'
          ∧ ∀ pc, (Text.between st.emitter st'.emitter).Visits L.emitter.labels pc →
            ∃ k : Code, (Text.between st.emitter st'.emitter).fetch pc = some k.item := by
  have hL : ∃ L, (spoilingProgram choiceThenCall).layOut spoilingSymbols none (.startingAt 0) = .ok L := ⟨_, rfl⟩
  obtain ⟨L, hL⟩ := hL
  obtain ⟨⟨st, st', hlays⟩, hstays⟩ := Program.control_stays_in_routine hL
    ⟨0, "main", none, [], some choiceThenCall, false⟩ rfl choiceThenCall rfl
  refine ⟨rfl, L, hL, st, st', hlays, fun pc hv => ?_⟩
  have hcloses : choiceThenCall.ClosesAfter st := ⟨by decide, fun h => by cases h⟩
  obtain ⟨k, hk, -⟩ := (hstays st st' hlays).1 hcloses pc hv
  exact ⟨k, hk⟩

/-- A call in a choice at the end becomes a jump, and there is no return for when it is not taken: control goes on past
the end of the routine. -/
theorem callInChoice_runs_on :
    ((spoilingProgram callInChoice).analyse spoilingSymbols).2.isOk = true
      ∧ ∃ L, (spoilingProgram callInChoice).layOut spoilingSymbols none (.startingAt 0) = .ok L
        ∧ ∃ st st', (spoilingProgram callInChoice).Lays spoilingSymbols [["main"], ["foo"]] (.startingAt 0)
          ⟨0, "main", none, [], some callInChoice, false⟩ none st st'
          ∧ ∃ pc, (Text.between st.emitter st'.emitter).Visits L.emitter.labels pc
            ∧ (Text.between st.emitter st'.emitter).fetch pc = none := by
  refine ⟨rfl, _, rfl, _, _, ⟨_, _, _, [], [("foo", none)], rfl, rfl, rfl, rfl, rfl⟩, 5, ?_, rfl⟩
  exact .step .start (@Text.Goes.branch _ _ _ .bcc 2 rfl rfl)

end CheckedAsm
