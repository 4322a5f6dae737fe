import CheckedAsm.Proofs.Analysis.Walk
/-! # The exits of a routine

A routine is left at each of its jumps and at the end of its body. What it declares has to hold at every
exit: its outputs have values there, and it touched only what is declared or local. The last checks of
the analysis look at one context. Where there are jumps, it is that of the first jump; the other jumps
have to agree with it, but the end of the body is not compared. So every jump of an accepted routine
honours the declaration, and so does the end, if there are no jumps or if it agrees with them. -/

namespace CheckedAsm

open List

variable {s : Setting} {sig : Signature} {cx cx' : Context} {r : Ref}

/-- Whether a routine of the signature may change the reference: it is set, spoiled or local. -/
def Signature.Allows (s : Setting) (sig : Signature) (r : Ref) : Prop :=
  r ∈ sig.outputs.map Ref.ofSlot ∨ r ∈ sig.trashes.map Ref.ofSlot ∨ s.isLocal r.name = true

/-- A context that honours a declaration: every output has a value, and what was touched is allowed. -/
structure Context.Honours (s : Setting) (sig : Signature) (cx : Context) : Prop where
  outputs : ∀ o ∈ sig.outputs, cx.isMeaningful (.ofSlot o) = true
  touched : ∀ r ∈ cx.touched, sig.Allows s r

namespace Context

theorem isMeaningful_iff_mem : cx.isMeaningful r = true ↔ r ∈ cx.meaningful := by
  simp only [isMeaningful, Assoc.has, Assoc.get?, meaningful, Assoc.keys, Option.isSome_map,
    find?_isSome, mem_map, decide_eq_true_eq]

theorem sameMembers_iff {l m : List Ref} : Routine.sameMembers l m = true ↔ ∀ r, r ∈ m ↔ r ∈ l := by
  simp only [Routine.sameMembers, Bool.and_eq_true, all_eq_true, contains_iff_mem]
  exact ⟨fun h r => ⟨h.2 r, h.1 r⟩, fun h => ⟨fun r => (h r).2, fun r => (h r).1⟩⟩

/-- Two contexts agree if they know the same locations as having values, as touched and as writeable. -/
theorem agree_iff : Routine.agree cx cx' = true ↔ (∀ r, cx.isMeaningful r = true ↔ cx'.isMeaningful r = true)
    ∧ (∀ r, r ∈ cx.touched ↔ r ∈ cx'.touched) ∧ ∀ r, r ∈ cx.writeable ↔ r ∈ cx'.writeable := by
  simp only [Routine.agree, Bool.and_eq_true, sameMembers_iff, isMeaningful_iff_mem, and_assoc]

theorem agree_refl : Routine.agree cx cx = true := agree_iff.2 ⟨fun _ => .rfl, fun _ => .rfl, fun _ => .rfl⟩

/-- Two contexts agree that agree with a third one. -/
theorem agree_of_agree {c : Context} (h : Routine.agree c cx = true) (h' : Routine.agree c cx' = true) : Routine.agree cx cx' = true := by
  rw [agree_iff] at h h' ⊢
  exact ⟨fun r => (h.1 r).symm.trans (h'.1 r), fun r => (h.2.1 r).symm.trans (h'.2.1 r), fun r => (h.2.2 r).symm.trans (h'.2.2 r)⟩

/-- Two contexts that agree honour the same declarations. -/
theorem Honours.of_agree (h : cx.Honours s sig) (hagree : Routine.agree cx cx' = true) :
    cx'.Honours s sig := by
  obtain ⟨hmeaningful, htouched, -⟩ := agree_iff.1 hagree
  exact ⟨fun o ho => (hmeaningful _).1 (h.outputs o ho), fun r hr => h.touched r ((htouched r).2 hr)⟩

/-! ### The start of a routine -/

theorem refuseConstants_ok {rs : List Ref} (h : refuseConstants s rs = .ok ()) :
    ∀ r ∈ rs, s.isConstant r = .ok false := by
  intro r hr
  have hcheck := forM_eq_ok.1 h r hr
  rw [bind_eq_ok] at hcheck
  obtain ⟨constant, hconstant, hcheck⟩ := hcheck
  cases constant with
  | true => simp at hcheck
  | false => exact hconstant

/-- At the start of a routine exactly its inputs have values, nothing is touched, and no constraint names
a constant. -/
theorem start_values {inputs outputs trashes : List Ref} (h : start s inputs outputs trashes = .ok cx) :
    (∀ r, cx.isMeaningful r = true ↔ r ∈ inputs) ∧ cx.touched = [] ∧ cx.terminated = false
      ∧ cx.gotos = [] ∧ cx.assoc = ⟨[]⟩ ∧ (∀ r ∈ inputs, s.isConstant r = .ok false)
      ∧ ∀ r ∈ outputs, s.isConstant r = .ok false := by
  have hfold : ∀ (l : List Ref) (m m' : Assoc Ref Range),
      l.foldlM (fun (m : Assoc Ref Range) r => (s.maxRange r).map fun range => m.set r range) m = .ok m' →
      ∀ r, (m'.get? r).isSome = true ↔ (m.get? r).isSome = true ∨ r ∈ l := by
    intro l
    induction l with
    | nil =>
      intro m m' h r
      cases h
      simp
    | cons q l ih =>
      intro m m' h r
      rw [foldlM_cons, bind_eq_ok] at h
      obtain ⟨m1, h1, h2⟩ := h
      obtain ⟨range, -, rfl⟩ := map_eq_ok.1 h1
      rw [ih _ _ h2 r, Assoc.get?_set]
      by_cases hq : q = r <;> simp [hq, eq_comm (a := r)]
  simp only [start, bind_eq_ok, pure_eq_ok] at h
  obtain ⟨⟨⟩, hinputs, ranges, hranges, ⟨⟩, houtputs, ⟨⟩, -, rfl⟩ := h
  refine ⟨fun r => ?_, rfl, rfl, rfl, rfl, refuseConstants_ok hinputs, refuseConstants_ok houtputs⟩
  exact (hfold _ _ _ hranges r).trans (by simp [Assoc.get?])

/-- A location that is no constant is required to have a value. -/
theorem assertMeaningfulAs_ofSlot {rule : Rule} {note : Option String} {o : Slot} (hconstant : s.isConstant (.ofSlot o) = .ok false) :
    cx.assertMeaningfulAs s rule note (.ofSlot o) = .ok () ↔ cx.isMeaningful (.ofSlot o) = true := by
  have hrange : ∀ q, cx.requireRange s rule note q = .ok () ↔ cx.isMeaningful q = true := by
    intro q
    rw [requireRange]
    cases cx.isMeaningful q <;> simp
  obtain ⟨name, _ | site⟩ := o
  · simp only [Ref.ofSlot] at hconstant ⊢
    rw [assertMeaningfulAs]
    split
    · exact hrange _
    · rw [hconstant]
      exact hrange _
  · cases hconstant

end Context

namespace Routine

/-- The last checks of a routine, read backwards. -/
theorem check_ok {t : Trail} (h : check s sig t = .ok cx) :
    joinExits s t.cx t.exits = .ok cx
      ∧ (∀ o ∈ sig.outputs, .ofSlot o ∈ t.cx.touched → t.cx.isMeaningful (.ofSlot o) = true)
      ∧ (∀ o ∈ sig.outputs, cx.assertMeaningfulAs s .unmeaningfulOutput none (.ofSlot o) = .ok ())
      ∧ ∀ r ∈ cx.touched, sig.Allows s r := by
  simp only [check, bind_eq_ok, pure_eq_ok] at h
  obtain ⟨cx1, hjoin, ⟨⟩, hspoiled, ⟨⟩, houtputs, ⟨⟩, htouched, rfl⟩ := h
  refine ⟨hjoin, fun o ho hr => ?_, fun o ho => forM_eq_ok.1 houtputs _ (mem_map_of_mem ho), fun r hr => ?_⟩
  · cases hm : t.cx.isMeaningful (.ofSlot o) with
    | true => rfl
    | false =>
      have hrefused := forM_eq_ok.1 hspoiled _ (mem_filter.2 ⟨hr, by rw [hm]; rfl⟩)
      rw [if_pos (contains_iff_mem.2 (mem_map_of_mem ho))] at hrefused
      cases hrefused
  · have hallowed := forM_eq_ok.1 htouched r hr
    split at hallowed
    · next hcheck =>
      simp only [Bool.or_eq_true, contains_iff_mem, or_assoc] at hcheck
      exact hcheck
    · cases hallowed

/-- The context that stands for all exits is that of the end, or that of the first jump, with which all
others agree. -/
theorem joinExits_ok {last : Context} {jumps : List Context} (h : joinExits s last jumps = .ok cx) :
    (jumps = [] ∧ cx = last)
      ∨ ∃ first rest, jumps = first :: rest ∧ (∀ other ∈ rest, agree first other = true)
        ∧ cx = last.updateFrom first := by
  cases jumps with
  | nil => exact .inl ⟨rfl, (Except.ok.inj h).symm⟩
  | cons first rest =>
    simp only [joinExits] at h
    split at h
    · next hall => exact .inr ⟨first, rest, rfl, all_eq_true.1 hall, (Except.ok.inj h).symm⟩
    · cases h

/-- The walk of an accepted routine with the exits it recorded. -/
theorem analyse_exits {symbols : Symbols} {r : Routine} {exits : Exits} {facts : Facts}
    (h : r.analyse symbols = (some exits, .ok facts)) :
    ∃ sig body t cx, r.body = some body ∧ (r.setting symbols).globalType r.name = .ok (.routine sig)
      ∧ walk (r.setting symbols) sig body = .ok t ∧ check (r.setting symbols) sig t = .ok cx
      ∧ exits = ⟨r.setting symbols, t.cx, t.exits⟩ := by
  cases hbody : r.body with
  | none =>
    simp only [analyse, hbody] at h
    cases hty : (r.setting symbols).globalType r.name <;> simp [hty] at h
  | some body =>
    obtain ⟨sig, t, hsig, hwalk, cx, hcheck⟩ := analyse_ok (congrArg Prod.snd h) hbody
    refine ⟨sig, body, t, cx, rfl, hsig, hwalk, hcheck, ?_⟩
    simp only [analyse, hbody, hsig, hwalk, Prod.mk.injEq, Option.some.injEq] at h
    exact h.1.symm

/-- The last checks are passed if all jumps agree, no output that was touched lacks a value at the end, and the declaration is honoured
at each jump, or at the end if there are no jumps. -/
theorem check_isOk_iff {t : Trail} (hconstant : ∀ o ∈ sig.outputs, s.isConstant (.ofSlot o) = .ok false) :
    (∃ cx, check s sig t = .ok cx) ↔ (∀ e ∈ t.exits, ∀ e' ∈ t.exits, agree e e' = true)
      ∧ (∀ o ∈ sig.outputs, .ofSlot o ∈ t.cx.touched → t.cx.isMeaningful (.ofSlot o) = true)
      ∧ (∀ e ∈ t.exits, e.Honours s sig) ∧ (t.exits = [] → t.cx.Honours s sig) := by
  constructor
  · rintro ⟨cx, hcheck⟩
    obtain ⟨hjoin, hspoiled, houtputs, htouched⟩ := check_ok hcheck
    have hcx : cx.Honours s sig := ⟨fun o ho => (Context.assertMeaningfulAs_ofSlot (hconstant o ho)).1 (houtputs o ho), htouched⟩
    rcases joinExits_ok hjoin with ⟨hnone, rfl⟩ | ⟨first, rest, hjumps, hagree, rfl⟩
    · exact ⟨by simp [hnone], hspoiled, by simp [hnone], fun _ => hcx⟩
    · have hall : ∀ e ∈ t.exits, agree first e = true := by
        rw [hjumps, forall_mem_cons]
        exact ⟨Context.agree_refl, hagree⟩
      have hfirst : first.Honours s sig := ⟨hcx.outputs, hcx.touched⟩
      exact ⟨fun e he e' he' => Context.agree_of_agree (hall e he) (hall e' he'), hspoiled, fun e he => hfirst.of_agree (hall e he),
        by simp [hjumps]⟩
  · rintro ⟨hagree, hspoiled, hexits, hend⟩
    obtain ⟨cx, hjoin, hcx⟩ : ∃ cx, joinExits s t.cx t.exits = .ok cx ∧ cx.Honours s sig := by
      cases hjumps : t.exits with
      | nil => exact ⟨t.cx, rfl, hend hjumps⟩
      | cons first rest =>
        rw [hjumps] at hagree hexits
        have hall : rest.all (agree first) = true :=
          all_eq_true.2 fun e he => hagree first mem_cons_self e (mem_cons_of_mem first he)
        have hfirst := hexits first mem_cons_self
        exact ⟨_, if_pos hall, ⟨hfirst.outputs, hfirst.touched⟩⟩
    refine ⟨cx, ?_⟩
    simp only [check, bind_eq_ok, pure_eq_ok]
    refine ⟨cx, hjoin, (), forM_eq_ok.2 fun r hr => if_neg fun hout => ?_, (), forM_eq_ok.2 fun r hr => ?_, (),
      forM_eq_ok.2 fun r hr => if_pos ?_, rfl⟩
    · obtain ⟨o, ho, rfl⟩ := mem_map.1 (contains_iff_mem.1 hout)
      obtain ⟨htouched, hlacks⟩ := mem_filter.1 hr
      rw [hspoiled o ho htouched] at hlacks
      cases hlacks
    · obtain ⟨o, ho, rfl⟩ := mem_map.1 hr
      exact (Context.assertMeaningfulAs_ofSlot (hconstant o ho)).2 (hcx.outputs o ho)
    · have hallowed := hcx.touched r hr
      simp only [Bool.or_eq_true, contains_iff_mem, or_assoc]
      exact hallowed

/-- No output of a routine that was walked through is a constant. -/
theorem outputs_not_constant {t : Trail} {body : Block} (hwalk : walk s sig body = .ok t) :
    ∀ o ∈ sig.outputs, s.isConstant (.ofSlot o) = .ok false := by
  simp only [walk, bind_eq_ok] at hwalk
  obtain ⟨cx0, hstart, -⟩ := hwalk
  obtain ⟨-, -, -, -, -, -, hconstant⟩ := Context.start_values hstart
  exact fun o ho => hconstant _ (mem_map_of_mem ho)

/-- At each exit that the last checks have looked at, directly or by comparison, the declaration is
honoured: at every jump, and at the end if there is none. -/
theorem exits_honoured {t : Trail} {body : Block} (hwalk : walk s sig body = .ok t)
    (hcheck : check s sig t = .ok cx) :
    (∀ cx ∈ t.exits, cx.Honours s sig) ∧ (t.exits = [] → t.cx.Honours s sig) :=
  ((check_isOk_iff (outputs_not_constant hwalk)).1 ⟨cx, hcheck⟩).2.2

/-- Every jump of an accepted routine honours its declaration. So does the end of its body where control
reaches it, provided that it agrees with the jumps. In any case no output is left there without a value once it was
touched. -/
theorem exits_honour_declaration (symbols : Symbols) (r : Routine) (exits : Exits) (facts : Facts)
    (sig : Signature) (h : r.analyse symbols = (some exits, .ok facts))
    (hsig : (r.setting symbols).globalType r.name = .ok (.routine sig)) :
    (∀ cx ∈ exits.jumps, cx.Honours (r.setting symbols) sig)
      ∧ (exits.last.terminated = false → (∀ cx ∈ exits.jumps, agree cx exits.last = true) →
        exits.last.Honours (r.setting symbols) sig)
      ∧ ∀ o ∈ sig.outputs, .ofSlot o ∈ exits.last.touched → exits.last.isMeaningful (.ofSlot o) = true := by
  obtain ⟨sig', body, t, cx, -, hsig', hwalk, hcheck, rfl⟩ := analyse_exits h
  obtain rfl : sig' = sig := by
    rw [hsig', Except.ok.injEq, Ty.routine.injEq] at hsig
    exact hsig
  obtain ⟨hjumps, hend⟩ := exits_honoured hwalk hcheck
  refine ⟨hjumps, fun _ hagree => ?_, (check_ok hcheck).2.1⟩
  cases hexits : t.exits with
  | nil => exact hend hexits
  | cons first rest =>
    have hfirst : first ∈ t.exits := by simp [hexits]
    exact (hjumps first hfirst).of_agree (hagree first hfirst)

/-! ### A routine that ends without its output -/

/-- What a routine declares that sets `x` if the carry is set, and otherwise too. -/
def choosingX : Signature :=
  { inputs := [⟨"c", none⟩], outputs := [⟨"x", none⟩], trashes := [⟨"n", none⟩, ⟨"z", none⟩] }

/-- The main routine, and another one that sets `x` without looking at the carry. -/
def jumpingSymbols : Symbols :=
  (Symbols.initial.declare "bar" ⟨.builtin, .routine { choosingX with inputs := [] }⟩).declare "main"
    ⟨.builtin, .routine choosingX⟩

/-- The main routine: it jumps if the carry is set, and has another block for when it is not. -/
def jumping (otherwise : Block) : Routine :=
  ⟨0, "main", none, [], some (.cons (.ifElse 0 .c false (.cons (.goto 0 "bar") (.nil 0)) otherwise) (.nil 0)),
    false⟩

/-- Sets `x` just as the routine that is jumped to. -/
def settingX : Block :=
  .cons (.op 0 (.ld .x (.constant ⟨.byte, 1⟩)))
    (.cons (.op 0 (.trash .z)) (.cons (.op 0 (.trash .n)) (.nil 0)))

/-- Where the other block sets `x` as well, both exits honour the declaration. -/
theorem settingX_honours_declaration :
    ∃ exits facts, (jumping settingX).analyse jumpingSymbols = (some exits, .ok facts)
      ∧ exits.jumps.length = 1 ∧ exits.last.terminated = false
      ∧ (∀ cx ∈ exits.jumps, cx.Honours ((jumping settingX).setting jumpingSymbols) choosingX)
      ∧ exits.last.Honours ((jumping settingX).setting jumpingSymbols) choosingX := by
  refine ⟨_, _, rfl, rfl, rfl, ?_⟩
  have h := exits_honour_declaration jumpingSymbols (jumping settingX) _ _ choosingX rfl rfl
  exact ⟨h.1, h.2.1 rfl (by decide)⟩

/-- Where the other block does nothing, the routine is accepted as well, although control reaches the end
of its body and `x` has no value there. -/
theorem nil_ends_without_output :
    ∃ exits facts, (jumping (.nil 0)).analyse jumpingSymbols = (some exits, .ok facts)
      ∧ exits.last.terminated = false
      ∧ ¬ exits.last.Honours ((jumping (.nil 0)).setting jumpingSymbols) choosingX := by
  refine ⟨_, _, rfl, rfl, fun h => ?_⟩
  have hx := h.outputs ⟨"x", none⟩ (by decide)
  revert hx
  decide

end Routine

end CheckedAsm
