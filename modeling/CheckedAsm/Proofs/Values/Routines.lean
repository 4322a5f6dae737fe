import CheckedAsm.Proofs.Ranges.Bounds
import CheckedAsm.Proofs.Values.Soundness
/-! # Values in accepted routines

A routine is entered with values in its inputs and in its static locations. Along every path through the body
of an accepted routine without jumps, what is used holds a value, every output holds one at the end, and what
is touched is an output, trashed or local. The uses that are not looked at are left out: an operation that
stores a location into itself is accepted although the location has no value, and so is a call through a
vector that was never set. -/

namespace CheckedAsm

open Context List

variable {s : Setting} {cx cx' : Context} {sig : Signature}

/-! ### Entering a routine -/

/-- The locations that hold values when a routine is entered. -/
def Setting.entryValues (s : Setting) (sig : Signature) : Set Ref :=
  {r | r ∈ sig.inputs.map Ref.ofSlot ∨ r ∈ s.statics}

theorem setRange_values {r : Ref} {range : Range} (h : cx.setRange s r range = .ok cx') :
    SameButRanges cx cx' ∧ ∀ q, cx'.isMeaningful q = true ↔ cx.isMeaningful q = true ∨ q = r := by
  rw [setRange_ok h]
  exact ⟨.putRange .., fun q => isMeaningful_putRange⟩

theorem makeMeaningful_values {r : Ref} (h : cx.makeMeaningful s r = .ok cx') :
    SameButRanges cx cx' ∧ ∀ q, cx'.isMeaningful q = true ↔ cx.isMeaningful q = true ∨ q = r := by
  obtain ⟨same, hsome, hranges⟩ := makeMeaningful_ok h
  refine ⟨same, fun q => ?_⟩
  simp only [isMeaningful_eq]
  by_cases hq : q = r
  · subst hq
    simp [hsome]
  · simp [hq, (hranges q).resolve_right fun h => hq h.1]

/-- What the entry of one location does at the start of a routine: a static location is given a value. -/
theorem startStatic_values {e : String × Entry} (h : Routine.startStatic s cx e = .ok cx') :
    SameButRanges cx cx' ∧ ∀ r, cx'.isMeaningful r = true ↔ cx.isMeaningful r = true
      ∨ (r = .location e.1 ∧ ∃ d, e.2.decl = .defn d ∧ d.initial.isSome) := by
  unfold Routine.startStatic at h
  split at h
  · next d hd =>
    cases hinit : d.initial with
    | none =>
      simp only [hinit] at h
      cases h
      simp [SameButRanges.refl, hd, hinit]
    | some initial =>
      simp only [hinit, bind_eq_ok] at h
      obtain ⟨cx2, hm, hset⟩ := h
      obtain ⟨same1, values1⟩ := makeMeaningful_values hm
      obtain ⟨same2, values2⟩ := setRange_values hset
      refine ⟨same1.trans same2, fun r => ?_⟩
      rw [values2, values1]
      simp [hd, hinit]
  · next hd =>
    cases h
    refine ⟨.refl cx, fun r => ?_⟩
    simp only [iff_self_or]
    rintro ⟨-, d, hdefn, -⟩
    exact absurd hdefn (hd d)

/-- At the start of a routine its static locations are given values, and nothing else changes. -/
theorem startStatics_values (h : Routine.startStatics s cx = .ok cx') :
    SameButRanges cx cx' ∧ ∀ r, cx'.isMeaningful r = true ↔ cx.isMeaningful r = true ∨ r ∈ s.statics := by
  have hfold : ∀ (l : List (String × Entry)) (cx : Context), l.foldlM (Routine.startStatic s) cx = .ok cx' →
      SameButRanges cx cx' ∧ ∀ r, cx'.isMeaningful r = true ↔ cx.isMeaningful r = true
        ∨ ∃ e ∈ l, r = .location e.1 ∧ ∃ d, e.2.decl = .defn d ∧ d.initial.isSome := by
    intro l
    induction l with
    | nil =>
      intro cx h
      cases h
      exact ⟨.refl _, by simp⟩
    | cons e l ih =>
      intro cx h
      rw [foldlM_cons, bind_eq_ok] at h
      obtain ⟨cx1, h1, h2⟩ := h
      obtain ⟨same1, values1⟩ := startStatic_values h1
      obtain ⟨same2, values2⟩ := ih cx1 h2
      refine ⟨same1.trans same2, fun r => ?_⟩
      rw [values2, values1]
      simp [or_assoc]
  obtain ⟨same, values⟩ := hfold _ cx h
  exact ⟨same, values⟩

/-- The walk through a routine starts with values in what is entered with values, and nothing touched. -/
theorem Routine.walk_start {body : Block} {t : Trail} (h : Routine.walk s sig body = .ok t) :
    ∃ cx : Context, body.walk s { cx } = .ok t ∧ cx.terminated = false ∧ cx.touched = []
      ∧ cx.getAssoc = (fun _ => none) ∧ (∀ r, cx.isMeaningful r = true ↔ r ∈ s.entryValues sig)
      ∧ ∀ r ∈ sig.inputs.map Ref.ofSlot, s.isConstant r = .ok false := by
  simp only [Routine.walk, bind_eq_ok] at h
  obtain ⟨cx0, hstart, cx, hstatics, hwalk⟩ := h
  obtain ⟨hinputs, htouched, hgo, -, hassoc, hconstant, -⟩ := start_values hstart
  obtain ⟨same, hvalues⟩ := startStatics_values hstatics
  refine ⟨cx, hwalk, same.terminated.trans hgo, same.touched.trans htouched, ?_, fun r => ?_, hconstant⟩
  · exact (getAssoc_congr (same.assoc.trans hassoc) : _ = getAssoc { assoc := ⟨[]⟩ })
  · rw [hvalues, hinputs]
    rfl

/-! ### Routines without jumps -/

/-- Along every path through an accepted routine without jumps, what the analysis looks at is used only with a
value, every output has a value at the end, and only what is declared or local is touched. -/
theorem Routine.paths_hold_values (symbols : Symbols) (r : Routine) (facts : Facts) (body : Block)
    (sig : Signature) (haccepted : (r.analyse symbols).2 = .ok facts) (hbody : r.body = some body)
    (hsig : (r.setting symbols).globalType r.name = .ok (.routine sig)) (hfree : body.isJumpFree = true)
    (log : Log) (o : Ending (Set Ref))
    (hpath : body.Paths (r.setting symbols) (fun _ => none) ((r.setting symbols).entryValues sig) log o) :
    (∀ u ∈ log.uses, u.purpose.isChecked = true → u.held)
      ∧ (∀ after, o = .done after → ∀ out ∈ sig.outputs, Ref.ofSlot out ∈ after)
      ∧ ∀ q ∈ log.touched, sig.Allows (r.setting symbols) q := by
  obtain ⟨sig', t, hsig', hwalk, cx', hcheck⟩ := Routine.analyse_ok haccepted hbody
  obtain rfl : sig' = sig := by
    rw [hsig', Except.ok.injEq, Ty.routine.injEq] at hsig
    exact hsig
  obtain ⟨-, hend⟩ := Routine.exits_honoured hwalk hcheck
  obtain ⟨cx, hwalk, hgo, -, hassoc, hvalues, -⟩ := Routine.walk_start hwalk
  have hexits : t.exits = [] := (body.walk_jumpFree _ hwalk hfree).exits
  rw [← hassoc] at hpath
  obtain ⟨huses, hdone, -, htouched⟩ := body.covers _ hwalk hgo (fun q hq => (hvalues q).1 hq) hpath
  refine ⟨huses, fun after ho out hout => ?_, fun q hq => ?_⟩
  · exact (hdone after ho).2 _ ((hend hexits).outputs out hout)
  · rcases htouched q hq with ⟨-, hq⟩ | ⟨cx, hcx, -⟩
    · exact (hend hexits).touched q hq
    · simp [hexits] at hcx

/-! ### A loop, and a store that uses no value -/

/-- A routine that reads `c`, sets `a` and `x`, and spoils the other flags. -/
def fillingSignature : Signature :=
  { inputs := [⟨"c", none⟩], outputs := [⟨"a", none⟩, ⟨"x", none⟩], trashes := [⟨"n", none⟩, ⟨"z", none⟩] }

/-- The main routine, and a vector for routines that spoil `x`. -/
def fillingSymbols : Symbols :=
  (Symbols.initial.declare "main" ⟨.builtin, .routine fillingSignature⟩).declare "vec"
    ⟨.builtin, .vector (.routine { trashes := [⟨"x", none⟩] })⟩

/-- The main routine with the given body. -/
def filling (body : Block) : Routine := ⟨0, "main", none, [], some body, false⟩

/-- The setting of the main routine. -/
def fillingSetting : Setting := ⟨fillingSymbols, "main", 0⟩

/-- Loads `x`, and then `a` in each round of a loop that ends with the carry. -/
def fill : Block :=
  .cons (.op 0 (.ld .x (.constant ⟨.byte, 0⟩)))
    (.cons (.loop 0 (some .c) false (.cons (.op 0 (.ld .a .x)) (.nil 0))) (.nil 0))

theorem fill_round (live : Set Ref) :
    ∃ log, (Block.cons (.op 0 (.ld .a .x)) (.nil 0)).Paths fillingSetting (fun _ => none) live log
        (.done (valuesAfter [.a, .z, .n] [] live))
      ∧ log.uses = [⟨.operand, .x, .x ∈ live⟩] :=
  ⟨_, .inr (.inr ⟨_, _, {}, ⟨rfl, .inr rfl⟩, ⟨rfl, .inr rfl⟩, rfl⟩), rfl⟩

/-- The path through two rounds of the loop. -/
theorem fill_path :
    ∃ log after, fill.Paths fillingSetting (fun _ => none) (fillingSetting.entryValues fillingSignature) log (.done after)
      ∧ log.uses.map (fun u => (u.purpose, u.location))
        = [(.operand, .x), (.loopTest, .c), (.operand, .x), (.loopTest, .c)] := by
  obtain ⟨first, hfirst, huses1⟩ := fill_round (valuesAfter [.x, .z, .n] [] (fillingSetting.entryValues fillingSignature))
  obtain ⟨second, hsecond, huses2⟩ := fill_round (valuesAfter [.a, .z, .n] []
    (valuesAfter [.x, .z, .n] [] (fillingSetting.entryValues fillingSignature)))
  refine ⟨_, _, .inr (.inr ⟨_, _, _, ⟨rfl, .inr rfl⟩,
    .inr (.inr ⟨_, _, {}, .more hfirst (.last rfl hsecond), ⟨rfl, .inr rfl⟩, rfl⟩), rfl⟩), ?_⟩
  simp only [Log.uses_append, huses1, huses2]
  rfl

/-- The path keeps to what the routine declares. -/
theorem fill_holds_values :
    ((filling fill).analyse fillingSymbols).2.isOk = true ∧ fill.isJumpFree = true
      ∧ ∃ log after,
        fill.Paths fillingSetting (fun _ => none) (fillingSetting.entryValues fillingSignature) log (.done after)
        ∧ log.uses.map (fun u => (u.purpose, u.location))
          = [(.operand, .x), (.loopTest, .c), (.operand, .x), (.loopTest, .c)]
        ∧ (∀ u ∈ log.uses, u.purpose.isChecked = true → u.held) ∧ Ref.a ∈ after ∧ Ref.x ∈ after
        ∧ ∀ q ∈ log.touched, fillingSignature.Allows fillingSetting q := by
  obtain ⟨log, after, hpath, huses⟩ := fill_path
  obtain ⟨hheld, houtputs, htouched⟩ := Routine.paths_hold_values fillingSymbols (filling fill) _ fill
    fillingSignature rfl rfl rfl rfl log (.done after) hpath
  exact ⟨rfl, rfl, log, after, hpath, huses, hheld, houtputs after rfl ⟨"a", none⟩ (by decide),
    houtputs after rfl ⟨"x", none⟩ (by decide), htouched⟩

/-- Runs an instruction and then gives both outputs values. -/
def thenFill (i : Instr) : Block :=
  .cons i (.cons (.op 0 (.ld .a (.constant ⟨.byte, 0⟩))) (.cons (.op 0 (.ld .x (.constant ⟨.byte, 0⟩))) (.nil 0)))

theorem not_entryValues {name : String} (h : name ≠ "c") :
    Ref.location name ∉ fillingSetting.entryValues fillingSignature := by
  rintro (hinput | ⟨e, he, -⟩)
  · simp only [fillingSignature, map_cons, map_nil, mem_singleton, Ref.ofSlot,
      Ref.location.injEq] at hinput
    exact h hinput
  · cases he

/-- The main routine is accepted with this instruction at its start, although it uses a location without a value. -/
def AcceptedWithoutValue (i : Instr) : Prop :=
  ((filling (thenFill i)).analyse fillingSymbols).2.isOk = true
    ∧ ∃ log, (thenFill i).Paths fillingSetting (fun _ => none) (fillingSetting.entryValues fillingSignature) log .cut
      ∧ ∃ u ∈ log.uses, ¬ u.held

/-- A location that is stored into itself counts as written before it is looked at, and the vector of a call is not
looked at: both are accepted where neither the accumulator nor the vector holds a value. -/
theorem unchecked_uses_without_value :
    AcceptedWithoutValue (.op 0 (.st .a .a)) ∧ AcceptedWithoutValue (.call 0 "vec") := by
  constructor
  · refine ⟨rfl, _, .inl ⟨⟨rfl, .inl rfl⟩, nofun⟩, ⟨.itself, .a, _⟩, mem_singleton.2 rfl, ?_⟩
    exact not_entryValues (by decide)
  · refine ⟨rfl, _, .inl ⟨⟨_, ⟨_, _, rfl, rfl, rfl, rfl⟩, .inl rfl⟩, nofun⟩, ⟨.vector, .location "vec", _⟩,
      mem_singleton.2 rfl, ?_⟩
    exact not_entryValues (by decide)

end CheckedAsm
