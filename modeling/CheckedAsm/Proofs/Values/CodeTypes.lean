import CheckedAsm.Proofs.Ranges.Single
import CheckedAsm.Proofs.Values.Following
/-! # Vectors hold code that fits them

Code gets into a vector by a copy: from another vector of the same type, from a cell of a table, or from a routine. The
analysis compares the types on the way, so what is held fits the type of the holder. In one place it compares less than
that: a routine that is copied into a vector may set less than the vector promises. -/

namespace CheckedAsm

variable {limit sig : Signature} {f : Focus} {cx cx' : Context} {name : String} {e : Executable} {ty : Ty} {op : Op}

variable {s : Setting} {st : Storage}

/-- A routine that is copied into a vector sets all that the vector promises. -/
def Setting.Delivers (s : Setting) : Op → Prop
  | .copy src d => ∀ sig limit, s.typeOf src = .ok (.routine sig) → s.typeOf d = .ok (.vector (.routine limit)) →
      limit.outputs ⊆ sig.outputs
  | _ => True

theorem Ty.target_eq_of_compatible {of cell : Ty} (h : of.executableCompatible cell = true) :
    of.target = cell.target := by
  unfold executableCompatible at h
  split at h
  · next hof hcell => rw [hof, hcell, of_decide_eq_true h]
  · cases h

theorem assertWithin_ok {what : Constraint} (h : Focus.assertWithin s what sig limit = .ok ()) : what.of sig ⊆ what.of limit := by
  unfold Focus.assertWithin at h
  split at h
  · next hempty =>
    intro o ho
    by_contra hnot
    have hmem : o ∈ (what.of sig).minus (what.of limit) := List.mem_filter.2 ⟨ho, by simpa using hnot⟩
    rw [List.isEmpty_iff.1 hempty] at hmem
    cases hmem
  · cases h

namespace Focus

variable {src d : Ref}

/-- What is compared where a routine is copied into a vector. -/
theorem copy_within {m : String} (h : f.copy cx (.location m) (.location name) = .ok cx')
    (ht : f.setting.typeOf (.location m) = .ok (.routine sig))
    (hu : f.setting.typeOf (.location name) = .ok (.vector (.routine limit))) :
    sig.inputs ⊆ limit.inputs ∧ sig.outputs ⊆ limit.outputs ∧ sig.trashes ⊆ limit.trashes := by
  simp only [copy, guard_eq_ok, bind_eq_ok, ↓reduceIte, copyToLocation, ht, hu] at h
  obtain ⟨-, _, ⟨_, ⟨⟩, _, ⟨⟩, h⟩, -⟩ := h
  simp only [ne_eq, reduceCtorEq, not_false_eq_true, ↓reduceIte, bind_eq_ok] at h
  obtain ⟨⟨⟩, hinputs, ⟨⟩, houtputs, ⟨⟩, htrashes, -⟩ := h
  exact ⟨assertWithin_ok hinputs, assertWithin_ok houtputs, assertWithin_ok htrashes⟩

end Focus

/-! ### What is held -/

/-- Whatever code is held goes with the signature that the type of its holder asks for. -/
def Storage.Holds (symbols : Symbols) (P : Executable → Signature → Prop) (st : Storage) : Prop :=
  ∀ h e, st.held h e → ∀ ty limit, symbols.typeOf? h = some ty → ty.holds? = some limit → P e limit

/-- The code of a routine: its own, unless it is local. -/
def Setting.code (s : Setting) (name : String) (sig : Signature) : Executable :=
  if s.isLocal name then .foreign sig else .routine name

theorem Storage.codes_routine
    (hty : s.typeOfName name = .ok (.routine sig)) : st.codes s (.location name) e ↔ e = s.code name sig := by
  simp only [codes, hty, Setting.code]

/-- The code of a routine has the signature of its type. -/
theorem Setting.signature_code (hty : s.typeOfName name = .ok (.routine sig)) :
    s.symbols.signature? (s.code name sig) = some sig := by
  rcases s.typeOfName_cases hty with hlocal | ⟨hlocal, hglobal⟩
  · simp [code, s.isLocal_eq, hlocal, Symbols.signature?]
  · simp [code, s.isLocal_eq, hlocal, Symbols.signature?, Symbols.routine?, hglobal]

/-- What is not the code of a routine is held. -/
theorem Storage.held_of_codes
    (hty : s.typeOfName name = .ok ty) (hlimit : ty.holds? = some limit) (he : st.codes s (.location name) e) :
    st.held (s.holder (.location name)) e := by
  cases ty with
  | routine => cases hlimit
  | _ => simpa only [codes, hty] using he

section Copies

variable {P : Executable → Signature → Prop}

theorem Storage.Holds.of_name (h : st.Holds s.symbols P) (hty : s.typeOfName name = .ok ty) (hlimit : ty.holds? = some limit)
    (he : st.held (s.holder (.location name)) e) : P e limit :=
  h _ e he ty limit (s.typeOf?_holder hty) hlimit

/-- An accepted operation moves code only to where the same signature is asked for, unless it copies a routine into a
vector. -/
theorem Focus.single_keepsHeld (h : f.single cx op = .ok cx')
    (hsame : ∀ m sig, f.setting.typeOfName m = .ok (.routine sig) → P (f.setting.code m sig) sig)
    (hwithin : ∀ m name sig limit, op = .copy (.location m) (.location name) →
      f.setting.typeOf (.location m) = .ok (.routine sig) →
      f.setting.typeOf (.location name) = .ok (.vector (.routine limit)) → P (f.setting.code m sig) limit)
    (env : Pointees) (hheld : st.Holds f.setting.symbols P) : (st.operate f.setting env op).Holds f.setting.symbols P := by
  cases op with
  | copy src d =>
    have hgo := single_ok_terminated h
    simp only [single, hgo, Bool.false_eq_true, ↓reduceIte] at h
    intro k e he
    obtain ⟨-, cx1, hcopies, -⟩ := copy_ok h
    change st.copied f.setting src d k e at he
    cases hcopies with
    | betweenIndirect | toIndirect => exact hheld k e he
    | fromIndirect =>
      simp only [Storage.copied] at he
      split at he
      · cases he
      · exact hheld k e he
    | @fromCell base offset index name t u htb htd hfit hr _ =>
      obtain ⟨_, tb, _, _, _, _, _, -, rfl, -⟩ := Context.assertInRange_ok hr
      simp only [Storage.copied] at he
      split at he
      · next heq =>
        subst heq
        rintro ty limit hty hlimit
        obtain rfl : u = ty := Option.some.inj ((Setting.typeOf?_holder htd).symm.trans hty)
        refine hheld.of_name htb ?_ he
        obtain ⟨cell, size, rfl⟩ := fitsLocation_table hfit
        cases u with
        | vector of =>
          have heq : cell.target = of.target := Ty.target_eq_of_compatible (by simpa [fitsLocation] using hfit)
          simpa only [Ty.holds?, heq] using hlimit
        | table => cases cell <;> simp [fitsLocation] at hfit
        | _ => cases hlimit
      · exact hheld k e he
    | @toCell src base offset index t u hts htb hfit hr _ =>
      obtain ⟨_, tb, _, _, _, _, _, -, rfl, -⟩ := Context.assertInRange_ok hr
      rcases he with he | ⟨rfl, he⟩
      · exact hheld k e he
      · rintro ty limit hty hlimit
        obtain rfl : u = ty := Option.some.inj ((Setting.typeOf?_holder htb).symm.trans hty)
        obtain ⟨cell, size, rfl⟩ := fitsCell_table hfit
        cases src with
        | location m =>
          cases t with
          | vector of =>
            have heq : of.target = cell.target := Ty.target_eq_of_compatible (by simpa [fitsCell] using hfit)
            have hlimit' : (Ty.vector of).holds? = some limit := by simpa only [Ty.holds?, heq] using hlimit
            exact hheld.of_name hts hlimit' (Storage.held_of_codes hts hlimit' he)
          | routine sig =>
            have heq : (Ty.routine sig).target = cell.target :=
              Ty.target_eq_of_compatible (by simpa [fitsCell] using hfit)
            obtain rfl : sig = limit := by
              simp only [Ty.holds?, ← heq] at hlimit
              exact Option.some.inj hlimit
            rw [(Storage.codes_routine hts).1 he]
            exact hsame m sig hts
          | word =>
            obtain rfl : cell = .word := by cases cell <;> simp [fitsCell] at hfit ⊢
            cases hlimit
          | _ => simp [fitsCell] at hfit
        | indexed => cases hts
        | _ => cases he
    | @toLocation src name t u hts htd hcase _ =>
      simp only [Storage.copied] at he
      split at he
      · next heq =>
        subst heq
        rintro ty limit hty hlimit
        obtain rfl : u = ty := Option.some.inj ((Setting.typeOf?_holder htd).symm.trans hty)
        cases src with
        | location m =>
          rcases hcase with rfl | ⟨sig, limit', rfl, rfl⟩
          · exact hheld.of_name hts hlimit (Storage.held_of_codes hts hlimit he)
          · obtain rfl : limit' = limit := by simpa [Ty.holds?, Ty.target] using hlimit
            rw [(Storage.codes_routine hts).1 he]
            exact hwithin m name sig limit' rfl hts htd
        | indexed => cases hts
        | _ => cases he
      · exact hheld k e he
  | _ => exact hheld

/-- An accepted operation keeps every vector to code that fits it. -/
theorem Focus.single_keepsTyped (h : f.single cx op = .ok cx') (hdelivers : f.setting.Delivers op) : f.setting.KeepsTyped op := by
  intro st env
  refine single_keepsHeld h (fun m sig hty => ⟨sig, Setting.signature_code hty, .refl sig⟩) ?_ env
  rintro m name sig limit rfl hts htd
  have hgo := single_ok_terminated h
  simp only [single, hgo, Bool.false_eq_true, ↓reduceIte] at h
  obtain ⟨hinputs, houtputs, htrashes⟩ := copy_within h hts htd
  have hall := hdelivers sig limit hts htd
  exact ⟨sig, Setting.signature_code hts, hinputs, fun o => ⟨@houtputs o, @hall o⟩, htrashes⟩

end Copies

/-! ### The operations of an accepted block -/

mutual

/-- Every single operation in an instruction that was walked through has been accepted. -/
theorem Instr.walk_ops (s : Setting) (i : Instr) {t t' : Trail} (hw : i.walk s t = .ok t') :
    ∀ op ∈ i.ops, ∃ f : Focus, f.setting = s ∧ ∃ cx cx', f.single cx op = .ok cx' := by
  cases Instr.walked hw with
  | @op _ _ cx h =>
    intro op' hop
    obtain rfl := List.mem_singleton.1 hop
    exact ⟨_, rfl, _, cx, h⟩
  | call => simp [Instr.ops]
  | goto => simp [Instr.ops]
  | reset => simp [Instr.ops]
  | ifThen yes h1 => exact yes.walk_ops s h1
  | ifElse yes no h1 h2 => exact List.forall_mem_append.2 ⟨yes.walk_ops s h1, no.walk_ops s h2⟩
  | loop body h1 => exact body.walk_ops s h1
  | count body _ h1 => exact body.walk_ops s h1
  | interruptsOff body h => exact body.walk_ops s h
  | save body _ h1 => exact body.walk_ops s h1
  | pointInto body _ h1 => exact body.walk_ops s h1

theorem Block.walk_ops (s : Setting) : ∀ (b : Block) {t t' : Trail}, b.walk s t = .ok t' → ∀ op ∈ b.ops,
    ∃ f : Focus, f.setting = s ∧ ∃ cx cx', f.single cx op = .ok cx'
  | .nil _, t, t', h => by simp [Block.ops]
  | .cons head tail, t, t', h => by
    obtain ⟨t1, h1, h2⟩ := bind_eq_ok.1 h
    exact List.forall_mem_append.2 ⟨head.walk_ops s h1, tail.walk_ops s h2⟩

end

end CheckedAsm
