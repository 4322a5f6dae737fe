import CheckedAsm.Proofs.Analysis.Scopes
import CheckedAsm.Proofs.Codegen.Inversion
/-! # Setting bytes aside together or one within the other

Bytes that are set aside together might as well be set aside one within the other, the first one outermost. Both are accepted in the
same places. Inside, the accumulator is spoiled once more each time that a byte is taken back, but the outermost byte decides what is
known about it in the end. The code is the same. -/

namespace CheckedAsm

open Codegen Context List

variable {line : Nat} {r : Ref} {rest : List (Nat × Ref)} {body : Block} {rs : List Ref}

/-- Sets bytes aside one within the other. Each stands on a line of its own. -/
def Instr.nestedSaves (body : Block) : Nat → Ref → List (Nat × Ref) → Instr
  | line, r, [] => .save line [r] body
  | line, r, (inner, q) :: rest => .save line [r] (.cons (nestedSaves body inner q rest) (.nil inner))

/-- The trails agree in all but the order in which things were touched, got their ranges and came to be writeable. -/
structure Trail.Same (t t' : Trail) : Prop where
  touched : ∀ r, r ∈ t.cx.touched ↔ r ∈ t'.cx.touched
  range : ∀ r, t.cx.range? r = t'.cx.range? r
  writeable : ∀ r, r ∈ t.cx.writeable ↔ r ∈ t'.cx.writeable
  terminated : t.cx.terminated = t'.cx.terminated
  gotos : t.cx.gotos = t'.cx.gotos
  assoc : t.cx.getAssoc = t'.cx.getAssoc
  exits : t.exits = t'.exits
  calls : t.calls = t'.calls

section

variable {s : Setting} {t t' t1 t2 : Trail}

/-- A byte that is set aside around others is one of them, and the outermost. -/
theorem Trail.Saves.around {q : Ref} (hin : (t.aside [r]).Saves (q :: rs) t2 t1) (hout : t.Saves [r] t1 t') :
    t.Saves (r :: q :: rs) t2 t' := by
  have hrange : (t.aside [r]).cx.range? = t.cx.range? := rfl
  have htouched : (t.aside [r]).cx.touched = t.cx.touched := rfl
  have hknown : ∀ x, (t'.cx.range? x = if x = .a ∧ (r :: q :: rs).head? ≠ some .a then none
      else if x ∈ r :: q :: rs then t.cx.range? x else t2.cx.range? x)
      ∧ (x ∈ t'.cx.touched ↔ (if x ∈ r :: q :: rs then x ∈ t.cx.touched else x ∈ t2.cx.touched)
        ∨ (x = .a ∧ (r :: q :: rs).head? ≠ some .a)) := by
    intro x
    rw [hout.range, hin.range, hout.touched, hin.touched, hrange, htouched]
    -- What is known inside about the accumulator matters only if it is the outermost byte, and then it is known anyway.
    by_cases hx : x = r
    · simp [hx]
    · by_cases ha : x = .a
      · simp [ha, Ne.symm (ha ▸ hx)]
      · simp [hx, ha]
  exact ⟨fun x => (hknown x).1, fun x => (hknown x).2, hout.gotos.trans hin.gotos, hout.terminated.trans hin.terminated,
    hout.exits.trans hin.exits, hout.calls.trans hin.calls⟩

theorem Block.walk_single {i : Instr} : (Block.cons i (.nil line)).walk s t = i.walk s t := by
  cases h : i.walk s t <;> simp [Block.walk, h, bind, Except.bind]

theorem Instr.walk_nestedSaves (h : (nestedSaves body line r rest).walk s t = .ok t') :
    (∀ q ∈ r :: rest.map (·.2), s.typeOf q = .ok .byte)
      ∧ ∃ t1, body.walk s (t.aside (r :: rest.map (·.2))) = .ok t1 ∧ t1.cx.gotos = [] ∧ t.Saves (r :: rest.map (·.2)) t1 t' := by
  induction rest generalizing line r t t' with
  | nil => exact walk_save h
  | cons x rest ih =>
    obtain ⟨hr, t1, h1, -, hout⟩ := walk_save h
    rw [Block.walk_single] at h1
    obtain ⟨hbytes, t2, h2, hnone, hin⟩ := ih h1
    refine ⟨?_, t2, h2, hnone, hin.around hout⟩
    exact forall_mem_cons.2 ⟨hr r (mem_singleton_self r), hbytes⟩

theorem Instr.walk_nestedSaves_of (hbytes : ∀ q ∈ r :: rest.map (·.2), s.typeOf q = .ok .byte)
    (h1 : body.walk s (t.aside (r :: rest.map (·.2))) = .ok t1) (hnone : t1.cx.gotos = []) :
    ∃ t', (nestedSaves body line r rest).walk s t = .ok t' := by
  induction rest generalizing line r t with
  | nil => exact walk_save_of hbytes h1 hnone
  | cons x rest ih =>
    obtain ⟨hr, hbytes⟩ := forall_mem_cons.1 hbytes
    obtain ⟨t2, h2⟩ := @ih x.1 x.2 (t.aside [r]) hbytes h1
    obtain ⟨-, t3, h3, hnone3, hin⟩ := walk_nestedSaves h2
    refine walk_save_of (forall_mem_singleton.2 hr) (Block.walk_single.trans h2) ?_
    rw [hin.gotos, hnone3]

end

/-! ### Code -/

section

variable {cs : CodeSetting} {st : CodeState} {f : Ref → Except Fault (List Code)}

theorem CodeState.codes_append (xs ys : List Code) : st.codes (xs ++ ys) = (st.codes xs).codes ys := by
  simp [CodeState.codes, CodeState.withEmitter, Emitter.codes]

theorem forEach_append (qs : List Ref) :
    forEach f (qs ++ rs) = forEach f qs >>= fun ks => forEach f rs >>= fun ks' => pure (ks ++ ks') := by
  simp only [forEach, mapM_append, bind_assoc, pure_bind, flatten_append]

theorem Instr.compile_save_cons (inner last : Nat) :
    (Instr.save line (r :: rs) body).compile cs st = (Instr.save line [r] (.cons (.save inner rs body) (.nil last))).compile cs st := by
  have hfirst : r :: rs = [r] ++ rs := rfl
  simp only [Instr.compile, Block.compile]
  rw [hfirst, reverse_append, forEach_append, forEach_append]
  simp only [bind_assoc, pure_bind, CodeState.codes_append]
  rfl

theorem Instr.compile_nestedSaves {outer : Nat} :
    (nestedSaves body outer r rest).compile cs st = (Instr.save line (r :: rest.map (·.2)) body).compile cs st := by
  induction rest generalizing outer r st with
  | nil => simp only [nestedSaves, Instr.compile, map_nil]
  | cons x rest ih =>
    rw [map_cons, compile_save_cons line x.1]
    simp only [nestedSaves, Instr.compile, Block.compile, ih]

end

/-- Bytes set aside together and one within the other: the one is accepted where the other is, and leads to the same trail; and they
become the same code, or fail to become code in the same way. -/
theorem Instr.save_as_nested (body : Block) (line outer : Nat) (r : Ref) (rest : List (Nat × Ref)) :
    let flat := Instr.save line (r :: rest.map (·.2)) body
    let nested := nestedSaves body outer r rest
    (∀ s t, Option.Rel Trail.Same (flat.walk s t).toOption (nested.walk s t).toOption)
      ∧ ∀ cs st, flat.compile cs st = nested.compile cs st := by
  intro flat nested
  refine ⟨fun s t => ?_, fun cs st => compile_nestedSaves.symm⟩
  cases hflat : flat.walk s t with
  | error f =>
    cases hnested : nested.walk s t with
    | error g => exact .none
    | ok t' =>
      obtain ⟨hbytes, t₁, h₁, hnone, -⟩ := walk_nestedSaves hnested
      obtain ⟨u, hu⟩ : ∃ u, flat.walk s t = .ok u := walk_save_of hbytes h₁ hnone
      cases hflat.symm.trans hu
  | ok t' =>
    obtain ⟨hbytes, t₁, h₁, hnone, hsaves⟩ := walk_save hflat
    obtain ⟨u, hu⟩ : ∃ u, nested.walk s t = .ok u := walk_nestedSaves_of hbytes h₁ hnone
    obtain ⟨-, u₁, hu₁, -, husaves⟩ := walk_nestedSaves hu
    cases h₁.symm.trans hu₁
    rw [hu]
    refine .some ⟨fun x => ?_, fun x => ?_, fun x => ?_, ?_, ?_, ?_, ?_, ?_⟩
    · rw [hsaves.touched, husaves.touched]
    · rw [hsaves.range, husaves.range]
    · rw [((flat.walk_orderly s hflat).restores x).1, ((nested.walk_orderly s hu).restores x).1]
    · rw [hsaves.terminated, husaves.terminated]
    · rw [hsaves.gotos, husaves.gotos]
    · rw [(flat.walk_keeps s hflat).assoc, (nested.walk_keeps s hu).assoc]
    · rw [hsaves.exits, husaves.exits]
    · rw [hsaves.calls, husaves.calls]

end CheckedAsm
