import CheckedAsm.Proofs.Analysis.Transfers
/-! # Two walks side by side

What a walk through a block finds does not hang on all that its context knows. Two contexts are alike if they differ in no more than is
given leave to: not at all, in that the second one has values where the first has none, or in the ranges of values. Each operation,
done in alike contexts, is accepted in the second one if it is in the first, and leaves alike contexts behind; only where ranges may
be others can it fail there, and then at a range. -/

namespace CheckedAsm

open Context Focus List

variable {w : Leeway} {s : Setting} {r : Ref} {o o' : Option Range} {v v' widest : Range} {α β : Type} {c : Prop} {e e' : Fault}
  {both both' cx cx' cx1 cx1' cx2 cx2' : Context} {rs rs' : List Ref} {rule : Rule} {note : Option String} {t t' : Trail}

/-- Whether the fault is about a range: it is too wide, or its ends cannot be compared. -/
def Fault.isRange : Fault → Bool
  | .rejected .rangeExceeded .. | .incomparable => true
  | _ => false

/-- How the second of two contexts may differ from the first: not at all; by any value of its type in some locations that have none in
the first; or by other ranges. -/
inductive Leeway where
  | exact
  | more (extra : Set Ref)
  | lax

namespace Leeway

/-- Whether a location may have these two ranges in two contexts. Ranges of constants are never looked at. -/
def Admits (w : Leeway) (s : Setting) (r : Ref) (o o' : Option Range) : Prop :=
  match w with
  | exact => o' = o
  | more extra => o' = o ∨ (r ∈ extra ∧ o = none ∧ ∃ v, s.maxRange r = .ok v ∧ o' = some v)
  | lax => (∃ c, r = .constant c) ∨ o'.isSome = o.isSome

/-- Whether what was found in the second context may stand for what was found in the first. -/
def Near (w : Leeway) {α : Type} (a a' : α) : Prop := w = lax ∨ a' = a

theorem Near.refl (a : α) : w.Near a a := .inr rfl

theorem Near.map {a a' : α} (h : w.Near a a') (f : α → β) : w.Near (f a) (f a') := h.imp id (congrArg f)

theorem Near.admits (h : w.Near v v') : w.Admits s r (some v) (some v') := by
  cases w with
  | lax => exact .inr rfl
  | exact => exact congrArg some (h.resolve_left nofun)
  | more extra => exact .inl (congrArg some (h.resolve_left nofun))

theorem Admits.refl : w.Admits s r o o := by
  cases w with
  | lax => exact .inr rfl
  | exact => rfl
  | more extra => exact .inl rfl

theorem Admits.near (h : w.Admits s r (some v) (some v')) : w.Near v v' := by
  cases w with
  | exact => exact .inr (Option.some.inj h)
  | more extra =>
    obtain h | ⟨-, ⟨⟩, -⟩ := h
    exact .inr (Option.some.inj h)
  | lax => exact .inl rfl

theorem Admits.of_none (h : w.Admits s r (some v) none) : w = lax ∧ ∃ c, r = .constant c := by
  cases w with
  | exact => cases h
  | more extra => obtain ⟨⟨⟩⟩ | ⟨-, ⟨⟩, -⟩ := h
  | lax => exact ⟨rfl, h.resolve_right nofun⟩

theorem Admits.near_max (h : w.Admits s r none (some v')) (hv : s.maxRange r = .ok v) : w.Near v v' := by
  cases w with
  | exact => cases h
  | more extra =>
    obtain ⟨⟨⟩⟩ | ⟨-, -, m, hm, hv'⟩ := h
    rw [hv, Except.ok.injEq] at hm
    exact .inr (hm ▸ Option.some.inj hv')
  | lax => exact .inl rfl

/-- The second computation comes to a related end wherever the first one comes to one. If ranges may be others it may also fail at one. -/
def Meets (w : Leeway) {α β : Type} (R : α → β → Prop) (x : Except Fault α) (y : Except Fault β) : Prop :=
  ∀ a, x = .ok a → (∃ b, y = .ok b ∧ R a b) ∨ (w = lax ∧ ∃ f, y = .error f ∧ f.isRange = true)

/-- The second check is passed wherever the first one is, unless it fails at a range. -/
def Passes (w : Leeway) (x y : Except Fault Unit) : Prop := w.Meets (fun _ _ => True) x y

namespace Meets

variable {γ δ : Type} {R : α → β → Prop} {R' : α → α → Prop} {S : γ → δ → Prop} {x : Except Fault α} {y : Except Fault β}

theorem error {f : Fault} : w.Meets R (.error f) y := nofun

theorem ok {a : α} {b : β} (h : R a b) : w.Meets R (.ok a) (.ok b) := by
  rintro _ ⟨⟩
  exact .inl ⟨b, rfl, h⟩

theorem bind {f : α → Except Fault γ} {g : β → Except Fault δ} (h : w.Meets R x y) (hf : ∀ a b, R a b → w.Meets S (f a) (g b)) :
    w.Meets S (x >>= f) (y >>= g) := by
  intro c hc
  obtain ⟨a, ha, hc⟩ := bind_eq_ok.1 hc
  rcases h a ha with ⟨b, rfl, hab⟩ | ⟨hw, e, rfl, he⟩
  · exact hf a b hab c hc
  · exact .inr ⟨hw, e, rfl, he⟩

theorem same {f : α → Except Fault γ} {g : α → Except Fault δ} (hf : ∀ a, x = .ok a → w.Meets S (f a) (g a)) :
    w.Meets S (x >>= f) (x >>= g) := by
  intro c hc
  obtain ⟨a, ha, hc⟩ := bind_eq_ok.1 hc
  simpa [ha, Except.bind, Bind.bind] using hf a ha c hc

theorem check {x y : Except Fault Unit} {k : Except Fault γ} {l : Except Fault δ} (h : w.Passes x y) (hk : w.Meets S k l) :
    w.Meets S (x >>= fun _ => k) (y >>= fun _ => l) :=
  Meets.bind h fun _ _ _ => hk

theorem map {f : α → γ} {g : β → δ} (h : w.Meets R x y) (hf : ∀ a b, R a b → S (f a) (g b)) : w.Meets S (x.map f) (y.map g) := by
  intro c hc
  obtain ⟨a, ha, rfl⟩ := map_eq_ok.1 hc
  rcases h a ha with ⟨b, rfl, hab⟩ | ⟨hw, e, rfl, he⟩
  · exact .inl ⟨g b, rfl, hf a b hab⟩
  · exact .inr ⟨hw, e, rfl, he⟩

theorem ite [Decidable c] {x' : Except Fault α} {y' : Except Fault β} (h : c → w.Meets R x y) (h' : ¬ c → w.Meets R x' y') :
    w.Meets R (if c then x else x') (if c then y else y') := by
  by_cases hc : c
  · simpa only [if_pos hc] using h hc
  · simpa only [if_neg hc] using h' hc

/-- A condition that does not hang on the context. -/
theorem guard [Decidable c] (h : ¬ c → w.Meets R x y) : w.Meets R (if c then .error e else x) (if c then .error e' else y) :=
  .ite (fun _ => .error) h

/-- A condition that hangs on what was found: where it holds in the second context only, it is about a range. -/
theorem guards {c c' : Bool} (hc : w.Near c c') (he : e'.isRange = true) (h : w.Meets R x y) :
    w.Meets R (if c = true then .error e else x) (if c' = true then .error e' else y) := by
  rcases hc with hw | rfl
  · intro a ha
    split at ha
    · cases ha
    · split
      · exact .inr ⟨hw, e', rfl, he⟩
      · exact h a ha
  · exact .guard fun _ => h

/-- A condition that has to hold. -/
theorem choose {c c' : Bool} {a a' : α} (hc : w.Near c c') (he : e'.isRange = true) (h : w.Near a a') :
    w.Meets w.Near (if c = true then .ok a else .error e) (if c' = true then .ok a' else .error e') := by
  cases c with
  | false => exact .error
  | true =>
    cases c' with
    | false => exact fun _ _ => .inr ⟨hc.resolve_right nofun, e', rfl, he⟩
    | true => exact .ok h

theorem self (hR : ∀ a, R' a a) : w.Meets R' x x := by
  intro a ha
  exact .inl ⟨a, ha, hR a⟩

/-- Computations from near data, which fail at ranges only. -/
theorem near {x y : Except Fault α} (heq : y = x ∨ w = lax) (h : ∀ f, y = .error f → f.isRange = true) : w.Meets w.Near x y := by
  intro a ha
  rcases heq with rfl | hw
  · exact .inl ⟨a, ha, .refl a⟩
  · cases y with
    | error f => exact .inr ⟨hw, f, rfl, h f (rfl)⟩
    | ok b => exact .inl ⟨b, rfl, .inl hw⟩

theorem mono {T : α → β → Prop} (h : w.Meets R x y) (hT : ∀ a b, x = .ok a → y = .ok b → R a b → T a b) : w.Meets T x y := by
  intro a ha
  rcases h a ha with ⟨b, hb, hab⟩ | hfault
  · exact .inl ⟨b, hb, hT a b ha hb hab⟩
  · exact .inr hfault

theorem facts (h : w.Meets R x y) : w.Meets (fun a b => x = .ok a ∧ y = .ok b ∧ R a b) x y :=
  h.mono fun _ _ ha hb hab => ⟨ha, hb, hab⟩

theorem forM {l : List α} {f g : α → Except Fault Unit} (h : ∀ a ∈ l, w.Passes (f a) (g a)) : w.Passes (l.forM f) (l.forM g) := by
  induction l with
  | nil => exact .ok trivial
  | cons a l ih => exact .check (h a mem_cons_self) (ih fun b hb => h b (mem_cons_of_mem _ hb))

theorem foldlM {l : List γ} {f : α → γ → Except Fault α} {g : β → γ → Except Fault β} {a : α} {b : β} (hab : R a b)
    (h : ∀ a b c, R a b → w.Meets R (f a c) (g b c)) : w.Meets R (l.foldlM f a) (l.foldlM g b) := by
  induction l generalizing a b with
  | nil => exact .ok hab
  | cons c l ih => exact .bind (h a b c hab) fun a b hab => ih hab

end Meets

end Leeway

section

variable {b b' : Bound} {n n' : Int}

/-- A bound is found near, or cannot be compared. -/
theorem Bound.near {f : Bound → Int → Except Fault α} (hf : ∀ b n e, f b n = .error e → e.isRange = true)
    (hb : w.Near b b') (hn : w.Near n n') : w.Meets w.Near (f b n) (f b' n') := by
  refine .near ?_ (hf b' n')
  rcases hb with hw | rfl
  · exact .inr hw
  · rcases hn with hw | rfl
    · exact .inr hw
    · exact .inl rfl

theorem Bound.plus_near (hb : w.Near b b') (hn : w.Near n n') : w.Meets w.Near (b.plus n) (b'.plus n') :=
  near (f := plus) (fun b n e h => by cases b <;> cases h <;> rfl) hb hn

theorem Bound.above_near (hb : w.Near b b') (hn : w.Near n n') : w.Meets w.Near (b.above n) (b'.above n') :=
  near (f := above) (fun b n e h => by cases b <;> cases h <;> rfl) hb hn

theorem Bound.below_near (hb : w.Near b b') (hn : w.Near n n') : w.Meets w.Near (b.below n) (b'.below n') :=
  near (f := below) (fun b n e h => by cases b <;> cases h <;> rfl) hb hn

end

/-- Two contexts that differ in no more than the leeway allows. -/
structure Context.Alike (s : Setting) (w : Leeway) (cx cx' : Context) : Prop where
  range : ∀ r, w.Admits s r (cx.range? r) (cx'.range? r)
  touched : w = .exact → ∀ r, r ∈ cx.touched ↔ r ∈ cx'.touched
  nodup : cx.writeable.Nodup ∧ cx'.writeable.Nodup
  writeable : ∀ r, r ∈ cx.writeable ↔ r ∈ cx'.writeable
  terminated : cx'.terminated = cx.terminated
  gotos : ∀ r, r ∈ cx.gotos ↔ r ∈ cx'.gotos
  assoc : cx'.getAssoc = cx.getAssoc

namespace Context.Alike

variable {q : Ref}

theorem refl (hw : cx.writeable.Nodup) : Alike s w cx cx :=
  ⟨fun _ => .refl, fun _ _ => .rfl, ⟨hw, hw⟩, fun _ => .rfl, rfl, fun _ => .rfl, rfl⟩

theorem trans (h : Alike s .exact cx cx1) (h' : Alike s w cx1 cx') : Alike s w cx cx' :=
  ⟨fun r => (h.range r : cx1.range? r = _) ▸ h'.range r, fun hw r => (h.touched rfl r).trans (h'.touched hw r), ⟨h.nodup.1, h'.nodup.2⟩,
    fun r => (h.writeable r).trans (h'.writeable r), h'.terminated.trans h.terminated, fun r => (h.gotos r).trans (h'.gotos r),
    h'.assoc.trans h.assoc⟩

/-- What is done in both contexts meets, and leaves alike contexts. -/
def Meets (_ : Alike s w cx cx') (f : Context → Except Fault Context) : Prop := w.Meets (Alike s w) (f cx) (f cx')

/-! ### Checks -/

section

variable (h : Alike s w cx cx')
include h

theorem found (hr : ∀ c, r ≠ .constant c) (hv : cx.range? r = some v) :
    ∃ v', cx'.range? r = some v' ∧ w.Near v v' := by
  have hadmits := h.range r
  rw [hv] at hadmits
  cases hv' : cx'.range? r with
  | none =>
    rw [hv'] at hadmits
    obtain ⟨-, c, rfl⟩ := hadmits.of_none
    exact absurd rfl (hr c)
  | some v' => exact ⟨v', rfl, (hv' ▸ hadmits).near⟩

theorem requireRange (hr : ∀ c, r ≠ .constant c) : w.Passes (cx.requireRange s rule note r) (cx'.requireRange s rule note r) := by
  intro _ hok
  unfold Context.requireRange at hok ⊢
  split at hok
  · next hheld =>
    obtain ⟨v, hv⟩ := Option.isSome_iff_exists.1 hheld
    obtain ⟨v', hv', -⟩ := h.found hr hv
    rw [isMeaningful_eq, hv']
    exact .inl ⟨(), rfl, trivial⟩
  · cases hok

theorem assertMeaningfulAs (r : Ref) : w.Passes (cx.assertMeaningfulAs s rule note r) (cx'.assertMeaningfulAs s rule note r) := by
  induction r with
  | constant c => exact .ok trivial
  | indirect base => exact .error
  | indexed base offset index hbase _ hindex => exact .check hbase hindex
  | pending n site => exact .ite (fun _ => h.requireRange fun _ h => by cases h) fun _ => .error
  | location n =>
    refine .ite (fun _ => h.requireRange fun _ h => by cases h) fun _ => ?_
    cases s.isConstant (.location n) with
    | error f => exact .error
    | ok constant =>
      cases constant with
      | true => exact .ok trivial
      | false => exact h.requireRange fun _ h => by cases h

theorem assertMeaningful (r : Ref) : w.Passes (cx.assertMeaningful s r) (cx'.assertMeaningful s r) :=
  h.assertMeaningfulAs r

theorem assertAllMeaningful (rs : List Ref) :
    w.Passes (cx.assertAllMeaningful s rs) (cx'.assertAllMeaningful s rs) :=
  .forM fun r _ => h.assertMeaningful r

theorem assertTest (src : Option Ref) :
    w.Passes (src.forM (cx.assertMeaningful s)) (src.forM (cx'.assertMeaningful s)) := by
  cases src with
  | none => exact .ok trivial
  | some r => exact h.assertMeaningful r

theorem assertWriteable (r : Ref) : w.Passes (cx.assertWriteable s note r) (cx'.assertWriteable s note r) := by
  refine .ite (fun _ => .ok trivial) fun _ => ?_
  simp only [contains_iff_mem, h.writeable]
  exact .ite (fun _ => .ok trivial) fun _ => .error

theorem rangeOf_of_held (hheld : (cx'.range? r).isSome = true) :
    w.Meets w.Near (cx.rangeOf r) (cx'.rangeOf r) := by
  intro v hv
  obtain ⟨v', hv'⟩ := Option.isSome_iff_exists.1 hheld
  have hadmits := h.range r
  rw [rangeOf_ok hv, hv'] at hadmits
  refine .inl ⟨v', ?_, hadmits.near⟩
  unfold Context.rangeOf
  rw [show cx'.ranges.get? r = some v' from hv']

theorem rangeOf (hr : ∀ c, r ≠ .constant c) : w.Meets w.Near (cx.rangeOf r) (cx'.rangeOf r) := by
  intro v hv
  obtain ⟨v', hv', -⟩ := h.found hr (rangeOf_ok hv)
  exact h.rangeOf_of_held (by rw [hv']; rfl) v hv

theorem getRange (r : Ref) : w.Meets w.Near (cx.getRange s r) (cx'.getRange s r) := by
  cases r with
  | constant c => exact .ok (.refl _)
  | _ => exact .check (h.assertMeaningful _) (h.rangeOf fun _ h => by cases h)

theorem rangeOrMax (r : Ref) {R : α → β → Prop} {k : Range → Except Fault α}
    {l : Range → Except Fault β} (hk : ∀ v v', w.Near v v' → w.Meets R (k v) (l v')) :
    w.Meets R (match cx.ranges.get? r with
      | some range => pure range >>= k
      | none => s.maxRange r >>= k) (match cx'.ranges.get? r with
      | some range => pure range >>= l
      | none => s.maxRange r >>= l) := by
  have hadmits := h.range r
  unfold range? at hadmits
  cases hv : cx.ranges.get? r with
  | none =>
    cases hv' : cx'.ranges.get? r with
    | none => exact .same fun m _ => hk m m (.refl m)
    | some v' =>
      rw [hv, hv'] at hadmits
      intro a ha
      obtain ⟨m, hm, ha⟩ := bind_eq_ok.1 ha
      exact hk m v' (hadmits.near_max hm) a ha
  | some v =>
    cases hv' : cx'.ranges.get? r with
    | none =>
      rw [hv, hv'] at hadmits
      obtain ⟨hw, c, rfl⟩ := hadmits.of_none
      exact hk v _ (.inl hw)
    | some v' => exact hk v v' (hv' ▸ hv ▸ hadmits).near

theorem assertInRange (index table offset : Ref) :
    w.Passes (cx.assertInRange s index table offset) (cx'.assertInRange s index table offset) := by
  unfold Context.assertInRange
  cases index with
  | location n =>
    cases table with
    | location m =>
      refine .bind (h.rangeOf fun _ h => by cases h) fun has has' hhas => h.rangeOrMax _ fun allowed allowed' hallowed => ?_
      cases offset with
      | constant c =>
        refine .bind (Bound.plus_near (hhas.map Range.bottom) (.refl _)) fun low low' hlow => ?_
        refine .bind (Bound.above_near (hallowed.map Range.bottom) hlow) fun above above' habove => .guards habove rfl ?_
        refine .bind (Bound.plus_near (hhas.map Range.top) (.refl _)) fun high high' hhigh => ?_
        refine .bind (Bound.below_near (hallowed.map Range.top) hhigh) fun below below' hbelow => ?_
        exact .guards hbelow rfl (.ok trivial)
      | _ => exact .error
    | _ => exact .error
  | _ => exact .error

/-! ### Changes -/

theorem touch (q : Ref) : Alike s w (cx.touch q) (cx'.touch q) :=
  { h with touched := fun hw r => by simp only [Context.touch, mem_insert_iff, h.touched hw r] }

theorem forget (q : Ref) : Alike s w (cx.forget q) (cx'.forget q) := by
  refine { h with range := fun r => ?_ }
  rw [range?_forget, range?_forget]
  split
  · exact .refl
  · exact h.range r

theorem spoil (q : Ref) : Alike s w (cx.spoil q) (cx'.spoil q) := (h.touch q).forget q

omit h in
theorem foldl {g : Context → Ref → Context} (hg : ∀ {cx cx'}, Alike s w cx cx' → ∀ r, Alike s w (g cx r) (g cx' r))
    (h : Alike s w cx cx') (rs : List Ref) : Alike s w (rs.foldl g cx) (rs.foldl g cx') := by
  induction rs generalizing cx cx' with
  | nil => exact h
  | cons r rs ih => exact ih (hg h r)

theorem putRange (q : Ref) (hv : w.Near v v') : Alike s w (cx.putRange q v) (cx'.putRange q v') := by
  refine { h with range := fun r => ?_ }
  rw [range?_putRange, range?_putRange]
  split
  · exact hv.admits
  · exact h.range r

theorem branch : Alike s w cx.branch cx'.branch := { h with terminated := rfl }

theorem unlock (q : Ref) : Alike s w (cx.unlock q) (cx'.unlock q) :=
  { h with
    nodup := ⟨h.nodup.1.insert, h.nodup.2.insert⟩
    writeable := fun r => by simp only [Context.unlock, mem_insert_iff, h.writeable r] }

theorem setAssoc (pointer : Ref) (o : Option Ref) :
    Alike s w (cx.setAssoc pointer o) (cx'.setAssoc pointer o) := by
  cases o with
  | none => exact { h with assoc := funext fun q => by rw [getAssoc_unsetAssoc, getAssoc_unsetAssoc, h.assoc] }
  | some table => exact { h with assoc := funext fun q => by rw [getAssoc_setAssoc, getAssoc_setAssoc, h.assoc] }

theorem meetGotos {l l' : List Ref} (hl : ∀ r, r ∈ l ↔ r ∈ l') :
    Alike s w (cx.meetGotos l) (cx'.meetGotos l') :=
  { h with gotos := fun r => by simp only [Context.meetGotos, mem_foldl_insert, h.gotos r, hl r] }

theorem makeMeaningful (q : Ref) : h.Meets (·.makeMeaningful s q) := by
  show w.Meets _ (cx.makeMeaningful s q) (cx'.makeMeaningful s q)
  have hadmits := h.range q
  have hhas : ∀ {cx : Context} {v}, cx.range? q = some v → cx.makeMeaningful s q = .ok cx :=
    fun hv => if_pos (by rw [isMeaningful_eq, hv]; rfl)
  have hlacks : ∀ {cx : Context}, cx.range? q = none → cx.makeMeaningful s q = (s.maxRange q).map (cx.putRange q) :=
    fun hv => if_neg (by rw [isMeaningful_eq, hv]; nofun)
  cases hv : cx.range? q with
  | none =>
    rw [hlacks hv]
    cases hv' : cx'.range? q with
    | none =>
      rw [hlacks hv']
      exact .map (.self fun _ => rfl) fun m _ hm => hm ▸ h.putRange q (.refl m)
    | some v' =>
      -- Any value of the type is what the second context knows of already.
      rw [hhas hv']
      intro cx1 h1
      obtain ⟨m, hm, rfl⟩ := map_eq_ok.1 h1
      rw [hv, hv'] at hadmits
      refine .inl ⟨cx', rfl, { h with range := fun r => ?_ }⟩
      rw [range?_putRange]
      split
      · next heq =>
        rw [← heq, hv']
        exact (hadmits.near_max hm).admits
      · exact h.range r
  | some v =>
    rw [hhas hv]
    cases hv' : cx'.range? q with
    | some v' =>
      rw [hhas hv']
      exact .ok h
    | none =>
      rw [hv, hv'] at hadmits
      obtain ⟨rfl, c, rfl⟩ := hadmits.of_none
      rw [hlacks hv']
      refine .ok { h with range := fun r => ?_ }
      rw [range?_putRange]
      split
      · next heq => exact .inl ⟨c, heq.symm⟩
      · exact h.range r

theorem write (rs : List Ref) : h.Meets (·.write s rs) :=
  .check (.forM fun r _ => h.assertWriteable r) (.foldlM (foldl touch h rs) fun _ _ r h => h.makeMeaningful r)

theorem setRange (r : Ref) (hv : w.Near v v') :
    w.Meets (Alike s w) (cx.setRange s r v) (cx'.setRange s r v') :=
  .check (h.assertMeaningful r) (.ok (h.putRange r hv))

theorem widen (r : Ref) : h.Meets (·.widen s r) :=
  .check (h.assertMeaningful r) (.same fun m _ => .ok (h.putRange r (.refl m)))

theorem copyRange (src dest : Ref) : h.Meets (·.copyRange s src dest) :=
  .check (h.assertMeaningful src) (h.rangeOrMax src fun _ _ hv => .ok (h.putRange dest hv))

end

end Context.Alike

/-- The contexts at the end of two walks are alike, and so are those of the exits passed in between. -/
structure Trail.Alike (s : Setting) (w : Leeway) (exits : List Context) (t t' : Trail) : Prop where
  cx : Context.Alike s w t.cx t'.cx
  exits : ∀ e ∈ t.exits, e ∈ exits ∨ ∃ e' ∈ t'.exits, Context.Alike s w e e'

/-! ### Operations -/

namespace Focus

variable {f : Focus}

section

variable (h : Alike f.setting w cx cx')
include h

theorem readTable_meets (base offset index dest : Ref) :
    w.Passes (f.readTable cx base offset index dest) (f.readTable cx' base offset index dest) := by
  have hread := Leeway.Meets.check (h.assertAllMeaningful [.indexed base offset index, index]) (h.assertInRange index base offset)
  refine .same fun t _ => .ite (fun _ => .same fun u _ => .same fun _ _ => .guard fun _ => hread) fun _ => ?_
  exact .same fun _ _ => .guard fun _ => hread

theorem writeTable_meets (base offset index : Ref) : h.Meets (f.writeTable · base offset index) := by
  refine .same fun t _ => .guard fun _ => ?_
  exact .check (h.assertMeaningful index) (.check (h.assertInRange index base offset) (h.write [base]))

theorem readOrigin_meets (pointer : Ref) :
    w.Passes (f.readOrigin cx pointer) (f.readOrigin cx' pointer) := by
  unfold readOrigin
  rw [h.assoc]
  cases cx.getAssoc pointer with
  | none => exact .error
  | some origin => exact h.assertMeaningful origin

theorem writeTarget_meets (pointer : Ref) : h.Meets (f.writeTarget · pointer) := by
  simp only [Alike.Meets, writeTarget, h.assoc]
  cases cx.getAssoc pointer with
  | none => exact .error
  | some target => exact h.write [target]

theorem load_meets (dest src : Ref) : h.Meets (f.load · dest src) := by
  cases src with
  | indexed base offset index => exact .check (readTable_meets h base offset index dest) (h.write _)
  | indirect base =>
    refine .same fun ok _ => .guard fun _ => .check (readOrigin_meets h base) ?_
    exact .check (h.assertAllMeaningful [base, .y]) (h.write _)
  | _ =>
    refine .same fun t _ => .same fun u _ => .guard fun _ => ?_
    exact .check (h.assertMeaningful _) (.bind (h.copyRange _ _) fun _ _ h => h.write _)

theorem store_meets (src dest : Ref) : h.Meets (f.store · src dest) := by
  have hread : ∀ cx cx' (h : Alike f.setting w cx cx'), h.Meets fun cx => (do cx.assertMeaningful f.setting src; pure cx) :=
    fun _ _ h => .check (h.assertMeaningful src) (.ok h)
  cases dest with
  | indexed base offset index => exact .same fun t _ => .guard fun _ => .bind (writeTable_meets h base offset index) hread
  | indirect base =>
    refine .same fun ok _ => .guard fun _ => .check (h.assertAllMeaningful [base, .y]) ?_
    exact .bind (writeTarget_meets h base) hread
  | _ => exact .same fun t _ => .same fun u _ => .guard fun _ => .bind (h.write _) hread

theorem writeSum_meets (dest : Ref) : h.Meets (f.writeSum · dest) :=
  .bind (h.write _) fun _ _ h => h.widen dest

section

variable (dest src : Ref)
include dest src

theorem byteSum_meets : h.Meets (f.byteSum · dest src) := by
  refine .same fun _ _ => .same fun _ _ => .ok ?_
  split
  · exact h
  · exact h.spoil .a

theorem add_meets : h.Meets (f.add · dest src) := by
  refine .check (h.assertAllMeaningful [src, dest, .c]) ?_
  have hsum : ∀ cx cx' (h : Alike f.setting w cx cx'), h.Meets (f.writeSum · dest) := fun _ _ h => writeSum_meets h dest
  cases src with
  | indexed base offset index => exact .check (readTable_meets h base offset index dest) (hsum _ _ h)
  | _ =>
    refine .same fun t _ => .ite (fun _ => .bind (byteSum_meets h dest _) hsum) fun _ => .same fun _ _ => .same fun u _ => ?_
    exact .ite (fun _ => hsum _ _ (h.spoil .a)) fun _ => .same fun _ _ => hsum _ _ h

theorem sub_meets : h.Meets (f.sub · dest src) := by
  refine .check (h.assertAllMeaningful [src, dest, .c]) ?_
  cases src with
  | indexed base offset index => exact .check (readTable_meets h base offset index dest) (writeSum_meets h dest)
  | _ =>
    refine .same fun t _ => .ite (fun _ => .bind (byteSum_meets h dest _) fun _ _ h => writeSum_meets h dest) fun _ => ?_
    exact .same fun _ _ => .same fun _ _ => writeSum_meets (h.spoil .a) dest

theorem compare_meets : h.Meets (f.compare · dest src) := by
  refine .check (h.assertAllMeaningful [src, dest]) ?_
  cases src with
  | indexed base offset index => exact .check (readTable_meets h base offset index dest) (h.write _)
  | _ =>
    refine .same fun t _ => .ite (fun _ => .same fun _ _ => .same fun _ _ => h.write _) fun _ => ?_
    exact .same fun _ _ => .same fun _ _ => (h.spoil .a).write _

theorem bitwise_meets :
    w.Meets (fun cx cx' => Alike f.setting w cx cx' ∧ (cx'.range? dest).isSome) (f.bitwise cx dest src) (f.bitwise cx' dest src) := by
  have hread : w.Passes (f.readByte cx dest src) (f.readByte cx' dest src) := by
    cases src with
    | indexed base offset index => exact readTable_meets h base offset index dest
    | _ => exact .self fun _ => trivial
  refine .check hread (.check (h.assertAllMeaningful [src, dest]) (.mono (h.write _) fun cx1 cx1' _ h1' h1 => ⟨h1, ?_⟩))
  exact (write_ok h1').2.2.2.2.1 dest mem_cons_self

theorem conjoin_meets : h.Meets (f.conjoin · dest src) := by
  refine .bind (bitwise_meets h dest src) fun cx cx' ⟨h, hheld⟩ => ?_
  have htop : h.Meets fun cx => (do let range ← cx.getRange f.setting src; cx.setTop f.setting dest range.top) := by
    refine .bind (h.getRange src) fun v v' hv => .check (h.assertMeaningful dest) ?_
    refine .bind (h.rangeOf_of_held hheld) fun u u' hu => .ok (h.putRange dest ?_)
    rcases hv with hw | rfl
    · exact .inl hw
    · exact hu.map fun u => Range.mk u.bottom v'.top
  cases src with
  | indexed base offset index => exact .ok h
  | _ => exact htop

theorem disjoin_meets : h.Meets (f.disjoin · dest src) :=
  .bind (bitwise_meets h dest src) fun _ _ h => h.1.widen dest

end

theorem shift_meets (dest : Ref) : h.Meets (f.shift · dest) := by
  refine .check (h.assertAllMeaningful [dest, .c]) ?_
  cases dest with
  | indexed base offset index => exact .bind (writeTable_meets h base offset index) fun _ _ h => h.write _
  | _ => exact .same fun _ _ => .bind (h.write _) fun _ _ h => h.widen _

end

theorem maxRange_of_typeOf {t : Ty} (h : s.typeOf r = .ok t) : ∃ m, s.maxRange r = .ok m := by
  cases r with
  | constant c => exact ⟨_, rfl⟩
  | location n => exact ⟨.ofInts t.maxRange, congrArg (Except.map fun t : Ty => Range.ofInts t.maxRange) h⟩
  | _ => cases h

/-- The range of a location that was counted one step, given its former and its widest range. -/
def counted (widest : Range) (dir : Direction) (range : Range) : Except Fault Range :=
  if range.bottom = range.top then
    match range.top with
    | .int n =>
      let inside : Bool := match dir with
        | .up => n < 255
        | .down => n > 0
      .ok (if inside then .ofInts (n + dir.step, n + dir.step) else widest)
    | _ => .error .incomparable
  else .ok widest

theorem isRange_counted {range : Range} {dir : Direction} (h : counted widest dir range = .error e) : e.isRange = true := by
  unfold counted at h
  split at h
  · split at h
    · cases h
    · cases h
      rfl
  · cases h

theorem count_tail {dest : Ref} (hmax : f.setting.maxRange dest = .ok widest) (cx : Context) (dir : Direction)
    (range : Range) :
    (if range.bottom = range.top then
      match range.top with
      | .int n =>
        let inside : Bool := match dir with
          | .up => n < 255
          | .down => n > 0
        if inside then cx.setRange f.setting dest (.ofInts (n + dir.step, n + dir.step))
        else cx.widen f.setting dest
      | _ => .error .incomparable
    else cx.widen f.setting dest) = counted widest dir range >>= cx.setRange f.setting dest := by
  have hwiden : cx.widen f.setting dest = cx.setRange f.setting dest widest := by
    rw [widen, hmax]
    rfl
  rw [hwiden]
  unfold counted
  split
  · split
    · dsimp only
      generalize (match dir with | .up => _ | .down => _ : Bool) = inside
      cases inside <;> rfl
    · rfl
  · rfl

section

variable (h : Alike f.setting w cx cx')
include h

theorem count_meets (dir : Direction) (dest : Ref) : h.Meets (f.count · dir dest) := by
  refine .check (h.assertMeaningful dest) ?_
  cases dest with
  | indexed base offset index => exact .bind (writeTable_meets h base offset index) fun _ _ h => h.write _
  | _ =>
    refine .same fun _ htype => .bind (h.write _) fun cx cx' h => .bind (h.getRange _) fun v v' hv => ?_
    obtain ⟨m, hm⟩ := maxRange_of_typeOf (assertType_ok htype)
    refine (count_tail hm cx dir v).symm ▸ (count_tail hm cx' dir v').symm ▸ ?_
    exact .bind (.near (hv.map _).symm fun _ => isRange_counted) fun _ _ hu => h.setRange _ hu

theorem copyToIndirect_meets (src base : Ref) : h.Meets (f.copyToIndirect · src base) := by
  have hcopy := Leeway.Meets.check (h.assertAllMeaningful [src, base, .y]) (writeTarget_meets h base)
  refine .same fun t _ => .ite (fun _ => .same fun u _ => .same fun _ _ => .guard fun _ => hcopy) fun _ => ?_
  exact .same fun _ _ => .guard fun _ => hcopy

theorem copyFromIndirect_meets (base dest : Ref) : h.Meets (f.copyFromIndirect · base dest) := by
  refine .same fun ok _ => .guard fun _ => .check (h.assertAllMeaningful [base, .y]) ?_
  exact .check (readOrigin_meets h base) (h.write [dest])

theorem copyBetweenIndirect_meets (from_ to_ : Ref) : h.Meets (f.copyBetweenIndirect · from_ to_) := by
  have hcopy := Leeway.Meets.check (h.assertAllMeaningful [from_, to_, .y])
    (.check (readOrigin_meets h from_) (writeTarget_meets h to_))
  refine .same fun t _ => .ite (fun _ => .same fun u _ => .same fun _ _ => .guard fun _ => hcopy) fun _ => ?_
  exact .same fun _ _ => .guard fun _ => hcopy

theorem copyToCell_meets (src base offset index : Ref) : h.Meets (f.copyToCell · src base offset index) := by
  refine .same fun t _ => .same fun u _ => .guard fun _ => .check (h.assertInRange index base offset) ?_
  exact .check (h.assertAllMeaningful [src, base, index]) (h.write [base])

theorem copyFromCell_meets (base offset index dest : Ref) : h.Meets (f.copyFromCell · base offset index dest) := by
  refine .same fun t _ => .same fun u _ => .guard fun _ => .check (h.assertInRange index base offset) ?_
  exact .check (h.assertAllMeaningful [base, index]) (h.write [dest])

theorem copyToLocation_meets (src dest : Ref) : h.Meets (f.copyToLocation · src dest) := by
  have hcopy := Leeway.Meets.check (h.assertMeaningful src) (h.write [dest])
  refine .same fun t _ => .same fun u _ => .ite (fun _ => ?_) fun _ => hcopy
  split
  · exact .same fun _ _ => .same fun _ _ => .same fun _ _ => hcopy
  · exact .error
  · exact .error

theorem copy_meets (src dest : Ref) : h.Meets (f.copy · src dest) := by
  have hcopied : ∀ {x y}, w.Meets (Alike f.setting w) x y →
      w.Meets (Alike f.setting w) (x >>= fun cx => pure (copied cx)) (y >>= fun cx => pure (copied cx)) :=
    fun hxy => .bind hxy fun _ _ h => .ok (Alike.foldl Alike.forget (Alike.foldl Alike.touch h _) _)
  refine .guard fun _ => ?_
  cases dest with
  | location n =>
    cases src with
    | location m => exact hcopied (copyToLocation_meets h _ _)
    | constant c => exact hcopied (copyToLocation_meets h _ _)
    | indirect base => exact hcopied (copyFromIndirect_meets h _ _)
    | indexed base offset index => exact hcopied (copyFromCell_meets h _ _ _ _)
    | pending n site => exact .error
  | indirect base =>
    cases src with
    | location m => exact hcopied (copyToIndirect_meets h _ _)
    | constant c => exact hcopied (copyToIndirect_meets h _ _)
    | indirect base' => exact hcopied (copyBetweenIndirect_meets h _ _)
    | _ => exact .error
  | indexed base offset index =>
    cases src with
    | location m => exact hcopied (copyToCell_meets h _ _ _ _)
    | constant c => exact hcopied (copyToCell_meets h _ _ _ _)
    | _ => exact .error
  | _ => cases src <;> exact .error

/-- An operation that is accepted in one of two alike contexts is accepted in the other, and leaves alike contexts. -/
theorem single_meets (op : Op) : h.Meets (f.single · op) := by
  simp only [Alike.Meets, single, h.terminated]
  refine .guard fun _ => ?_
  cases op with
  | ld dest src => exact load_meets h dest src
  | st src dest => exact store_meets h src dest
  | add dest src => exact add_meets h dest src
  | sub dest src => exact sub_meets h dest src
  | cmp dest src => exact compare_meets h dest src
  | and dest src => exact conjoin_meets h dest src
  | or dest src | xor dest src => exact disjoin_meets h dest src
  | inc dest | dec dest => exact count_meets h _ dest
  | shl dest | shr dest => exact shift_meets h dest
  | copy src dest => exact copy_meets h src dest
  | trash dest => exact .ok (h.spoil dest)
  | nop => exact .ok h

end

/-! ### Calls, loops and pointers -/

theorem perform_meets (h : Alike s w cx cx') (sig : Signature) : h.Meets (perform s · sig) := by
  refine .bind (.foldlM h fun _ _ o h => h.write _) fun _ _ h => .foldlM h fun _ _ t h => ?_
  exact .check (h.assertWriteable _) (.ok (h.spoil _))

theorem call_meets (h : Alike f.setting w t.cx t'.cx) (target : String) :
    w.Meets (Trail.Alike f.setting w t.exits) (f.call t target) (f.call t' target) := by
  refine .same fun ⟨ty, sig⟩ _ => .check (.forM fun r _ => h.assertMeaningful r) ?_
  refine .bind (perform_meets h sig) fun cx cx' h => .ok ⟨h, fun e he => .inl ?_⟩
  have hmeet : ((t.meet target ty).withContext cx).exits = t.exits := by
    rw [Trail.withContext, Trail.meet]
    split <;> rfl
  exact hmeet ▸ he

theorem jump_meets (h : Alike f.setting w t.cx t'.cx) (target : String) :
    w.Meets (Trail.Alike f.setting w t.exits) (f.jump t target) (f.jump t' target) := by
  refine .same fun ⟨ty, sig⟩ _ => .check (.forM fun r _ => h.assertMeaningful r) (.same fun own _ => ?_)
  have hmet := h.meetGotos (l := [.location target]) fun _ => Iff.rfl
  cases own with
  | routine own =>
    refine .same fun _ _ => .same fun _ _ => .bind (perform_meets hmet.branch sig) fun left left' hleft => ?_
    refine .ok ⟨{ hmet with terminated := rfl }, fun e he => ?_⟩
    rcases mem_append.1 he with he | he
    · exact .inl he
    · exact .inr ⟨left', mem_append_right _ (mem_singleton_self _), mem_singleton.1 he ▸ hleft⟩
  | _ => exact .error

theorem reset_meets (h : Alike f.setting w cx cx') (pointer : Ref) (offset : Const) : h.Meets (f.reset · pointer offset) := by
  refine .same fun t _ => .guard fun _ => ?_
  rw [h.assoc]
  cases cx.getAssoc pointer with
  | none => exact .error
  | some table =>
    refine .check (h.assertMeaningful table) (.bind (h.getRange table) fun v v' hv => ?_)
    refine .bind (Bound.above_near (hv.map Range.bottom) (.refl _)) fun above above' habove => .guards habove rfl ?_
    refine .bind (Bound.below_near (hv.map Range.top) (.refl _)) fun below below' hbelow => .guards hbelow rfl ?_
    exact .bind (h.makeMeaningful pointer) fun _ _ h => .ok (h.touch pointer)

section

variable {i i' : Instr}

section

variable (h : Alike s w cx cx')
include h

theorem refuseGotos_meets : w.Passes (refuseGotos ⟨s, i⟩ cx) (refuseGotos ⟨s, i'⟩ cx') := by
  have hempty : cx'.gotos.isEmpty = cx.gotos.isEmpty := by
    rw [Bool.eq_iff_iff, List.isEmpty_iff, List.isEmpty_iff, List.eq_nil_iff_forall_not_mem, List.eq_nil_iff_forall_not_mem]
    simp only [h.gotos]
  unfold refuseGotos
  rw [hempty]
  exact .ite (fun _ => .ok trivial) fun _ => .error

omit h in
theorem loopRange_meets (hv : w.Near v v') (dest : Ref) (final : Int) (dir : Direction) :
    w.Meets w.Near (loopRange ⟨s, i⟩ dest v final dir) (loopRange ⟨s, i'⟩ dest v' final dir) := by
  cases dir with
  | up =>
    refine .bind (Bound.below_near (hv.map Range.top) (.refl _)) fun below below' hbelow => ?_
    exact .choose hbelow rfl (hv.map fun v => Range.mk v.bottom (.int final))
  | down =>
    refine .bind (Bound.above_near (hv.map Range.bottom) (.refl _)) fun above above' habove => ?_
    exact .choose habove rfl (hv.map fun v => Range.mk (.int final) v.top)

theorem enterCount_meets (dest : Ref) (dir : Direction) (final : Const) :
    w.Meets (Alike s w) (enterCount ⟨s, i⟩ cx dest dir final) (enterCount ⟨s, i'⟩ cx' dest dir final) := by
  refine .check (h.assertMeaningful dest) (.check (h.assertWriteable dest) (.bind (h.getRange dest) fun v v' hv => ?_))
  refine .bind (loopRange_meets hv dest final.value dir) fun u u' hu => .bind (h.setRange dest hu) fun cx cx' h => ?_
  unfold lock
  simp only [contains_iff_mem, h.writeable]
  refine .ite (fun _ => .ok { h with nodup := ⟨h.nodup.1.erase dest, h.nodup.2.erase dest⟩, writeable := fun r => ?_ }) fun _ => .error
  rw [h.nodup.1.mem_erase_iff, h.nodup.2.mem_erase_iff, h.writeable]

theorem leaveCount_meets (dest : Ref) (final : Const) :
    w.Meets (Alike s w) (leaveCount ⟨s, i⟩ cx dest final) (leaveCount ⟨s, i'⟩ cx' dest final) :=
  .bind (h.setRange dest (.refl _)) fun _ _ h => .ok (h.unlock dest)

theorem enterPoint_meets (pointer table : Ref) :
    w.Meets (Alike s w) (enterPoint ⟨s, i⟩ cx pointer table) (enterPoint ⟨s, i'⟩ cx' pointer table) := by
  refine .same fun t _ => .guard fun _ => .same fun u _ => .guard fun _ => ?_
  rw [h.assoc]
  exact .guard fun _ => .ok ((h.setAssoc pointer _).forget pointer)

theorem setAside_meets (rs : List Ref) :
    w.Meets (fun p p' => Alike s w p.2 p'.2) (setAside ⟨s, i⟩ rs cx) (setAside ⟨s, i'⟩ rs cx') := by
  induction rs generalizing cx cx' with
  | nil => exact .ok h
  | cons r rs ih => exact .same fun _ _ => .bind (ih (h.unlock r)) fun _ _ h => .ok h

theorem restore_alike {batons batons' : List Baton} {cx0 cx0' : Context}
    (h1 : Alike s w cx1 cx1') (hset : setAside ⟨s, i⟩ rs cx = .ok (batons, cx0)) (hset' : setAside ⟨s, i'⟩ rs cx' = .ok (batons', cx0'))
    (horder : Orderly cx0 cx1) (horder' : Orderly cx0' cx1') :
    Alike s w (restore cx1 batons rs.head?) (restore cx1' batons' rs.head?) := by
  have hrestored := (orderly_restore hset horder : Orderly cx (restore cx1 batons rs.head?)).writeable h.nodup.1
  have hrestored' := (orderly_restore hset' horder' : Orderly cx' (restore cx1' batons' rs.head?)).writeable h.nodup.2
  refine ⟨fun r => ?_, fun hw r => ?_, ⟨hrestored.1, hrestored'.1⟩, fun r => ?_, ?_, ?_, ?_⟩
  · rw [range?_restore hset, range?_restore hset']
    split
    · exact .refl
    · split
      · exact h.range r
      · exact h1.range r
  · rw [mem_touched_restored hset horder, mem_touched_restored hset' horder', h.touched hw, h1.touched hw]
  · rw [hrestored.2, hrestored'.2, h.writeable]
  · rw [terminated_restore, terminated_restore, h1.terminated]
  · rw [gotos_restore, gotos_restore]
    exact h1.gotos
  · rw [getAssoc_congr assoc_restore, getAssoc_congr assoc_restore, h1.assoc]

end

end

end Focus

/-! ### Choices -/

/-- The locations that may have a value in the second context only. -/
def Leeway.extra : Leeway → Set Ref
  | more extra => extra
  | _ => ∅

/-- Whether it is left open if the reference has a value. -/
def Leeway.Open (w : Leeway) (r : Ref) : Prop := w = lax ∧ ∃ c, r = .constant c

namespace Context

theorem Alike.held (h : Alike s w cx cx') (hr : ¬ w.Open r) (hheld : cx.isMeaningful r = true) : cx'.isMeaningful r = true := by
  have hadmits := h.range r
  obtain ⟨v, hv⟩ := Option.isSome_iff_exists.1 hheld
  rw [show cx.range? r = some v from hv] at hadmits
  rw [isMeaningful_eq]
  cases hv' : cx'.range? r with
  | some v' => rfl
  | none => exact absurd (hv' ▸ hadmits).of_none hr

theorem Alike.held_iff (h : Alike s w cx cx') (hr : ¬ w.Open r) (hx : r ∉ w.extra) :
    cx.isMeaningful r = true ↔ cx'.isMeaningful r = true := by
  refine ⟨h.held hr, fun hheld => ?_⟩
  have hadmits := h.range r
  rw [isMeaningful_eq] at hheld ⊢
  cases w with
  | exact => rwa [← (hadmits : cx'.range? r = cx.range? r)]
  | more extra => rwa [← (hadmits : _ ∨ _).resolve_right fun hwide => hx hwide.1]
  | lax => rwa [← (hadmits : _ ∨ _).resolve_left fun hconstant => hr ⟨rfl, hconstant⟩]

theorem not_open_of_extra (hx : r ∈ w.extra) : ¬ w.Open r := by
  rintro ⟨rfl, -⟩
  exact hx

theorem admits_of_open (hr : w.Open r) : w.Admits s r o o' := by
  obtain ⟨rfl, hconstant⟩ := hr
  exact .inl hconstant

theorem makeAllMeaningful_exists (h : ∀ r ∈ rs, cx.range? r = none → ∃ m, s.maxRange r = .ok m) :
    ∃ cx', cx.makeAllMeaningful s rs = .ok cx' := by
  induction rs generalizing cx with
  | nil => exact ⟨cx, rfl⟩
  | cons q rs ih =>
    rw [forall_mem_cons] at h
    have hq : ∃ cx1, cx.makeMeaningful s q = .ok cx1 := by
      unfold makeMeaningful
      split
      · exact ⟨cx, rfl⟩
      · next hlacks =>
        obtain ⟨m, hm⟩ := h.1 (by simpa [isMeaningful_eq] using hlacks)
        exact ⟨cx.putRange q m, by rw [hm]; rfl⟩
    obtain ⟨cx1, h1⟩ := hq
    have hrest : ∀ r ∈ rs, cx1.range? r = none → ∃ m, s.maxRange r = .ok m := by
      intro r hr hnone
      refine h.2 r hr ?_
      rcases (makeMeaningful_ok h1).2.2 r with heq | ⟨-, hnone, -⟩
      · exact heq.symm.trans hnone
      · exact hnone
    obtain ⟨cx', h'⟩ := ih hrest
    exact ⟨cx', by rw [makeAllMeaningful, foldlM_cons, h1]; exact h'⟩

theorem writeable_spoilAll : (rs.foldl spoil cx).writeable = cx.writeable := foldl_keeps spoil Context.writeable fun _ _ => rfl

/-- Spoiling locations that are not the same, where what is spoiled in the second context only lacks a value in the first. -/
theorem Alike.spoilAll (h : Alike s w cx cx')
    (hrange : ∀ r, ¬ w.Open r → (r ∈ rs ↔ r ∈ rs') ∨ (r ∉ rs ∧ cx.isMeaningful r = false))
    (htouched : w = .exact → ∀ r, r ∈ rs ↔ r ∈ rs') : Alike s w (rs.foldl Context.spoil cx) (rs'.foldl Context.spoil cx') := by
  refine ⟨fun r => ?_, fun hw r => ?_, by simpa only [writeable_spoilAll] using h.nodup,
    by simpa only [writeable_spoilAll] using h.writeable, by simpa only [terminated_spoilAll] using h.terminated,
    by simpa only [gotos_spoilAll] using h.gotos, by rw [getAssoc_congr assoc_spoilAll, getAssoc_congr assoc_spoilAll, h.assoc]⟩
  · rw [range?_spoilAll, range?_spoilAll]
    by_cases hr : w.Open r
    · exact admits_of_open hr
    · rcases hrange r hr with hiff | ⟨hnot, hlacks⟩
      · simp only [hiff]
        split
        · exact .refl
        · exact h.range r
      · rw [if_neg hnot]
        have hnone : cx.range? r = none := by simpa [isMeaningful_eq] using hlacks
        split
        · rw [hnone]
          exact .refl
        · exact h.range r
  · rw [mem_touched_spoilAll, mem_touched_spoilAll, h.touched hw, htouched hw]

end Context

namespace Focus

theorem makeAllMeaningful_meets (h : Alike s w cx cx') (hextra : ∀ r ∈ w.extra, (cx'.range? r).isSome = true)
    (hrs : ∀ r, ¬ w.Open r → r ∈ rs → r ∈ rs') (hrs' : ∀ r, ¬ w.Open r → r ∉ w.extra → r ∈ rs' → r ∈ rs) :
    w.Meets (Alike s w) (cx.makeAllMeaningful s rs) (cx'.makeAllMeaningful s rs') := by
  intro cx1 h1
  obtain ⟨same1, hsome1, hranges1⟩ := makeAllMeaningful_ok h1
  have hfound : ∀ r, ¬ w.Open r → cx'.range? r = none → cx.range? r = none := by
    intro r hr hnone
    by_contra hsome
    have := h.held hr (Option.isSome_iff_ne_none.2 hsome)
    rw [isMeaningful_eq, hnone] at this
    cases this
  have hback : ∀ r ∈ rs', ¬ w.Open r → cx'.range? r = none → r ∈ rs := by
    intro r hr hopen hnone
    refine hrs' r hopen (fun hx => ?_) hr
    have := hextra r hx
    rw [hnone] at this
    cases this
  obtain ⟨cx1', h1'⟩ : ∃ cx1', cx'.makeAllMeaningful s rs' = .ok cx1' := by
    refine makeAllMeaningful_exists fun r hr hnone => ?_
    by_cases hopen : w.Open r
    · obtain ⟨-, c, rfl⟩ := hopen
      exact ⟨_, rfl⟩
    · have hsome := hsome1 r (hback r hr hopen hnone)
      rcases hranges1 r with heq | ⟨-, -, m, hm, -⟩
      · rw [heq, hfound r hopen hnone] at hsome
        cases hsome
      · exact ⟨m, hm⟩
  obtain ⟨same1', hsome1', hranges1'⟩ := makeAllMeaningful_ok h1'
  refine .inl ⟨cx1', h1', fun r => ?_, ?_, ?_, ?_, ?_, ?_, ?_⟩
  · by_cases hopen : w.Open r
    · exact admits_of_open hopen
    rcases hranges1 r with heq | ⟨hr, hnone, m, hm, hwide⟩
    · rcases hranges1' r with heq' | ⟨hr', hnone', -⟩
      · rw [heq, heq']
        exact h.range r
      · -- What the second context was given a value for, the first one was too.
        have hsome := hsome1 r (hback r hr' hopen hnone')
        rw [heq, hfound r hopen hnone'] at hsome
        cases hsome
    · rw [hwide]
      have hsome' := hsome1' r (hrs r hopen hr)
      rcases hranges1' r with heq' | ⟨-, -, m', hm', hwide'⟩
      · have hadmits := h.range r
        rw [hnone, ← heq'] at hadmits
        obtain ⟨v', hv'⟩ := Option.isSome_iff_exists.1 hsome'
        rw [hv'] at hadmits ⊢
        exact (hadmits.near_max hm).admits
      · rw [hwide', Except.ok.inj (hm.symm.trans hm')]
        exact .refl
  · rw [same1.touched, same1'.touched]
    exact h.touched
  · rw [same1.writeable, same1'.writeable]
    exact h.nodup
  · rw [same1.writeable, same1'.writeable]
    exact h.writeable
  · rw [same1.terminated, same1'.terminated, h.terminated]
  · rw [same1.gotos, same1'.gotos]
    exact h.gotos
  · rw [getAssoc_congr same1.assoc, getAssoc_congr same1'.assoc, h.assoc]

/-- Merging in alike contexts, if no location that has a value in the second only is lost there on a branch that ended, while it gets one
on the other branch. -/
theorem merge_meets (h : Alike s w cx cx') (h1 : Alike s w cx1 cx1') (h2 : Alike s w cx2 cx2')
    (hextra : ∀ r ∈ w.extra, cx.isMeaningful r = false ∧ cx'.isMeaningful r = true)
    (hclash1 : ∀ r ∈ w.extra, cx1.terminated = true → cx2.isMeaningful r = true → cx1'.isMeaningful r = true)
    (hclash2 : ∀ r ∈ w.extra, cx2.terminated = true → cx1.isMeaningful r = true → cx2'.isMeaningful r = true) :
    w.Meets (Alike s w) (merge s cx cx1 cx2) (merge s cx' cx1' cx2') := by
  have hout : ∀ {r}, ¬ w.Open r → r ∉ w.extra → (cx1.isMeaningful r = true ∧ cx2.isMeaningful r = true
      ↔ cx1'.isMeaningful r = true ∧ cx2'.isMeaningful r = true) :=
    fun hr hx => and_congr (h1.held_iff hr hx) (h2.held_iff hr hx)
  have hjoined : w.Meets (fun both both' => Alike s w both both' ∧ ∀ r ∈ w.extra,
      ¬ (cx1'.isMeaningful r = true ∧ cx2'.isMeaningful r = true) → both.isMeaningful r = false)
      (joined s cx cx1 cx2) (joined s cx' cx1' cx2') := by
    unfold joined
    rw [h1.terminated, h2.terminated]
    refine .ite (fun hend => .ok ⟨{ h2 with gotos := h.gotos }, fun r hx hnot => ?_⟩) fun hgo1 =>
      .ite (fun hend => .ok ⟨{ h1 with gotos := h.gotos }, fun r hx hnot => ?_⟩) fun hgo2 => ?_
    · refine Bool.eq_false_iff.2 fun hheld => hnot ⟨hclash1 r hx hend hheld, h2.held (not_open_of_extra hx) hheld⟩
    · refine Bool.eq_false_iff.2 fun hheld => hnot ⟨h1.held (not_open_of_extra hx) hheld, hclash2 r hx hend hheld⟩
    · intro both hmade
      have hstart : Alike s w
          { cx with
            touched := cx2.touched.foldl (fun acc r => acc.insert r) cx1.touched
            writeable := cx2.writeable.foldl (fun acc r => acc.insert r) cx1.writeable }
          { cx' with
            touched := cx2'.touched.foldl (fun acc r => acc.insert r) cx1'.touched
            writeable := cx2'.writeable.foldl (fun acc r => acc.insert r) cx1'.writeable } :=
        { h with
          touched := fun hw r => by simp only [mem_foldl_insert, h1.touched hw, h2.touched hw]
          nodup := ⟨nodup_foldl_insert h1.nodup.1 _, nodup_foldl_insert h1.nodup.2 _⟩
          writeable := fun r => by simp only [mem_foldl_insert, h1.writeable, h2.writeable] }
      rcases makeAllMeaningful_meets hstart (fun r hx => (hextra r hx).2)
        (fun r hr hmem => mem_outgoing.2 ((mem_outgoing.1 hmem).imp (h1.held hr) (h2.held hr)))
        (fun r hr hx hmem => mem_outgoing.2 ((hout hr hx).2 (mem_outgoing.1 hmem))) both hmade with ⟨both', hmade', hboth⟩ | hfault
      · refine .inl ⟨both', hmade', hboth, fun r hx hnot => ?_⟩
        rcases (makeAllMeaningful_ok hmade).2.2 r with heq | ⟨hmem, -⟩
        · rw [isMeaningful_eq, heq]
          exact (hextra r hx).1
        · exact absurd ((mem_outgoing.1 hmem).imp (h1.held (not_open_of_extra hx)) (h2.held (not_open_of_extra hx))) hnot
      · exact .inr hfault
  rw [merge_eq, merge_eq]
  refine .map hjoined fun both both' ⟨hboth, hlost⟩ => ?_
  have hmet := (hboth.meetGotos h1.gotos).meetGotos h2.gotos
  refine hmet.spoilAll (fun r hr => ?_) fun hw r => ?_
  · rw [mem_spoiled, mem_spoiled]
    by_cases hx : r ∈ w.extra
    · -- Such a location is spoiled in the second context if one of its branches lost it, and then the first one lacks it too.
      rw [(hextra r hx).1, (hextra r hx).2]
      by_cases hnot : cx1'.isMeaningful r = true ∧ cx2'.isMeaningful r = true
      · exact .inl (by simp [hnot])
      · exact .inr ⟨by simp, hlost r hx hnot⟩
    · exact .inl (and_congr (h.held_iff hr hx) (not_congr (hout hr hx)))
  · have hx : r ∉ w.extra := by
      rw [hw]
      exact id
    have hr : ¬ w.Open r := by
      rintro ⟨hlax, -⟩
      rw [hw] at hlax
      cases hlax
    rw [mem_spoiled, mem_spoiled]
    exact and_congr (h.held_iff hr hx) (not_congr (hout hr hx))

/-- Of two branches it does not matter which one is the first, unless both end in jumps and do not leave the same. -/
theorem merge_swap (hw1 : cx1.writeable.Nodup) (hw2 : cx2.writeable.Nodup)
    (hends : cx1.terminated = true → cx2.terminated = true → Alike s .exact (cx.updateFrom cx2) (cx.updateFrom cx1)) :
    Leeway.exact.Meets (Alike s .exact) (merge s cx cx1 cx2) (merge s cx cx2 cx1) := by
  have hjoined : Leeway.exact.Meets (Alike s .exact) (joined s cx cx1 cx2) (joined s cx cx2 cx1) := by
    unfold joined
    cases h1 : cx1.terminated with
    | true =>
      cases h2 : cx2.terminated with
      | true => exact .ok (hends h1 h2)
      | false => exact .ok (.refl hw2)
    | false =>
      cases cx2.terminated with
      | true => exact .ok (.refl hw1)
      | false =>
        refine makeAllMeaningful_meets ?_ nofun (fun r _ hr => ?_) fun r _ _ hr => ?_
        · exact ⟨fun r => .refl, fun _ r => by simp only [mem_foldl_insert, or_comm], ⟨nodup_foldl_insert hw1 _, nodup_foldl_insert hw2 _⟩,
            fun r => by simp only [mem_foldl_insert, or_comm], rfl, fun r => .rfl, rfl⟩
        · exact mem_outgoing.2 (mem_outgoing.1 hr).symm
        · exact mem_outgoing.2 (mem_outgoing.1 hr).symm
  rw [merge_eq, merge_eq]
  refine .map hjoined fun both both' h => Alike.spoilAll { h with gotos := fun r => ?_ } (fun r _ => .inl ?_) fun _ r => ?_
  · simp only [meetGotos, mem_foldl_insert, h.gotos, or_right_comm]
  · rw [mem_spoiled, mem_spoiled, and_comm (a := cx1.isMeaningful r = true)]
  · rw [mem_spoiled, mem_spoiled, and_comm (a := cx1.isMeaningful r = true)]

end Focus

/-! ### Narrower leeway -/

/-- The leeway with only those extra locations that make a difference between two contexts. -/
def Leeway.narrow (w : Leeway) (cx cx' : Context) : Leeway :=
  match w with
  | more extra => more {r ∈ extra | cx.isMeaningful r = false ∧ cx'.isMeaningful r = true}
  | w => w

section

variable {c c' : Context}

theorem Leeway.mem_extra_narrow (h : r ∈ (w.narrow cx cx').extra) :
    r ∈ w.extra ∧ cx.isMeaningful r = false ∧ cx'.isMeaningful r = true := by
  cases w with
  | more extra => exact h
  | _ => cases h

theorem Context.Alike.narrow (h : Alike s w cx cx') : Alike s (w.narrow cx cx') cx cx' := by
  cases w with
  | more extra =>
    refine { h with range := fun r => ?_, touched := nofun }
    rcases (h.range r : _ ∨ _) with heq | ⟨hr, hnone, v, hv, hsome⟩
    · exact .inl heq
    · exact .inr ⟨⟨hr, by rw [isMeaningful_eq, hnone]; rfl, by rw [isMeaningful_eq, hsome]; rfl⟩, hnone, v, hv, hsome⟩
  | _ => exact h

theorem Context.Alike.of_narrow (h : Alike s (w.narrow cx cx') c c') : Alike s w c c' := by
  cases w with
  | more extra => exact { h with range := fun r => (h.range r : _ ∨ _).imp id fun hwide => ⟨hwide.1.1, hwide.2⟩, touched := nofun }
  | _ => exact h

theorem Leeway.Meets.of_narrow {exits : List Context} {x y : Except Fault Trail} (cx cx' : Context)
    (h : (w.narrow cx cx').Meets (Trail.Alike s (w.narrow cx cx') exits) x y) : w.Meets (Trail.Alike s w exits) x y := by
  intro t ht
  rcases h t ht with ⟨t', ht', h⟩ | ⟨hlax, hfault⟩
  · refine .inl ⟨t', ht', h.cx.of_narrow, fun e he => (h.exits e he).imp id ?_⟩
    exact fun ⟨e', he', halike⟩ => ⟨e', he', halike.of_narrow⟩
  · cases w with
    | lax => exact .inr ⟨rfl, hfault⟩
    | _ => cases hlax

end

end CheckedAsm
