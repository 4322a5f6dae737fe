import CheckedAsm.Grammar.Parse
import CheckedAsm.Proofs.Attempt
/-! # What parsers give

A statement about all that a parser can give is put together from statements about its moves. The lexer writes integer
tokens without a sign, so the number of such a token is never below zero; cursors keep this as they move on. -/

namespace CheckedAsm

open List Text

variable {l : List Char} {n : Nat} {c : Cursor} {s token : String}

/-! ### Numerals without a sign -/

theorem readSigned_nonneg {unsigned : List Char → Option Nat} {n : Int} (hl : '-' ∉ l)
    (h : readSigned unsigned l = some n) : 0 ≤ n := by
  unfold readSigned at h
  split at h
  case h_1 => exact absurd mem_cons_self hl
  all_goals
    simp only [Option.map_id_fun', id_eq, Option.bind_eq_bind, Option.bind_eq_some_iff, Option.pure_def,
      Option.some.injEq] at h
    obtain ⟨m, -, rfl⟩ := h
    exact Int.natCast_nonneg m

theorem mem_of_mem_trimBlanks {c : Char} (h : c ∈ trimBlanks l) : c ∈ l := by
  have hback := mem_reverse.1 h
  have hfront := mem_reverse.1 ((dropWhile_suffix _).subset hback)
  exact (dropWhile_suffix _).subset hfront

theorem decimal?_nonneg {n : Int} (hs : '-' ∉ s.toList) (h : decimal? s = some n) : 0 ≤ n :=
  readSigned_nonneg (fun hmem => hs (mem_of_mem_trimBlanks hmem)) h

/-- An integer token has no sign. -/
def Token.Unsigned : Token → Prop
  | .integer s => '-' ∉ s.toList
  | _ => True

theorem minus_notMem_toString (n : Nat) : '-' ∉ (toString n).toList := by
  intro hmem
  rw [Nat.toString_eq_repr, Nat.repr, String.toList_ofList] at hmem
  exact absurd (Nat.isDigit_of_mem_toDigits (by decide) (by decide) hmem) (by decide)

theorem readToken_unsigned (c : Char) (rest : List Char) : (readToken c rest).1.Unsigned := by
  unfold readToken
  split
  · trivial
  split
  case isTrue hc =>
    show '-' ∉ (String.ofList (c :: rest.takeWhile isDecimalDigit)).toList
    rw [String.toList_ofList, mem_cons, not_or]
    refine ⟨fun heq => ?_, fun hmem => ?_⟩
    · rw [← heq] at hc
      exact absurd hc (by decide)
    · exact absurd (all_eq_true.1 all_takeWhile _ hmem) (by decide)
  split
  · dsimp only
    split
    · trivial
    · exact minus_notMem_toString _
  split
  · split <;> trivial
  split <;> trivial

namespace Cursor

/-- The tokens that the cursor can still come to: no integer among them has a sign, and the last one is the end of the text. -/
structure Sound (c : Cursor) : Prop where
  unsigned : ∀ l ∈ c.here :: c.ahead, l.token.Unsigned
  ended : ((c.here :: c.ahead).getLast?).map (·.token) = some .finish

theorem ofText_sound (file text : String) : (ofText file text).Sound := by
  have hscan (q : Place) : q.scan.1.Unsigned := by
    unfold Place.scan
    dsimp only
    split
    · trivial
    · exact readToken_unsigned _ _
  suffices hall : ∀ p : Place, (∀ l ∈ p.lexemes, l.token.Unsigned) ∧ p.lexemes.getLast?.map (·.token) = some .finish by
    obtain ⟨hunsigned, hended⟩ := hall (Place.start text)
    unfold ofText lexemes
    cases hl : (Place.start text).lexemes with
    | nil => simp [hl] at hended
    | cons l rest => exact ⟨hl ▸ hunsigned, hl ▸ hended⟩
  intro p
  fun_induction Place.lexemes p with
  | case1 p lexeme hend => exact ⟨fun l hl => mem_singleton.1 hl ▸ hscan p, by simp [lexeme, hend]⟩
  | case2 p lexeme _ ih =>
    refine ⟨forall_mem_cons.2 ⟨hscan p, ih.1⟩, ?_⟩
    cases hl : p.scan.2.lexemes with
    | nil => simp [hl] at ih
    | cons l rest => simpa [hl] using ih.2

theorem Sound.advance (h : c.Sound) (hn : c.remaining ≤ n) : c.advance.Sound ∧ c.advance.remaining ≤ n := by
  unfold Cursor.advance
  split
  · exact ⟨h, hn⟩
  case h_2 l rest heq =>
    refine ⟨⟨fun k hk => h.unsigned k (mem_cons_of_mem _ (heq ▸ hk)), ?_⟩, Nat.le_trans ?_ hn⟩
    · simpa [heq] using h.ended
    · simp [remaining, heq]

/-- Before the end of the text the cursor does move. -/
theorem Sound.passes (h : c.Sound) (hn : c.remaining ≤ n) (ht : c.text? ≠ none) :
    c.advance.Sound ∧ c.advance.remaining ≤ n - 1 := by
  refine ⟨(h.advance hn).1, Nat.le_pred_of_lt (Nat.lt_of_lt_of_le ?_ hn)⟩
  unfold Cursor.advance
  split
  case h_1 heq =>
    have hended : c.here.token = .finish := by simpa [heq] using h.ended
    exact absurd (by rw [text?, hended]; rfl) ht
  case h_2 l rest heq => simp [remaining, heq]

theorem Sound.integer {n : Int} (h : c.Sound) (hint : c.here.token.isInteger = true)
    (hs : c.text? = some s) (hn : decimal? s = some n) : 0 ≤ n := by
  have htoken : c.here.token.Unsigned := h.unsigned c.here mem_cons_self
  unfold text? at hs
  cases hkind : c.here.token <;> rw [hkind] at hint htoken hs <;> try cases hint
  cases hs
  exact decimal?_nonneg htoken hn

theorem text_of_on (h : c.on token = true) : c.text? ≠ none := by
  intro hnone
  rw [on, hnone] at h
  cases h

end Cursor

/-! ### Parsers and their results -/

namespace Parse

variable {α β : Type} {m k : Nat} {p p' : Parse α} {P Q : α → Prop} {R : β → Prop}

/-- At the cursor the parser finds no nesting too deep. What it gives has the property, and at most `m` lexemes are left then. -/
def YieldsAt (m : Nat) (p : Parse α) (P : α → Prop) (c : Cursor) : Prop :=
  (∃ a c', p c = .ok (a, c') ∧ (c'.Sound ∧ c'.remaining ≤ m) ∧ P a) ∨ ∃ f, p c = .error f ∧ f ≠ .tooDeep

/-- It is so wherever at most `n` lexemes are left. -/
def Yields (n m : Nat) (p : Parse α) (P : α → Prop) : Prop := ∀ ⦃c : Cursor⦄, c.Sound → c.remaining ≤ n → p.YieldsAt m P c

/-- It is so on every token before the end of the text. -/
def Starts (n m : Nat) (p : Parse α) (P : α → Prop) : Prop :=
  ∀ ⦃c : Cursor⦄, c.Sound → c.remaining ≤ n → c.text? ≠ none → p.YieldsAt m P c

/-- At most so much, as can be told from how the first number was lowered and the second one raised. -/
class Lowered (n m : Nat) : Prop where
  le : n ≤ m

instance : Lowered n n := ⟨Nat.le_refl n⟩

instance : Lowered (n + 1 - 1) n := ⟨Nat.le_refl n⟩

instance [h : Lowered n m] : Lowered n (m + 1) := ⟨Nat.le_succ_of_le h.le⟩

instance [h : Lowered n m] : Lowered (n - k) m := ⟨Nat.le_trans (Nat.sub_le n k) h.le⟩

theorem YieldsAt.of_yields (hc : c.Sound) (hn : c.remaining ≤ n) (h : p.Yields n m P) : p.YieldsAt m P c := h hc hn

/-- What is asked for is known of the cursor. -/
theorem YieldsAt.ask {f : Cursor → β} {g : β → Parse α} (h : (g (f c)).YieldsAt m P c) : (Parse.ask f >>= g).YieldsAt m P c := h

namespace Yields

theorem ok {a : α} {c' : Cursor} (h : p.Yields c.remaining m P) (hc : c.Sound) (hok : p c = .ok (a, c')) : c'.Sound ∧ P a := by
  obtain ⟨b, c1, hp, ⟨hc1, -⟩, hb⟩ | ⟨f, hf, -⟩ := h hc (Nat.le_refl _)
  · cases hp.symm.trans hok
    exact ⟨hc1, hb⟩
  · cases hf.symm.trans hok

/-- Some lexeme is always left. -/
theorem zero : p.Yields 0 m P := fun _ _ hn => absurd hn (Nat.not_succ_le_zero _)

theorem weaken {n' m' : Nat} (h : p.Yields n m P) (hn : n' ≤ n) (hm : m ≤ m') : p.Yields n' m' P := by
  intro c hc hle
  refine (h hc (Nat.le_trans hle hn)).imp_left ?_
  rintro ⟨a, c', hp, ⟨hc', hm'⟩, ha⟩
  exact ⟨a, c', hp, ⟨hc', Nat.le_trans hm' hm⟩, ha⟩

theorem mono (h : p.Yields n m P) (hPQ : ∀ a, P a → Q a) : p.Yields n m Q :=
  fun _ hc hn => (h hc hn).imp_left fun ⟨a, c', hp, hc', ha⟩ => ⟨a, c', hp, hc', hPQ a ha⟩

/-- What holds whatever is chosen, holds for all choices. -/
theorem all {ι : Type} {C : ι → Prop} {P : ι → α → Prop} (hC : ∃ i, C i) (h : ∀ i, C i → p.Yields n m (P i)) :
    p.Yields n m fun a => ∀ i, C i → P i a := by
  intro c hc hn
  obtain ⟨i, hi⟩ := hC
  obtain ⟨a, c', hp, hc', -⟩ | herr := h i hi hc hn
  · refine .inl ⟨a, c', hp, hc', fun j hj => ?_⟩
    obtain ⟨_, _, hp', -, ha⟩ | ⟨_, hf, -⟩ := h j hj hc hn
    · cases hp.symm.trans hp'
      exact ha
    · cases hp.symm.trans hf
  · exact .inr herr

theorem pure {a : α} (ha : P a) [h : Lowered n m] : Yields n m (Pure.pure a) P :=
  fun c hc hn => .inl ⟨a, c, rfl, ⟨hc, Nat.le_trans hn h.le⟩, ha⟩

theorem bind {f : α → Parse β} (hp : p.Yields n m P) (hf : ∀ a, P a → (f a).Yields m k R) : (p >>= f).Yields n k R := by
  intro c hc hn
  have hbind : (p >>= f) c = p c >>= fun r => f r.1 r.2 := rfl
  obtain ⟨a, c1, hpc, ⟨hc1, hm⟩, ha⟩ | ⟨e, hpc, he⟩ := hp hc hn
  · have hrest := hf a ha hc1 hm
    rw [hpc] at hbind
    exact hrest.imp (fun ⟨b, c', hb, h⟩ => ⟨b, c', hbind.trans hb, h⟩) fun ⟨e, he, h⟩ => ⟨e, hbind.trans he, h⟩
  · rw [hpc] at hbind
    exact .inr ⟨e, hbind, he⟩

theorem ite {b : Prop} [Decidable b] (hp : b → p.Yields n m P) (hq : ¬ b → p'.Yields n m P) : (if b then p else p').Yields n m P := by
  split
  · exact hp ‹_›
  · exact hq ‹_›

/-- A parser that is told how many lexemes are left. -/
theorem remaining {f : Nat → Parse α} (h : ∀ n' ≤ n, ∀ k, n' ≤ k → (f k).Yields n' n' P) : Yields n n (fun c => f c.remaining c) P := by
  intro c hc hn
  refine (h _ hn _ (Nat.le_refl _) hc (Nat.le_refl _)).imp_left ?_
  rintro ⟨a, c', hp, ⟨hc', hm⟩, ha⟩
  exact ⟨a, c', hp, ⟨hc', Nat.le_trans hm hn⟩, ha⟩

/-- A recursion that takes a lexeme at each step does not run out of fuel. -/
theorem fuel {f : Nat → Parse α} (h : ∀ n k, (∀ n' ≤ n, (f k).Yields n' n' P) → (f (k + 1)).Yields (n + 1) (n + 1) P) (n k : Nat)
    (hk : n ≤ k) : (f k).Yields n n P := by
  induction k generalizing n with
  | zero =>
    obtain rfl := Nat.le_zero.1 hk
    exact zero
  | succ k ih =>
    cases n with
    | zero => exact zero
    | succ n => exact h n k fun n' hn' => ih n' (by omega)

/-- A token that may be there, and then is taken. -/
theorem given (hp : p.Yields (n - 1) m P) (hq : p'.Yields n m P) :
    Yields n m (consume token >>= fun b => if b = true then p else p') P := by
  intro c hc hle
  have heq : (consume token >>= fun b => if b = true then p else p') c = if c.on token = true then p c.advance else p' c := by
    show (fun x : Bool × Cursor => (if x.1 = true then p else p') x.2) (c.consume token) = _
    unfold Cursor.consume
    split <;> rfl
  unfold YieldsAt
  rw [heq]
  split
  case isTrue hon => exact hp (hc.passes hle (Cursor.text_of_on hon)).1 (hc.passes hle (Cursor.text_of_on hon)).2
  case isFalse => exact hq hc hle

/-- A token that may be there, and then something follows it. -/
theorem optional {f : Option α → Parse β} (hp : p.Yields (n - 1) (n - 1) P)
    (hf : ∀ o, (∀ a, o = some a → P a) → (f o).Yields n m R) :
    Yields n m (consume token >>= fun b => if b = true then some <$> p >>= f else Pure.pure none >>= f) R := by
  refine .given ?_ (hf none fun _ h => nomatch h)
  rw [bind_map_left]
  exact hp.bind fun a ha => (hf (some a) fun _ h => Option.some.inj h ▸ ha).weaken (Nat.sub_le ..) (Nat.le_refl _)

end Yields

theorem fail_yields {f : Flaw} : (fail f : Parse α).Yields n m P := fun c _ _ => .inr ⟨c.flaw f, rfl, by rintro ⟨⟩⟩

theorem abort_yields {f : Fault} (h : f ≠ .tooDeep) : (abort f : Parse α).Yields n m P := fun _ _ _ => .inr ⟨f, rfl, h⟩

theorem ask_yields {f : Cursor → α} : (ask f).Yields n n fun _ => True := fun c hc hn => .inl ⟨f c, c, rfl, ⟨hc, hn⟩, trivial⟩

theorem take_yields : take.Yields n n fun _ => True :=
  fun c hc hn => .inl ⟨c.text?, c.advance, rfl, hc.advance hn, trivial⟩

theorem advance_yields : advance.Yields n n fun _ => True := take_yields.bind (f := fun _ => pure ()) fun _ _ => .pure trivial

/-- Before the end of the text, something is taken. -/
theorem Starts.advance (h : p.Yields (n - 1) m P) : Starts n m (Parse.advance >>= fun _ => p) P :=
  fun _ hc hn ht => h (hc.passes hn ht).1 (hc.passes hn ht).2

theorem consume_yields : (consume token).Yields n n fun _ => True := by
  intro c hc hn
  refine .inl ⟨(c.consume token).1, (c.consume token).2, rfl, ?_, trivial⟩
  unfold Cursor.consume
  split
  · exact hc.advance hn
  · exact ⟨hc, hn⟩

theorem expect_yields : (expect token).Yields n (n - 1) fun _ => True := by
  have hboth : expect token = consume token >>= fun b =>
      if b = true then pure () else text? >>= fun t => fail (.expected token t) := by
    funext c
    show _ = (fun x : Bool × Cursor => (if x.1 = true then pure () else _ : Parse Unit) x.2) (c.consume token)
    unfold expect Cursor.expect Cursor.consume
    split <;> rfl
  rw [hboth]
  exact .given (.pure trivial) (ask_yields.bind fun _ _ => fail_yields)

theorem checkKind_yields {kind : String} : (checkKind kind).Yields n n fun _ => True := by
  intro c hc hn
  unfold YieldsAt checkKind Cursor.checkKind
  split
  · exact .inl ⟨(), c, rfl, ⟨hc, hn⟩, trivial⟩
  · exact .inr ⟨_, rfl, by rintro ⟨⟩⟩

theorem name_yields : name.Yields n (n - 1) fun _ => True := by
  intro c hc hn
  have hname : name c = if c.onKind "identifier" = true then .ok (c.text?.getD "", c.advance)
      else .error (c.flaw (.misplaced c.here.token.kind c.text?)) := by
    show ((c.checkKind "identifier").map fun u => (u, c)) >>= _ = _
    unfold Cursor.checkKind
    split <;> rfl
  unfold YieldsAt
  rw [hname]
  by_cases hkind : c.onKind "identifier" = true
  · have htext : c.text? ≠ none := by
      revert hkind
      unfold Cursor.onKind Cursor.text?
      cases c.here.token <;> simp [Token.kind, Token.text?]
    rw [if_pos hkind]
    exact .inl ⟨_, _, rfl, hc.passes hn htext, trivial⟩
  · rw [if_neg hkind]
    exact .inr ⟨_, rfl, by rintro ⟨⟩⟩

theorem afterCommas_yields (hp : ∀ n, p.Yields n n P) :
    ∀ n k, n ≤ k → (afterCommas p k).Yields n n fun l => ∀ a ∈ l, P a :=
  .fuel fun n _ ih => .given ((hp n).bind fun _ ha => (ih n (Nat.le_refl n)).bind fun _ hl => .pure (forall_mem_cons.2 ⟨ha, hl⟩))
    (.pure fun _ h => nomatch h)

theorem commaList_yields (hp : ∀ n, p.Yields n n P) : (commaList p).Yields n n fun l => ∀ a ∈ l, P a :=
  (hp n).bind fun _ ha => (Yields.remaining fun n _ => afterCommas_yields hp n).bind fun _ hl => .pure (forall_mem_cons.2 ⟨ha, hl⟩)

theorem number_yields {t : Option String} : (number t).Yields n n fun n => ∃ s, t = some s ∧ decimal? s = some n := by
  unfold number
  split
  · exact abort_yields (by rintro ⟨⟩)
  case h_2 s =>
    split
    · exact abort_yields (by rintro ⟨⟩)
    case h_2 n hn => exact .pure ⟨s, rfl, hn⟩

theorem integer_yields : integer.Yields n n fun _ => True :=
  checkKind_yields.bind fun _ _ => ask_yields.bind fun _ _ => number_yields.bind fun _ _ =>
    advance_yields.bind fun _ _ => .pure trivial

end Parse

end CheckedAsm
