import CheckedAsm.Grammar.Body
import CheckedAsm.Proofs.Grammar.Yields
/-! # What can be spelled

The grammar leaves little room. A constant is a truth value, a number that fits a byte, or a word; a vector leads to a
routine; a table has at least one cell and at most 65536; an operand is a constant or a name, or is put together from two of
them in one of two ways. Here this is read off the productions, from constants up to blocks. -/

namespace CheckedAsm

open List

variable {known : String → Prop} {q r : Ref} {op : Op} {m : Nat} {second : Parse Ref} {w : String} {p : Parse Instr}

/-- A constant is a truth value, a number that fits a byte, or a word. -/
def Const.Spelled (c : Const) : Prop :=
  c.ty = .bit ∧ (c.value = 0 ∨ c.value = 1) ∨ c.ty = .byte ∧ 0 ≤ c.value ∧ c.value ≤ 255 ∨ c.ty = .word

/-- A vector leads to a routine, a table has a size within limits, and there are no locations for single bits. -/
def Ty.Spelled : Ty → Prop
  | .bit => False
  | .vector of => of.isRoutine = true
  | .table of size => of.Spelled ∧ 0 < size ∧ size ≤ 65536
  | _ => True

/-- A table starts with a list or a text, and any other location with one value. -/
def Initial.Suits (ty : Ty) : Initial → Prop
  | .value _ => ty.isTable = false
  | .values _ | .text _ => ty.isTable = true

/-- A definition has an address or an initial value, not both, and the value has the form its type asks for. -/
structure Defn.Spelled (ty : Ty) (d : Defn) : Prop where
  once : d.initial.isSome = true → d.addr = none
  suits : ∀ i, d.initial = some i → i.Suits ty

/-- The names of constants and types stand for what can be spelled. -/
structure Symbols.Readable (s : Symbols) : Prop where
  consts : ∀ name c, s.consts.get? name = some c → c.Spelled
  typedefs : ∀ name ty, s.typedefs.get? name = some ty → ty.Spelled

/-- The name is global, or local to the routine. -/
def Symbols.Knows (s : Symbols) (routine name : String) : Prop := s.hasGlobal name = true ∨ s.hasLocal routine name = true

namespace Ref

/-- A constant, a name that is known, or one that is left pending. -/
def Simple (known : String → Prop := fun _ => True) : Ref → Prop
  | .constant c => c.Spelled
  | .location n => known n
  | .pending .. => True
  | .indexed .. | .indirect _ => False

/-- A constant, a name, a cell of a table at a constant offset from an index, or a cell behind a pointer. -/
def Spelled (known : String → Prop := fun _ => True) : Ref → Prop
  | .indexed base (.constant offset) index => base.Simple known ∧ offset.Spelled ∧ index.Simple known
  | .indexed .. => False
  | .indirect base => base.Simple known
  | r => r.Simple known

theorem Simple.spelled (h : r.Simple known) : r.Spelled known := by
  cases r with
  | indexed | indirect => exact h.elim
  | location | constant | pending => exact h

theorem Simple.settled (h : r.Simple) : r.settled.Simple := by
  cases r with
  | pending => trivial
  | indexed | indirect | location | constant => exact h

theorem Spelled.settled (h : r.Spelled) : r.settled.Spelled := by
  cases r with
  | pending => trivial
  | indexed | indirect | location | constant => exact h

end Ref

/-- The operands of an operation can be spelled. -/
def Op.Spelled (known : String → Prop := fun _ => True) (op : Op) : Prop :=
  (∀ r, op.src? = some r → r.Spelled known) ∧ ∀ r, op.dest? = some r → r.Spelled known

theorem Op.Spelled.settled (h : op.Spelled) : op.settled.Spelled := by
  have hsrc : op.settled.src? = op.src?.map Ref.settled := by cases op <;> rfl
  have hdest : op.settled.dest? = op.dest?.map Ref.settled := by cases op <;> rfl
  unfold Op.Spelled
  rw [hsrc, hdest]
  constructor <;> intro r hr <;> obtain ⟨q, hq, rfl⟩ := Option.map_eq_some_iff.1 hr
  · exact (h.1 q hq).settled
  · exact (h.2 q hq).settled

mutual

/-- The references and constants of an instruction can be spelled. -/
def Instr.Spelled (known : String → Prop := fun _ => True) : Instr → Prop
  | .op _ op => op.Spelled known
  | .call .. | .goto .. => True
  | .reset _ pointer offset => pointer.Simple known ∧ offset.Spelled
  | .ifThen _ src _ yes => src.Simple known ∧ yes.Spelled known
  | .ifElse _ src _ yes no => src.Simple known ∧ yes.Spelled known ∧ no.Spelled known
  | .loop _ src _ body => (∀ r, src = some r → r.Simple known) ∧ body.Spelled known
  | .count _ dest _ final body => dest.Simple known ∧ final.Spelled ∧ body.Spelled known
  | .interruptsOff _ body => body.Spelled known
  | .save _ locations body => (∀ r ∈ locations, r.Simple known) ∧ body.Spelled known
  | .pointInto _ pointer table body => pointer.Simple known ∧ table.Simple known ∧ body.Spelled known

/-- The references and constants of a block can be spelled, and a jump to another routine is the last instruction. -/
def Block.Spelled (known : String → Prop := fun _ => True) : Block → Prop
  | .nil _ => True
  | .cons head tail => head.Spelled known ∧ tail.Spelled known ∧ (head.isGoto = true → tail = .nil tail.line)

end

/-- The blocks that stand directly in an instruction. -/
def Instr.blocks : Instr → List Block
  | .op .. | .reset .. | .call .. | .goto .. => []
  | .ifThen _ _ _ yes => [yes]
  | .ifElse _ _ _ yes no => [yes, no]
  | .loop _ _ _ body | .count _ _ _ _ body | .interruptsOff _ body | .save _ _ body | .pointInto _ _ _ body => [body]

/-- The instruction stands in the block, at any depth. -/
inductive Block.Contains : Block → Instr → Prop
  | head {i tail} : Contains (.cons i tail) i
  | tail {head i tail} : tail.Contains i → Contains (.cons head tail) i
  | inside {head i tail b} : b ∈ head.blocks → b.Contains i → Contains (.cons head tail) i

theorem Instr.Spelled.block {i : Instr} (h : i.Spelled) {b : Block} (hb : b ∈ i.blocks) : b.Spelled := by
  cases i with
  | op | call | goto | reset => cases hb
  | ifElse =>
    obtain rfl | hb := mem_cons.1 hb
    · exact h.2.1
    · obtain rfl := mem_singleton.1 hb
      exact h.2.2
  | interruptsOff =>
    obtain rfl := mem_singleton.1 hb
    exact h
  | count | pointInto =>
    obtain rfl := mem_singleton.1 hb
    exact h.2.2
  | ifThen | loop | save =>
    obtain rfl := mem_singleton.1 hb
    exact h.2

theorem Block.Spelled.contains {b : Block} {i : Instr} (h : b.Spelled) (hi : b.Contains i) : i.Spelled := by
  induction hi with
  | head => exact h.1
  | tail _ ih => exact ih h.2.1
  | inside hb _ ih => exact ih (h.1.block hb)

theorem Block.ofList_spelled {line : Nat} {is : List Instr} (h : ∀ i ∈ is, i.Spelled known)
    (hlast : is.Pairwise fun i _ => i.isGoto = false) : (Block.ofList line is).Spelled known := by
  induction hlast with
  | nil => trivial
  | @cons i is hi _ ih =>
    obtain ⟨hspelled, his⟩ := forall_mem_cons.1 h
    refine ⟨hspelled, ih his, fun hgo => ?_⟩
    cases is with
    | nil => rfl
    | cons j is => exact absurd hgo (by simp [hi j mem_cons_self])

namespace Grammar

open Parse

variable {s : Symbols} {n : Nat}

/-! ### Constants and types -/

theorem ofInt_spelled {n : Int} (hn : 0 ≤ n) : (Const.ofInt n).Spelled := by
  unfold Const.ofInt Const.typeOfInt
  split
  · exact .inr (.inr rfl)
  case isFalse hle => exact .inr (.inl ⟨rfl, hn, Int.not_lt.1 hle⟩)

theorem const_yields (hs : s.Readable) : (const s).Yields n n Const.Spelled := by
  -- The text is asked for before the kind of the token, at one and the same cursor.
  refine fun c hc hn => .ask ?_
  split
  · exact .of_yields hc hn (advance_yields.bind fun _ _ => .pure (.inl ⟨rfl, .inr rfl⟩))
  split
  · exact .of_yields hc hn (advance_yields.bind fun _ _ => .pure (.inl ⟨rfl, .inl rfl⟩))
  refine .ask ?_
  split
  case isTrue hint =>
    refine .of_yields hc hn (number_yields.bind fun n hn => advance_yields.bind fun _ _ => .pure ?_)
    obtain ⟨t, ht, hn⟩ := hn
    exact ofInt_spelled (hc.integer hint ht hn)
  case isFalse =>
    refine .of_yields hc hn (.given ?_ ?_)
    · exact ask_yields.bind fun _ _ => number_yields.bind fun _ _ => advance_yields.bind fun _ _ => .pure (.inr (.inr rfl))
    split
    case h_1 k hk =>
      obtain ⟨name, -, hname⟩ := Option.bind_eq_some_iff.1 hk
      exact advance_yields.bind fun _ _ => .pure (hs.consts name k hname)
    case h_2 => exact fail_yields

theorem slot_yields : slot.Yields n n fun _ => True :=
  ask_yields.bind fun _ _ => take_yields.bind fun _ _ => .pure trivial

theorem constraint_yields {word : String} : (constraint word).Yields n n fun _ => True :=
  .given ((commaList_yields fun _ => slot_yields).bind fun _ _ => .pure trivial) (.pure trivial)

theorem signature_yields : signature.Yields n n fun _ => True :=
  constraint_yields.bind fun _ _ => constraint_yields.bind fun _ _ => constraint_yields.bind fun _ _ => .pure trivial

theorem tableOf_yields {term : Parse Ty} (hs : s.Readable) (hterm : term.Yields n n Ty.Spelled) :
    (tableOf s term).Yields n n Ty.Spelled := by
  refine hterm.bind fun t ht => .given ?_ (.pure ht)
  have hsize {n : Nat} : (tableSize s).Yields n (n - 1) fun _ => True :=
    expect_yields.bind fun _ _ => (const_yields hs).bind fun _ _ => expect_yields.bind fun _ _ => .pure trivial
  refine hsize.bind fun size _ => .ite (fun _ => fail_yields) fun hin => .pure ⟨ht, ?_⟩
  omega

theorem vectorOf_yields {t : Ty} [Lowered n m] : (vectorOf t).Yields n m Ty.Spelled := by
  cases t with
  | routine sig => exact .pure rfl
  | bit | byte | word | pointer => exact fail_yields
  | vector | table => exact abort_yields (by rintro ⟨⟩)

theorem typeTerm_yields (hs : s.Readable) : ∀ n k, n ≤ k → (typeTerm s k).Yields n n Ty.Spelled := by
  refine .fuel fun n _ ih => ?_
  refine .given ((tableOf_yields hs (ih n (Nat.le_refl n))).bind fun t ht => expect_yields.bind fun _ _ => .pure ht) ?_
  refine .given (.pure trivial) (.given (.pure trivial) ?_)
  refine .given ((ih n (Nat.le_refl n)).bind fun _ _ => vectorOf_yields) ?_
  refine .given (signature_yields.bind fun _ _ => .pure trivial) (.given (.pure trivial) ?_)
  refine take_yields.bind fun t _ => ?_
  split
  case h_1 ty hty =>
    obtain ⟨name, -, hname⟩ := Option.bind_eq_some_iff.1 hty
    exact .pure (hs.typedefs name ty hname)
  case h_2 => exact fail_yields

theorem type_yields (hs : s.Readable) : (type s).Yields n n Ty.Spelled :=
  .remaining (f := fun k => tableOf s (typeTerm s k)) fun n _ k hk => tableOf_yields hs (typeTerm_yields hs n k hk)

/-! ### Definitions -/

theorem initial_yields {ty : Ty} (hs : s.Readable) : (initial s ty).Yields n n (Initial.Suits ty) := by
  unfold initial
  refine .ite (fun htable => ask_yields.bind fun _ _ => .ite (fun _ => ?_) fun _ => ?_) fun hplain => ?_
  · exact take_yields.bind fun _ _ => .pure htable
  · exact (commaList_yields fun _ => const_yields hs).bind fun _ _ => .pure htable
  · exact (const_yields hs).bind fun _ _ => .pure (eq_false_of_ne_true hplain)

theorem defn_yields (hs : s.Readable) : (defn s).Yields n (n - 1) fun r => r.1.Spelled ∧ r.2.Spelled r.1 := by
  refine (type_yields hs).bind fun ty hty => name_yields.bind fun name _ => ?_
  refine .optional (initial_yields hs) fun init hsuits => .optional integer_yields fun addr _ => ?_
  refine .ite (fun _ => fail_yields.bind (m := 0) fun _ => False.elim) fun honce => ?_
  refine ask_yields.bind fun line _ => .pure ⟨hty, ?_, hsuits⟩
  intro hsome
  cases addr with
  | none => rfl
  | some a => exact absurd ⟨hsome, rfl⟩ honce

/-! ### Operands -/

section

variable {sc : Scope}

theorem operands_yields {first : Parse Ref} {P Q : Ref → Prop} (hfirst : first.Yields n n P)
    (hsecond : second.Yields (n - 1) (n - 1) Q) : (operands first second).Yields n n fun r => P r.1 ∧ Q r.2 :=
  hfirst.bind fun _ hr => expect_yields.bind fun _ _ => hsecond.bind fun _ hs => .pure ⟨hr, hs⟩

theorem atLine_yields {make : Nat → Instr} (h : ∀ l, (make l).Spelled known) [Lowered n m] :
    (atLine make).Yields n m (Instr.Spelled known) :=
  ask_yields.bind fun l _ => .pure (h l)

theorem unary_starts {dest : Parse Ref} {make : Ref → Op} (hdest : ∀ n, dest.Yields n n (Ref.Spelled known))
    (h : ∀ r, r.Spelled known → (make r).Spelled known) : (unary dest make).Starts n (n - 1) (Instr.Spelled known) :=
  .advance ((hdest _).bind fun r hr => atLine_yields fun _ => h r hr)

/-- The two operands of an operation, in either order. -/
theorem spelled_of_operands (hsrc : op.src? = some r) (hdest : op.dest? = some q) (hr : r.Spelled known)
    (hq : q.Spelled known) : op.Spelled known :=
  ⟨fun _ h => Option.some.inj (hsrc.symm.trans h) ▸ hr, fun _ h => Option.some.inj (hdest.symm.trans h) ▸ hq⟩

theorem spelled_of_dest (hsrc : op.src? = none) (hdest : op.dest? = some q) (hq : q.Spelled known) : op.Spelled known :=
  ⟨fun _ h => (nomatch hsrc.symm.trans h), fun _ h => Option.some.inj (hdest.symm.trans h) ▸ hq⟩

theorem direction_yields : direction.Yields n n fun _ => True :=
  .given (.pure trivial) (.given (.pure trivial) (ask_yields.bind fun _ _ => fail_yields))

variable (hs : sc.symbols.Readable) (hknown : ∀ n, sc.symbols.Knows sc.routine n → known n)
include hs hknown

theorem operand_yields : (operand sc).Yields n n (Ref.Simple known) := by
  refine ask_yields.bind fun t _ => ask_yields.bind fun _ _ => .ite (fun _ => ?_) fun _ => ?_
  · exact (const_yields hs).bind fun c hc => .pure hc
  · refine ask_yields.bind fun site _ => advance_yields.bind fun _ _ => ?_
    cases t with
    | none => exact .pure trivial
    | some name =>
      refine .pure ?_
      unfold Scope.lookup
      split
      case isTrue hglobal => exact hknown name (.inl hglobal)
      split
      case isTrue hlocal => exact hknown name (.inr hlocal.2)
      trivial

theorem indexedOperand_yields : (indexedOperand sc).Yields n n (Ref.Spelled known) := by
  have hoperand {n : Nat} : (operand sc).Yields n n _ := operand_yields hs hknown
  refine hoperand.bind fun base hbase => .given ?_ (.pure hbase.spelled)
  refine ask_yields.bind fun _ _ => ask_yields.bind fun _ _ => .ite (fun _ => ?_) fun _ => ?_
  · exact (const_yields hs).bind fun offset hoffset => expect_yields.bind fun _ _ =>
      hoperand.bind fun index hindex => .pure ⟨hbase, hoffset, hindex⟩
  · exact hoperand.bind fun index hindex => .pure ⟨hbase, ofInt_spelled (Int.le_refl 0), hindex⟩

theorem anyOperand_yields : (anyOperand sc).Yields n n (Ref.Spelled known) := by
  refine .given ?_ (indexedOperand_yields hs hknown)
  exact (operand_yields hs hknown).bind fun base hbase => expect_yields.bind fun _ _ => expect_yields.bind fun _ _ =>
    expect_yields.bind fun _ _ => .pure hbase

/-! ### Instructions and blocks -/

theorem binary_starts {make : Ref → Ref → Op} (hsecond : ∀ n, second.Yields n n (Ref.Spelled known))
    (h : ∀ r q, r.Spelled known → q.Spelled known → (make r q).Spelled known) :
    (binary sc make second).Starts n (n - 1) (Instr.Spelled known) :=
  .advance ((operands_yields (operand_yields hs hknown) (hsecond _)).bind fun r hr =>
    atLine_yields fun _ => h r.1 r.2 hr.1.spelled hr.2)

theorem singleOp_starts (h : singleOp sc w = some p) : p.Starts n (n - 1) (Instr.Spelled known) := by
  have hindexed (n : Nat) : (indexedOperand sc).Yields n n _ := indexedOperand_yields hs hknown
  have hany (n : Nat) : (anyOperand sc).Yields n n _ := anyOperand_yields hs hknown
  unfold singleOp at h
  split at h
  case h_1 => cases h; exact binary_starts hs hknown hany fun _ _ hr hq => spelled_of_operands rfl rfl hq hr
  case h_8 => cases h; exact binary_starts hs hknown hany fun _ _ hr hq => spelled_of_operands rfl rfl hr hq
  case h_9 | h_10 | h_11 | h_12 => cases h; exact unary_starts hindexed fun _ hr => spelled_of_dest rfl rfl hr
  case h_13 =>
    cases h
    exact unary_starts (fun _ => (operand_yields hs hknown).mono fun _ => Ref.Simple.spelled) fun _ hr => spelled_of_dest rfl rfl hr
  case h_14 =>
    cases h
    exact .advance (atLine_yields fun _ => ⟨fun _ h => (nomatch h), fun _ h => nomatch h⟩)
  case h_15 =>
    cases h
    exact .advance ((operands_yields (hany _) (hany _)).bind fun r hr => atLine_yields fun _ => spelled_of_operands rfl rfl hr.1 hr.2)
  case h_16 => cases h
  all_goals cases h; exact binary_starts hs hknown hindexed fun _ _ hr hq => spelled_of_operands rfl rfl hq hr

theorem condition_yields : (condition sc).Yields n n fun r => r.2.Simple known :=
  consume_yields.bind fun _ _ => (operand_yields hs hknown).bind fun _ hr => .pure hr

theorem structured_starts {block : Parse Block}
    (hblock : ∀ k ≤ n, block.Yields k k (Block.Spelled known)) (h : structured sc block w = some p) :
    p.Starts (n + 1) n (Instr.Spelled known) := by
  have hoperand {n : Nat} : (operand sc).Yields n n _ := operand_yields hs hknown
  have hcondition {n : Nat} : (condition sc).Yields n n _ := condition_yields hs hknown
  have hblock {k : Nat} [h : Lowered k n] := hblock k h.le
  unfold structured at h
  split at h <;> cases h <;> refine .advance ?_
  case h_1 =>
    refine hcondition.bind fun r hr => (hblock).bind fun yes hyes => .given ((hblock).bind fun no hno => ?_) ?_
    · exact atLine_yields fun _ => ⟨hr, hyes, hno⟩
    · exact atLine_yields fun _ => ⟨hr, hyes⟩
  case h_2 =>
    refine (hblock).bind fun body hbody => .given (hcondition.bind fun r hr => ?_) (expect_yields.bind fun _ _ => ?_)
    · exact atLine_yields fun _ => ⟨fun _ heq => Option.some.inj heq ▸ hr, hbody⟩
    · exact atLine_yields fun _ => ⟨fun _ h => (nomatch h), hbody⟩
  case h_3 =>
    exact hoperand.bind fun dest hdest => direction_yields.bind fun _ _ => expect_yields.bind fun _ _ =>
      (const_yields hs).bind fun final hfinal => (hblock).bind fun body hbody => atLine_yields fun _ => ⟨hdest, hfinal, hbody⟩
  case h_4 =>
    exact hoperand.bind fun pointer hpointer => (const_yields hs).bind fun offset hoffset =>
      atLine_yields fun _ => ⟨hpointer, hoffset⟩
  case h_5 | h_6 => exact take_yields.bind fun _ _ => atLine_yields fun _ => trivial
  case h_7 =>
    exact expect_yields.bind fun _ _ => expect_yields.bind fun _ _ => (hblock).bind fun body hbody =>
      atLine_yields fun _ => hbody
  case h_8 =>
    exact (commaList_yields fun _ => hoperand).bind fun rs hrs => (hblock).bind fun body hbody =>
      atLine_yields fun _ => ⟨hrs, hbody⟩
  case h_9 =>
    exact hoperand.bind fun pointer hpointer => expect_yields.bind fun _ _ => hoperand.bind fun table htable =>
      (hblock).bind fun body hbody => atLine_yields fun _ => ⟨hpointer, htable, hbody⟩

theorem instr_yields {block : Parse Block} (hblock : ∀ k ≤ n, block.Yields k k (Block.Spelled known)) :
    (instr sc block).Yields (n + 1) n (Instr.Spelled known) := by
  refine fun c hc hn => .ask ?_
  split
  case h_1 p hp =>
    obtain ⟨w, hw, hp⟩ := Option.bind_eq_some_iff.1 hp
    have hstarts : p.Starts (n + 1) n (Instr.Spelled known) := by
      cases hsingle : singleOp sc w with
      | some q =>
        rw [hsingle] at hp
        exact singleOp_starts hs hknown (hsingle.trans hp)
      | none =>
        rw [hsingle] at hp
        exact structured_starts hs hknown hblock hp
    exact hstarts hc hn (by simp [hw])
  case h_2 => exact .of_yields hc hn fail_yields

omit hs hknown in
theorem instrs_yields {item : Parse Instr} (hitem : ∀ k < n, item.Yields (k + 1) k (Instr.Spelled known)) {k : Nat} (hk : n ≤ k) :
    (instrs item k).Yields n n fun is => (∀ i ∈ is, i.Spelled known) ∧ is.Pairwise fun i _ => i.isGoto = false := by
  induction n generalizing k with
  | zero => exact .zero
  | succ n ih =>
    obtain ⟨k, rfl⟩ := Nat.exists_eq_add_of_lt hk
    refine ask_yields.bind fun _ _ => .ite (fun _ => .pure ⟨fun _ h => (nomatch h), .nil⟩) fun _ => ?_
    refine (hitem n (Nat.lt_succ_self n)).bind fun i hi => .ite (fun _ => ?_) fun hgo => ?_
    · exact .pure ⟨fun j hj => mem_singleton.1 hj ▸ hi, pairwise_singleton ..⟩
    · refine (ih (fun k hk => hitem k (Nat.lt_succ_of_lt hk)) (Nat.le_add_right ..)).bind fun is his => .pure ?_
      exact ⟨forall_mem_cons.2 ⟨hi, his.1⟩, .cons (fun _ _ => eq_false_of_ne_true hgo) his.2⟩

theorem blockWithin_yields : ∀ n k, n ≤ k → (blockWithin sc k).Yields n n (Block.Spelled known) := by
  refine .fuel fun n k ih => expect_yields.bind fun _ _ => ?_
  refine Yields.bind (.remaining (f := fun j => instrs (instr sc (blockWithin sc k)) (j + 1)) fun m hm j hj =>
    instrs_yields (fun i _ => instr_yields hs hknown fun i' _ => ih i' (by omega)) (Nat.le_succ_of_le hj)) fun is his => ?_
  exact expect_yields.bind fun _ _ => ask_yields.bind fun _ _ => .pure (Block.ofList_spelled his.1 his.2)

theorem block_yields : (block sc).Yields n n (Block.Spelled known) :=
  .remaining (f := fun k => blockWithin sc (k + 1)) fun n _ k hk => blockWithin_yields hs hknown n (k + 1) (Nat.le_succ_of_le hk)

end

end Grammar

end CheckedAsm
