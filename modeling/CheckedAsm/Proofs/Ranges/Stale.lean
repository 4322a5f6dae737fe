import CheckedAsm.Proofs.Analysis.Effects
import CheckedAsm.Proofs.Ranges.Execution
/-! # Stale ranges

The analysis does not update a recorded range wherever the value changes: a store, a copy, a call or a
value from a table leaves the range of its target as it was, a choice goes back to the range from before
it, and a loop is walked twice whatever happens in further rounds. A range is stale when it may be wrong
for such a reason. Here is which ranges become stale along a walk, and what it means that a body does not
rely on a stale one: every access whose index or table has a stale range stays inside the table for each
value the index may have. -/

namespace CheckedAsm

/-- The range admits the number. A bound that is no number bounds nothing. -/
def Range.Admits (range : Range) (n : Int) : Prop :=
  (∀ b, range.bottom.int? = some b → b ≤ n) ∧ ∀ t, range.top.int? = some t → n ≤ t

/-- Whether a number is a value of the location's type. -/
def Setting.Fits (s : Setting) (r : Ref) (n : Int) : Prop :=
  ∀ t, s.typeOfName r.name = .ok t → t.Fits n

namespace Context

/-- What is recorded about the reference admits the number. -/
def Admits (cx : Context) (r : Ref) (n : Int) : Prop := ∀ range, cx.range? r = some range → range.Admits n

/-- What is recorded about a table is no more than the bounds of its type. -/
def Within (s : Setting) (cx : Context) (r : Ref) : Prop :=
  ∀ cell size, s.typeOfName r.name = .ok (.table cell size) → ∀ range, cx.range? r = some range →
    (∀ b, range.bottom.int? = some b → 0 ≤ b) ∧ ∀ t, range.top.int? = some t → t ≤ size - 1

/-- What is recorded about the location is right if it has come to hold one of the given numbers. -/
def Takes (s : Setting) (cx : Context) (r : Ref) (values : Int → Prop) : Prop :=
  (∀ n, values n → cx.Admits r n) ∧ cx.Within s r

/-- The numbers an operand may be, where the ranges outside the stale ones are right. -/
def MayBe (s : Setting) (cx : Context) (stale : Set Ref) : Ref → Int → Prop
  | .constant c, n => n = c.ty.wrap c.value
  | .indexed .., n | .indirect _, n => Ty.byte.Fits n
  | r, n => s.Fits r n ∧ (r ∉ stale → cx.Admits r n)

/-- A table with a stale range, or reached by an index with one, is reached inside its bounds whatever
the index may be. -/
def Backs (s : Setting) (cx : Context) (stale : Set Ref) (cell : Ref × Ref × Ref) : Prop :=
  cell.1 ∈ stale ∨ cell.2.2 ∈ stale → ∀ of size c n, s.typeOf cell.1 = .ok (.table of size) →
    cell.2.1 = .constant c → cx.MayBe s stale cell.2.2 n → 0 ≤ c.value + n ∧ c.value + n ≤ size - 1

end Context

/-! ### Single operations -/

namespace Op

variable (s : Setting) (cx cx' : Context) (stale : Set Ref)

/-- A location that may come to hold any value of its type, while its range stays as it was. -/
def anyIn (r : Ref) : Ref × Prop := (r, cx'.Takes s r (s.Fits r))

/-- What a conjunction takes as the greatest value is right: that of its second operand, or its own former
one where the second operand is a cell of a table. -/
def UpperHolds (d : Ref) : Ref → Prop
  | .constant c => c.ty.wrap c.value ≤ c.value
  | .indexed .. => d ∉ stale
  | src => src ∉ stale

/-- What a conjunction leaves as the least value is right. -/
def LowerHolds (d src : Ref) : Prop :=
  ∀ m n, cx.MayBe s stale d m → cx.MayBe s stale src n → ∀ range b, cx'.range? d = some range →
    range.bottom.int? = some b → b ≤ (m.toNat &&& n.toNat : Nat)

/-- The locations an operation changes, each with what makes the range right that is recorded for it
afterwards. Sums, disjunctions and shifts record any value of the type, which is always right. -/
def changes : Op → List (Ref × Prop)
  | ld d src =>
    let right := match src with
      | .constant c => cx'.Takes s d (· = c.ty.wrap c.value)
      | .indexed .. | .indirect _ => cx'.Takes s d (s.Fits d)
      | _ => src ∉ stale ∨ cx'.Takes s d (s.Fits d)
    [(d, right), anyIn s cx' .z, anyIn s cx' .n]
  | st _ (.indexed ..) | st _ (.indirect _) => []
  | st src d => [(d, cx'.Takes s d fun n => s.Fits d n ∧ cx.MayBe s stale src n)]
  | add d src | sub d src =>
    let spoiled := match src with
      | .indexed .. => [anyIn s cx' .a]
      | _ => [(Ref.a, True)]
    (d, True) :: ((if d = .a then [] else spoiled)
      ++ [anyIn s cx' .z, anyIn s cx' .n, anyIn s cx' .c, anyIn s cx' .v])
  | cmp _ src => (if s.isWord src then [(Ref.a, True)] else [])
      ++ [anyIn s cx' .z, anyIn s cx' .n, anyIn s cx' .c]
  | and d src =>
    [(d, (LowerHolds s cx cx' stale d src ∧ UpperHolds stale d src) ∨ cx'.Takes s d (s.Fits d)),
      anyIn s cx' .z, anyIn s cx' .n]
  | or d _ | xor d _ => [(d, True), anyIn s cx' .z, anyIn s cx' .n]
  | shl (.indexed ..) | shr (.indexed ..) => [anyIn s cx' .z, anyIn s cx' .n, anyIn s cx' .c]
  | shl d | shr d => [(d, True), anyIn s cx' .z, anyIn s cx' .n, anyIn s cx' .c]
  | inc (.indexed ..) | dec (.indexed ..) => [anyIn s cx' .z, anyIn s cx' .n]
  | inc d | dec d =>
    [(d, d ∉ stale ∨ cx'.Takes s d (s.Fits d)), anyIn s cx' .z, anyIn s cx' .n]
  | copy _ (.indexed ..) | copy _ (.indirect _) => [(.a, True), (.z, True), (.n, True)]
  | copy src d => [(d, cx'.Takes s d fun n => s.Fits d n
        ∧ (s.typeOf src = s.typeOf d → cx.MayBe s stale src n)), (.a, True), (.z, True), (.n, True)]
  | trash d => [(d, True)]
  | nop => []

end Op

/-- The stale ranges after changes: those the changes make wrong, and the former ones elsewhere. -/
def staleAfter (changes : List (Ref × Prop)) (stale : Set Ref) : Set Ref :=
  {r | (∃ right, (r, right) ∈ changes ∧ ¬ right) ∨ (r ∈ stale ∧ r ∉ changes.map Prod.fst)}

/-! ### Blocks -/

/-- The stale ranges after a choice. Where both branches go on, what had a range before the choice gets
it back. -/
def staleMerged (s : Setting) (cx cx1 cx2 merged : Context) (stale1 stale2 : Set Ref) : Set Ref :=
  if cx1.terminated then stale2
  else if cx2.terminated then stale1
  else {r | cx.isMeaningful r ∧
    ¬ merged.Takes s r fun n => cx1.MayBe s stale1 r n ∨ cx2.MayBe s stale2 r n}

/-- The variable of a counting loop takes only values between the range it had and the last one, which
is one of its type. -/
def Countable (s : Setting) (d : Ref) (final : Int) : Prop := s.Fits d final ∧ d.settled = d

/-- The stale ranges in the first round of a counting loop. -/
def staleCounting (s : Setting) (d : Ref) (final : Int) (stale : Set Ref) : Set Ref :=
  {r | r ∈ stale ∨ ((r = d ∨ r = d.settled) ∧ ¬ Countable s d final)}

/-- The stale ranges after bytes were set aside: those bytes are as they were before. The accumulator has
no range then, unless it was set aside first. -/
def staleRestored (locations : List Ref) (stale stale1 : Set Ref) : Set Ref :=
  {r | (r = .a → locations.head? = some .a) ∧ if r ∈ locations then r ∈ stale else r ∈ stale1}

/-- The range of a reference is the same in two contexts, or it is among the stale ones. -/
def SameRanges (cx cx' : Context) (stale : Set Ref) : Prop :=
  ∀ r, cx.range? r ≠ cx'.range? r → r ∈ stale

mutual

/-- The instruction, walked from the trail with some stale ranges, does not rely on one, and leaves no
others than the given ones stale. -/
def Instr.Backed (s : Setting) : Instr → Trail → Set Ref → Set Ref → Prop
  | .op line op, t, stale, after =>
    (∀ cell ∈ op.settled.cells, t.cx.Backs s stale cell)
      ∧ ∀ t', (Instr.op line op).walk s t = .ok t' →
        staleAfter (op.settled.changes s t.cx t'.cx stale) stale ⊆ after
  | .call line target, t, stale, after => ∀ t', (Instr.call line target).walk s t = .ok t' →
      ∀ ty sig, s.typeOfName target = .ok ty → ty.target = .routine sig →
        staleAfter (sig.changed.map (Op.anyIn s t'.cx)) stale ⊆ after
  | .goto _ _, _, _, _ => True
  | .reset line pointer offset, t, stale, after =>
      ∀ t', (Instr.reset line pointer offset).walk s t = .ok t' →
        staleAfter [Op.anyIn s t'.cx pointer] stale ⊆ after
  | .ifThen _ _ _ yes, t, stale, after => ∃ stale1,
      yes.Backed s (t.withContext t.cx.branch) stale stale1
        ∧ ∀ t1 cx, yes.walk s (t.withContext t.cx.branch) = .ok t1 →
          Focus.merge s t.cx t1.cx t.cx.branch = .ok cx →
          staleMerged s t.cx t1.cx t.cx.branch cx stale1 stale ⊆ after
  | .ifElse _ _ _ yes no, t, stale, after => ∃ stale1 stale2,
      yes.Backed s (t.withContext t.cx.branch) stale stale1
        ∧ ∀ t1, yes.walk s (t.withContext t.cx.branch) = .ok t1 →
          no.Backed s (t1.withContext t.cx.branch) stale stale2
            ∧ ∀ t2 cx, no.walk s (t1.withContext t.cx.branch) = .ok t2 →
              Focus.merge s t.cx t1.cx t2.cx = .ok cx →
              staleMerged s t.cx t1.cx t2.cx cx stale1 stale2 ⊆ after
  | .loop _ _ _ body, t, stale, after => body.Backed s t stale after
      ∧ ∀ t1, body.walk s t = .ok t1 → body.Backed s t1 after after
        ∧ ∀ t2, body.walk s t1 = .ok t2 → SameRanges t1.cx t2.cx after
  | .count line d dir final body, t, stale, after => ∃ within : Set Ref,
      (∀ r ∈ within, r ≠ d → r ∈ after)
        ∧ ∀ cx, Focus.enterCount ⟨s, .count line d dir final body⟩ t.cx d dir final = .ok cx →
          body.Backed s (t.withContext cx) (staleCounting s d final.value stale) within
            ∧ ∀ t1, body.walk s (t.withContext cx) = .ok t1 →
              body.Backed s t1 within within
                ∧ (¬ (Countable s d final.value ∧ cx.range? d = t1.cx.range? d) → d.settled ∈ within)
                ∧ ∀ t2, body.walk s t1 = .ok t2 → SameRanges t1.cx t2.cx within
  | .interruptsOff _ body, t, stale, after => body.Backed s t stale after
  | .save line locations body, t, stale, after => ∃ stale1,
      staleRestored locations stale stale1 ⊆ after
        ∧ ∀ batons cx, Focus.setAside ⟨s, .save line locations body⟩ locations t.cx = .ok (batons, cx) →
          body.Backed s (t.withContext cx) stale stale1
  | .pointInto line pointer table body, t, stale, after => ∃ stale1,
      (∀ r ∈ stale1, r ≠ pointer → r ∈ after)
        ∧ ∀ cx, Focus.enterPoint ⟨s, .pointInto line pointer table body⟩ t.cx pointer table = .ok cx →
          body.Backed s (t.withContext cx) stale stale1

/-- The block, walked from the trail with some stale ranges, does not rely on one, and leaves no others
than the given ones stale. -/
def Block.Backed (s : Setting) : Block → Trail → Set Ref → Set Ref → Prop
  | .nil _, _, stale, after => stale ⊆ after
  | .cons head tail, t, stale, after => ∃ stale1, head.Backed s t stale stale1
      ∧ ∀ t1, head.walk s t = .ok t1 → tail.Backed s t1 stale1 after

end

/-- The static locations of a routine, whose values stay from one call to the next. -/
def Setting.statics (s : Setting) : Set Ref :=
  {r | ∃ e ∈ (s.symbols.localsOf s.routine).entries, r = .location e.1 ∧
    ∃ d, e.2.decl = .defn d ∧ d.initial.isSome}

/-- The body of a routine does not rely on a stale range, nor on the initial value of a static location:
it may have changed in a former call. -/
def Routine.Backed (symbols : Symbols) (r : Routine) : Prop :=
  let s := r.setting symbols
  ∀ body sig cx0 cx, r.body = some body → s.globalType r.name = .ok (.routine sig) →
    Context.ofSignature s sig = .ok cx0 → startStatics s cx0 = .ok cx →
    ∃ after, body.Backed s { cx } s.statics after

end CheckedAsm
