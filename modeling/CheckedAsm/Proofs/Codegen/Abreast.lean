import CheckedAsm.Proofs.Codegen.Flow
import CheckedAsm.Proofs.Codegen.Placement
/-! # Two layouts side by side

A program is laid out twice, once with jumps taken back and once with all of them. Both layouts are read off
one list of items in which those that were taken back are marked. An address in the one corresponds to an address in the
other when the same items come before it, marked ones included, and every label that got its address on the way has
corresponding addresses. -/

namespace CheckedAsm

open Codegen Emitter List

variable {ms xs : Marks} {a a' c : Int} {is : List Item} {i : Item} {given : Labels} {id : LabelId} {cs : CodeSetting} {k : Code}
  {next : Option String} {ps : List Placed}

/-! ### Marked items -/

/-- Items in the order of a layout, each with whether it is kept. -/
abbrev Marks := List (Item × Bool)

namespace Marks

/-- The items of the layout that keeps all of them. -/
def all (ms : Marks) : List Item := ms.map (·.1)

/-- The items that are kept. -/
def kept (ms : Marks) : List Item := (ms.filter (·.2)).map (·.1)

/-- Items that are all kept. -/
def ofItems (is : List Item) : Marks := is.map fun i => (i, true)

/-- Instructions that are all kept. -/
def ofCodes (ks : List Code) : Marks := ofItems (ks.map Code.item)

/-- The two addresses are those after the marks, where the first of them stands at `c` in both layouts. -/
def Ends (c : Int) (ms : Marks) (a a' : Int) : Prop := a = c + Item.rooms ms.kept ∧ a' = c + Item.rooms ms.all

/-- The two addresses are those of the same place before, between or after the marks. -/
def At (c : Int) (ms : Marks) (a a' : Int) : Prop := ∃ us vs, ms = us ++ vs ∧ Ends c us a a'

variable {us vs : Marks} {ks : List Code} {j : Item}

theorem all_append : all (us ++ vs) = us.all ++ vs.all := map_append

theorem kept_append : kept (us ++ vs) = us.kept ++ vs.kept := by simp [kept]

theorem all_ofItems : all (ofItems is) = is := by simp [all, ofItems, Function.comp_def]

theorem kept_ofItems : kept (ofItems is) = is := by
  have hfilter : (ofItems is).filter (·.2) = ofItems is := filter_eq_self.2 (by simp [ofItems])
  rw [kept, hfilter]
  exact all_ofItems

theorem ofItems_append {js : List Item} : ofItems (is ++ js) = ofItems is ++ ofItems js := map_append

theorem ofCodes_append {ks' : List Code} : ofCodes (ks ++ ks') = ofCodes ks ++ ofCodes ks' := by
  simp [ofCodes, ofItems_append]

theorem Ends.append (h : Ends c ms a a') (is : List Item) :
    Ends c (ms ++ ofItems is) (a + Item.rooms is) (a' + Item.rooms is) := by
  obtain ⟨rfl, rfl⟩ := h
  refine ⟨?_, ?_⟩
  · rw [kept_append, kept_ofItems, Item.rooms_append, Int.add_assoc]
  · rw [all_append, all_ofItems, Item.rooms_append, Int.add_assoc]

theorem Ends.codes (h : Ends c ms a a') (ks : List Code) :
    Ends c (ms ++ ofCodes ks) (a + Code.room ks) (a' + Code.room ks) := by
  rw [← Item.rooms_codes]
  exact h.append _

theorem Ends.at (h : Ends c ms a a') : At c ms a a' := ⟨ms, [], by simp, h⟩

theorem At.append (h : At c us a a') (vs : Marks) : At c (us ++ vs) a a' := by
  obtain ⟨xs, ys, rfl, h⟩ := h
  exact ⟨xs, ys ++ vs, append_assoc .., h⟩

/-- The last item may be replaced by one that takes the same room. -/
theorem Ends.replace (h : Ends c (xs ++ [(i, true)]) a a') (hij : i.width = j.width) : Ends c (xs ++ [(j, true)]) a a' := by
  have hroom : Item.rooms [i] = Item.rooms [j] := by simp [Item.rooms, hij]
  obtain ⟨rfl, rfl⟩ := h
  refine ⟨?_, ?_⟩
  · rw [kept_append, kept_append, Item.rooms_append, Item.rooms_append]
    exact congrArg (fun n => c + (Item.rooms xs.kept + n)) hroom
  · rw [all_append, all_append, Item.rooms_append, Item.rooms_append]
    exact congrArg (fun n => c + (Item.rooms xs.all + n)) hroom

theorem At.replace (h : At c (xs ++ [(i, true)]) a a') (hij : i.width = j.width) : At c (xs ++ [(j, true)]) a a' := by
  obtain ⟨us, vs, heq, hends⟩ := h
  obtain rfl | ⟨vs, v, rfl⟩ := eq_nil_or_concat vs
  · rw [append_nil] at heq
    exact ((heq ▸ hends).replace hij).at
  · rw [concat_eq_append, ← append_assoc] at heq
    obtain ⟨rfl, -⟩ := append_inj' heq rfl
    exact ⟨us, vs ++ [(j, true)], append_assoc .., hends⟩

end Marks

/-! ### Labels in both layouts -/

/-- Two tables of labels have the same labels. Each has the address that it was given, or it got related addresses. -/
structure Labels.Paired (given : Labels) (P : Int → Int → Prop) (ls ls' : Labels) : Prop where
  given_le : given.size ≤ ls.size
  size : ls'.size = ls.size
  name : ∀ id, (ls'.entry id).name = (ls.entry id).name
  length : ∀ id, (ls'.entry id).length = (ls.entry id).length
  addr : ∀ id, ((ls.entry id).addr = (given.entry id).addr ∧ (ls'.entry id).addr = (given.entry id).addr)
    ∨ ∃ a a', (ls.entry id).addr = some a ∧ (ls'.entry id).addr = some a' ∧ P a a'

namespace Labels.Paired

variable {ls ls' ls1 ls1' : Labels} {P Q : Int → Int → Prop}

section

variable (h : Paired given P ls ls')
include h

theorem mono (hPQ : ∀ a a', P a a' → Q a a') : Paired given Q ls ls' where
  given_le := h.given_le
  size := h.size
  name := h.name
  length := h.length
  addr id := (h.addr id).imp_right fun ⟨a, a', ha, ha', hp⟩ => ⟨a, a', ha, ha', hPQ a a' hp⟩

/-- A label may get related addresses. -/
theorem resolve (hp : P a a') :
    Paired given P (ls.modify id fun l => { l with addr := some a }) (ls'.modify id fun l => { l with addr := some a' }) where
  given_le := by simpa using h.given_le
  size := by simpa using h.size
  name id' := by
    simp only [entry_modify, h.size]
    split <;> exact h.name id'
  length id' := by
    simp only [entry_modify, h.size]
    split <;> exact h.length id'
  addr id' := by
    simp only [entry_modify, h.size]
    split
    · exact .inr ⟨a, a', rfl, rfl, hp⟩
    · exact h.addr id'

/-- A label may get a length. -/
theorem changeLength {n : Option Int} :
    Paired given P (ls.modify id fun l => { l with length := n }) (ls'.modify id fun l => { l with length := n }) where
  given_le := by simpa using h.given_le
  size := by simpa using h.size
  name id' := by
    simp only [entry_modify, h.size]
    split <;> exact h.name id'
  length id' := by
    simp only [entry_modify, h.size]
    split
    · rfl
    · exact h.length id'
  addr id' := by
    simp only [entry_modify, h.size]
    split <;> exact h.addr id'

/-- Labels that come later are at the same distance from each other. -/
theorem extend {d : Int} (hle : ls.size ≤ ls1.size) (hsize : ls1'.size = ls1.size)
    (hkept : ∀ id < ls.size, ls1.entry id = ls.entry id) (hkept' : ∀ id < ls.size, ls1'.entry id = ls'.entry id)
    (hmoved : ∀ id, ls.size ≤ id → ls1'.entry id = (ls1.entry id).moved d)
    (hnew : ∀ id a, ls.size ≤ id → (ls1.entry id).addr = some a → Q a (a + d)) (hPQ : ∀ a a', P a a' → Q a a') :
    Paired given Q ls1 ls1' where
  given_le := h.given_le.trans hle
  size := hsize
  name id := by
    obtain hlt | hge := Nat.lt_or_ge id ls.size
    · rw [hkept id hlt, hkept' id hlt, h.name]
    · rw [hmoved id hge]
      rfl
  length id := by
    obtain hlt | hge := Nat.lt_or_ge id ls.size
    · rw [hkept id hlt, hkept' id hlt, h.length]
    · rw [hmoved id hge]
      rfl
  addr id := by
    obtain hlt | hge := Nat.lt_or_ge id ls.size
    · rw [hkept id hlt, hkept' id hlt]
      exact (h.mono hPQ).addr id
    · rw [hmoved id hge]
      cases ha : (ls1.entry id).addr with
      | none =>
        have hgiven : (given.entry id).addr = none := by
          rw [entry_of_size_le (h.given_le.trans hge)]
        exact .inl ⟨hgiven.symm, by simp [Label.moved, ha, hgiven]⟩
      | some a => exact .inr ⟨a, a + d, rfl, by simp [Label.moved, ha], hnew id a hge ha⟩

end

end Labels.Paired

/-! ### Emitters side by side -/

/-- The first emitter has the items that are kept, the second has all. -/
structure Emitter.Abreast (c : Int) (given : Labels) (ms : Marks) (e e' : Emitter) : Prop where
  items : e.items.toList = ms.kept
  items' : e'.items.toList = ms.all
  ends : ms.Ends c e.addr e'.addr
  counter : e'.counter = e.counter
  labels : Labels.Paired given (ms.At c) e.labels e'.labels

/-- The two states have their code side by side. They agree on trampolines and pointers, and storage is as it was
given. -/
structure CodeState.Abreast (c : Int) (given : Labels) (ms : Marks) (st st' : CodeState) : Prop where
  emitter : st.emitter.Abreast c given ms st'.emitter
  trampolines : st'.trampolines = st.trampolines
  pointers : st'.pointers = st.pointers
  storage : ∀ id ∈ given.storage, st.emitter.labels.entry id = given.entry id ∧ st'.emitter.labels.entry id = given.entry id

section

variable {e e' e1 : Emitter} {st st' st1 : CodeState}

namespace Emitter.Abreast

section

variable (h : e.Abreast c given ms e')
include h

theorem resolve : (e.resolve id).Abreast c given ms (e'.resolve id) where
  items := h.items
  items' := h.items'
  ends := h.ends
  counter := h.counter
  labels := h.labels.resolve h.ends.at

theorem codes (ks : List Code) :
    (e.codes ks).Abreast c given (ms ++ .ofCodes ks) (e'.codes ks) where
  items := by rw [codes_items, h.items, Marks.kept_append, Marks.ofCodes, Marks.kept_ofItems]
  items' := by rw [codes_items, h.items', Marks.all_append, Marks.ofCodes, Marks.all_ofItems]
  ends := by
    rw [codes_addr, codes_addr]
    exact h.ends.codes ks
  counter := by rw [codes_counter, codes_counter, h.counter]
  labels := by
    rw [codes_labels, codes_labels]
    exact h.labels.mono fun a a' ha => ha.append _

theorem emit {n : Int} (hn : i.room = .ok n) :
    ((e.append i).move n).Abreast c given (ms ++ .ofItems [i]) ((e'.append i).move n) where
  items := by
    rw [Marks.kept_append, Marks.kept_ofItems, ← h.items]
    simp [Emitter.append, Emitter.move]
  items' := by
    rw [Marks.all_append, Marks.all_ofItems, ← h.items']
    simp [Emitter.append, Emitter.move]
  ends := by
    have hwidth : Item.rooms [i] = n := by simp [Item.rooms, Item.width, hn]
    rw [← hwidth]
    exact h.ends.append [i]
  counter := h.counter
  labels := h.labels.mono fun a a' ha => ha.append _

/-- Where the last item is kept, both end with the same one. -/
theorem tail? (hlast : ∀ x, ms.getLast? = some x → x.2 = true) : e'.tail? = e.tail? := by
  rw [tail?_of_items h.items, tail?_of_items h.items']
  obtain rfl | ⟨xs, ⟨i, b⟩, rfl⟩ := eq_nil_or_concat ms
  · rfl
  · rw [concat_eq_append] at hlast ⊢
    obtain rfl : b = true := hlast _ getLast?_concat
    rw [Marks.all_append, Marks.kept_append]
    exact getLast?_concat.trans getLast?_concat.symm

end

end Emitter.Abreast

namespace CodeState.Abreast

theorem withEmitter {ms' : Marks} (h : st.Abreast c given ms st') (he : e.Abreast c given ms' e')
    (hlabels : e.labels = st.emitter.labels) (hlabels' : e'.labels = st'.emitter.labels) :
    (st.withEmitter e).Abreast c given ms' (st'.withEmitter e') where
  emitter := he
  trampolines := h.trampolines
  pointers := h.pointers
  storage := by
    simp only [CodeState.withEmitter, hlabels, hlabels']
    exact h.storage

theorem resolve (h : st.Abreast c given ms st') (hid : id ∉ given.storage) :
    (st.resolve id).Abreast c given ms (st'.resolve id) where
  emitter := h.emitter.resolve
  trampolines := h.trampolines
  pointers := h.pointers
  storage id' hid' := by
    have hne : id ≠ id' := fun heq => hid (heq ▸ hid')
    obtain ⟨hs, hs'⟩ := h.storage id' hid'
    exact ⟨(entry_resolve_of_ne hne).trans hs, (entry_resolve_of_ne hne).trans hs'⟩

end CodeState.Abreast

/-- The code of a block comes in both. Where it ends with a jump that no label stands after, all labels stand before that
jump. -/
theorem Block.compile_abreast {b : Block} (h : st.Abreast c given ms st')
    (hb : b.Addresses cs given.storage) (hc : b.compile cs st = .ok st1) :
    ∃ st1' ks, b.compile cs st' = .ok st1' ∧ st1.Abreast c given (ms ++ .ofCodes ks) st1'
      ∧ CodeState.Spans cs ∅ st st1 ks ∧ st'.emitter.Adds st1'.emitter ∧ b.tail.Fits st st1 ks
      ∧ (b.tail = .jump → ∃ xs k, ks = xs ++ [k]
        ∧ Labels.Paired given ((ms ++ .ofCodes xs).At c) st1.emitter.labels st1'.emitter.labels) := by
  have hpaired := h.emitter.labels
  let S : Shift := ⟨st.emitter.items.toList, st'.emitter.items.toList, st'.emitter.addr - st.emitter.addr,
    st.emitter.labels.size, given.storage⟩
  have hstart : S.Links st st' := by
    refine ⟨⟨⟨[], by simp [S]⟩, ?_, hpaired.size, le_rfl, h.emitter.counter, ?_, ?_⟩, h.trampolines, h.pointers⟩
    · simp only [S]
      omega
    · intro id hid
      rw [Labels.entry_of_size_le hid, Labels.entry_of_size_le (hpaired.size ▸ hid)]
      rfl
    · intro id hid
      obtain ⟨hs, hs'⟩ := h.storage id hid
      exact ⟨hid.1.trans_le hpaired.given_le, hs'.trans hs.symm⟩
  obtain ⟨st1', hc', hlinks⟩ := b.compile_tracks hstart hb st1 hc
  obtain ⟨ks, hspans, hfits⟩ := b.spans _ _ hc
  obtain ⟨ks', hspans', -⟩ := b.spans _ _ hc'
  -- both have the same instructions, as the shift says
  obtain ⟨xs, hxs, hxs'⟩ := hlinks.emitter.items
  have hks : ks = xs := by
    rw [hspans.items, append_right_inj, Code.map_item_inj] at hxs
    exact hxs
  have hks' : xs = ks' := by
    rw [hspans'.items, append_right_inj, Code.map_item_inj] at hxs'
    exact hxs'.symm
  subst hks
  subst hks'
  have haddr := hspans.adds.addr_eq hspans.items
  have haddr' := hspans'.adds.addr_eq hspans'.items
  -- the labels of the code stand where its instructions do
  have hends : ∀ ys, (ms ++ Marks.ofCodes ys).Ends c (st.emitter.addr + Code.room ys)
      (st.emitter.addr + Code.room ys + (st'.emitter.addr - st.emitter.addr)) := by
    intro ys
    have := h.emitter.ends.codes ys
    rwa [show st.emitter.addr + Code.room ys + (st'.emitter.addr - st.emitter.addr) = st'.emitter.addr + Code.room ys by
      omega]
  have hextend : ∀ Q : Int → Int → Prop, (∀ a a', ms.At c a a' → Q a a') →
      (∀ id a, st.emitter.labels.size ≤ id → (st1.emitter.labels.entry id).addr = some a →
        Q a (a + (st'.emitter.addr - st.emitter.addr))) →
      Labels.Paired given Q st1.emitter.labels st1'.emitter.labels := fun Q hPQ hnew =>
    hpaired.extend hspans.adds.size hlinks.emitter.size hspans.adds.kept
      (fun id hid => hspans'.adds.kept id (hpaired.size ▸ hid)) hlinks.emitter.inner hnew hPQ
  refine ⟨st1', ks, hc', ⟨⟨?_, ?_, ?_, hlinks.emitter.counter, ?_⟩, hlinks.trampolines, hlinks.pointers, ?_⟩, hspans,
    hspans'.adds, hfits, ?_⟩
  · rw [hspans.items, h.emitter.items, Marks.kept_append, Marks.ofCodes, Marks.kept_ofItems]
  · rw [hspans'.items, h.emitter.items', Marks.all_append, Marks.ofCodes, Marks.all_ofItems]
  · rw [haddr, haddr']
    exact h.emitter.ends.codes ks
  · refine hextend _ (fun a a' ha => ha.append _) fun id a hid ha => ?_
    obtain ⟨ys, zs, rfl, rfl⟩ := hspans.landed id a hid ha
    rw [Marks.ofCodes_append, ← append_assoc]
    exact (hends ys).at.append _
  · intro id hid
    obtain ⟨hs, hs'⟩ := h.storage id hid
    have hlt : id < st.emitter.labels.size := hid.1.trans_le hpaired.given_le
    exact ⟨(hspans.adds.kept id hlt).trans hs, (hspans'.adds.kept id (hpaired.size ▸ hlt)).trans hs'⟩
  · intro hjump
    rw [hjump] at hfits
    obtain ⟨⟨k, hk, -⟩, hbefore⟩ := hfits
    obtain ⟨xs, rfl⟩ := getLast?_eq_some_iff.1 hk
    refine ⟨xs, k, rfl, hextend _ (fun a a' ha => ha.append _) fun id a hid ha => ?_⟩
    obtain ⟨ys, zs, hsplit, rfl⟩ := hspans.landed id a hid ha
    have hlt := hbefore id _ hid ha
    obtain rfl | ⟨zs, z, rfl⟩ := eq_nil_or_concat zs
    · rw [append_nil] at hsplit
      rw [haddr, hsplit] at hlt
      exact (Int.lt_irrefl _ hlt).elim
    · rw [concat_eq_append, ← append_assoc] at hsplit
      obtain ⟨rfl, -⟩ := append_inj' hsplit rfl
      rw [Marks.ofCodes_append, ← append_assoc]
      exact (hends ys).at.append _

/-! ### The end of a routine -/

namespace Codegen

/-- The routine ends with a jump or a call to a label of the name that comes next. -/
def TakesBack (next : Option String) (e : Emitter) (id : LabelId) : Prop :=
  (e.tail? = some (.code .jmp (.wide id)) ∨ e.tail? = some (.code .jsr (.wide id)))
    ∧ next = some (e.labels.entry id).name

theorem retract_code (h : e.items.toList = is ++ [k.item]) :
    ∃ e1, e.retract = .ok e1 ∧ e1.items.toList = is ∧ e1.addr = e.addr - k.size ∧ e1.labels = e.labels
      ∧ e1.counter = e.counter := by
  have htail : e.tail? = some k.item := by rw [tail?_of_items h, getLast?_concat]
  refine ⟨{ e with items := e.items.pop }.move (-k.size), ?_, ?_, rfl, rfl, rfl⟩
  · simp only [Emitter.retract, Emitter.pop?, htail, Option.map_some]
    rfl
  · simp [Emitter.move, h]

theorem close_onward (h : ∀ o, e.tail? ≠ some (.code .jmp o)) : close next e = .ok (e.codes [⟨.rts, .implied⟩]) := by
  unfold close
  split
  case h_1 id htail => exact (h _ htail).elim
  case h_2 o _ htail => exact (h _ htail).elim
  case h_3 => rfl

theorem close_jump {o : Operand} (h : e.tail? = some (.code .jmp o)) : close none e = .ok e := by
  unfold close
  split
  case h_1 => rfl
  case h_2 => rfl
  case h_3 hnot => exact (hnot o h).elim

/-- How the marks change when a routine ends and keeps its jump: there is a return more, or nothing changes, or a call
becomes a jump. -/
def Closes (ms ms' : Marks) : Prop :=
  ms' = ms ++ .ofCodes [⟨.rts, .implied⟩] ∨ ms' = ms
    ∨ ∃ xs id, ms = xs ++ .ofCodes [⟨.jsr, .wide id⟩] ∧ ms' = xs ++ .ofCodes [⟨.jmp, .wide id⟩]

section

variable (h : e.Abreast c given ms e')
include h

theorem last_of_tail (hlast : ∀ x, ms.getLast? = some x → x.2 = true)
    (htail : e.tail? = some k.item) : ∃ xs, ms = xs ++ .ofCodes [k] := by
  rw [tail?_of_items h.items] at htail
  obtain rfl | ⟨xs, ⟨i, b⟩, rfl⟩ := eq_nil_or_concat ms
  · cases htail
  · rw [concat_eq_append] at hlast htail ⊢
    obtain rfl : b = true := hlast _ getLast?_concat
    rw [Marks.kept_append] at htail
    have hi : i = k.item := Option.some.inj (getLast?_concat.symm.trans htail)
    exact ⟨xs, by rw [hi]; rfl⟩

/-- A call that comes last becomes a jump in both. -/
theorem tailCall_abreast (hlast : ∀ x, ms.getLast? = some x → x.2 = true)
    (ht : tailCall e = .ok e1) :
    (e1 = e ∧ tailCall e' = .ok e' ∧ ∀ id, e.tail? ≠ some (.code .jsr (.wide id)))
      ∨ ∃ e1' xs id, tailCall e' = .ok e1' ∧ ms = xs ++ .ofCodes [⟨.jsr, .wide id⟩]
        ∧ e1.Abreast c given (xs ++ .ofCodes [⟨.jmp, .wide id⟩]) e1'
        ∧ e.tail? = some (.code .jsr (.wide id)) ∧ e1.labels = e.labels ∧ e1'.labels = e'.labels := by
  have htail' := h.tail? hlast
  by_cases hcall : ∃ id, e.tail? = some (.code .jsr (.wide id))
  · right
    obtain ⟨id, htail⟩ := hcall
    obtain ⟨xs, rfl⟩ := last_of_tail (k := ⟨.jsr, .wide id⟩) h hlast htail
    have hitems : e.items.toList = xs.kept ++ [Code.item ⟨.jsr, .wide id⟩] := by
      rw [h.items, Marks.kept_append]
      rfl
    have hitems' : e'.items.toList = xs.all ++ [Code.item ⟨.jsr, .wide id⟩] := by
      rw [h.items', Marks.all_append]
      rfl
    obtain ⟨e2, hr, his, haddr, hlabels, hcounter⟩ := retract_code hitems
    obtain ⟨e2', hr', his', haddr', hlabels', hcounter'⟩ := retract_code hitems'
    have hform : ∀ {e e2 : Emitter}, e.tail? = some (.code .jsr (.wide id)) → e.retract = .ok e2 →
        tailCall e = .ok (e2.codes [⟨.jmp, .wide id⟩]) := by
      intro e e2 htail hr
      unfold tailCall
      simp only [htail, Operand.wide, hr, bind, Except.bind]
      rfl
    have hsize : Code.size ⟨.jsr, .wide id⟩ = Code.room [⟨.jmp, .wide id⟩] := rfl
    rw [hform htail hr] at ht
    cases ht
    refine ⟨_, xs, id, hform (htail'.trans htail) hr', rfl, ⟨?_, ?_, ?_, ?_, ?_⟩, htail, ?_, ?_⟩
    · rw [codes_items, his, Marks.kept_append]
      rfl
    · rw [codes_items, his', Marks.all_append]
      rfl
    · rw [codes_addr, codes_addr, haddr, haddr', hsize, Int.sub_add_cancel, Int.sub_add_cancel]
      exact h.ends.replace rfl
    · rw [codes_counter, codes_counter, hcounter, hcounter', h.counter]
    · rw [codes_labels, codes_labels, hlabels, hlabels']
      exact h.labels.mono fun a a' ha => ha.replace rfl
    · rw [codes_labels, hlabels]
    · rw [codes_labels, hlabels']
  · left
    have hnot : ∀ id, e.tail? ≠ some (.code .jsr (.wide id)) := fun id hid => hcall ⟨id, hid⟩
    have hform : ∀ {e : Emitter}, (∀ id, e.tail? ≠ some (.code .jsr (.wide id))) → tailCall e = .ok e := by
      intro e hnot
      unfold tailCall
      split
      case h_1 id htail => exact (hnot id htail).elim
      case h_2 => rfl
    rw [hform hnot] at ht
    cases ht
    exact ⟨rfl, hform fun id => htail' ▸ hnot id, hnot⟩

omit h in
/-- A jump to what comes next is taken back in the first and stays in the second. -/
theorem retract_abreast (h : e.Abreast c given (xs ++ .ofCodes [⟨.jmp, .wide id⟩]) e')
    (hlabels : Labels.Paired given (xs.At c) e.labels e'.labels) (hr : e.retract = .ok e1) :
    e1.Abreast c given (xs ++ [(.code .jmp (.wide id), false)]) e' := by
  have hitems : e.items.toList = xs.kept ++ [Code.item ⟨.jmp, .wide id⟩] := by
    rw [h.items, Marks.kept_append]
    rfl
  obtain ⟨e2, hr', his, haddr, hlabels2, hcounter⟩ := retract_code hitems
  cases hr'.symm.trans hr
  have hkept : Marks.kept (xs ++ [(Item.code .jmp (.wide id), false)]) = xs.kept := by
    rw [Marks.kept_append]
    exact append_nil _
  have hall : Marks.all (xs ++ [(Item.code .jmp (.wide id), false)]) = Marks.all (xs ++ .ofCodes [⟨.jmp, .wide id⟩]) := by
    rw [Marks.all_append, Marks.all_append]
    rfl
  obtain ⟨hend, hend'⟩ := h.ends
  refine ⟨his.trans hkept.symm, h.items'.trans hall.symm, ⟨?_, hall ▸ hend'⟩, hcounter ▸ h.counter, ?_⟩
  · have hsize : Item.rooms (Marks.kept (.ofCodes [⟨.jmp, .wide id⟩])) = Code.size ⟨.jmp, .wide id⟩ := rfl
    rw [haddr, hend, hkept, Marks.kept_append, Item.rooms_append, hsize]
    omega
  · rw [hlabels2]
    exact hlabels.mono fun a a' ha => ha.append _

/-- Both routines end, the first with its jump taken back or in the same way as the second. -/
theorem finish_abreast (hlast : ∀ x, ms.getLast? = some x → x.2 = true) (hf : finish next e = .ok e1) :
    ∃ e1', finish none e' = .ok e1' ∧ e1.labels = e.labels ∧ e1'.labels = e'.labels
      ∧ ((∃ ms', Closes ms ms' ∧ e1.Abreast c given ms' e1')
        ∨ ∃ (id : LabelId) (xs : Marks) (x : Item × Bool), TakesBack next e id ∧ ms = xs ++ [x]
          ∧ (Labels.Paired given (xs.At c) e.labels e'.labels →
            e1.Abreast c given (xs ++ [(.code .jmp (.wide id), false)]) e1')) := by
  rw [finish_eq] at hf
  obtain ⟨e2, ht, hclose⟩ := bind_eq_ok.1 hf
  obtain ⟨rfl, ht', hnot⟩ | ⟨e2', xs, id, ht', rfl, h2, htail, hl, hl'⟩ := tailCall_abreast h hlast ht
  · have htail' := h.tail? hlast
    obtain ⟨hno, rfl⟩ | ⟨o, htail, rfl⟩ | ⟨id, htail, hnext, hr⟩ := close_cases hclose
    · refine ⟨_, bind_eq_ok.2 ⟨e', ht', close_onward (htail' ▸ hno)⟩, by simp, by simp, .inl ⟨_, .inl rfl, h.codes _⟩⟩
    · exact ⟨e', bind_eq_ok.2 ⟨e', ht', close_jump (htail'.trans htail)⟩, rfl, rfl, .inl ⟨ms, .inr (.inl rfl), h⟩⟩
    · obtain ⟨xs, rfl⟩ := last_of_tail (k := ⟨.jmp, .wide id⟩) h hlast htail
      exact ⟨e', bind_eq_ok.2 ⟨e', ht', close_jump (htail'.trans htail)⟩, retract_labels hr, rfl,
        .inr ⟨id, xs, _, ⟨.inl htail, hnext⟩, rfl, fun hpaired => retract_abreast h hpaired hr⟩⟩
  · have hlast2 : ∀ x, (xs ++ Marks.ofCodes [⟨.jmp, .wide id⟩]).getLast? = some x → x.2 = true := by
      intro x hx
      cases getLast?_concat.symm.trans hx
      rfl
    have htail2 : e2.tail? = some (.code .jmp (.wide id)) := by
      rw [tail?_of_items h2.items, Marks.kept_append]
      exact getLast?_concat
    have hstays := bind_eq_ok.2 ⟨e2', ht', close_jump ((h2.tail? hlast2).trans htail2)⟩
    obtain ⟨hno, -⟩ | ⟨o, -, rfl⟩ | ⟨id', htail', hnext, hr⟩ := close_cases hclose
    · exact (hno _ htail2).elim
    · exact ⟨e2', hstays, hl, hl', .inl ⟨_, .inr (.inr ⟨xs, id, rfl, rfl⟩), h2⟩⟩
    · cases htail2.symm.trans htail'
      refine ⟨e2', hstays, (retract_labels hr).trans hl, hl', .inr ⟨id, xs, _, ⟨.inr htail, hl ▸ hnext⟩, rfl, fun hpaired => ?_⟩⟩
      exact retract_abreast h2 (by rwa [hl, hl']) hr

end

end Codegen

/-! ### Trampolines and storage -/

/-- The two addresses are equally far after all marks. -/
def Marks.Past (c : Int) (ms : Marks) (a a' : Int) : Prop :=
  ∃ n, a = c + Item.rooms ms.kept + n ∧ a' = c + Item.rooms ms.all + n

/-- The first emitter has the items that are kept, the second has all, and room may be left after them. -/
structure Emitter.Beside (c : Int) (given : Labels) (ms : Marks) (e e' : Emitter) : Prop where
  items : e.items.toList = ms.kept
  items' : e'.items.toList = ms.all
  past : ms.Past c e.addr e'.addr
  labels : Labels.Paired given (fun a a' => ms.At c a a' ∨ ms.Past c a a') e.labels e'.labels

theorem Emitter.Abreast.beside (h : e.Abreast c given ms e') : e.Beside c given ms e' where
  items := h.items
  items' := h.items'
  past := ⟨0, by rw [h.ends.1, Int.add_zero], by rw [h.ends.2, Int.add_zero]⟩
  labels := h.labels.mono fun _ _ => .inl

theorem Emitter.Beside.leave (h : e.Beside c given ms e') (n : Int) :
    ((e.resolve id).move n).Beside c given ms ((e'.resolve id).move n) := by
  obtain ⟨m, hm, hm'⟩ := h.past
  refine ⟨h.items, h.items', ⟨m + n, ?_, ?_⟩, h.labels.resolve (.inr h.past)⟩
  · rw [← Int.add_assoc, ← hm]
    rfl
  · rw [← Int.add_assoc, ← hm']
    rfl

/-- Trampolines and storage come after the routines in both. -/
theorem Codegen.conclude_beside {symbols : Symbols} {labels : LabelMap} (h : st.Abreast c given ms st')
    (hc : conclude symbols labels ps st = .ok e1) :
    ∃ e1' is, conclude symbols labels ps st' = .ok e1' ∧ e1.Beside c given (ms ++ .ofItems is) e1' := by
  let R (e e' : Emitter) : Prop := ∃ is, e.Abreast c given (ms ++ .ofItems is) e'
  have hmore {e e' : Emitter} {is js : List Item} (he : e.Abreast c given (ms ++ .ofItems is ++ .ofItems js) e') : R e e' :=
    ⟨is ++ js, by rwa [Marks.ofItems_append, ← append_assoc]⟩
  have hstart : R st.emitter st'.emitter := ⟨[], by simpa [Marks.ofItems] using h.emitter⟩
  have htracks : Tracks (fun e e' => ∃ is, e.Beside c given (ms ++ .ofItems is) e') (conclude symbols labels ps st)
      (conclude symbols labels ps st') := by
    unfold conclude
    rw [h.trampolines]
    refine (trampolines_tracks hstart fun x _ v _ e e' ⟨is, he⟩ => ?_).bind fun _ _ _ h2 => ?_
    · exact hmore (he.resolve.codes _)
    refine (initials_tracks h2 fun q _ _ i n hn e e' ⟨is, he⟩ => ?_).bind fun _ _ _ ⟨is, h3⟩ => ?_
    · have hlength : (e.changeLabel q.label fun l => { l with length := some n }).Abreast c given (ms ++ .ofItems is)
          (e'.changeLabel q.label fun l => { l with length := some n }) :=
        ⟨he.items, he.items', he.ends, he.counter, he.labels.changeLength⟩
      exact hmore (hlength.resolve.emit hn)
    exact reserves_tracks ⟨is, h3.beside⟩ fun q _ _ e e' ⟨is, he⟩ => ⟨he.labels.length _, fun n => ⟨is, he.leave n⟩⟩
  obtain ⟨e1', hc', is, h1⟩ := htracks e1 hc
  exact ⟨e1', is, hc', h1⟩

end

end CheckedAsm
