import CheckedAsm.Proofs.Codegen.Cells
/-! # Reading tables back

The initial values of a table stand in the image as its type says: bytes one after the other, words with their two bytes side by
side. The code that reads an element looks for it as far from the beginning of the table as the element's number says. For bytes
the two agree, so each value is read back. For words the code takes what stands there to be the lower byte of the element, and it
is one of the two bytes of another element, the first element apart; and it looks for the upper byte 256 places further on,
whatever stands there. -/

namespace CheckedAsm

open Codegen List

/-! ### Images in memory -/

/-- The bytes stand in the memory, from an address on. -/
def Cpu.Loaded (σ : Cpu) (start : Int) (bs : List UInt8) : Prop :=
  ∀ (j : Nat) (b : UInt8), bs[j]? = some b → σ.memory ((start + j) % 65536) = b

/-- The byte at a place among words that stand one after the other, each with its lower byte first. -/
def byteOfWords (ns : List Int) (j : Nat) : Option UInt8 :=
  ns[j / 2]?.map fun u => if j % 2 = 0 then lowBits u else lowBits (u / 256)

theorem byteOfWords_of_lt {ns : List Int} {j : Nat} (h : j < ns.length) : ∃ b, byteOfWords ns j = some b := by
  have hhalf : j / 2 < ns.length := (Nat.div_le_self j 2).trans_lt h
  exact ⟨_, by rw [byteOfWords, getElem?_eq_getElem hhalf, Option.map_some]⟩

theorem lowBits_toNat {n : Int} (h : 0 ≤ n) (h' : n ≤ 255) : ((lowBits n).toNat : Int) = n := by
  rw [toNat_lowBits]
  omega

theorem Ty.getElem?_encode_words (size : Int) (ns : List Int) (j : Nat) :
    (Ty.encode (.table .word size) ns)[j]? = byteOfWords ns j := by
  show (ns.flatMap fun n => [lowBits n, lowBits (n / 256)])[j]? = byteOfWords ns j
  induction ns generalizing j with
  | nil => rfl
  | cons m ns ih =>
    match j with
    | 0 | 1 => rfl
    | j + 2 =>
      have hrest := ih j
      simpa [byteOfWords, Nat.add_div_right] using hrest

section

variable {symbols : Symbols} {p : Program} {roster : Option (List (List String))} {format : Option String}
  {origin : Option Int} {f : Format} {image : Image} {code : List UInt8} {e1 : Emitter} {labels : LabelMap}
  {before after : List Placed} {q : Placed} {initial : Initial} {σ : Cpu}

section

variable (hf : Format.named format = .ok f) (hi : Image.ofProgram symbols p roster format origin = .ok image)
  (hcode : image.bytes = .ok code)
  (hplaced : p.placed symbols (f.opened (origin.getD f.origin)) = .ok (e1, labels, before ++ q :: after))
  (hfits : ∀ u ∈ before, u.Fits) (hinitial : q.defn.initial = some initial)

include hf hi hplaced

theorem Image.course : ∃ rows L e st as tr ds,
    p.Course symbols rows (f.opened (origin.getD f.origin)) L e1 (before ++ q :: after) st as tr ds
      ∧ f.closed (origin.getD f.origin) L.emitter = .ok e
      ∧ image = ⟨f.header (origin.getD f.origin), { L with emitter := e }⟩ := by
  simp only [Image.ofProgram, bind_eq_ok, pure_eq_ok] at hi
  obtain ⟨f', hf', L, hL, e, he, rfl⟩ := hi
  obtain rfl := Except.ok.inj (hf.symm.trans hf')
  obtain ⟨e1', ps', st, as, tr, ds, hcourse⟩ := Program.layOut_course hL
  obtain ⟨rfl, -, rfl⟩ :=
    (by simpa using hplaced.symm.trans hcourse.placed : e1 = e1' ∧ labels = L.labels ∧ before ++ q :: after = ps')
  exact ⟨_, L, e, st, as, tr, ds, hcourse, he, rfl⟩

include hinitial

/-- An initial value of a program that has become an image can be encoded. -/
theorem Image.initial_encodes : initialItem q.ty initial = .ok q.item := by
  obtain ⟨rows, L, e, st, as, tr, ds, hcourse, -⟩ := Image.course hf hi hplaced
  obtain ⟨initial', hinitial', hitem⟩ := hcourse.allots.2.2 q
    (mem_initialised.2 ⟨mem_append_right _ mem_cons_self, by rw [hinitial]; rfl⟩)
  obtain rfl := Option.some.inj (hinitial.symm.trans hinitial')
  exact hitem

include hcode hfits

/-- The encoding of an initial value is in the memory at its label, once the image is. -/
theorem Image.encoding_loaded
    (hloaded : σ.Loaded (origin.getD f.origin) (code.drop (f.header (origin.getD f.origin)).length)) {j : Nat} {b : UInt8}
    (hb : q.encoding[j]? = some b) : σ.memory ((image.layout.emitter.labels.place q.label + j) % 65536) = b := by
  obtain ⟨rows, L, e, st, as, tr, ds, hcourse, he, rfl⟩ := Image.course hf hi hplaced
  obtain ⟨hlabels, hstart, js, hitems, -⟩ := Format.closed_ok he
  have hfirst : e1.start = origin.getD f.origin := by
    rw [Program.placed_emitter hcourse.placed]
    exact f.opened_start _
  simp only [Image.bytes, bind_eq_ok, pure_eq_ok] at hcode
  obtain ⟨bs, hbs, rfl⟩ := hcode
  have hsame : L.emitter.start = e1.start := by rw [← hcourse.run, Emitter.start_acts]
  rw [Emitter.bytes, hstart, hsame, hitems] at hbs
  have hsplit : initialised (before ++ q :: after) = initialised before ++ q :: initialised after := by
    rw [initialised, List.filter_append, List.filter_cons_of_pos (by rw [hinitial]; rfl)]
    rfl
  obtain ⟨pre, post, rfl, hstands⟩ :=
    hcourse.filled_behind (f.opened_tight _) hsplit (fun u hu => hfits u (mem_initialised.1 hu).1) hbs
  have hplace : L.emitter.labels.place q.label = origin.getD f.origin + pre.length := by
    rw [Labels.place, hstands, hfirst]
    rfl
  have hlt := (List.getElem?_eq_some_iff.1 hb).1
  rw [List.drop_left] at hloaded
  have hread := hloaded (pre.length + j) b (by
    rw [List.append_assoc, List.getElem?_append_right (Nat.le_add_right _ _), Nat.add_sub_cancel_left, List.append_assoc,
      List.getElem?_append_left hlt, hb])
  simp only [hlabels, hplace]
  rw [← hread, Int.add_assoc]
  rfl

end

end

/-! ### Reading an element -/

section Reading

variable {ls ls' : Labels} {σ : Cpu} {o : Operand} {r : Int}

theorem Ref.indexValue?_cases {index : Ref} {v : UInt8} (h : index.indexValue? σ = some v) :
    index = .x ∧ v = σ.x ∨ index = .y ∧ v = σ.y := by
  unfold indexValue? at h
  split at h
  · next hx => exact .inl ⟨hx, (Option.some.inj h).symm⟩
  · split at h
    · next hy => exact .inr ⟨hy, (Option.some.inj h).symm⟩
    · cases h

theorem Operand.value_of_reach (h : o.reach? ls σ = some r) : o.value ls σ = σ.memory (r % 65536) := by
  cases o with
  | absoluteX | absoluteY =>
    cases h
    rfl
  | _ => cases h

/-- Where an indexed operand leads to depends on the index registers only. -/
theorem Operand.reach?_congr {σ' : Cpu} (hx : σ'.x = σ.x) (hy : σ'.y = σ.y) : o.reach? ls σ' = o.reach? ls σ := by
  cases o <;> simp [reach?, hx, hy]

namespace Codegen

variable {cs : CodeSetting} {base index : Ref} {c : Const} {v : UInt8} {id : LabelId}

theorem cellBytes_ok (id : LabelId) (c : Const) (hindex : index.indexValue? σ = some v) : ∃ o, cellBytes id (.constant c) index = .ok o := by
  obtain ⟨rfl, -⟩ | ⟨rfl, -⟩ := index.indexValue?_cases hindex
  · exact ⟨_, rfl⟩
  · exact ⟨_, rfl⟩

/-- A load of an element of a table of bytes takes the byte at the element's number. -/
theorem load_cell (ls : Labels) (hbase : cs.labelOf base = .ok id) (hindex : index.indexValue? σ = some v) (i : Instr) :
    ∃ ks, load cs ls' i .a (.indexed base (.constant c) index) = .ok ks
      ∧ (Code.execAll ls ks σ).a = σ.memory ((ls.place id + (c.value + v.toNat)) % 65536) := by
  have hload : load cs ls' i .a (.indexed base (.constant c) index)
      = accSource cs ls' (.indexed base (.constant c) index) >>= fun o => pure [⟨.lda, o⟩] := rfl
  have hsource : ∃ o, accSource cs ls' (.indexed base (.constant c) index) = .ok o
      ∧ o.reach? ls σ = some (ls.place id + c.value + v.toNat) := by
    obtain ⟨rfl, rfl⟩ | ⟨rfl, rfl⟩ := index.indexValue?_cases hindex
    · refine ⟨.absoluteX (.offset id c.value), ?_, rfl⟩
      simp only [accSource, ↓reduceIte, cell, hbase, Ref.offsetValue]
      rfl
    · refine ⟨.absoluteY (.offset id c.value), ?_, rfl⟩
      simp only [accSource, show Ref.y ≠ Ref.x by decide, ↓reduceIte, cell, hbase, Ref.offsetValue]
      rfl
  obtain ⟨o, ho, hreach⟩ := hsource
  refine ⟨[⟨.lda, o⟩], by rw [hload, ho]; rfl, ?_⟩
  show o.value ls σ = _
  rw [Operand.value_of_reach hreach, Int.add_assoc]

/-- The code of a copy from an element of a table of words. -/
theorem copy_cell {m : String} {d : LabelId} {size : Int} {o : Operand × Operand} (hbase : cs.labelOf base = .ok id)
    (htable : cs.typeOf base = .ok (.table .word size)) (hword : cs.typeOf (.location m) = .ok .word)
    (hdest : cs.labelOf (.location m) = .ok d) (ho : cellBytes id (.constant c) index = .ok o) :
    copy cs (.indexed base (.constant c) index) (.location m) = .ok (moveBoth o (locationBytes d)) := by
  have hfrom : baseType cs (.indexed base (.constant c) index) = .ok (.table .word size) := htable
  have hto : baseType cs (.location m) = .ok .word := hword
  simp only [copy, hfrom, hto, hbase, hdest, ho, bind, Except.bind, pure, Except.pure]
  exact if_pos (.inl ⟨rfl, trivial⟩)

theorem execAll_move (s d : Operand) :
    Code.execAll ls (move s d) σ = d.assign ls (σ.setA (s.value ls σ)) (s.value ls σ) := rfl

/-- Two bytes are moved one after the other, so the first may be what the second finds. -/
theorem execAll_moveBoth {o : Operand × Operand} {low high : Int} (d : LabelId) (hlow : o.1.reach? ls σ = some low)
    (hhigh : o.2.reach? ls σ = some high) :
    let σ' := Code.execAll ls (moveBoth o (locationBytes d)) σ
    σ'.memory (ls.place d % 65536) = σ.memory (low % 65536)
      ∧ σ'.memory ((ls.place d + 1) % 65536)
        = if high % 65536 = ls.place d % 65536 then σ.memory (low % 65536) else σ.memory (high % 65536) := by
  intro σ'
  have hne : ls.place d % 65536 ≠ (ls.place d + 1) % 65536 := by omega
  have hown : (Target.label d).place ls = ls.place d := Int.add_zero _
  let σ1 := (σ.setA (σ.memory (low % 65536))).poke (ls.place d % 65536) (σ.memory (low % 65536))
  have hfirst : Code.execAll ls (move o.1 (.wide d)) σ = σ1 := by
    rw [execAll_move, Operand.value_of_reach hlow]
    simp only [Operand.wide, Operand.assign, Operand.place, hown, σ1]
  have hsecond : o.2.value ls σ1 = σ1.memory (high % 65536) :=
    Operand.value_of_reach ((Operand.reach?_congr rfl rfl).trans hhigh)
  have hboth : σ' = (σ1.setA (σ1.memory (high % 65536))).poke ((ls.place d + 1) % 65536) (σ1.memory (high % 65536)) := by
    show Code.execAll ls (move o.1 (.wide d) ++ move o.2 (.wideNext d)) σ = _
    rw [Code.execAll_append, hfirst, execAll_move, hsecond]
    rfl
  rw [hboth]
  exact ⟨(if_neg hne).trans (if_pos rfl), if_pos rfl⟩

end Codegen

end Reading

/-! ### What is read -/

/-- An image is in the memory, and an element of a table with initial values is read. No definition before the table has more
bytes of initial values than room. Of a table of bytes, the accumulator gets the element's initial value. Of a table of words,
the lower byte of the destination gets that byte of the table which has the element's number, and the upper byte gets what stands
256 bytes further on: another byte of the table, if it is so long, unless the copy of the lower byte has just changed it. -/
theorem Image.tables_read_back {symbols : Symbols} {p : Program} {roster : Option (List (List String))} {format : Option String}
    {origin : Option Int} {f : Format} {image : Image} {code : List UInt8} {e₁ : Emitter} {labels : LabelMap}
    {before after : List Placed} {q : Placed} {initial : Initial} {σ : Cpu} {routine : Option String} {base index : Ref}
    {c : Const} {v : UInt8} {n : Nat} {value : Int} (hf : Format.named format = .ok f)
    (hi : Image.ofProgram symbols p roster format origin = .ok image) (hcode : image.bytes = .ok code)
    (hplaced : p.placed symbols (f.opened (origin.getD f.origin)) = .ok (e₁, labels, before ++ q :: after))
    (hfits : ∀ u ∈ before, u.Fits) (hinitial : q.defn.initial = some initial)
    (hloaded : σ.Loaded (origin.getD f.origin) (code.drop (f.header (origin.getD f.origin)).length))
    (hbase : CodeSetting.labelOf ⟨symbols, image.layout.labels, routine⟩ base = .ok q.label)
    (hindex : index.indexValue? σ = some v) (hn : c.value + v.toNat = n) (hvalue : initial.numbers[n]? = some value) :
    let cs : CodeSetting := ⟨symbols, image.layout.labels, routine⟩
    let ls := image.layout.emitter.labels
    (∀ size, q.ty = .table .byte size → ∀ ls' i, ∃ ks, load cs ls' i .a (.indexed base (.constant c) index) = .ok ks
        ∧ (Code.execAll ls ks σ).a = lowBits value ∧ (0 ≤ value → (Code.execAll ls ks σ).a.toNat = value))
      ∧ ∀ size, q.ty = .table .word size → ∀ size' m d, cs.typeOf base = .ok (.table .word size') →
        cs.typeOf (.location m) = .ok .word → cs.labelOf (.location m) = .ok d →
        ∃ ks, copy cs (.indexed base (.constant c) index) (.location m) = .ok ks
          ∧ let σ' := Code.execAll ls ks σ
            let own := ls.place d % 65536
            let far := (ls.place q.label + n + 256) % 65536
            some (σ'.memory own) = byteOfWords initial.numbers n
              ∧ σ'.memory ((ls.place d + 1) % 65536) = (if far = own then σ'.memory own else σ.memory far)
              ∧ ∀ b, byteOfWords initial.numbers (n + 256) = some b → σ.memory far = b := by
  have hread {j : Nat} {b : UInt8} (hb : (q.ty.encode initial.numbers)[j]? = some b) :
      σ.memory ((image.layout.emitter.labels.place q.label + j) % 65536) = b := by
    refine Image.encoding_loaded hf hi hcode hplaced hfits hinitial hloaded ?_
    rw [Placed.encoding, hinitial]
    exact hb
  refine ⟨fun size hty ls' i => ?_, fun size hty size' m d htable hword hdest => ?_⟩
  · obtain ⟨ks, hks, ha⟩ := load_cell image.layout.emitter.labels hbase hindex i
    have hbyte : (q.ty.encode initial.numbers)[n]? = some (lowBits value) := by
      rw [hty]
      show (initial.numbers.map lowBits)[n]? = _
      rw [getElem?_map, hvalue]
      rfl
    rw [hn, hread hbyte] at ha
    refine ⟨ks, hks, ha, fun hnonneg => ?_⟩
    have hitem := Image.initial_encodes hf hi hplaced hinitial
    rw [hty] at hitem
    obtain ⟨cells, hcells, -⟩ := map_eq_ok.1 hitem
    have hle := (byteCells_ok hcells).2 value (mem_of_getElem? hvalue)
    rw [ha, lowBits_toNat hnonneg hle]
  · obtain ⟨o, ho⟩ := cellBytes_ok q.label c hindex
    obtain ⟨c', v', hc, hv', hlow, hhigh⟩ := cellBytes_reach image.layout.emitter.labels σ ho
    cases hc
    obtain rfl := Option.some.inj (hindex.symm.trans hv')
    rw [hn] at hlow hhigh
    obtain ⟨hown, hnext⟩ := execAll_moveBoth d hlow hhigh
    have hstored {j : Nat} {b : UInt8} (hb : byteOfWords initial.numbers j = some b) :
        σ.memory ((image.layout.emitter.labels.place q.label + j) % 65536) = b :=
      hread (by rw [hty, Ty.getElem?_encode_words, hb])
    obtain ⟨b, hb⟩ := byteOfWords_of_lt (List.getElem?_eq_some_iff.1 hvalue).1
    refine ⟨_, copy_cell hbase htable hword hdest ho, ?_, ?_, fun b hb => ?_⟩
    · rw [hown, hstored hb, hb]
    · rw [hown]
      exact hnext
    · rw [← hstored hb, Int.natCast_add, ← Int.add_assoc]
      rfl

/-- A machine with some bytes in its memory, and a value in its first index register. -/
def Cpu.holding (x : UInt8) (start : Int) (bs : List UInt8) : Cpu :=
  { indexedBy x with memory := fun p => bs.getD (p - start).toNat 0 }

theorem Cpu.holding_loaded {x : UInt8} {start : Int} {bs : List UInt8} (h : 0 ≤ start) (h' : start + bs.length ≤ 65536) :
    (holding x start bs).Loaded start bs := by
  intro j b hb
  have hlt := (List.getElem?_eq_some_iff.1 hb).1
  have hplace : ((start + j) % 65536 - start).toNat = j := by omega
  show bs.getD ((start + j) % 65536 - start).toNat 0 = b
  rw [hplace, List.getD_eq_getElem?_getD, hb]
  rfl

/-- A table of three bytes, a table of two words, and a word to which a routine copies the second of them. -/
def keeping : Program :=
  { defns := [⟨0, "one", none, none⟩, ⟨0, "t", none, some (.values [5, 6, 7])⟩, ⟨0, "w", none, some (.values [1, 2])⟩],
    routines := [⟨0, "main", none, [], some (.cons (.op 0 (.ld .x (.constant ⟨.byte, 1⟩)))
      (.cons (.op 0 (.ld .a (.indexed (.location "t") (.constant ⟨.byte, 0⟩) .x)))
      (.cons (.op 0 (.copy (.indexed (.location "w") (.constant ⟨.byte, 0⟩) .x) (.location "one"))) (.nil 0)))), false⟩] }

/-- The symbols of the program, where the table of words is so long. -/
def keepingSymbols (size : Int) : Symbols :=
  (((Symbols.initial.declare "one" ⟨.builtin, .word⟩).declare "t" ⟨.builtin, .table .byte 3⟩).declare "w"
    ⟨.builtin, .table .word size⟩).declare "main" ⟨.builtin, .routine {
      inputs := [⟨"t", none⟩, ⟨"w", none⟩],
      outputs := [⟨"one", none⟩],
      trashes := [⟨"a", none⟩, ⟨"n", none⟩, ⟨"x", none⟩, ⟨"z", none⟩] }⟩

/-- The bytes of the image where the table of words has room for its values. -/
def keepingBytes : List UInt8 :=
  [0x00, 0xc0, 0xa2, 1, 0xbd, 0x12, 0xc0, 0xbd, 0x15, 0xc0, 0x8d, 0x19, 0xc0, 0xbd, 0x15, 0xc1, 0x8d, 0x1a, 0xc0, 0x60,
    5, 6, 7, 1, 0, 2, 0]

theorem keeping_image :
    ∃ image, Image.ofProgram (keepingSymbols 4) keeping none (some "prg") none = .ok image ∧ image.bytes = .ok keepingBytes
      ∧ image.layout.labels = ⟨⟨[("one", 0), ("t", 1), ("w", 2), ("main", 3)]⟩, ⟨[("main", ⟨[]⟩)]⟩⟩ := by
  have hok : ∀ {x : Except Fault (List UInt8)} {bs}, x.toOption = some bs → x = .ok bs := by
    rintro (_ | _) bs h <;> cases h
    rfl
  exact ⟨_, rfl, hok (by decide +kernel), rfl⟩

theorem keeping_read_back :
    (keeping.analyse (keepingSymbols 4)).2.isOk = true
      ∧ ∃ image, Image.ofProgram (keepingSymbols 4) keeping none (some "prg") none = .ok image ∧ image.bytes = .ok keepingBytes
        ∧ let cs : CodeSetting := ⟨keepingSymbols 4, image.layout.labels, some "main"⟩
          let ls := image.layout.emitter.labels
          (∃ ks, load cs ls (.op 0 .nop) .a (.indexed (.location "t") (.constant ⟨.byte, 0⟩) .x) = .ok ks
              ∧ (Code.execAll ls ks (.holding 2 0xc000 (keepingBytes.drop 2))).a.toNat = (7 : Int))
            ∧ ∃ ks, copy cs (.indexed (.location "w") (.constant ⟨.byte, 0⟩) .x) (.location "one") = .ok ks
              ∧ (Code.execAll ls ks (.holding 1 0xc000 (keepingBytes.drop 2))).memory (ls.place 0 % 65536) = 0 := by
  obtain ⟨image, hi, hcode, hlabels⟩ := keeping_image
  have hloaded (x : UInt8) : (Cpu.holding x 0xc000 (keepingBytes.drop 2)).Loaded 0xc000 (keepingBytes.drop 2) :=
    Cpu.holding_loaded (by decide) (by decide)
  refine ⟨rfl, image, hi, hcode, ?_, ?_⟩
  · obtain ⟨ks, hks, -, ha⟩ :=
      (@Image.tables_read_back (keepingSymbols 4) keeping none (some "prg") none Format.prg image keepingBytes _ _
        [⟨⟨0, "one", none, none⟩, .word, 0⟩] [⟨⟨0, "w", none, some (.values [1, 2])⟩, .table .word 4, 2⟩]
        ⟨⟨0, "t", none, some (.values [5, 6, 7])⟩, .table .byte 3, 1⟩ (.values [5, 6, 7]) _ (some "main")
        (.location "t") .x ⟨.byte, 0⟩ 2 2 7 rfl hi hcode rfl (by decide) rfl (hloaded 2) (by rw [hlabels]; rfl) rfl rfl rfl).1
        3 rfl image.layout.emitter.labels (.op 0 .nop)
    exact ⟨ks, hks, ha (by decide)⟩
  · obtain ⟨ks, hks, hlow, -⟩ :=
      (@Image.tables_read_back (keepingSymbols 4) keeping none (some "prg") none Format.prg image keepingBytes _ _
        [⟨⟨0, "one", none, none⟩, .word, 0⟩, ⟨⟨0, "t", none, some (.values [5, 6, 7])⟩, .table .byte 3, 1⟩] []
        ⟨⟨0, "w", none, some (.values [1, 2])⟩, .table .word 4, 2⟩ (.values [1, 2]) _ (some "main")
        (.location "w") .x ⟨.byte, 0⟩ 1 1 2 rfl hi hcode rfl (by decide) rfl (hloaded 1) (by rw [hlabels]; rfl) rfl rfl rfl).2
        4 rfl 4 "one" 0 rfl rfl (by rw [hlabels]; rfl)
    exact ⟨ks, hks, Option.some.inj hlow⟩

/-- The same where the words stand before the bytes, in a table of just two words. -/
def crowding : Program := { keeping with defns := [keeping.defns[0], keeping.defns[2], keeping.defns[1]] }

/-- The second word is 2, but its lower byte is read as 0; and the words take more bytes than their room, so that the first of
the bytes after them is read as 2 and not as 5. -/
theorem crowding_misread :
    (crowding.analyse (keepingSymbols 2)).2.isOk = true
      ∧ ((Image.ofProgram (keepingSymbols 2) crowding none (some "raw") none).toOption.bind fun image => do
        let code ← image.bytes.toOption
        let cs : CodeSetting := ⟨keepingSymbols 2, image.layout.labels, some "main"⟩
        let ls := image.layout.emitter.labels
        let word ← (copy cs (.indexed (.location "w") (.constant ⟨.byte, 0⟩) .x) (.location "one")).toOption
        let byte ← (load cs ls (.op 0 .nop) .a (.indexed (.location "t") (.constant ⟨.byte, 0⟩) .x)).toOption
        pure ((Code.execAll ls word (.holding 1 0 code)).memory (ls.place 0), (Code.execAll ls byte (.holding 0 0 code)).a))
      = some (0, 2) := by
  decide +kernel

end CheckedAsm
