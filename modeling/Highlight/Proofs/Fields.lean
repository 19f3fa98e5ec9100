import Highlight.Proofs.Innermost

/-!
# Each field of a word for itself

The six fields of the attributes lie side by side in one word. A change that is merged into a word
takes all of them out and packs all of them again, those that it does not set as well as those
that it does, so that a field could suffer from its neighbours or from a change that has nothing
to say about it.

It never does, whatever the word was at first and in whatever order the changes set one field and
another. Here a field is only where its bits are, and reading it is a division with a rest: after
any changes it holds what the last change that sets it says, and what it held at first if none
sets it. What is said has to fit, since a number that is too great loses its upper bits; it loses
them in its own field only.
-/

namespace Highlight

/-! ## Where the fields lie -/

/-- **A field of the word.** -/
inductive AttributeField where
  /-- The language. -/
  | language
  /-- The kind. -/
  | kind
  /-- The flag for balanced brackets. -/
  | balanced
  /-- The font style. -/
  | fontStyle
  /-- The number of the foreground colour. -/
  | foreground
  /-- The number of the background colour. -/
  | background
  deriving DecidableEq, Repr

namespace AttributeField

/-- The place of the lowest bit. -/
def offset : AttributeField → Nat
  | language => 0
  | kind => 8
  | balanced => 10
  | fontStyle => 11
  | foreground => 15
  | background => 24

/-- The number of bits. -/
def width : AttributeField → Nat
  | language => 8
  | kind => 2
  | balanced => 1
  | fontStyle => 4
  | foreground => 9
  | background => 8

/-- **What a word holds in a field**, as a number. -/
def read (f : AttributeField) (w : BitVec 32) : Nat := w.toNat / 2 ^ f.offset % 2 ^ f.width

/-- The number that attributes put into a field. -/
def value (t : TokenAttributes) : AttributeField → Nat
  | language => t.language.toNat
  | kind => t.kind.bits.toNat
  | balanced => t.balanced.toNat
  | fontStyle => t.fontStyle.flags.toNat
  | foreground => t.foreground.toNat
  | background => t.background.toNat

/-- The number that a change sets a field to, if it sets the field. -/
def set? (c : AttributeChange) : AttributeField → Option Nat
  | language => c.language?
  | kind => c.kind.map (·.bits.toNat)
  | balanced => c.balanced.map Bool.toNat
  | fontStyle => c.fontStyle.map (·.flags.toNat)
  | foreground => c.foreground?
  | background => c.background?

/-- **What the last of some changes that sets a field sets it to.** -/
def last? (f : AttributeField) (cs : List AttributeChange) : Option Nat :=
  (cs.filterMap (set? · f)).getLast?

end AttributeField

/-! ## Words and attributes -/

theorem TokenKind.bits_ofBits (b : BitVec 2) : (ofBits b).bits = b := by
  revert b
  decide

namespace TokenAttributes

/-- **A word is nothing but its fields.** -/
theorem word_ofWord (w : BitVec 32) : (ofWord w).word = w := by
  have hflag : BitVec.ofBool (w.getLsbD 10) = w.extractLsb' 10 1 := by
    rw [BitVec.getLsbD_eq_extractLsb']
    generalize w.extractLsb' 10 1 = b
    revert b
    decide
  simp only [word, ofWord, TokenKind.bits_ofBits, hflag]
  -- each field begins where the one below it ends
  simp (disch := rfl) only [BitVec.extractLsb'_append_extractLsb'_eq_extractLsb']
  exact BitVec.extractLsb'_eq_self

/-- **A change merged into a word**: its fields are taken out, merged and packed again. -/
def mergeWord (w : BitVec 32) (c : AttributeChange) : BitVec 32 := ((ofWord w).merge c).word

/-- Packing in between makes no difference. -/
theorem foldl_mergeWord (w : BitVec 32) (cs : List AttributeChange) :
    cs.foldl mergeWord w = (cs.foldl merge (ofWord w)).word := by
  induction cs generalizing w with
  | nil => exact (word_ofWord w).symm
  | cons c cs ih => rw [List.foldl_cons, List.foldl_cons, ih, mergeWord, ofWord_word]

end TokenAttributes

namespace AttributeField

open TokenAttributes

/-- **The attributes of a word are what it holds in its fields.** -/
theorem value_ofWord (f : AttributeField) (w : BitVec 32) : value (ofWord w) f = f.read w := by
  have hextract : ∀ start len, (w.extractLsb' start len).toNat = w.toNat / 2 ^ start % 2 ^ len :=
    fun start len => congrArg (· % 2 ^ len) (Nat.shiftRight_eq_div_pow w.toNat start)
  cases f with
  | language => exact hextract 0 8
  | kind => exact (congrArg BitVec.toNat (TokenKind.bits_ofBits _)).trans (hextract 8 2)
  | balanced => exact Nat.toNat_testBit w.toNat 10
  | fontStyle => exact hextract 11 4
  | foreground => exact hextract 15 9
  | background => exact hextract 24 8

/-- A number that is merged is cut to the bits of its field. -/
theorem toNat_merged_number {m : Nat} (n : Nat) (old : BitVec m) :
    (if n ≠ 0 then BitVec.ofNat m n else old).toNat =
      ((if n = 0 then none else some n).map (· % 2 ^ m)).getD old.toNat := by
  by_cases hn : n = 0 <;> simp [hn]

/-- What is not a number has a code that fits. -/
theorem toNat_merged_code {α : Type} {m : Nat} (code : α → BitVec m) (o : Option α) (old : α) :
    (code (o.getD old)).toNat =
      ((o.map (fun x => (code x).toNat)).map (· % 2 ^ m)).getD (code old).toNat := by
  cases o with
  | none => rfl
  | some x => exact (Nat.mod_eq_of_lt (code x).isLt).symm

/-- **A change sets the fields that it names** and keeps all others. Of a number that is too great
a field keeps the bits that it has. -/
theorem value_merge (f : AttributeField) (a : TokenAttributes) (c : AttributeChange) :
    value (a.merge c) f = ((set? c f).map (· % 2 ^ f.width)).getD (value a f) := by
  cases f with
  | language => exact toNat_merged_number c.language a.language
  | kind => exact toNat_merged_code TokenKind.bits c.kind a.kind
  | balanced =>
    have hflag := toNat_merged_code BitVec.ofBool c.balanced a.balanced
    simp only [BitVec.toNat_ofBool] at hflag
    exact hflag
  | fontStyle => exact toNat_merged_code FontStyle.flags c.fontStyle a.fontStyle
  | foreground => exact toNat_merged_number c.foreground a.foreground
  | background => exact toNat_merged_number c.background a.background

/-! ## Masks and shifts

A word can also be changed as a whole, without taking its fields apart: what is put into a field is
shifted to its place and masked, and the masked numbers are or-ed. That comes to the same. -/

/-- The bits of the word that a field has. -/
def mask : AttributeField → BitVec 32
  | language => 0x000000FF
  | kind => 0x00000300
  | balanced => 0x00000400
  | fontStyle => 0x00007800
  | foreground => 0x00FF8000
  | background => 0xFF000000

/-- What is left of a word after masking and shifting down. -/
def bits (f : AttributeField) (w : BitVec 32) : BitVec 32 := (w &&& f.mask) >>> f.offset

/-- A number shifted up and masked. -/
def place (f : AttributeField) (b : BitVec 32) : BitVec 32 := (b <<< f.offset) &&& f.mask

/-- What a field is set to, of as many bits as the word has. -/
def next (f : AttributeField) (w : BitVec 32) (c : AttributeChange) : BitVec 32 :=
  ((set? c f).map (BitVec.ofNat 32)).getD (f.bits w)

/-- **A word with a change set in it**, by masks and shifts. -/
def setWord (w : BitVec 32) (c : AttributeChange) : BitVec 32 :=
  let part := fun (f : AttributeField) => f.place (f.next w c)
  part language ||| part kind ||| part balanced ||| part fontStyle ||| part foreground |||
    part background

theorem getLsbD_mask (f : AttributeField) {i : Nat} (hi : i < 32) :
    f.mask.getLsbD i = decide (f.offset ≤ i ∧ i < f.offset + f.width) := by
  revert i
  cases f <;> decide

theorem offset_add_width_le (f : AttributeField) : f.offset + f.width ≤ 32 := by
  cases f <;> decide

/-- Fields do not overlap. -/
theorem eq_of_overlap {f g : AttributeField} {i : Nat} (hf : f.offset ≤ i ∧ i < f.offset + f.width)
    (hg : g.offset ≤ i ∧ i < g.offset + g.width) : f = g := by
  cases f <;> cases g <;> first | rfl | (simp only [offset, width] at hf hg; omega)

theorem testBit_read (f : AttributeField) (w : BitVec 32) (i : Nat) :
    (f.read w).testBit i = (decide (i < f.width) && w.getLsbD (f.offset + i)) := by
  rw [read, Nat.testBit_mod_two_pow, Nat.testBit_div_two_pow, Nat.add_comm]
  rfl

theorem read_or (f : AttributeField) (v w : BitVec 32) :
    f.read (v ||| w) = f.read v ||| f.read w := by
  refine Nat.eq_of_testBit_eq fun i => ?_
  simp only [Nat.testBit_or, testBit_read, BitVec.getLsbD_or, Bool.and_or_distrib_left]

/-- Masking and shifting down reads a field. -/
theorem toNat_bits (f : AttributeField) (w : BitVec 32) : (f.bits w).toNat = f.read w := by
  refine Nat.eq_of_testBit_eq fun i => ?_
  rw [testBit_read, ← BitVec.getLsbD, bits, BitVec.getLsbD_ushiftRight, BitVec.getLsbD_and]
  by_cases hi : f.offset + i < 32
  · rw [getLsbD_mask f hi]
    grind
  · rw [BitVec.getLsbD_of_ge w _ (Nat.le_of_not_lt hi)]
    simp

/-- A number that is put in its place is all that the field holds, and no other field holds
anything. -/
theorem read_place (f g : AttributeField) (b : BitVec 32) :
    f.read (g.place b) = if f = g then b.toNat % 2 ^ f.width else 0 := by
  refine Nat.eq_of_testBit_eq fun i => ?_
  rw [testBit_read, place, BitVec.getLsbD_and, BitVec.getLsbD_shiftLeft]
  by_cases hi : i < f.width
  · have hlt : f.offset + i < 32 :=
      (Nat.add_lt_add_left hi _).trans_le f.offset_add_width_le
    rw [getLsbD_mask g hlt]
    split
    · next h =>
      subst h
      simp [hi, hlt, Nat.testBit_mod_two_pow, BitVec.getLsbD]
    · next h =>
      have hout : ¬ (g.offset ≤ f.offset + i ∧ f.offset + i < g.offset + g.width) := fun hg =>
        h (eq_of_overlap ⟨Nat.le_add_right _ _, by omega⟩ hg)
      simp [hout]
  · split <;> simp [hi, Nat.testBit_mod_two_pow]

theorem next_mod (f : AttributeField) (w : BitVec 32) (c : AttributeChange) :
    (f.next w c).toNat % 2 ^ f.width = ((set? c f).map (· % 2 ^ f.width)).getD (f.read w) := by
  rw [next]
  cases set? c f with
  | none => exact (congrArg (· % _) (f.toNat_bits w)).trans (Nat.mod_mod _ _)
  | some n =>
    have hwidth : 2 ^ f.width ∣ 2 ^ 32 :=
      Nat.pow_dvd_pow 2 ((Nat.le_add_left _ _).trans f.offset_add_width_le)
    exact (congrArg (· % _) (BitVec.toNat_ofNat n 32)).trans (Nat.mod_mod_of_dvd n hwidth)

theorem read_setWord (f : AttributeField) (w : BitVec 32) (c : AttributeChange) :
    f.read (setWord w c) = ((set? c f).map (· % 2 ^ f.width)).getD (f.read w) := by
  rw [← next_mod]
  simp only [setWord, read_or, read_place]
  cases f <;> simp

/-- Every bit belongs to a field. -/
theorem exists_field {i : Nat} (hi : i < 32) :
    ∃ f : AttributeField, f.offset ≤ i ∧ i < f.offset + f.width := by
  obtain h | h | h | h | h | h : i < 8 ∨ 8 ≤ i ∧ i < 10 ∨ i = 10 ∨ 11 ≤ i ∧ i < 15 ∨
      15 ≤ i ∧ i < 24 ∨ 24 ≤ i := by omega
  · exact ⟨language, Nat.zero_le _, by simpa [offset, width] using h⟩
  · exact ⟨kind, h⟩
  · exact ⟨balanced, by simp [offset, width, h]⟩
  · exact ⟨fontStyle, h⟩
  · exact ⟨foreground, h⟩
  · exact ⟨background, h, hi⟩

/-- Words that hold the same in all fields are the same. -/
theorem eq_of_read {v w : BitVec 32} (h : ∀ f : AttributeField, f.read v = f.read w) : v = w := by
  refine BitVec.eq_of_getLsbD_eq fun i hi => ?_
  obtain ⟨f, hle, hlt⟩ := exists_field hi
  have hbit := congrArg (·.testBit (i - f.offset)) (h f)
  have hwidth : i - f.offset < f.width := by omega
  simpa only [testBit_read, hwidth, decide_true, Bool.true_and, Nat.add_sub_cancel' hle] using hbit

/-- **Masks and shifts do the same** as taking the fields apart and packing them again. -/
theorem setWord_eq_mergeWord (w : BitVec 32) (c : AttributeChange) :
    setWord w c = mergeWord w c := by
  refine eq_of_read fun f => ?_
  rw [read_setWord, mergeWord, ← value_ofWord f (word _), ofWord_word, value_merge, value_ofWord]

/-! ## Change after change -/

theorem last?_cons (f : AttributeField) (c : AttributeChange) (cs : List AttributeChange) :
    f.last? (c :: cs) = (f.last? cs).or (set? c f) := by
  rw [last?, last?, List.filterMap_cons]
  cases set? c f with
  | none => exact Option.or_none.symm
  | some n =>
    rw [List.getLast?_cons]
    cases (cs.filterMap (set? · f)).getLast? <;> rfl

theorem value_foldl_merge (f : AttributeField) (a : TokenAttributes) (cs : List AttributeChange) :
    value (cs.foldl merge a) f = ((f.last? cs).map (· % 2 ^ f.width)).getD (value a f) := by
  induction cs generalizing a with
  | nil => rfl
  | cons c cs ih =>
    rw [List.foldl_cons, ih, value_merge f a c, last?_cons]
    cases f.last? cs <;> rfl

/-- What fits is set to what the field has bits for. -/
theorem lt_of_set? {f : AttributeField} {c : AttributeChange} (h : c.Fits) {n : Nat}
    (hn : set? c f = some n) : n < 2 ^ f.width := by
  have hnumber : ∀ {m bound : Nat}, m < bound → (if m = 0 then none else some m) = some n →
      n < bound := by
    intro m bound hm hset
    split at hset
    · cases hset
    · exact Option.some.inj hset ▸ hm
  cases f with
  | language => exact hnumber h.language hn
  | kind =>
    obtain ⟨k, -, rfl⟩ := Option.map_eq_some_iff.1 hn
    exact k.bits.isLt
  | balanced =>
    obtain ⟨b, -, rfl⟩ := Option.map_eq_some_iff.1 hn
    exact b.toNat_lt
  | fontStyle =>
    obtain ⟨s, -, rfl⟩ := Option.map_eq_some_iff.1 hn
    exact s.flags.isLt
  | foreground => exact hnumber h.foreground hn
  | background => exact hnumber h.background hn

theorem last?_mod {cs : List AttributeChange} (h : ∀ c ∈ cs, c.Fits) (f : AttributeField) :
    (f.last? cs).map (· % 2 ^ f.width) = f.last? cs := by
  cases hlast : f.last? cs with
  | none => rfl
  | some n =>
    obtain ⟨c, hc, hn⟩ := List.mem_filterMap.1 (List.mem_of_getLast? hlast)
    exact congrArg some (Nat.mod_eq_of_lt (lt_of_set? (h c hc) hn))

/-- **Fields are merged one by one.** Whatever changes that fit are merged into whatever word, in
the end each field holds what the last change that sets it sets it to, and what it held at first
if none sets it. This is also what the attributes of the word are. -/
theorem read_foldl_mergeWord (w : BitVec 32) {cs : List AttributeChange}
    (h : ∀ c ∈ cs, c.Fits) (f : AttributeField) :
    f.read (cs.foldl mergeWord w) = (f.last? cs).getD (f.read w) ∧
      value (ofWord (cs.foldl mergeWord w)) f = f.read (cs.foldl mergeWord w) := by
  refine ⟨?_, value_ofWord f _⟩
  calc f.read (cs.foldl mergeWord w)
      = value (cs.foldl merge (ofWord w)) f := by
        rw [foldl_mergeWord, ← value_ofWord, ofWord_word]
    _ = (f.last? cs).getD (f.read w) := by
        rw [value_foldl_merge, last?_mod h, value_ofWord]

/-- Changes that set some fields again, to plain letters, other text and no brackets. -/
def repaints : List AttributeChange :=
  [{ language := 7, kind := some .comment, foreground := 300 },
   { balanced := some false, fontStyle := some .plain, foreground := 2 },
   { kind := some .other, background := 255 }]

theorem read_foldl_mergeWord_allOnes :
    (∀ c ∈ repaints, c.Fits) ∧ ∀ f : AttributeField,
      f.read (repaints.foldl mergeWord (.allOnes 32)) =
          (f.last? repaints).getD (f.read (.allOnes 32)) ∧
        value (ofWord (repaints.foldl mergeWord (.allOnes 32))) f =
          f.read (repaints.foldl mergeWord (.allOnes 32)) := by
  have hfits : ∀ c ∈ repaints, c.Fits := by
    intro c hc
    simp only [repaints, List.mem_cons, List.not_mem_nil, or_false] at hc
    obtain rfl | rfl | rfl := hc <;> exact ⟨by decide, by decide, by decide⟩
  exact ⟨hfits, read_foldl_mergeWord _ hfits⟩

example : repaints.foldl mergeWord (.allOnes 32) = 0xFF010007 := by decide

end AttributeField

end Highlight
