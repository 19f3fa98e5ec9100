import Highlight.ColorMap
import Mathlib.Data.List.Basic
import Mathlib.Data.List.Induction
import Mathlib.Data.Nat.Find
import Mathlib.Order.Nat

/-!
# Numbers that stand for colours

The attributes of a token name colours by number. While the rules of a theme are numbered, the
map grows: numbers that were given stay good, and there is one for every colour.

Whoever has a number looks it up in the list, and whoever has a colour asks the table. That both
tell the same is not to be seen from either: the number that is put into the table is counted, and
the list just grows at its end. A map is **coherent** if the table has, under each colour, the last
of its places in the list, and if the list of a map that grows ends with the number given last. So
it is where nothing is numbered, and where a list fixes the numbers, even if a colour is on it
twice. Place 0 is reserved in a map that grows, and an entry like any other in one that is frozen.
Whatever is asked for, a map stays coherent.
-/

namespace Highlight

namespace ColorMap

/-! ## The counter, the list and the table -/

/-- **A table has the last places** of colours in a list from some place on, and nothing else. -/
def HasLastPlaces (first : Nat) (numbers : List (String × Nat)) (colors : List String) : Prop :=
  ∀ color n, Keyed.get? color numbers = some n ↔
    first ≤ n ∧ colors[n]? = some color ∧ ∀ k, n < k → colors[k]? ≠ some color

/-- Where a colour goes to the end of the list, and its place there into the table, they still
agree. -/
theorem HasLastPlaces.put {first : Nat} {numbers : List (String × Nat)} {colors : List String}
    (h : HasLastPlaces first numbers colors) (hfirst : first ≤ colors.length) (color : String) :
    HasLastPlaces first (Keyed.put color colors.length numbers) (colors ++ [color]) := by
  intro other n
  rw [Keyed.get?_put]
  have hbefore : ∀ k, k ≠ colors.length → (colors ++ [color])[k]? = colors[k]? := by
    intro k hk
    rw [List.getElem?_append]
    split
    · rfl
    · rw [List.getElem?_eq_none (by simp; omega), List.getElem?_eq_none (by omega)]
  have hhere : (colors ++ [color])[colors.length]? = some color := by simp
  have hend : colors[colors.length]? = none := List.getElem?_eq_none (Nat.le_refl _)
  split
  · next heq =>
    subst heq
    rw [Option.some_inj]
    constructor
    · rintro rfl
      refine ⟨hfirst, hhere, fun k hk => ?_⟩
      rw [List.getElem?_eq_none (by simp; omega)]
      exact (Option.some_ne_none other).symm
    · -- the place at the end is a later one, unless it is the one
      rintro ⟨-, hat, hlast⟩
      have hle : colors.length ≤ n := Nat.le_of_not_lt fun hlt => hlast _ hlt hhere
      have hlt := (List.getElem?_eq_some_iff.1 hat).1
      rw [List.length_append, List.length_singleton] at hlt
      omega
  · next hne =>
    have hsame : ∀ k : Nat,
        (colors ++ [color])[k]? = some other ↔ colors[k]? = some other := by
      intro k
      by_cases hk : k = colors.length
      · rw [hk, hhere, hend]
        simpa using Ne.symm hne
      · rw [hbefore k hk]
    rw [h other n, hsame]
    exact and_congr_right fun _ => and_congr_right fun _ => forall_congr' fun k =>
      imp_congr_right fun _ => not_congr (hsame k).symm

/-- The first place that is an entry: place 0 of a map that grows is reserved. -/
def firstPlace (m : ColorMap) : Nat := if m.frozen then 0 else 1

/-- **A coherent map**: its counter, its list and its table agree. -/
structure Coherent (m : ColorMap) : Prop where
  /-- The list of a map that grows ends with the number given last. -/
  last : m.frozen = false → m.colors.length = m.last + 1
  /-- The table has the last places of the list. -/
  places : HasLastPlaces m.firstPlace m.numbers m.colors

theorem coherent_empty : Coherent empty where
  last := fun _ => rfl
  places := by
    intro color n
    refine ⟨fun h => by simp [empty, Keyed.get?] at h, fun ⟨hfirst, hat, _⟩ => ?_⟩
    -- the only place is the one that is reserved
    obtain ⟨n, rfl⟩ := Nat.exists_eq_succ_of_ne_zero (Nat.ne_of_gt hfirst)
    cases hat

/-- A map that grows is still coherent once a colour was added. -/
theorem Coherent.add {m : ColorMap} (h : m.Coherent) (hfree : m.frozen = false) (color : String) :
    (m.add color).Coherent where
  last := fun _ => by
    rw [ColorMap.add, List.length_append, h.last hfree]
    rfl
  places := by
    have hfirst : m.firstPlace ≤ m.colors.length := by
      rw [firstPlace, hfree, h.last hfree]
      exact Nat.succ_le_succ (Nat.zero_le _)
    have hput := h.places.put hfirst color
    rwa [h.last hfree] at hput

/-- **A call has one of three outcomes**: the colour has its number, or it is missing from a frozen
map, or the map grows by it. -/
theorem get_cases (m : ColorMap) (color : String) :
    (∃ n, m.find? color = some n ∧ m.get color = (.ok n, m)) ∨
      (m.find? color = none ∧ m.frozen = true ∧ m.get color = (.error ⟨color⟩, m)) ∨
      (m.find? color = none ∧ m.frozen = false ∧
        m.get color = (.ok (m.last + 1), m.add color)) := by
  unfold get
  cases m.find? color with
  | some n => exact .inl ⟨n, rfl, rfl⟩
  | none =>
    cases hfrozen : m.frozen with
    | true => exact .inr (.inl ⟨rfl, rfl, rfl⟩)
    | false => exact .inr (.inr ⟨rfl, rfl, rfl⟩)

theorem Coherent.get {m : ColorMap} (h : m.Coherent) (color : String) :
    (m.get color).2.Coherent := by
  obtain ⟨n, -, hget⟩ | ⟨-, -, hget⟩ | ⟨-, hfree, hget⟩ := m.get_cases color
  · rwa [hget]
  · rwa [hget]
  · rw [hget]
    exact h.add hfree color

/-- **Asking keeps a map coherent**, whether or not it is answered. -/
theorem Coherent.ask {m : ColorMap} (h : m.Coherent) (color : Option String) :
    (m.ask color).2.Coherent := by
  cases color with
  | none => exact h
  | some color => exact h.get _

/-- **A list makes a coherent map**, whatever is on it. -/
theorem coherent_freeze (colors : List String) : (freeze colors).Coherent := by
  refine ⟨nofun, ?_⟩
  show HasLastPlaces 0 ((colors.map Unicode.upper).zipIdx.foldl _ []) (colors.map Unicode.upper)
  generalize colors.map Unicode.upper = colors
  induction colors using List.reverseRecOn with
  | nil => exact fun color n => by simp [Keyed.get?]
  | append_singleton colors color ih =>
    rw [List.zipIdx_append, List.foldl_append, Nat.zero_add]
    exact ih.put (Nat.zero_le _) color

/-! ## What numbers stand for -/

/-- The colour of a number. Number 0 is no colour. -/
def color? (m : ColorMap) : Nat → Option String
  | 0 => none
  | n + 1 => m.colors[n + 1]?

theorem color?_of_ne_zero {m : ColorMap} {n : Nat} (h : n ≠ 0) : m.color? n = m.colors[n]? := by
  cases n with
  | zero => exact absurd rfl h
  | succ n => rfl

/-- Numbers keep their colours when others are added. -/
theorem color?_mono {m m' : ColorMap} {n : Nat} {color : String} (h : m.color? n = some color)
    (hm : m.colors <+: m'.colors) : m'.color? n = some color := by
  obtain ⟨more, hmore⟩ := hm
  cases n with
  | zero => cases h
  | succ n =>
    rw [color?] at h
    rw [color?, ← hmore, List.getElem?_append_left (List.getElem?_eq_some_iff.1 h).1, h]

/-- **A number stands for a colour**, or for none, in a map. -/
structure Numbers (m : ColorMap) (n : Nat) (color : Option String) : Prop where
  /-- The number is one of the map. -/
  lt : n < m.colors.length
  /-- Its colour. -/
  color : m.color? n = color

/-- **A map that grows** is coherent, and takes any colour. -/
structure IsGrowing (m : ColorMap) : Prop where
  /-- Colours may be added. -/
  free : m.frozen = false
  /-- Its counter, its list and its table agree. -/
  coherent : m.Coherent

/-- There is place 0. -/
theorem IsGrowing.pos {m : ColorMap} (h : m.IsGrowing) : 0 < m.colors.length := by
  rw [h.coherent.last h.free]
  exact Nat.succ_pos _

theorem isGrowing_empty : IsGrowing empty := ⟨rfl, coherent_empty⟩

theorem IsGrowing.numbers_zero {m : ColorMap} (h : m.IsGrowing) : m.Numbers 0 none := ⟨h.pos, rfl⟩

/-- Colours keep their numbers when others are added. -/
theorem Numbers.mono {m m' : ColorMap} {n : Nat} {color : Option String} (h : m.Numbers n color)
    (hm : m.colors <+: m'.colors) : m'.Numbers n color := by
  obtain ⟨more, hmore⟩ := hm
  refine ⟨?_, ?_⟩
  · rw [← hmore, List.length_append]
    exact Nat.lt_add_right _ h.lt
  · rw [← h.color]
    cases n with
    | zero => rfl
    | succ n =>
      rw [color?, color?, ← hmore]
      exact List.getElem?_append_left h.lt

theorem Numbers.pos_of_some {m : ColorMap} {n : Nat} {color : String}
    (h : m.Numbers n (some color)) : n ≠ 0 := by
  rintro rfl
  exact absurd h.color (by simp [color?])

theorem Numbers.eq_zero_of_none {m : ColorMap} {n : Nat} (h : m.Numbers n none) : n = 0 := by
  cases n with
  | zero => rfl
  | succ n => exact absurd h.color (by simp [color?, List.getElem?_eq_getElem h.lt])

/-- What a number or else another one stands for. -/
theorem Numbers.ite {m : ColorMap} {n n' : Nat} {c c' : Option String} (h : m.Numbers n c)
    (h' : m.Numbers n' c') : m.Numbers (if n = 0 then n' else n) (c.or c') := by
  cases c with
  | none => simpa [h.eq_zero_of_none] using h'
  | some c => simpa [h.pos_of_some] using h

/-- The number that is found for a colour is the last of its places, unless that is place 0. -/
theorem Coherent.find?_eq_some_iff {m : ColorMap} (h : m.Coherent) {color : String} {n : Nat} :
    m.find? color = some n ↔
      n ≠ 0 ∧ m.colors[n]? = some color ∧ ∀ k, n < k → m.colors[k]? ≠ some color := by
  rw [find?, Option.filter_eq_some_iff]
  constructor
  · rintro ⟨hget, hne⟩
    exact ⟨by simpa using hne, ((h.places color n).1 hget).2⟩
  · rintro ⟨hn, hlast⟩
    have hfirst : m.firstPlace ≤ n := by
      unfold firstPlace
      split <;> omega
    exact ⟨(h.places color n).2 ⟨hfirst, hlast⟩, by simpa using hn⟩

/-- The number that is found for a colour is its number. -/
theorem Coherent.numbers_of_find? {m : ColorMap} (h : m.Coherent) {color : String} {n : Nat}
    (hfind : m.find? color = some n) : m.Numbers n (some color) := by
  obtain ⟨hn, hcolor, -⟩ := h.find?_eq_some_iff.1 hfind
  exact ⟨(List.getElem?_eq_some_iff.1 hcolor).1, by rw [color?_of_ne_zero hn, hcolor]⟩

/-- A colour that is added has the next number. -/
theorem Coherent.numbers_add {m : ColorMap} (h : m.Coherent) (hfree : m.frozen = false)
    (color : String) : (m.add color).Numbers (m.last + 1) (some color) := by
  have hcolor : (m.add color).colors[m.last + 1]? = some color := by
    rw [← h.last hfree, ColorMap.add]
    simp
  exact ⟨(List.getElem?_eq_some_iff.1 hcolor).1, by rw [color?, hcolor]⟩

/-- A colour is found if it has a place beside place 0. -/
theorem Coherent.find?_eq_none_iff {m : ColorMap} (h : m.Coherent) {color : String} :
    m.find? color = none ↔ color ∉ m.colors.tail := by
  constructor
  · intro hnone hmem
    obtain ⟨i, hi⟩ := List.getElem?_of_mem hmem
    rw [List.getElem?_tail] at hi
    have hle : i + 1 ≤ m.colors.length := (List.getElem?_eq_some_iff.1 hi).1.le
    -- of its places the last is its number
    let at? : Nat → Prop := fun n => m.colors[n]? = some color
    have hn : i + 1 ≤ Nat.findGreatest at? m.colors.length := Nat.le_findGreatest hle hi
    have hcolor : at? (Nat.findGreatest at? m.colors.length) :=
      Nat.findGreatest_spec (P := at?) hle hi
    have hlast : ∀ k, Nat.findGreatest at? m.colors.length < k → m.colors[k]? ≠ some color := by
      intro k hk hat
      have hkle : k ≤ m.colors.length := (List.getElem?_eq_some_iff.1 hat).1.le
      exact Nat.findGreatest_is_greatest hk hkle hat
    have hpos := Nat.lt_of_lt_of_le i.succ_pos hn
    have hfind := h.find?_eq_some_iff.2 ⟨hpos.ne', hcolor, hlast⟩
    rw [hnone] at hfind
    cases hfind
  · intro hmem
    by_contra hsome
    obtain ⟨n, hfind⟩ := Option.ne_none_iff_exists'.1 hsome
    obtain ⟨hn, hcolor, -⟩ := h.find?_eq_some_iff.1 hfind
    obtain ⟨n, rfl⟩ := Nat.exists_eq_succ_of_ne_zero hn
    exact hmem (List.mem_of_getElem? (List.getElem?_tail.trans hcolor))

/-! ## Numbers that are needed -/

/-- A number that is needed comes with the map of the call. -/
theorem number_eq_ok_iff {m m' : ColorMap} {color : Option String} {n : Nat} :
    m.number color = .ok (n, m') ↔ m.ask color = (.ok n, m') := by
  unfold number
  obtain ⟨answer, left⟩ := m.ask color
  cases answer with
  | error e => simp [Except.map]
  | ok k => simp [Except.map]

/-- **A map to be asked for numbers** is coherent and has a place 0, reserved or not. -/
structure IsReady (m : ColorMap) : Prop where
  /-- Its counter, its list and its table agree. -/
  coherent : m.Coherent
  /-- There is place 0. -/
  pos : 0 < m.colors.length

/-- **What a call that is answered does**: the map has kept the numbers given before, has the one
that is given now, and is ready for more. -/
theorem IsReady.number {m m' : ColorMap} (hm : m.IsReady) {color : Option String} {n : Nat}
    (h : m.number color = .ok (n, m')) :
    m'.IsReady ∧ m.colors <+: m'.colors ∧ m'.Numbers n (color.map Unicode.upper) := by
  rw [number_eq_ok_iff] at h
  have hm' : m'.Coherent := by simpa [h] using hm.coherent.ask color
  suffices hgiven : m.colors <+: m'.colors ∧ m'.Numbers n (color.map Unicode.upper) from
    ⟨⟨hm', hm.pos.trans_le hgiven.1.length_le⟩, hgiven⟩
  cases color with
  | none =>
    obtain ⟨rfl, rfl⟩ : 0 = n ∧ m = m' := by simpa [ColorMap.ask] using h
    exact ⟨List.prefix_rfl, hm.pos, rfl⟩
  | some color =>
    rw [ColorMap.ask] at h
    obtain ⟨k, hfind, hget⟩ | ⟨-, -, hget⟩ | ⟨-, hfree, hget⟩ := m.get_cases (Unicode.upper color)
    · obtain ⟨rfl, rfl⟩ : k = n ∧ m = m' := by simpa [hget] using h
      exact ⟨List.prefix_rfl, hm.coherent.numbers_of_find? hfind⟩
    · simp [hget] at h
    · obtain ⟨rfl, rfl⟩ : m.last + 1 = n ∧ m.add (Unicode.upper color) = m' := by
        simpa [hget] using h
      exact ⟨List.prefix_append _ _, hm.coherent.numbers_add hfree _⟩

/-- **A growing map has a number for every colour**, and keeps those it has given. -/
theorem IsGrowing.number {m : ColorMap} (h : m.IsGrowing) (color : Option String) :
    ∃ n m', m.number color = .ok (n, m') ∧ m'.IsGrowing ∧ m.colors <+: m'.colors ∧
      m'.Numbers n (color.map Unicode.upper) := by
  have hasked : ∃ n m', m.ask color = (.ok n, m') ∧ m'.frozen = false := by
    cases color with
    | none => exact ⟨0, m, rfl, h.free⟩
    | some color =>
      obtain ⟨n, -, hget⟩ | ⟨-, hfrozen, -⟩ | ⟨-, -, hget⟩ := m.get_cases (Unicode.upper color)
      · exact ⟨n, m, hget, h.free⟩
      · rw [h.free] at hfrozen
        cases hfrozen
      · exact ⟨_, _, hget, h.free⟩
  obtain ⟨n, m', hask, hfree⟩ := hasked
  have hnumber := number_eq_ok_iff.2 hask
  obtain ⟨hm', hle, hn⟩ := IsReady.number ⟨h.coherent, h.pos⟩ hnumber
  exact ⟨n, m', hnumber, ⟨hfree, hm'.coherent⟩, hle, hn⟩

/-! ## The map of a theme -/

/-- **The map once colours were asked for**, in uppercase and in this order: beginning with a frozen
list, or without colours. -/
def after (frozen : Option (List String)) (asked : List String) : ColorMap :=
  asked.foldl (fun m color => (m.get color).2) (frozen.elim empty freeze)

theorem after_nil (frozen : Option (List String)) :
    after frozen [] = frozen.elim empty freeze := rfl

theorem after_concat (frozen : Option (List String)) (asked : List String) (color : String) :
    after frozen (asked ++ [color]) = ((after frozen asked).get color).2 := List.foldl_concat ..

theorem coherent_after (frozen : Option (List String)) (asked : List String) :
    (after frozen asked).Coherent := by
  induction asked using List.reverseRecOn with
  | nil =>
    cases frozen with
    | none => exact coherent_empty
    | some colors => exact coherent_freeze colors
  | append_singleton asked color ih =>
    rw [after_concat]
    exact ih.get color

/-- No call changes a frozen map. -/
theorem get_of_frozen {m : ColorMap} (h : m.frozen = true) (color : String) :
    (m.get color).2 = m := by
  obtain ⟨n, -, hget⟩ | ⟨-, -, hget⟩ | ⟨-, hfree, -⟩ := m.get_cases color
  · rw [hget]
  · rw [hget]
  · rw [h] at hfree
    cases hfree

@[simp] theorem after_some (colors asked : List String) :
    after (some colors) asked = freeze colors := by
  induction asked using List.reverseRecOn with
  | nil => rfl
  | append_singleton asked color ih => rw [after_concat, ih, get_of_frozen rfl]

theorem eraseDups_concat (asked : List String) (color : String) :
    (asked ++ [color]).eraseDups =
      if color ∈ asked then asked.eraseDups else asked.eraseDups ++ [color] := by
  rw [List.eraseDups_append]
  split
  · next hmem => simp [List.removeAll, hmem]
  · next hmem =>
    have hnew : [color].removeAll asked = [color] := by simp [List.removeAll, hmem]
    rw [hnew, List.eraseDups_cons]
    rfl

/-- **A map that begins without colours** takes in each at its first use, after place 0. -/
theorem isGrowing_after (asked : List String) :
    (after none asked).IsGrowing ∧ (after none asked).colors = "" :: asked.eraseDups := by
  induction asked using List.reverseRecOn with
  | nil => exact ⟨isGrowing_empty, rfl⟩
  | append_singleton asked color ih =>
    obtain ⟨hgrowing, hcolors⟩ := ih
    have hfind : (after none asked).find? color = none ↔ color ∉ asked := by
      rw [hgrowing.coherent.find?_eq_none_iff, hcolors, List.tail_cons, List.mem_eraseDups]
    rw [after_concat, eraseDups_concat]
    obtain ⟨n, hsome, hget⟩ | ⟨-, hfrozen, -⟩ | ⟨hnone, hfree, hget⟩ :=
      (after none asked).get_cases color
    · have hmem : color ∈ asked := by
        by_contra hmem
        rw [hfind.2 hmem] at hsome
        cases hsome
      rw [hget, if_pos hmem]
      exact ⟨hgrowing, hcolors⟩
    · rw [hgrowing.free] at hfrozen
      cases hfrozen
    · rw [hget, if_neg (hfind.1 hnone)]
      refine ⟨⟨hfree, hgrowing.coherent.add hfree color⟩, ?_⟩
      rw [add, hcolors, List.cons_append]

theorem colors_after (asked : List String) :
    (after none asked).colors = "" :: asked.eraseDups := (isGrowing_after asked).2

/-- Asking for more adds to the map. -/
theorem prefix_after (frozen : Option (List String)) {asked asked' : List String}
    (h : asked <+: asked') : (after frozen asked).colors <+: (after frozen asked').colors := by
  obtain ⟨more, rfl⟩ := h
  cases frozen with
  | none =>
    rw [colors_after, colors_after, List.eraseDups_append]
    exact List.cons_prefix_cons.2 ⟨rfl, List.prefix_append _ _⟩
  | some colors =>
    simp only [after_some, List.prefix_rfl]

/-- **Asking for a colour** leads to the map in which it has been asked for, and a number that is
not 0 stands for the colour. -/
theorem number_after {frozen : Option (List String)} {asked : List String} {color : Option String}
    {n : Nat} {m : ColorMap} (h : (after frozen asked).number color = .ok (n, m)) :
    m = after frozen (asked ++ (color.map Unicode.upper).toList) ∧
      m.color? n = color.map Unicode.upper ∧ (color = none → n = 0) := by
  rw [number_eq_ok_iff] at h
  cases color with
  | none =>
    obtain ⟨rfl, rfl⟩ : 0 = n ∧ after frozen asked = m := by simpa [ask] using h
    exact ⟨by simp, rfl, fun _ => rfl⟩
  | some color =>
    rw [ask] at h
    have hm := coherent_after frozen asked
    refine ⟨by rw [Option.map_some, Option.toList_some, after_concat, h], ?_, nofun⟩
    obtain ⟨k, hfind, hget⟩ | ⟨-, -, hget⟩ | ⟨-, hfree, hget⟩ :=
      (after frozen asked).get_cases (Unicode.upper color)
    · obtain ⟨rfl, rfl⟩ : k = n ∧ after frozen asked = m := by simpa [hget] using h
      exact (hm.numbers_of_find? hfind).color
    · simp [hget] at h
    · obtain ⟨rfl, rfl⟩ : (after frozen asked).last + 1 = n ∧
          (after frozen asked).add (Unicode.upper color) = m := by
        simpa [hget] using h
      exact (hm.numbers_add hfree _).color

end ColorMap

end Highlight
