import Highlight.Proofs.Colors
import Mathlib.Data.List.Induction
import Mathlib.Data.List.Nodup

/-!
# Asking a map for colours in a row

A map that grows counts the numbers that it gives, and puts each into its table and the colour at
the end of its list. What the numbers are worth shows only over many calls: a number that was given
must keep its colour while others are added, a colour must get the number again that it got before,
however it was written, and no number is left out.

All of this follows from where the calls lead. The map stays coherent, so the table may be read off
the list. The list is at each time place 0 and the colours that were asked for, each at its first
use, and the answer to a call is the place of its colour among those (`askAll_after`). That list
only grows at its end, so the place is the same in the list that the last call leaves.

A map that is frozen answers or refuses, and is left as it was either way.
-/

namespace Highlight

namespace ColorMap

/-- **Calls in a row**, failing ones included: their answers, and the map that the last one
leaves. -/
def askAll (m : ColorMap) : List (Option String) → List (Except MissingColor Nat) × ColorMap
  | [] => ([], m)
  | color :: more =>
    ((m.ask color).1 :: ((m.ask color).2.askAll more).1, ((m.ask color).2.askAll more).2)

theorem askAll_append (m : ColorMap) (calls more : List (Option String)) :
    m.askAll (calls ++ more) =
      ((m.askAll calls).1 ++ ((m.askAll calls).2.askAll more).1,
        ((m.askAll calls).2.askAll more).2) := by
  induction calls generalizing m with
  | nil => rfl
  | cons color calls ih => rw [List.cons_append, askAll, ih, askAll, List.cons_append]

/-- The colours that calls name, in uppercase. -/
def named (calls : List (Option String)) : List String :=
  calls.flatMap fun color => (color.map Unicode.upper).toList

@[simp] theorem named_nil : named [] = [] := rfl

@[simp] theorem named_cons (color : Option String) (more : List (Option String)) :
    named (color :: more) = (color.map Unicode.upper).toList ++ named more := rfl

theorem named_append (calls more : List (Option String)) :
    named (calls ++ more) = named calls ++ named more := List.flatMap_append

theorem mem_named {calls : List (Option String)} {color : String} (h : some color ∈ calls) :
    Unicode.upper color ∈ named calls :=
  List.mem_flatMap.2 ⟨some color, h, by simp⟩

/-! ## Places among the first uses -/

/-- **The place of a colour** among the colours asked for, each at its first use and counted from
1. No colour has place 0. -/
def placeAmong (asked : List String) : Option String → Nat
  | none => 0
  | some color => asked.eraseDups.idxOf color + 1

theorem nodup_eraseDups (asked : List String) : asked.eraseDups.Nodup := by
  induction asked using List.reverseRecOn with
  | nil => exact List.nodup_nil
  | append_singleton asked color ih =>
    rw [eraseDups_concat]
    split
    · exact ih
    · next hmem =>
      rw [← List.concat_eq_append]
      exact ih.concat (by simpa using hmem)

/-- The place of a colour is the same when more is asked for. -/
theorem placeAmong_append {asked : List String} {color : Option String}
    (h : ∀ c ∈ color, c ∈ asked) (more : List String) :
    placeAmong (asked ++ more) color = placeAmong asked color := by
  cases color with
  | none => rfl
  | some color =>
    rw [placeAmong, placeAmong, List.eraseDups_append,
      List.idxOf_append_of_mem (List.mem_eraseDups.2 (h color rfl))]

/-- A new colour takes the place after all others. -/
theorem placeAmong_new {asked : List String} {color : String} (h : color ∉ asked) :
    placeAmong (asked ++ [color]) (some color) = asked.eraseDups.length + 1 := by
  rw [placeAmong, eraseDups_concat, if_neg h, List.idxOf_append_of_notMem (by simpa using h),
    List.idxOf_cons_self, Nat.add_zero]

/-- Different colours have different places. -/
theorem placeAmong_inj {asked : List String} {color other : String} (h : color ∈ asked) :
    placeAmong asked (some color) = placeAmong asked (some other) ↔ color = other := by
  rw [placeAmong, placeAmong, Nat.add_right_cancel_iff,
    List.idxOf_inj (List.mem_eraseDups.2 h)]

/-- The map has a colour at its place. -/
theorem colors_placeAmong {asked : List String} {color : String} (h : color ∈ asked) :
    (after none asked).colors[placeAmong asked (some color)]? = some color := by
  rw [colors_after, placeAmong, List.getElem?_cons_succ]
  exact List.getElem?_idxOf (List.mem_eraseDups.2 h)

/-- A place that has a colour is its place. -/
theorem eq_placeAmong {asked : List String} {color : Option String} {n : Nat}
    (h : (after none asked).color? n = color) (hnone : color = none → n = 0) :
    n = placeAmong asked color := by
  cases color with
  | none => exact hnone rfl
  | some color =>
    cases n with
    | zero => exact absurd h (by simp [color?])
    | succ n =>
      rw [color?, colors_after, List.getElem?_cons_succ] at h
      obtain ⟨hlt, rfl⟩ := List.getElem?_eq_some_iff.1 h
      rw [placeAmong, (nodup_eraseDups asked).idxOf_getElem]

/-! ## What calls answer -/

/-- **One call**: the colour counts as asked for from then on, and its place is the answer. -/
theorem ask_after (asked : List String) (color : Option String) :
    (after none asked).ask color =
      (.ok (placeAmong (asked ++ (color.map Unicode.upper).toList) (color.map Unicode.upper)),
        after none (asked ++ (color.map Unicode.upper).toList)) := by
  obtain ⟨n, m, h, -⟩ := (isGrowing_after asked).1.number color
  obtain ⟨rfl, hcolor, hzero⟩ := number_after h
  rw [number_eq_ok_iff.1 h, ← eq_placeAmong hcolor fun hnone => hzero (by simpa using hnone)]

/-- **Calls in a row**: each is answered by the place of its colour in the list that they lead
to. -/
theorem askAll_after (asked : List String) (calls : List (Option String)) :
    (after none asked).askAll calls =
      (calls.map fun color => .ok (placeAmong (asked ++ named calls) (color.map Unicode.upper)),
        after none (asked ++ named calls)) := by
  induction calls generalizing asked with
  | nil => simp [askAll]
  | cons color more ih =>
    have hplace : placeAmong (asked ++ named (color :: more)) (color.map Unicode.upper) =
        placeAmong (asked ++ (color.map Unicode.upper).toList) (color.map Unicode.upper) := by
      rw [named_cons, ← List.append_assoc]
      refine placeAmong_append (fun c hc => ?_) _
      rw [Option.mem_def.1 hc]
      simp
    rw [askAll, ask_after, ih, List.map_cons, hplace, named_cons, List.append_assoc]

theorem askAll_empty (calls : List (Option String)) :
    empty.askAll calls =
      (calls.map fun color => .ok (placeAmong (named calls) (color.map Unicode.upper)),
        after none (named calls)) :=
  askAll_after [] calls

/-- As many numbers were given as there are different colours. -/
theorem last_after (asked : List String) : (after none asked).last = asked.eraseDups.length := by
  obtain ⟨hgrowing, hcolors⟩ := isGrowing_after asked
  have hlast := hgrowing.coherent.last hgrowing.free
  rw [hcolors, List.length_cons] at hlast
  exact Nat.succ_injective hlast.symm

/-- **The table has the places of the list** from 1 on, and nothing else. -/
theorem get?_numbers_after {asked : List String} {color : String} {n : Nat} :
    Keyed.get? color (after none asked).numbers = some n ↔
      1 ≤ n ∧ (after none asked).colors[n]? = some color := by
  obtain ⟨hgrowing, hcolors⟩ := isGrowing_after asked
  have hfirst : (after none asked).firstPlace = 1 := by
    rw [firstPlace, hgrowing.free, if_neg Bool.false_ne_true]
  rw [hgrowing.coherent.places color n, hfirst]
  refine and_congr_right fun hn => and_iff_left_of_imp fun hcolor k hk hagain => ?_
  -- no colour is on the list twice beside place 0
  obtain ⟨n, rfl⟩ := Nat.exists_eq_add_of_le' hn
  obtain ⟨k, rfl⟩ := Nat.exists_eq_add_of_le' (Nat.le_of_lt (Nat.lt_of_le_of_lt hn hk))
  rw [hcolors, List.getElem?_cons_succ] at hcolor hagain
  obtain ⟨hlt, -⟩ := List.getElem?_eq_some_iff.1 hcolor
  have hsame := (List.getElem?_inj hlt (nodup_eraseDups asked)).1 (hcolor.trans hagain.symm)
  omega

/-- **A frozen map is left as it was** by all calls, and answers each as if it were the only one. -/
theorem askAll_of_frozen {m : ColorMap} (h : m.frozen = true) (calls : List (Option String)) :
    m.askAll calls = (calls.map fun color => (m.ask color).1, m) := by
  have hask : ∀ color, (m.ask color).2 = m := by
    intro color
    cases color with
    | none => rfl
    | some color => exact get_of_frozen h _
  induction calls with
  | nil => rfl
  | cons color more ih => rw [askAll, hask, ih, List.map_cons]

/-- **Numbers that are stable and say what was asked for**: the answers to calls on a map that
starts without colours, and the map that they lead to. -/
structure Faithful (calls : List (Option String)) (answers : List (Except MissingColor Nat))
    (m : ColorMap) : Prop where
  /-- Each call has one answer. -/
  length : answers.length = calls.length
  /-- Number 0 is the answer where no colour is asked for. -/
  colorless : ∀ i : Nat, calls[i]? = some none → answers[i]? = some (Except.ok 0)
  /-- Any colour gets a number from 1 on, and is found there in uppercase. -/
  colored : ∀ (i : Nat) (color : String), calls[i]? = some (some color) →
    ∃ n, answers[i]? = some (Except.ok n) ∧ 1 ≤ n ∧ m.colors[n]? = some (Unicode.upper color)
  /-- Two colours get one number if they are one in uppercase. -/
  same : ∀ (i j : Nat) (color other : String),
    calls[i]? = some (some color) → calls[j]? = some (some other) →
    (answers[i]? = answers[j]? ↔ Unicode.upper color = Unicode.upper other)
  /-- The places from 1 on are taken in the order of first uses. -/
  inOrder : m.colors = "" :: (named calls).eraseDups
  /-- The number given last is that of the different colours that were asked for. -/
  counted : m.last = (named calls).eraseDups.length
  /-- No answer is greater, so where there is room for that number there is room for all. -/
  bounded : ∀ n, Except.ok n ∈ answers → n ≤ m.last
  /-- The table has a number for a colour exactly if the list has the colour there, from 1 on. -/
  table : ∀ color n, Keyed.get? color m.numbers = some n ↔ 1 ≤ n ∧ m.colors[n]? = some color
  /-- A colour that was not asked for before gets the number after all that were given. -/
  next : ∀ before color, before ++ [some color] <+: calls → Unicode.upper color ∉ named before →
    answers[before.length]? = some (Except.ok ((named before).eraseDups.length + 1))
  /-- Later calls change neither an answer nor an entry. -/
  kept : ∀ before, before <+: calls → (empty.askAll before).1 <+: answers ∧
    (empty.askAll before).2.colors <+: m.colors

/-- **The numbers of colours are stable and faithful**, whatever is asked for and in whichever
order, and nothing that is asked for changes a frozen map. -/
theorem faithful_askAll (calls : List (Option String)) :
    Faithful calls (empty.askAll calls).1 (empty.askAll calls).2 ∧
      ∀ m : ColorMap, m.frozen = true →
        m.askAll calls = (calls.map fun color => (m.ask color).1, m) := by
  refine ⟨?_, fun m hm => askAll_of_frozen hm calls⟩
  have hanswer : ∀ (i : Nat) (color : Option String), calls[i]? = some color →
      (empty.askAll calls).1[i]? =
        some (Except.ok (placeAmong (named calls) (color.map Unicode.upper))) := by
    intro i color hi
    rw [askAll_empty, List.getElem?_map, hi, Option.map_some]
  have hnamed : ∀ (i : Nat) (color : String), calls[i]? = some (some color) →
      Unicode.upper color ∈ named calls :=
    fun i color hi => mem_named (List.mem_of_getElem? hi)
  constructor
  case length => simp [askAll_empty]
  case colorless => exact fun i hi => hanswer i _ hi
  case colored =>
    intro i color hi
    refine ⟨_, hanswer i _ hi, Nat.succ_pos _, ?_⟩
    rw [askAll_empty]
    exact colors_placeAmong (hnamed i color hi)
  case same =>
    intro i j color other hi hj
    rw [hanswer i _ hi, hanswer j _ hj, Option.some_inj, Except.ok.injEq]
    exact placeAmong_inj (hnamed i color hi)
  case inOrder => rw [askAll_empty, colors_after]
  case counted => rw [askAll_empty, last_after]
  case bounded =>
    intro n hn
    rw [askAll_empty] at hn ⊢
    obtain ⟨color, hcolor, heq⟩ := List.mem_map.1 hn
    obtain rfl := Except.ok.inj heq
    rw [last_after]
    cases color with
    | none => exact Nat.zero_le _
    | some color => exact List.idxOf_lt_length_of_mem (List.mem_eraseDups.2 (mem_named hcolor))
  case table =>
    intro color n
    rw [askAll_empty]
    exact get?_numbers_after
  case next =>
    rintro before color ⟨more, rfl⟩ hnew
    have hnamed : named (before ++ [some color] ++ more) =
        named before ++ [Unicode.upper color] ++ named more := by
      simp [named_append]
    rw [hanswer _ (some color) (by simp), hnamed, Option.map_some, placeAmong_append (by simp),
      placeAmong_new hnew]
  case kept =>
    rintro before ⟨more, rfl⟩
    refine ⟨?_, ?_⟩
    · rw [askAll_append]
      exact List.prefix_append _ _
    · rw [askAll_empty, askAll_empty, named_append]
      exact prefix_after none (List.prefix_append _ _)

/-- Two ways to write a colour share a number, and a new colour takes the next. -/
example : (empty.askAll [none, some "#f00", some "#0f0", some "#F00"]).1 =
    [.ok 0, .ok 1, .ok 2, .ok 1] := by
  decide +kernel

end ColorMap

end Highlight
