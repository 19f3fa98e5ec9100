import Highlight.Line.Segments

/-!
# Tokens tile the line

Segments are cut one after another, each from where the last one stopped, and never without a
byte. So their stretches **tile** the line up to where it is cut. The tokens of a line tile it
too: the line end, which was added for reading, is either the last segment by itself and left out,
or the last byte of the last segment and clipped off it, and what is left stops where the line
does.

The empty line is the exception. Its only segment is that of the line end, and once that is left
out a token without a byte stands for the line.
-/

namespace Highlight

/-- **Stretches tile the line** between two positions: each begins where the one before it
stopped, and none is empty. -/
def Span.Tile : (start : Nat) → List Span → (stop : Nat) → Prop
  | start, [], stop => start = stop
  | start, s :: rest, stop => s.start = start ∧ s.start < s.stop ∧ Span.Tile s.stop rest stop

namespace Span.Tile

theorem append {start mid stop : Nat} {xs ys : List Span} (h : Span.Tile start xs mid)
    (h' : Span.Tile mid ys stop) : Span.Tile start (xs ++ ys) stop := by
  induction xs generalizing start with
  | nil =>
    obtain rfl : start = mid := h
    exact h'
  | cons s xs ih => exact ⟨h.1, h.2.1, ih h.2.2⟩

/-- The last of some stretches that tile the line begins where those before it stop. -/
theorem concat_iff {start stop : Nat} {xs : List Span} {s : Span} :
    Span.Tile start (xs ++ [s]) stop ↔
      Span.Tile start xs s.start ∧ s.start < s.stop ∧ s.stop = stop := by
  induction xs generalizing start with
  | nil =>
    simp only [List.nil_append, Span.Tile]
    constructor
    · rintro ⟨h, hlt, rfl⟩
      exact ⟨h.symm, hlt, rfl⟩
    · rintro ⟨h, hlt, rfl⟩
      exact ⟨h.symm, hlt, rfl⟩
  | cons x xs ih =>
    rw [List.cons_append, Span.Tile, ih, Span.Tile, and_assoc, and_assoc]

theorem le {start stop : Nat} {xs : List Span} (h : Span.Tile start xs stop) : start ≤ stop := by
  induction xs generalizing start with
  | nil => exact Nat.le_of_eq h
  | cons s xs ih =>
    obtain ⟨rfl, hlt, h⟩ := h
    exact Nat.le_trans (Nat.le_of_lt hlt) (ih h)

end Span.Tile

namespace Segments

/-! ## The segments -/

/-- **Segments are sound** for a line of a size: their stretches tile the line up to where it is
cut, that is not after its end, and their scopes are good. -/
structure Sound (good : AttributedPath → Prop) (size : Nat) (t : Segments) : Prop where
  /-- The stretches tile the line. -/
  tile : Span.Tile 0 (t.stretches.map (·.1)) t.reached
  /-- The line is not cut after its end. -/
  reached : t.reached ≤ size
  /-- The scopes are good. -/
  good : ∀ p ∈ t.stretches, good p.2

theorem stretches_produce {t : Segments} {stop : Nat} (h : t.reached < stop)
    (scopes : AttributedPath) :
    (t.produce scopes stop).stretches = t.stretches ++ [(⟨t.reached, stop⟩, scopes)] := by
  rw [produce, if_pos h, stretches, stretchesOf, List.reverse_cons]
  rfl

variable {good : AttributedPath → Prop} {size : Nat} {t : Segments}

theorem Sound.empty : ({} : Segments).Sound good size :=
  ⟨rfl, Nat.zero_le _, by simp [stretches, stretchesOf]⟩

/-- Cutting keeps segments sound. -/
theorem Sound.produce (h : t.Sound good size) {scopes : AttributedPath} (hgood : good scopes)
    {stop : Nat} (hstop : stop ≤ size) : (t.produce scopes stop).Sound good size := by
  by_cases hlt : t.reached < stop
  · refine ⟨?_, ?_, ?_⟩
    · rw [stretches_produce hlt, List.map_append, reached_produce,
        Nat.max_eq_right (Nat.le_of_lt hlt)]
      exact h.tile.append ⟨rfl, hlt, rfl⟩
    · rw [reached_produce]
      exact Nat.max_le.2 ⟨h.reached, hstop⟩
    · rw [stretches_produce hlt]
      intro p hp
      obtain hp | hp := List.mem_append.1 hp
      · exact h.good p hp
      · rw [List.mem_singleton.1 hp]
        exact hgood
  · rw [Segments.produce, if_neg hlt]
    exact h

/-! ## The tokens -/

/-- The stretch of the last token, clipped. -/
def clip (stop : Nat) (t : Token) : Token :=
  if stop < t.span.stop then { t with span := { t.span with stop := stop } } else t

theorem clipLast_concat (stop : Nat) (ts : List Token) (t : Token) :
    clipLast stop (ts ++ [t]) = ts ++ [clip stop t] := by
  induction ts with
  | nil => rfl
  | cons u ts ih =>
    cases ts with
    | nil => rfl
    | cons v ts =>
      rw [List.cons_append, List.cons_append, clipLast, ← List.cons_append, ih]
      · rfl
      · simp

@[simp] theorem scopes_clip (stop : Nat) (t : Token) : (clip stop t).scopes = t.scopes := by
  rw [clip]
  split <;> rfl

theorem span_clip_of_le {stop : Nat} {t : Token} (h : stop ≤ t.span.stop) :
    (clip stop t).span = ⟨t.span.start, stop⟩ := by
  rw [clip]
  split
  · rfl
  · obtain rfl : stop = t.span.stop := by omega
    rfl

/-- Clipping keeps the scopes of the tokens. -/
theorem scopes_clipLast (stop : Nat) (ts : List Token) :
    (clipLast stop ts).map (·.scopes) = ts.map (·.scopes) := by
  obtain rfl | ⟨init, last, rfl⟩ := ts.eq_nil_or_concat
  · rfl
  · rw [List.concat_eq_append, clipLast_concat]
    simp

/-- All segments as tokens, that of the line end included. -/
def all (t : Segments) : List Token :=
  t.stretches.map (fun (span, scopes) => (⟨span, scopes.names⟩ : Token))

theorem tile_all (h : t.Sound good size) : Span.Tile 0 (t.all.map (·.span)) t.reached := by
  rw [all, List.map_map]
  exact h.tile

/-- The tokens, given the last segment. -/
theorem tokens_concat {init : List Token} {u : Token} (h : t.all = init ++ [u])
    (last : AttributedPath) (size : Nat) :
    t.tokens last size =
      if u.span.start = size then
        clipLast size (if init.isEmpty then [⟨⟨0, size + 1⟩, last.names⟩] else init)
      else init ++ [clip size u] := by
  have htokens : t.tokens last size = clipLast size
      (if (dropLastAt (·.span.start) size t.all).isEmpty then [⟨⟨0, size + 1⟩, last.names⟩]
        else dropLastAt (·.span.start) size t.all) := rfl
  have hdrop : dropLastAt (·.span.start) size (init ++ [u]) =
      if u.span.start = size then init else init ++ [u] := by
    rw [dropLastAt]
    simp
  rw [htokens, h, hdrop]
  split
  · rfl
  · rw [if_neg (by simp), clipLast_concat]

/-- A line that is cut somewhere has a last segment, and the segments before it tile the line up
to where it begins. -/
theorem exists_all_eq_concat (h : t.Sound good size) (hreached : 0 < t.reached) :
    ∃ init u, t.all = init ++ [u] ∧ Span.Tile 0 (init.map (·.span)) u.span.start ∧
      u.span.start < t.reached ∧ u.span.stop = t.reached := by
  have htile := tile_all h
  obtain hnil | ⟨init, u, hall⟩ := t.all.eq_nil_or_concat
  · rw [hnil] at htile
    exact absurd (htile : 0 = t.reached) (Nat.ne_of_lt hreached)
  · rw [List.concat_eq_append] at hall
    rw [hall, List.map_append] at htile
    obtain ⟨hinit, hlt, hstop⟩ := Span.Tile.concat_iff.1 htile
    exact ⟨init, u, hall, hinit, hstop ▸ hlt, hstop⟩

/-- **The tokens of a line that is not empty tile it.** -/
theorem tile_tokens (h : t.Sound good (size + 1)) (hreached : t.reached = size + 1)
    (hsize : size ≠ 0) (last : AttributedPath) :
    Span.Tile 0 ((t.tokens last size).map (·.span)) size := by
  obtain ⟨init, u, hall, hinit, hlt, hstop⟩ := exists_all_eq_concat h (by omega)
  rw [tokens_concat hall]
  split
  · next hstart =>
    -- the line end is a segment by itself, so the one before it ends the line
    rw [hstart] at hinit
    obtain rfl | ⟨init, v, rfl⟩ := init.eq_nil_or_concat
    · exact absurd (hinit : 0 = size).symm hsize
    · rw [List.concat_eq_append, if_neg (by simp), clipLast_concat]
      rw [List.concat_eq_append, List.map_append] at hinit
      obtain ⟨hbefore, hv, rfl⟩ := Span.Tile.concat_iff.1 hinit
      rw [List.map_append, List.map_singleton, span_clip_of_le (Nat.le_refl _)]
      exact Span.Tile.concat_iff.2 ⟨hbefore, hv, rfl⟩
  · rw [List.map_append, List.map_singleton, span_clip_of_le (by omega)]
    exact Span.Tile.concat_iff.2 ⟨hinit, by dsimp only; omega, rfl⟩

/-- **The empty line has one token**, with the scopes that it was left with. -/
theorem tokens_empty (h : t.Sound good 1) (hreached : t.reached = 1) (last : AttributedPath) :
    t.tokens last 0 = [⟨⟨0, 0⟩, last.names⟩] := by
  obtain ⟨init, u, hall, hinit, hlt, -⟩ := exists_all_eq_concat h (by omega)
  have hstart : u.span.start = 0 := by omega
  rw [tokens_concat hall, if_pos hstart]
  cases init with
  | nil => rfl
  | cons v init =>
    rw [hstart] at hinit
    have := hinit.2.2.le
    have := hinit.2.1
    omega

/-- The scopes of every token are the names of good scopes. -/
theorem scopes_of_mem_tokens (h : t.Sound good size) {last : AttributedPath} (hlast : good last)
    {n : Nat} : ∀ u ∈ t.tokens last n, ∃ p, good p ∧ u.scopes = p.names := by
  intro u hu
  have hall : ∀ v ∈ t.all, ∃ p, good p ∧ v.scopes = p.names := by
    intro v hv
    obtain ⟨⟨span, p⟩, hp, rfl⟩ := List.mem_map.1 hv
    exact ⟨p, h.good _ hp, rfl⟩
  have hscopes := List.mem_map_of_mem (f := Token.scopes) hu
  rw [tokens, scopes_clipLast] at hscopes
  obtain ⟨v, hv, hvu⟩ := List.mem_map.1 hscopes
  have hv' : v = ⟨⟨0, n + 1⟩, last.names⟩ ∨ v ∈ t.all := by
    split at hv
    · exact .inl (List.mem_singleton.1 hv)
    · refine .inr ?_
      rw [dropLastAt] at hv
      split at hv
      · exact (List.dropLast_sublist _).mem hv
      · exact hv
  obtain rfl | hv := hv'
  · exact ⟨last, hlast, hvu.symm⟩
  · obtain ⟨p, hp, hvp⟩ := hall v hv
    exact ⟨p, hp, hvu.symm.trans hvp⟩

end Segments

end Highlight
