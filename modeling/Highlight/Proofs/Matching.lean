import Highlight.Proofs.Scanning
import Highlight.Scanner.Regex

/-!
# What matches stays in the text

A pattern is matched from a place of a text. It may look ahead and behind, be matched again at the
same place, and refer to what a group has matched before. Whatever it does, it only goes where a
character ends, or back, and so the place reached and the ends of all groups lie in the text.

Nothing is said of the order of these ends. A group that looks behind is matched from a place
further back, and whether it ends where it was told to look from depends on how much was said to be
matched there.
-/

namespace Highlight

variable {σ : Type}

namespace Regex

namespace Progress

/-- **Progress stays in a text** of a size: the place reached lies in it, and so do the ends of what
groups have matched. -/
structure Within (size : Nat) (p : Progress) : Prop where
  /-- The place reached. -/
  place : p.place ≤ size
  /-- The groups. -/
  marks : ∀ m ∈ p.marks, (∀ n ∈ m.start, n ≤ size) ∧ ∀ n ∈ m.stop, n ≤ size

variable {size : Nat} {p : Progress}

theorem Within.mem_modify {f : Mark → Mark} {group : Nat} (h : p.Within size)
    (hf : ∀ m, ((∀ n ∈ m.start, n ≤ size) ∧ ∀ n ∈ m.stop, n ≤ size) →
      (∀ n ∈ (f m).start, n ≤ size) ∧ ∀ n ∈ (f m).stop, n ≤ size) :
    ({ p with marks := p.marks.modify group f } : Progress).Within size := by
  refine ⟨h.place, fun m hm => ?_⟩
  obtain ⟨i, hi, rfl⟩ := Array.mem_iff_getElem.1 hm
  rw [Array.getElem_modify]
  split
  · exact hf _ (h.marks _ (Array.getElem_mem _))
  · exact h.marks _ (Array.getElem_mem _)

theorem Within.enter (h : p.Within size) (group : Nat) : (p.enter group).Within size :=
  h.mem_modify fun _ hm => ⟨fun _ hn => Option.some.inj hn ▸ h.place, hm.2⟩

theorem Within.leave (h : p.Within size) (group : Nat) : (p.leave group).Within size :=
  h.mem_modify fun _ hm => ⟨hm.1, fun _ hn => Option.some.inj hn ▸ h.place⟩

theorem Within.move (h : p.Within size) {place : Nat} (hplace : place ≤ size) :
    ({ p with place := place } : Progress).Within size := ⟨hplace, h.marks⟩

end Progress

namespace Subject

variable {s : Subject}

theorem add_size_le_of_letterAt? {limit i : Nat} {l : Letter} (h : s.letterAt? limit i = some l) :
    i + l.size ≤ limit := by
  unfold letterAt? at h
  split at h
  · simp at h
  · obtain ⟨hlimit, hl⟩ := Option.ite_none_right_eq_some.1 h
    exact Option.some.inj hl ▸ hlimit

theorem after?_le {limit : Nat} (hlimit : limit ≤ s.size) {cs : List Char} {i j : Nat}
    (hi : i ≤ s.size) (h : s.after? limit cs i = some j) : j ≤ s.size := by
  induction cs generalizing i with
  | nil => exact Option.some.inj h ▸ hi
  | cons c cs ih =>
    rw [after?] at h
    split at h
    · next hletter => exact ih (Nat.le_trans (add_size_le_of_letterAt? hletter) hlimit) h
    · simp at h

theorem beginning_le (s : Subject) (i : Nat) : s.beginning i ≤ i := by
  induction i with
  | zero => exact Nat.le_refl _
  | succ i ih =>
    rw [beginning]
    split
    · exact Nat.le_succ_of_le ih
    · exact Nat.le_refl _

theorem previous_le (s : Subject) (i : Nat) : s.previous i ≤ i :=
  Nat.le_trans (s.beginning_le _) (Nat.sub_le i 1)

theorem back?_le {n i j : Nat} (h : s.back? n i = some j) : j ≤ i := by
  induction n generalizing i with
  | zero => exact Nat.le_of_eq (Option.some.inj h).symm
  | succ n ih =>
    rw [back?] at h
    split at h
    · simp at h
    · exact Nat.le_trans (ih h) (s.previous_le i)

/-- What is found looking back is found at some place that is no further on. -/
theorem exists_of_findBack? {α : Type} {f : Nat → Option α} {n i : Nat} {a : α}
    (h : s.findBack? f n i = some a) : ∃ j ≤ i, f j = some a := by
  induction n generalizing i with
  | zero => exact ⟨i, Nat.le_refl _, h⟩
  | succ n ih =>
    obtain hhere | ⟨-, hback⟩ := Option.or_eq_some_iff.1 h
    · exact ⟨i, Nat.le_refl _, hhere⟩
    · split at hback
      · simp at hback
      · obtain ⟨j, hj, hfound⟩ := ih hback
        exact ⟨j, Nat.le_trans hj (s.previous_le i), hfound⟩

theorem afterAnyCase?_le {last b most a i j : Nat} (hi : i ≤ s.size)
    (h : s.afterAnyCase? last b most a i = some j) : j ≤ s.size := by
  induction most generalizing a i with
  | zero => exact Option.some.inj h ▸ hi
  | succ most ih =>
    rw [afterAnyCase?] at h
    split at h
    · exact Option.some.inj h ▸ hi
    · split at h
      · next hletter =>
        split at h
        · split at h
          · exact ih (add_size_le_of_letterAt? hletter) h
          · simp at h
        · simp at h
      · simp at h

end Subject

theorem afterBack?_le {s : Subject} {limit : Nat} (hlimit : limit ≤ s.size) {anyCase : Bool}
    {p : Progress} (hp : p.place ≤ s.size) {groups : List Nat} {place : Nat}
    (h : afterBack? s limit anyCase p groups = some place) : place ≤ s.size := by
  induction groups with
  | nil => simp [afterBack?] at h
  | cons g gs ih =>
    rw [afterBack?] at h
    split at h
    · exact ih h
    · split at h
      · exact Option.some.inj h ▸ hp
      · dsimp only at h
        split at h
        · simp at h
        · obtain h | ⟨-, h⟩ := Option.or_eq_some_iff.1 h
          · split at h
            · exact Subject.afterAnyCase?_le hp h
            · split at h
              · obtain rfl := Option.some.inj h
                omega
              · simp at h
          · exact ih h

/-- What comes after a pattern stays in a text of a size. -/
def After.Stays (size : Nat) (k : After) : Prop :=
  ∀ p q, p.Within size → k p = some q → q.Within size

theorem oneLetter_within {s : Subject} {limit : Nat} (hlimit : limit ≤ s.size) {p q : Progress}
    {k : After} (hk : k.Stays s.size) (hp : p.Within s.size) {ok : Letter → Bool}
    (h : oneLetter s limit p k ok = some q) : q.Within s.size := by
  unfold oneLetter at h
  split at h
  · next hletter =>
    split at h
    · exact hk _ _ (hp.move (Nat.le_trans (Subject.add_size_le_of_letterAt? hletter) hlimit)) h
    · simp at h
  · simp at h

/-- Of two ways to go on, one is taken. -/
theorem within_of_either {size : Nat} {a b : Option Progress} {greedy : Bool} {q : Progress}
    (ha : ∀ q, a = some q → q.Within size) (hb : ∀ q, b = some q → q.Within size)
    (h : (if greedy then a.or b else b.or a) = some q) : q.Within size := by
  split at h
  · exact (Option.or_eq_some_iff.1 h).elim (ha q) fun h => hb q h.2
  · exact (Option.or_eq_some_iff.1 h).elim (hb q) fun h => ha q h.2

/-- **A match stays in the text**, if what comes after it does. -/
theorem run_within (s : Subject) {n : Nat} {limit : Nat} (hlimit : limit ≤ s.size) {node : Node}
    {p q : Progress} (hn : remaining s node p.place = n) {k : After} (hk : k.Stays s.size)
    (hp : p.Within s.size) (h : run s limit node p k = some q) : q.Within s.size := by
  induction n using Nat.strongRecOn generalizing limit node p k q with
  | ind n ih =>
    subst hn
    have hsome : After.Stays s.size some := fun p q hp h => Option.some.inj h ▸ hp
    -- a part of the pattern, or the loop with fewer rounds, wherever it is matched
    have hpart : ∀ {m : Node}, m.weight < node.weight → m.spareBound ≤ node.spareBound →
        ∀ {limit}, limit ≤ s.size → ∀ {k : After}, k.Stays s.size →
          After.Stays s.size (run s limit m · k) :=
      fun hweight hbound _ hlimit _ hk _ _ hp h =>
        ih _ (remaining_lt_of_weight hweight hbound) hlimit rfl hk hp h
    cases node with
    | text cs =>
      rw [run] at h
      split at h
      · next hafter => exact hk _ _ (hp.move (Subject.after?_le hlimit hp.place hafter)) h
      · simp at h
    | any lineEnds =>
      rw [run] at h
      exact oneLetter_within hlimit hk hp h
    | set cs =>
      rw [run] at h
      exact oneLetter_within hlimit hk hp h
    | place at_ =>
      rw [run] at h
      split at h
      · exact hk _ _ hp h
      · simp at h
    | never => simp [run] at h
    | seq a b =>
      rw [run] at h
      have hb := hpart (m := b) (by simp only [Node.weight]; omega)
        (by simp only [Node.spareBound]; omega) hlimit hk
      exact hpart (m := a) (by simp only [Node.weight]; omega)
        (by simp only [Node.spareBound]; omega) hlimit hb _ _ hp h
    | alt a b =>
      rw [run] at h
      obtain h | ⟨-, h⟩ := Option.or_eq_some_iff.1 h
      · exact hpart (by simp only [Node.weight]; omega) (by simp only [Node.spareBound]; omega)
          hlimit hk _ _ hp h
      · exact hpart (by simp only [Node.weight]; omega) (by simp only [Node.spareBound]; omega)
          hlimit hk _ _ hp h
    | group index body =>
      rw [run] at h
      exact hpart (Nat.lt_succ_self _) (Nat.le_refl _) hlimit
        (fun p q hp h => hk _ _ (hp.leave index) h) _ _ (hp.enter index) h
    | atomic body =>
      rw [run] at h
      split at h
      · next hbody =>
        exact hk _ _ (hpart (Nat.lt_succ_self _) (Nat.le_refl _) hlimit hsome _ _ hp hbody) h
      · simp at h
    | ahead body negated =>
      rw [run] at h
      split at h
      · next hbody =>
        have hq := hpart (Nat.lt_succ_self _) (Nat.le_refl _) hlimit hsome _ _ hp hbody
        split at h
        · simp at h
        · exact hk _ _ (hq.move hp.place) h
      · split at h
        · exact hk _ _ hp h
        · simp at h
    | behind body least most negated =>
      rw [run] at h
      dsimp only at h
      split at h
      · next q' hfound =>
        split at h
        · simp at h
        · refine hk _ _ ?_ h
          split at hfound
          · simp at hfound
          · next nearest hback =>
            have hnearest := Nat.le_trans (Subject.back?_le hback) hp.place
            split at hfound
            · exact hpart (Nat.lt_succ_self _) (Nat.le_refl _) hlimit hsome _ _
                (hp.move hnearest) hfound
            · obtain ⟨j, hj, hfound⟩ := Subject.exists_of_findBack? hfound
              refine hpart (Nat.lt_succ_self _) (Nat.le_refl _) hp.place (fun p' q' hp' h => ?_) _ _
                (hp.move (Nat.le_trans hj hnearest)) hfound
              split at h
              · exact Option.some.inj h ▸ hp'
              · simp at h
      · split at h
        · exact hk _ _ hp h
        · simp at h
    | back groups anyCase =>
      rw [run] at h
      split at h
      · next hafter => exact hk _ _ (hp.move (afterBack?_le hlimit hp.place hafter)) h
      · simp at h
    | loop body least most greedy guard =>
      -- a round of the loop, and what comes after it
      have hround : ∀ {again : After}, again.Stays s.size →
          ∀ q, run s limit body p again = some q → q.Within s.size := fun hagain q h =>
        hpart (by simp only [Node.weight]; omega) (Nat.le_max_left _ _) hlimit hagain _ _ hp h
      cases least with
      | succ least =>
        rw [run] at h
        refine hround (fun q q' hq h => ?_) _ h
        split at h
        · have hweight := getD_map_pred_le most
          exact hpart (m := .loop body least (most.map (· - 1)) greedy guard)
            (by simp only [Node.weight]; omega) (Nat.le_refl _) hlimit hk _ _ hq h
        · exact hk _ _ hq h
        · simp at h
      | zero =>
        cases most with
        | some most =>
          cases most with
          | zero =>
            rw [run] at h
            exact hk _ _ hp h
          | succ most =>
            rw [run] at h
            refine within_of_either (hround fun q q' hq h => ?_) (fun q h => hk _ _ hp h) h
            split at h
            · exact hpart (m := .loop body 0 (some most) greedy guard)
                (by simp only [Node.weight, Option.getD_some]; omega) (Nat.le_refl _) hlimit hk _ _
                hq h
            · exact hk _ _ hq h
            · simp at h
        | none =>
          cases guard with
          | none =>
            rw [run] at h
            refine within_of_either (hround fun q q' hq h => ?_) (fun q h => hk _ _ hp h) h
            split at h
            · exact ih _ (remaining_lt_of_lt (by omega) (Nat.le_refl _)) hlimit rfl hk hq h
            · exact hk _ _ hq h
          | some guard =>
            obtain ⟨watched, spare⟩ := guard
            rw [run] at h
            refine within_of_either (hround fun q q' hq h => ?_) (fun q h => hk _ _ hp h) h
            split at h
            · exact ih _ (remaining_lt_of_lt (by simp only [Node.weight]; omega)
                (by simp only [Node.spareBound, Guard.watching, Option.elim_some]; omega)) hlimit
                rfl hk hq h
            · split at h
              · split at h
                · next hplace =>
                  refine ih _ ?_ hlimit rfl hk hq h
                  rw [hplace]
                  exact remaining_lt_of_spare _ rfl
                    (by simp only [Node.spareBound, Option.elim_some]; omega) (Nat.lt_succ_self _)
                · exact hk _ _ hq h
              · simp at h
              · exact hk _ _ hq h

/-- What matches at a place of a text begins and ends in the text, and so do its groups. -/
theorem Expression.matchAt?_le {r : Expression} {s : Subject} {place : Nat}
    (hplace : place ≤ s.size) {groups : Array (Option (Nat × Nat))}
    (h : r.matchAt? s place = some groups) :
    ∀ g, some g ∈ groups → g.1 ≤ s.size ∧ g.2 ≤ s.size := by
  obtain ⟨p, hrun, rfl⟩ := Option.map_eq_some_iff.1 h
  have hstart : (⟨place, Array.replicate (r.groups + 1) {}⟩ : Progress).Within s.size := by
    refine ⟨hplace, fun m hm => ?_⟩
    obtain ⟨-, rfl⟩ := Array.mem_replicate.1 hm
    simp
  have hp := run_within s (Nat.le_refl _) rfl (fun p q hp h => Option.some.inj h ▸ hp) hstart hrun
  intro g hg
  obtain hg | hg := Array.mem_or_eq_of_mem_setIfInBounds hg
  · obtain ⟨m, hm, hspan⟩ := Array.mem_map.1 hg
    obtain ⟨a, ha, hb⟩ := Option.bind_eq_some_iff.1 hspan
    obtain ⟨b, hstop, rfl⟩ := Option.map_eq_some_iff.1 hb
    exact ⟨(hp.marks m hm).1 a ha, (hp.marks m hm).2 b hstop⟩
  · obtain rfl := Option.some.inj hg
    exact ⟨hplace, hp.place⟩

theorem firstAt?_le {s : Subject} {place : Nat} (hplace : place ≤ s.size)
    {rs : List (Nat × Expression)} {index : Nat} {groups : Array (Option (Nat × Nat))}
    (h : firstAt? s place rs = some (index, groups)) :
    ∀ g, some g ∈ groups → g.1 ≤ s.size ∧ g.2 ≤ s.size := by
  induction rs with
  | nil => simp [firstAt?] at h
  | cons r rs ih =>
    rw [firstAt?] at h
    split at h
    · next hmatch =>
      obtain ⟨rfl, rfl⟩ := Prod.mk.inj (Option.some.inj h)
      exact Expression.matchAt?_le hplace (Option.ite_none_right_eq_some.1 hmatch).2
    · exact ih h

theorem firstFrom?_le {s : Subject} {rs : List (Nat × Expression)} {place places : Nat}
    {index : Nat} {groups : Array (Option (Nat × Nat))}
    (h : firstFrom? s rs place places = some (index, groups)) :
    ∀ g, some g ∈ groups → g.1 ≤ s.size ∧ g.2 ≤ s.size := by
  induction places generalizing place with
  | zero => simp [firstFrom?] at h
  | succ places ih =>
    rw [firstFrom?] at h
    split at h
    · simp at h
    · next hplace =>
      split at h
      · next hfound =>
        obtain rfl := Option.some.inj h
        exact firstAt?_le (Nat.le_of_not_lt hplace) hfound
      · exact ih h

end Regex

namespace Engine

/-- **Groups end in the text**: all groups of what an engine finds begin and end in it. -/
def GroupsEndInText (e : Engine σ) : Prop :=
  ∀ text start f, e.Finds text start f → ∀ s, some s ∈ f.captures →
    s.start ≤ text.utf8ByteSize ∧ s.stop ≤ text.utf8ByteSize

/-- **Groups of regular expressions end in the text.** -/
theorem groupsEndInText_regex : (Engine.regex σ).GroupsEndInText := by
  rintro text start f ⟨scanner, ⟨patterns, _, _, hmade⟩, _, _, hfound⟩ s hs
  obtain ⟨rs, hrs⟩ : ∃ rs, scanner.find = fun text start => pure (Regex.search rs text start) := by
    have hmade := (Prod.mk.inj hmade).1
    split at hmade
    · exact ⟨_, (congrArg Scanner.find (Except.ok.inj hmade)).symm⟩
    · simp at hmade
  rw [hrs] at hfound
  have hsearch : Regex.search rs text start = some f := (Prod.mk.inj hfound).1
  obtain ⟨⟨index, groups⟩, hfirst, rfl⟩ := Option.map_eq_some_iff.1 hsearch
  obtain ⟨g, hg, hspan⟩ := List.mem_map.1 hs
  obtain ⟨⟨a, b⟩, rfl, rfl⟩ := Option.map_eq_some_iff.1 hspan
  exact Regex.firstFrom?_le hfirst (a, b) (Array.mem_toList_iff.1 hg)

end Engine

end Highlight
