import Highlight.Highlighter
import Highlight.Proofs.Completing
import Highlight.Proofs.Literal
import Highlight.Proofs.Reading
import Highlight.Proofs.Sorting

/-!
# Which match is taken

At every place of a line the rule on top and the injections that apply are **contenders**: each has
an answer to what it matches next. Of the matches the one that begins first is to be taken. Where
several begin first, an injection with left priority stands before the rule on top, the rule on top
before the other injections, and of two injections that which is listed before the other.

This is not what is computed. An injection only takes the lead over those asked before it by a match
that begins earlier; a match at the very place of the cursor ends the search, so that the rest of
the list is not asked at all; and the rule on top is compared with a single injection. Nothing
better is missed, for two reasons. No match begins before the cursor, so that none of those not
asked could begin earlier. And injections are listed by priority, so that the first that begins
earliest has the best standing of those that do: if it has no left priority, no other has that
begins where it does.

What a contender that was not asked would have answered is told by asking it after the others, as
the engine may answer differently every time.
-/

namespace Highlight

open Grammar
open Selector (Priority)

variable {σ : Type}

/-! ## Injections are listed by priority -/

namespace Grammar

/-- Injections are listed by priority. -/
def ByPriority (injections : List Injection) : Prop :=
  injections.Pairwise fun i j => i.part.priority.rank ≤ j.part.priority.rank

theorem Compile.injections_byPriority (catalog : Catalog) (root : Definition) (step : Step) :
    Ensures (fun _ => True) (injections catalog root step) (fun is _ => ByPriority is)
      (fun _ _ => True) := by
  refine Ensures.trivial.bind fun own => Ensures.trivial.bind fun others =>
    Ensures.pure fun st _ => ?_
  refine (Order.pairwise_sort ⟨?_, ?_⟩).imp fun {i j} hij => ?_
  · simp only [decide_eq_true_eq, decide_eq_false_iff_not]
    intros
    omega
  · simp only [decide_eq_false_iff_not]
    intros
    omega
  · simpa using hij

/-- **A compiled grammar lists its injections by priority.** -/
theorem Ruleset.byPriority_of_ofDefinition {catalog : Catalog} {d : Definition} {rules : Ruleset}
    (h : ofDefinition catalog d = .ok rules) : ByPriority rules.injections := by
  have heverything : Ensures (fun _ => True) (Compile.everything catalog d)
      (fun p _ => ByPriority p.2) (fun _ _ => True) :=
    Ensures.trivial.bind fun id => (Compile.injections_byPriority catalog d _).bind fun is =>
      Ensures.pure fun _ his => his
  rw [ofDefinition_eq] at h
  split at h
  · next id injections st hrun =>
    obtain rfl := Except.ok.inj h
    exact heverything.ok True.intro hrun
  · simp at h

end Grammar

/-- **An engine searches forward**: no match that it finds begins before the search does. -/
def Engine.SearchesForward (e : Engine σ) : Prop :=
  ∀ text start f, e.Finds text start f → start ≤ f.captures.whole?.elim 0 (·.start)

theorem Engine.InRange.searchesForward {e : Engine σ} (h : e.InRange) : e.SearchesForward :=
  fun text start f hf => (h text start f hf).le_start

namespace LineReader

/-! ## Contenders -/

/-- **A contender** for the next match: where it stands, and its answer when asked. -/
structure Contender where
  /-- Before the rule on top, which has the rank 1, or behind it. -/
  rank : Nat
  /-- The place in the list of injections. -/
  place : Nat
  /-- What it matches next, if its patterns are not refused. -/
  answer : Except LineError (Option RuleMatch)

/-- The rank of an injection: before the rule on top with left priority, else behind it. -/
def rankOf (p : Priority) : Nat := if p = .left then 0 else 2

theorem rankOf_mono {p q : Priority} (h : p.rank ≤ q.rank) : rankOf p ≤ rankOf q := by
  cases p <;> cases q <;> simp_all [rankOf, Priority.rank]

/-- The answer of a rule, and the reading after that. -/
def ask (r : LineReader σ) (text : String) (c : Cursor) (id : RuleId) (closing : Option String)
    (t : Reading σ) : Except LineError (Option RuleMatch) × Reading σ :=
  match (r.matchInside text c id closing).run t with
  | .ok m t' => (.ok m, t')
  | .error e t' => (.error e, t')

/-- The injections that apply, from a place of their list on, asked one after another. -/
def contendersFrom (r : LineReader σ) (text : String) (c : Cursor) (scopes : List String) :
    Nat → List Injection → Reading σ → List Contender
  | _, [], _ => []
  | n, i :: rest, t =>
    if i.part.matcher.selects scopes then
      ⟨rankOf i.part.priority, n, (r.ask text c i.rule none t).1⟩ ::
        contendersFrom r text c scopes (n + 1) rest (r.ask text c i.rule none t).2
    else contendersFrom r text c scopes (n + 1) rest t

/-- **The contenders at a place**: the rule on top, and all injections whose selector selects the
scopes there. -/
def contenders (r : LineReader σ) (text : String) (c : Cursor) (t : Reading σ) :
    List Contender :=
  ⟨1, 0, (r.ask text c c.state.top.rule c.state.top.closing t).1⟩ ::
    r.contendersFrom text c c.state.top.contentScopes.names 0 r.rules.injections
      (r.ask text c c.state.top.rule c.state.top.closing t).2

namespace Contender

/-- The match of a contender **comes before that of another**, or is the same: it begins first, or
the contender stands before the other. -/
def Precedes (x : Contender) (m : RuleMatch) (y : Contender) (m' : RuleMatch) : Prop :=
  m.start < m'.start ∨
    m.start = m'.start ∧ (x.rank < y.rank ∨ x.rank = y.rank ∧ x.place ≤ y.place)

/-- **A contender wins with a match** if that comes before the match of any contender. -/
structure Wins (x : Contender) (m : RuleMatch) (all : List Contender) : Prop where
  /-- It is one of the contenders. -/
  mem : x ∈ all
  /-- The match is its answer. -/
  answer : x.answer = .ok (some m)
  /-- No contender has a match that comes before it. -/
  precedes : ∀ y ∈ all, ∀ m', y.answer = .ok (some m') → x.Precedes m y m'

variable {x y : Contender} {m m' : RuleMatch} {all more : List Contender}

theorem Wins.append (h : x.Wins m all)
    (hmore : ∀ y ∈ more, ∀ m', y.answer = .ok (some m') → x.Precedes m y m') :
    x.Wins m (all ++ more) where
  mem := List.mem_append_left more h.mem
  answer := h.answer
  precedes y hy m' hm' := by
    obtain hy | hy := List.mem_append.1 hy
    · exact h.precedes y hy m' hm'
    · exact hmore y hy m' hm'

theorem Precedes.refl (x : Contender) (m : RuleMatch) : x.Precedes m x m :=
  .inr ⟨rfl, .inr ⟨rfl, Nat.le_refl x.place⟩⟩

/-- The first of some contenders wins if its match comes before those of the others. -/
theorem wins_head (hx : x.answer = .ok (some m))
    (hall : ∀ y ∈ all, ∀ m', y.answer = .ok (some m') → x.Precedes m y m') :
    x.Wins m (x :: all) where
  mem := List.mem_cons_self
  answer := hx
  precedes := List.forall_mem_cons.2 ⟨fun m' hm' => by
    obtain rfl : m = m' := by simpa [hx] using hm'
    exact .refl x m, hall⟩

/-- A contender that wins against some wins against one more if its match comes before that of the
new one. -/
theorem Wins.cons (h : x.Wins m all)
    (hy : ∀ m', y.answer = .ok (some m') → x.Precedes m y m') : x.Wins m (y :: all) where
  mem := List.mem_cons_of_mem y h.mem
  answer := h.answer
  precedes := List.forall_mem_cons.2 ⟨hy, h.precedes⟩

end Contender

/-- Whoever has the lead: one of the contenders wins with its match, or all were asked and none has
a match. -/
def Leads (all : List Contender) : Option (Priority × RuleMatch) → Prop
  | none => ∀ x ∈ all, x.answer = .ok none
  | some (p, m) => ∃ x : Contender, x.Wins m all ∧ x.rank = rankOf p

/-! ## Asking -/

variable {r : LineReader σ} {text : String} {c : Cursor}

/-- The cache of a reading is sound. -/
def CacheSound (r : LineReader σ) (t : Reading σ) : Prop :=
  t.searching.cache.Sound r.engine r.rules.table

theorem ask_spec (hengine : r.engine.SearchesForward) (text : String) (c : Cursor) (id : RuleId)
    (closing : Option String) {t : Reading σ} (ht : r.CacheSound t) :
    r.CacheSound (r.ask text c id closing t).2 ∧
      ∀ m, (r.ask text c id closing t).1 = .ok (some m) → c.position ≤ m.start := by
  let K := Kept.ofScopes r (Attribution.keeps_true _) (fun _ => True) (fun _ => trivial)
    (fun _ => trivial)
  have hmatch := K.matchInside_ensures text c id closing
  rw [ask]
  split
  · next m t' hrun =>
    obtain ⟨hsound, hfound⟩ := hmatch.ok ⟨ht, trivial⟩ hrun
    refine ⟨hsound.cache, fun m' hm' => ?_⟩
    obtain ⟨f, hf, -, hcaptures⟩ := hfound m' (Except.ok.inj hm')
    have hforward := hengine text c.position f hf
    rwa [hcaptures] at hforward
  · next e t' hrun => exact ⟨(hmatch.error ⟨ht, trivial⟩ hrun).2.cache, by simp⟩

theorem ask_of_ok {id : RuleId} {closing : Option String} {t t' : Reading σ}
    {m : Option RuleMatch} (h : (r.matchInside text c id closing).run t = .ok m t') :
    r.ask text c id closing t = (.ok m, t') := by
  rw [ask, h]

theorem ask_of_error {id : RuleId} {closing : Option String} {t t' : Reading σ} {e : LineError}
    (h : (r.matchInside text c id closing).run t = .error e t') :
    r.ask text c id closing t = (.error e, t') := by
  rw [ask, h]

/-- Those asked from a place of the list on stand at that place or behind it, have the rank of an
injection from there on, and match nothing before the cursor. -/
theorem contendersFrom_spec (hengine : r.engine.SearchesForward) (scopes : List String)
    (list : List Injection) (n : Nat) {t : Reading σ} (ht : r.CacheSound t) :
    ∀ x ∈ r.contendersFrom text c scopes n list t,
      n ≤ x.place ∧ (∃ i ∈ list, x.rank = rankOf i.part.priority) ∧
        ∀ m, x.answer = .ok (some m) → c.position ≤ m.start := by
  induction list generalizing n t with
  | nil => simp [contendersFrom]
  | cons i list ih =>
    obtain ⟨hasked, hforward⟩ := ask_spec hengine text c i.rule none ht
    have hlater : ∀ {t' : Reading σ}, r.CacheSound t' →
        ∀ x ∈ r.contendersFrom text c scopes (n + 1) list t',
          n ≤ x.place ∧ (∃ j ∈ i :: list, x.rank = rankOf j.part.priority) ∧
            ∀ m, x.answer = .ok (some m) → c.position ≤ m.start := by
      intro t' ht' x hx
      obtain ⟨hplace, ⟨j, hj, hrank⟩, hstart⟩ := ih (n + 1) ht' x hx
      exact ⟨by omega, ⟨j, List.mem_cons_of_mem i hj, hrank⟩, hstart⟩
    rw [contendersFrom]
    split
    · exact List.forall_mem_cons.2
        ⟨⟨Nat.le_refl n, ⟨i, List.mem_cons_self, rfl⟩, hforward⟩, hlater hasked⟩
    · exact hlater ht

/-! ## The lead among the injections -/

variable {all more : List Contender} {best : Option (Priority × RuleMatch)} {x : Contender}

/-- A contender without a match leaves the lead. -/
theorem Leads.concat_none (h : Leads all best) (hx : x.answer = .ok none) :
    Leads (all ++ [x]) best := by
  cases best with
  | none => exact List.forall_mem_append.2 ⟨h, by simpa using hx⟩
  | some b =>
    obtain ⟨w, hw, hrank⟩ := h
    refine ⟨w, hw.append fun y hy m' hm' => ?_, hrank⟩
    rw [List.mem_singleton.1 hy, hx] at hm'
    simp at hm'

/-- A contender that stands behind the others and matches no earlier leaves the lead. -/
theorem Leads.concat_later {m : RuleMatch} (h : Leads all best) (hx : x.answer = .ok (some m))
    (hbehind : ∀ y ∈ all, y.place < x.place ∧ y.rank ≤ x.rank)
    (hbest : best.any (·.2.start ≤ m.start) = true) : Leads (all ++ [x]) best := by
  cases best with
  | none => simp at hbest
  | some b =>
    obtain ⟨w, hw, hrank⟩ := h
    obtain ⟨hplace, hle⟩ := hbehind w hw.mem
    have hstart : b.2.start ≤ m.start := by simpa using hbest
    refine ⟨w, hw.append fun y hy m' hm' => ?_, hrank⟩
    obtain rfl := List.mem_singleton.1 hy
    obtain rfl : m = m' := by simpa [hx] using hm'
    rw [Contender.Precedes]
    omega

/-- A contender that matches earlier than whoever has the lead takes it. -/
theorem Leads.wins_concat {m : RuleMatch} (h : Leads all best) (hx : x.answer = .ok (some m))
    (hbest : ¬ best.any (·.2.start ≤ m.start) = true) : x.Wins m (all ++ [x]) := by
  refine ⟨by simp, hx, fun y hy m' hm' => ?_⟩
  obtain hy | hy := List.mem_append.1 hy
  · cases best with
    | none =>
      rw [h y hy] at hm'
      simp at hm'
    | some b =>
      obtain ⟨w, hw, -⟩ := h
      have hstart : m.start < b.2.start := by simpa using hbest
      have hfirst := hw.precedes y hy m' hm'
      rw [Contender.Precedes] at hfirst ⊢
      omega
  · obtain rfl := List.mem_singleton.1 hy
    obtain rfl : m = m' := by simpa [hx] using hm'
    rw [Contender.Precedes]
    omega

/-- How asking some contenders may end: with whoever leads of them, or where one is refused. -/
def Settles (all : List Contender) :
    EStateM.Result LineError (Reading σ) (Option (Priority × RuleMatch)) → Prop
  | .ok best _ => Leads all best
  | .error e _ => ∃ x ∈ all, x.answer = .error e

/-- **The lead among the injections.** Given who leads of those asked before, which stand before
the rest, asking the rest finds who leads of all. -/
theorem matchInjections_settles (hengine : r.engine.SearchesForward) (text : String)
    (c : Cursor) (scopes : List String) {list : List Injection} (hsorted : ByPriority list)
    {n : Nat}
    (hbefore : ∀ x ∈ all, x.place < n ∧ ∀ i ∈ list, x.rank ≤ rankOf i.part.priority)
    (hbest : Leads all best) {t : Reading σ} (ht : r.CacheSound t) :
    Settles (all ++ r.contendersFrom text c scopes n list t)
      ((r.matchInjections text c scopes list best).run t) := by
  induction list generalizing n all best t with
  | nil =>
    rw [contendersFrom, List.append_nil]
    exact hbest
  | cons i list ih =>
    obtain ⟨hi, hsorted⟩ := List.pairwise_cons.1 hsorted
    have hskip : ∀ x ∈ all, x.place < n + 1 ∧ ∀ j ∈ list, x.rank ≤ rankOf j.part.priority :=
      fun x hx => ⟨Nat.lt_succ_of_lt (hbefore x hx).1,
        (List.forall_mem_cons.1 (hbefore x hx).2).2⟩
    rw [matchInjections, contendersFrom]
    by_cases hselects : i.part.matcher.selects scopes = true
    · rw [if_pos hselects, if_pos hselects]
      obtain ⟨hasked, hforward⟩ := ask_spec hengine text c i.rule none ht
      cases hrun : (r.matchInside text c i.rule none).run t with
      | error e t' =>
        rw [EStateM.run_bind, hrun, ask_of_error hrun]
        exact ⟨_, List.mem_append_right all List.mem_cons_self, rfl⟩
      | ok m t' =>
        rw [ask_of_ok hrun] at hasked hforward ⊢
        rw [EStateM.run_bind, hrun]
        dsimp only at hasked hforward ⊢
        have hbehind : ∀ x ∈ all, x.place < n ∧ x.rank ≤ rankOf i.part.priority :=
          fun x hx => (hbefore x hx).imp_right fun h => h i List.mem_cons_self
        have hbefore : ∀ x ∈ all ++ [⟨rankOf i.part.priority, n, .ok m⟩],
            x.place < n + 1 ∧ ∀ j ∈ list, x.rank ≤ rankOf j.part.priority :=
          List.forall_mem_append.2
            ⟨hskip, by simpa using fun j hj => rankOf_mono (hi j hj)⟩
        rw [List.append_cons]
        cases m with
        | none => exact ih hsorted hbefore (hbest.concat_none rfl) hasked
        | some m =>
          dsimp only
          by_cases hlead : best.any (·.2.start ≤ m.start) = true
          · rw [if_pos hlead]
            exact ih hsorted hbefore (hbest.concat_later rfl hbehind hlead) hasked
          · rw [if_neg hlead]
            have hw : Contender.Wins ⟨rankOf i.part.priority, n, .ok (some m)⟩ m (all ++ [_]) :=
              hbest.wins_concat rfl hlead
            by_cases hstart : m.start = c.position
            -- those that are not asked match no earlier, and stand behind
            · rw [if_pos hstart]
              refine ⟨_, hw.append fun y hy m' hm' => ?_, rfl⟩
              obtain ⟨hplace, ⟨j, hj, hyrank⟩, hforward⟩ :=
                contendersFrom_spec hengine scopes list (n + 1) hasked y hy
              have hle := rankOf_mono (hi j hj)
              have hfrom := hforward m' hm'
              rw [Contender.Precedes, hyrank]
              dsimp only
              omega
            · rw [if_neg hstart]
              have hleads : Leads (all ++ [_]) (some (i.part.priority, m)) := ⟨_, hw, rfl⟩
              exact ih hsorted hbefore hleads hasked
    · rw [if_neg hselects, if_neg hselects]
      exact ih hsorted hskip hbest ht

/-! ## The next match -/

/-- How looking for the next match may end, given the contenders: no one has a match, or someone
wins with the match that is taken, or someone is refused. -/
def Decides (all : List Contender) :
    EStateM.Result LineError (Reading σ) (Option RuleMatch) → Prop
  | .ok none _ => ∀ x ∈ all, x.answer = .ok none
  | .ok (some m) _ => ∃ x : Contender, x.Wins m all
  | .error e _ => ∃ x ∈ all, x.answer = .error e

/-- The preferred of the match of the rule on top and that of whoever leads of the injections wins
against all. -/
theorem decides_preferred {m : Option RuleMatch} {injected : Option (Priority × RuleMatch)}
    (h : Leads all injected) (t : Reading σ) :
    Decides (⟨1, 0, .ok m⟩ :: all) (.ok (preferred m injected) t) := by
  cases injected with
  | none =>
    cases m with
    | none => exact List.forall_mem_cons.2 ⟨rfl, h⟩
    | some m => exact ⟨_, Contender.wins_head rfl fun y hy m' hm' => by simp [h y hy] at hm'⟩
  | some b =>
    obtain ⟨p, i⟩ := b
    obtain ⟨w, hw, hrank⟩ := h
    cases m with
    | none => exact ⟨w, hw.cons fun m' hm' => by simp at hm'⟩
    | some m =>
      rw [preferred]
      by_cases htaken : i.start < m.start ∨ i.start = m.start ∧ p = .left
      · rw [if_pos htaken]
        refine ⟨w, hw.cons fun m' hm' => ?_⟩
        obtain rfl : m = m' := by simpa using hm'
        refine htaken.imp_right fun ⟨hstart, hleft⟩ => ⟨hstart, .inl ?_⟩
        rw [hrank, hleft]
        exact Nat.zero_lt_one
      · rw [if_neg htaken]
        refine ⟨_, Contender.wins_head rfl fun y hy m' hm' => ?_⟩
        have hfirst := hw.precedes y hy m' hm'
        -- an injection that begins where the rule on top does has no left priority
        have hbehind : i.start = m.start → w.rank = 2 := fun hstart => by
          rw [hrank, rankOf, if_neg fun hleft => htaken (.inr ⟨hstart, hleft⟩)]
        rw [Contender.Precedes] at hfirst ⊢
        dsimp only
        omega

theorem nextMatch_decides (hsorted : ByPriority r.rules.injections)
    (hengine : r.engine.SearchesForward) (text : String) (c : Cursor) {t : Reading σ}
    (ht : r.CacheSound t) :
    Decides (r.contenders text c t) ((r.nextMatch text c).run t) := by
  have hasked := (ask_spec hengine text c c.state.top.rule c.state.top.closing ht).1
  rw [nextMatch, contenders, EStateM.run_bind]
  cases hrun : (r.matchInside text c c.state.top.rule c.state.top.closing).run t with
  | error e t' =>
    rw [ask_of_error hrun]
    exact ⟨_, List.mem_cons_self, rfl⟩
  | ok m t' =>
    rw [ask_of_ok hrun] at hasked ⊢
    dsimp only at hasked ⊢
    rw [EStateM.run_bind]
    have hnone : Leads [] none := by simp [Leads]
    have hsettles := matchInjections_settles hengine text c c.state.top.contentScopes.names
      hsorted (n := 0) (by simp) hnone hasked
    cases hinjected : (r.matchInjections text c c.state.top.contentScopes.names
        r.rules.injections none).run t' with
    | error e t'' =>
      rw [hinjected] at hsettles
      obtain ⟨x, hx, hanswer⟩ := hsettles
      exact ⟨x, List.mem_cons_of_mem _ hx, hanswer⟩
    | ok injected t'' =>
      rw [hinjected] at hsettles
      exact decides_preferred hsettles t''

/-- **The match that is taken.** There is none exactly if no contender has one, and otherwise the
contender that has it wins. Looking for it fails only where a contender is refused. -/
theorem nextMatch_wins {catalog : Catalog} {d : Definition}
    (hrules : Ruleset.ofDefinition catalog d = .ok r.rules) (hengine : r.engine.SearchesForward)
    (text : String) (c : Cursor) {t : Reading σ} (ht : r.CacheSound t) :
    ((∃ t', (r.nextMatch text c).run t = .ok none t') ↔
        ∀ x ∈ r.contenders text c t, x.answer = .ok none) ∧
      (∀ m t', (r.nextMatch text c).run t = .ok (some m) t' →
        ∃ x : Contender, x.Wins m (r.contenders text c t)) ∧
      ∀ e t', (r.nextMatch text c).run t = .error e t' →
        ∃ x ∈ r.contenders text c t, x.answer = .error e := by
  have h := nextMatch_decides (Ruleset.byPriority_of_ofDefinition hrules) hengine text c ht
  cases hrun : (r.nextMatch text c).run t with
  | error e t' =>
    rw [hrun] at h
    obtain ⟨x, hx, hanswer⟩ := h
    refine ⟨iff_of_false (by simp) fun hnone => ?_, by simp, fun e' t'' he => ?_⟩
    · simp [hnone x hx] at hanswer
    · obtain ⟨rfl, rfl⟩ := EStateM.Result.error.inj he
      exact ⟨x, hx, hanswer⟩
  | ok m t' =>
    rw [hrun] at h
    cases m with
    | none => exact ⟨iff_of_true ⟨t', rfl⟩ h, by simp, by simp⟩
    | some m =>
      obtain ⟨x, hx⟩ := h
      refine ⟨iff_of_false (by simp) fun hnone => ?_, fun m' t'' hm => ?_, by simp⟩
      · have hanswer := hx.answer
        simp [hnone x hx.mem] at hanswer
      · obtain ⟨hm, -⟩ := EStateM.Result.ok.inj hm
        obtain rfl := Option.some.inj hm
        exact ⟨x, hx⟩

end LineReader

namespace Session

/-- A grammar with injections of two priorities, for texts that begin alike. -/
def prefixed : Definition where
  scopeName := "source"
  patterns := [{ pattern := some "a", name := some "letter" }]
  injections := [
    ("source", { pattern := some "a", name := some "late" }),
    ("L:source", { pattern := some "ab", name := some "early" })]

/-- The highlighter of that grammar, for plain texts. -/
def prefixedHighlighter : Highlighter Unit :=
  .make (Ruleset.orEmpty (Ruleset.ofDefinition {} prefixed)) .standard (.literal Unit) 1 none

/-- All three match where the line begins, and the injection with left priority wins. -/
theorem nextMatch_wins_prefixed :
    Ruleset.ofDefinition {} prefixed = .ok prefixedHighlighter.reader.rules ∧
      (Engine.literal Unit).SearchesForward ∧
      prefixedHighlighter.reader.CacheSound ⟨⟨{}, ()⟩, {}⟩ ∧
      ∃ m t', (prefixedHighlighter.reader.nextMatch "ab\n"
          ⟨prefixedHighlighter.initialState, 0, none, true⟩).run ⟨⟨{}, ()⟩, {}⟩ =
            .ok (some m) t' ∧
        m.captures = [some ⟨0, 2⟩] ∧
        ∃ x : LineReader.Contender, x.Wins m (prefixedHighlighter.reader.contenders "ab\n"
          ⟨prefixedHighlighter.initialState, 0, none, true⟩ ⟨⟨{}, ()⟩, {}⟩) := by
  have hrules : Ruleset.ofDefinition {} prefixed = .ok prefixedHighlighter.reader.rules :=
    Ruleset.eq_ok_orEmpty (by decide +kernel)
  have hforward : (Engine.literal Unit).SearchesForward :=
    Engine.bounded_literal.inRange.searchesForward
  have hcache : prefixedHighlighter.reader.CacheSound ⟨⟨{}, ()⟩, {}⟩ := ScannerCache.Sound.empty
  have hmatch : (match (prefixedHighlighter.reader.nextMatch "ab\n"
      ⟨prefixedHighlighter.initialState, 0, none, true⟩).run ⟨⟨{}, ()⟩, {}⟩ with
    | .ok m _ => m.map (·.captures)
    | .error .. => none) = some [some ⟨0, 2⟩] := by
    decide +kernel
  split at hmatch
  · next m t' hrun =>
    obtain ⟨m, rfl, hm⟩ := Option.map_eq_some_iff.1 hmatch
    exact ⟨hrules, hforward, hcache, m, t', hrun, hm,
      (LineReader.nextMatch_wins hrules hforward "ab\n" _ hcache).2.1 m t' hrun⟩
  · simp at hmatch

end Session

end Highlight
