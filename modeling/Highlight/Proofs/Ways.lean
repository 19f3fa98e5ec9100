import Highlight.Proofs.Completing
import Highlight.Proofs.Progress
import Highlight.Proofs.References
import Mathlib.Logic.Relation

/-!
# Ways down to the patterns of a rule

What is looked for inside a rule is gathered by going down through the rules that only hold others.
These may hold each other in circles, and a rule that turns up inside itself is left out there. One
may fear that something is lost with it that could be reached through it only.

Nothing is. A **way** goes down from rule to rule, by the places at which they stand in each other,
to a rule that has a pattern, and comes through no rule twice. If a rule is reached at all, it is
reached by a way: of each rule that is come through, what counts is where it is left for the last
time. The patterns that are gathered are those at the ends of the ways, in the order of the places,
where the places further up count more. That is the order in which rules are written, each with all
that it holds.

A way comes through no more rules than there are. So the bound on the depth is never met, and going
down comes to an end without it.
-/

namespace Highlight.Grammar

/-- The pattern that a rule is entered by. -/
def RuleBody.opening? : RuleBody → Option Pattern
  | .single matched => some matched.pattern
  | .region opening _ _ _ | .block opening _ _ => some opening.pattern
  | .choice _ | .capture _ => none

/-- The rules that a rule holds which only holds others. -/
def RuleBody.held : RuleBody → List RuleId
  | .choice inside => inside.rules
  | .single _ | .region _ _ _ _ | .block _ _ _ | .capture _ => []

namespace RuleTable

/-- The pattern that the rule of a number is entered by. -/
def opening? (t : RuleTable) (id : RuleId) : Option Pattern := (t.body? id).bind RuleBody.opening?

/-- The rules that the rule of a number holds if it only holds others. -/
def held (t : RuleTable) (id : RuleId) : List RuleId := (t.body? id).elim [] RuleBody.held

/-- **A way down** from a rule to one that has a pattern. It comes through rules that only hold
others, by the places of the next rule in each, and through none that is around already. -/
inductive Way (t : RuleTable) : (around : List RuleId) → RuleId → List Nat → RuleId → Prop
  /-- The rule has a pattern itself. -/
  | here {around : List RuleId} {id : RuleId} : (t.opening? id).isSome → Way t around id [] id
  /-- The way goes on inside. -/
  | into {around : List RuleId} {id inner r : RuleId} {n : Nat} {places : List Nat} :
      id ∉ around → (t.held id)[n]? = some inner → Way t (id :: around) inner places r →
      Way t around id (n :: places) r

/-- **A rule is reached** from another one through rules that only hold others. -/
def LeadsDown (t : RuleTable) : RuleId → RuleId → Prop :=
  Relation.ReflTransGen (fun outer inner => inner ∈ t.held outer)

variable {t : RuleTable} {depth : Nat} {around : List RuleId} {id inner r : RuleId}
  {places : List Nat}

/-- A way leads down to a rule with a pattern. -/
theorem Way.leadsDown (h : t.Way around id places r) :
    t.LeadsDown id r ∧ (t.opening? r).isSome := by
  induction h with
  | here hopening => exact ⟨.refl, hopening⟩
  | into _ hinner _ ih => exact ⟨.head (List.mem_of_getElem? hinner) ih.1, ih.2⟩

theorem exists_body_of_mem_held (h : inner ∈ t.held id) : ∃ body, t.body? id = some body := by
  cases hbody : t.body? id with
  | none => simp [held, hbody] at h
  | some body => exact ⟨body, rfl⟩

/-- A rule that has a pattern does not only hold others. -/
theorem held_of_opening? (h : (t.opening? id).isSome) : t.held id = [] := by
  cases hbody : t.body? id with
  | none => simp [opening?, hbody] at h
  | some body =>
    cases body with
    | choice inside => simp [opening?, hbody, RuleBody.opening?] at h
    | _ => simp [held, hbody, RuleBody.held]

/-- What a rule can be entered by: its own pattern, or those of the rules that it only holds. -/
theorem entries_succ (t : RuleTable) (depth : Nat) (around : List RuleId) (id : RuleId) :
    t.entries (depth + 1) around id = (t.opening? id).toList ++
      if id ∈ around then [] else (t.held id).flatMap (t.entries depth (id :: around)) := by
  rw [entries, opening?, held]
  cases t.body? id with
  | none => simp
  | some body =>
    cases body with
    | choice inside => simp [RuleBody.opening?, RuleBody.held]
    | _ => simp [RuleBody.opening?, RuleBody.held]

/-! ## Room to go down -/

/-- **There is room to go down**: the rules around are different rules of the table, and the depth
that is left exceeds the number of the other rules. -/
structure Room (t : RuleTable) (depth : Nat) (around : List RuleId) : Prop where
  /-- No rule is around twice. -/
  nodup : around.Nodup
  /-- The rules around are in the table. -/
  known : ∀ id ∈ around, ∃ body, t.body? id = some body
  /-- There is depth for all others. -/
  deep : t.size < around.length + depth

namespace Room

theorem top (h : t.size < depth) : t.Room depth [] :=
  ⟨List.nodup_nil, fun _ h => absurd h List.not_mem_nil, by simpa using h⟩

theorem length_le (h : t.Room depth around) : around.length ≤ t.size := by
  have hsubset : around ⊆ (List.range t.size).map (fun n => ⟨n + 1⟩) := by
    intro id hid
    obtain ⟨body, hbody⟩ := h.known id hid
    obtain ⟨rule, hrule, -⟩ := Option.map_eq_some_iff.1 hbody
    obtain ⟨n, rfl, hn⟩ := exists_place hrule
    exact List.mem_map.2 ⟨n, List.mem_range.2 hn, rfl⟩
  simpa using (List.subperm_of_subset h.nodup hsubset).length_le

theorem pos (h : t.Room depth around) : 0 < depth := by
  have := h.length_le
  have := h.deep
  omega

/-- There is room inside a rule that is not around. -/
theorem into (h : t.Room (depth + 1) around) (hnew : id ∉ around) (hinner : inner ∈ t.held id) :
    t.Room depth (id :: around) where
  nodup := List.nodup_cons.2 ⟨hnew, h.nodup⟩
  known := List.forall_mem_cons.2 ⟨exists_body_of_mem_held hinner, h.known⟩
  deep := by
    have := h.deep
    rw [List.length_cons]
    omega

end Room

/-- Where there is room to go down, the depth does not matter. -/
theorem entries_congr {depth' : Nat} (h : t.Room depth around) (h' : t.Room depth' around) :
    t.entries depth around id = t.entries depth' around id := by
  induction depth generalizing depth' around id with
  | zero => exact absurd h.pos (Nat.lt_irrefl 0)
  | succ depth ih =>
    obtain ⟨depth', rfl⟩ := Nat.exists_eq_succ_of_ne_zero h'.pos.ne'
    rw [entries_succ, entries_succ]
    split
    · rfl
    · next hnew =>
      rw [List.flatMap_congr fun inner hinner => ih (h.into hnew hinner) (h'.into hnew hinner)]

/-! ## All ways -/

/-- The ways through the rules of a list, by their places from a number on. -/
def branches (below : RuleId → List (List Nat × RuleId)) :
    Nat → List RuleId → List (List Nat × RuleId)
  | _, [] => []
  | n, inner :: more =>
    (below inner).map (fun way => (n :: way.1, way.2)) ++ branches below (n + 1) more

/-- **All ways down** from a rule, in order. -/
def ways (t : RuleTable) : (depth : Nat) → (around : List RuleId) → RuleId →
    List (List Nat × RuleId)
  | 0, _, _ => []
  | depth + 1, around, id =>
    (if (t.opening? id).isSome then [([], id)] else []) ++
      if id ∈ around then [] else branches (t.ways depth (id :: around)) 0 (t.held id)

variable {below : RuleId → List (List Nat × RuleId)} {rules : List RuleId} {n : Nat}

theorem mem_branches_iff : (places, r) ∈ branches below n rules ↔
    ∃ (k : Nat) (inner : RuleId) (rest : List Nat), rules[k]? = some inner ∧
      places = (n + k) :: rest ∧ (rest, r) ∈ below inner := by
  induction rules generalizing n with
  | nil => simp [branches]
  | cons inner more ih =>
    rw [branches, List.mem_append, ih]
    constructor
    · rintro (h | ⟨k, inner', rest, hk, rfl, hrest⟩)
      · obtain ⟨way, hway, heq⟩ := List.mem_map.1 h
        obtain ⟨rfl, rfl⟩ := Prod.mk.inj heq
        exact ⟨0, inner, way.1, rfl, rfl, hway⟩
      · exact ⟨k + 1, inner', rest, hk, by rw [Nat.add_assoc, Nat.add_comm 1], hrest⟩
    · rintro ⟨k, inner', rest, hk, rfl, hrest⟩
      cases k with
      | zero =>
        obtain rfl := Option.some.inj hk
        exact .inl (List.mem_map.2 ⟨(rest, r), hrest, rfl⟩)
      | succ k => exact .inr ⟨k, inner', rest, hk, by rw [Nat.add_assoc, Nat.add_comm 1], hrest⟩

/-- Ways through the rules of a list are in order if those of each rule are. -/
theorem pairwise_branches (h : ∀ inner ∈ rules, ((below inner).map (·.1)).Pairwise (· < ·)) :
    ((branches below n rules).map (·.1)).Pairwise (· < ·) := by
  induction rules generalizing n with
  | nil => exact List.Pairwise.nil
  | cons inner more ih =>
    rw [branches, List.map_append, List.map_map]
    refine List.pairwise_append.2 ⟨?_, ih fun other hother => h other (.tail _ hother), ?_⟩
    · have hinner := h inner List.mem_cons_self
      rw [List.pairwise_map] at hinner ⊢
      exact hinner.imp fun hlt => List.cons_lt_cons_iff.2 (.inr ⟨rfl, hlt⟩)
    · intro places hplaces places' hplaces'
      obtain ⟨way, -, rfl⟩ := List.mem_map.1 hplaces
      obtain ⟨⟨_, r⟩, hway', rfl⟩ := List.mem_map.1 hplaces'
      obtain ⟨k, -, rest, -, rfl, -⟩ := mem_branches_iff.1 hway'
      exact List.cons_lt_cons_iff.2 (.inl (by omega))

/-- The ends of the ways through the rules of a list are those of the ways of each rule. -/
theorem map_branches {α : Type} (g : RuleId → α) :
    (branches below n rules).map (fun way => g way.2) =
      rules.flatMap (fun inner => (below inner).map (fun way => g way.2)) := by
  induction rules generalizing n with
  | nil => rfl
  | cons inner more ih =>
    rw [branches, List.map_append, List.map_map, ih, List.flatMap_cons]
    rfl

/-- The list of ways has all ways and no others. -/
theorem mem_ways_iff (h : t.Room depth around) :
    (places, r) ∈ t.ways depth around id ↔ t.Way around id places r := by
  induction depth generalizing around id places with
  | zero => exact absurd h.pos (Nat.lt_irrefl 0)
  | succ depth ih =>
    rw [ways, List.mem_append]
    constructor
    · rintro (hhere | hinto)
      · split at hhere
        · next hopening =>
          obtain ⟨rfl, rfl⟩ := Prod.mk.inj (List.mem_singleton.1 hhere)
          exact .here hopening
        · exact absurd hhere List.not_mem_nil
      · split at hinto
        · exact absurd hinto List.not_mem_nil
        · next hnew =>
          obtain ⟨k, inner, rest, hinner, rfl, hrest⟩ := mem_branches_iff.1 hinto
          rw [Nat.zero_add]
          exact .into hnew hinner ((ih (h.into hnew (List.mem_of_getElem? hinner))).1 hrest)
    · intro hway
      cases hway with
      | here hopening => exact .inl (by simp [hopening])
      | @into _ _ inner _ n rest hnew hinner hrest =>
        refine .inr ?_
        rw [if_neg hnew]
        refine mem_branches_iff.2 ⟨n, inner, rest, hinner, by rw [Nat.zero_add], ?_⟩
        exact (ih (h.into hnew (List.mem_of_getElem? hinner))).2 hrest

theorem pairwise_ways (t : RuleTable) (depth : Nat) (around : List RuleId) (id : RuleId) :
    ((t.ways depth around id).map (·.1)).Pairwise (· < ·) := by
  induction depth generalizing around id with
  | zero => exact List.Pairwise.nil
  | succ depth ih =>
    rw [ways]
    by_cases hopening : (t.opening? id).isSome
    · -- a rule with a pattern holds nothing besides
      simp [hopening, held_of_opening? hopening, branches]
    · rw [if_neg hopening, List.nil_append]
      split
      · exact List.Pairwise.nil
      · exact pairwise_branches fun inner _ => ih (id :: around) inner

/-- What a rule can be entered by are the patterns at the ends of the ways down. -/
theorem map_some_entries (t : RuleTable) (depth : Nat) (around : List RuleId) (id : RuleId) :
    (t.entries depth around id).map some =
      (t.ways depth around id).map (fun way => t.opening? way.2) := by
  induction depth generalizing around id with
  | zero => rfl
  | succ depth ih =>
    rw [entries_succ, ways, List.map_append, List.map_append]
    congr 1
    · cases hopening : t.opening? id <;> simp [hopening]
    · split
      · rfl
      · rw [map_branches, List.map_flatMap]
        exact List.flatMap_congr fun inner _ => ih (id :: around) inner

/-! ## Nothing is lost -/

/-- **The last time that a rule is left**: what leads on from there does not come by it again. What
leads from a rule to another one without coming by some rules can be so chosen that it does not come
by one more of them, unless it has to begin anew inside that one. -/
theorem leads_past (h : Relation.ReflTransGen
      (fun outer inner => inner ∈ t.held outer ∧ outer ∉ around) inner r) (id : RuleId) :
    Relation.ReflTransGen (fun outer inner => inner ∈ t.held outer ∧ outer ∉ id :: around)
        inner r ∨
      ∃ other ∈ t.held id, Relation.ReflTransGen
        (fun outer inner => inner ∈ t.held outer ∧ outer ∉ id :: around) other r := by
  induction h using Relation.ReflTransGen.head_induction_on with
  | refl => exact .inl .refl
  | @head outer inner hstep _ ih =>
    obtain hpast | hanew := ih
    · by_cases hid : outer = id
      · exact .inr ⟨inner, hid ▸ hstep.1, hpast⟩
      · exact .inl (.head ⟨hstep.1, by simp [hid, hstep.2]⟩ hpast)
    · exact .inr hanew

/-- **What is reached is reached by a way.** The induction is on the depth that is left; in each
rule that is come through, the way goes on where that rule is left for the last time. -/
theorem exists_way (h : t.Room depth around) (hopening : (t.opening? r).isSome)
    (hleads : Relation.ReflTransGen (fun outer inner => inner ∈ t.held outer ∧ outer ∉ around)
      id r) : ∃ places, t.Way around id places r := by
  induction depth generalizing around id with
  | zero => exact absurd h.pos (Nat.lt_irrefl 0)
  | succ depth ih =>
    obtain rfl | ⟨inner, ⟨hinner, hnew⟩, hrest⟩ := hleads.cases_head
    · exact ⟨[], .here hopening⟩
    obtain ⟨next, hnext, hpast⟩ : ∃ next ∈ t.held id, Relation.ReflTransGen
        (fun outer inner => inner ∈ t.held outer ∧ outer ∉ id :: around) next r := by
      obtain hpast | hanew := leads_past hrest id
      · exact ⟨inner, hinner, hpast⟩
      · exact hanew
    obtain ⟨n, hn⟩ := List.getElem?_of_mem hnext
    obtain ⟨places, hway⟩ := ih (h.into hnew hnext) hpast
    exact ⟨n :: places, .into hnew hn hway⟩

/-! ## What is looked for inside a rule -/

/-- **Where the ways begin**: at the rules inside a rule. A rule that matches a pattern within a
line has none, and is looked for itself. -/
def starts (t : RuleTable) (id : RuleId) : List RuleId :=
  match t.body? id with
  | some (.single _) => [id]
  | some body => body.listed
  | none => []

/-- What is around where the ways begin: the rule itself, if it only holds others. -/
def aroundStarts (t : RuleTable) (id : RuleId) : List RuleId :=
  if t.held id = [] then [] else [id]

/-- **A way inside a rule**, by the place where it begins and those on the way down. -/
def WayInside (t : RuleTable) (id : RuleId) (places : List Nat) (r : RuleId) : Prop :=
  ∃ (n : Nat) (start : RuleId) (rest : List Nat), (t.starts id)[n]? = some start ∧
    places = n :: rest ∧ t.Way (t.aroundStarts id) start rest r

/-- **The patterns of the rules inside a rule**, and the ways down to them. -/
structure LooksFor (t : RuleTable) (id : RuleId) (inner : List Pattern)
    (ways : List (List Nat × RuleId)) : Prop where
  /-- Each is the pattern of the rule at the end of its way, -/
  patterns : inner.map some = ways.map (fun way => t.opening? way.2)
  /-- and enters that rule. -/
  roles : inner.map (·.role) = ways.map (fun way => .enter way.2)
  /-- The ways are in the order of their places. -/
  ordered : (ways.map (·.1)).Pairwise (· < ·)
  /-- They are all ways that there are inside the rule. -/
  all : ∀ places r, (places, r) ∈ ways ↔ t.WayInside id places r
  /-- Inside a region, its closing pattern is looked for besides, and comes first or last. -/
  closing : ∀ opening closing closeLast inside,
    t.body? id = some (.region opening closing closeLast inside) → closing.pattern.role = .close ∧
      t.patternsOf id = if closeLast then inner ++ [closing.pattern] else closing.pattern :: inner
  /-- Inside any other rule, nothing else is looked for. -/
  others : (∀ opening closing closeLast inside,
    t.body? id ≠ some (.region opening closing closeLast inside)) → t.patternsOf id = inner

theorem room_starts (t : RuleTable) (id : RuleId) : t.Room (t.size + 1) (t.aroundStarts id) := by
  rw [aroundStarts]
  split
  · exact .top (Nat.lt_succ_self _)
  · next hheld =>
    obtain ⟨inner, hinner⟩ := List.exists_mem_of_ne_nil _ hheld
    have htop : t.Room (t.size + 1 + 1) [] := .top (by omega)
    exact htop.into List.not_mem_nil hinner

/-- Rules inside a rule that only holds others are those that it holds. -/
theorem starts_of_held (h : t.held id ≠ []) : t.starts id = t.held id := by
  rw [starts]
  unfold held at h ⊢
  cases hbody : t.body? id with
  | none => simp [hbody] at h
  | some body =>
    cases body with
    | choice inside => rfl
    | _ => simp [hbody, RuleBody.held] at h

/-- The patterns of the rules inside a rule. -/
def innerPatterns (t : RuleTable) (id : RuleId) : List Pattern :=
  (t.starts id).flatMap (t.entries (t.size + 1) (t.aroundStarts id))

/-- A rule that only holds others can be entered by the patterns inside it. -/
theorem entries_of_held (h : t.held id ≠ []) :
    t.entries (t.size + 1) [] id = t.innerPatterns id := by
  have hopening : t.opening? id = none := by
    by_contra hne
    exact h (held_of_opening? (Option.isSome_iff_ne_none.2 hne))
  have htop : t.Room (t.size + 1) [] := .top (Nat.lt_succ_self _)
  rw [entries_succ, hopening, if_neg List.not_mem_nil, Option.toList_none, List.nil_append,
    innerPatterns, starts_of_held h]
  refine List.flatMap_congr fun inner hinner => ?_
  have haround : t.aroundStarts id = [id] := if_neg h
  have hroom := t.room_starts id
  rw [haround] at hroom ⊢
  exact entries_congr (htop.into List.not_mem_nil hinner) hroom

/-- **What is looked for inside a rule** is what its rules are entered by, and the closing pattern
of a region. -/
theorem patternsOf_eq (t : RuleTable) (id : RuleId) :
    t.patternsOf id =
      match t.body? id with
      | some (.region _ closing closeLast _) =>
        if closeLast then t.innerPatterns id ++ [closing.pattern]
        else closing.pattern :: t.innerPatterns id
      | _ => t.innerPatterns id := by
  by_cases hheld : t.held id = []
  · have haround : t.aroundStarts id = [] := if_pos hheld
    rw [innerPatterns, haround, starts, patternsOf]
    unfold held at hheld
    cases hbody : t.body? id with
    | none => rfl
    | some body =>
      cases body with
      | single matched =>
        simp [entries_succ, opening?, held, hbody, RuleBody.opening?, RuleBody.held]
      | choice inside =>
        have hempty : inside.rules = [] := by simpa [hbody, RuleBody.held] using hheld
        simp [entries_succ, opening?, held, hbody, RuleBody.opening?, RuleBody.held, hempty,
          RuleBody.listed]
      | region opening closing closeLast inside => rfl
      | block opening continuing inside => rfl
      | capture within => rfl
  · rw [← entries_of_held hheld, patternsOf]
    unfold held at hheld
    cases hbody : t.body? id with
    | none => simp [hbody] at hheld
    | some body =>
      cases body with
      | choice inside => rfl
      | _ => simp [hbody, RuleBody.held] at hheld

/-- A rule is entered by its pattern. -/
theorem Sound.role_of_opening? (ht : t.Sound) {p : Pattern} (h : t.opening? id = some p) :
    p.role = .enter id := by
  obtain ⟨body, hbody, hopening⟩ := Option.bind_eq_some_iff.1 h
  have hsuits := ht.suits hbody
  cases body with
  | single matched => exact Option.some.inj hopening ▸ hsuits
  | region opening closing closeLast inside => exact Option.some.inj hopening ▸ hsuits.1
  | block opening continuing inside => exact Option.some.inj hopening ▸ hsuits.1
  | choice inside => cases hopening
  | capture within => cases hopening

/-- The ways inside a rule of a sound table. -/
theorem Sound.looksFor (ht : t.Sound) (id : RuleId) :
    ∃ ways, t.LooksFor id (t.innerPatterns id) ways := by
  have hpatterns : (t.innerPatterns id).map some =
      (branches (t.ways (t.size + 1) (t.aroundStarts id)) 0 (t.starts id)).map
        (fun way => t.opening? way.2) := by
    rw [map_branches, innerPatterns, List.map_flatMap]
    exact List.flatMap_congr fun start _ => t.map_some_entries _ _ start
  refine ⟨_, hpatterns, ?roles, ?ordered, ?all, ?closing, ?others⟩
  case roles =>
    have hroles := congrArg (List.map (Option.map Pattern.role)) hpatterns
    rw [List.map_map, List.map_map] at hroles
    refine List.map_injective_iff.2 (Option.some_injective _) ?_
    rw [List.map_map, List.map_map]
    refine hroles.trans (List.map_congr_left fun way hway => ?_)
    have hend : t.opening? way.2 ∈ (t.innerPatterns id).map some := by
      rw [hpatterns]
      exact List.mem_map_of_mem hway
    obtain ⟨p, -, hp⟩ := List.mem_map.1 hend
    rw [Function.comp_apply, ← hp, Option.map_some, ht.role_of_opening? hp.symm]
    rfl
  case ordered => exact pairwise_branches fun start _ => t.pairwise_ways _ _ start
  case all =>
    intro places r
    rw [mem_branches_iff]
    simp only [Nat.zero_add, mem_ways_iff (t.room_starts id)]
    rfl
  case closing =>
    intro opening closing closeLast inside hbody
    refine ⟨(ht.suits hbody).2, ?_⟩
    rw [patternsOf_eq, hbody]
  case others =>
    intro hother
    rw [patternsOf_eq]
    split
    · next hbody => exact absurd hbody (hother _ _ _ _)
    · rfl

/-- **A rule with a pattern is at the end of a way** just if it is reached. -/
theorem exists_wayInside_iff : (∃ places, t.WayInside id places r) ↔
    (t.opening? r).isSome ∧ ∃ start ∈ t.starts id, t.LeadsDown start r := by
  constructor
  · rintro ⟨_, n, start, rest, hstart, rfl, hway⟩
    exact ⟨hway.leadsDown.2, start, List.mem_of_getElem? hstart, hway.leadsDown.1⟩
  · rintro ⟨hopening, start, hstart, hleads⟩
    obtain ⟨next, hnext, hpast⟩ : ∃ next ∈ t.starts id, Relation.ReflTransGen
        (fun outer inner => inner ∈ t.held outer ∧ outer ∉ t.aroundStarts id) next r := by
      have hleads : Relation.ReflTransGen (fun outer inner => inner ∈ t.held outer ∧
          outer ∉ ([] : List RuleId)) start r :=
        Relation.ReflTransGen.mono (fun _ _ h => ⟨h, List.not_mem_nil⟩) _ _ hleads
      rw [aroundStarts]
      split
      · exact ⟨start, hstart, hleads⟩
      · next hheld =>
        obtain hpast | ⟨other, hother, hpast⟩ := leads_past hleads id
        · exact ⟨start, hstart, hpast⟩
        · exact ⟨other, starts_of_held hheld ▸ hother, hpast⟩
    obtain ⟨n, hn⟩ := List.getElem?_of_mem hnext
    obtain ⟨rest, hway⟩ := exists_way (t.room_starts id) hopening hpast
    exact ⟨n :: rest, n, next, rest, hn, rfl, hway⟩

/-- **What is looked for inside a rule enters a rule** just if that rule is reached, and is its
pattern. -/
theorem Sound.mem_patternsOf_iff (ht : t.Sound) {p : Pattern} :
    p ∈ t.patternsOf id ∧ p.role = .enter r ↔
      t.opening? r = some p ∧ ∃ start ∈ t.starts id, t.LeadsDown start r := by
  obtain ⟨ways, hlooks⟩ := ht.looksFor id
  have hmem : p ∈ t.innerPatterns id ↔ ∃ way ∈ ways, t.opening? way.2 = some p := by
    rw [← List.mem_map_of_injective (Option.some_injective _), hlooks.patterns, List.mem_map]
  have hclosing : p.role = .enter r → (p ∈ t.patternsOf id ↔ p ∈ t.innerPatterns id) := by
    intro hrole
    rw [patternsOf_eq]
    split
    · next closing closeLast _ hbody =>
      have hne : p ≠ closing.pattern := by
        rintro rfl
        rw [(ht.suits hbody).2] at hrole
        cases hrole
      split <;> simp [hne]
    · rfl
  constructor
  · rintro ⟨hp, hrole⟩
    obtain ⟨⟨places, r'⟩, hway, hopening⟩ := hmem.1 ((hclosing hrole).1 hp)
    obtain rfl : r' = r := by
      have hrole' := ht.role_of_opening? hopening
      rw [hrole] at hrole'
      exact (Role.enter.inj hrole').symm
    exact ⟨hopening, (exists_wayInside_iff.1 ⟨places, (hlooks.all _ _).1 hway⟩).2⟩
  · rintro ⟨hopening, hstart⟩
    have hrole := ht.role_of_opening? hopening
    obtain ⟨places, hway⟩ := exists_wayInside_iff.2 ⟨by rw [hopening]; rfl, hstart⟩
    exact ⟨(hclosing hrole).2 (hmem.2 ⟨_, (hlooks.all _ _).2 hway, hopening⟩), hrole⟩

end RuleTable

namespace Ruleset

/-- **Nothing is lost where rules hold each other in circles.** What is looked for inside a rule of
a compiled grammar are the patterns at the ends of all ways down, in their order, with the closing
pattern of a region first or last. So a rule is looked for, by its pattern, just if it is reached
through rules that only hold others. The bound on the depth has no part in it. -/
theorem looksFor_reached {catalog : Catalog} {root : Definition} {rules : Ruleset}
    (h : ofDefinition catalog root = .ok rules) (id : RuleId) :
    (∃ inner ways, rules.table.LooksFor id inner ways) ∧
      (∀ p r, p ∈ rules.table.patternsOf id ∧ p.role = .enter r ↔
        rules.table.opening? r = some p ∧
          ∃ start ∈ rules.table.starts id, rules.table.LeadsDown start r) ∧
      ∀ depth start, rules.table.size < depth →
        rules.table.entries depth [] start =
          rules.table.entries (rules.table.size + 1) [] start := by
  have hsound := (sound_of_ofDefinition h).table
  obtain ⟨ways, hlooks⟩ := hsound.looksFor id
  refine ⟨⟨_, ways, hlooks⟩, fun p r => hsound.mem_patternsOf_iff, fun depth start hdepth => ?_⟩
  exact RuleTable.entries_congr (.top hdepth) (.top (Nat.lt_succ_self _))

/-- Each of two grammars holds the other. What the second one can be entered by are the region of
the first, the word that the first takes from the second, and the region once more: each as often as
there are ways down, and in their order. The word is reached by way of the first grammar only. -/
theorem looksFor_reached_circle : ∃ rules, ofDefinition circle circleRoot = .ok rules ∧
    (rules.table.patternsOf ⟨6⟩).map (·.role) = [.enter ⟨2⟩, .enter ⟨8⟩, .enter ⟨2⟩] ∧
    (∃ inner ways, rules.table.LooksFor ⟨6⟩ inner ways) ∧
    ∃ start ∈ rules.table.starts ⟨6⟩, rules.table.LeadsDown start ⟨8⟩ := by
  have hrules : ofDefinition circle circleRoot = .ok (orEmpty (ofDefinition circle circleRoot)) :=
    eq_ok_orEmpty (by decide +kernel)
  have hroles : ((orEmpty (ofDefinition circle circleRoot)).table.patternsOf ⟨6⟩).map (·.role) =
      [.enter ⟨2⟩, .enter ⟨8⟩, .enter ⟨2⟩] := by
    decide +kernel
  obtain ⟨hlooks, hreached, -⟩ := looksFor_reached hrules ⟨6⟩
  obtain ⟨p, hp, hrole⟩ : ∃ p ∈ (orEmpty (ofDefinition circle circleRoot)).table.patternsOf ⟨6⟩,
      p.role = .enter ⟨8⟩ := by
    rw [← List.mem_map, hroles]
    decide
  exact ⟨_, hrules, hroles, hlooks, ((hreached p ⟨8⟩).1 ⟨hp, hrole⟩).2⟩

end Ruleset

end Highlight.Grammar
