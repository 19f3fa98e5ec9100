import Highlight.Proofs.Compiling
import Highlight.Proofs.Inventory

/-!
# Numbers under way

A rule takes its number before it is complete, so that rules may refer to each other in circles.
While a grammar is compiled there are thus numbers that have no rule yet. They are **under way**,
and they are just the numbers of the rules that compilation is inside of at the moment. That is the
whole of the invariant about them: of the numbers that are taken, those without a rule are the ones
under way. When compilation has come back to where it began none is, and so all numbers have rules.

The rules in the table refer to numbers that are taken, and from their lists for groups to rules for
groups, which are complete as soon as they have a number. A number is either that of a rule for a
group, or it was taken for the rule at one site, and no site takes two.
-/

namespace Highlight.Grammar

/-! ## What rules refer to -/

namespace RuleBody

/-- It is for a group of another rule's pattern. -/
def isCapture : RuleBody → Bool
  | .capture _ => true
  | .single _ | .choice _ | .region .. | .block .. => false

/-- **What a rule refers to**: some property of all numbers in its list and of the one that it reads
a group on by, and another of the numbers in its lists for groups. -/
def RefersTo (listed grouped : RuleId → Prop) : RuleBody → Prop
  | .single matched => ∀ p ∈ matched.captures.rules, grouped p.2
  | .choice inside => ∀ id ∈ inside.rules, listed id
  | .region opening closing _ inside =>
    (∀ p ∈ opening.captures.rules, grouped p.2) ∧ (∀ p ∈ closing.captures.rules, grouped p.2) ∧
      ∀ id ∈ inside.rules, listed id
  | .block opening continuing inside =>
    (∀ p ∈ opening.captures.rules, grouped p.2) ∧
      (∀ p ∈ continuing.captures.rules, grouped p.2) ∧ ∀ id ∈ inside.rules, listed id
  | .capture within => ∀ id ∈ within, listed id

theorem RefersTo.mono {listed listed' grouped grouped' : RuleId → Prop} {b : RuleBody}
    (h : b.RefersTo listed grouped) (hlisted : ∀ id, listed id → listed' id)
    (hgrouped : ∀ id, grouped id → grouped' id) : b.RefersTo listed' grouped' := by
  cases b with
  | single matched => exact fun p hp => hgrouped _ (h p hp)
  | choice inside => exact fun id hid => hlisted _ (h id hid)
  | region opening closing closeLast inside =>
    exact ⟨fun p hp => hgrouped _ (h.1 p hp), fun p hp => hgrouped _ (h.2.1 p hp),
      fun id hid => hlisted _ (h.2.2 id hid)⟩
  | block opening continuing inside =>
    exact ⟨fun p hp => hgrouped _ (h.1 p hp), fun p hp => hgrouped _ (h.2.1 p hp),
      fun id hid => hlisted _ (h.2.2 id hid)⟩
  | capture within => exact fun id hid => hlisted _ (h id hid)

end RuleBody

/-! ## Numbers of a table -/

namespace RuleTable

variable {t : RuleTable}

/-- **A number is taken.** -/
def Taken (t : RuleTable) (id : RuleId) : Prop := 0 < id.number ∧ id.number ≤ t.size

/-- A number has a rule for a group. -/
def HasCapture (t : RuleTable) (id : RuleId) : Prop :=
  ∃ rule, t.get? id = some rule ∧ rule.body.isCapture = true

/-- The next number. -/
def next (t : RuleTable) : RuleId := ⟨t.size + 1⟩

theorem taken_of_get? {id : RuleId} {rule : Rule} (h : t.get? id = some rule) : t.Taken id := by
  obtain ⟨n, rfl, hn⟩ := exists_place h
  exact ⟨Nat.succ_pos n, hn⟩

theorem next_not_taken (t : RuleTable) : ¬ t.Taken t.next :=
  fun h => Nat.not_succ_le_self _ h.2

theorem Taken.ne_next {id : RuleId} (h : t.Taken id) : id ≠ t.next :=
  fun heq => t.next_not_taken (heq ▸ h)

theorem size_push (t : RuleTable) (r : Option Rule) :
    (⟨t.rules.push r⟩ : RuleTable).size = t.size + 1 :=
  Array.size_push r

/-- With one more place, the next number has what was put there, and all others what they had. -/
theorem get?_push (t : RuleTable) (r : Option Rule) (id : RuleId) :
    (⟨t.rules.push r⟩ : RuleTable).get? id = if id = t.next then r else t.get? id := by
  obtain ⟨_ | n⟩ := id
  · rfl
  have hsize : t.rules.toList.length = t.size := Array.length_toList
  rw [get?_eq, get?_eq, Array.toList_push, next]
  obtain hn | rfl | hn := Nat.lt_trichotomy n t.size
  · rw [List.getElem?_append_left (hsize ▸ hn), if_neg]
    simp only [RuleId.mk.injEq]
    omega
  · rw [List.getElem?_append_right (Nat.le_of_eq hsize), hsize, Nat.sub_self, if_pos rfl]
    rfl
  · rw [List.getElem?_eq_none, List.getElem?_eq_none (by omega), if_neg]
    · simp only [RuleId.mk.injEq]
      omega
    · rw [List.length_append, List.length_singleton]
      omega

theorem taken_push {r : Option Rule} {id : RuleId} :
    (⟨t.rules.push r⟩ : RuleTable).Taken id ↔ t.Taken id ∨ id = t.next := by
  obtain ⟨n⟩ := id
  simp only [Taken, size_push, next, RuleId.mk.injEq]
  omega

theorem size_set (t : RuleTable) (id : RuleId) (r : Rule) : (t.set id r).size = t.size :=
  Array.size_setIfInBounds

/-- Once a number that was taken is completed, it has that rule, and all others what they had. -/
theorem get?_set {id : RuleId} (h : t.Taken id) (r : Rule) (id' : RuleId) :
    (t.set id r).get? id' = if id' = id then some r else t.get? id' := by
  obtain ⟨n⟩ := id
  obtain ⟨k, rfl⟩ := Nat.exists_eq_succ_of_ne_zero (Nat.ne_of_gt h.1)
  obtain ⟨_ | n⟩ := id'
  · rfl
  have hset : (t.set ⟨k + 1⟩ r).rules.toList = t.rules.toList.set k (some r) :=
    Array.toList_setIfInBounds ..
  have hk : k < t.rules.toList.length := by
    have hsize : t.rules.toList.length = t.size := Array.length_toList
    exact hsize ▸ h.2
  rw [get?_eq, get?_eq, hset, List.getElem?_set]
  by_cases hn : n = k
  · subst hn
    rw [if_pos rfl, if_pos hk, if_pos rfl]
    rfl
  · rw [if_neg (Ne.symm hn), if_neg]
    simp only [RuleId.mk.injEq]
    omega

theorem taken_set {id id' : RuleId} {r : Rule} : (t.set id r).Taken id' ↔ t.Taken id' := by
  rw [Taken, size_set, Taken]

end RuleTable

/-! ## What is in sight stands in an inventory -/

/-- A grammar stands in an inventory: it as a whole, and the rules directly in it. -/
structure Definition.Within (inventory : List Located) (d : Definition) : Prop where
  /-- The grammar as a whole. -/
  whole : d.whole ∈ inventory
  /-- Its rules. -/
  parts : ∀ l ∈ d.parts, l ∈ inventory

theorem Definition.within_all {d : Definition} {inventory : List Located} (h : d.all ⊆ inventory) :
    d.Within inventory :=
  ⟨h d.whole_mem_all, fun _ hl => h (mem_all_of_mem_parts hl)⟩

theorem Definition.Within.entry {d : Definition} {inventory : List Located}
    (h : d.Within inventory) {p : String × Located} (hp : p ∈ d.locatedEntries) :
    p.2 ∈ inventory :=
  h.parts _ (List.mem_append_left _ (List.mem_append_right _ (List.mem_map_of_mem hp)))

theorem Definition.Within.injection {d : Definition} {inventory : List Located}
    (h : d.Within inventory) {p : String × Located} (hp : p ∈ d.locatedInjections) :
    p.2 ∈ inventory :=
  h.parts _ (List.mem_append_right _ (List.mem_map_of_mem hp))

/-- A grammar that was opened and its base stand in an inventory. -/
structure Opened.Within (inventory : List Located) (o : Opened) : Prop where
  /-- The grammar. -/
  self : o.self.Within inventory
  /-- Its base. -/
  base : o.base.Within inventory

/-- What is in sight stands in an inventory. -/
structure Sight.Within (inventory : List Located) (s : Sight) : Prop where
  /-- The named rules. -/
  entries : ∀ p ∈ s.entries, p.2 ∈ inventory
  /-- The base. -/
  base : s.base.Within inventory

theorem Opened.Within.sight {inventory : List Located} {o : Opened} (h : o.Within inventory) :
    o.sight.Within inventory where
  entries := fun p hp => by
    obtain rfl | hp := List.mem_cons.1 hp
    · exact h.base.whole
    obtain rfl | hp := List.mem_cons.1 hp
    · exact h.self.whole
    · exact h.self.entry hp
  base := h.base

theorem Sight.Within.inside {inventory : List Located} {s : Sight} (h : s.Within inventory)
    (hclosed : Closed inventory) {l : Located} (hl : l ∈ inventory) :
    (s.inside l).Within inventory where
  entries := fun p hp => by
    obtain hp | hp := List.mem_append.1 hp
    · exact hclosed l hl _ (List.mem_append_right _ (List.mem_map_of_mem hp))
    · exact h.entries p hp
  base := h.base

/-- With one more grammar that stands in an inventory, all that were opened do. -/
theorem Opened.forall_within_cons {inventory : List Located} {opened : List (String × Opened)}
    (h : ∀ scope o, Keyed.get? scope opened = some o → o.Within inventory) {scope : String}
    {o : Opened} (ho : o.Within inventory) :
    ∀ scope' o', Keyed.get? scope' ((scope, o) :: opened) = some o' → o'.Within inventory := by
  intro scope' o' h'
  rw [Keyed.get?] at h'
  split at h'
  · exact Option.some.inj h' ▸ ho
  · exact h scope' o' h'

/-! ## States of a compilation -/

namespace Compilation

/-- The state once the next number is taken for a site. -/
abbrev taking (st : Compilation) (site : Site) : Compilation :=
  { st with table := ⟨st.table.rules.push none⟩, numbers := (site, st.table.next) :: st.numbers }

/-- The state once the rule of a number is complete. -/
abbrev completing (st : Compilation) (id : RuleId) (r : Rule) : Compilation :=
  { st with table := st.table.set id r }

/-- **A compilation has gone on** from one state to another: rules, numbers and sites stay. -/
structure Extends (st st' : Compilation) : Prop where
  /-- The rules. -/
  rules : ∀ id rule, st.table.get? id = some rule → st'.table.get? id = some rule
  /-- The numbers taken. -/
  size : st.table.size ≤ st'.table.size
  /-- The sites that they were taken for. -/
  numbers : st.numbers ⊆ st'.numbers

namespace Extends

variable {st st' st'' : Compilation}

theorem refl (st : Compilation) : st.Extends st :=
  ⟨fun _ _ h => h, Nat.le_refl _, List.Subset.refl _⟩

theorem trans (h : st.Extends st') (h' : st'.Extends st'') : st.Extends st'' :=
  ⟨fun id rule hid => h'.rules id rule (h.rules id rule hid), Nat.le_trans h.size h'.size,
    List.Subset.trans h.numbers h'.numbers⟩

theorem taken (h : st.Extends st') {id : RuleId} (hid : st.table.Taken id) : st'.table.Taken id :=
  ⟨hid.1, Nat.le_trans hid.2 h.size⟩

theorem hasCapture (h : st.Extends st') {id : RuleId} (hid : st.table.HasCapture id) :
    st'.table.HasCapture id := by
  obtain ⟨rule, hrule, hcapture⟩ := hid
  exact ⟨rule, h.rules id rule hrule, hcapture⟩

theorem refersTo (h : st.Extends st') {b : RuleBody}
    (hb : b.RefersTo st.table.Taken st.table.HasCapture) :
    b.RefersTo st'.table.Taken st'.table.HasCapture :=
  hb.mono (fun _ => h.taken) (fun _ => h.hasCapture)

/-- A table with one more place goes on from the one before. -/
theorem push (st : Compilation) (r : Option Rule) {numbers : List (Site × RuleId)}
    (h : st.numbers ⊆ numbers) :
    st.Extends { st with table := ⟨st.table.rules.push r⟩, numbers } := by
  refine ⟨fun id rule hid => ?_, ?_, h⟩
  · rw [RuleTable.get?_push, if_neg (RuleTable.taken_of_get? hid).ne_next, hid]
  · rw [RuleTable.size_push]
    exact Nat.le_succ _

end Extends

/-- **A number is accounted for** by its rule: it is that of a rule for a group, or it was taken for
the rule at a site, and has the name of that rule. -/
def Accounted (inventory : List Located) (numbers : List (Site × RuleId)) (id : RuleId)
    (rule : Rule) : Prop :=
  (rule.body.isCapture = true ∧ ∀ site, (site, id) ∉ numbers) ∨
    rule.body.isCapture = false ∧
      ∃ l ∈ inventory, (l.site, id) ∈ numbers ∧ rule.name = l.rule.name.map .ofText

/-- **The state of a compilation is in order**, with some numbers under way. -/
structure InOrder (inventory : List Located) (underWay : RuleId → Prop) (st : Compilation) :
    Prop where
  /-- The grammars that were opened stand in the inventory. -/
  opened : ∀ scope o, Keyed.get? scope st.opened = some o → o.Within inventory
  /-- The numbers under way are taken. -/
  taken : ∀ id, underWay id → st.table.Taken id
  /-- Of the numbers that are taken, those under way are the ones without a rule. -/
  holes : ∀ id, st.table.Taken id → (st.table.get? id = none ↔ underWay id)
  /-- The rules refer to numbers that are taken, and for groups to rules for groups. -/
  refers : ∀ id rule, st.table.get? id = some rule →
    rule.body.RefersTo st.table.Taken st.table.HasCapture
  /-- No site has two numbers. -/
  sites : (st.numbers.map (·.1)).Nodup
  /-- No number is that of two sites. -/
  ids : (st.numbers.map (·.2)).Nodup
  /-- The numbers of sites are taken. -/
  numbers : ∀ p ∈ st.numbers, st.table.Taken p.2
  /-- All numbers that have a rule are accounted for. -/
  accounted : ∀ id rule, st.table.get? id = some rule → Accounted inventory st.numbers id rule

theorem inOrder_empty (inventory : List Located) : InOrder inventory (fun _ => False) {} := by
  have hget : ∀ id, ({} : RuleTable).get? id = none := fun id => by
    cases h : ({} : RuleTable).get? id with
    | none => rfl
    | some rule =>
      obtain ⟨n, -, hn⟩ := RuleTable.exists_place h
      exact absurd hn (Nat.not_lt_zero n)
  refine ⟨fun scope o h => by simp [Keyed.get?] at h, fun _ h => h.elim, fun id hid => ?_,
    fun id rule h => ?_, List.nodup_nil, List.nodup_nil, fun p hp => absurd hp List.not_mem_nil,
    fun id rule h => ?_⟩
  · exact absurd hid.2 (Nat.not_le.2 hid.1)
  · rw [hget] at h
    cases h
  · rw [hget] at h
    cases h

namespace InOrder

variable {inventory : List Located} {underWay : RuleId → Prop} {st : Compilation}

/-- Opening a grammar. -/
theorem opening (h : InOrder inventory underWay st) {scope : String} {o : Opened}
    (ho : o.Within inventory) :
    InOrder inventory underWay { st with opened := (scope, o) :: st.opened } :=
  ⟨Opened.forall_within_cons h.opened ho, h.taken, h.holes, h.refers, h.sites, h.ids, h.numbers,
    h.accounted⟩

/-- Adding a rule for a group. -/
theorem add (h : InOrder inventory underWay st) {r : Rule} {within : Option RuleId}
    (hr : r.body = .capture within) (hwithin : ∀ id ∈ within, st.table.Taken id) :
    st.Extends { st with table := ⟨st.table.rules.push (some r)⟩ } ∧
      InOrder inventory underWay { st with table := ⟨st.table.rules.push (some r)⟩ } ∧
      (⟨st.table.rules.push (some r)⟩ : RuleTable).HasCapture st.table.next := by
  have hget := st.table.get?_push (some r)
  have hcapture : r.body.isCapture = true := by rw [hr]; rfl
  have hextends : st.Extends { st with table := ⟨st.table.rules.push (some r)⟩ } :=
    .push st (some r) (List.Subset.refl _)
  refine ⟨hextends, ⟨h.opened, fun id hid => hextends.taken (h.taken id hid), fun id hid => ?_,
    fun id rule hid => ?_, h.sites, h.ids, fun p hp => hextends.taken (h.numbers p hp),
    fun id rule hid => ?_⟩, r, ?_, hcapture⟩
  · rw [hget]
    obtain hid | rfl := RuleTable.taken_push.1 hid
    · rw [if_neg hid.ne_next]
      exact h.holes id hid
    · rw [if_pos rfl]
      exact ⟨fun hsome => (by cases hsome),
        fun hid => absurd (h.taken _ hid) st.table.next_not_taken⟩
  · rw [hget] at hid
    split at hid
    · obtain rfl := Option.some.inj hid
      rw [hr]
      exact fun id hid => hextends.taken (hwithin id hid)
    · exact hextends.refersTo (h.refers id rule hid)
  · rw [hget] at hid
    split at hid
    · next hnext =>
      obtain rfl := Option.some.inj hid
      refine .inl ⟨hcapture, fun site hsite => ?_⟩
      exact st.table.next_not_taken (hnext ▸ h.numbers _ hsite)
    · exact h.accounted id rule hid
  · rw [hget, if_pos rfl]

/-- Taking the next number for a site that has none. It is then under way. -/
theorem take (h : InOrder inventory underWay st) {site : Site}
    (hsite : site ∉ st.numbers.map (·.1)) :
    st.Extends (st.taking site) ∧
      InOrder inventory (fun id => underWay id ∨ id = st.table.next) (st.taking site) := by
  have hget := st.table.get?_push none
  have hextends : st.Extends (st.taking site) := .push st none (List.subset_cons_self _ _)
  have hnext : (⟨st.table.rules.push none⟩ : RuleTable).Taken st.table.next :=
    RuleTable.taken_push.2 (.inr rfl)
  have hold : ∀ id rule, (⟨st.table.rules.push none⟩ : RuleTable).get? id = some rule →
      st.table.get? id = some rule := by
    intro id rule hid
    rw [hget] at hid
    split at hid
    · cases hid
    · exact hid
  refine ⟨hextends, h.opened, fun id hid => ?_, fun id hid => ?_, fun id rule hid => ?_,
    List.nodup_cons.2 ⟨hsite, h.sites⟩, List.nodup_cons.2 ⟨fun hmem => ?_, h.ids⟩, fun p hp => ?_,
    fun id rule hid => ?_⟩
  · obtain hid | rfl := hid
    · exact hextends.taken (h.taken id hid)
    · exact hnext
  · rw [hget]
    obtain hid | rfl := RuleTable.taken_push.1 hid
    · rw [if_neg hid.ne_next, h.holes id hid]
      exact ⟨.inl, fun hid' => hid'.resolve_right hid.ne_next⟩
    · rw [if_pos rfl]
      exact ⟨fun _ => .inr rfl, fun _ => rfl⟩
  · exact hextends.refersTo (h.refers id rule (hold id rule hid))
  · obtain ⟨p, hp, hid⟩ := List.mem_map.1 hmem
    exact (h.numbers p hp).ne_next hid
  · obtain rfl | hp := List.mem_cons.1 hp
    · exact hnext
    · exact hextends.taken (h.numbers p hp)
  · have hid := hold id rule hid
    obtain ⟨hcapture, hnone⟩ | ⟨hbody, l, hl, hmem, hname⟩ := h.accounted id rule hid
    · refine .inl ⟨hcapture, fun site' hmem => ?_⟩
      obtain heq | hmem := List.mem_cons.1 hmem
      · exact (RuleTable.taken_of_get? hid).ne_next (Prod.mk.inj heq).2
      · exact hnone site' hmem
    · exact .inr ⟨hbody, l, hl, List.mem_cons_of_mem _ hmem, hname⟩

/-- Completing a number that is under way. -/
theorem complete {id : RuleId} (h : InOrder inventory (fun id' => underWay id' ∨ id' = id) st)
    (hid : ¬ underWay id) {r : Rule} (hr : r.body.RefersTo st.table.Taken st.table.HasCapture)
    (hbody : r.body.isCapture = false) {l : Located} (hl : l ∈ inventory)
    (hmem : (l.site, id) ∈ st.numbers) (hname : r.name = l.rule.name.map .ofText) :
    st.Extends (st.completing id r) ∧ InOrder inventory underWay (st.completing id r) := by
  have htaken : st.table.Taken id := h.taken id (.inr rfl)
  have hget := RuleTable.get?_set htaken r
  have hhole : st.table.get? id = none := (h.holes id htaken).2 (.inr rfl)
  have hextends : st.Extends (st.completing id r) := by
    refine ⟨fun id' rule hid' => ?_, Nat.le_of_eq (RuleTable.size_set ..).symm,
      List.Subset.refl _⟩
    rw [hget, if_neg, hid']
    rintro rfl
    rw [hhole] at hid'
    cases hid'
  refine ⟨hextends, h.opened, fun id' hid' => hextends.taken (h.taken id' (.inl hid')),
    fun id' hid' => ?_, fun id' rule hid' => ?_, h.sites, h.ids,
    fun p hp => hextends.taken (h.numbers p hp), fun id' rule hid' => ?_⟩
  · rw [hget]
    split
    · next heq =>
      subst heq
      exact ⟨fun hsome => (by cases hsome), fun h => absurd h hid⟩
    · next hne =>
      rw [h.holes id' (RuleTable.taken_set.1 hid')]
      exact ⟨fun h => h.resolve_right hne, .inl⟩
  · rw [hget] at hid'
    split at hid'
    · obtain rfl := Option.some.inj hid'
      exact hextends.refersTo hr
    · exact hextends.refersTo (h.refers id' rule hid')
  · rw [hget] at hid'
    split at hid'
    · next heq =>
      subst heq
      obtain rfl := Option.some.inj hid'
      exact .inr ⟨hbody, l, hl, hmem, hname⟩
    · exact h.accounted id' rule hid'

end InOrder

end Compilation

end Highlight.Grammar
