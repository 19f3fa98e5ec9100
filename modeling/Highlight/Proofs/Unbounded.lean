import Highlight.Proofs.Inventory
import Highlight.Proofs.Walks

/-!
# Walks without a bound

The walk through the rules of a grammar is written with a depth that it may not exceed. The rules
lead to each other in circles, so without the depth it could be that the walk never ends. It always
does, whatever the rules refer to, and the depth plays no part in what it finds.

To say so, walks are described once more, as a relation that has no depth in it: a rule that was
visited is passed over, and any other is marked, walked inside of, and followed to where its
reference leads. There is at most one outcome that such a walk can have. There is one, since all
that a walk comes by stands in an inventory that is closed, and each step inside marks one more of
the rules in it; and it is what the walk with a depth finds, once the depth is larger than the
number of rules in the inventory. In the same way all that is needed after a walk was needed
before, or is named by a rule in the inventory.
-/

namespace Highlight.Grammar

/-! ## The relation -/

/-- Where the reference of a rule leads. A rule that has none leads nowhere. -/
def Outlook.target (o : Outlook) (l : Located) : Target :=
  match l.rule.reference with
  | none => .rules o []
  | some text => (o.inside l).follow (.ofText text)

/-- **A walk without a bound**: where it goes, what was found before it, and what after. -/
inductive Walks : Target → Findings → Findings → Prop
  /-- There are no rules left. -/
  | nil {o : Outlook} {f : Findings} : Walks (.rules o []) f f
  /-- A rule that was visited is passed over. -/
  | again {o : Outlook} {l : Located} {rules : List Located} {f f' : Findings} :
      l.site ∈ f.visited → Walks (.rules o rules) f f' → Walks (.rules o (l :: rules)) f f'
  /-- The rules inside a rule are walked through, and where its reference leads. -/
  | rule {o : Outlook} {l : Located} {rules : List Located} {f f₁ f₂ f' : Findings} :
      l.site ∉ f.visited →
      Walks (.rules (o.inside l) (locatePatterns l.site (l.rule.patterns.getD [])))
        (f.visit l.site) f₁ →
      Walks (o.target l) f₁ f₂ → Walks (.rules o rules) f₂ f' →
      Walks (.rules o (l :: rules)) f f'
  /-- What is needed is noted. -/
  | need {n : Need} {f : Findings} : Walks (.need n) f (f.note n)

theorem Findings.visited_note (f : Findings) (n : Need) : (f.note n).visited = f.visited := by
  rw [note]
  split <;> rfl

namespace Walks

variable {t : Target} {f f' f'' : Findings}

/-- A walk has one outcome. -/
theorem eq (h : Walks t f f') (h' : Walks t f f'') : f' = f'' := by
  induction h generalizing f'' with
  | nil =>
    cases h'
    rfl
  | again hvisited _ ih =>
    cases h' with
    | again _ hrest => exact ih hrest
    | rule hfresh _ _ _ => exact absurd hvisited hfresh
  | rule hfresh _ _ _ ihinside ihtarget ihrest =>
    cases h' with
    | again hvisited _ => exact absurd hvisited hfresh
    | rule _ hinside htarget hrest =>
      obtain rfl := ihinside hinside
      obtain rfl := ihtarget htarget
      exact ihrest hrest
  | need =>
    cases h'
    rfl

theorem visited_subset (h : Walks t f f') : f.visited ⊆ f'.visited := by
  induction h with
  | nil => exact List.Subset.refl _
  | again _ _ ih => exact ih
  | rule _ _ _ _ ihinside ihtarget ihrest =>
    exact fun s hs => ihrest (ihtarget (ihinside (List.mem_cons_of_mem _ hs)))
  | need => rw [Findings.visited_note]; exact List.Subset.refl _

end Walks

/-! ## What the rules of an inventory need -/

/-- What a reference needs where the grammar that it leads to is not in sight. -/
def Reference.need? : Reference → Option Need
  | .grammar scope => some (.whole scope)
  | .namedIn scope name => some (.entry scope name)
  | .base | .self | .named _ => none

/-- What the reference of a rule needs where the grammar that it leads to is not in sight. -/
def Located.need? (l : Located) : Option Need :=
  l.rule.reference.bind (fun text => (Reference.ofText text).need?)

/-- **What the rules of an inventory need** of grammars that are not in sight. -/
def needsOf (inventory : List Located) : List Need := inventory.filterMap Located.need?

/-! ## Walks stay in an inventory -/

/-- What is in sight stands in an inventory. -/
structure Outlook.Within (inventory : List Located) (o : Outlook) : Prop where
  /-- The grammar that all began with. -/
  base : ∀ l ∈ o.base.parts, l ∈ inventory
  /-- The grammar that the rules belong to. -/
  self : ∀ l ∈ o.self.parts, l ∈ inventory
  /-- The named rules. -/
  entries : ∀ p ∈ o.entries, p.2 ∈ inventory

/-- What a reference leads to stands in an inventory, or is needed by a rule in it. -/
def Target.Within (inventory : List Located) : Target → Prop
  | rules o located => o.Within inventory ∧ ∀ l ∈ located, l ∈ inventory
  | need n => n ∈ needsOf inventory

namespace Outlook

variable {inventory : List Located} {base self : Definition} {o : Outlook} {l : Located}

theorem within_ofGrammar (hbase : ∀ l ∈ base.parts, l ∈ inventory)
    (hself : ∀ l ∈ self.parts, l ∈ inventory) : (ofGrammar base self).Within inventory where
  base := hbase
  self := hself
  entries := fun _ hp => hself _
    (List.mem_append_left _ (List.mem_append_right _ (List.mem_map_of_mem hp)))

theorem within_all (h : o.Within inventory) : o.all.Within inventory := by
  refine ⟨within_ofGrammar h.base h.self, fun l hl => h.self l ?_⟩
  obtain hl | hl := List.mem_append.1 hl
  · exact List.mem_append_left _ (List.mem_append_left _ hl)
  · exact List.mem_append_right _ hl

theorem within_entry (h : o.Within inventory) (name : String) :
    (o.entry name).Within inventory :=
  ⟨h, fun _ hl => h.entries _ (Keyed.mem_of_get? (Option.mem_toList.1 hl))⟩

theorem within_inside (hclosed : Closed inventory) (h : o.Within inventory)
    (hl : l ∈ inventory) : (o.inside l).Within inventory where
  base := h.base
  self := h.self
  entries := fun p hp => by
    obtain hp | hp := List.mem_append.1 hp
    · exact hclosed l hl _ (List.mem_append_right _ (List.mem_map_of_mem hp))
    · exact h.entries p hp

theorem within_of_grammar? (h : o.Within inventory) {scope : String} {d : Definition}
    (hd : o.grammar? scope = some d) : ({ o with self := d } : Outlook).Within inventory := by
  unfold grammar? at hd
  split at hd
  · obtain rfl := Option.some.inj hd
    exact h
  · split at hd
    · obtain rfl := Option.some.inj hd
      exact ⟨h.base, h.base, h.entries⟩
    · simp at hd

/-- References lead to what stands in the inventory, or is needed by a rule in it. -/
theorem within_follow (h : o.Within inventory) {ref : Reference}
    (href : ∀ n, ref.need? = some n → n ∈ needsOf inventory) : (o.follow ref).Within inventory := by
  cases ref with
  | base => exact within_all ⟨h.base, h.base, h.entries⟩
  | self => exact within_all h
  | named name => exact within_entry h name
  | grammar scope =>
    rw [follow]
    cases hd : o.grammar? scope with
    | none => exact href _ rfl
    | some d => exact within_all (within_of_grammar? h hd)
  | namedIn scope name =>
    rw [follow]
    cases hd : o.grammar? scope with
    | none => exact href _ rfl
    | some d => exact within_entry (within_of_grammar? h hd) name

theorem within_target (hclosed : Closed inventory) (h : o.Within inventory) (hl : l ∈ inventory) :
    (o.target l).Within inventory := by
  unfold target
  split
  · exact ⟨h, fun _ hl => absurd hl List.not_mem_nil⟩
  · next text htext =>
    refine within_follow (within_inside hclosed h hl) (fun n hn => ?_)
    exact List.mem_filterMap.2 ⟨l, hl, by rw [Located.need?, htext]; exact hn⟩

theorem within_patterns (hclosed : Closed inventory) (hl : l ∈ inventory) :
    ∀ l' ∈ locatePatterns l.site (l.rule.patterns.getD []), l' ∈ inventory :=
  fun _ hl' => hclosed l hl _ (List.mem_append_left _ (List.mem_append_right _ hl'))

end Outlook

theorem Findings.mem_needs_note {f : Findings} {n n' : Need} (h : n' ∈ (f.note n).needs) :
    n' ∈ f.needs ∨ n' = n := by
  rw [note] at h
  split at h
  · exact .inl h
  · exact (List.mem_append.1 h).imp_right List.mem_singleton.1

/-- All that is needed after a walk was needed before, or is needed by a rule in the inventory. -/
theorem Walks.needs {inventory : List Located} (hclosed : Closed inventory) {t : Target}
    {f f' : Findings} (h : Walks t f f') (ht : t.Within inventory) :
    ∀ n ∈ f'.needs, n ∈ f.needs ∨ n ∈ needsOf inventory := by
  induction h with
  | nil => exact fun n hn => .inl hn
  | again _ _ ih => exact ih ⟨ht.1, fun l hl => ht.2 l (List.mem_cons_of_mem _ hl)⟩
  | @rule o l rules _ _ _ _ _ _ _ _ ihinside ihtarget ihrest =>
    have hl : l ∈ inventory := ht.2 l List.mem_cons_self
    intro n hn
    obtain hn | hn := ihrest ⟨ht.1, fun l hl => ht.2 l (List.mem_cons_of_mem _ hl)⟩ n hn
    · obtain hn | hn := ihtarget (Outlook.within_target hclosed ht.1 hl) n hn
      · exact ihinside ⟨Outlook.within_inside hclosed ht.1 hl,
          Outlook.within_patterns hclosed hl⟩ n hn
      · exact .inr hn
    · exact .inr hn
  | need =>
    intro n hn
    obtain hn | rfl := Findings.mem_needs_note hn
    · exact .inl hn
    · exact .inr ht

/-! ## The walk with a depth -/

section Depth

variable {inventory : List Located} {depth : Nat} {o : Outlook} {l : Located} {f : Findings}

/-- Walks through lists of rules come to an end by themselves at some depth. -/
def EndsAt (inventory : List Located) (depth : Nat) : Prop :=
  ∀ {o : Outlook} {rules : List Located} {f : Findings}, o.Within inventory →
    (∀ l ∈ rules, l ∈ inventory) → unvisited (inventory.map (·.site)) f.visited < depth →
    Walks (.rules o rules) f (walk depth o rules f)

theorem walkInside_walks (hdepth : EndsAt inventory depth) (hclosed : Closed inventory)
    (ho : o.Within inventory) (hl : l ∈ inventory)
    (hroom : unvisited (inventory.map (·.site)) f.visited < depth) :
    Walks (.rules (o.inside l) (locatePatterns l.site (l.rule.patterns.getD []))) f
      (walkInside depth o l f) := by
  have hpatterns := Outlook.within_patterns hclosed hl
  unfold walkInside
  split
  · next patterns hsome =>
    rw [hsome] at hpatterns ⊢
    exact hdepth (Outlook.within_inside hclosed ho hl) hpatterns hroom
  · next hnone =>
    rw [hnone]
    exact .nil

theorem walkTarget_walks (hdepth : EndsAt inventory depth) {t : Target} (ht : t.Within inventory)
    (hroom : unvisited (inventory.map (·.site)) f.visited < depth) :
    Walks t f (walkTarget depth f t) := by
  cases t with
  | rules o rules => exact hdepth ht.1 ht.2 hroom
  | need n => exact .need

theorem walkReference_walks (hdepth : EndsAt inventory depth) (hclosed : Closed inventory)
    (ho : o.Within inventory) (hl : l ∈ inventory)
    (hroom : unvisited (inventory.map (·.site)) f.visited < depth) :
    Walks (o.target l) f (walkReference depth o l f) := by
  have htarget := Outlook.within_target hclosed ho hl
  unfold walkReference
  split
  · next hnone =>
    rw [Outlook.target, hnone]
    exact .nil
  · next text htext =>
    rw [Outlook.target, htext] at htarget ⊢
    exact walkTarget_walks hdepth htarget hroom

/-- **Walks end by themselves**: once its depth is larger than the number of rules in the inventory
that were not visited, a walk finds what it finds without a bound. The induction is on the depth,
and in it on the list of rules. -/
theorem walk_walks (hclosed : Closed inventory) (depth : Nat) : EndsAt inventory depth := by
  induction depth with
  | zero => exact fun _ _ hroom => absurd hroom (Nat.not_lt_zero _)
  | succ depth ih =>
    intro o rules f ho hrules hroom
    rw [walk_succ]
    induction rules generalizing f with
    | nil => exact .nil
    | cons l rules ihrules =>
      have hl : l ∈ inventory := hrules l List.mem_cons_self
      have hrest : ∀ l' ∈ rules, l' ∈ inventory := fun l' hl' =>
        hrules l' (List.mem_cons_of_mem _ hl')
      rw [List.foldl_cons]
      by_cases hvisited : l.site ∈ f.visited
      · have hrule : walkRule depth o f l = f := if_pos (List.contains_iff_mem.2 hvisited)
        rw [hrule]
        exact .again hvisited (ihrules hrest hroom)
      · have hrule : walkRule depth o f l =
            walkReference depth o l (walkInside depth o l (f.visit l.site)) :=
          if_neg (fun h => hvisited (List.contains_iff_mem.1 h))
        have hlt : unvisited (inventory.map (·.site)) (f.visit l.site).visited <
            unvisited (inventory.map (·.site)) f.visited :=
          unvisited_cons_lt (List.mem_map_of_mem hl) hvisited
        rw [hrule]
        have hinside := walkInside_walks ih hclosed ho hl (f := f.visit l.site) (by omega)
        have hle : unvisited (inventory.map (·.site)) (walkInside depth o l _).visited ≤ _ :=
          unvisited_le hinside.visited_subset
        have htarget := walkReference_walks ih hclosed ho hl
          (f := walkInside depth o l (f.visit l.site)) (by omega)
        have hle' : unvisited (inventory.map (·.site)) (walkReference depth o l _).visited ≤ _ :=
          unvisited_le htarget.visited_subset
        exact .rule hvisited hinside htarget (ihrules hrest (by omega))

end Depth

/-! ## Exploring what is needed -/

/-- Where a walk begins for what is needed of a grammar. -/
def Need.target (base self : Definition) : Need → Target
  | whole _ => (Outlook.ofGrammar base self).all
  | entry _ name => (Outlook.ofGrammar base self).entry name

/-- Notes that grammars are needed as a whole. -/
def Findings.noteAll (f : Findings) (scopes : List String) : Findings :=
  scopes.foldl (fun f scope => f.note (.whole scope)) f

theorem Findings.mem_needs_noteAll {f : Findings} {scopes : List String} {n : Need}
    (h : n ∈ (f.noteAll scopes).needs) : n ∈ f.needs ∨ ∃ scope ∈ scopes, n = .whole scope := by
  induction scopes generalizing f with
  | nil => exact .inl h
  | cons scope scopes ih =>
    obtain h | ⟨scope', hscope', rfl⟩ := ih h
    · exact (mem_needs_note h).imp_right (fun h => ⟨scope, List.mem_cons_self, h⟩)
    · exact .inr ⟨scope', List.mem_cons_of_mem _ hscope', rfl⟩

namespace Catalog

variable {c : Catalog} {root : String} {base self : Definition} {n : Need} {f : Findings}

theorem within_target (hbase : c.grammar? root = some base)
    (hself : c.grammar? n.scope = some self) :
    (n.target base self).Within c.all := by
  have hparts : ∀ scope d, c.grammar? scope = some d → ∀ l ∈ d.parts, l ∈ c.all :=
    fun _ _ hd _ hl => mem_all_of_grammar? hd (Definition.mem_all_of_mem_parts hl)
  have hwithin := Outlook.within_ofGrammar (hparts _ _ hbase) (hparts _ _ hself)
  cases n with
  | whole scope => exact Outlook.within_all hwithin
  | entry scope name => exact Outlook.within_entry hwithin name

/-- **Exploring is walking without a bound**, and then noting the grammars to be injected. The depth
of the walk is one more than the number of rules in the catalog, so it is large enough. -/
theorem exists_walks (hbase : c.grammar? root = some base)
    (hself : c.grammar? n.scope = some self) (f : Findings) :
    ∃ f', Walks (n.target base self) f f' ∧
      Dependencies.explore c root f n = .ok (f'.noteAll (c.injectionsInto n.scope)) := by
  have hroom : unvisited (c.all.map (·.site)) f.visited < c.size + 1 := by
    have := unvisited_le_length (c.all.map (·.site)) f.visited
    rw [List.length_map, c.length_all] at this
    exact Nat.lt_succ_of_le this
  refine ⟨walkTarget (c.size + 1) f (n.target base self),
    walkTarget_walks (walk_walks c.closed_all _) (within_target hbase hself) hroom, ?_⟩
  rw [Dependencies.explore, hbase, hself]
  cases n <;> rfl

end Catalog

end Highlight.Grammar
