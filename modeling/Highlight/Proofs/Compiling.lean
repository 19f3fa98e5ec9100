import Highlight.Grammar.Ruleset
import Highlight.Proofs.Steps

/-!
# What compiling yields

Compiling only ever adds to the table of rules. A number that was taken is completed by the step
that took it and by no other, so that every other step leaves what it finds in the table as it is.
That is why the rule of the grammar as a whole, which is completed before the injections are
compiled, is still there in the end.

A rule in the table **suits** its number: the patterns that it can be entered by enter that number
and no other, and only regions have a closing pattern. So the roles of the patterns that are
looked for inside a rule tell what the rule is.
-/

namespace Highlight.Grammar

/-- What a rule does **suits** a number. -/
def RuleBody.Suits (id : RuleId) : RuleBody → Prop
  | .single matched => matched.pattern.role = .enter id
  | .region opening closing _ _ =>
    opening.pattern.role = .enter id ∧ closing.pattern.role = .close
  | .block opening continuing _ =>
    opening.pattern.role = .enter id ∧ continuing.pattern.role = .continues
  | .choice _ | .capture _ => True

namespace RuleTable

/-- **A table is sound** if its rules suit their numbers. -/
def Sound (t : RuleTable) : Prop := ∀ id rule, t.get? id = some rule → rule.body.Suits id

theorem Sound.suits {t : RuleTable} (h : t.Sound) {id : RuleId} {body : RuleBody}
    (hbody : t.body? id = some body) : body.Suits id := by
  obtain ⟨rule, hrule, rfl⟩ := Option.map_eq_some_iff.1 hbody
  exact h id rule hrule

/-- **A table grows** into another that has more places, and what it has in its own. -/
def Grows (t t' : RuleTable) : Prop := t.rules.toList <+: t'.rules.toList

theorem get?_eq (t : RuleTable) (n : Nat) : t.get? ⟨n + 1⟩ = (t.rules.toList[n]?).join := by
  rw [get?, if_neg (Nat.succ_ne_zero n), Array.getElem?_toList]
  rfl

/-- The number of a rule in the table is the successor of its place. -/
theorem exists_place {t : RuleTable} {id : RuleId} {rule : Rule} (h : t.get? id = some rule) :
    ∃ n, id = ⟨n + 1⟩ ∧ n < t.size := by
  obtain ⟨number⟩ := id
  cases number with
  | zero => simp [get?] at h
  | succ n =>
    refine ⟨n, rfl, ?_⟩
    rw [get?_eq, Option.join_eq_some_iff] at h
    exact (List.getElem?_eq_some_iff.1 h).1

namespace Grows

variable {t t' t'' : RuleTable}

theorem refl (t : RuleTable) : t.Grows t := List.prefix_rfl

theorem trans (h : t.Grows t') (h' : t'.Grows t'') : t.Grows t'' := List.IsPrefix.trans h h'

/-- What is in a table stays there. -/
theorem get? (h : t.Grows t') {id : RuleId} {rule : Rule} (hid : t.get? id = some rule) :
    t'.get? id = some rule := by
  obtain ⟨n, rfl, hn⟩ := exists_place hid
  obtain ⟨more, hmore⟩ := h
  rw [get?_eq] at hid ⊢
  rw [← hmore, List.getElem?_append_left hn]
  exact hid

theorem push (t : RuleTable) (r : Option Rule) : t.Grows ⟨t.rules.push r⟩ := by
  rw [Grows, Array.toList_push]
  exact List.prefix_append _ _

/-- The table in which a number that was taken is completed: its places before that one, the rule,
and the places after. -/
theorem toList_set (h : t.reserve.2.Grows t') (r : Rule) :
    ∃ more, t'.rules.toList = t.rules.toList ++ none :: more ∧
      (t'.set ⟨t.size + 1⟩ r).rules.toList = t.rules.toList ++ some r :: more := by
  obtain ⟨more, hmore⟩ := h
  have htaken : t'.rules.toList = t.rules.toList ++ none :: more := by
    rw [← hmore, RuleTable.reserve, Array.toList_push, List.append_assoc]
    rfl
  refine ⟨more, htaken, ?_⟩
  have hset : (t'.set ⟨t.size + 1⟩ r).rules.toList = t'.rules.toList.set t.size (some r) :=
    Array.toList_setIfInBounds ..
  have hsize : t.rules.toList.length = t.size := Array.length_toList
  rw [hset, htaken, List.set_append_right _ _ (Nat.le_of_eq hsize), hsize, Nat.sub_self,
    List.set_cons_zero]

/-- Completing the number leaves alone what was there before it was taken. -/
theorem set (h : t.reserve.2.Grows t') (r : Rule) : t.Grows (t'.set ⟨t.size + 1⟩ r) := by
  obtain ⟨more, -, hset⟩ := h.toList_set r
  rw [Grows, hset]
  exact List.prefix_append _ _

/-- The number that was completed has its rule. -/
theorem get?_set (h : t.reserve.2.Grows t') (r : Rule) :
    (t'.set ⟨t.size + 1⟩ r).get? ⟨t.size + 1⟩ = some r := by
  obtain ⟨more, -, hset⟩ := h.toList_set r
  have hsize : t.rules.toList.length = t.size := Array.length_toList
  rw [get?_eq, hset, List.getElem?_append_right (Nat.le_of_eq hsize), hsize, Nat.sub_self]
  rfl

end Grows

namespace Sound

variable {t t' : RuleTable}

theorem empty : ({} : RuleTable).Sound := by
  intro id rule h
  obtain ⟨n, -, hn⟩ := exists_place h
  exact absurd hn (Nat.not_lt_zero n)

/-- A table with one more place is sound if the rule there, if any, suits its number. -/
theorem push (h : t.Sound) {r : Option Rule} (hr : ∀ rule ∈ r, rule.body.Suits ⟨t.size + 1⟩) :
    (⟨t.rules.push r⟩ : RuleTable).Sound := by
  intro id rule hid
  obtain ⟨n, rfl, -⟩ := exists_place hid
  rw [get?_eq, Array.toList_push] at hid
  by_cases hn : n < t.rules.toList.length
  · refine h _ rule ?_
    rw [get?_eq]
    rwa [List.getElem?_append_left hn] at hid
  · obtain ⟨k, rfl⟩ := Nat.exists_eq_add_of_le (Nat.le_of_not_lt hn)
    rw [List.getElem?_append_right (Nat.le_add_right _ _), Nat.add_sub_cancel_left] at hid
    cases k with
    | zero => exact hr rule (by simpa using hid)
    | succ k => simp at hid

theorem set (h : t'.Sound) (hgrows : t.reserve.2.Grows t') {r : Rule}
    (hr : r.body.Suits ⟨t.size + 1⟩) : (t'.set ⟨t.size + 1⟩ r).Sound := by
  intro id rule hid
  obtain ⟨n, rfl, -⟩ := exists_place hid
  by_cases hn : n = t.size
  · subst hn
    rw [hgrows.get?_set] at hid
    obtain rfl := Option.some.inj hid
    exact hr
  · refine h _ rule ?_
    have hset : (t'.set ⟨t.size + 1⟩ r).rules.toList = t'.rules.toList.set t.size (some r) :=
      Array.toList_setIfInBounds ..
    rw [get?_eq] at hid ⊢
    rwa [hset, List.getElem?_set_ne (Ne.symm hn)] at hid

end Sound

end RuleTable

namespace Compile

/-! ## Steps that add -/

/-- The table has grown from another one, and is sound. -/
def Grown (t : RuleTable) (c : Compilation) : Prop := t.Grows c.table ∧ c.table.Sound

/-- **A step only adds** to the table, and keeps it sound. -/
def Adds {α : Type} (x : Compile α) : Prop :=
  ∀ t, Ensures (Grown t) x (fun _ => Grown t) (fun _ _ => True)

namespace Adds

variable {α β : Type} {x : Compile α} {f : α → Compile β}

theorem pure (a : α) : Adds (Pure.pure a) := fun _ => Ensures.pure (fun _ h => h)

theorem throw (e : CompileError) : Adds (MonadExcept.throw e : Compile α) :=
  fun _ => Ensures.throw (fun _ _ => trivial)

theorem get : Adds (MonadState.get : Compile Compilation) := fun _ => fun _ h => h

theorem bind (hx : Adds x) (hf : ∀ a, Adds (f a)) : Adds (x >>= f) :=
  fun t => (hx t).bind (fun a => hf a t)

theorem map (hx : Adds x) (f : α → β) : Adds (f <$> x) := fun t => (hx t).map (fun _ _ h => h)

theorem mapM {list : List α} (h : ∀ a ∈ list, Adds (f a)) : Adds (list.mapM f) :=
  fun t => Ensures.mapM (fun a ha => h a ha t)

theorem optionMapM {o : Option α} (h : ∀ a, Adds (f a)) : Adds (o.mapM f) :=
  fun t => Ensures.optionMapM (fun a _ => h a t)

end Adds

variable {catalog : Catalog} {root : Definition} {step : Step}

theorem openGrammar_adds (scope : String) (base : Option Definition) :
    Adds (openGrammar catalog root scope base) := by
  unfold openGrammar
  split
  · exact .pure _
  · refine Adds.bind .get (fun c => ?_)
    split
    · exact .pure _
    · split
      · exact .pure _
      · -- only the grammars that were opened change
        refine Adds.bind (fun t => ?_) (fun _ => .pure _)
        exact Ensures.modifyGet (fun c h => h)

/-- Adding a rule for a group. -/
theorem add_adds (name contentName : Option ScopeTemplate) (within : Option RuleId) :
    Adds (add ⟨name, contentName, .capture within⟩) := by
  intro t
  refine Ensures.modifyGet (fun c h => ⟨h.1.trans (.push c.table _), h.2.push ?_⟩)
  intro rule hrule
  obtain rfl := Option.some.inj hrule
  exact trivial

theorem captures_adds (hstep : ∀ s l, Adds (step s l)) (s : Sight) (site : Site)
    (list : CaptureList) (rules : List (Nat × RuleDefinition)) :
    Adds (captures step s site list rules) := by
  have hrule : ∀ group (r : RuleDefinition) within, Adds (do
      let id ← add ⟨r.name.map .ofText, r.contentName.map .ofText, .capture within⟩
      return (group, id) : Compile (Nat × RuleId)) :=
    fun group r within => Adds.bind (add_adds _ _ within) (fun _ => .pure _)
  unfold captures
  dsimp only
  split
  · exact fun _ _ _ => trivial
  · refine Adds.bind (Adds.mapM (fun p _ => ?_)) (fun _ => .pure _)
    obtain ⟨group, r⟩ := p
    dsimp only
    split
    · exact Adds.bind ((hstep _ _).map some) (fun within => hrule group r within)
    · exact Adds.bind (.pure none) (fun within => hrule group r within)

theorem capturesOr_adds (hstep : ∀ s l, Adds (step s l)) (s : Sight) (l : Located)
    (list : CaptureList) (own : Option (List (Nat × RuleDefinition))) :
    Adds (capturesOr step s l list own) := by
  unfold capturesOr
  split
  · exact captures_adds hstep _ _ _ _
  · exact captures_adds hstep _ _ _ _

theorem reference_adds (hstep : ∀ s l, Adds (step s l)) (s : Sight) (ref : Reference) :
    Adds (reference catalog root step s ref) := by
  unfold reference
  split
  · exact .optionMapM (hstep s)
  · exact .optionMapM (hstep s)
  · exact .optionMapM (hstep s)
  · refine Adds.bind (openGrammar_adds _ _) (fun o => ?_)
    split
    · exact (hstep _ _).map some
    · exact .pure _
  · refine Adds.bind (openGrammar_adds _ _) (fun o => ?_)
    split
    · exact .optionMapM (hstep _)
    · exact .pure _

theorem inside_adds (hstep : ∀ s l, Adds (step s l)) (s : Sight) (rules : List Located) :
    Adds (inside catalog root step s rules) := by
  unfold inside
  refine Adds.bind (Adds.mapM (fun l _ => ?_)) (fun _ => .pure _)
  unfold inner
  dsimp only
  split
  · exact Adds.bind (reference_adds hstep _ _) (fun id? => Adds.bind .get (fun _ => .pure _))
  · exact Adds.bind ((hstep s l).map some) (fun id? => Adds.bind .get (fun _ => .pure _))

/-! ## Compiling a rule -/

/-- What is compiled for a number suits it. -/
theorem body_ensures (hstep : ∀ s l, Adds (step s l)) (s : Sight) (l : Located) (id : RuleId)
    (t : RuleTable) :
    Ensures (Grown t) (body catalog root step s l id) (fun b c => Grown t c ∧ b.Suits id)
      (fun _ _ => True) := by
  unfold body
  dsimp only
  split
  · refine Ensures.bind (capturesOr_adds hstep _ _ _ _ t) (fun captures => ?_)
    exact Ensures.pure (fun c h => ⟨h, rfl⟩)
  · refine Ensures.bind (capturesOr_adds hstep _ _ _ _ t) (fun opening => ?_)
    split
    · refine Ensures.bind (capturesOr_adds hstep _ _ _ _ t) (fun continuing => ?_)
      refine Ensures.bind (inside_adds hstep _ _ t) (fun inside => ?_)
      exact Ensures.pure (fun c h => ⟨h, rfl, rfl⟩)
    · refine Ensures.bind (capturesOr_adds hstep _ _ _ _ t) (fun closing => ?_)
      refine Ensures.bind (inside_adds hstep _ _ t) (fun inside => ?_)
      exact Ensures.pure (fun c h => ⟨h, rfl, rfl⟩)
  · split
    · refine Ensures.bind (inside_adds hstep _ _ t) (fun inside => ?_)
      exact Ensures.pure (fun c h => ⟨h, trivial⟩)
    · refine Ensures.bind (inside_adds hstep _ _ t) (fun inside => ?_)
      exact Ensures.pure (fun c h => ⟨h, trivial⟩)

/-- Taking a number, compiling what its rule does and completing it adds to the table, and what is
known of what the rule does is known of the rule in the table. -/
theorem numbering_ensures {x : RuleId → Compile RuleBody} {known : RuleBody → Prop}
    (hx : ∀ id t, Ensures (Grown t) (x id) (fun b c => Grown t c ∧ b.Suits id ∧ known b)
      (fun _ _ => True))
    {r : RuleBody → Rule} (hr : ∀ b, (r b).body = b) (site : Site) (t : RuleTable) :
    Ensures (Grown t)
      (do
        let id ← take site
        let b ← x id
        complete id (r b)
        return id)
      (fun id c => Grown t c ∧ ∃ b, known b ∧ c.table.get? id = some (r b))
      (fun _ _ => True) := by
  intro c hc
  -- the number is the next one of the table as it is now, and all that follows is for it
  have hrest : Ensures (Grown c.table.reserve.2)
      (do
        let b ← x ⟨c.table.size + 1⟩
        complete ⟨c.table.size + 1⟩ (r b)
        return (⟨c.table.size + 1⟩ : RuleId))
      (fun id c => Grown t c ∧ ∃ b, known b ∧ c.table.get? id = some (r b))
      (fun _ _ => True) := by
    refine Ensures.bind (hx ⟨c.table.size + 1⟩ c.table.reserve.2) (fun b => ?_)
    refine Ensures.bind (M := fun _ c' => Grown t c' ∧ known b ∧
      c'.table.get? ⟨c.table.size + 1⟩ = some (r b)) (Ensures.modifyGet (fun c' h => ?_))
      (fun _ => Ensures.pure (fun _ h => ⟨h.1, b, h.2⟩))
    obtain ⟨⟨hgrows, hsound⟩, hsuits, hknown⟩ := h
    have hsuits' : (r b).body.Suits ⟨c.table.size + 1⟩ := by rwa [hr b]
    exact ⟨⟨hc.1.trans (hgrows.set (r b)), hsound.set hgrows hsuits'⟩, hknown,
      hgrows.get?_set (r b)⟩
  refine hrest { c with
    table := c.table.reserve.2, numbers := (site, ⟨c.table.size + 1⟩) :: c.numbers } ?_
  exact ⟨.refl _, hc.2.push (fun rule h => by simp at h)⟩

theorem rule_adds (depth : Nat) (s : Sight) (l : Located) :
    Adds (rule catalog root depth s l) := by
  induction depth generalizing s l with
  | zero => exact .throw _
  | succ depth ih =>
    rw [rule]
    refine Adds.bind .get (fun c => ?_)
    split
    · exact .pure _
    · intro t
      have hbody : ∀ id t, Ensures (Grown t) (body catalog root (rule catalog root depth) s l id)
          (fun b c => Grown t c ∧ b.Suits id ∧ True) (fun _ _ => True) :=
        fun id t => (body_ensures ih s l id t).mono (fun _ h => h)
          (fun b c h => ⟨h.1, h.2, trivial⟩) (fun _ _ h => h)
      exact (numbering_ensures hbody (fun b => rfl) l.site t).mono (fun _ h => h)
        (fun id c h => h.1) (fun _ _ h => h)

/-- The rule for a grammar as a whole, from what it does. -/
def wholeRule (d : Definition) (b : RuleBody) : Rule where
  name := some (.ofText d.scopeName)
  contentName := match b with
    | .single _ => none
    | _ => none
  body := b

/-- **The rule of a grammar as a whole**, compiled first of all, has the name of the grammar and
only holds other rules. -/
theorem rule_whole_ensures (d : Definition) (depth : Nat) (s : Sight) :
    Ensures (fun c => c = {}) (rule catalog root (depth + 1) s d.whole)
      (fun id c => c.table.Sound ∧ ∃ inside,
        c.table.get? id = some ⟨some (.ofText d.scopeName), none, .choice inside⟩)
      (fun _ _ => True) := by
  intro c hc
  subst hc
  have hbody : ∀ id t, Ensures (Grown t)
      (body catalog root (rule catalog root depth) s d.whole id)
      (fun b c => Grown t c ∧ b.Suits id ∧ ∃ inside, b = .choice inside) (fun _ _ => True) := by
    intro id t
    refine Ensures.bind (inside_adds (rule_adds depth) _ _ t) (fun inside => ?_)
    exact Ensures.pure (fun c h => ⟨h, trivial, inside, rfl⟩)
  have hgrown : Grown {} {} := ⟨.refl _, .empty⟩
  have hnumbering := numbering_ensures hbody (r := wholeRule d) (fun b => rfl) d.site {}
  refine hnumbering.mono (fun _ h => h) (fun id c h => ?_) (fun _ _ h => h) {} hgrown
  obtain ⟨hgrown, b, ⟨inside, rfl⟩, hid⟩ := h
  exact ⟨hgrown.2, inside, hid⟩

/-! ## Injections -/

theorem injections_adds (hstep : ∀ s l, Adds (step s l)) :
    Adds (injections catalog root step) := by
  unfold injections
  refine Adds.bind ?_ (fun own => Adds.bind (.mapM (fun scope _ => ?_)) (fun others => .pure _))
  · unfold ownInjections
    exact Adds.bind (.mapM (fun p _ => Adds.bind (hstep _ _) (fun _ => .pure _)))
      (fun _ => .pure _)
  · unfold injectedGrammar
    refine Adds.bind (openGrammar_adds _ _) (fun o => ?_)
    split
    · exact .pure _
    · split
      · exact .pure _
      · exact Adds.bind (hstep _ _) (fun _ => .pure _)

end Compile

/-! ## Compiled grammars -/

/-- **A compiled grammar is sound**: its table is, and every text begins in a rule that has the
name of the grammar and only holds other rules. -/
structure Ruleset.Sound (rules : Ruleset) (name : String) : Prop where
  /-- The table. -/
  table : rules.table.Sound
  /-- The rule that every text begins in. -/
  root : ∃ inside,
    rules.table.get? rules.root = some ⟨some (.ofText name), none, .choice inside⟩

/-- **Compiling a grammar yields a sound one.** -/
theorem Ruleset.sound_of_ofDefinition {catalog : Catalog} {d : Definition} {rules : Ruleset}
    (h : Ruleset.ofDefinition catalog d = .ok rules) : rules.Sound d.scopeName := by
  let depth := catalog.size + d.size
  have hrun : Ensures (fun c => c = {})
      (do
        let id ← Compile.rule catalog d (depth + 1) (Opened.sight ⟨d, d⟩) d.whole
        let injections ← Compile.injections catalog d (Compile.rule catalog d (depth + 1))
        return (id, injections))
      (fun p c => c.table.Sound ∧ ∃ inside,
        c.table.get? p.1 = some ⟨some (.ofText d.scopeName), none, .choice inside⟩)
      (fun _ _ => True) := by
    refine Ensures.bind (Compile.rule_whole_ensures d depth _) (fun id => ?_)
    intro c hc
    obtain ⟨hsound, inside, hid⟩ := hc
    -- compiling the injections only adds to the table, so the first rule stays what it is
    have hadds : Compile.Adds
        (Compile.injections catalog d (Compile.rule catalog d (depth + 1))) :=
      Compile.injections_adds (Compile.rule_adds (depth + 1))
    refine Ensures.bind (hadds c.table) (fun injections => ?_) c ⟨.refl _, hsound⟩
    exact Ensures.pure (fun c' h => ⟨h.2, inside, h.1.get? hid⟩)
  unfold Ruleset.ofDefinition at h
  dsimp only at h
  split at h
  · next id injections c hc =>
    obtain rfl := Except.ok.inj h
    obtain ⟨hsound, hid⟩ := hrun.ok rfl hc
    exact ⟨hsound, hid⟩
  · simp at h

/-- The compiled grammar, or one without rules if there is none. -/
def Ruleset.orEmpty : Except CompileError Ruleset → Ruleset
  | .ok rules => rules
  | .error _ => ⟨"", ⟨0⟩, {}, []⟩

theorem Ruleset.eq_ok_orEmpty {x : Except CompileError Ruleset} (h : x.isOk = true) :
    x = .ok (Ruleset.orEmpty x) := by
  cases x with
  | ok rules => rfl
  | error e => simp [Except.isOk, Except.toBool] at h

end Highlight.Grammar
