import Highlight.Proofs.Completing

/-!
# What compiling spends

Which rules of a grammar are compiled is up to how they refer to each other, since a rule that
nothing leads to is not. So how many numbers a compilation takes is told by the rules that it
**meets**: each of them takes a number for itself, and one more for every rule in the lists of
groups that it is compiled with. A step **spends** the numbers of the rules that it meets, each only
once, and some more of its own.

This is exact, and also says what a compilation fails for: one of the rules that it has met is
compiled with a list of groups that there is no room for.
-/

namespace Highlight.Grammar

/-! ## Lists of groups -/

/-- **There is room for some groups**: a list of all groups up to any of them, with eight bytes for
each, is not longer than a signed word tells. -/
def HasRoom {α : Type} (rules : List (Nat × α)) : Prop := ∀ p ∈ rules, 8 * (p.1 + 1) < 2 ^ 63

instance {α : Type} (rules : List (Nat × α)) : Decidable (HasRoom rules) :=
  inferInstanceAs (Decidable (∀ p ∈ rules, 8 * (p.1 + 1) < 2 ^ 63))

theorem hasRoom_iff_find? {α : Type} {rules : List (Nat × α)} :
    HasRoom rules ↔ rules.find? (Compile.groupLimit < ·.1) = none := by
  have hlimit : Compile.groupLimit = 2 ^ 60 - 2 := rfl
  rw [List.find?_eq_none, HasRoom]
  refine forall₂_congr (fun p _ => ?_)
  rw [decide_eq_true_eq, hlimit]
  omega

/-- The lists of groups of a rule that is compiled. -/
def RuleBody.groupRules : RuleBody → List CaptureRules
  | .single matched => [matched.captures]
  | .region opening closing _ _ => [opening.captures, closing.captures]
  | .block opening continuing _ => [opening.captures, continuing.captures]
  | .choice _ | .capture _ => []

/-- All of these lists have room. -/
def RuleBody.HasRoom (b : RuleBody) : Prop := ∀ c ∈ b.groupRules, Grammar.HasRoom c.rules

namespace RuleDefinition

/-- **The lists of groups that a rule is compiled with**: that of each pattern that it is compiled
with, or the one for all patterns if that has none of its own. -/
def groupLists (r : RuleDefinition) : List (List (Nat × RuleDefinition)) :=
  let common := r.captures.getD []
  match Compile.given r.pattern, r.opening with
  | some _, _ => [common]
  | none, some _ =>
    let further := match Compile.given r.continuing with
      | some _ => r.continuingCaptures
      | none => r.closingCaptures
    [r.openingCaptures.getD common, further.getD common]
  | none, none => []

/-- How many numbers the rules in these lists take. -/
def groupNumbers (r : RuleDefinition) : Nat := (r.groupLists.map List.length).sum

end RuleDefinition

namespace Located

/-- All lists of groups that a rule is compiled with have room. -/
def HasRoom (l : Located) : Prop := ∀ rules ∈ l.rule.groupLists, Grammar.HasRoom rules

instance (l : Located) : Decidable l.HasRoom :=
  inferInstanceAs (Decidable (∀ rules ∈ l.rule.groupLists, Grammar.HasRoom rules))

/-- **How many numbers some rules take**: each takes one for itself, and those for its groups. -/
def numbersOf (ls : List Located) : Nat := (ls.map (fun l => 1 + l.rule.groupNumbers)).sum

@[simp] theorem numbersOf_append (ls ls' : List Located) :
    numbersOf (ls ++ ls') = numbersOf ls + numbersOf ls' := by
  simp [numbersOf]

@[simp] theorem numbersOf_singleton (l : Located) : numbersOf [l] = 1 + l.rule.groupNumbers := rfl

end Located

namespace Compile

/-! ## Steps that spend numbers -/

/-- **What compilation has met**: the rules that took a number, the last one first. -/
structure Met (inventory met : List Located) (st : Compilation) : Prop where
  /-- They stand in the inventory. -/
  within : met ⊆ inventory
  /-- They are those that took a number. -/
  sites : st.numbers.map (·.1) = met.map (·.site)
  /-- None was met twice. -/
  nodup : (met.map (·.site)).Nodup
  /-- The grammars that were opened stand in the inventory. -/
  opened : ∀ scope o, Keyed.get? scope st.opened = some o → o.Within inventory
  /-- The lists of groups of the rules in the table have room. -/
  room : ∀ id rule, st.table.get? id = some rule → rule.body.HasRoom

theorem met_empty (inventory : List Located) : Met inventory [] {} where
  within := List.nil_subset _
  sites := rfl
  nodup := List.nodup_nil
  opened := fun scope o h => by simp [Keyed.get?] at h
  room := fun id rule h => by
    obtain ⟨n, -, hn⟩ := RuleTable.exists_place h
    exact absurd hn (Nat.not_lt_zero n)

namespace Met

variable {inventory met : List Located} {st : Compilation}

/-- Opening a grammar meets no rule. -/
theorem opening (h : Met inventory met st) {scope : String} {o : Opened}
    (ho : o.Within inventory) :
    Met inventory met { st with opened := (scope, o) :: st.opened } :=
  { h with opened := Opened.forall_within_cons h.opened ho }

/-- Adding a rule for a group meets no rule that is written. -/
theorem adding (h : Met inventory met st) {r : Rule} (hr : r.body.HasRoom) :
    Met inventory met { st with table := ⟨st.table.rules.push (some r)⟩ } := by
  refine { h with room := fun id rule hid => ?_ }
  rw [RuleTable.get?_push] at hid
  split at hid
  · exact Option.some.inj hid ▸ hr
  · exact h.room id rule hid

/-- A rule that has no number is met for the first time. -/
theorem taking (h : Met inventory met st) {l : Located} (hl : l ∈ inventory)
    (hnumber : Keyed.get? l.site st.numbers = none) :
    Met inventory (l :: met) (st.taking l.site) := by
  have hsite : l.site ∉ met.map (·.site) := by
    rw [← h.sites]
    exact Keyed.not_mem_keys_of_get?_eq_none hnumber
  refine ⟨List.cons_subset.2 ⟨hl, h.within⟩, ?_, List.nodup_cons.2 ⟨hsite, h.nodup⟩, h.opened,
    fun id rule hid => ?_⟩
  · rw [List.map_cons, List.map_cons, h.sites]
  · rw [RuleTable.get?_push] at hid
    split at hid
    · cases hid
    · exact h.room id rule hid

/-- Completing a number that was taken meets no further rule. -/
theorem completing (h : Met inventory met st) {id : RuleId} (hid : st.table.Taken id) {r : Rule}
    (hr : r.body.HasRoom) : Met inventory met (st.completing id r) := by
  refine { h with room := fun id' rule hid' => ?_ }
  rw [RuleTable.get?_set hid] at hid'
  split at hid'
  · exact Option.some.inj hid' ▸ hr
  · exact h.room id' rule hid'

end Met

/-- **A step spends** some numbers and those of the rules that it meets, which all have room, and
what it yields has some property. If it fails, it is for a rule that was met and has no room, unless
it is for lack of depth. Some rules are held to have been met before. -/
def Spends {α : Type} (inventory held : List Located) (x : Compile α) (cost : Nat)
    (Q : α → Prop) : Prop :=
  ∀ met st, held ⊆ met → Met inventory met st → match x.run st with
    | .ok a st' => Q a ∧ ∃ more, Met inventory (more ++ met) st' ∧ (∀ l ∈ more, l.HasRoom) ∧
        st'.table.size = st.table.size + Located.numbersOf more + cost
    | .error e st' => ∃ more, Met inventory (more ++ met) st' ∧
        (e = .depth ∨ ∃ l ∈ more ++ met, ¬ l.HasRoom)

section Spends

variable {inventory held : List Located} {α β : Type} {x : Compile α} {cost cost' : Nat}
  {Q Q' : α → Prop}

namespace Spends

theorem pure {a : α} (h : Q a) : Spends inventory held (Pure.pure a : Compile α) 0 Q :=
  fun _ _ _ hmet => ⟨h, [], hmet, List.forall_mem_nil _, rfl⟩

theorem get : Spends inventory held (MonadState.get : Compile Compilation) 0 (fun _ => True) :=
  fun _ _ _ hmet => ⟨trivial, [], hmet, List.forall_mem_nil _, rfl⟩

theorem throw {e : CompileError} (h : e = .depth ∨ ∃ l ∈ held, ¬ l.HasRoom) :
    Spends inventory held (MonadExcept.throw e : Compile α) cost Q :=
  fun _ _ hheld hmet => ⟨[], hmet, h.imp_right (fun ⟨l, hl, hroom⟩ => ⟨l, hheld hl, hroom⟩)⟩

theorem mono (h : Spends inventory held x cost Q) (hcost : cost = cost')
    (hpost : ∀ a, Q a → Q' a) : Spends inventory held x cost' Q' := by
  subst hcost
  intro met st hheld hmet
  have := h met st hheld hmet
  cases hrun : x.run st with
  | error e st' => simpa only [hrun] using this
  | ok a st' =>
    simp only [hrun] at this
    exact ⟨hpost a this.1, this.2⟩

/-- What two steps in turn spend adds up. -/
theorem bind {f : α → Compile β} {R : β → Prop} (hx : Spends inventory held x cost Q)
    (hf : ∀ a, Q a → Spends inventory held (f a) cost' R) :
    Spends inventory held (x >>= f) (cost + cost') R := by
  intro met st hheld hmet
  have hfirst := hx met st hheld hmet
  rw [EStateM.run_bind]
  cases hrun : x.run st with
  | error e st' => simpa only [hrun] using hfirst
  | ok a st' =>
    simp only [hrun] at hfirst
    obtain ⟨hQ, more, hmet', hroom, hsize⟩ := hfirst
    have hheld' : held ⊆ more ++ met := fun l hl => List.mem_append_right _ (hheld hl)
    have hsecond := hf a hQ (more ++ met) st' hheld' hmet'
    dsimp only
    cases hrun' : (f a).run st' with
    | error e st'' =>
      simp only [hrun'] at hsecond
      obtain ⟨more', hmet'', herror⟩ := hsecond
      rw [← List.append_assoc] at hmet'' herror
      exact ⟨more' ++ more, hmet'', herror⟩
    | ok b st'' =>
      simp only [hrun'] at hsecond
      obtain ⟨hR, more', hmet'', hroom', hsize'⟩ := hsecond
      rw [← List.append_assoc] at hmet''
      refine ⟨hR, more' ++ more, hmet'', List.forall_mem_append.2 ⟨hroom', hroom⟩, ?_⟩
      rw [hsize', hsize, Located.numbersOf_append]
      omega

/-- What follows a step may spend nothing. -/
theorem bind_free {f : α → Compile β} {R : β → Prop} (hx : Spends inventory held x cost Q)
    (hf : ∀ a, Q a → Spends inventory held (f a) 0 R) :
    Spends inventory held (x >>= f) cost R :=
  hx.bind hf

theorem map {f : α → β} {R : β → Prop} (hx : Spends inventory held x cost Q)
    (hf : ∀ a, Q a → R (f a)) : Spends inventory held (f <$> x) cost R := by
  rw [map_eq_pure_bind]
  exact hx.bind (fun a ha => .pure (hf a ha))

/-- Steps for all elements of a list that spend the same spend it for each. -/
theorem mapM {f : α → Compile β} {list : List α} {R : β → Prop}
    (h : ∀ a ∈ list, Spends inventory held (f a) cost R) :
    Spends inventory held (list.mapM f) (cost * list.length) (fun bs => ∀ b ∈ bs, R b) := by
  induction list with
  | nil => exact .pure (List.forall_mem_nil _)
  | cons a list ih =>
    obtain ⟨ha, hlist⟩ := List.forall_mem_cons.1 h
    rw [List.mapM_cons]
    refine Spends.mono (ha.bind (fun b hb => (ih hlist).bind (fun bs hbs => .pure ?_))) ?_
      (fun _ h => h)
    · exact List.forall_mem_cons.2 ⟨hb, hbs⟩
    · rw [List.length_cons, Nat.mul_succ, Nat.add_zero, Nat.add_comm]

theorem mapM_free {f : α → Compile β} {list : List α} {R : β → Prop}
    (h : ∀ a ∈ list, Spends inventory held (f a) 0 R) :
    Spends inventory held (list.mapM f) 0 (fun bs => ∀ b ∈ bs, R b) :=
  (mapM h).mono (Nat.zero_mul _) (fun _ h => h)

theorem optionMapM {f : α → Compile β} {o : Option α}
    (h : ∀ a ∈ o, Spends inventory held (f a) 0 (fun _ => True)) :
    Spends inventory held (o.mapM f) 0 (fun _ => True) := by
  cases o with
  | none => exact .pure trivial
  | some a => exact (h a rfl).map (fun _ _ => trivial)

end Spends

end Spends

/-! ## What the steps of a compilation spend -/

/-- How rules are compiled spends nothing but the numbers of the rules that it meets. -/
def StepSpends (inventory : List Located) (step : Step) : Prop :=
  ∀ s l held, s.Within inventory → l ∈ inventory →
    Spends inventory held (step s l) 0 (fun _ => True)

section Parts

variable {inventory held : List Located} {catalog : Catalog} {root : Definition} {step : Step}
  {s : Sight} {l : Located}

theorem openGrammar_spends (hinv : Inventoried inventory catalog root) (scope : String)
    {base : Option Definition} (hbase : ∀ b ∈ base, b.Within inventory) :
    Spends inventory held (openGrammar catalog root scope base) 0
      (fun o => ∀ o' ∈ o, o'.Within inventory) := by
  intro met st hheld hmet
  obtain ⟨o?, ho, hrun | ⟨o, hwithin, hrun⟩⟩ := openGrammar_run hinv scope hbase hmet.opened
  · rw [hrun]
    exact ⟨ho, [], hmet, List.forall_mem_nil _, rfl⟩
  · rw [hrun]
    exact ⟨ho, [], hmet.opening hwithin, List.forall_mem_nil _, rfl⟩

/-- Adding a rule for a group takes one number. -/
theorem add_spends (name contentName : Option ScopeTemplate) (within : Option RuleId) :
    Spends inventory held (add ⟨name, contentName, .capture within⟩) 1 (fun _ => True) := by
  intro met st hheld hmet
  have hroom : (RuleBody.capture within).HasRoom := List.forall_mem_nil _
  exact ⟨trivial, [], hmet.adding (r := ⟨name, contentName, .capture within⟩) hroom,
    List.forall_mem_nil _, RuleTable.size_push _ _⟩

/-- The rules for the groups of a pattern take one number each. -/
theorem captures_spends (hstep : StepSpends inventory step) (hs : s.Within inventory) {site : Site}
    {list : CaptureList} {rules : List (Nat × RuleDefinition)}
    (hrules : ∀ l ∈ locateCaptures site list rules, l ∈ inventory)
    (hheld : ¬ HasRoom rules → ∃ l ∈ held, ¬ l.HasRoom) :
    Spends inventory held (captures step s site list rules) rules.length
      (fun c => HasRoom c.rules ∧ HasRoom rules) := by
  have hadd : ∀ group (r : RuleDefinition) within, 8 * (group + 1) < 2 ^ 63 →
      Spends inventory held (do
        let id ← add ⟨r.name.map .ofText, r.contentName.map .ofText, .capture within⟩
        return (group, id) : Compile (Nat × RuleId)) 1 (fun p => 8 * (p.1 + 1) < 2 ^ 63) :=
    fun group r within hgroup => (add_spends _ _ within).bind (fun _ _ => .pure hgroup)
  unfold captures
  dsimp only
  split
  · next group r hfind =>
    refine .throw (.inr (hheld (fun hroom => ?_)))
    rw [hasRoom_iff_find?, hfind] at hroom
    cases hroom
  · next hfind =>
    have hroom := hasRoom_iff_find?.2 hfind
    refine Spends.mono (Spends.bind_free (.mapM (fun p hp => ?_))
      (fun ids hids => .pure ⟨hids, hroom⟩)) (Nat.one_mul _) (fun _ h => h)
    have hgroup := hroom p hp
    obtain ⟨group, r⟩ := p
    dsimp only
    split
    · have hl := hrules _ (List.mem_map_of_mem hp)
      exact ((hstep s _ held hs hl).map (Q := fun _ => True) (R := fun _ => True)
        (fun _ _ => trivial)).bind (fun within _ => hadd group r within hgroup)
    · exact Spends.bind (Q := fun _ => True) (.pure (a := none) trivial)
        (fun within _ => hadd group r within hgroup)

/-- The list that is used for a pattern is one of those that its rule is compiled with. -/
theorem capturesOr_spends (hstep : StepSpends inventory step) (hclosed : Closed inventory)
    (hs : s.Within inventory) (hl : l ∈ inventory) (list : CaptureList)
    (own : Option (List (Nat × RuleDefinition)))
    (hown : ∀ rules ∈ own, l.rule.capturesFor list = some rules)
    (hmem : own.getD (l.rule.captures.getD []) ∈ l.rule.groupLists) :
    Spends inventory [l] (capturesOr step s l list own)
      (own.getD (l.rule.captures.getD [])).length
      (fun c => HasRoom c.rules ∧ HasRoom (own.getD (l.rule.captures.getD []))) := by
  have hheld : ∀ {rules}, rules ∈ l.rule.groupLists → ¬ HasRoom rules →
      ∃ l' ∈ [l], ¬ l'.HasRoom :=
    fun hrules hroom => ⟨l, List.mem_singleton_self l, fun h => hroom (h _ hrules)⟩
  unfold capturesOr
  split
  · next rules =>
    obtain ⟨-, hparts⟩ := l.mem_parts_of_capturesFor (hown rules rfl)
    exact captures_spends hstep hs (fun p hp => hclosed l hl p (hparts p hp)) (hheld hmem)
  · refine captures_spends hstep hs (fun p hp => hclosed l hl p ?_) (hheld hmem)
    cases hcommon : l.rule.captures with
    | none =>
      rw [hcommon] at hp
      exact absurd hp List.not_mem_nil
    | some rules =>
      have hlist : l.rule.capturesFor .common = some rules := hcommon
      rw [hcommon] at hp
      exact (l.mem_parts_of_capturesFor hlist).2 p hp

theorem reference_spends (hinv : Inventoried inventory catalog root)
    (hstep : StepSpends inventory step) (hs : s.Within inventory) (ref : Reference) :
    Spends inventory held (reference catalog root step s ref) 0 (fun _ => True) := by
  have hnamed : ∀ {s : Sight} {entries : List (String × Located)} (name : String),
      s.Within inventory → (∀ p ∈ entries, p.2 ∈ inventory) →
      Spends inventory held ((Keyed.get? name entries).mapM (step s)) 0 (fun _ => True) :=
    fun name hs hentries => .optionMapM (fun l hl =>
      hstep _ l held hs (hentries _ (Keyed.mem_of_get? hl)))
  have hopened : ∀ scope, Spends inventory held (openGrammar catalog root scope (some s.base)) 0
      (fun o => ∀ o' ∈ o, o'.Within inventory) :=
    fun scope => openGrammar_spends hinv scope (fun b hb => Option.some.inj hb ▸ hs.base)
  unfold reference
  split
  · exact hnamed _ hs hs.entries
  · exact hnamed _ hs hs.entries
  · exact hnamed _ hs hs.entries
  · refine (hopened _).bind_free (fun o ho => ?_)
    split
    · next o =>
      have ho := ho o rfl
      exact (hstep _ _ held ho.sight ho.self.whole).map (fun _ _ => trivial)
    · exact .pure trivial
  · refine (hopened _).bind_free (fun o ho => ?_)
    split
    · next o =>
      have ho := ho o rfl
      exact hnamed _ ho.sight (fun p hp => ho.self.entry hp)
    · exact .pure trivial

theorem inside_spends (hinv : Inventoried inventory catalog root)
    (hstep : StepSpends inventory step) (hs : s.Within inventory) {rules : List Located}
    (hrules : ∀ l ∈ rules, l.rule.reference = none → l ∈ inventory) :
    Spends inventory held (inside catalog root step s rules) 0 (fun _ => True) := by
  unfold inside
  refine Spends.bind_free (.mapM_free (R := fun _ => True) (fun l hl => ?_))
    (fun ids _ => .pure trivial)
  unfold inner
  dsimp only
  split
  · exact (reference_spends hinv hstep hs _).bind_free
      (fun _ _ => Spends.get.bind_free (fun _ _ => .pure trivial))
  · next href =>
    exact ((hstep s l held hs (hrules l hl href)).map (R := fun _ => True)
      (fun _ _ => trivial)).bind_free
      (fun _ _ => Spends.get.bind_free (fun _ _ => .pure trivial))

/-- Compiling the rules in the list of a rule. -/
theorem patterns_spends (hinv : Inventoried inventory catalog root)
    (hstep : StepSpends inventory step) (hs : s.Within inventory) (hl : l ∈ inventory) :
    Spends inventory held
      (inside catalog root step s (locatePatterns l.site (l.rule.patterns.getD []))) 0
      (fun _ => True) :=
  inside_spends hinv hstep hs (fun _ hl' _ =>
    hinv.closed l hl _ (List.mem_append_left _ (List.mem_append_right _ hl')))

/-- What has two patterns, one that opens it and a further one, is compiled with a list for each,
and then what is inside. -/
theorem delimiters_spends (hinv : Inventoried inventory catalog root)
    (hstep : StepSpends inventory step) (hs : s.Within inventory) (hl : l ∈ inventory)
    (list : CaptureList) (further : Option (List (Nat × RuleDefinition)))
    (hfurther : ∀ rules ∈ further, l.rule.capturesFor list = some rules)
    (hlists : l.rule.groupLists = [l.rule.openingCaptures.getD (l.rule.captures.getD []),
      further.getD (l.rule.captures.getD [])])
    {b : CaptureRules → CaptureRules → Inside → RuleBody}
    (hb : ∀ c c' i, (b c c' i).groupRules = [c, c']) :
    Spends inventory [l] (do
        let opening ← capturesOr step s l .opening l.rule.openingCaptures
        let further ← capturesOr step s l list further
        return b opening further
          (← inside catalog root step s (locatePatterns l.site (l.rule.patterns.getD []))))
      l.rule.groupNumbers (fun b => b.HasRoom ∧ l.HasRoom) := by
  have hopening := capturesOr_spends hstep hinv.closed hs hl .opening l.rule.openingCaptures
    (fun _ h => h) (hlists ▸ List.mem_cons_self)
  have hfurther := capturesOr_spends hstep hinv.closed hs hl list further hfurther
    (hlists ▸ List.mem_cons_of_mem _ (List.mem_singleton_self _))
  have hnumbers : l.rule.groupNumbers =
      (l.rule.openingCaptures.getD (l.rule.captures.getD [])).length +
        ((further.getD (l.rule.captures.getD [])).length + (0 + 0)) := by
    simp [RuleDefinition.groupNumbers, hlists]
  rw [hnumbers]
  refine hopening.bind (fun c hc => hfurther.bind (fun c' hc' =>
    (patterns_spends hinv hstep hs hl).bind (fun i _ => .pure ⟨?_, ?_⟩)))
  · rw [RuleBody.HasRoom, hb]
    exact List.forall_mem_cons.2 ⟨hc.1, List.forall_mem_singleton.2 hc'.1⟩
  · rw [Located.HasRoom, hlists]
    exact List.forall_mem_cons.2 ⟨hc.2, List.forall_mem_singleton.2 hc'.2⟩

/-- **Compiling what a rule does** takes a number for each rule in the lists of groups that it is
compiled with. If it comes to its end, these lists have room. -/
theorem body_spends (hinv : Inventoried inventory catalog root) (hstep : StepSpends inventory step)
    (hs : s.Within inventory) (hl : l ∈ inventory) (id : RuleId) :
    Spends inventory [l] (body catalog root step s l id) l.rule.groupNumbers
      (fun b => b.HasRoom ∧ l.HasRoom) := by
  unfold body
  dsimp only
  split
  · next pattern _ hpattern =>
    have hlists : l.rule.groupLists = [l.rule.captures.getD []] := by
      simp only [RuleDefinition.groupLists, hpattern]
    have hnumbers : l.rule.groupNumbers = (l.rule.captures.getD []).length + 0 := by
      simp [RuleDefinition.groupNumbers, hlists]
    have hcommon := capturesOr_spends hstep hinv.closed hs hl .common none
      (fun rules h => absurd h (Option.not_mem_none rules)) (hlists ▸ List.mem_singleton_self _)
    rw [hnumbers]
    refine hcommon.bind (fun captures h => .pure ⟨?_, ?_⟩)
    · exact List.forall_mem_singleton.2 h.1
    · rw [Located.HasRoom, hlists]
      exact List.forall_mem_singleton.2 h.2
  · next opening hpattern hopening =>
    cases hcontinuing : given l.rule.continuing with
    | some continuing =>
      refine delimiters_spends hinv hstep hs hl .continuing l.rule.continuingCaptures
        (fun _ h => h) ?_ (b := fun c c' i => .block ⟨_, c⟩ ⟨_, c'⟩ i) (fun _ _ _ => rfl)
      simp only [RuleDefinition.groupLists, hpattern, hopening, hcontinuing]
    | none =>
      refine delimiters_spends hinv hstep hs hl .closing l.rule.closingCaptures
        (fun _ h => h) ?_ (b := fun c c' i => .region ⟨_, c⟩ ⟨_, c'⟩ _ i) (fun _ _ _ => rfl)
      simp only [RuleDefinition.groupLists, hpattern, hopening, hcontinuing]
  · next hpattern hopening =>
    have hlists : l.rule.groupLists = [] := by
      simp only [RuleDefinition.groupLists, hpattern, hopening]
    have hsight := hs.inside hinv.closed hl
    have hnumbers : l.rule.groupNumbers = 0 := by
      simp [RuleDefinition.groupNumbers, hlists]
    have hinside : ∀ i : Inside, (RuleBody.choice i).HasRoom ∧ l.HasRoom := by
      refine fun i => ⟨List.forall_mem_nil _, ?_⟩
      rw [Located.HasRoom, hlists]
      exact List.forall_mem_nil _
    rw [hnumbers]
    split
    · refine Spends.bind_free (inside_spends hinv hstep hsight (fun l' hl' href => ?_))
        (fun inside _ => .pure (hinside inside))
      rw [List.mem_singleton.1 hl'] at href
      cases href
    · exact Spends.bind_free (patterns_spends hinv hstep hsight hl)
        (fun inside _ => .pure (hinside inside))

end Parts

/-! ## Compiling a rule -/

/-- **Compiling a rule** spends its numbers if it is met for the first time, and otherwise none. -/
theorem rule_spends {inventory : List Located} {catalog : Catalog} {root : Definition}
    (hinv : Inventoried inventory catalog root) (depth : Nat) :
    StepSpends inventory (rule catalog root depth) := by
  induction depth with
  | zero => exact fun s l held _ _ => .throw (.inl rfl)
  | succ depth ih =>
    intro s l held hs hl met st hheld hmet
    rw [rule, EStateM.run_bind, EStateM.run_get]
    dsimp only
    cases hnumber : Keyed.get? l.site st.numbers with
    | some id => exact ⟨trivial, [], hmet, List.forall_mem_nil _, rfl⟩
    | none =>
    have hbody := body_spends hinv ih hs hl st.table.next (l :: met) (st.taking l.site)
      (List.cons_subset.2 ⟨List.mem_cons_self, List.nil_subset _⟩) (hmet.taking hl hnumber)
    have hrun : EStateM.run (take l.site) st = .ok st.table.next (st.taking l.site) := rfl
    dsimp only
    rw [EStateM.run_bind, hrun]
    dsimp only
    rw [EStateM.run_bind]
    cases hrun' : EStateM.run (body catalog root (rule catalog root depth) s l st.table.next)
        (st.taking l.site) with
    | error e st' =>
      simp only [hrun'] at hbody
      obtain ⟨more, hmet', herror⟩ := hbody
      rw [List.append_cons] at hmet' herror
      exact ⟨more ++ [l], hmet', herror⟩
    | ok b st' =>
      simp only [hrun'] at hbody
      obtain ⟨⟨hb, hroom⟩, more, hmet', hrooms, hsize⟩ := hbody
      have htaking : (st.taking l.site).table.size = st.table.size + 1 :=
        RuleTable.size_push _ _
      rw [htaking] at hsize
      have hnext : st.table.next.number = st.table.size + 1 := rfl
      have htaken : st'.table.Taken st.table.next := ⟨Nat.succ_pos _, by omega⟩
      rw [List.append_cons] at hmet'
      refine ⟨trivial, more ++ [l], hmet'.completing htaken (r := ⟨_, _, b⟩) hb,
        List.forall_mem_append.2 ⟨hrooms, List.forall_mem_singleton.2 hroom⟩, ?_⟩
      refine (RuleTable.size_set st'.table st.table.next _).trans ?_
      rw [hsize, Located.numbersOf_append, Located.numbersOf_singleton]
      omega

/-! ## Compiling a grammar -/

section Injections

variable {inventory held : List Located} {catalog : Catalog} {root : Definition} {step : Step}

theorem ownInjections_spends (hinv : Inventoried inventory catalog root)
    (hstep : StepSpends inventory step) :
    Spends inventory held (ownInjections step root) 0 (fun _ => True) := by
  have hroot : Opened.Within inventory ⟨root, root⟩ := ⟨hinv.root, hinv.root⟩
  unfold ownInjections
  refine Spends.bind_free (.mapM_free (R := fun _ => True) (fun p hp => ?_))
    (fun found _ => .pure trivial)
  have hmem : p.2 ∈ inventory := hinv.root.injection ((Order.perm_sort _ _).mem_iff.1 hp)
  exact (hstep _ _ held hroot.sight hmem).bind_free (fun id _ => .pure trivial)

theorem injectedGrammar_spends (hinv : Inventoried inventory catalog root)
    (hstep : StepSpends inventory step) (scope : String) :
    Spends inventory held (injectedGrammar catalog root step scope) 0 (fun _ => True) := by
  unfold injectedGrammar
  refine (openGrammar_spends hinv scope (fun b hb => absurd hb (Option.not_mem_none b))).bind_free
    (fun o ho => ?_)
  split
  · exact .pure trivial
  · next o =>
    have ho := ho o rfl
    split
    · exact .pure trivial
    · exact (hstep _ _ held ho.sight ho.self.whole).bind_free (fun id _ => .pure trivial)

/-- **Compiling all of a grammar** spends nothing but the numbers of the rules that it meets. -/
theorem everything_spends (hinv : Inventoried inventory catalog root) :
    Spends inventory [] (everything catalog root) 0 (fun _ => True) := by
  have hroot : Opened.Within inventory ⟨root, root⟩ := ⟨hinv.root, hinv.root⟩
  have hstep := rule_spends hinv (catalog.size + root.size + 1)
  have hinjections : Spends inventory []
      (injections catalog root (rule catalog root (catalog.size + root.size + 1))) 0
      (fun _ => True) := by
    unfold injections
    refine (ownInjections_spends hinv hstep).bind_free (fun own _ => ?_)
    exact Spends.bind_free (.mapM_free (fun scope _ => injectedGrammar_spends hinv hstep scope))
      (fun others _ => .pure trivial)
  unfold everything
  exact (hstep _ _ [] hroot.sight hinv.root.whole).bind_free
    (fun id _ => hinjections.bind_free (fun _ _ => .pure trivial))

end Injections

/-- **Compiling all of a grammar leaves a state**, whether or not it fails. -/
def Leaves (catalog : Catalog) (root : Definition) (st : Compilation) : Prop :=
  (∃ p, (everything catalog root).run {} = .ok p st) ∨
    ∃ e, (everything catalog root).run {} = .error e st

end Compile

end Highlight.Grammar
