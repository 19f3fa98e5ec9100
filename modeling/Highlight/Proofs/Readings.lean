import Highlight.Proofs.Specificity

/-!
# A theme read without its trie

Two things in a theme have no meaning of their own: the nodes of the trie, which depend on the
scopes that other rules are for, and the numbers of the colours, which depend on the colours that
other rules have. A theme can be **read** without them. The rules for a scope and for the names
above it are put together in their order, colour by colour, into clauses: one that applies
anywhere, and one for each list of parents.

The reading is right for every definition, also if names have empty segments or end in dots, and
for every map of colours. A node inherits only once, but by then the rules above it are all there:
they are added before, since a scope comes before those that have its segments and more.
-/

namespace Highlight.Theme

/-! ## Clauses -/

/-- **A clause**: what rules with the same parents say together about a scope. -/
structure Clause where
  /-- How many segments the longest of the scopes has. -/
  depth : Nat := 0
  /-- The scopes that must stand around, nearest first. -/
  parents : List String := []
  /-- What is set. -/
  look : Look := {}

/-- How many segments the scope of a rule has. -/
def Rule.depth (r : Rule) : Nat := (Scope.segments r.scope).length

/-- The clause after one more rule with the same parents. -/
def Clause.add (c : Clause) (r : Rule) : Clause where
  depth := max c.depth r.depth
  parents := c.parents
  look := r.look.orElse c.look

/-- Clauses for some scopes around after one more rule. What a new clause leaves unset it takes
from the clause that applies anywhere. -/
def addClause (anywhere : Clause) (r : Rule) : List Clause → List Clause
  | [] => [⟨r.depth, r.parents, r.look.orElse anywhere.look⟩]
  | c :: cs => if c.parents = r.parents then c.add r :: cs else c :: addClause anywhere r cs

/-- **What rules say about a scope.** -/
structure Reading where
  /-- The clause that applies anywhere. -/
  anywhere : Clause := {}
  /-- The clauses that need scopes around. -/
  inside : List Clause := []

namespace Reading

/-- What is said after one more rule. -/
def add (x : Reading) (r : Rule) : Reading :=
  if r.parents.isEmpty then { x with anywhere := x.anywhere.add r }
  else { x with inside := addClause x.anywhere r x.inside }

/-- All clauses. -/
def clauses (x : Reading) : List Clause := x.inside ++ [x.anywhere]

end Reading

/-- The clause as a rule at a node, whatever it sets. -/
def Clause.entry (c : Clause) : Entry := ⟨c.depth, c.parents, .unset⟩

/-- The order of clauses, most specific first. It is that of entries. -/
def Clause.compareSpecificity (a b : Clause) : Ordering := a.entry.compareSpecificity b.entry

/-- What rules say together about the scope with these segments. -/
def readingOf (rs : List Rule) (ss : List String) : Reading := (above rs ss).foldl .add {}

/-- **What rules set for a path**: the look of the most specific clause that fits. -/
def lookFor? (rs : List Rule) (path : ScopePath) : Option Look :=
  ((Order.sort (fun a b => (a.compareSpecificity b).isLT)
      (readingOf rs (Scope.segments path.name)).clauses).find?
    (fun c => fits path.ancestors c.parents)).map (·.look)

theorem anywhere_foldl_add (rs : List Rule) (x : Reading) :
    (rs.foldl Reading.add x).anywhere.parents = x.anywhere.parents := by
  induction rs generalizing x with
  | nil => rfl
  | cons r rs ih =>
    rw [List.foldl_cons, ih, Reading.add]
    split <;> rfl

/-- Some clause applies. -/
theorem exists_lookFor? (rs : List Rule) (path : ScopePath) :
    ∃ look, lookFor? rs path = some look := by
  rw [lookFor?, ← Option.isSome_iff_exists, Option.isSome_map, List.find?_isSome]
  refine ⟨(readingOf rs (Scope.segments path.name)).anywhere, ?_, ?_⟩
  · exact (Order.perm_sort _ _).mem_iff.2 (List.mem_append_right _ List.mem_cons_self)
  · rw [readingOf, anywhere_foldl_add, fits]

/-! ## Nodes and clauses -/

/-- **A rule at a node is a clause**, with numbers for its colours. -/
structure Entry.Shows (m : ColorMap) (e : Entry) (c : Clause) : Prop where
  /-- The depth. -/
  depth : e.depth = c.depth
  /-- The parents. -/
  parents : e.parents = c.parents
  /-- What is set. -/
  style : e.style.Shows m c.look

/-- **The rules at a node are clauses**, in the same order. -/
structure Trie.Shows (m : ColorMap) (t : Trie) (x : Reading) : Prop where
  /-- The rule that applies anywhere. -/
  anywhere : t.anywhere.Shows m x.anywhere
  /-- The rules that need scopes around. -/
  inside : List.Forall₂ (Entry.Shows m) t.inside x.inside

section Nodes

variable {m m' : ColorMap} {t : Trie} {x : Reading} {r : Rule} {style : Style}

theorem Entry.Shows.mono {e : Entry} {c : Clause} (h : e.Shows m c)
    (hm : m.colors <+: m'.colors) : e.Shows m' c :=
  { h with style := h.style.mono hm }

theorem Entry.Shows.overwrite {e : Entry} {c : Clause} (h : e.Shows m c)
    (hs : style.Shows m r.look) : (e.overwrite r.depth style).Shows m (c.add r) where
  depth := congrArg (max · r.depth) h.depth
  parents := h.parents
  style := hs.orElse h.style

theorem Trie.Shows.mono (h : t.Shows m x) (hm : m.colors <+: m'.colors) : t.Shows m' x where
  anywhere := h.anywhere.mono hm
  inside := h.inside.imp fun _ _ h => h.mono hm

theorem Trie.shows_bare : t.bare.Shows m x ↔ t.Shows m x :=
  ⟨fun h => ⟨h.anywhere, h.inside⟩, fun h => ⟨h.anywhere, h.inside⟩⟩

theorem forall₂_addInside {anywhere : Entry} {c : Clause} (h : anywhere.Shows m c)
    (hs : style.Shows m r.look) {es : List Entry} {cs : List Clause}
    (hes : List.Forall₂ (Entry.Shows m) es cs) :
    List.Forall₂ (Entry.Shows m) (Trie.addInside anywhere r.depth r.parents style es)
      (addClause c r cs) := by
  induction hes with
  | nil => exact .cons ⟨rfl, rfl, hs.orElse h.style⟩ .nil
  | cons he hes ih =>
    rw [Trie.addInside, addClause, he.parents]
    split
    · exact .cons (he.overwrite hs) hes
    · exact .cons he ih

/-- Adding a rule at a node adds it to the clauses. -/
theorem Trie.Shows.addHere (h : t.Shows m x) (hs : style.Shows m r.look) :
    (t.addHere r.depth r.parents style).Shows m (x.add r) := by
  obtain ⟨anywhere, inside, children⟩ := t
  rw [Trie.addHere, Reading.add]
  split
  · exact ⟨h.anywhere.overwrite hs, h.inside⟩
  · exact ⟨h.anywhere, forall₂_addInside h.anywhere hs h.inside⟩

theorem rel_find? (p : List String → Bool) {es : List Entry} {cs : List Clause}
    (h : List.Forall₂ (Entry.Shows m) es cs) :
    Option.Rel (Entry.Shows m) (es.find? (p ·.parents)) (cs.find? (p ·.parents)) := by
  induction h with
  | nil => exact .none
  | cons he _ ih =>
    rw [List.find?_cons, List.find?_cons, he.parents]
    split
    · exact .some he
    · exact ih

/-- **Rules and clauses are sorted alike**, so the same one of them is the first to fit. -/
theorem Trie.Shows.find? (h : t.Shows m x) (p : List String → Bool) :
    Option.Rel (Entry.Shows m)
      ((Order.sort (fun a b => (a.compareSpecificity b).isLT) t.entries).find? (p ·.parents))
      ((Order.sort (fun a b => (a.compareSpecificity b).isLT) x.clauses).find? (p ·.parents)) := by
  have hcompare : ∀ (a : Entry) (c : Clause) (b : Entry) (d : Clause), a.Shows m c → b.Shows m d →
      (a.compareSpecificity b).isLT = (c.compareSpecificity d).isLT := by
    intro a c b d ha hb
    rw [Clause.compareSpecificity, Entry.compareSpecificity, Entry.compareSpecificity, ha.depth,
      ha.parents, hb.depth, hb.parents]
    rfl
  exact rel_find? p (Order.forall₂_sort hcompare (List.rel_append h.inside (.cons h.anywhere .nil)))

end Nodes

/-! ## The trie while rules are added -/

/-- **The trie reads as the rules that were added.** -/
structure Reads (rs : List Rule) (t : Trie) (m : ColorMap) : Prop where
  /-- The map is ready. -/
  ready : m.IsReady
  /-- There are no nodes but for the rules. -/
  nodes : HasNodesFor rs t
  /-- What is found for a scope. -/
  shows : ∀ ss, (t.find ss).Shows m (readingOf rs ss)

theorem reads_nil {m : ColorMap} (h : m.IsReady) : Reads [] Trie.empty m where
  ready := h
  nodes := hasNodesFor_nil
  shows ss := by
    rw [Trie.find_of_children_eq_nil rfl]
    exact ⟨⟨rfl, rfl, rfl, ⟨h.pos, rfl⟩, ⟨h.pos, rfl⟩⟩, .nil⟩

theorem readingOf_concat (rs : List Rule) (r : Rule) (ss : List String) :
    readingOf (rs ++ [r]) ss =
      if Scope.segments r.scope <+: ss then (readingOf rs ss).add r else readingOf rs ss := by
  rw [readingOf, above_concat]
  split
  · rw [List.foldl_append]
    rfl
  · rfl

/-- A rule that is added is put into the trie with a style that shows what it sets. -/
theorem exists_shows_of_addRule {t t' : Trie} {m m' : ColorMap} {r : Rule}
    (hready : m.IsReady) (h : addRule (t, m) r = .ok (t', m')) :
    ∃ style, t' = t.insert r.parents style 0 (Scope.segments r.scope) ∧
      m'.IsReady ∧ m.colors <+: m'.colors ∧ style.Shows m' r.look := by
  obtain ⟨style, m₁, hfont, hfore, hback, rfl⟩ := exists_of_addRule h
  obtain ⟨hready₁, hle, hforeground⟩ := hready.number hfore
  obtain ⟨hready', hle', hbackground⟩ := hready₁.number hback
  exact ⟨style, rfl, hready', hle.trans hle', hfont, hforeground.mono hle', hbackground⟩

/-- **One more rule**, not to precede those that were added. Numbers that were given stay good. -/
theorem Reads.concat {rs : List Rule} {t t' : Trie} {m m' : ColorMap} (h : Reads rs t m) {r : Rule}
    (hrs : ∀ q ∈ rs, (r.order q).isLT = false) (hadd : addRule (t, m) r = .ok (t', m')) :
    Reads (rs ++ [r]) t' m' ∧ m.colors <+: m'.colors := by
  obtain ⟨style, rfl, hready, hle, hstyle⟩ := exists_shows_of_addRule h.ready hadd
  refine ⟨⟨hready, h.nodes.insert r style, fun ss => ?_⟩, hle⟩
  have hold : (t.find ss).bare.Shows m' (readingOf rs ss) :=
    Trie.shows_bare.2 ((h.shows ss).mono hle)
  have hreach : Scope.segments r.scope <+: ss ∧
      t.reach ss ≤ (Scope.segments r.scope).length ↔ Scope.segments r.scope <+: ss :=
    and_iff_left_of_imp (h.nodes.reach_le hrs)
  rw [← Trie.shows_bare, Trie.bare_find_insert, readingOf_concat]
  simp only [hreach, Nat.zero_add]
  split
  · exact hold.addHere hstyle
  · exact hold

/-- **All rules in their order.** -/
theorem Reads.foldlM {rs more : List Rule} {t t' : Trie} {m m' : ColorMap} (h : Reads rs t m)
    (hsorted : (rs ++ more).Pairwise (fun a b => (b.order a).isLT = false))
    (hfold : more.foldlM addRule (t, m) = .ok (t', m')) :
    Reads (rs ++ more) t' m' ∧ m.colors <+: m'.colors := by
  induction more generalizing rs t m with
  | nil =>
    obtain ⟨rfl, rfl⟩ : t = t' ∧ m = m' := by simpa [pure, Except.pure] using hfold
    exact ⟨by rwa [List.append_nil], List.prefix_rfl⟩
  | cons r more ih =>
    have hrs : ∀ q ∈ rs, (r.order q).isLT = false := fun q hq =>
      (List.pairwise_append.1 hsorted).2.2 q hq r List.mem_cons_self
    rw [List.foldlM_cons] at hfold
    obtain ⟨⟨t₁, m₁⟩, hadd, hfold⟩ := exists_of_bind_eq_ok hfold
    rw [List.append_cons] at hsorted ⊢
    obtain ⟨h₁, hle⟩ := h.concat hrs hadd
    obtain ⟨h₂, hle'⟩ := ih h₁ hsorted hfold
    exact ⟨h₂, hle.trans hle'⟩

/-! ## Looks -/

/-- The look of the defaults. -/
def Definition.defaultLook (d : Definition) : Look where
  fontStyle := some d.defaults.fontStyle
  foreground := some (Unicode.upper d.defaults.foreground)
  background := some (Unicode.upper d.defaults.background)

/-- **A theme reads as its definition**: its defaults and the style of every path show the look
that the rules set. -/
structure ReadsAs (theme : Theme) (d : Definition) : Prop where
  /-- The defaults. -/
  defaults : theme.defaults.Shows theme.colorMap d.defaultLook
  /-- The style of a path. -/
  styleOf? : ∀ path, Option.Rel (Style.Shows theme.colorMap) (theme.styleOf? path)
    (lookFor? d.scopedRules path)

theorem rel_map {α β α' β' : Type} {R : α → β → Prop} {R' : α' → β' → Prop} {f : α → α'}
    {g : β → β'} (hfg : ∀ a b, R a b → R' (f a) (g b)) {x : Option α} {y : Option β}
    (h : Option.Rel R x y) : Option.Rel R' (x.map f) (y.map g) := by
  cases h with
  | none => exact .none
  | some h => exact .some (hfg _ _ h)

/-- A map in which a colour has a number is ready for more. -/
theorem isReady_of_number {frozen : Option (List String)} {color : String} {n : Nat} {m : ColorMap}
    (h : (frozen.elim .empty .freeze : ColorMap).number (some color) = .ok (n, m)) :
    (frozen.elim .empty .freeze : ColorMap).IsReady := by
  refine ⟨ColorMap.coherent_after frozen [], ?_⟩
  cases frozen with
  | none => exact Nat.zero_lt_one
  | some colors =>
    cases colors with
    | nil => cases h
    | cons first rest => exact Nat.succ_pos _

/-- **Every theme reads as its definition**, whatever numbers its colours have. -/
theorem readsAs_of_ofDefinition {d : Definition} {frozen : Option (List String)} {theme : Theme}
    (h : ofDefinition d frozen = .ok theme) : theme.ReadsAs d := by
  obtain ⟨m₁, m₂, hfont, hfore, hback, hfold⟩ := exists_of_ofDefinition h
  obtain ⟨hready₁, -, hforeground⟩ := (isReady_of_number hfore).number hfore
  obtain ⟨hready₂, hle', hbackground⟩ := hready₁.number hback
  obtain ⟨hreads, hmap⟩ := (reads_nil hready₂).foldlM d.pairwise_scopedRules hfold
  refine ⟨⟨hfont, hforeground.mono (hle'.trans hmap), hbackground.mono hmap⟩, fun path => ?_⟩
  have hfind := (hreads.shows (Scope.segments path.name)).find? (fits path.ancestors ·)
  rw [List.nil_append] at hfind
  exact rel_map (fun _ _ h => h.style) hfind

/-- **A theme shows a look at a path**: there is a style for the path, and it has the look in the
colours of the theme. -/
def ShowsAt (theme : Theme) (path : ScopePath) (look : Look) : Prop :=
  ∃ style, theme.styleOf? path = some style ∧ style.Shows theme.colorMap look

theorem ReadsAs.showsAt {theme : Theme} {d : Definition} (h : theme.ReadsAs d) {path : ScopePath}
    {look : Look} (hlook : lookFor? d.scopedRules path = some look) : theme.ShowsAt path look := by
  have hstyle := h.styleOf? path
  rw [hlook] at hstyle
  rw [ShowsAt]
  cases hfind : theme.styleOf? path with
  | none => rw [hfind] at hstyle; cases hstyle
  | some style =>
    rw [hfind] at hstyle
    obtain ⟨hshows⟩ := hstyle
    exact ⟨style, rfl, hshows⟩

end Highlight.Theme
