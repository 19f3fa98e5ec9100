import Highlight.Theme.Basic
import Mathlib.Data.List.Chain

/-!
# Which scopes the names of a rule stand for

The names around the scope of a rule ask for scopes around the styled one: each name for a scope
further out than the scope of the name before it, and for the very next one after a `>`. A rule
applies if its names can be **assigned** to the scopes around in this way.

The search for an assignment gives each name the nearest scope that fits, and never takes that
back. Where no `>` is to come, this loses nothing: what a farther scope leaves to the names behind,
the nearest one leaves too. In front of a `>` it does: `p > q z` asks for a `q` directly inside a
`p`, the search settles for the innermost `q`, and if that one has no `p` directly around it, the
rule does not apply, although a `q` farther out has one. So the search is exact for a list of
parents if and only if no name without a `>` is followed by one with a `>`.
-/

namespace Highlight.Theme

/-! ## Assignments -/

/-- **A name asked for around a scope.** -/
structure Asked where
  /-- The name. -/
  name : String
  /-- It has a `>`: its scope is directly around the scope of the name before. -/
  direct : Bool

/-- The names that a list of parents asks for, nearest first. -/
def asked : List String → List Asked
  | [] => []
  | ">" :: p :: parents => ⟨p, true⟩ :: asked parents
  | p :: parents => ⟨p, false⟩ :: asked parents

/-- Each `>` of a list of parents is followed by a name. -/
def ArrowsHaveNames (parents : List String) : Prop :=
  ∀ i < parents.length, parents[i]? = some ">" → ∃ name ∈ parents[i + 1]?, name ≠ ">"

instance (parents : List String) : Decidable (ArrowsHaveNames parents) :=
  inferInstanceAs (Decidable (∀ i < parents.length, _))

/-- **Names are assigned to scopes**, nearest first: each to one that it covers, further out than
the one before. In between, a name passes over the scopes that it may pass over. -/
inductive Assigned (passes : Asked → String → Prop) : List String → List Asked → Prop
  /-- No name is left. -/
  | done {ancestors : List String} : Assigned passes ancestors []
  /-- The next name goes to a scope behind some that it passes over. -/
  | next {passed : List String} {scope : String} {ancestors : List String} {n : Asked}
      {ns : List Asked} (hpassed : ∀ x ∈ passed, passes n x)
      (hscope : Scope.coveredBy scope n.name = true) (hrest : Assigned passes ancestors ns) :
      Assigned passes (passed ++ scope :: ancestors) (n :: ns)

/-- A name without a `>` may pass over any scope. -/
def Asked.IsFree (n : Asked) (_scope : String) : Prop := n.direct = false

/-- The search passes over a scope only if the name does not cover it. -/
def Asked.Skips (n : Asked) (scope : String) : Prop :=
  n.direct = false ∧ Scope.coveredBy scope n.name = false

/-- **The parents can be assigned to the scopes around.** -/
def Assignable (ancestors parents : List String) : Prop :=
  Assigned Asked.IsFree ancestors (asked parents)

/-- The parents are assigned with each name without a `>` at the nearest scope that it covers. -/
def AssignedNearest (ancestors parents : List String) : Prop :=
  Assigned Asked.Skips ancestors (asked parents)

/-- **The `>` come first**: no name without a `>` is followed by one with a `>`. -/
def ArrowsFirst (parents : List String) : Prop :=
  (asked parents).IsChain fun n m => n.direct = false → m.direct = false

namespace Assigned

variable {passes : Asked → String → Prop} {ancestors : List String} {n : Asked} {ns : List Asked}

theorem mono {passes' : Asked → String → Prop} (hpass : ∀ n x, passes n x → passes' n x)
    (h : Assigned passes ancestors ns) : Assigned passes' ancestors ns := by
  induction h with
  | done => exact .done
  | next hpassed hscope _ ih => exact .next (fun x hx => hpass _ x (hpassed x hx)) hscope ih

theorem not_nil : ¬ Assigned passes [] (n :: ns) := by
  intro h
  generalize hanc : ([] : List String) = anc at h
  cases h with
  | next => simp at hanc

theorem take {scope : String} (hscope : Scope.coveredBy scope n.name = true)
    (h : Assigned passes ancestors ns) : Assigned passes (scope :: ancestors) (n :: ns) :=
  @next passes [] scope ancestors n ns (by simp) hscope h

theorem pass {scope : String} (hpass : passes n scope) (h : Assigned passes ancestors (n :: ns)) :
    Assigned passes (scope :: ancestors) (n :: ns) := by
  cases h with
  | @next passed found outer _ _ hpassed hscope hrest =>
    have hall := List.forall_mem_cons.2 ⟨hpass, hpassed⟩
    exact .next hall hscope hrest

/-- The nearest scope is the one of the next name, or is passed over. -/
theorem cons_iff {scope : String} :
    Assigned passes (scope :: ancestors) (n :: ns) ↔
      Scope.coveredBy scope n.name = true ∧ Assigned passes ancestors ns ∨
        passes n scope ∧ Assigned passes ancestors (n :: ns) := by
  refine ⟨fun h => ?_, fun h => h.elim (fun h => take h.1 h.2) (fun h => pass h.1 h.2)⟩
  generalize hanc : scope :: ancestors = anc at h
  cases h with
  | @next passed found outer _ _ hpassed hscope hrest =>
    cases passed with
    | nil =>
      obtain ⟨rfl, rfl⟩ := List.cons.inj hanc
      exact .inl ⟨hscope, hrest⟩
    | cons x passed =>
      obtain ⟨rfl, rfl⟩ := List.cons.inj hanc
      obtain ⟨hx, hpassed⟩ := List.forall_mem_cons.1 hpassed
      exact .inr ⟨hx, .next hpassed hscope hrest⟩

/-- Each name is at a scope of its own name, one after the other. -/
theorem names : Assigned passes (ns.map (·.name)) ns := by
  induction ns with
  | nil => exact .done
  | cons n ns ih => exact take (Scope.coveredBy_iff.2 (.inl rfl)) ih

/-- Names without a `>` can do without the scopes in front of theirs. -/
theorem beyond (hfree : ∀ m ∈ ns, m.direct = false) (passed : List String)
    (h : Assigned Asked.IsFree ancestors ns) : Assigned Asked.IsFree (passed ++ ancestors) ns := by
  induction passed with
  | nil => exact h
  | cons x passed ih =>
    cases ns with
    | nil => exact .done
    | cons m ns => exact pass (hfree m List.mem_cons_self) ih

/-- The first name can be left out in front of names without a `>`. -/
theorem tail (hfree : ∀ m ∈ ns, m.direct = false) (h : Assigned Asked.IsFree ancestors (n :: ns)) :
    Assigned Asked.IsFree ancestors ns := by
  cases h with
  | @next passed scope outer _ _ _ _ hrest =>
    have h := hrest.beyond hfree (passed ++ [scope])
    rwa [List.append_assoc] at h

end Assigned

/-! ## What the search finds -/

theorem ArrowsHaveNames.tail {p : String} {parents : List String}
    (h : ArrowsHaveNames (p :: parents)) : ArrowsHaveNames parents :=
  fun i hi => h (i + 1) (Nat.succ_lt_succ hi)

theorem asked_cons {p : String} {parents : List String}
    (hp : ∀ q rest, p = ">" → parents = q :: rest → False) :
    asked (p :: parents) = ⟨p, false⟩ :: asked parents := by
  rw [asked]
  exact hp

theorem exists_asked_cons (p : String) (parents : List String) :
    ∃ n ns, asked (p :: parents) = n :: ns := by
  rw [asked.eq_def]
  split
  · contradiction
  · exact ⟨_, _, rfl⟩
  · next h => exact (List.cons.inj h).2 ▸ ⟨_, _, rfl⟩

/-- **The search gives each name the nearest scope that it covers.** -/
theorem fits_iff_assignedNearest {parents : List String} (h : ArrowsHaveNames parents)
    (ancestors : List String) :
    fits ancestors parents = true ↔ AssignedNearest ancestors parents := by
  unfold AssignedNearest
  fun_induction fits ancestors parents with
  | case1 => exact iff_of_true rfl .done
  | case2 =>
    obtain ⟨name, hname, -⟩ := h 0 (by simp) rfl
    simp at hname
  | case3 p parents =>
    obtain ⟨n, ns, hn⟩ := exists_asked_cons p parents
    exact iff_of_false Bool.false_ne_true (hn ▸ Assigned.not_nil)
  | case4 scope ancestors p parents ih =>
    rw [asked, Assigned.cons_iff, Bool.and_eq_true, ih h.tail.tail]
    simp [Asked.Skips]
  | case5 scope ancestors p parents _ hp hcov ih =>
    rw [asked_cons hp, Assigned.cons_iff, ih h.tail]
    simp [Asked.Skips, hcov]
  | case6 scope ancestors p parents _ hp hcov ih =>
    rw [ih h, asked_cons hp, Assigned.cons_iff]
    simp [Asked.Skips, hcov]

/-! ## Where nothing is lost -/

/-- Behind a name without a `>`, where the `>` come first, all names are without one. -/
theorem direct_of_arrowsFirst {n : Asked} {ns : List Asked}
    (h : (n :: ns).IsChain fun n m => n.direct = false → m.direct = false)
    (hn : n.direct = false) : ∀ m ∈ ns, m.direct = false := by
  induction ns generalizing n with
  | nil => simp
  | cons m ns ih =>
    obtain ⟨hnm, h⟩ := List.isChain_cons_cons.1 h
    exact List.forall_mem_cons.2 ⟨hnm hn, ih h (hnm hn)⟩

/-- **Where the `>` come first, the nearest scopes serve if any do.** What is assigned behind the
nearest scope that a name covers can stay as it is when the name moves there. -/
theorem Assigned.nearest {ancestors : List String} {ns : List Asked}
    (h : Assigned Asked.IsFree ancestors ns)
    (hfirst : ns.IsChain fun n m => n.direct = false → m.direct = false) :
    Assigned Asked.Skips ancestors ns := by
  induction ancestors generalizing ns with
  | nil =>
    cases ns with
    | nil => exact .done
    | cons n ns => exact absurd h not_nil
  | cons scope ancestors ih =>
    cases ns with
    | nil => exact .done
    | cons n ns =>
      rw [cons_iff] at h ⊢
      rcases h with ⟨hscope, h⟩ | ⟨hfree, h⟩
      · exact .inl ⟨hscope, ih h hfirst.tail⟩
      · by_cases hscope : Scope.coveredBy scope n.name = true
        · have h := h.tail (direct_of_arrowsFirst hfirst hfree)
          exact .inl ⟨hscope, ih h hfirst.tail⟩
        · exact .inr ⟨⟨hfree, Bool.eq_false_iff.2 hscope⟩, ih h hfirst⟩

/-- Some scope is not covered by a name. -/
theorem exists_not_coveredBy (name : String) : ∃ scope, Scope.coveredBy scope name = false := by
  refine ⟨String.ofList (name.toList ++ ['x']), Bool.eq_false_iff.2 fun h => ?_⟩
  rcases Scope.coveredBy_iff.1 h with hsame | ⟨rest, hrest⟩
  · simpa using congrArg (·.toList.length) hsame
  · simp at hrest

/-- Only lists in which the `>` come first are served that way: in front of a `>`, the search can
be led to a nearest scope that has the wrong one around it. -/
theorem arrowsFirst_of_forall_nearest {ns : List Asked}
    (h : ∀ ancestors, Assigned Asked.IsFree ancestors ns → Assigned Asked.Skips ancestors ns) :
    ns.IsChain fun n m => n.direct = false → m.direct = false := by
  induction ns with
  | nil => exact .nil
  | cons n ns ih =>
    -- Behind a scope of its own name, the first name is out of the way.
    have hown : Scope.coveredBy n.name n.name = true := Scope.coveredBy_iff.2 (.inl rfl)
    have hrest : ∀ ancestors, Assigned Asked.Skips (n.name :: ancestors) (n :: ns) →
        Assigned Asked.Skips ancestors ns := by
      intro ancestors hn
      rcases Assigned.cons_iff.1 hn with ⟨-, hns⟩ | ⟨hskip, -⟩
      · exact hns
      · exact absurd hown (Bool.eq_false_iff.1 hskip.2)
    have hchain := ih fun ancestors hns => hrest ancestors (h _ (.take hown hns))
    cases ns with
    | nil => exact .singleton n
    | cons m ns =>
      refine List.isChain_cons_cons.2 ⟨fun hfree => ?_, hchain⟩
      obtain ⟨z, hz⟩ := exists_not_coveredBy m.name
      have hfar : Assigned Asked.IsFree (n.name :: z :: n.name :: (m :: ns).map (·.name))
          (n :: m :: ns) := .pass hfree (.pass hfree (.take hown .names))
      rcases Assigned.cons_iff.1 (hrest _ (h _ hfar)) with ⟨hm, -⟩ | ⟨hskip, -⟩
      · exact absurd hm (Bool.eq_false_iff.1 hz)
      · exact hskip.1

/-- **The search for parents is right when it finds, and exact if and only if the `>` come
first.** -/
theorem fits_exact_iff {parents : List String} (h : ArrowsHaveNames parents) :
    (∀ ancestors, fits ancestors parents = true → Assignable ancestors parents) ∧
      ((∀ ancestors, fits ancestors parents = true ↔ Assignable ancestors parents) ↔
        ArrowsFirst parents) := by
  have hsound : ∀ ancestors, AssignedNearest ancestors parents → Assignable ancestors parents :=
    fun ancestors => Assigned.mono fun _ _ hskip => hskip.1
  simp only [fits_iff_assignedNearest h]
  refine ⟨hsound, fun hexact => ?_, fun hfirst ancestors => ?_⟩
  · exact arrowsFirst_of_forall_nearest fun ancestors => (hexact ancestors).2
  · exact ⟨hsound ancestors, fun hassigned => hassigned.nearest hfirst⟩

/-- For `p > q z`, the innermost `q` around the `z` in `p q x q z` has an `x` directly around it,
but the other one has a `p`. -/
theorem not_fits_exact_detour :
    ¬ ∀ ancestors parents, ArrowsHaveNames parents →
        (fits ancestors parents = true ↔ Assignable ancestors parents) := by
  intro h
  have hfar : Assignable ["q", "x", "q", "p"] ["q", ">", "p"] :=
    .pass rfl (.pass rfl (.take (by decide) (.take (by decide) .done)))
  have hfits := (h ["q", "x", "q", "p"] ["q", ">", "p"] (by decide)).2 hfar
  exact absurd hfits (by decide)

/-- Asked directly around the styled scope, the `>` of `p q > z` comes first. -/
theorem fits_exact_iff_arrow :
    ArrowsHaveNames [">", "q", "p"] ∧
      ∀ ancestors, fits ancestors [">", "q", "p"] = true ↔ Assignable ancestors [">", "q", "p"] :=
  ⟨by decide, (fits_exact_iff (by decide)).2.2 (by simp [ArrowsFirst, asked])⟩

end Highlight.Theme
