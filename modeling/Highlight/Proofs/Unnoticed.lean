import Highlight.Proofs.Settled

/-!
# What is kept makes no difference

Reading a line from two faithful caches does the same, as long as no rule that refers back is used
without its closing text. That is so wherever the stack is settled: what is found then is told
without the cache, and so reading respects that two readings are **alike**, which have cut the same
and have faithful caches, whichever these are.
-/

namespace Highlight

open Grammar

variable {σ : Type}

/-- **Two readings are alike**: they have cut the same, and their caches are faithful. -/
structure Reading.Alike (plan : Plan) (table : RuleTable) (s t : Reading σ) : Prop where
  /-- The segments. -/
  segments : s.segments = t.segments
  /-- The one cache. -/
  left : s.searching.cache.Faithful plan table
  /-- The other. -/
  right : t.searching.cache.Faithful plan table

namespace LineReader

variable {plan : Plan} {r : LineReader σ} {text : String}

/-- The steps of a reader that overlook what is kept in its cache. -/
abbrev Unnoticed (plan : Plan) (r : LineReader σ) {α : Type} (x : Read σ α) (q : α → Prop) : Prop :=
  Overlooks (Reading.Alike plan r.rules.table) x q

namespace Unnoticed

/-- A search overlooks the cache if what it finds is told without it. -/
theorem search {α : Type} {x : Search σ α} {outcome : Except Refusal α}
    (h : Ensures (fun s => s.cache.Faithful plan r.rules.table) x
      (fun a s => s.cache.Faithful plan r.rules.table ∧ outcome = .ok a)
      (fun e s => s.cache.Faithful plan r.rules.table ∧ outcome = .error e)) :
    Parallel (Reading.Alike plan r.rules.table) (Read.search x) (Read.search x)
      (fun a => outcome = .ok a) := by
  intro s t hst
  rw [Read.run_search, Read.run_search]
  cases hs : x.run s.searching with
  | ok a s' =>
    obtain ⟨hs', ha⟩ := h.ok hst.left hs
    cases ht : x.run t.searching with
    | ok b t' =>
      obtain ⟨ht', hb⟩ := h.ok hst.right ht
      exact ⟨Except.ok.inj (ha.symm.trans hb), ha, hst.segments, hs', ht'⟩
    | error e t' => exact absurd (ha.symm.trans (h.error hst.right ht).2) (by simp)
  | error e s' =>
    obtain ⟨hs', he⟩ := h.error hst.left hs
    cases ht : x.run t.searching with
    | ok b t' => exact absurd (he.symm.trans (h.ok hst.right ht).2) (by simp)
    | error e' t' =>
      obtain ⟨ht', he'⟩ := h.error hst.right ht
      exact ⟨congrArg _ (Except.error.inj (he.symm.trans he')), hst.segments, hs', ht'⟩

/-- **Reading respects that two readings are alike.** -/
theorem respects (hplan : r.engine.KeepsTo plan) :
    r.Respects (Reading.Alike plan r.rules.table) where
  cut := fun g => Parallel.modifyGet (fun s t h => by
    rw [h.segments]
    exact ⟨rfl, trivial, rfl, h.left, h.right⟩)
  inside := fun text c _ _ hknown =>
    (search (Search.inside_asPlanned hplan hknown c.anchors text c.position)).mono
      (fun _ hm _ hm' => RuleTable.role_mem_of_search (Option.mem_def.1 hm' ▸ hm))
  continuing := fun text c =>
    (search (Search.continuing_asPlanned hplan _ _ c.anchors text c.position)).mono
      (fun _ _ => trivial)

/-- **Reading a line** from a state whose closing texts are known. -/
theorem readLine (htable : r.rules.table.Sound) (hplan : r.engine.KeepsTo plan)
    (htimely : r.rules.Timely) {s : LineState} (hs : s.AllKnown r.rules) (first : Bool)
    (budget : Option Nat) : r.Unnoticed plan (r.readLine text s first budget) (fun _ => True) :=
  ((respects hplan).readLine htable htimely hs first budget).overlooks

end Unnoticed

end LineReader

end Highlight
