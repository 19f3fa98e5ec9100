import Highlight.Attribution
import Highlight.Line.State

/-!
# Frames that stand on each other

The scopes of a frame are those of the frame below it and some more, since they were made by
pushing onto them. So the scopes of all frames lie on one path, that of the top frame, and a state
whose frames stand on each other in this way is **sound**. Every operation on states keeps that:
a frame is only ever put on top, the scopes between its delimiters only ever become those of its
delimiters or more, and the frame of the grammar as a whole stays where it is.

What else is known of the scopes is a parameter. It may be anything that pushing keeps.
-/

namespace Highlight

open Grammar (RuleId)

namespace AttributedPath

/-- The scopes of a path with their attributes, innermost first. -/
def scopes (p : AttributedPath) : List AttributedScope := p.top :: p.outer

/-- **A path extends another**: it has the scopes of the other, and maybe more inside. -/
def Extends (q p : AttributedPath) : Prop := p.scopes <:+ q.scopes

theorem ext_scopes {p q : AttributedPath} (h : p.scopes = q.scopes) : p = q := by
  obtain ⟨top, outer⟩ := p
  obtain ⟨top', outer'⟩ := q
  obtain ⟨rfl, rfl⟩ : top = top' ∧ outer = outer' := by simpa [scopes] using h
  rfl

theorem names_eq (p : AttributedPath) : p.names = (p.scopes.map (·.name)).reverse := rfl

namespace Extends

theorem refl (p : AttributedPath) : p.Extends p := List.suffix_rfl

theorem trans {p q r : AttributedPath} (h : r.Extends q) (h' : q.Extends p) : r.Extends p :=
  List.IsSuffix.trans h' h

/-- The names of a path are the first ones of a path that extends it. -/
theorem names {p q : AttributedPath} (h : q.Extends p) : p.names <+: q.names := by
  rw [names_eq, names_eq, List.reverse_prefix]
  exact h.map _

/-- What a path extends is told by how many scopes it has. -/
theorem eq_of_length {p p' q : AttributedPath} (h : q.Extends p) (h' : q.Extends p')
    (hlen : p.scopes.length = p'.scopes.length) : p = p' :=
  ext_scopes ((List.suffix_of_suffix_length_le h h' (Nat.le_of_eq hlen)).eq_of_length hlen)

end Extends

end AttributedPath

namespace Attribution

/-- A property of paths is **kept by pushing** scopes. -/
def Keeps (a : Attribution) (good : AttributedPath → Prop) : Prop :=
  ∀ p scope, good p → good (a.pushScope p scope)

/-- What is kept by pushing a scope is kept by pushing those of a name. -/
theorem Keeps.push {a : Attribution} {good : AttributedPath → Prop} (h : a.Keeps good)
    {p : AttributedPath} (name : Option String) (hp : good p) : good (a.push p name) := by
  cases name with
  | none => exact hp
  | some name =>
    rw [Attribution.push]
    generalize Text.split ' ' name = names
    induction names generalizing p with
    | nil => exact hp
    | cons scope names ih => exact ih (h p scope hp)

theorem keeps_true (a : Attribution) : a.Keeps (fun _ => True) := fun _ _ _ => trivial

theorem keeps_extends (a : Attribution) (base : AttributedPath) :
    a.Keeps (fun p => p.Extends base) :=
  fun p scope hp =>
    have hcons : (a.pushScope p scope).Extends p := List.suffix_cons _ _
    hcons.trans hp

theorem push_extends (a : Attribution) (p : AttributedPath) (name : Option String) :
    (a.push p name).Extends p :=
  (a.keeps_extends p).push name (.refl p)

end Attribution

namespace LineState

/-! ## The states that remain -/

theorem self_mem_chain (s : LineState) : s ∈ s.chain := by
  obtain ⟨top, below⟩ := s
  cases below with
  | nil => exact List.mem_singleton_self _
  | cons f fs => exact List.mem_cons_self

/-- Taking one more frame away leads to a state that remains. -/
theorem pop_mem_chain {s s' : LineState} (h : s' ∈ s.chain) : s'.pop ∈ s.chain := by
  obtain ⟨top, below⟩ := s
  rw [LineState.chain] at h ⊢
  induction below generalizing top with
  | nil =>
    rw [List.mem_singleton.1 h]
    exact List.mem_singleton_self _
  | cons f fs ih =>
    obtain rfl | h := List.mem_cons.1 h
    · exact List.mem_cons_of_mem _ (self_mem_chain ⟨f, fs⟩)
    · exact List.mem_cons_of_mem _ (ih f h)

/-- What is kept by taking the top frame away holds of all states that remain. -/
theorem forall_mem_chain {holds : LineState → Prop} (hpop : ∀ s, holds s → holds s.pop)
    {s : LineState} (hs : holds s) : ∀ s' ∈ s.chain, holds s' := by
  obtain ⟨top, below⟩ := s
  rw [LineState.chain]
  induction below generalizing top with
  | nil =>
    intro s' hs'
    rw [List.mem_singleton.1 hs']
    exact hs
  | cons f fs ih =>
    intro s' hs'
    obtain rfl | hs' := List.mem_cons.1 hs'
    · exact hs
    · exact ih f (hpop _ hs) s' hs'

/-! ## Soundness -/

/-- **A state is sound**: its lowest frame is that of a rule and ends with no pattern, the scopes
of every frame extend those of the frames below it, and all scopes are good. -/
structure Sound (root : RuleId) (good : AttributedPath → Prop) (s : LineState) : Prop where
  /-- The lowest frame. -/
  lowest : ∀ f ∈ s.frames.getLast?, f.rule = root ∧ f.closing = none
  /-- The frames stand on each other. -/
  standing : s.frames.Pairwise (fun f g => f.nameScopes.Extends g.contentScopes)
  /-- What is between the delimiters of a frame extends what the delimiters have. -/
  inside : ∀ f ∈ s.frames, f.contentScopes.Extends f.nameScopes
  /-- The scopes are good. -/
  good : ∀ f ∈ s.frames, good f.nameScopes ∧ good f.contentScopes

namespace Sound

variable {root : RuleId} {good : AttributedPath → Prop} {s : LineState}

theorem top_mem (s : LineState) : s.top ∈ s.frames := List.mem_cons_self

theorem initial {scopes : AttributedPath} (h : good scopes) :
    (LineState.initial root scopes).Sound root good where
  lowest := by simp [LineState.initial, frames]
  standing := by simp [LineState.initial, frames]
  inside := by simp [LineState.initial, frames, AttributedPath.Extends.refl]
  good := by simp [LineState.initial, frames, h]

theorem mono (h : s.Sound root good) {good' : AttributedPath → Prop}
    (hgood : ∀ p, good p → good' p) : s.Sound root good' where
  lowest := h.lowest
  standing := h.standing
  inside := h.inside
  good := fun f hf => (h.good f hf).imp (hgood _) (hgood _)

/-- A frame whose scopes extend those on top may be put on top. -/
theorem push (h : s.Sound root good) {f : Frame}
    (hname : f.nameScopes.Extends s.top.contentScopes)
    (hcontent : f.contentScopes.Extends f.nameScopes)
    (hgood : good f.nameScopes ∧ good f.contentScopes) : (s.push f).Sound root good where
  lowest := by
    simpa [LineState.push, frames] using h.lowest
  standing := by
    refine List.pairwise_cons.2 ⟨fun g hg => ?_, h.standing⟩
    obtain rfl | hg := List.mem_cons.1 hg
    · exact hname
    · have hbelow := (List.pairwise_cons.1 h.standing).1 g hg
      exact hname.trans ((h.inside _ (top_mem s)).trans hbelow)
  inside := fun g hg => by
    obtain rfl | hg := List.mem_cons.1 hg
    · exact hcontent
    · exact h.inside g hg
  good := fun g hg => by
    obtain rfl | hg := List.mem_cons.1 hg
    · exact hgood
    · exact h.good g hg

/-- The frames below the top are sound by themselves. -/
theorem below {f g : Frame} {fs : List Frame} (h : (⟨f, g :: fs⟩ : LineState).Sound root good) :
    (⟨g, fs⟩ : LineState).Sound root good where
  lowest := by
    simpa [frames] using h.lowest
  standing := (List.pairwise_cons.1 h.standing).2
  inside := fun f' hf => h.inside f' (List.mem_cons_of_mem _ hf)
  good := fun f' hf => h.good f' (List.mem_cons_of_mem _ hf)

theorem pop (h : s.Sound root good) : s.pop.Sound root good := by
  obtain ⟨top, below⟩ := s
  cases below with
  | nil => exact h
  | cons f fs => exact h.below

theorem chain (h : s.Sound root good) : ∀ s' ∈ s.chain, s'.Sound root good :=
  forall_mem_chain (fun _ hs' => hs'.pop) h

/-- The scopes between the delimiters on top may become any that extend those of the
delimiters. -/
theorem withContentScopes (h : s.Sound root good) {p : AttributedPath}
    (hp : p.Extends s.top.nameScopes) (hgood : good p) :
    (s.withContentScopes p).Sound root good where
  lowest := by
    have := h.lowest
    obtain ⟨top, below⟩ := s
    cases below with
    | nil => simpa [LineState.withContentScopes, frames] using this
    | cons f fs => simpa [LineState.withContentScopes, frames] using this
  standing := List.pairwise_cons.2 (List.pairwise_cons.1 h.standing)
  inside := fun g hg => by
    obtain rfl | hg := List.mem_cons.1 hg
    · exact hp
    · exact h.inside g (List.mem_cons_of_mem _ hg)
  good := fun g hg => by
    obtain rfl | hg := List.mem_cons.1 hg
    · exact ⟨(h.good _ (top_mem s)).1, hgood⟩
    · exact h.good g (List.mem_cons_of_mem _ hg)

/-- The frame on top may be given a closing pattern, unless it is the lowest. -/
theorem withClosing (h : s.Sound root good) (hbelow : s.below ≠ []) (closing : String) :
    (s.withClosing closing).Sound root good where
  lowest := by
    have := h.lowest
    obtain ⟨top, below⟩ := s
    cases below with
    | nil => exact absurd rfl hbelow
    | cons f fs => simpa [LineState.withClosing, frames] using this
  standing := List.pairwise_cons.2 (List.pairwise_cons.1 h.standing)
  inside := fun g hg => by
    obtain rfl | hg := List.mem_cons.1 hg
    · exact h.inside s.top (top_mem s)
    · exact h.inside g (List.mem_cons_of_mem _ hg)
  good := fun g hg => by
    obtain rfl | hg := List.mem_cons.1 hg
    · exact h.good s.top (top_mem s)
    · exact h.good g (List.mem_cons_of_mem _ hg)

theorem reset (h : s.Sound root good) : s.reset.Sound root good := by
  have hframes := s.frames_reset
  refine ⟨?_, ?_, ?_, ?_⟩
  · intro f hf
    rw [hframes, List.getLast?_map] at hf
    obtain ⟨g, hg, rfl⟩ := Option.map_eq_some_iff.1 hf
    exact h.lowest g hg
  · rw [hframes]
    exact List.pairwise_map.2 h.standing
  · rw [hframes]
    exact List.forall_mem_map.2 h.inside
  · rw [hframes]
    exact List.forall_mem_map.2 h.good

/-- The lowest frame, where there is no other. -/
theorem rule_eq_root (h : s.Sound root good) (hbelow : s.below = []) : s.top.rule = root := by
  refine (h.lowest s.top ?_).1
  simp [frames, hbelow]

end Sound

end LineState

end Highlight
