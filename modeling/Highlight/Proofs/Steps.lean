/-!
# What steps keep

Compiling a grammar and reading a line are sequences of steps that change a state and may fail.
What such a sequence keeps is shown step by step: a step **ensures** something of its result and
its state, or of its error and its state, and of steps in sequence the second begins where the
first ended.

Two sequences may also be compared. The steps that read a line are given as an argument how the
text of a group is read on, and changing that argument may change what they do only where the
argument is called. A step **follows** another if it does the same, except that it may give up
with one of certain errors. A step that never gives up and follows itself just ensures what it is
said to, so both notions are shown by one walk through the sequence.

A third notion compares two sequences that are run from two states. They run **in parallel** if
what tells the states apart is not to be seen in their results or their errors. A sequence that runs
in parallel with itself **overlooks** it.
-/

namespace Highlight

variable {ε ρ α β : Type}

/-- **A step ensures**, from a state where `P` holds, that `Q` holds of its result and its
state, or that `E` holds of its error and its state. -/
def Ensures (P : ρ → Prop) (x : EStateM ε ρ α) (Q : α → ρ → Prop) (E : ε → ρ → Prop) :
    Prop :=
  ∀ s, P s → match x.run s with
    | .ok a s' => Q a s'
    | .error e s' => E e s'

/-- **A step follows another** from a state where `P` holds: it gives up with an error in
`quits`, or both have the same result in the same state, where `Q` holds, or both fail with the
same error in the same state, where `E` holds. -/
def Follows (quits : ε → Prop) (P : ρ → Prop) (x y : EStateM ε ρ α) (Q : α → ρ → Prop)
    (E : ε → ρ → Prop) : Prop :=
  ∀ s, P s → match x.run s with
    | .ok a s' => y.run s = .ok a s' ∧ Q a s'
    | .error e s' => quits e ∨ (y.run s = .error e s' ∧ E e s')

variable {quits : ε → Prop} {P P' : ρ → Prop} {x y : EStateM ε ρ α}
  {Q Q' : α → ρ → Prop} {E E' : ε → ρ → Prop}

namespace Ensures

/-- A step follows itself. -/
theorem follows (h : Ensures P x Q E) : Follows quits P x x Q E := by
  intro s hs
  have := h s hs
  cases hx : x.run s with
  | ok a s' => exact ⟨rfl, by simpa only [hx] using this⟩
  | error e s' => exact .inr ⟨rfl, by simpa only [hx] using this⟩

theorem ok {s s' : ρ} {a : α} (h : Ensures P x Q E) (hs : P s)
    (hx : x.run s = .ok a s') : Q a s' := by
  have := h s hs
  simpa only [hx] using this

theorem error {s s' : ρ} {e : ε} (h : Ensures P x Q E) (hs : P s)
    (hx : x.run s = .error e s') : E e s' := by
  have := h s hs
  simpa only [hx] using this

theorem mono (h : Ensures P x Q E) (hpre : ∀ s, P' s → P s)
    (hpost : ∀ a s, Q a s → Q' a s) (hfail : ∀ e s, E e s → E' e s) :
    Ensures P' x Q' E' := by
  intro s hs
  cases hx : x.run s with
  | ok a s' => exact hpost a s' (h.ok (hpre s hs) hx)
  | error e s' => exact hfail e s' (h.error (hpre s hs) hx)

theorem trivial : Ensures P x (fun _ _ => True) (fun _ _ => True) := by
  intro s _
  cases x.run s <;> exact True.intro

/-- What is known beforehand without regard to the state may be assumed. -/
theorem assuming {p : Prop} (h : p → Ensures P x Q E) :
    Ensures (fun s => P s ∧ p) x Q E :=
  fun s hs => h hs.2 s hs.1

theorem pure {a : α} (h : ∀ s, P s → Q a s) :
    Ensures P (Pure.pure a : EStateM ε ρ α) Q E := h

theorem throw {e : ε} (h : ∀ s, P s → E e s) :
    Ensures P (MonadExcept.throw e : EStateM ε ρ α) Q E := h

theorem modifyGet {f : ρ → α × ρ} (h : ∀ s, P s → Q (f s).1 (f s).2) :
    Ensures P (MonadStateOf.modifyGet f : EStateM ε ρ α) Q E := h

theorem bind {f : α → EStateM ε ρ β} {M : α → ρ → Prop} {Q : β → ρ → Prop}
    (hx : Ensures P x M E) (hf : ∀ a, Ensures (M a) (f a) Q E) :
    Ensures P (x >>= f) Q E := by
  intro s hs
  rw [EStateM.run_bind]
  cases h : x.run s with
  | ok a s' => exact hf a s' (hx.ok hs h)
  | error e s' => exact hx.error hs h

theorem map {f : α → β} {M : α → ρ → Prop} {Q : β → ρ → Prop} (hx : Ensures P x M E)
    (hf : ∀ a s, M a s → Q (f a) s) : Ensures P (f <$> x) Q E := by
  rw [map_eq_pure_bind]
  exact hx.bind (fun a => Ensures.pure (hf a))

/-- What is kept by a step for each element of a list is kept by all of them in turn. -/
theorem mapM {f : α → EStateM ε ρ β} {list : List α}
    (h : ∀ a ∈ list, Ensures P (f a) (fun _ => P) E) :
    Ensures P (list.mapM f) (fun _ => P) E := by
  induction list with
  | nil => exact Ensures.pure (fun s hs => hs)
  | cons a list ih =>
    obtain ⟨ha, hlist⟩ := List.forall_mem_cons.1 h
    rw [List.mapM_cons]
    exact ha.bind (fun b => (ih hlist).bind (fun bs => Ensures.pure (fun s hs => hs)))

/-- What is kept by a step for the value of an option, if it has one, is kept. -/
theorem optionMapM {f : α → EStateM ε ρ β} {o : Option α}
    (h : ∀ a ∈ o, Ensures P (f a) (fun _ => P) E) :
    Ensures P (o.mapM f) (fun _ => P) E := by
  cases o with
  | none => exact Ensures.pure (fun s hs => hs)
  | some a => exact (h a rfl).map (fun b s hs => hs)

end Ensures

namespace Follows

/-- A step that follows and never gives up ensures what it is said to. -/
theorem ensures (h : Follows (fun _ => False) P x y Q E) : Ensures P x Q E := by
  intro s hs
  have := h s hs
  cases hx : x.run s with
  | ok a s' => exact (by simpa only [hx] using this : y.run s = .ok a s' ∧ Q a s').2
  | error e s' =>
    exact (by simpa only [hx, false_or] using this : y.run s = .error e s' ∧ E e s').2

/-- A step that follows and does not give up does the same. -/
theorem run_eq {s : ρ} (h : Follows quits P x y Q E) (hs : P s)
    (hx : ∀ e s', x.run s = .error e s' → ¬ quits e) : y.run s = x.run s := by
  have := h s hs
  cases hxs : x.run s with
  | ok a s' => exact (by simpa only [hxs] using this : y.run s = .ok a s' ∧ Q a s').1
  | error e s' =>
    obtain hq | ⟨hy, -⟩ :=
      (by simpa only [hxs] using this : quits e ∨ y.run s = .error e s' ∧ E e s')
    · exact absurd hq (hx e s' hxs)
    · exact hy

theorem mono (h : Follows quits P x y Q E) (hpre : ∀ s, P' s → P s)
    (hpost : ∀ a s, Q a s → Q' a s) (hfail : ∀ e s, E e s → E' e s) :
    Follows quits P' x y Q' E' := by
  intro s hs
  have := h s (hpre s hs)
  cases hx : x.run s with
  | ok a s' =>
    simp only [hx] at this
    exact ⟨this.1, hpost a s' this.2⟩
  | error e s' =>
    simp only [hx] at this
    exact this.imp_right (fun h => ⟨h.1, hfail e s' h.2⟩)

/-- What is known beforehand without regard to the state may be assumed. -/
theorem assuming {p : Prop} (h : p → Follows quits P x y Q E) :
    Follows quits (fun s => P s ∧ p) x y Q E :=
  fun s hs => h hs.2 s hs.1

/-- A step also follows what does the same as the step that it follows. -/
theorem congr {z : EStateM ε ρ α} (h : Follows quits P x y Q E)
    (hz : ∀ s, P s → z.run s = y.run s) : Follows quits P x z Q E := by
  intro s hs
  rw [hz s hs]
  exact h s hs

/-- A step also follows what is followed in turn by the step that it follows. -/
theorem trans {z : EStateM ε ρ α} (h : Follows quits P x y Q E)
    (hz : Follows quits P y z (fun _ _ => True) (fun _ _ => True)) : Follows quits P x z Q E := by
  intro s hs
  have hxy := h s hs
  have hyz := hz s hs
  cases hx : x.run s with
  | ok a s' =>
    simp only [hx] at hxy
    simp only [hxy.1] at hyz
    exact ⟨hyz.1, hxy.2⟩
  | error e s' =>
    simp only [hx] at hxy
    obtain hquits | ⟨hy, he⟩ := hxy
    · exact .inl hquits
    · simp only [hy] at hyz
      exact hyz.imp_right (fun hz => ⟨hz.1, he⟩)

theorem throw {e : ε} (h : quits e) :
    Follows quits P (MonadExcept.throw e : EStateM ε ρ α) y Q E := fun _ _ => .inl h

theorem bind {f g : α → EStateM ε ρ β} {M : α → ρ → Prop} {Q : β → ρ → Prop}
    (hx : Follows quits P x y M E)
    (hf : ∀ a, Follows quits (M a) (f a) (g a) Q E) :
    Follows quits P (x >>= f) (y >>= g) Q E := by
  intro s hs
  rw [EStateM.run_bind, EStateM.run_bind]
  have := hx s hs
  cases h : x.run s with
  | ok a s' =>
    simp only [h] at this
    rw [this.1]
    exact hf a s' this.2
  | error e s' =>
    simp only [h] at this
    refine this.imp_right (fun hy => ?_)
    rw [hy.1]
    exact ⟨rfl, hy.2⟩

theorem pure {a : α} (h : ∀ s, P s → Q a s) :
    Follows quits P (Pure.pure a : EStateM ε ρ α) (Pure.pure a) Q E := (Ensures.pure h).follows

theorem map {f : α → β} {M : α → ρ → Prop} {Q : β → ρ → Prop} (hx : Follows quits P x y M E)
    (hf : ∀ a s, M a s → Q (f a) s) : Follows quits P (f <$> x) (f <$> y) Q E := by
  rw [map_eq_pure_bind, map_eq_pure_bind]
  exact hx.bind (fun a => Follows.pure (hf a))

/-- Where the steps for each element of a list follow, all of them in turn do. -/
theorem mapM {f g : α → EStateM ε ρ β} {list : List α}
    (h : ∀ a ∈ list, Follows quits P (f a) (g a) (fun _ => P) E) :
    Follows quits P (list.mapM f) (list.mapM g) (fun _ => P) E := by
  induction list with
  | nil => exact Follows.pure (fun _ hs => hs)
  | cons a list ih =>
    obtain ⟨ha, hlist⟩ := List.forall_mem_cons.1 h
    rw [List.mapM_cons, List.mapM_cons]
    exact ha.bind (fun b => (ih hlist).bind (fun bs => Follows.pure (fun _ hs => hs)))

/-- Where the step for the value of an option follows, if it has one, so does that for the
option. -/
theorem optionMapM {f g : α → EStateM ε ρ β} {o : Option α}
    (h : ∀ a ∈ o, Follows quits P (f a) (g a) (fun _ => P) E) :
    Follows quits P (o.mapM f) (o.mapM g) (fun _ => P) E := by
  cases o with
  | none => exact Follows.pure (fun _ hs => hs)
  | some a => exact (h a rfl).map (fun _ _ hs => hs)

end Follows

/-- **Two steps run in parallel**: from related states they have the same result, of which `Q`
holds, or fail with the same error, and they end in related states again. -/
def Parallel (R : ρ → ρ → Prop) (x y : EStateM ε ρ α) (Q : α → Prop) : Prop :=
  ∀ s t, R s t → match x.run s, y.run t with
    | .ok a s', .ok b t' => a = b ∧ Q a ∧ R s' t'
    | .error e s', .error f t' => e = f ∧ R s' t'
    | _, _ => False

namespace Parallel

variable {R : ρ → ρ → Prop} {q q' : α → Prop}

theorem pure {a : α} (h : q a) :
    Parallel R (Pure.pure a : EStateM ε ρ α) (Pure.pure a) q :=
  fun _ _ hR => ⟨rfl, h, hR⟩

theorem throw {e : ε} :
    Parallel R (MonadExcept.throw e : EStateM ε ρ α) (MonadExcept.throw e) q :=
  fun _ _ hR => ⟨rfl, hR⟩

theorem modifyGet {f : ρ → α × ρ}
    (h : ∀ s t, R s t → (f s).1 = (f t).1 ∧ q (f s).1 ∧ R (f s).2 (f t).2) :
    Parallel R (MonadStateOf.modifyGet f : EStateM ε ρ α) (MonadStateOf.modifyGet f) q := h

theorem mono (h : Parallel R x y q) (hq : ∀ a, q a → q' a) : Parallel R x y q' := by
  intro s t hR
  have := h s t hR
  cases hx : x.run s <;> cases hy : y.run t <;> simp only [hx, hy] at this
  · exact ⟨this.1, hq _ this.2.1, this.2.2⟩
  · exact this

theorem bind {f g : α → EStateM ε ρ β} {p : β → Prop} (hx : Parallel R x y q)
    (hf : ∀ a, q a → Parallel R (f a) (g a) p) : Parallel R (x >>= f) (y >>= g) p := by
  intro s t hR
  rw [EStateM.run_bind, EStateM.run_bind]
  have := hx s t hR
  cases h : x.run s <;> cases h' : y.run t <;> simp only [h, h'] at this
  · obtain ⟨rfl, ha, hR'⟩ := this
    exact hf _ ha _ _ hR'
  · exact this

end Parallel

/-- Two states are the same, and something holds of them. -/
def Same (J : ρ → Prop) (s t : ρ) : Prop := s = t ∧ J s

namespace Same

variable {J : ρ → Prop} {q : α → Prop}

/-- A step runs in parallel with itself from the same state, and keeps what it ensures. -/
theorem parallel (h : Ensures J x (fun a s => J s ∧ q a) (fun _ => J)) :
    Parallel (Same J) x x q := by
  rintro s _ ⟨rfl, hs⟩
  have := h s hs
  cases hx : x.run s with
  | ok a s' =>
    simp only [hx] at this
    exact ⟨rfl, this.2, rfl, this.1⟩
  | error e s' =>
    simp only [hx] at this
    exact ⟨rfl, rfl, this⟩

/-- A step also runs in parallel with what does the same as the step beside it. -/
theorem congr {z : EStateM ε ρ α} (h : Parallel (Same J) x y q)
    (hz : ∀ s, J s → z.run s = y.run s) : Parallel (Same J) x z q := by
  rintro s _ ⟨rfl, hs⟩
  rw [hz s hs]
  exact h s s ⟨rfl, hs⟩

/-- Steps that run in parallel from the same state do the same. -/
theorem run_eq (h : Parallel (Same J) x y q) {s : ρ} (hs : J s) : x.run s = y.run s := by
  have := h s s ⟨rfl, hs⟩
  cases hx : x.run s <;> cases hy : y.run s <;> simp only [hx, hy] at this
  · obtain ⟨rfl, -, rfl, -⟩ := this
    rfl
  · obtain ⟨rfl, rfl, -⟩ := this
    rfl

/-- A step that runs in parallel with another from the same state keeps what holds of it. -/
theorem ensures (h : Parallel (Same J) x y q) :
    Ensures J x (fun a s => J s ∧ q a) (fun _ => J) := by
  intro s hs
  have := h s s ⟨rfl, hs⟩
  cases hx : x.run s <;> cases hy : y.run s <;> simp only [hx, hy] at this
  · obtain ⟨rfl, ha, -, hs'⟩ := this
    exact ⟨hs', ha⟩
  · exact this.2.2

end Same

/-- **A step overlooks** what tells related states apart: from two of them it has the same result,
of which `Q` holds, or fails with the same error, and it ends in related states again. -/
def Overlooks (R : ρ → ρ → Prop) (x : EStateM ε ρ α) (Q : α → Prop) : Prop :=
  ∀ s t, R s t → match x.run s, x.run t with
    | .ok a s', .ok b t' => a = b ∧ Q a ∧ R s' t'
    | .error e s', .error f t' => e = f ∧ R s' t'
    | _, _ => False

/-- A step that runs in parallel with itself overlooks what tells the states apart. -/
theorem Parallel.overlooks {R : ρ → ρ → Prop} {q : α → Prop} (h : Parallel R x x q) :
    Overlooks R x q := h

/-- **What a step yields** from a state: its result or its error, whatever state it ends in. -/
def outcome (x : EStateM ε ρ α) (s : ρ) : Except ε α :=
  match x.run s with
  | .ok a _ => .ok a
  | .error e _ => .error e

/-- What a step yields tells what it yields once its result is changed. -/
theorem outcome_bind_pure_eq (f : α → β) {s t : ρ} (h : outcome x s = outcome x t) :
    outcome (x >>= fun a => (pure (f a) : EStateM ε ρ β)) s =
      outcome (x >>= fun a => (pure (f a) : EStateM ε ρ β)) t := by
  have houtcome : ∀ s, outcome (x >>= fun a => (pure (f a) : EStateM ε ρ β)) s =
      (outcome x s).map f := by
    intro s
    unfold outcome
    rw [EStateM.run_bind]
    cases x.run s <;> rfl
  rw [houtcome, houtcome, h]

/-- A result that was changed is that of the step before. -/
theorem exists_run_of_bind_pure {f : α → β} {s s' : ρ} {b : β}
    (h : (x >>= fun a => (pure (f a) : EStateM ε ρ β)).run s = .ok b s') :
    ∃ a, x.run s = .ok a s' ∧ f a = b := by
  rw [EStateM.run_bind] at h
  cases hx : x.run s with
  | ok a s₁ =>
    rw [hx] at h
    obtain ⟨rfl, rfl⟩ := EStateM.Result.ok.inj h
    exact ⟨a, rfl, rfl⟩
  | error e s₁ => simp [hx] at h

/-- From related states, a step yields the same if it overlooks what tells them apart. -/
theorem Overlooks.outcome_eq {R : ρ → ρ → Prop} {q : α → Prop} (h : Overlooks R x q) {s t : ρ}
    (hR : R s t) : outcome x s = outcome x t := by
  have := h s t hR
  unfold outcome
  cases hx : x.run s <;> cases hy : x.run t <;> simp only [hx, hy] at this
  · rw [this.1]
  · rw [this.1]

end Highlight
