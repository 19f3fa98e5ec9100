import Highlight.Proofs.Settled

/-!
# The places that reading comes to

What is said of each match that is taken while a line is read is said of all **places** that reading
comes to: a text, a cursor in it, and what reading has changed so far. The first place of a line is
where the blocks that are open have been tried, and each round leads from one place to the next.

The texts of groups are read on in between, inside a step, and that step tells nothing about it but
what comes of it. So the places inside are told by what makes a difference. How a text is read on is
an argument of the step, and the step **consults** it about a text, from a cursor and in a reading,
exactly if another argument that is the same everywhere else would make the step do something else.

Whatever is kept by all steps then holds at all places: an argument may be changed wherever it does
not hold without any difference, and so the step does not consult it there.
-/

namespace Highlight

open Grammar

variable {σ : Type}

/-- **A step consults** what reads on the texts of groups about a text, from a cursor and in a
reading: what that does there, and nowhere else, makes a difference to the step. -/
def Consults {α : Type} (x : ReadOn σ → Read σ α) (f : ReadOn σ) (before : Reading σ)
    (text : String) (c : Cursor) (t : Reading σ) : Prop :=
  ∃ g : ReadOn σ, (∀ text' c' t', (text', c', t') ≠ (text, c, t) →
    (g text' c').run t' = (f text' c').run t') ∧ (x g).run before ≠ (x f).run before

/-- A step that does the same whatever is done elsewhere consults only there. -/
theorem Consults.only {α : Type} {x : ReadOn σ → Read σ α} {f : ReadOn σ}
    {before : Reading σ} {text : String} {c : Cursor} {t : Reading σ}
    (h : Consults x f before text c t) {P : String → Cursor → Reading σ → Prop}
    (hx : ∀ g : ReadOn σ, (∀ text c t, P text c t → (g text c).run t = (f text c).run t) →
      (x g).run before = (x f).run before) : P text c t := by
  obtain ⟨g, hg, hdiffers⟩ := h
  by_contra hP
  refine hdiffers (hx g (fun text' c' t' hP' => hg text' c' t' ?_))
  rintro heq
  obtain ⟨rfl, rfl, rfl⟩ : text' = text ∧ c' = c ∧ t' = t := by simpa using heq
  exact hP hP'

namespace LineReader

/-- **Reading a line comes to a place**: a text, a cursor, and what reading has changed so far. The
number is that of the levels that are left for the texts of groups there, of all that the limits
allow. -/
inductive ComesTo (r : LineReader σ) (line : String) (start : LineState) (first : Bool)
    (searching : Searching σ) : Nat → String → Cursor → Reading σ → Prop
  /-- The line begins. -/
  | begins {c : Cursor} {t : Reading σ}
      (run : (r.beginLine (r.readOn r.limits.levels) line start first).run ⟨searching, {}⟩ =
        .ok c t) :
      ComesTo r line start first searching r.limits.levels line c t
  /-- A round goes on. -/
  | goesOn {depth : Nat} {text : String} {c c' : Cursor} {t t' : Reading σ}
      (before : ComesTo r line start first searching depth text c t)
      (run : (r.round (r.readOn depth) text c).run t = .ok (.next c') t') :
      ComesTo r line start first searching depth text c' t'
  /-- The text of a group is read on in a round. -/
  | readsOn {depth : Nat} {text text' : String} {c c' : Cursor} {t t' : Reading σ}
      (before : ComesTo r line start first searching (depth + 1) text c t)
      (group : Consults (fun f => r.round f text c) (r.readOn (depth + 1)) t text' c' t') :
      ComesTo r line start first searching depth text' c' t'
  /-- The text of a group of a continuing pattern is read on where the line begins. -/
  | readsOnBefore {depth : Nat} {text : String} {c : Cursor} {t : Reading σ}
      (limit : r.limits.levels = depth + 1)
      (group : Consults (fun f => r.beginLine f line start first) (r.readOn (depth + 1))
        ⟨searching, {}⟩ text c t) :
      ComesTo r line start first searching depth text c t

namespace ComesTo

variable {r : LineReader σ} {line : String} {start : LineState} {first : Bool}
  {searching : Searching σ} {depth : Nat} {text : String} {c : Cursor} {t : Reading σ}

/-- **What reading keeps holds at every place.** -/
theorem stands {K : r.Kept} (henough : K.Enough) (hdepth : K.error .depth)
    (hline : K.text line) (hstart : K.State start)
    (hbefore : K.Sound ⟨searching, {}⟩)
    (h : r.ComesTo line start first searching depth text c t) : K.Stands text c ∧ K.Sound t := by
  have hanswers : ∀ depth, K.Answers (fun _ => False) (r.readOn depth) (r.readOn depth) :=
    K.readOn_answers henough hdepth
  -- what is done elsewhere may be changed
  have hchanged : ∀ {depth : Nat} {g : ReadOn σ}, (∀ text c t, K.Stands text c ∧ K.Sound t →
      (g text c).run t = (r.readOn depth text c).run t) →
      K.Answers (fun _ => False) (r.readOn depth) g :=
    fun hg text c hc hgroup =>
      (hanswers _ text c hc hgroup).congr (fun t ht => hg text c t ⟨hc, ht⟩)
  induction h with
  | begins hrun =>
    obtain ⟨ht, hc, -⟩ := (K.beginLine_follows (hanswers _) hline hstart first).ensures.ok hbefore
      hrun
    exact ⟨hc, ht⟩
  | goesOn _ hrun ih =>
    have hturned := (K.round_follows (hanswers _) ih.1).ensures.ok ih.2 hrun
    obtain ⟨m, hm, hturn⟩ := hturned.turn
    exact ⟨K.stands_turn ih.1 hm hturn, hturned.sound⟩
  | readsOn _ hgroup ih =>
    exact hgroup.only (P := fun text c t => K.Stands text c ∧ K.Sound t) (fun g hg =>
      (K.round_follows (hchanged hg) ih.1).run_eq ih.2 (fun _ _ _ => id))
  | readsOnBefore _ hgroup =>
    exact hgroup.only (P := fun text c t => K.Stands text c ∧ K.Sound t) (fun g hg =>
      (K.beginLine_follows (hchanged hg) hline hstart first).run_eq hbefore (fun _ _ _ => id))

/-- **The stack is settled at every place** of a line that is read from a state whose closing texts
are known, and what settled reading keeps holds there. -/
theorem settled {J : Reading σ → Prop} (hr : r.Respects (Same J)) (htable : r.rules.table.Sound)
    (htimely : r.rules.Timely) (hstart : start.AllKnown r.rules) (hbefore : J ⟨searching, {}⟩)
    (h : r.ComesTo line start first searching depth text c t) : c.state.Settled r.rules ∧ J t := by
  have hreads := hr.readOn htable htimely
  -- what is done elsewhere may be changed
  have hchanged : ∀ {depth : Nat} {g : ReadOn σ}, (∀ text (c : Cursor) t,
      c.state.Settled r.rules ∧ J t → (g text c).run t = (r.readOn depth text c).run t) →
      Respects.Beside r (Same J) (r.readOn depth) g :=
    fun hg text c hc => Same.congr (hreads _ text c hc) (fun t ht => hg text c t ⟨hc, ht⟩)
  induction h with
  | begins hrun =>
    obtain ⟨ht, hc⟩ := (Same.ensures (hr.beginLine htimely (hreads _) hstart first)).ok hbefore hrun
    exact ⟨.of_allKnown hc, ht⟩
  | goesOn _ hrun ih =>
    obtain ⟨ht, hc⟩ := (Same.ensures (hr.round htable htimely (hreads _) ih.1)).ok ih.2 hrun
    exact ⟨hc _ rfl, ht⟩
  | readsOn _ hgroup ih =>
    exact hgroup.only (P := fun _ c t => c.state.Settled r.rules ∧ J t) (fun g hg =>
      (Same.run_eq (hr.round htable htimely (hchanged hg) ih.1) ih.2).symm)
  | readsOnBefore _ hgroup =>
    exact hgroup.only (P := fun _ c t => c.state.Settled r.rules ∧ J t) (fun g hg =>
      (Same.run_eq (hr.beginLine htimely (hchanged hg) hstart first) hbefore).symm)

end ComesTo

end LineReader

end Highlight
