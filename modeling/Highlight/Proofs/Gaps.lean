import Highlight.Proofs.Selectors
import Mathlib.Algebra.Ring.Parity

/-!
# Missing operands

Reading a selector refuses nothing. Where an operand is due and none begins there is a **gap** in
the text: behind a dash, at the beginning of a part or of a group, or between separators. The
matcher has a `never` in its place.

A `never` selects no path, so a part with a gap should select less than it would with any operand
in the gap. It does if the gap is under an even number of dashes. Under an odd number it is the
other way round: `--` is the negation of a gap and selects every path. How many dashes are over a
gap can be told without reading the text as matchers. They are those right in front of it and
those in front of the groups around it, and one pass over the tokens counts them. The main
statement is that no matcher has a `never` under an odd number of negations exactly if the text
has no gap under an odd number of dashes, and what that means for the paths that are selected.
-/

namespace Highlight.Selector

/-! ## Gaps in the tokens -/

/-- What may come at a place in the tokens of a selector. -/
inductive Due where
  /-- A part, or the end. -/
  | part
  /-- An operand: a part or a group begins. -/
  | operand
  /-- An operand, or one more separator: there is a separator in front. -/
  | alternative
  /-- An operand: there is a dash in front. -/
  | negated
  /-- Anything: there is an operand in front. -/
  | nothing
  deriving DecidableEq

/-- **A place in the tokens of a selector.** -/
structure Place where
  /-- The dashes over the open groups around the innermost one, from inside. The text as a whole
  counts as the outermost. -/
  around : List Nat := []
  /-- The dashes over the innermost open group. -/
  level : Nat := 0
  /-- The dashes over an operand that begins here. -/
  dashes : Nat := 0
  /-- What may come. -/
  due : Due := .part

/-- A token begins an operand. -/
def beginsOperand (t : String) : Bool := t == "-" || t == "(" || isName t

namespace Place

/-- The place behind an operand. -/
def read (p : Place) : Place := { p with dashes := p.level, due := .nothing }

/-- The place behind a separator in a group. -/
def separated (p : Place) : Place := { p with dashes := p.level, due := .alternative }

/-- The dashes over the gap at a place where no operand begins, if it is one. The gap of a dash
takes the place of the dash itself. -/
def gap (p : Place) : List Nat :=
  match p.due with
  | .nothing => []
  | .negated => [p.dashes - 1]
  | _ => [p.level]

/-- The gap in front of a token. -/
def gapBefore (p : Place) (t : String) : List Nat :=
  if beginsOperand t || (p.due == .alternative && isSeparator t) then [] else p.gap

/-- The gap at the end of the tokens. -/
def gapAtEnd (p : Place) : List Nat := if p.due = .part then [] else p.gap

/-- The place behind a token that begins no operand, if reading goes on there: the group is closed
or goes on with an alternative, or another part begins. -/
def leave? (p : Place) (t : String) : Option Place :=
  match p.around with
  | [] => if t = "," then some {} else none
  | level :: around =>
    if t = ")" then some ⟨around, level, level, .nothing⟩
    else if isSeparator t then some p.separated
    else none

/-- The place behind a token, if reading goes on there. -/
def next? (p : Place) (t : String) : Option Place :=
  if t = "-" then some { p with dashes := p.dashes + 1, due := .negated }
  else if t = "(" then some ⟨p.level :: p.around, p.dashes, p.dashes, .operand⟩
  else if isName t then
    if p.due = .part ∧ (priority? t).isSome then some { p with due := .operand } else some p.read
  else p.leave? t

/-- The dashes over each gap from a place on, in the order of the gaps. -/
def gaps (p : Place) : List String → List Nat
  | [] => p.gapAtEnd
  | t :: ts => p.gapBefore t ++ ((p.next? t).map (gaps · ts)).getD []

end Place

/-- **The gaps in a selector text**: the number of dashes over each. -/
def gaps (text : String) : List Nat := ({} : Place).gaps (tokens text)

/-! ## Missing operands in matchers -/

namespace Matcher

mutual

/-- The negations over each `never` of a matcher, given those over the matcher. -/
def nevers (negations : Nat) : Matcher → List Nat
  | never => [negations]
  | path _ => []
  | and operands => neversAll negations operands
  | or operands => neversAll negations operands
  | not operand => nevers (negations + 1) operand

/-- The negations over each `never` of some matchers. -/
def neversAll (negations : Nat) : List Matcher → List Nat
  | [] => []
  | m :: ms => nevers negations m ++ neversAll negations ms

end

/-- **No missing operand is negated**: each `never` of the matcher is under an even number of
negations. -/
def NegatesNoNever (m : Matcher) : Prop := ∀ n ∈ m.nevers 0, Even n

instance (m : Matcher) : Decidable m.NegatesNoNever :=
  inferInstanceAs (Decidable (∀ n ∈ m.nevers 0, Even n))

mutual

/-- **A matcher completes another one**: it is the same, with any matchers in the places of
`never`. -/
inductive Completes : Matcher → Matcher → Prop
  /-- Something takes the place of a missing operand. -/
  | never (m : Matcher) : Completes never m
  /-- Names stay. -/
  | path (names : List String) : Completes (path names) (path names)
  /-- The operands of a conjunction are completed. -/
  | and {ms ms' : List Matcher} (h : CompletesAll ms ms') : Completes (and ms) (and ms')
  /-- The alternatives of a choice are completed. -/
  | or {ms ms' : List Matcher} (h : CompletesAll ms ms') : Completes (or ms) (or ms')
  /-- The operand of a negation is completed. -/
  | not {m m' : Matcher} (h : Completes m m') : Completes (not m) (not m')

/-- Matchers complete others, one by one. -/
inductive CompletesAll : List Matcher → List Matcher → Prop
  /-- No matcher. -/
  | nil : CompletesAll [] []
  /-- One, and the others. -/
  | cons {m m' : Matcher} {ms ms' : List Matcher} (h : Completes m m')
    (hs : CompletesAll ms ms') : CompletesAll (m :: ms) (m' :: ms')

end

theorem neversAll_eq (negations : Nat) (ms : List Matcher) :
    neversAll negations ms = ms.flatMap (nevers negations) := by
  induction ms with
  | nil => rfl
  | cons m ms ih => rw [neversAll, ih, List.flatMap_cons]

theorem nevers_conjunction {ms : List Matcher} (hne : ms ≠ []) (negations : Nat) :
    (conjunction ms).nevers negations = ms.flatMap (nevers negations) := by
  match ms, hne with
  | [m], _ => simp [conjunction]
  | m :: m' :: ms, _ => exact neversAll_eq negations (m :: m' :: ms)

theorem nevers_choice (ms : List Matcher) (negations : Nat) :
    (choice ms).nevers negations = ms.flatMap (nevers negations) := by
  match ms with
  | [] => rfl
  | [m] => simp [choice]
  | m :: m' :: ms => exact neversAll_eq negations (m :: m' :: ms)

mutual

/-- **Missing operands only take away** where they are not negated: a path that is selected stays
selected when the matcher is completed. Under an odd number of negations it is the other way
round. -/
theorem Completes.selects {m m' : Matcher} (scopes : List String) : (h : m.Completes m') →
    (negations : Nat) → (∀ n ∈ m.nevers negations, Even n) →
    (Even negations → m.selects scopes = true → m'.selects scopes = true) ∧
      (Odd negations → m'.selects scopes = true → m.selects scopes = true)
  | .never m, negations, heven =>
    have h := heven negations List.mem_cons_self
    ⟨fun _ hselects => absurd hselects Bool.false_ne_true,
      fun hodd => absurd h (Nat.not_even_iff_odd.2 hodd)⟩
  | .path _, _, _ => ⟨fun _ => id, fun _ => id⟩
  | .and h, negations, heven => (h.selects scopes negations heven).1
  | .or h, negations, heven => (h.selects scopes negations heven).2
  | .not h, negations, heven => by
    obtain ⟨hle, hge⟩ := h.selects scopes (negations + 1) heven
    simp only [Matcher.selects, Bool.not_eq_true', ← Bool.not_eq_true]
    exact ⟨fun h => mt (hge h.add_one), fun h => mt (hle h.add_one)⟩

theorem CompletesAll.selects {ms ms' : List Matcher} (scopes : List String) :
    (h : CompletesAll ms ms') → (negations : Nat) → (∀ n ∈ neversAll negations ms, Even n) →
    ((Even negations → allSelect scopes ms = true → allSelect scopes ms' = true) ∧
      (Odd negations → allSelect scopes ms' = true → allSelect scopes ms = true)) ∧
    (Even negations → anySelects scopes ms = true → anySelects scopes ms' = true) ∧
      (Odd negations → anySelects scopes ms' = true → anySelects scopes ms = true)
  | .nil, _, _ => ⟨⟨fun _ => id, fun _ => id⟩, fun _ => id, fun _ => id⟩
  | .cons h hs, negations, heven => by
    obtain ⟨hle, hge⟩ := h.selects scopes negations fun n hn =>
      heven n (List.mem_append_left _ hn)
    obtain ⟨⟨hall, hall'⟩, hany, hany'⟩ := hs.selects scopes negations fun n hn =>
      heven n (List.mem_append_right _ hn)
    simp only [allSelect, anySelects, Bool.and_eq_true, Bool.or_eq_true]
    exact ⟨⟨fun h => And.imp (hle h) (hall h), fun h => And.imp (hge h) (hall' h)⟩,
      fun h => Or.imp (hle h) (hany h), fun h => Or.imp (hge h) (hany' h)⟩

end

end Matcher

/-! ## From gaps to missing operands -/

theorem isName_ne {t : String} (h : isName t = true) : t ≠ "-" ∧ t ≠ "(" :=
  ⟨fun ht => absurd (ht ▸ h) (by decide), fun ht => absurd (ht ▸ h) (by decide)⟩

/-- No operand begins with these tokens. -/
def Ends (ts : List String) : Prop := ∀ t ∈ ts.head?, beginsOperand t = false

/-- No separator stands in front of these tokens. -/
def Separated (ts : List String) : Prop := ∀ t ∈ ts.head?, isSeparator t = false

namespace Place

/-- **An operand is due** that has not begun. -/
structure Opens (p : Place) (ts : List String) : Prop where
  /-- No dash is in front. -/
  dashes : p.dashes = p.level
  /-- A part or a group begins, or there were separators in front and no more of them. -/
  due : p.due = .operand ∨ p.due = .alternative ∧ Separated ts

variable {p : Place} {t : String} {ts : List String}

theorem gaps_dash (p : Place) (ts : List String) :
    p.gaps ("-" :: ts) = { p with dashes := p.dashes + 1, due := .negated : Place }.gaps ts := rfl

theorem gaps_group (p : Place) (ts : List String) :
    p.gaps ("(" :: ts) =
      (⟨p.level :: p.around, p.dashes, p.dashes, .operand⟩ : Place).gaps ts := rfl

theorem gaps_name (ht : isName t = true) (hp : p.due ≠ .part) :
    p.gaps (t :: ts) = p.read.gaps ts := by
  obtain ⟨hdash, hgroup⟩ := isName_ne ht
  simp [gaps, gapBefore, beginsOperand, next?, ht, hp, hdash, hgroup]

/-- More names belong to the same operand. -/
theorem gaps_names (p : Place) (ts : List String) :
    p.read.gaps (ts.dropWhile isName) = p.read.gaps ts := by
  induction ts with
  | nil => rfl
  | cons t ts ih =>
    by_cases ht : isName t = true
    · rw [List.dropWhile_cons_of_pos ht, ih, gaps_name ht (by simp [read])]
      rfl
    · rw [List.dropWhile_cons_of_neg ht]

theorem next?_of_ends (ht : beginsOperand t = false) : p.next? t = p.leave? t := by
  simp only [beginsOperand, Bool.or_eq_false_iff, beq_eq_false_iff_ne] at ht
  obtain ⟨⟨hdash, hgroup⟩, hname⟩ := ht
  simp [next?, hdash, hgroup, hname]

/-- Behind an operand there is no gap. -/
theorem gaps_read (p : Place) (t : String) (ts : List String) :
    p.read.gaps (t :: ts) = ((p.read.next? t).map (gaps · ts)).getD [] := by
  have hgap : p.read.gap = [] := rfl
  simp [gaps, gapBefore, hgap]

/-- **Where an operand is due and none begins, there is a gap.** -/
theorem gaps_of_ends (hts : Ends ts) (hp : p.due ≠ .part)
    (hsep : p.due = .alternative → Separated ts) : p.gaps ts = p.gap ++ p.read.gaps ts := by
  cases ts with
  | nil =>
    have hread : p.read.gaps [] = [] := rfl
    rw [hread, List.append_nil, gaps, gapAtEnd, if_neg hp]
  | cons t ts =>
    have ht : beginsOperand t = false := hts t rfl
    have hgap : p.gapBefore t = p.gap := by
      have hne : (p.due == .alternative && isSeparator t) = false := by
        rw [Bool.and_eq_false_imp]
        exact fun hdue => hsep (eq_of_beq hdue) t rfl
      rw [gapBefore, ht, hne]
      rfl
    rw [gaps, hgap, gaps_read, next?_of_ends ht, next?_of_ends ht]
    rfl

/-- In a group, an alternative is due behind a separator. -/
theorem next?_separator (ht : isSeparator t = true) (hne : p.around ≠ []) :
    p.next? t = some p.separated := by
  have hsign : beginsOperand t = false ∧ t ≠ ")" := by
    simp only [isSeparator, Bool.or_eq_true, beq_iff_eq] at ht
    obtain rfl | rfl := ht <;> decide
  obtain ⟨level, around, haround⟩ := List.exists_cons_of_ne_nil hne
  simp [next?_of_ends hsign.1, leave?, haround, ht, hsign.2]

/-- Further separators are passed over. -/
theorem gaps_separators (hne : p.around ≠ []) (ts : List String) :
    p.separated.gaps (ts.dropWhile isSeparator) = p.separated.gaps ts := by
  induction ts with
  | nil => rfl
  | cons t ts ih =>
    by_cases ht : isSeparator t = true
    · have hgap : p.separated.gapBefore t = [] := by simp [gapBefore, separated, ht]
      have hnext : p.separated.next? t = some p.separated :=
        next?_separator (p := p.separated) ht hne
      rw [List.dropWhile_cons_of_pos ht, ih, gaps, hgap, hnext]
      rfl
    · rw [List.dropWhile_cons_of_neg ht]

end Place

/-! ### Operands -/

/-- **Tokens begin with an operand**: they are read as this matcher and a rest, and the matcher
has a `never` in the place of each gap. -/
structure FillsOperand (ts : List String) (m : Matcher) (rest : List String) : Prop where
  /-- There is less to read. -/
  shorter : rest.length < ts.length
  /-- The gaps up to the rest. -/
  gaps : ∀ p : Place, p.due ≠ .part → p.gaps ts = m.nevers p.dashes ++ p.read.gaps rest

/-- **Tokens begin with operands**, as many as there are. -/
structure FillsOperands (ts : List String) (ms : List Matcher) (rest : List String) : Prop where
  /-- There is not more to read. -/
  le : rest.length ≤ ts.length
  /-- No operand follows. -/
  ends : Ends rest
  /-- The gaps behind another operand. -/
  more : ∀ p : Place, p.read.gaps ts = ms.flatMap (·.nevers p.level) ++ p.read.gaps rest
  /-- The gaps where an operand is due. -/
  first : ∀ p : Place, p.Opens ts →
    p.gaps ts = (conjunction ms).nevers p.level ++ p.read.gaps rest

/-- **Tokens begin with alternatives**, in a group. -/
structure FillsAlternatives (ts : List String) (ms : List Matcher) (rest : List String) :
    Prop where
  /-- There is not more to read. -/
  le : rest.length ≤ ts.length
  /-- No operand follows. -/
  ends : Ends rest
  /-- No separator follows. -/
  separated : Separated rest
  /-- The gaps up to the rest. -/
  gaps : ∀ p : Place, p.around ≠ [] → p.Opens ts →
    p.gaps ts = ms.flatMap (·.nevers p.level) ++ p.read.gaps rest

section Operands

variable {t : String} {ts rest : List String} {m : Matcher} {ms : List Matcher}

theorem FillsOperand.not (h : FillsOperand ts m rest) : FillsOperand ("-" :: ts) (.not m) rest where
  shorter := Nat.lt_succ_of_lt h.shorter
  gaps p _ := by
    rw [Place.gaps_dash, h.gaps _ (by simp)]
    rfl

/-- A dash without an operand is a gap. -/
theorem fillsOperand_dangling (h : Ends ts) : FillsOperand ("-" :: ts) .never ts where
  shorter := Nat.lt_succ_self _
  gaps p _ := by
    rw [Place.gaps_dash, Place.gaps_of_ends h (by simp) (by simp)]
    rfl

theorem fillsOperand_names (ht : isName t = true) (ts : List String) :
    FillsOperand (t :: ts) (.path ((t :: ts).takeWhile isName)) ((t :: ts).dropWhile isName) where
  shorter := by
    rw [List.dropWhile_cons_of_pos ht]
    exact Nat.lt_succ_of_le (List.dropWhile_sublist _).length_le
  gaps p hp := by
    rw [List.dropWhile_cons_of_pos ht, Place.gaps_names, Place.gaps_name ht hp]
    rfl

/-- Behind alternatives their group is closed, or reading ends. -/
theorem gaps_afterClosing (hends : Ends rest) (hseparated : Separated rest) (p : Place)
    (dashes : Nat) :
    (⟨p.level :: p.around, dashes, dashes, .nothing⟩ : Place).gaps rest =
      p.read.gaps (afterClosing rest) := by
  cases rest with
  | nil => rfl
  | cons t rest =>
    by_cases ht : t = ")"
    · subst ht
      rfl
    · have hafter : afterClosing (t :: rest) = t :: rest := by
        rw [afterClosing]
        exact fun _ h => ht (List.cons.inj h).1
      have hleave : ∀ q : Place, q.leave? t = none := by
        have hseparator : isSeparator t = false := hseparated t rfl
        have hcomma : t ≠ "," := fun h => absurd (h ▸ hseparator) (by decide)
        intro q
        cases hq : q.around <;> simp [Place.leave?, hq, ht, hseparator, hcomma]
      have hstops : ∀ q : Place, q.read.gaps (t :: rest) = [] := by
        intro q
        rw [Place.gaps_read, Place.next?_of_ends (hends t rfl), hleave]
        rfl
      rw [hafter, hstops]
      exact hstops ⟨p.level :: p.around, dashes, dashes, .nothing⟩

theorem FillsAlternatives.enclosed (h : FillsAlternatives ts ms rest) :
    FillsOperand ("(" :: ts) (choice ms) (afterClosing rest) where
  shorter := by
    refine Nat.lt_succ_of_le (Nat.le_trans ?_ h.le)
    unfold afterClosing
    split
    · exact Nat.le_succ _
    · exact Nat.le_refl _
  gaps p _ := by
    rw [Place.gaps_group, h.gaps _ (List.cons_ne_nil _ _) ⟨rfl, .inl rfl⟩,
      Matcher.nevers_choice, ← gaps_afterClosing h.ends h.separated p p.dashes]
    rfl

theorem fillsOperands_nil (h : Ends ts) : FillsOperands ts [] ts where
  le := Nat.le_refl _
  ends := h
  more p := rfl
  first p hp := by
    rcases hp.due with hdue | ⟨hdue, hseparated⟩
    · rw [Place.gaps_of_ends h (by simp [hdue]) (by simp [hdue]), Place.gap, hdue]
      rfl
    · rw [Place.gaps_of_ends h (by simp [hdue]) (fun _ => hseparated), Place.gap, hdue]
      rfl

theorem FillsOperand.cons {rest' : List String} (h : FillsOperand ts m rest)
    (hs : FillsOperands rest ms rest') : FillsOperands ts (m :: ms) rest' where
  le := Nat.le_trans hs.le h.shorter.le
  ends := hs.ends
  more p := by
    rw [h.gaps p.read (by simp [Place.read]), List.flatMap_cons, List.append_assoc, ← hs.more]
    rfl
  first p hp := by
    have hdue : p.due ≠ .part := by
      rcases hp.due with hdue | ⟨hdue, -⟩ <;> simp [hdue]
    rw [h.gaps p hdue, hs.more, Matcher.nevers_conjunction (List.cons_ne_nil _ _),
      List.flatMap_cons, List.append_assoc, hp.dashes]

theorem FillsOperands.last (h : FillsOperands ts ms rest) (hrest : Separated rest) :
    FillsAlternatives ts [conjunction ms] rest where
  le := h.le
  ends := h.ends
  separated := hrest
  gaps p _ hp := by
    rw [h.first p hp, List.flatMap_singleton]

theorem FillsOperands.alternative {more : List Matcher} {rest' : List String}
    (h : FillsOperands ts ms (t :: rest)) (ht : isSeparator t = true)
    (hs : FillsAlternatives (rest.dropWhile isSeparator) more rest') :
    FillsAlternatives ts (conjunction ms :: more) rest' where
  le := by
    have hdrop := (List.dropWhile_sublist (l := rest) isSeparator).length_le
    have hle := h.le
    rw [List.length_cons] at hle
    exact hs.le.trans (hdrop.trans (Nat.le_of_succ_le hle))
  ends := hs.ends
  separated := hs.separated
  gaps p hne hp := by
    have hopens : p.separated.Opens (rest.dropWhile isSeparator) := by
      refine ⟨rfl, .inr ⟨rfl, fun u hu => ?_⟩⟩
      have h := List.head?_dropWhile_not isSeparator rest
      rw [Option.mem_def.1 hu] at h
      exact h
    have hnext : p.read.next? t = some p.separated := Place.next?_separator (p := p.read) ht hne
    rw [h.first p hp, Place.gaps_read, hnext, List.flatMap_cons, List.append_assoc]
    exact congrArg _ ((Place.gaps_separators hne rest).symm.trans (hs.gaps _ hne hopens))

end Operands

mutual

/-- **An operand has a `never` for each gap**, or there is none because none begins. -/
theorem operand?_fills : (fuel : Nat) → (ts : List String) → 3 * ts.length ≤ fuel →
    (∀ m rest, operand? fuel ts = some (m, rest) → FillsOperand ts m rest) ∧
      (operand? fuel ts = none → Ends ts)
  | fuel, [], _ => by
    rw [stops_nil]
    exact ⟨nofun, fun _ => nofun⟩
  | 0, t :: ts, hfuel => by simp at hfuel
  | fuel + 1, t :: ts, hfuel => by
    rw [List.length_cons] at hfuel
    rw [operand?]
    split
    · next hdash =>
      subst hdash
      obtain ⟨hsome, hnone⟩ := operand?_fills fuel ts (by omega)
      cases hread : operand? fuel ts with
      | none =>
        refine ⟨fun m rest h => ?_, nofun⟩
        obtain ⟨rfl, rfl⟩ := Prod.mk.inj (Option.some.inj h)
        exact fillsOperand_dangling (hnone hread)
      | some read =>
        refine ⟨fun m rest h => ?_, nofun⟩
        obtain ⟨rfl, rfl⟩ := Prod.mk.inj (Option.some.inj h)
        exact (hsome _ _ hread).not
    · next hdash =>
      split
      · next hgroup =>
        subst hgroup
        refine ⟨fun m rest h => ?_, nofun⟩
        obtain ⟨rfl, rfl⟩ := Prod.mk.inj (Option.some.inj h)
        exact (alternatives_fills fuel ts (by omega)).enclosed
      · next hgroup =>
        split
        · next hname =>
          refine ⟨fun m rest h => ?_, nofun⟩
          obtain ⟨rfl, rfl⟩ := Prod.mk.inj (Option.some.inj h)
          exact fillsOperand_names hname ts
        · next hname =>
          refine ⟨nofun, fun _ u hu => ?_⟩
          obtain rfl : t = u := Option.some.inj hu
          simp [beginsOperand, hdash, hgroup, hname]

theorem operands_fills : (fuel : Nat) → (ts : List String) → 3 * ts.length + 1 ≤ fuel →
    FillsOperands ts (operands fuel ts).1 (operands fuel ts).2
  | 0, ts, hfuel => by omega
  | fuel + 1, ts, hfuel => by
    obtain ⟨hsome, hnone⟩ := operand?_fills fuel ts (by omega)
    rw [operands]
    cases hread : operand? fuel ts with
    | none => exact fillsOperands_nil (hnone hread)
    | some read =>
      obtain ⟨m, rest⟩ := read
      have h := hsome m rest hread
      have hshorter := h.shorter
      exact h.cons (operands_fills fuel rest (by omega))

theorem alternatives_fills : (fuel : Nat) → (ts : List String) → 3 * ts.length + 2 ≤ fuel →
    FillsAlternatives ts (alternatives fuel ts).1 (alternatives fuel ts).2
  | 0, ts, hfuel => by omega
  | fuel + 1, ts, hfuel => by
    have h := operands_fills fuel ts (by omega)
    rw [alternatives]
    generalize operands fuel ts = read at h ⊢
    obtain ⟨ms, _ | ⟨t, rest⟩⟩ := read
    · exact h.last nofun
    · have hle := h.le
      have hdrop := (List.dropWhile_sublist (l := rest) isSeparator).length_le
      rw [List.length_cons] at hle
      dsimp only
      split
      · next ht =>
        rw [List.dropWhile_cons_of_pos ht]
        exact h.alternative ht (alternatives_fills fuel _ (by omega))
      · next ht =>
        refine h.last fun u hu => ?_
        obtain rfl : t = u := Option.some.inj hu
        simpa using ht

end

/-! ### Parts -/

theorem isName_of_priority? {t : String} (h : (priority? t).isSome = true) : isName t = true := by
  rw [priority?] at h
  split at h
  · next hcolon =>
    rw [Bool.and_eq_true, beq_iff_eq] at hcolon
    exact List.any_eq_true.2 ⟨':', List.mem_of_getLast? hcolon.2, by simp⟩
  · cases h

/-- A priority stands in front of the operands of a part. -/
theorem Place.gaps_part (t : String) (ts : List String) :
    ({} : Place).gaps (t :: ts) =
      ({ due := .operand } : Place).gaps (if (priority? t).isSome then ts else t :: ts) := by
  split
  · next h =>
    obtain ⟨hdash, hgroup⟩ := isName_ne (isName_of_priority? h)
    simp [gaps, gapBefore, beginsOperand, next?, isName_of_priority? h, h, hdash, hgroup]
  · next h =>
    have hnext : ({} : Place).next? t = ({ due := .operand } : Place).next? t := by
      simp [next?, h]
      rfl
    rw [gaps, gaps, hnext]
    rfl

theorem part_cons (t : String) (ts : List String) :
    let us := if (priority? t).isSome then ts else t :: ts
    (part (t :: ts)).1.matcher = conjunction (operands (nestingBound us) us).1 ∧
      (part (t :: ts)).2 = (operands (nestingBound us) us).2 := by
  cases h : priority? t <;> simp [part, h]

/-- **A part has a `never` for each gap.** -/
theorem gaps_part (t : String) (ts : List String) :
    (part (t :: ts)).2.length ≤ (t :: ts).length ∧ Ends (part (t :: ts)).2 ∧
      ({} : Place).gaps (t :: ts) = (part (t :: ts)).1.matcher.nevers 0 ++
        ({ due := .nothing } : Place).gaps (part (t :: ts)).2 := by
  obtain ⟨hmatcher, hrest⟩ := part_cons t ts
  rw [hmatcher, hrest, Place.gaps_part]
  generalize hus : (if (priority? t).isSome then ts else t :: ts) = us
  have hle : us.length ≤ (t :: ts).length := by
    subst hus
    split
    · exact Nat.le_succ _
    · exact Nat.le_refl _
  have h := operands_fills (nestingBound us) us (by rw [nestingBound]; omega)
  exact ⟨h.le.trans hle, h.ends, h.first { due := .operand } ⟨rfl, .inl rfl⟩⟩

theorem flatMap_nevers_parts (fuel : Nat) (ts : List String) (hfuel : ts.length < fuel) :
    (parts fuel ts).flatMap (·.matcher.nevers 0) = ({} : Place).gaps ts := by
  induction fuel generalizing ts with
  | zero => omega
  | succ fuel ih =>
    cases ts with
    | nil => rfl
    | cons t ts =>
      obtain ⟨hle, hends, hgaps⟩ := gaps_part t ts
      rw [hgaps]
      simp only [parts]
      generalize part (t :: ts) = read at hle hends ⊢
      obtain ⟨p, _ | ⟨u, rest⟩⟩ := read
      · rfl
      · have hnext : ({ due := .nothing } : Place).gaps (u :: rest) =
            if u = "," then ({} : Place).gaps rest else [] := by
          have hread := Place.gaps_read { due := .nothing } u rest
          rw [Place.next?_of_ends (hends u rfl)] at hread
          refine hread.trans ?_
          by_cases hu : u = "," <;> simp [Place.leave?, Place.read, hu]
        rw [hnext, List.flatMap_cons]
        by_cases hu : u = ","
        · subst hu
          have hlt : rest.length < fuel := by
            simp only [List.length_cons] at hle hfuel
            omega
          rw [if_pos rfl, ← ih rest hlt]
          rfl
        · rw [if_neg hu]
          simp [hu]

/-- **The matchers of a text have a `never` for each gap**, in the same order, and each under as
many negations as there are dashes over the gap. -/
theorem flatMap_nevers_parse (text : String) :
    (parse text).flatMap (·.matcher.nevers 0) = gaps text :=
  flatMap_nevers_parts _ _ (Nat.lt_succ_self _)

/-- **Missing operands only take away if no gap is under an odd number of dashes.** The matchers
of a text negate no missing operand exactly if every gap in the text is under an even number of
dashes. A matcher that negates none selects no path that it would not select with any matchers in
the places of the missing operands. -/
theorem parse_negatesNoNever_iff (text : String) :
    ((∀ p ∈ parse text, p.matcher.NegatesNoNever) ↔ ∀ dashes ∈ gaps text, Even dashes) ∧
      ∀ p ∈ parse text, p.matcher.NegatesNoNever → ∀ m, p.matcher.Completes m →
        ∀ scopes, p.matcher.selects scopes = true → m.selects scopes = true := by
  refine ⟨?_, fun p _ hp m hm scopes => (hm.selects scopes 0 hp).1 Even.zero⟩
  rw [← flatMap_nevers_parse, List.forall_mem_flatMap]
  rfl

/-- A gap under two dashes, and one in a part of its own that has only a priority. -/
theorem parse_negatesNoNever_nested :
    gaps "source -(comment -(string -)), R:" = [2, 0] ∧
      (∀ p ∈ parse "source -(comment -(string -)), R:", p.matcher.NegatesNoNever) ∧
      ∀ p ∈ parse "source -(comment -(string -)), R:", ∀ m, p.matcher.Completes m →
        ∀ scopes, p.matcher.selects scopes = true → m.selects scopes = true := by
  have hgaps : gaps "source -(comment -(string -)), R:" = [2, 0] := by decide +kernel
  have hparts := (parse_negatesNoNever_iff "source -(comment -(string -)), R:").1.2 (by
    rw [hgaps]
    decide)
  exact ⟨hgaps, hparts, fun p hp => (parse_negatesNoNever_iff _).2 p hp (hparts p hp)⟩

/-- **A missing operand that is negated.** Two dashes are read as the negation of a missing
operand. The part selects every path, and with an operand in the gap it may select none. -/
theorem not_negatesNoNever_dashes :
    ∃ p, parse "--" = [p] ∧ gaps "--" = [1] ∧ ¬ p.matcher.NegatesNoNever ∧
      (∀ scopes, p.matcher.selects scopes = true) ∧
      ∃ m, p.matcher.Completes m ∧ ∀ scopes, m.selects scopes = false :=
  ⟨⟨.normal, .not .never⟩, rfl, by decide, by decide, fun _ => rfl, .not (.and []),
    .not (.never _), fun _ => rfl⟩

end Highlight.Selector
