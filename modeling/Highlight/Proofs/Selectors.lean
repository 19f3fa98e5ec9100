import Highlight.Selector.Parser
import Highlight.Selector.Written
import Mathlib.Data.List.Basic
import Mathlib.Data.String.Basic

/-!
# Reading back what was written

Reading refuses nothing and lets much be left out: a closing parenthesis, blanks, the priority.
What a text means is therefore settled by where a token can end and where an operand can. Both
are definite for written selectors. Their characters are cut into tokens in the same way whatever
follows, since every piece ends in a parenthesis, and an operand is read from its tokens whatever
follows, since it ends where its parenthesis closes. A list of operands or of alternatives has no
end of its own; it is read up to a token that opens no operand.

The main statement is that every matcher that can be written has a text, and that reading any of
its texts gives it back, for selectors of any number of parts.
-/

namespace Highlight.Selector

/-! ## Tokens -/

theorem isAscii_of_isAlphanum {c : Char} (h : c.isAlphanum = true) :
    Unicode.isAscii c = true := by
  have hsigns : (decide (c.val ≥ 'A'.val ∧ c.val ≤ 'Z'.val) ||
      (decide (c.val ≥ 'a'.val) && decide (c.val ≤ 'z'.val)) ||
      (decide (c.val ≥ '0'.val) && decide (c.val ≤ '9'.val))) = true := h
  simp only [Bool.or_eq_true, Bool.and_eq_true, decide_eq_true_eq, ge_iff_le,
    UInt32.le_iff_toNat_le] at hsigns
  simp only [Unicode.isAscii, decide_eq_true_eq, Char.toNat]
  have h₂ : ('Z'.val).toNat = 90 := rfl
  have h₃ : ('z'.val).toNat = 122 := rfl
  have h₄ : ('9'.val).toNat = 57 := rfl
  omega

/-- What a name is written with, a name can begin with, or at least go on with. -/
theorem startsName_of_isPlainSign {c : Char} (h : isPlainSign c = true) (hdash : c ≠ '-') :
    startsName c = true := by
  simp only [isPlainSign, Bool.or_eq_true, beq_iff_eq] at h
  simp only [startsName, Unicode.isWord, Bool.or_eq_true, beq_iff_eq]
  obtain (((h | rfl) | rfl) | rfl) | h := h
  · simp [isAscii_of_isAlphanum h, h]
  · decide
  · decide
  · decide
  · exact absurd h hdash

theorem continuesName_of_isPlainSign {c : Char} (h : isPlainSign c = true) :
    continuesName c = true := by
  by_cases hdash : c = '-'
  · simp [continuesName, hdash]
  · simp [continuesName, startsName_of_isPlainSign h hdash]

/-- A name begins, unless a priority does. -/
theorem tokensFrom_start {a : Char} (ha : startsName a = true) {rest : List Char}
    (h : isPriorityLetter a = true → rest.head? ≠ some ':') :
    tokensFrom [] (a :: rest) = tokensFrom [a] rest := by
  match rest with
  | [] => simp [tokensFrom, ha]
  | d :: rest =>
    by_cases hd : d = ':'
    · subst hd
      have hp : ¬ isPriorityLetter a = true := fun hp => h hp rfl
      have hcolon : continuesName ':' = true := by decide
      rw [tokensFrom, if_neg hp, if_pos ha, tokensFrom, if_pos hcolon]
    · rw [tokensFrom, if_pos ha]
      exact fun _ hc => hd (List.cons.inj hc).1

theorem tokensFrom_colon (rest : List Char) :
    tokensFrom [] (':' :: rest) = tokensFrom [':'] rest :=
  tokensFrom_start (by decide) fun h => absurd h (by decide)

/-- **A sign is a token**, whatever follows. -/
theorem tokensFrom_sign {c : Char} (h : isSign c = true) (rest : List Char) :
    tokensFrom [] (c :: rest) = String.ofList [c] :: tokensFrom [] rest := by
  have hc : startsName c = false ∧ isPriorityLetter c = false := by
    simp only [isSign, Bool.or_eq_true, beq_iff_eq] at h
    obtain (((rfl | rfl) | rfl) | rfl) | rfl := h <;> decide
  match rest with
  | [] => simp [tokensFrom, hc, h]
  | d :: rest =>
    by_cases hd : d = ':'
    · subst hd
      simp [tokensFrom, hc, h, tokensFrom_colon]
    · simp [tokensFrom, hc, h, hd]

theorem tokensFrom_blank (rest : List Char) :
    tokensFrom [] (' ' :: rest) = tokensFrom [] rest := by
  have h : startsName ' ' = false ∧ isPriorityLetter ' ' = false ∧ isSign ' ' = false := by decide
  match rest with
  | [] => simp [tokensFrom, h]
  | d :: rest =>
    by_cases hd : d = ':'
    · subst hd
      simp [tokensFrom, h, tokensFrom_colon]
    · simp [tokensFrom, h, hd]

theorem tokensFrom_priority {c : Char} (h : isPriorityLetter c = true) (rest : List Char) :
    tokensFrom [] (c :: ':' :: rest) = String.ofList [c, ':'] :: tokensFrom [] rest := by
  rw [tokensFrom, if_pos h]

/-- A name under way takes in all that can stand inside a name. -/
theorem tokensFrom_append {cs : List Char} (h : ∀ c ∈ cs, continuesName c = true) (a : Char)
    (name rest : List Char) :
    tokensFrom (a :: name) (cs ++ rest) = tokensFrom (cs.reverse ++ a :: name) rest := by
  induction cs generalizing a name with
  | nil => rfl
  | cons c cs ih =>
    obtain ⟨hc, hcs⟩ := List.forall_mem_cons.1 h
    rw [List.cons_append, tokensFrom, if_pos hc, ih hcs]
    simp

/-- What ends a name under way: a blank, or a sign. -/
theorem tokensFrom_end {c : Char} (h : c = ' ' ∨ isSign c = true ∧ c ≠ '-') (a : Char)
    (name rest : List Char) :
    tokensFrom (a :: name) (c :: rest) =
      String.ofList (a :: name).reverse :: tokensFrom [] (c :: rest) := by
  obtain rfl | ⟨hsign, hdash⟩ := h
  · have hc : ¬ continuesName ' ' = true ∧ ¬ isSign ' ' = true := by decide
    rw [tokensFrom_blank, tokensFrom, if_neg hc.1, if_neg hc.2]
  · have hc : ¬ continuesName c = true := by
      simp only [isSign, Bool.or_eq_true, beq_iff_eq] at hsign
      obtain (((rfl | rfl) | rfl) | rfl) | rfl := hsign <;> first | decide | exact absurd rfl hdash
    rw [tokensFrom_sign hsign, tokensFrom, if_neg hc, if_pos hsign]

/-- **A name is a token**, where a blank or a sign follows. -/
theorem tokensFrom_name {name : String} (hname : isIdentifier name = true) {c : Char}
    (h : c = ' ' ∨ isSign c = true ∧ c ≠ '-') (rest : List Char) :
    tokensFrom [] (name.toList ++ c :: rest) = name :: tokensFrom [] (c :: rest) := by
  simp only [isIdentifier, Bool.and_eq_true, Bool.not_eq_true', List.isEmpty_eq_false_iff,
    List.all_eq_true] at hname
  obtain ⟨⟨hne, hall⟩, hmis⟩ := hname
  obtain ⟨a, cs, hcs⟩ := List.exists_cons_of_ne_nil hne
  rw [hcs] at hall hmis
  obtain ⟨ha, hall⟩ := List.forall_mem_cons.1 hall
  have hdash : a ≠ '-' := fun hd => by simp [misleading, hd] at hmis
  have hpriority : isPriorityLetter a = true → (cs ++ c :: rest).head? ≠ some ':' := by
    intro hp
    cases cs with
    | nil =>
      rintro ⟨rfl⟩
      revert h
      decide
    | cons b cs =>
      rintro ⟨rfl⟩
      simp only [isPriorityLetter, Bool.or_eq_true, beq_iff_eq] at hp
      obtain (rfl | rfl) | rfl := hp <;> simp [misleading] at hmis
  have hcontinues : ∀ c ∈ cs, continuesName c = true := fun c hc =>
    continuesName_of_isPlainSign (hall c hc)
  obtain ⟨b, bs, hb⟩ := List.exists_cons_of_ne_nil (l := cs.reverse ++ [a]) (by simp)
  rw [hcs, List.cons_append, tokensFrom_start (startsName_of_isPlainSign ha hdash) hpriority,
    tokensFrom_append hcontinues, hb, tokensFrom_end h, ← hb]
  simp [← hcs]

/-- **Characters are cut into tokens**, these and no others, whatever follows. -/
def Lexes (cs : List Char) (ts : List String) : Prop :=
  ∀ rest, tokensFrom [] (cs ++ rest) = ts ++ tokensFrom [] rest

theorem Lexes.nil : Lexes [] [] := fun _ => rfl

theorem Lexes.append {cs ds : List Char} {ts us : List String} (h : Lexes cs ts)
    (h' : Lexes ds us) : Lexes (cs ++ ds) (ts ++ us) := fun rest => by
  rw [List.append_assoc, h, h', List.append_assoc]

theorem Lexes.sign {c : Char} (h : isSign c = true) {cs : List Char} {ts : List String}
    (hcs : Lexes cs ts) : Lexes (c :: cs) (String.ofList [c] :: ts) := fun rest => by
  rw [List.cons_append, tokensFrom_sign h, hcs, List.cons_append]

theorem Lexes.priority {c : Char} (h : isPriorityLetter c = true) {cs : List Char}
    {ts : List String} (hcs : Lexes cs ts) :
    Lexes (c :: ':' :: cs) (String.ofList [c, ':'] :: ts) := fun rest => by
  rw [List.cons_append, List.cons_append, tokensFrom_priority h, hcs, List.cons_append]

theorem Lexes.enclosed {cs : List Char} {ts : List String} (h : Lexes cs ts) :
    Lexes ('(' :: (cs ++ [')'])) ("(" :: (ts ++ [")"])) :=
  (h.append (Lexes.nil.sign (by decide))).sign (by decide)

/-- Names between blanks are cut into these names, up to a closing parenthesis. -/
theorem lexes_names {names : List String} (h : ∀ name ∈ names, isIdentifier name = true) :
    Lexes ([' '].intercalate (names.map String.toList) ++ [')']) (names ++ [")"]) := by
  have hclose : isSign ')' = true ∧ ')' ≠ '-' := by decide
  induction names with
  | nil => exact Lexes.nil.sign hclose.1
  | cons name names ih =>
    obtain ⟨hname, hnames⟩ := List.forall_mem_cons.1 h
    intro rest
    cases names with
    | nil =>
      rw [List.map_singleton, List.intercalate_singleton, List.append_assoc, List.singleton_append,
        tokensFrom_name hname (.inr hclose), tokensFrom_sign hclose.1]
      rfl
    | cons next names =>
      have hlist := ih hnames rest
      rw [List.map_cons] at hlist
      rw [List.map_cons, List.map_cons, List.intercalate_cons_cons, List.append_assoc,
        List.append_assoc, List.append_assoc, List.singleton_append,
        tokensFrom_name hname (.inl rfl), tokensFrom_blank, ← List.append_assoc, hlist]
      rfl

/-! ## Expressions -/

/-- What is written in ASCII letters, digits and `_.:-` and does not begin with a dash is a
name. -/
theorem isName_of_isIdentifier {name : String} (h : isIdentifier name = true) :
    isName name = true := by
  simp only [isIdentifier, Bool.and_eq_true, Bool.not_eq_true', List.isEmpty_eq_false_iff,
    List.all_eq_true] at h
  obtain ⟨⟨hne, hall⟩, hmis⟩ := h
  obtain ⟨a, cs, hcs⟩ := List.exists_cons_of_ne_nil hne
  rw [hcs] at hall hmis
  have ha := hall a List.mem_cons_self
  simp only [isPlainSign, Bool.or_eq_true, beq_iff_eq] at ha
  rw [isName, hcs, List.any_cons, Bool.or_eq_true]
  left
  obtain (((ha | rfl) | rfl) | rfl) | rfl := ha
  · simp [Unicode.isAlphanumeric, isAscii_of_isAlphanum ha, ha]
  · decide
  · decide
  · decide
  · simp [misleading] at hmis

/-- Tokens begin with a parenthesis or the sign of a negation. -/
def Opens (ts : List String) : Prop := ∃ t us, ts = t :: us ∧ (t = "(" ∨ t = "-")

/-- **Tokens are an operand**: they begin like one, and are read as this matcher, whatever
follows. -/
structure IsOperand (m : Matcher) (ts : List String) : Prop where
  /-- They begin like one. -/
  opens : Opens ts
  /-- They are read as the matcher. -/
  reads : ∀ fuel rest, 3 * ts.length ≤ fuel → operand? fuel (ts ++ rest) = some (m, rest)

/-- Tokens begin no operand. -/
def Stops (ts : List String) : Prop := ∀ fuel, operand? fuel ts = none

/-- **Tokens are operands**: they are read as these matchers, up to where no operand begins. -/
def AreOperands (ms : List Matcher) (ts : List String) : Prop :=
  ∀ fuel rest, Stops rest → 3 * ts.length + 1 ≤ fuel → operands fuel (ts ++ rest) = (ms, rest)

/-- **Tokens are alternatives**: they are read as these matchers, up to a closing
parenthesis. -/
def AreAlternatives (ms : List Matcher) (ts : List String) : Prop :=
  ∀ fuel rest, 3 * ts.length + 2 ≤ fuel →
    alternatives fuel (ts ++ ")" :: rest) = (ms, ")" :: rest)

theorem stops_nil : Stops [] := fun fuel => by cases fuel <;> rfl

theorem stops_cons {t : String} (h : t = ")" ∨ t = "|" ∨ t = ",") (ts : List String) :
    Stops (t :: ts) := by
  have hname : ¬ isName t = true ∧ t ≠ "-" ∧ t ≠ "(" := by
    obtain rfl | rfl | rfl := h <;> decide
  intro fuel
  cases fuel with
  | zero => rfl
  | succ fuel => rw [operand?, if_neg hname.2.1, if_neg hname.2.2, if_neg hname.1]

theorem AreOperands.nil : AreOperands [] [] := fun fuel rest hrest _ => by
  cases fuel with
  | zero => rfl
  | succ fuel => rw [List.nil_append, operands, hrest]

theorem AreOperands.cons {m : Matcher} {ms : List Matcher} {ts us : List String}
    (h : IsOperand m ts) (hs : AreOperands ms us) : AreOperands (m :: ms) (ts ++ us) := by
  intro fuel rest hrest hfuel
  obtain ⟨t, ts', rfl, -⟩ := h.opens
  rw [List.length_append, List.length_cons] at hfuel
  obtain ⟨fuel, rfl⟩ : ∃ n, fuel = n + 1 := ⟨fuel - 1, by omega⟩
  rw [List.append_assoc, operands,
    h.reads fuel (us ++ rest) (by rw [List.length_cons]; omega)]
  simp only [hs fuel rest hrest (by omega)]

theorem not_isName_of_stops {t : String} {ts : List String} (h : Stops (t :: ts)) :
    ¬ isName t = true := by
  intro hname
  have hsign : t ≠ "-" ∧ t ≠ "(" :=
    ⟨fun ht => by subst ht; exact absurd hname (by decide),
      fun ht => by subst ht; exact absurd hname (by decide)⟩
  have h₁ := h 1
  rw [operand?, if_neg hsign.1, if_neg hsign.2, if_pos hname] at h₁
  cases h₁

/-- Names in a row are a single operand. -/
theorem areOperands_names {names : List String} (hne : names ≠ [])
    (h : ∀ name ∈ names, isName name = true) : AreOperands [.path names] names := by
  intro fuel rest hrest hfuel
  obtain ⟨name, more, rfl⟩ := List.exists_cons_of_ne_nil hne
  rw [List.length_cons] at hfuel
  obtain ⟨fuel, rfl⟩ : ∃ n, fuel = n + 2 := ⟨fuel - 2, by omega⟩
  have hname := h name List.mem_cons_self
  have hsign : name ≠ "-" ∧ name ≠ "(" :=
    ⟨fun ht => by subst ht; exact absurd hname (by decide),
      fun ht => by subst ht; exact absurd hname (by decide)⟩
  have hend : rest.takeWhile isName = [] ∧ rest.dropWhile isName = rest := by
    cases rest with
    | nil => exact ⟨rfl, rfl⟩
    | cons t ts =>
      have ht := not_isName_of_stops hrest
      exact ⟨List.takeWhile_cons_of_neg ht, List.dropWhile_cons_of_neg ht⟩
  have hread : operand? (fuel + 1) (name :: (more ++ rest)) =
      some (.path (name :: more), rest) := by
    rw [operand?, if_neg hsign.1, if_neg hsign.2, if_pos hname, ← List.cons_append,
      List.takeWhile_append_of_pos h, List.dropWhile_append_of_pos h, hend.1, hend.2,
      List.append_nil]
  rw [List.cons_append, operands, hread]
  simp only [operands, hrest fuel]

/-- Operands are an alternative: their conjunction. -/
theorem AreOperands.alternative {ms : List Matcher} {ts : List String} (h : AreOperands ms ts) :
    AreAlternatives [conjunction ms] ts := by
  intro fuel rest hfuel
  obtain ⟨fuel, rfl⟩ : ∃ n, fuel = n + 1 := ⟨fuel - 1, by omega⟩
  rw [alternatives, h fuel _ (stops_cons (.inl rfl) rest) (by omega)]
  rfl

/-- An operand by itself is an alternative. -/
theorem IsOperand.alternative {m : Matcher} {ts : List String} (h : IsOperand m ts) :
    AreAlternatives [m] ts := by
  have h' := (AreOperands.cons h .nil).alternative
  rwa [List.append_nil] at h'

theorem AreAlternatives.cons {m : Matcher} {ms : List Matcher} {ts us : List String}
    (h : IsOperand m ts) (hus : Opens us) (hs : AreAlternatives ms us) :
    AreAlternatives (m :: ms) (ts ++ "|" :: us) := by
  intro fuel rest hfuel
  rw [List.length_append, List.length_cons] at hfuel
  obtain ⟨fuel, rfl⟩ : ∃ n, fuel = n + 1 := ⟨fuel - 1, by omega⟩
  have hfirst := (AreOperands.cons h .nil) fuel ("|" :: us ++ ")" :: rest)
    (stops_cons (.inr (.inl rfl)) _) (by rw [List.append_nil]; omega)
  have hdrop : ("|" :: us ++ ")" :: rest).dropWhile isSeparator = us ++ ")" :: rest := by
    obtain ⟨u, us', rfl, hu⟩ := hus
    have hbar : isSeparator "|" = true := rfl
    have hu : ¬ isSeparator u = true := by obtain rfl | rfl := hu <;> decide
    rw [List.cons_append, List.dropWhile_cons_of_pos hbar, List.cons_append,
      List.dropWhile_cons_of_neg hu]
  rw [List.append_nil] at hfirst
  rw [List.append_assoc, alternatives, hfirst]
  simp only [List.cons_append] at hdrop ⊢
  rw [hdrop, hs fuel rest (by omega)]
  rfl

/-- Alternatives in parentheses are an operand: the choice between them. -/
theorem AreAlternatives.enclosed {ms : List Matcher} {ts : List String}
    (h : AreAlternatives ms ts) : IsOperand (choice ms) ("(" :: (ts ++ [")"])) where
  opens := ⟨_, _, rfl, .inl rfl⟩
  reads := by
    intro fuel rest hfuel
    rw [List.length_cons, List.length_append, List.length_singleton] at hfuel
    obtain ⟨fuel, rfl⟩ : ∃ n, fuel = n + 1 := ⟨fuel - 1, by omega⟩
    rw [List.cons_append, List.append_assoc, List.singleton_append, operand?,
      if_neg (by decide), if_pos rfl, h fuel rest (by omega)]
    rfl

/-- The negation of an operand is an operand. -/
theorem IsOperand.not {m : Matcher} {ts : List String} (h : IsOperand m ts) :
    IsOperand (.not m) ("-" :: ts) where
  opens := ⟨_, _, rfl, .inr rfl⟩
  reads := by
    intro fuel rest hfuel
    rw [List.length_cons] at hfuel
    obtain ⟨fuel, rfl⟩ : ∃ n, fuel = n + 1 := ⟨fuel - 1, by omega⟩
    rw [List.cons_append, operand?, if_pos rfl, h.reads fuel rest (by omega)]

theorem conjunction_eq {ms : List Matcher} (h : 2 ≤ ms.length) : conjunction ms = .and ms := by
  match ms, h with
  | _ :: _ :: _, _ => rfl

theorem choice_eq {ms : List Matcher} (h : 2 ≤ ms.length) : choice ms = .or ms := by
  match ms, h with
  | _ :: _ :: _, _ => rfl

/-! ## Texts of matchers -/

namespace Matcher

mutual

/-- **The text of a matcher is an operand**, and is read as the matcher. -/
theorem Writes.reads : {m : Matcher} → {cs : List Char} → m.Writes cs → m.isWritable = true →
    ∃ ts, Lexes cs ts ∧ IsOperand m ts
  | _, _, .never, _ => ⟨_, Lexes.nil.enclosed, AreOperands.nil.alternative.enclosed⟩
  | _, _, .path names, hm => by
    rw [isWritable, Bool.and_eq_true, Bool.not_eq_true', List.isEmpty_eq_false_iff,
      List.all_eq_true] at hm
    exact ⟨_, (lexes_names hm.2).sign (by decide), (areOperands_names hm.1 fun name hname =>
      isName_of_isIdentifier (hm.2 name hname)).alternative.enclosed⟩
  | _, _, .and h, hm => by
    rw [isWritable, Bool.and_eq_true, decide_eq_true_eq] at hm
    obtain ⟨ts, hlex, hread⟩ := h.reads hm.2
    refine ⟨_, hlex.enclosed, ?_⟩
    rw [← conjunction_eq hm.1]
    exact hread.alternative.enclosed
  | _, _, .or h, hm => by
    rw [isWritable, Bool.and_eq_true, decide_eq_true_eq] at hm
    obtain ⟨ts, hlex, -, hread⟩ := h.reads hm.2
    refine ⟨_, hlex.enclosed, ?_⟩
    rw [← choice_eq hm.1]
    exact hread.enclosed
  | _, _, .not h, hm => by
    rw [isWritable] at hm
    obtain ⟨ts, hlex, hread⟩ := h.reads hm
    exact ⟨_, hlex.sign (by decide), hread.not⟩
  | _, _, .enclosed h, hm => by
    obtain ⟨ts, hlex, hread⟩ := h.reads hm
    exact ⟨_, hlex.enclosed, hread.alternative.enclosed⟩

theorem WritesAll.reads : {ms : List Matcher} → {cs : List Char} → WritesAll ms cs →
    areWritable ms = true → ∃ ts, Lexes cs ts ∧ AreOperands ms ts
  | _, _, .nil, _ => ⟨_, .nil, .nil⟩
  | _, _, .cons h hs, hms => by
    rw [areWritable, Bool.and_eq_true] at hms
    obtain ⟨ts, hlex, hread⟩ := h.reads hms.1
    obtain ⟨us, hlex', hread'⟩ := hs.reads hms.2
    exact ⟨_, hlex.append hlex', hread'.cons hread⟩

theorem WritesAny.reads : {ms : List Matcher} → {cs : List Char} → WritesAny ms cs →
    areWritable ms = true → ∃ ts, Lexes cs ts ∧ Opens ts ∧ AreAlternatives ms ts
  | _, _, .last h, hms => by
    rw [areWritable, Bool.and_eq_true] at hms
    obtain ⟨ts, hlex, hread⟩ := h.reads hms.1
    exact ⟨ts, hlex, hread.opens, hread.alternative⟩
  | _, _, .cons h hs, hms => by
    rw [areWritable, Bool.and_eq_true] at hms
    obtain ⟨ts, hlex, hread⟩ := h.reads hms.1
    obtain ⟨us, hlex', hopens, hread'⟩ := hs.reads hms.2
    refine ⟨_, hlex.append (hlex'.sign (by decide)), ?_, hread'.cons hread hopens⟩
    obtain ⟨t, ts', rfl, ht⟩ := hread.opens
    exact ⟨t, _, rfl, ht⟩

end

mutual

/-- A matcher that can be written has a text. -/
theorem exists_writes : (m : Matcher) → m.isWritable = true → ∃ cs, m.Writes cs
  | never, _ => ⟨_, .never⟩
  | path names, _ => ⟨_, .path names⟩
  | and ms, h => by
    rw [isWritable, Bool.and_eq_true] at h
    obtain ⟨cs, hcs⟩ := exists_writesAll ms h.2
    exact ⟨_, .and hcs⟩
  | or ms, h => by
    rw [isWritable, Bool.and_eq_true, decide_eq_true_eq] at h
    obtain ⟨cs, hcs⟩ := exists_writesAny ms (List.ne_nil_of_length_pos (by omega)) h.2
    exact ⟨_, .or hcs⟩
  | not m, h => by
    rw [isWritable] at h
    obtain ⟨cs, hcs⟩ := exists_writes m h
    exact ⟨_, .not hcs⟩

theorem exists_writesAll :
    (ms : List Matcher) → areWritable ms = true → ∃ cs, WritesAll ms cs
  | [], _ => ⟨_, .nil⟩
  | m :: ms, h => by
    rw [areWritable, Bool.and_eq_true] at h
    obtain ⟨cs, hcs⟩ := exists_writes m h.1
    obtain ⟨ds, hds⟩ := exists_writesAll ms h.2
    exact ⟨_, .cons hcs hds⟩

theorem exists_writesAny :
    (ms : List Matcher) → ms ≠ [] → areWritable ms = true → ∃ cs, WritesAny ms cs
  | [], hne, _ => absurd rfl hne
  | [m], _, h => by
    rw [areWritable, Bool.and_eq_true] at h
    obtain ⟨cs, hcs⟩ := exists_writes m h.1
    exact ⟨_, .last hcs⟩
  | m :: m' :: ms, _, h => by
    rw [areWritable, Bool.and_eq_true] at h
    obtain ⟨cs, hcs⟩ := exists_writes m h.1
    obtain ⟨ds, hds⟩ := exists_writesAny (m' :: ms) (List.cons_ne_nil _ _) h.2
    exact ⟨_, .cons hcs hds⟩

end

end Matcher

/-! ## Texts of parts -/

/-- A priority is written by nothing at all or by a token. -/
theorem Priority.mark_cases {priority : Priority} {mark : String} (h : mark ∈ priority.marks) :
    mark = "" ∧ priority = .normal ∨
      ∃ c, mark = String.ofList [c, ':'] ∧ isPriorityLetter c = true ∧
        priority? mark = some priority := by
  cases priority with
  | left =>
    obtain rfl := List.mem_singleton.1 h
    exact .inr ⟨'L', rfl, rfl, by decide⟩
  | normal =>
    simp only [marks, List.mem_cons, List.not_mem_nil, or_false] at h
    obtain rfl | rfl := h
    · exact .inl ⟨rfl, rfl⟩
    · exact .inr ⟨'B', rfl, rfl, by decide⟩
  | right =>
    obtain rfl := List.mem_singleton.1 h
    exact .inr ⟨'R', rfl, rfl, by decide⟩

/-- **The text of a part is read as the part**, up to where no operand begins. -/
theorem Part.Writes.reads {p : Part} {cs : List Char} (h : p.Writes cs)
    (hp : p.matcher.isWritable = true) :
    ∃ ts, Lexes cs ts ∧ ts ≠ [] ∧ ∀ rest, Stops rest → part (ts ++ rest) = (p, rest) := by
  obtain ⟨mark, hmark, ds, hds, rfl⟩ := h
  obtain ⟨ts, hlex, hread⟩ := hds.reads hp
  have hoperands : ∀ rest, Stops rest →
      operands (nestingBound (ts ++ rest)) (ts ++ rest) = ([p.matcher], rest) := by
    intro rest hrest
    have h := (AreOperands.cons hread .nil) (nestingBound (ts ++ rest)) rest hrest
    rw [List.append_nil] at h
    exact h (by rw [nestingBound, List.length_append]; omega)
  obtain ⟨rfl, hpriority⟩ | ⟨c, rfl, hc, hpriority⟩ := Priority.mark_cases hmark
  · obtain ⟨t, us, rfl, ht⟩ := hread.opens
    refine ⟨t :: us, hlex, List.cons_ne_nil _ _, fun rest hrest => ?_⟩
    have ht : priority? t = none := by obtain rfl | rfl := ht <;> decide
    have h := hoperands rest hrest
    rw [List.cons_append] at h
    simp only [part, List.cons_append, ht, h, ← hpriority, conjunction]
  · rw [String.toList_ofList]
    refine ⟨String.ofList [c, ':'] :: ts, hlex.priority hc, List.cons_ne_nil _ _,
      fun rest hrest => ?_⟩
    simp only [part, List.cons_append, hpriority, hoperands rest hrest, conjunction]

/-- **The text of a selector is read as its parts.** -/
theorem Writes.reads {ps : List Part} {cs : List Char} (h : Writes ps cs)
    (hps : ∀ p ∈ ps, p.matcher.isWritable = true) :
    ∃ ts, Lexes cs ts ∧ ps.length ≤ ts.length ∧ ∀ fuel, ps.length ≤ fuel → parts fuel ts = ps := by
  induction h with
  | @last p cs h =>
    obtain ⟨ts, hlex, hne, hread⟩ := h.reads (hps p List.mem_cons_self)
    refine ⟨ts, hlex, List.length_pos_iff.2 hne, fun fuel hfuel => ?_⟩
    rw [List.length_singleton] at hfuel
    obtain ⟨fuel, rfl⟩ : ∃ n, fuel = n + 1 := ⟨fuel - 1, by omega⟩
    have h := hread [] stops_nil
    rw [List.append_nil] at h
    rw [parts, h]
    exact hne
  | @cons p ps cs ds h hs ih =>
    obtain ⟨hp, hps⟩ := List.forall_mem_cons.1 hps
    obtain ⟨ts, hlex, hne, hread⟩ := h.reads hp
    obtain ⟨us, hlex', hlength, hread'⟩ := ih hps
    refine ⟨ts ++ "," :: us, hlex.append (hlex'.sign (by decide)), ?_, fun fuel hfuel => ?_⟩
    · rw [List.length_append, List.length_cons, List.length_cons]
      omega
    · rw [List.length_cons] at hfuel
      obtain ⟨fuel, rfl⟩ : ∃ n, fuel = n + 1 := ⟨fuel - 1, by omega⟩
      rw [parts, hread _ (stops_cons (.inr (.inr rfl)) us)]
      · simp only [hread' fuel (by omega)]
      · simp

theorem exists_writes {ps : List Part} (hne : ps ≠ [])
    (hps : ∀ p ∈ ps, p.matcher.isWritable = true) : ∃ cs, Writes ps cs := by
  have hpart : ∀ p ∈ ps, ∃ cs, p.Writes cs := by
    intro p hp
    obtain ⟨cs, hcs⟩ := Matcher.exists_writes p.matcher (hps p hp)
    obtain ⟨mark, hmark⟩ : ∃ mark, mark ∈ p.priority.marks := by
      cases p.priority <;> exact ⟨_, List.mem_cons_self⟩
    exact ⟨_, mark, hmark, cs, hcs, rfl⟩
  induction ps with
  | nil => exact absurd rfl hne
  | cons p ps ih =>
    obtain ⟨cs, hcs⟩ := hpart p List.mem_cons_self
    cases ps with
    | nil => exact ⟨cs, .last hcs⟩
    | cons p' ps =>
      obtain ⟨ds, hds⟩ := ih (List.cons_ne_nil _ _)
        (fun q hq => hps q (List.mem_cons_of_mem _ hq))
        (fun q hq => hpart q (List.mem_cons_of_mem _ hq))
      exact ⟨_, .cons hcs hds⟩

/-- **What is written is read back.** A selector of parts that can be written has a text, and
each of its texts, whichever way its priorities are written and however many parentheses stand
around its operands, is read as the same parts. -/
theorem parse_of_writes {ps : List Part} (hne : ps ≠ [])
    (hps : ∀ p ∈ ps, p.matcher.isWritable = true) :
    (∃ cs, Writes ps cs) ∧ ∀ text : String, Writes ps text.toList → parse text = ps := by
  refine ⟨exists_writes hne hps, fun text htext => ?_⟩
  obtain ⟨ts, hlex, hlength, hread⟩ := htext.reads hps
  have htokens : tokens text = ts := by
    have h := hlex []
    rwa [List.append_nil, tokensFrom, List.append_nil] at h
  rw [parse, htokens]
  exact hread _ (by omega)

/-- Two parts: one with all kinds of operand, and one that looks like a priority. -/
def markup : List Part :=
  [⟨.left, .and [.path ["text.html", "a-"], .not (.or [.path ["LL:"], .never])]⟩,
   ⟨.normal, .not (.not (.path ["X:"]))⟩]

/-- The two parts above are read back from all their texts. -/
theorem parse_of_writes_markup :
    markup ≠ [] ∧ (∀ p ∈ markup, p.matcher.isWritable = true) ∧
    (∃ cs, Writes markup cs) ∧
    ∀ text : String, Writes markup text.toList → parse text = markup :=
  ⟨by decide, by decide +kernel, parse_of_writes (by decide) (by decide +kernel)⟩

example : parse "L:((text.html a-)-((LL:)|())),--(X:)" = markup := rfl

end Highlight.Selector
