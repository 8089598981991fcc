import RimStone.Laws.Source.Keyword
import Mathlib.Order.Bounds.Basic

/-!
# Delimiters outside of quotes

A search for a delimiter finds the first place where it is that has an even number of quotes before it, where a
quote after a backslash does not count. A delimiter of one character that stands between two single quotes is a
character and no delimiter.

The search goes on behind a place that it does not take, and so it forgets what was before. `Searched` says what
it may forget: whether the character before is the beginning of another quoted character, unless all that is within
quotes, or no character has been passed since.
-/

namespace RimStone

/-- How many quotes are in a text after a character, those after a backslash aside. -/
def quotes (before : Option UInt8) : Bytes → Nat
  | [] => 0
  | c :: t => (if c = 34 ∧ before ≠ some 92 then 1 else 0) + quotes (some c) t

/-- A delimiter of one character at a place, between single quotes of which the first does not close the same. -/
def quotedChar (delim r : Bytes) : Nat → Bool
  | 0 => false
  | 1 => oneChar delim && r[0]? == some 39 && delim.isPrefixOf (r.drop 1) && r[2]? == some 39
  | k + 2 =>
    oneChar delim && r[k + 1]? == some 39 && delim.isPrefixOf (r.drop (k + 2)) && r[k + 3]? == some 39 &&
      !quotedChar delim r k

/-- A delimiter that counts at a place of a text. -/
structure DelimAt (delim r : Bytes) (k : Nat) : Prop where
  found : delim <+: r.drop k
  outside : quotes none (r.take k) % 2 = 0
  plain : quotedChar delim r k = false

variable {delim r : Bytes} {k beg f : Nat} {c : UInt8} {w : Forth}

theorem quotes_go (t : Bytes) (w : Forth) : (t.foldl (Forth.go false) w).quotes = w.quotes + quotes w.prev t := by
  induction t generalizing w with
  | nil => rfl
  | cons c t ih =>
    rw [List.foldl_cons, ih]
    by_cases hc : c = 34 ∧ w.prev ≠ some 92
    · have hgo : (Forth.go false w c).quotes = w.quotes + 1 := by
        simp [Forth.go, hc]
      rw [hgo, quotes, if_pos hc, Nat.add_assoc]
      rfl
    · have hgo : (Forth.go false w c).quotes = w.quotes := by
        simp only [Forth.go, Bool.and_eq_true, beq_iff_eq, bne_iff_ne, ne_eq, if_neg hc]
      rw [hgo, quotes, if_neg hc, Nat.zero_add]
      rfl

/-- Whether the text before a place leaves a string open. -/
def insideAt (r : Bytes) (k : Nat) : Bool := (goForth false (r.take k)).within

theorem insideAt_eq : insideAt r k = (quotes none (r.take k) % 2 == 1) := by
  have h := quotes_go (r.take k) {}
  rw [Nat.zero_add] at h
  unfold insideAt Forth.within goForth
  rw [h]

/-- A single quote opens no string and closes none. -/
theorem insideAt_succ (h : r[k]? = some 39) : insideAt r (k + 1) = insideAt r k := by
  obtain ⟨hk, hget⟩ := List.getElem?_eq_some_iff.mp h
  unfold insideAt
  rw [List.take_succ_eq_append_getElem hk, goForth_snoc, go_within, hget]
  simp [quoteCounts]

theorem getElem?_of_found {d : UInt8} (hd : delim.head? = some d) (h : delim <+: r.drop k) : r[k]? = some d := by
  obtain ⟨t, ht⟩ := h
  obtain ⟨ds, rfl⟩ := List.head?_eq_some_iff.mp hd
  have hget : (r.drop k)[0]? = some d := by
    rw [← ht]
    rfl
  rwa [List.getElem?_drop, Nat.add_zero] at hget

/-- Where a delimiter is at two places in a row, all its characters are the same. -/
theorem prefix_back {d : UInt8} (hd : delim.head? = some d) (h : delim <+: r.drop (k + 1)) (h' : delim <+: r.drop (k + 2))
    (hk : r[k]? = some d) : delim <+: r.drop k := by
  rw [List.prefix_iff_getElem?] at h h' ⊢
  intro i hi
  rw [List.getElem?_drop]
  have hhead : ∀ h0 : 0 < delim.length, delim[0] = d := by
    intro h0
    rw [List.head?_eq_getElem?, List.getElem?_eq_getElem h0] at hd
    exact Option.some.inj hd
  cases i with
  | zero => rw [Nat.add_zero, hk, hhead hi]
  | succ i =>
    -- the character here is the one before in the second occurrence, and that is the same as in the first
    have hlow : i < delim.length := by omega
    have h₁ := h i hlow
    have h₂ := h' i hlow
    have h₃ := h (i + 1) hi
    rw [List.getElem?_drop] at h₁ h₂ h₃
    have hplace : k + 1 + (i + 1) = k + 2 + i := by omega
    have hback : k + (i + 1) = k + 1 + i := by omega
    rw [hplace, h₂] at h₃
    rw [hback, h₁]
    exact h₃

/-- Within a string, where the delimiter begins with a single quote. -/
def InsideQuote (delim r : Bytes) (k : Nat) : Prop := delim.head? = some 39 ∧ insideAt r k = true

theorem InsideQuote.succ (h : InsideQuote delim r k) (hk : r[k]? = some 39) : InsideQuote delim r (k + 1) :=
  ⟨h.1, (insideAt_succ hk).trans h.2⟩

theorem InsideQuote.not_delimAt (h : InsideQuote delim r k) : ¬ DelimAt delim r k := by
  intro hk
  have hin := h.2
  rw [insideAt_eq, hk.outside] at hin
  cases hin

/-- The search from `beg` on is at `f`. -/
structure Searched (delim r : Bytes) (beg f : Nat) : Prop where
  le : beg ≤ f
  /-- No place so far counts. -/
  passed : ∀ j < f, ¬ DelimAt delim r j
  /-- The delimiter has not been met since the search began again. -/
  unmet : ∀ j, beg ≤ j → j < f → ¬ delim <+: r.drop j
  fresh : quotedChar delim r beg = false ∨ InsideQuote delim r beg
  before : ∀ j, beg = j + 1 → quotedChar delim r j = false ∨ InsideQuote delim r beg

theorem Searched.start : Searched delim r 0 0 where
  le := Nat.le_refl _
  passed := fun j hj => absurd hj (Nat.not_lt_zero j)
  unmet := fun j _ hj => absurd hj (Nat.not_lt_zero j)
  fresh := Or.inl rfl
  before := fun j hj => absurd hj.symm (Nat.succ_ne_zero j)

/-- The delimiter is not at `f`. -/
theorem Searched.unfound (h : Searched delim r beg f) (hf : ¬ delim <+: r.drop f) : Searched delim r beg (f + 1) where
  le := Nat.le_succ_of_le h.le
  passed := Nat.forall_lt_succ_right.mpr ⟨h.passed, fun hk => hf hk.found⟩
  unmet := by
    intro j hj hlt
    obtain hlt | rfl := Nat.lt_succ_iff_lt_or_eq.mp hlt
    · exact h.unmet j hj hlt
    · exact hf
  fresh := h.fresh
  before := h.before

/-- Where a quoted character is at `k + 1`, a single quote is at `k`. -/
theorem quote_of_quotedChar (h : quotedChar delim r (k + 1) = true) :
    r[k]? = some 39 ∧ delim <+: r.drop (k + 1) ∧ r[k + 2]? = some 39 ∧ oneChar delim = true := by
  cases k with
  | zero =>
    simp only [quotedChar, Bool.and_eq_true, beq_iff_eq, List.isPrefixOf_iff_prefix] at h
    exact ⟨h.1.1.2, h.1.2, h.2, h.1.1.1⟩
  | succ k =>
    simp only [quotedChar, Bool.and_eq_true, beq_iff_eq, List.isPrefixOf_iff_prefix] at h
    exact ⟨h.1.1.1.2, h.1.1.2, h.1.2, h.1.1.1.1⟩

theorem quotedChar_false (h : ¬ delim <+: r.drop k) : quotedChar delim r k = false := by
  cases k with
  | zero => rfl
  | succ k =>
    rw [Bool.eq_false_iff]
    intro hq
    exact h (quote_of_quotedChar hq).2.1

/-- The delimiter is at `f` within a string, where the search begins again right behind. -/
theorem Searched.inside (h : Searched delim r beg f) {d : UInt8} (hd : delim.head? = some d)
    (hfound : delim <+: r.drop f) (hin : insideAt r f = true) (hq : quotedChar delim r f = false ∨ InsideQuote delim r f) :
    Searched delim r (f + 1) (f + 1) where
  le := Nat.le_refl _
  passed := by
    refine Nat.forall_lt_succ_right.mpr ⟨h.passed, fun hk => ?_⟩
    rw [insideAt_eq, hk.outside] at hin
    cases hin
  unmet := fun j hj hlt => absurd hlt (Nat.not_lt.mpr hj)
  fresh := by
    cases hnext : quotedChar delim r (f + 1) with
    | false => exact Or.inl rfl
    | true =>
      obtain ⟨hf, -⟩ := quote_of_quotedChar hnext
      have hd' := getElem?_of_found hd hfound
      rw [hf] at hd'
      obtain rfl := Option.some.inj hd'
      exact Or.inr (InsideQuote.succ ⟨hd, hin⟩ hf)
  before := by
    intro j hj
    obtain rfl := Nat.succ.inj hj
    refine hq.imp_right fun hs => hs.succ (getElem?_of_found hs.1 hfound)

/-- A quoted character at `f + 1` is passed over, with the single quote that closes it. -/
theorem Searched.skip (h : Searched delim r beg (f + 1)) (hbeg : beg ≠ f + 1) (hfound : delim <+: r.drop (f + 1))
    (hopen : r[f]? = some 39) (hclose : r[f + 2]? = some 39)
    (hq : quotedChar delim r (f + 1) = true ∨ InsideQuote delim r (f + 1)) :
    Searched delim r (f + 3) (f + 3) := by
  have hle := h.le
  have hunmet := h.unmet f (by omega) (Nat.lt_succ_self f)
  -- the delimiter is not at the closing quote, since it would be at the opening one as well
  have hnext : ¬ delim <+: r.drop (f + 2) := by
    intro hnext
    cases hd : delim.head? with
    | none =>
      rw [List.head?_eq_none_iff.mp hd] at hunmet
      exact hunmet (List.nil_prefix)
    | some d =>
      have hd' := getElem?_of_found hd hnext
      rw [hclose] at hd'
      obtain rfl := Option.some.inj hd'
      exact hunmet (prefix_back hd hfound hnext hopen)
  have hstuck : InsideQuote delim r (f + 1) → InsideQuote delim r (f + 3) := by
    intro hs
    exact (hs.succ (getElem?_of_found hs.1 hfound)).succ hclose
  refine ⟨Nat.le_refl _, ?_, fun j hj hlt => absurd hlt (Nat.not_lt.mpr hj), ?_, ?_⟩
  · refine Nat.forall_lt_succ_right.mpr ⟨Nat.forall_lt_succ_right.mpr ⟨h.passed, fun hk => ?_⟩, fun hk => hnext hk.found⟩
    obtain hq | hs := hq
    · rw [hk.plain] at hq
      cases hq
    · exact hs.not_delimAt hk
  · obtain hq | hs := hq
    · left
      simp only [quotedChar, hq, Bool.not_true, Bool.and_false]
    · exact Or.inr (hstuck hs)
  · intro j hj
    obtain rfl : j = f + 2 := by omega
    exact Or.inl (quotedChar_false hnext)

/-- Behind a place where the search began, the single quotes decide whether the delimiter is a quoted character,
or all that is within a string. -/
theorem Searched.quoted (h : Searched delim r beg (f + 1)) (hbeg : beg ≠ f + 1) (hfound : delim <+: r.drop (f + 1))
    (hone : oneChar delim = true) (hopen : r[f]? = some 39) (hclose : r[f + 2]? = some 39) :
    quotedChar delim r (f + 1) = true ∨ InsideQuote delim r (f + 1) := by
  have hle := h.le
  have hpre := List.isPrefixOf_iff_prefix.mpr hfound
  cases f with
  | zero =>
    left
    simp only [quotedChar, hone, hopen, hclose, hpre, beq_self_eq_true, Bool.and_self]
  | succ f =>
    have hq : quotedChar delim r f = false ∨ InsideQuote delim r (f + 2) := by
      by_cases hf : beg ≤ f
      · exact Or.inl (quotedChar_false (h.unmet f hf (by omega)))
      · obtain hq | hs := h.before f (by omega)
        · exact Or.inl hq
        · have heq : beg = f + 1 := by omega
          rw [heq] at hs
          exact Or.inr (hs.succ hopen)
    refine hq.imp_left fun hq => ?_
    simp only [quotedChar, hone, hopen, hclose, hpre, hq, beq_self_eq_true, Bool.and_self, Bool.not_false]

/-! ## One round of the loop -/

theorem drop_cons_of_prefix (hdelim : delim ≠ []) (h : delim <+: r.drop f) : ∃ c, r.drop f = c :: r.drop (f + 1) := by
  cases hrest : r.drop f with
  | nil =>
    rw [hrest] at h
    exact absurd (List.prefix_nil.mp h) hdelim
  | cons c rest =>
    refine ⟨c, ?_⟩
    rw [← List.tail_drop, hrest, List.tail_cons]

theorem findLoop_unfound {hasSpaces paren : Bool} (h : ¬ delim <+: r.drop f) (hlt : f < r.length) :
    findLoop r delim hasSpaces paren beg f (r.drop f) =
      findLoop r delim hasSpaces paren beg (f + 1) (r.drop (f + 1)) := by
  have hpre : delim.isPrefixOf (r[f] :: r.drop (f + 1)) = false := by
    rw [Bool.eq_false_iff, ne_eq, List.isPrefixOf_iff_prefix, ← List.drop_eq_getElem_cons hlt]
    exact h
  rw [List.drop_eq_getElem_cons hlt]
  conv_lhs => unfold findLoop
  rw [hpre]
  rfl

/-- A delimiter of one character that the search passes over as a quoted one. -/
def PassedOver (delim r : Bytes) (beg f : Nat) : Prop :=
  beg ≠ f ∧ oneChar delim = true ∧ r[f - 1]? = some 39 ∧ r[f + 1]? = some 39

theorem findLoop_quoted {hasSpaces paren : Bool} (hdelim : delim ≠ []) (h : delim <+: r.drop f)
    (hover : PassedOver delim r beg f) :
    findLoop r delim hasSpaces paren beg f (r.drop f) =
      findLoop r delim hasSpaces paren (f + 2) (f + 2) (r.drop (f + 2)) := by
  obtain ⟨c, hc⟩ := drop_cons_of_prefix hdelim h
  obtain ⟨hbeg, hone, hopen, hclose⟩ := hover
  have hpre : delim.isPrefixOf (c :: r.drop (f + 1)) = true := by
    rw [← hc]
    exact List.isPrefixOf_iff_prefix.mpr h
  have hne : (f != beg) = true := bne_iff_ne.mpr fun e => hbeg e.symm
  obtain ⟨hlt, hget⟩ := List.getElem?_eq_some_iff.mp hclose
  rw [hc]
  conv_lhs => unfold findLoop
  rw [hpre, hone, hne, hopen, List.head?_drop, hclose, List.drop_eq_getElem_cons hlt]
  rfl

theorem passesOver_eq_false (hover : ¬ PassedOver delim r beg f) :
    (oneChar delim && f != beg && r[f - 1]? == some 39 && (r.drop (f + 1)).head? == some 39) = false := by
  rw [Bool.eq_false_iff]
  intro hall
  simp only [Bool.and_eq_true, bne_iff_ne, ne_eq, beq_iff_eq, List.head?_drop] at hall
  obtain ⟨⟨⟨hone, hbeg⟩, hopen⟩, hclose⟩ := hall
  exact hover ⟨fun e => hbeg e.symm, hone, hopen, hclose⟩

/-- A delimiter that is not passed over is found, or the search begins again behind it. -/
theorem findLoop_unquoted (hdelim : delim ≠ []) (h : delim <+: r.drop f) (hover : ¬ PassedOver delim r beg f) :
    findLoop r delim false false beg f (r.drop f) =
      if insideAt r f then findLoop r delim false false (f + 1) (f + 1) (r.drop (f + 1)) else .ok (some f) := by
  obtain ⟨c, hc⟩ := drop_cons_of_prefix hdelim h
  have hpre : delim.isPrefixOf (c :: r.drop (f + 1)) = true := by
    rw [← hc]
    exact List.isPrefixOf_iff_prefix.mpr h
  rw [hc]
  conv_lhs => unfold findLoop
  rw [hpre, passesOver_eq_false hover]
  simp only [Bool.not_true, Bool.false_eq_true, if_false, Bool.false_and, goForth_parens, beq_self_eq_true,
    Bool.and_true]
  unfold insideAt
  cases (goForth false (r.take f)).within with
  | false => rfl
  | true => rfl

/-- Where the search does not pass over the delimiter as a quoted character, it is none, or all that is within a
string. -/
theorem Searched.unquoted (h : Searched delim r beg f) (hover : ¬ PassedOver delim r beg f) :
    quotedChar delim r f = false ∨ InsideQuote delim r f := by
  by_cases hbeg : beg = f
  · rw [← hbeg]
    exact h.fresh
  · cases hq : quotedChar delim r f with
    | false => exact Or.inl rfl
    | true =>
      cases f with
      | zero => cases hq
      | succ j =>
        obtain ⟨hopen, -, hclose, hone⟩ := quote_of_quotedChar hq
        exact absurd ⟨hbeg, hone, hopen, hclose⟩ hover

/-- Where the search passes over the delimiter, it goes on behind the closing quote. -/
theorem Searched.over (h : Searched delim r beg f) (hfound : delim <+: r.drop f) (hover : PassedOver delim r beg f) :
    Searched delim r (f + 2) (f + 2) := by
  obtain ⟨hbeg, hone, hopen, hclose⟩ := hover
  have hle := h.le
  obtain ⟨j, rfl⟩ : ∃ j, f = j + 1 := Nat.exists_eq_succ_of_ne_zero (by omega)
  exact h.skip hbeg hfound hopen hclose (h.quoted hbeg hfound hone hopen hclose)

/-- What a search answers: the first place that counts, or that there is none. -/
def Answers (delim r : Bytes) : Option Nat → Prop
  | none => ∀ k, ¬ DelimAt delim r k
  | some k => IsLeast {k | DelimAt delim r k} k

/-- The loop of the search answers from every place it can be at. -/
theorem findLoop_answers (hdelim : delim ≠ []) (h : Searched delim r beg f) :
    ∃ o, findLoop r delim false false beg f (r.drop f) = .ok o ∧ Answers delim r o := by
  obtain ⟨d, hd⟩ := Option.isSome_iff_exists.mp (List.isSome_head?.mpr hdelim)
  induction hn : r.length - f using Nat.strong_induction_on generalizing beg f with
  | _ n ih =>
    by_cases hlt : f < r.length
    · by_cases hfound : delim <+: r.drop f
      · by_cases hover : PassedOver delim r beg f
        · rw [findLoop_quoted hdelim hfound hover]
          exact ih (r.length - (f + 2)) (by omega) (h.over hfound hover) rfl
        · have hq := h.unquoted hover
          rw [findLoop_unquoted hdelim hfound hover]
          cases hin : insideAt r f with
          | true =>
            rw [if_pos rfl]
            exact ih (r.length - (f + 1)) (by omega) (h.inside hd hfound hin hq) rfl
          | false =>
            rw [if_neg Bool.false_ne_true]
            have hplain : quotedChar delim r f = false := by
              obtain hq | hs := hq
              · exact hq
              · rw [hs.2] at hin
                cases hin
            rw [insideAt_eq, beq_eq_false_iff_ne] at hin
            refine ⟨_, rfl, ⟨hfound, by omega, hplain⟩, fun k hk => ?_⟩
            exact Nat.not_lt.mp fun hlt => h.passed k hlt hk
      · rw [findLoop_unfound hfound hlt]
        exact ih (r.length - (f + 1)) (by omega) (h.unfound hfound) rfl
    · -- the search is at the end
      have hnil : r.drop f = [] := List.drop_eq_nil_iff.mpr (Nat.not_lt.mp hlt)
      rw [hnil]
      refine ⟨none, rfl, fun k hk => ?_⟩
      by_cases hkf : k < f
      · exact h.passed k hkf hk
      · have hget := getElem?_of_found hd hk.found
        rw [List.getElem?_eq_none (by omega)] at hget
        cases hget

/-- A search for a delimiter answers with the first place where it counts. -/
theorem rimFindKeyword0_answers (hdelim : delim ≠ []) :
    ∃ o, rimFindKeyword0 r delim false false = .ok o ∧ Answers delim r o := by
  unfold rimFindKeyword0
  rw [if_neg hdelim]
  exact findLoop_answers hdelim .start

end RimStone
