import RimStone.Laws.Source.Delimiter
import RimStone.Lib.First

/-!
# Keywords outside of strings

What a search for a keyword is for: the first place where it is outside of strings and parentheses, as a text is
read from its beginning. `Lex` reads a text: it knows how many backslashes are before a quote, and what a character
constant is. The search counts quotes and parentheses instead, looks one character back, and forgets what was
before the place where it begins again; `judge` says what it makes of a place. Its answer is right just when what
it makes of the places is, up to the first one that it takes.
-/

namespace RimStone

open RimStone.Lib

/-! ## How a text is read -/

def escapeDigit (c : UInt8) : Bool := 48 ≤ c && c ≤ 57 || 65 ≤ c && c ≤ 70 || 97 ≤ c && c ≤ 102

/-- How long the character constant is that a text begins with; 0 if it begins with none. -/
def constantLen : Bytes → Nat
  | 39 :: 92 :: _ :: s =>
    let digits := (s.takeWhile escapeDigit).length
    if s[digits]? = some 39 then digits + 4 else 0
  | 39 :: c :: 39 :: _ => if c = 39 then 0 else 3
  | _ => 0

structure Lex where
  inString : Bool := false
  /-- The backslashes right before, in a string. -/
  slashes : Nat := 0
  /-- What is to come of a character constant. -/
  constant : Nat := 0
  /-- The parentheses that are open. -/
  depth : Nat := 0
  deriving DecidableEq, Repr

namespace Lex

def read (x : Lex) (c : UInt8) (rest : Bytes) : Lex :=
  if x.constant ≠ 0 then { x with constant := x.constant - 1 }
  else if x.inString then
    if c = 92 then { x with slashes := x.slashes + 1 }
    else if c = 34 ∧ x.slashes % 2 = 0 then { x with inString := false, slashes := 0 }
    else { x with slashes := 0 }
  else if constantLen (c :: rest) ≠ 0 then { x with constant := constantLen (c :: rest) - 1 }
  else if c = 34 then { x with inString := true }
  else if c = 40 then { x with depth := x.depth + 1 }
  else if c = 41 then { x with depth := x.depth - 1 }
  else x

def reads (x : Lex) : Bytes → Nat → Lex
  | [], _ => x
  | _, 0 => x
  | c :: s, k + 1 => (x.read c s).reads s k

end Lex

/-- Where the reading of a text is at a place of it. -/
def lexAt (str : Bytes) (k : Nat) : Lex := Lex.reads {} str k

structure KeywordAt (str find : Bytes) (hasSpaces paren : Bool) (k : Nat) : Prop where
  found : find <+: str.drop k
  outside : (lexAt str k).inString = false
  depth : paren = true → (lexAt str k).depth = 0
  plain : ¬ (find.length = 1 ∧ k ≠ 0 ∧ str[k - 1]? = some 39 ∧ str[k + 1]? = some 39)
  before : hasSpaces = true → k = 0 ∨ str[k - 1]? = some 32
  behind : hasSpaces = true → find.getLast? = some 32 ∨ str[k + find.length]? = none ∨ str[k + find.length]? = some 32

/-! ## What the search makes of a place -/

instance {delim r : Bytes} {beg f : Nat} : Decidable (PassedOver delim r beg f) :=
  inferInstanceAs (Decidable (beg ≠ f ∧ oneChar delim = true ∧ r[f - 1]? = some 39 ∧ r[f + 1]? = some 39))

/-- Where the search has begun that comes to a place, if it took none before. -/
def searchBeg (str find : Bytes) : Nat → Nat
  | 0 => 0
  | f + 1 =>
    if f < searchBeg str find f ∨ ¬ find <+: str.drop f then searchBeg str find f
    else if PassedOver find str (searchBeg str find f) f then f + 2
    else f + 1

/-- As many parentheses are opened as closed before a place, and no string is open. -/
def countsOut (str : Bytes) (paren : Bool) (f : Nat) : Bool :=
  !(goForth paren (str.take f)).within && (goForth paren (str.take f)).leftPar == (goForth paren (str.take f)).rightPar

/-- Whether the search that comes to a place takes it. -/
def judge (str find : Bytes) (hasSpaces paren : Bool) (f : Nat) : Except SourceError Bool :=
  if f < searchBeg str find f ∨ ¬ find <+: str.drop f ∨ PassedOver find str (searchBeg str find f) f then .ok false
  else if hasSpaces = true ∧ f ≠ searchBeg str find f ∧ str[f - 1]? ≠ some 32 then .ok false
  else (if hasSpaces then endsWord str find f else .ok true).map (· && countsOut str paren f)

section Rounds

variable {str find : Bytes} {hasSpaces paren : Bool} {beg f : Nat}

theorem searchBeg_unfound (h : ¬ find <+: str.drop f) : searchBeg str find (f + 1) = searchBeg str find f :=
  if_pos (.inr h)

theorem searchBeg_over (hle : searchBeg str find f ≤ f) (h : find <+: str.drop f)
    (hover : PassedOver find str (searchBeg str find f) f) : searchBeg str find (f + 1) = f + 2 := by
  unfold searchBeg
  rw [if_neg (by simp [h, hle]), if_pos hover]

theorem searchBeg_again (hle : searchBeg str find f ≤ f) (h : find <+: str.drop f)
    (hover : ¬ PassedOver find str (searchBeg str find f) f) : searchBeg str find (f + 1) = f + 1 := by
  unfold searchBeg
  rw [if_neg (by simp [h, hle]), if_neg hover]

/-- A search is at `f`, and took nothing. -/
structure At (str find : Bytes) (hasSpaces paren : Bool) (beg f : Nat) : Prop where
  beg_eq : searchBeg str find f = beg
  le : beg ≤ f
  passed : ∀ j < f, judge str find hasSpaces paren j = .ok false

theorem At.unfound (h : At str find hasSpaces paren beg f) (hf : ¬ find <+: str.drop f) :
    At str find hasSpaces paren beg (f + 1) where
  beg_eq := (searchBeg_unfound hf).trans h.beg_eq
  le := Nat.le_succ_of_le h.le
  passed := Nat.forall_lt_succ_right.mpr ⟨h.passed, if_pos (.inr (.inl hf))⟩

theorem At.over (h : At str find hasSpaces paren beg f) (hf : find <+: str.drop f) (hover : PassedOver find str beg f) :
    At str find hasSpaces paren (f + 2) (f + 2) := by
  obtain ⟨rfl, hle, hpassed⟩ := h
  have hnext := searchBeg_over hle hf hover
  have hskipped : f + 1 < searchBeg str find (f + 1) := by omega
  refine ⟨?_, Nat.le_refl _, ?_⟩
  · show (if f + 1 < searchBeg str find (f + 1) ∨ _ then searchBeg str find (f + 1) else _) = _
    rw [if_pos (.inl hskipped), hnext]
  · exact Nat.forall_lt_succ_right.mpr ⟨Nat.forall_lt_succ_right.mpr ⟨hpassed, if_pos (.inr (.inr hover))⟩, if_pos (.inl hskipped)⟩

theorem At.again (h : At str find hasSpaces paren beg f) (hf : find <+: str.drop f) (hover : ¬ PassedOver find str beg f)
    (hbad : judge str find hasSpaces paren f = .ok false) : At str find hasSpaces paren (f + 1) (f + 1) := by
  obtain ⟨rfl, hle, hpassed⟩ := h
  exact ⟨searchBeg_again hle hf hover, Nat.le_refl _, Nat.forall_lt_succ_right.mpr ⟨hpassed, hbad⟩⟩

/-- A keyword that is not passed over is taken as it is judged, or the search begins again behind it. -/
theorem findLoop_judged (hfind : find ≠ []) (hbeg : searchBeg str find f = beg) (hle : beg ≤ f)
    (hf : find <+: str.drop f) (hover : ¬ PassedOver find str beg f) :
    findLoop str find hasSpaces paren beg f (str.drop f) = judge str find hasSpaces paren f >>= fun good =>
      if good then .ok (some f) else findLoop str find hasSpaces paren (f + 1) (f + 1) (str.drop (f + 1)) := by
  subst hbeg
  obtain ⟨c, hc⟩ := drop_cons_of_prefix hfind hf
  have hpre : find.isPrefixOf (c :: str.drop (f + 1)) = true := by
    rw [← hc]
    exact List.isPrefixOf_iff_prefix.mpr hf
  have hmet : ¬ (f < searchBeg str find f ∨ ¬ find <+: str.drop f ∨ PassedOver find str (searchBeg str find f) f) := by
    rintro (hlt | hno | hyes)
    · omega
    · exact hno hf
    · exact hover hyes
  unfold judge
  rw [if_neg hmet, hc]
  conv_lhs => unfold findLoop
  rw [hpre, passesOver_eq_false hover, Bool.not_true, if_neg Bool.false_ne_true, if_neg Bool.false_ne_true]
  by_cases hjoined : hasSpaces = true ∧ f ≠ searchBeg str find f ∧ str[f - 1]? ≠ some 32
  · obtain ⟨rfl, hne, hprev⟩ := hjoined
    have hskip : (true && f != searchBeg str find f && str[f - 1]? != some 32) = true := by
      simp [hne, hprev]
    rw [hskip, if_pos rfl, if_pos ⟨rfl, hne, hprev⟩]
    rfl
  · have hspaced : (hasSpaces && f != searchBeg str find f && str[f - 1]? != some 32) = false := by
      rw [Bool.eq_false_iff]
      intro hall
      simp only [Bool.and_eq_true, bne_iff_ne] at hall
      exact hjoined ⟨hall.1.1, hall.1.2, hall.2⟩
    rw [hspaced, if_neg hjoined, if_neg Bool.false_ne_true]
    cases hends : (if hasSpaces then endsWord str find f else .ok true) with
    | error e => rfl
    | ok good =>
      cases good with
      | false => rfl
      | true => rfl

/-- The loop of the search answers as it judges. -/
theorem findLoop_searches (hfind : find ≠ []) (h : At str find hasSpaces paren beg f) :
    Searches (judge str find hasSpaces paren) (findLoop str find hasSpaces paren beg f (str.drop f)) := by
  induction hn : str.length - f using Nat.strong_induction_on generalizing beg f with
  | _ n ih =>
    by_cases hlt : f < str.length
    · by_cases hfound : find <+: str.drop f
      · by_cases hover : PassedOver find str beg f
        · rw [findLoop_quoted hfind hfound hover]
          exact ih (str.length - (f + 2)) (by omega) (h.over hfound hover) rfl
        · rw [findLoop_judged hfind h.beg_eq h.le hfound hover]
          cases hjudge : judge str find hasSpaces paren f with
          | error e => exact ⟨f, hjudge, h.passed⟩
          | ok good =>
            cases good with
            | false => exact ih (str.length - (f + 1)) (by omega) (h.again hfound hover hjudge) rfl
            | true => exact ⟨hjudge, h.passed⟩
      · rw [findLoop_unfound hfound hlt]
        exact ih (str.length - (f + 1)) (by omega) (h.unfound hfound) rfl
    · -- the search is at the end, where no keyword is
      have hnil : str.drop f = [] := List.drop_eq_nil_iff.mpr (Nat.not_lt.mp hlt)
      rw [hnil]
      intro k
      by_cases hk : k < f
      · exact h.passed k hk
      · refine if_pos (.inr (.inl fun hfound => ?_))
        obtain ⟨c, hc⟩ := drop_cons_of_prefix hfind hfound
        rw [List.drop_eq_nil_iff.mpr (by omega)] at hc
        cases hc

end Rounds

/-! ## Texts without backslashes and single quotes -/

/-- The reading of a text and the counts on the way agree. -/
structure LexAgrees (paren : Bool) (x : Lex) (w : Forth) : Prop where
  constant : x.constant = 0
  slashes : x.slashes = 0
  inString : x.inString = w.within
  prev : w.prev ≠ some 92
  depth : paren = true → x.depth + w.rightPar = w.leftPar

theorem constantLen_of_ne {c : UInt8} {s : Bytes} (hc : c ≠ 39) : constantLen (c :: s) = 0 := by
  unfold constantLen
  split
  next heq => exact absurd (List.cons.inj heq).1 hc
  next heq => exact absurd (List.cons.inj heq).1 hc
  next => rfl

theorem LexAgrees.read {paren : Bool} {x : Lex} {w : Forth} {c : UInt8} (h : LexAgrees paren x w) (rest : Bytes) (hslash : c ≠ 92)
    (hquote : c ≠ 39) (hnest : paren = true → (w.go paren c).rightPar ≤ (w.go paren c).leftPar) :
    LexAgrees paren (x.read c rest) (w.go paren c) := by
  obtain ⟨inString, slashes, constant, depth⟩ := x
  obtain ⟨hconstant, hslashes, hin, hprev, hdepth⟩ := h
  dsimp only at hconstant hslashes hin hdepth
  subst hconstant hslashes hin
  have hwithin : (w.go paren c).within = (w.within ^^ quoteCounts w.after c) := go_within
  have hcounts : quoteCounts w.after c = (c == 34) := by
    simp [quoteCounts, Forth.after, hprev]
  rw [hcounts] at hwithin
  have hprev' : (w.go paren c).prev ≠ some 92 := by
    simpa [Forth.go] using hslash
  unfold Lex.read
  rw [if_neg (by simp), constantLen_of_ne hquote, if_neg hslash, if_neg (show ¬ (0 ≠ 0) by simp)]
  cases hopen : w.within with
  | true =>
    rw [if_pos rfl]
    by_cases hc : c = 34
    · subst hc
      rw [if_pos ⟨rfl, rfl⟩]
      exact ⟨rfl, rfl, by rw [hwithin, hopen]; rfl, hprev', fun hparen => by simpa [Forth.go] using hdepth hparen⟩
    · have hstays : (w.go paren c).within = true := by
        rw [hwithin, hopen]
        simp [hc]
      have hodd : w.quotes % 2 = 1 := by simpa [Forth.within] using hopen
      rw [if_neg fun hall => hc hall.1]
      exact ⟨rfl, rfl, hstays.symm, hprev', fun hparen => by simpa [Forth.go, hc, hodd] using hdepth hparen⟩
  | false =>
    have heven : w.quotes % 2 = 0 := by
      have := Nat.mod_two_eq_zero_or_one w.quotes
      have hnot : ¬ w.quotes % 2 = 1 := by simpa [Forth.within] using hopen
      omega
    rw [if_neg Bool.false_ne_true]
    by_cases hc : c = 34
    · subst hc
      rw [if_pos rfl]
      exact ⟨rfl, rfl, by rw [hwithin, hopen]; rfl, hprev', fun hparen => by simpa [Forth.go] using hdepth hparen⟩
    · have hstays : (w.go paren c).within = false := by
        rw [hwithin, hopen]
        simp [hc]
      rw [if_neg hc]
      by_cases hleft : c = 40
      · subst hleft
        refine ⟨rfl, rfl, hstays.symm, hprev', fun hparen => ?_⟩
        have hsum := hdepth hparen
        subst hparen
        simp [Forth.go, heven]
        omega
      · rw [if_neg hleft]
        by_cases hright : c = 41
        · subst hright
          refine ⟨rfl, rfl, hstays.symm, hprev', fun hparen => ?_⟩
          have hsum := hdepth hparen
          have hle := hnest hparen
          subst hparen
          simp [Forth.go, heven] at hle ⊢
          omega
        · rw [if_neg hright]
          exact ⟨rfl, rfl, hstays.symm, hprev', fun hparen => by simpa [Forth.go, hc, hleft, hright] using hdepth hparen⟩

/-- A text without backslashes and single quotes, where no parenthesis is closed that is not open. -/
structure PlainLine (paren : Bool) (str : Bytes) : Prop where
  slash : 92 ∉ str
  quote : 39 ∉ str
  nested : paren = true → ∀ k, (goForth paren (str.take k)).rightPar ≤ (goForth paren (str.take k)).leftPar

variable {str find : Bytes} {hasSpaces paren : Bool} {k : Nat}

theorem PlainLine.agrees (h : PlainLine paren str) (hk : k ≤ str.length) :
    LexAgrees paren (lexAt str k) (goForth paren (str.take k)) := by
  have hreads : ∀ (s : Bytes) (j : Nat) (x : Lex), str.drop j = s → j ≤ k → LexAgrees paren x (goForth paren (str.take j)) →
      LexAgrees paren (x.reads s (k - j)) (goForth paren (str.take k)) := by
    intro s
    induction s with
    | nil =>
      intro j x hs hjk hx
      obtain rfl : j = k := by have := List.drop_eq_nil_iff.mp hs; omega
      rwa [Nat.sub_self]
    | cons c s ih =>
      intro j x hs hjk hx
      obtain rfl | hlt := Nat.eq_or_lt_of_le hjk
      · rw [Nat.sub_self]
        exact hx
      · have hj : j < str.length := by omega
        obtain ⟨hc, hs'⟩ := List.cons.inj ((List.drop_eq_getElem_cons hj).symm.trans hs)
        have hmem : c ∈ str := hc ▸ List.getElem_mem hj
        have hnext : goForth paren (str.take (j + 1)) = (goForth paren (str.take j)).go paren c := by
          rw [List.take_succ_eq_append_getElem hj, goForth_snoc, hc]
        obtain ⟨m, hm⟩ : ∃ m, k - j = m + 1 := ⟨k - (j + 1), by omega⟩
        have hrest := ih (j + 1) (x.read c s) hs' hlt (by
          rw [hnext]
          exact hx.read s (fun e => h.slash (e ▸ hmem)) (fun e => h.quote (e ▸ hmem)) fun hparen => by
            rw [← hnext]
            exact h.nested hparen (j + 1))
        rw [hm]
        rwa [show k - (j + 1) = m by omega] at hrest
  exact hreads str 0 {} rfl (Nat.zero_le k) ⟨rfl, rfl, rfl, by simp [goForth], fun _ => rfl⟩

theorem PlainLine.not_over {beg f : Nat} (h : PlainLine paren str) : ¬ PassedOver find str beg f :=
  fun hover => h.quote (List.mem_of_getElem? hover.2.2.1)

theorem PlainLine.searchBeg_le (h : PlainLine paren str) (find : Bytes) (f : Nat) : searchBeg str find f ≤ f := by
  induction f with
  | zero => exact Nat.le_refl _
  | succ f ih =>
    unfold searchBeg
    rw [if_neg h.not_over]
    split <;> omega

theorem PlainLine.countsOut_iff (h : PlainLine paren str) (hk : k ≤ str.length) :
    countsOut str paren k = true ↔ (lexAt str k).inString = false ∧ (paren = true → (lexAt str k).depth = 0) := by
  have hagrees := h.agrees hk
  unfold countsOut
  rw [hagrees.inString, Bool.and_eq_true, Bool.not_eq_true', beq_iff_eq]
  cases paren with
  | false => simp [goForth_parens]
  | true =>
    have hsum := hagrees.depth rfl
    refine and_congr_right fun _ => ⟨fun heq _ => by omega, fun hzero => ?_⟩
    have := hzero rfl
    omega

/-- In such a text the search judges all places. -/
theorem PlainLine.judged (h : PlainLine paren str) (hfind : find ≠ []) :
    Judged (judge str find false paren) (KeywordAt str find false paren) := by
  intro k
  left
  by_cases hfound : find <+: str.drop k
  · have hk : k ≤ str.length := by
      obtain ⟨c, hc⟩ := drop_cons_of_prefix hfind hfound
      by_contra hlt
      rw [List.drop_eq_nil_iff.mpr (by omega)] at hc
      cases hc
    have hmet : ¬ (k < searchBeg str find k ∨ ¬ find <+: str.drop k ∨ PassedOver find str (searchBeg str find k) k) := by
      have := h.searchBeg_le find k
      rintro (hlt | hno | hover)
      · omega
      · exact hno hfound
      · exact h.not_over hover
    have hjudge : judge str find false paren k = .ok (countsOut str paren k) := by
      unfold judge
      rw [if_neg hmet, if_neg (fun hall => Bool.false_ne_true hall.1)]
      rfl
    cases hcounts : countsOut str paren k with
    | true =>
      obtain ⟨houtside, hdepth⟩ := (h.countsOut_iff hk).mp hcounts
      have hplain : ¬ (find.length = 1 ∧ k ≠ 0 ∧ str[k - 1]? = some 39 ∧ str[k + 1]? = some 39) :=
        fun hall => h.quote (List.mem_of_getElem? hall.2.2.1)
      exact .inl ⟨hjudge.trans (congrArg _ hcounts), hfound, houtside, hdepth, hplain, fun hs => (Bool.false_ne_true hs).elim,
        fun hs => (Bool.false_ne_true hs).elim⟩
    | false =>
      refine .inr ⟨hjudge.trans (congrArg _ hcounts), fun hat => ?_⟩
      rw [(h.countsOut_iff hk).mpr ⟨hat.outside, hat.depth⟩] at hcounts
      cases hcounts
  · exact .inr ⟨if_pos (.inr (.inl hfound)), fun hat => hfound hat.found⟩

end RimStone
