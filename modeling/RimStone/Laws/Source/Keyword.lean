import RimStone.Source.Keyword

/-!
# Marks outside of quotes

A search for a mark of two characters finds the first one with an even number of quotes before
it. A quote after a backslash does not count.
-/

namespace RimStone

/-- A quote counts, unless it is after a backslash. -/
def quoteCounts (after : Bool) (c : UInt8) : Bool := c == 34 && !after

/-- Where a mark first is, after a backslash or not, and after an odd number of quotes or an
even one. -/
def firstMark (a b : UInt8) (after odd : Bool) : Bytes → Option Nat
  | [] => none
  | c :: s =>
    if c = a ∧ s.head? = some b ∧ odd = false then some 0
    else (firstMark a b (c == 92) (odd ^^ quoteCounts after c) s).map (· + 1)

def Forth.after (w : Forth) : Bool := w.prev == some 92

variable {a b c : UInt8} {paren : Bool} {w : Forth} {s t : Bytes}

theorem go_within : (w.go paren c).within = (w.within ^^ quoteCounts w.after c) := by
  have hcount : quoteCounts w.after c = (c == 34 && w.prev != some 92) := rfl
  rw [hcount]
  unfold Forth.go Forth.within
  dsimp only
  cases (c == 34 && w.prev != some 92) with
  | false => simp
  | true =>
    have hmod := Nat.mod_two_eq_zero_or_one w.quotes
    obtain h | h := hmod <;> simp [h, Nat.add_mod]

theorem go_after : (w.go paren c).after = (c == 92) := by
  simp [Forth.go, Forth.after]

theorem go_parens (h : w.leftPar = w.rightPar) : (w.go false c).leftPar = (w.go false c).rightPar := by
  simpa [Forth.go] using h

theorem goForth_snoc : goForth paren (s ++ [c]) = (goForth paren s).go paren c := by
  unfold goForth
  rw [List.foldl_append]
  rfl

theorem goForth_parens : (goForth false s).leftPar = (goForth false s).rightPar := by
  have hgo : ∀ w : Forth, w.leftPar = w.rightPar →
      (s.foldl (Forth.go false) w).leftPar = (s.foldl (Forth.go false) w).rightPar := by
    induction s with
    | nil => exact fun _ h => h
    | cons c s ih => exact fun w h => ih _ (go_parens h)
  exact hgo {} rfl

theorem isPrefixOf_pair : [a, b].isPrefixOf (c :: s) = decide (c = a ∧ s.head? = some b) := by
  cases s with
  | nil => simp [List.isPrefixOf]
  | cons d s => simp [List.isPrefixOf, eq_comm, Bool.decide_and, Bool.beq_eq_decide_eq]

/-- The loop of the search finds the first mark. -/
theorem findLoop_mark {beg f : Nat} (hrest : s = t.drop f) :
    findLoop t [a, b] false false beg f s =
      .ok ((firstMark a b (goForth false (t.take f)).after (goForth false (t.take f)).within s).map (· + f)) := by
  induction s generalizing f beg with
  | nil => rfl
  | cons c s ih =>
    have hf : f < t.length := by
      have hlen := congrArg List.length hrest
      rw [List.length_cons, List.length_drop] at hlen
      omega
    have hcons := List.drop_eq_getElem_cons hf
    rw [← hrest] at hcons
    obtain ⟨hc, hs⟩ := List.cons.inj hcons
    have hnext : goForth false (t.take (f + 1)) = (goForth false (t.take f)).go false c := by
      rw [List.take_succ_eq_append_getElem hf, goForth_snoc, hc]
    have hgo : ∀ beg, findLoop t [a, b] false false beg (f + 1) s =
        .ok (((firstMark a b (c == 92) ((goForth false (t.take f)).within ^^ quoteCounts (goForth false (t.take f)).after c) s).map
          (· + 1)).map (· + f)) := by
      intro beg
      rw [ih hs, hnext, go_within, go_after, Option.map_map]
      congr 2
      funext k
      show k + (f + 1) = k + 1 + f
      omega
    unfold findLoop firstMark
    rw [isPrefixOf_pair]
    by_cases hmark : c = a ∧ s.head? = some b
    · obtain ⟨rfl, hb⟩ := hmark
      simp only [hb, and_self, decide_true, Bool.not_true, Bool.false_eq_true, if_false, true_and, oneChar,
        List.length_cons, List.length_nil, Nat.reduceAdd, Nat.reduceMod, Nat.reduceBEq, Bool.false_and, goForth_parens, beq_self_eq_true, Bool.and_true]
      cases hodd : (goForth false (t.take f)).within with
      | false => simp
      | true =>
        rw [hodd] at hgo
        simpa using hgo (f + 1)
    · have hnot : ∀ odd : Bool, ¬ (c = a ∧ s.head? = some b ∧ odd = false) :=
        fun _ ⟨hc, hb, _⟩ => hmark ⟨hc, hb⟩
      rw [if_neg (hnot _), decide_eq_false hmark]
      exact hgo beg

/-- A search for a mark finds the first one outside of quotes. -/
theorem rimFindKeyword0_mark : rimFindKeyword0 s [a, b] false false = .ok (firstMark a b false false s) := by
  unfold rimFindKeyword0
  rw [if_neg (List.cons_ne_nil _ _), findLoop_mark (List.drop_zero).symm]
  simp [goForth, Forth.within, Forth.after]

end RimStone
