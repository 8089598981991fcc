import RimStone.Text.BreakDown
import RimStone.Laws.Source.Delimiter
import RimStone.Laws.Text.Trim
import RimStone.Lib.Cuts

/-!
# A string is split and stays as it is

What is between two delimiters is trimmed, and loses a quote at its beginning and one at its end. Each of the two
goes without a look at the other. Where both are there a quoted piece is unquoted; where one is, it is lost; and
where the piece is that one quote and white space is behind it, the end comes before the beginning and the copy is
refused, with a null where the quote was.
-/

namespace RimStone

open RimStone.Lib

/-! ## Quotes at the ends -/

def openingQuote (m : Bytes) : Bytes := if m.head? = some 34 then [34] else []

def closingQuote (m : Bytes) : Bytes := if m.getLast? = some 34 then [34] else []

def betweenQuotes (m : Bytes) : Bytes :=
  (m.drop (openingQuote m).length).take (m.length - (openingQuote m).length - (closingQuote m).length)

/-- A quote at the beginning or at the end, and no pair of quotes around. -/
def HalfQuoted (m : Bytes) : Prop :=
  (m.head? = some 34 ∨ m.getLast? = some 34) ∧ ¬ ∃ s, m = 34 :: (s ++ [34])

def unquoted (m : Bytes) : Bytes :=
  if 2 ≤ m.length ∧ m.head? = some 34 ∧ m.getLast? = some 34 then m.tail.dropLast else m

/-- What `rim_break_down` makes of the text of a piece. -/
def stripped (t : Bytes) : Bytes := betweenQuotes (trim isspace t)

def LoneQuote (t : Bytes) : Prop := trim isspace t = [34] ∧ back isspace t ≠ []

variable {m t : Bytes}

/-- A text that is no single quote is its quotes and what is between them. -/
theorem quotes_around (h : m ≠ [34]) : openingQuote m ++ (betweenQuotes m ++ closingQuote m) = m := by
  have hle : (openingQuote m).length + (closingQuote m).length ≤ m.length := by
    unfold openingQuote closingQuote
    cases m with
    | nil => decide
    | cons c s =>
      cases s with
      | nil =>
        by_cases hc : c = 34
        · rw [hc] at h
          exact absurd rfl h
        · simp [hc]
      | cons d s =>
        split <;> split <;> simp
  have hopen : openingQuote m ++ m.drop (openingQuote m).length = m := by
    unfold openingQuote
    split
    · next hm =>
      obtain ⟨s, rfl⟩ := List.head?_eq_some_iff.mp hm
      rfl
    · rfl
  have hclose : m.drop (m.length - (closingQuote m).length) = closingQuote m := by
    unfold closingQuote
    split
    · next hm =>
      obtain ⟨s, rfl⟩ := List.getLast?_eq_some_iff.mp hm
      rw [List.length_append, List.length_singleton, Nat.add_sub_cancel, List.drop_left]
    · rw [List.length_nil, Nat.sub_zero, List.drop_length]
  have hrest : betweenQuotes m ++ closingQuote m = m.drop (openingQuote m).length := by
    conv_rhs => rw [← List.take_append_drop (m.length - (openingQuote m).length - (closingQuote m).length)
      (m.drop (openingQuote m).length)]
    have hplace : (openingQuote m).length + (m.length - (openingQuote m).length - (closingQuote m).length) =
        m.length - (closingQuote m).length := by omega
    rw [List.drop_drop, hplace, hclose]
    rfl
  rw [hrest, hopen]

theorem openingQuote_lt (hne : m ≠ []) (h : m ≠ [34]) : (openingQuote m).length < m.length := by
  cases m with
  | nil => exact absurd rfl hne
  | cons c s =>
    unfold openingQuote
    split
    · next hc =>
      cases s with
      | nil =>
        obtain rfl : c = 34 := Option.some.inj hc
        exact absurd rfl h
      | cons d s => simp
    · simp

/-- Where the quotes are a pair, or there are none, a text is unquoted. -/
theorem betweenQuotes_eq (h : ¬ HalfQuoted m) : betweenQuotes m = unquoted m := by
  by_cases hq : ∃ s, m = 34 :: (s ++ [34])
  · obtain ⟨s, rfl⟩ := hq
    have hlast : (34 :: (s ++ [34]) : Bytes).getLast? = some 34 := by
      rw [← List.cons_append, List.getLast?_append]
      rfl
    have hlen : 2 ≤ (34 :: (s ++ [34]) : Bytes).length := by
      rw [List.length_cons, List.length_append, List.length_singleton]
      omega
    unfold betweenQuotes unquoted openingQuote closingQuote
    have hhead : (34 :: (s ++ [34]) : Bytes).head? = some 34 := rfl
    rw [if_pos hhead, if_pos hlast, if_pos ⟨hlen, hhead, hlast⟩]
    simp
  · have hno : ¬ (m.head? = some 34 ∨ m.getLast? = some 34) := fun hor => h ⟨hor, hq⟩
    obtain ⟨hhead, hlast⟩ := not_or.mp hno
    unfold betweenQuotes unquoted openingQuote closingQuote
    rw [if_neg hhead, if_neg hlast, if_neg fun hall => hhead hall.2.1]
    simp

/-! ## Bytes that are nulled and put back -/

variable {b b₁ b₂ : Bytes} {o o' : Option Nat} {x y : UInt8}

theorem nullAt_some {p : Nat} (h : b[p]? = some x) : nullAt b (some p) = some (b.set p 0, x) := by
  have hlt := (List.getElem?_eq_some_iff.mp h).1
  simp only [nullAt, h, poke_eq hlt, bind, Option.bind]

theorem nullAt_eq_some {p : Nat} (h : nullAt b (some p) = some (b₁, x)) : b[p]? = some x ∧ b₁ = b.set p 0 := by
  cases hget : b[p]? with
  | none => simp [nullAt, hget] at h
  | some c =>
    rw [nullAt_some hget, Option.some.injEq, Prod.mk.injEq] at h
    exact ⟨congrArg some h.2, h.1.symm⟩

theorem putBack_some {p : Nat} (h : p < b.length) : putBack b x (some p) = some (b.set p x) := poke_eq h x

theorem set_getElem? {p : Nat} (h : b[p]? = some x) : b.set p x = b := by
  obtain ⟨hlt, rfl⟩ := List.getElem?_eq_some_iff.mp h
  exact List.set_getElem_self hlt

/-- What was nulled at two places is put back. -/
theorem putBack_nullAt (h : nullAt b o = some (b₁, x)) (h' : nullAt b₁ o' = some (b₂, y))
    (hne : ∀ p, o' = some p → o ≠ some p) :
    ∃ b₃, putBack b₂ x o = some b₃ ∧ putBack b₃ y o' = some b := by
  cases o with
  | none =>
    obtain ⟨rfl, -⟩ : b = b₁ ∧ 0 = x := by simpa [nullAt] using h
    cases o' with
    | none =>
      obtain ⟨rfl, -⟩ : b = b₂ ∧ 0 = y := by simpa [nullAt] using h'
      exact ⟨b, rfl, rfl⟩
    | some e =>
      obtain ⟨hget, rfl⟩ := nullAt_eq_some h'
      have hlt := (List.getElem?_eq_some_iff.mp hget).1
      refine ⟨_, rfl, ?_⟩
      rw [putBack_some (by rwa [List.length_set]), List.set_set, set_getElem? hget]
  | some p =>
    obtain ⟨hget, rfl⟩ := nullAt_eq_some h
    have hlt := (List.getElem?_eq_some_iff.mp hget).1
    cases o' with
    | none =>
      obtain ⟨rfl, -⟩ : b.set p 0 = b₂ ∧ 0 = y := by simpa [nullAt] using h'
      refine ⟨b, ?_, rfl⟩
      rw [putBack_some (by rwa [List.length_set]), List.set_set, set_getElem? hget]
    | some e =>
      have hpe : e ≠ p := fun he => hne e rfl (by rw [he])
      obtain ⟨hget', rfl⟩ := nullAt_eq_some h'
      rw [List.getElem?_set_ne hpe.symm] at hget'
      have hlt' := (List.getElem?_eq_some_iff.mp hget').1
      have hback : ((b.set p 0).set e 0).set p x = b.set e 0 := by
        rw [List.set_comm 0 0 hpe.symm, List.set_set, List.set_comm 0 x hpe, set_getElem? hget]
      refine ⟨b.set e 0, ?_, ?_⟩
      · rw [putBack_some (by rwa [List.length_set, List.length_set]), hback]
      · rw [putBack_some (by rwa [List.length_set]), List.set_set, set_getElem? hget']

/-! ## Trimming a piece -/

variable {pre rest : Bytes}

theorem lastPlainLoop_eq {c : UInt8} (hc : ¬ isspace c = true) {z : Bytes} (hz : ∀ x ∈ z, isspace x = true)
    (p w : Bytes) : lastPlainLoop (p ++ c :: (z ++ w)) (p.length + 1 + z.length) = some p.length := by
  induction z using List.reverseRecOn generalizing w with
  | nil =>
    have hget : (p ++ c :: ([] ++ w))[p.length]? = some c := getElem?_middle p c _
    simp only [List.length_nil, Nat.add_zero, lastPlainLoop, hget, bind, Option.bind, if_neg hc]
  | append_singleton z d ih =>
    have hd : isspace d = true := hz d (List.mem_append_right _ (List.mem_singleton_self d))
    have hz' : ∀ x ∈ z, isspace x = true := by
      intro x hx
      exact hz x (List.mem_append_left _ hx)
    have hsplit : p ++ c :: (z ++ [d] ++ w) = (p ++ c :: z) ++ d :: w := by
      simp only [List.append_assoc, List.cons_append, List.nil_append]
    have hplace : p.length + 1 + z.length = (p ++ c :: z).length := by
      rw [List.length_append, List.length_cons]
      omega
    have hget : (p ++ c :: (z ++ [d] ++ w))[p.length + 1 + z.length]? = some d := by
      rw [hsplit, hplace, getElem?_middle]
    rw [List.length_append, List.length_singleton, ← Nat.add_assoc, lastPlainLoop]
    simp only [hget, bind, Option.bind, if_pos hd]
    rw [List.append_assoc]
    exact ih hz' _

theorem trimFrontLoop_front (t rest : Bytes) : trimFrontLoop (t ++ 0 :: rest) 0 = some (front isspace t).length := by
  conv_lhs => rw [← front_trim_back isspace t, List.append_assoc]
  cases ht : trim isspace t with
  | nil =>
    rw [back_eq_nil ht, List.nil_append, List.nil_append,
      trimFrontLoop_eq (fun x => of_mem_front) (by decide), Nat.zero_add]
  | cons x m =>
    rw [List.cons_append, List.cons_append, trimFrontLoop_eq (fun x => of_mem_front) (trim_head_not ht), Nat.zero_add]

/-- The beginning of a trimmed piece, where its end is still to be found. -/
theorem trimPiece_start (pre t rest : Bytes) (e : Nat) :
    trimPiece (pre ++ (t ++ 0 :: rest)) pre.length e =
      let piece := pre.length + (front isspace t).length + (openingQuote (trim isspace t)).length
      if e ≠ piece then do
        let e ← lastPlainLoop (pre ++ (t ++ 0 :: rest)) e
        let c ← (pre ++ (t ++ 0 :: rest))[e]?
        some (piece, some (if c = 34 then e else e + 1))
      else some (piece, none) := by
  have hsplit : pre ++ (t ++ 0 :: rest) =
      (pre ++ front isspace t) ++ (trim isspace t ++ (back isspace t ++ 0 :: rest)) := by
    conv_lhs => rw [← front_trim_back isspace t]
    simp only [List.append_assoc]
  obtain ⟨c, hget, hc⟩ : ∃ c, (pre ++ (t ++ 0 :: rest))[pre.length + (front isspace t).length]? = some c ∧
      (c = 34 ↔ (trim isspace t).head? = some 34) := by
    rw [hsplit, ← List.length_append]
    cases ht : trim isspace t with
    | nil =>
      rw [back_eq_nil ht]
      exact ⟨0, getElem?_middle _ _ _, by decide⟩
    | cons x m => exact ⟨x, getElem?_middle _ _ _, by simp⟩
  have hpiece : (if c = 34 then pre.length + (front isspace t).length + 1 else pre.length + (front isspace t).length) =
      pre.length + (front isspace t).length + (openingQuote (trim isspace t)).length := by
    unfold openingQuote
    by_cases h34 : c = 34
    · rw [if_pos h34, if_pos (hc.mp h34)]
      rfl
    · rw [if_neg h34, if_neg fun h => h34 (hc.mpr h)]
      rfl
  unfold trimPiece
  simp only [List.drop_left, trimFrontLoop_front, bind, Option.bind, hget, hpiece]

/-- Nothing is left of a blank piece, or of a quote at its end. -/
theorem trimPiece_empty (pre rest : Bytes) (h : trim isspace t = [] ∨ trim isspace t = [34] ∧ back isspace t = []) :
    trimPiece (pre ++ (t ++ 0 :: rest)) pre.length (pre.length + t.length) = some (pre.length + t.length, none) ∧
      stripped t = [] := by
  have hlen := length_front_trim_back isspace t
  unfold stripped betweenQuotes
  rw [trimPiece_start]
  obtain ht | ⟨ht, hz⟩ := h
  · rw [ht, back_eq_nil ht, List.length_nil] at hlen
    have hplace : pre.length + (front isspace t).length + (openingQuote []).length = pre.length + t.length := by
      show pre.length + (front isspace t).length + 0 = pre.length + t.length
      omega
    simp only [ht, hplace, ne_eq, not_true_eq_false, if_false]
    exact ⟨trivial, rfl⟩
  · rw [ht, hz, List.length_nil, List.length_singleton] at hlen
    have hplace : pre.length + (front isspace t).length + (openingQuote [34]).length = pre.length + t.length := by
      show pre.length + (front isspace t).length + 1 = pre.length + t.length
      omega
    simp only [ht, hplace, ne_eq, not_true_eq_false, if_false]
    exact ⟨trivial, rfl⟩

/-- What is left of a piece begins behind its first quote and ends before its last one. -/
theorem trimPiece_full (pre rest : Bytes) (hne : trim isspace t ≠ []) (hquote : trim isspace t ≠ [34]) :
    trimPiece (pre ++ (t ++ 0 :: rest)) pre.length (pre.length + t.length) =
      some (pre.length + (front isspace t).length + (openingQuote (trim isspace t)).length,
        some (pre.length + (front isspace t).length + (openingQuote (trim isspace t)).length + (stripped t).length)) := by
  have hlen := length_front_trim_back isspace t
  have hquotes := congrArg List.length (quotes_around hquote)
  rw [List.length_append, List.length_append] at hquotes
  have hstripped : (stripped t).length = (betweenQuotes (trim isspace t)).length := rfl
  -- the text is its front, what is before its last plain byte, that byte and its back
  obtain ⟨m, c, hm⟩ : ∃ m c, trim isspace t = m ++ [c] := ⟨_, _, (List.dropLast_append_getLast hne).symm⟩
  have hc : ¬ isspace c = true := by
    have hlast := trim_last_not hne
    simpa [hm] using hlast
  have hclose : (closingQuote (trim isspace t)).length = if c = 34 then 1 else 0 := by
    unfold closingQuote
    rw [hm, List.getLast?_append]
    by_cases h34 : c = 34 <;> simp [h34]
  have hsplit : pre ++ (t ++ 0 :: rest) = (pre ++ front isspace t ++ m) ++ c :: (back isspace t ++ 0 :: rest) := by
    conv_lhs => rw [← front_trim_back isspace t, hm]
    simp only [List.append_assoc, List.cons_append, List.nil_append]
  have hlast : (trim isspace t).length = m.length + 1 := by
    rw [hm, List.length_append, List.length_singleton]
  have hplace : pre.length + t.length = (pre ++ front isspace t ++ m).length + 1 + (back isspace t).length := by
    rw [List.length_append, List.length_append]
    omega
  have hloop := lastPlainLoop_eq (z := back isspace t) hc (fun x => of_mem_back) (pre ++ front isspace t ++ m) (0 :: rest)
  rw [← hsplit, ← hplace] at hloop
  have hget : (pre ++ (t ++ 0 :: rest))[(pre ++ front isspace t ++ m).length]? = some c := by
    rw [hsplit, getElem?_middle]
  have hend : (if c = 34 then (pre ++ front isspace t ++ m).length else (pre ++ front isspace t ++ m).length + 1) =
      pre.length + (front isspace t).length + (openingQuote (trim isspace t)).length + (stripped t).length := by
    rw [List.length_append, List.length_append]
    by_cases h34 : c = 34
    · rw [if_pos h34] at hclose ⊢
      omega
    · rw [if_neg h34] at hclose ⊢
      omega
  have hmore : pre.length + t.length ≠
      pre.length + (front isspace t).length + (openingQuote (trim isspace t)).length := by
    have hlt := openingQuote_lt hne hquote
    omega
  rw [trimPiece_start]
  simp only [ne_eq, hmore, not_false_eq_true, if_true, hloop, bind, Option.bind, hget, hend]

/-- What the trimming of a piece leaves to be copied: the piece and a null, at `start`. -/
structure Trimmed (b₁ : Bytes) (o : Option Nat) (start : Nat) (ep : Option Nat) (s b₂ : Bytes) : Prop where
  nulled : ∃ y, nullAt b₁ (ep.filter fun e => o ≠ some e) = some (b₂, y)
  len : (ep.map fun e : Nat => (e : Int) - start).getD 0 = s.length
  holds : ∃ p w, b₂ = p ++ (s ++ 0 :: w) ∧ start = p.length

/-- A null is set behind a piece, or is there. -/
theorem exists_trimmed_at {p s z : Bytes} (hb : b = p ++ (s ++ (z ++ 0 :: rest)))
    (ho : o = some (p.length + s.length) → z = []) :
    ∃ b₂, Trimmed b o p.length (some (p.length + s.length)) s b₂ := by
  have hlen : ((p.length + s.length : Nat) : Int) - p.length = s.length := by omega
  by_cases hend : o = some (p.length + s.length)
  · rw [ho hend, List.nil_append] at hb
    refine ⟨b, ⟨⟨0, ?_⟩, hlen, p, rest, hb, rfl⟩⟩
    rw [Option.filter_some_neg (by simpa using hend)]
    rfl
  · obtain ⟨y, w, hw⟩ : ∃ y w, z ++ 0 :: rest = y :: w := by
      cases z with
      | nil => exact ⟨0, rest, rfl⟩
      | cons x z => exact ⟨x, z ++ 0 :: rest, rfl⟩
    have hb' : b = (p ++ s) ++ y :: w := by rw [hb, hw, List.append_assoc]
    have hget : b[(p ++ s).length]? = some y := by rw [hb', getElem?_middle]
    have hset : b.set (p ++ s).length 0 = (p ++ s) ++ 0 :: w := by
      rw [hb', List.set_append_right _ _ (Nat.le_refl _), Nat.sub_self, List.set_cons_zero]
    have hnull := nullAt_some hget
    rw [hset, List.length_append, List.append_assoc] at hnull
    refine ⟨_, ⟨⟨y, ?_⟩, hlen, p, w, rfl, rfl⟩⟩
    rw [Option.filter_some_pos (by simpa using hend)]
    exact hnull

/-- A piece that is no lone quote is trimmed. -/
theorem exists_trimmed (rest : Bytes) (h : ¬ LoneQuote t) (ho : ∀ p, o = some p → p = pre.length + t.length) :
    ∃ start ep b₂, trimPiece (pre ++ (t ++ 0 :: rest)) pre.length (pre.length + t.length) = some (start, ep) ∧
      Trimmed (pre ++ (t ++ 0 :: rest)) o start ep (stripped t) b₂ := by
  by_cases hempty : trim isspace t = [] ∨ trim isspace t = [34] ∧ back isspace t = []
  · obtain ⟨htrim, hs⟩ := trimPiece_empty pre rest hempty
    refine ⟨_, _, _, htrim, ⟨⟨0, rfl⟩, ?_, pre ++ t, rest, ?_, ?_⟩⟩
    · rw [hs]
      rfl
    · rw [hs]
      simp only [List.append_assoc, List.nil_append]
    · rw [List.length_append]
  · obtain ⟨hne, hlone⟩ := not_or.mp hempty
    have hquote : trim isspace t ≠ [34] := fun he => h ⟨he, fun hb => hlone ⟨he, hb⟩⟩
    have hsplit : pre ++ (t ++ 0 :: rest) = (pre ++ front isspace t ++ openingQuote (trim isspace t)) ++
        (stripped t ++ (closingQuote (trim isspace t) ++ back isspace t ++ 0 :: rest)) := by
      conv_lhs => rw [← front_trim_back isspace t, ← quotes_around hquote]
      simp only [List.append_assoc, stripped]
    have hstart : pre.length + (front isspace t).length + (openingQuote (trim isspace t)).length =
        (pre ++ front isspace t ++ openingQuote (trim isspace t)).length := by
      rw [List.length_append, List.length_append]
    have htrim := trimPiece_full pre rest hne hquote
    rw [hstart] at htrim
    have hplain : o = some ((pre ++ front isspace t ++ openingQuote (trim isspace t)).length + (stripped t).length) →
        closingQuote (trim isspace t) ++ back isspace t = [] := by
      intro hp
      have hlen := congrArg List.length hsplit
      have hplace := ho _ hp
      apply List.length_eq_zero_iff.mp
      simp only [List.length_append, List.length_cons] at hlen hplace ⊢
      omega
    obtain ⟨b₂, htrimmed⟩ := exists_trimmed_at hsplit hplain
    exact ⟨_, _, b₂, htrim, htrimmed⟩

/-! ## One piece -/

/-- The copy of a piece, where there is room for it. -/
theorem BreakDown.rimStrdupl_eq {start : Nat} {s : Bytes} (h : ∃ p w, b = p ++ (s ++ 0 :: w) ∧ start = p.length) (room : Nat) :
    BreakDown.rimStrdupl room b start 0 s.length =
      match room with
      | 0 => .error (.outmem b)
      | room + 1 => .ok (room, s ++ [0]) := by
  obtain ⟨p, w, rfl, rfl⟩ := h
  have hnot : ¬ ((0 : Int) < 0 ∨ (0 : Int) > s.length) := by omega
  have hsize : ((s.length : Int) + 1 - 0).toNat = s.length + 1 := by omega
  unfold BreakDown.rimStrdupl
  rw [if_neg hnot, hsize]
  cases room with
  | zero => rfl
  | succ room =>
    have hle : p.length + Int.toNat 0 + (s.length + 1) ≤ (p ++ (s ++ 0 :: w)).length := by
      simp only [List.length_append, List.length_cons, Int.toNat_zero]
      omega
    have hcopy : ((p ++ (s ++ 0 :: w)).drop (p.length + Int.toNat 0)).take (s.length + 1) = s ++ [0] := by
      have hzero : p.length + Int.toNat 0 = p.length := rfl
      rw [hzero, List.drop_left, List.take_append, List.take_of_length_le (Nat.le_succ _)]
      simp
    simp only [allocate, bind, Except.bind, if_pos hle, hcopy]

/-- A call that makes an allocation and comes back if there is room for it, with what is made of the room left. -/
def Allocates {α : Type} (f : Nat → Except BreakFault α) (g : Nat → α) : Prop :=
  (∃ b, f 0 = .error (.outmem b)) ∧ ∀ room, f (room + 1) = .ok (g room)

/-- A piece is copied, and the block is as it was. -/
theorem breakPiece_eq {delim : Bytes} {l : Nat} {found : Option Nat} (hlone : ¬ LoneQuote t)
    (hlen : strlen b pre.length = some l)
    (hfound : rimFindKeyword0 ((b.drop pre.length).take l) delim false false = .ok found)
    (hplace : (found.map (pre.length + ·)).getD (pre.length + l) = pre.length + t.length)
    (hcap : nullAt b (found.map (pre.length + ·)) = some (pre ++ (t ++ 0 :: rest), x)) :
    Allocates (breakPiece delim b · pre.length) fun room =>
      (b, room, stripped t ++ [0], found.map (pre.length + ·)) := by
  have ho : ∀ p, found.map (pre.length + ·) = some p → p = pre.length + t.length := by
    intro p hp
    rw [hp] at hplace
    exact hplace
  obtain ⟨start, ep, b₂, htrim, htrimmed⟩ := exists_trimmed rest hlone ho
  obtain ⟨y, hnull⟩ := htrimmed.nulled
  have hcopy := BreakDown.rimStrdupl_eq htrimmed.holds
  have hother : ∀ p, (ep.filter fun e => found.map (pre.length + ·) ≠ some e) = some p →
      found.map (pre.length + ·) ≠ some p := by
    intro p hp
    simpa using (Option.filter_eq_some_iff.mp hp).2
  obtain ⟨b₃, hback, hback'⟩ := putBack_nullAt hcap hnull hother
  unfold breakPiece
  constructor
  · refine ⟨b₂, ?_⟩
    simp only [hlen, hfound, hcap, hplace, htrim, hnull, htrimmed.len, hcopy, inValue, inSearch, bind, Except.bind]
  · intro room
    simp only [hlen, hfound, hcap, hplace, htrim, hnull, htrimmed.len, hcopy, hback, hback', inValue, inSearch, bind,
      Except.bind]

/-! ## The pieces of a string -/

variable {delim value r free : Bytes} {ks : List Nat} {ts : List Bytes}

theorem drop_left_take (pre r free : Bytes) : ((pre ++ (r ++ 0 :: free)).drop pre.length).take r.length = r := by
  rw [List.drop_left, List.take_left]

theorem DelimAt.lt {k : Nat} (hdelim : delim ≠ []) (h : DelimAt delim r k) : k < r.length := by
  obtain ⟨d, hd⟩ := Option.isSome_iff_exists.mp (List.isSome_head?.mpr hdelim)
  exact (List.getElem?_eq_some_iff.mp (getElem?_of_found hd h.found)).1

theorem breakPiece_last (pre free : Bytes) (hdelim : delim ≠ []) (hr : ∀ x ∈ r, x ≠ 0) (hlone : ¬ LoneQuote r)
    (hno : ∀ k, ¬ DelimAt delim r k) :
    Allocates (breakPiece delim (pre ++ (r ++ 0 :: free)) · pre.length) fun room =>
      (pre ++ (r ++ 0 :: free), room, stripped r ++ [0], none) := by
  obtain ⟨o, hfind, ho⟩ := rimFindKeyword0_answers hdelim (r := r)
  cases o with
  | some k => exact absurd ho.1 (hno k)
  | none =>
    rw [← drop_left_take pre r free] at hfind
    exact breakPiece_eq hlone (strlen_eq pre hr free) hfind rfl rfl

/-- A piece before a delimiter. -/
theorem breakPiece_cut (pre free : Bytes) {k : Nat} (hdelim : delim ≠ []) (hr : ∀ x ∈ r, x ≠ 0) (hlone : ¬ LoneQuote (r.take k))
    (hk : IsLeast {k | DelimAt delim r k} k) :
    Allocates (breakPiece delim (pre ++ (r ++ 0 :: free)) · pre.length) fun room =>
      (pre ++ (r ++ 0 :: free), room, stripped (r.take k) ++ [0], some (pre.length + k)) := by
  obtain ⟨o, hfind, ho⟩ := rimFindKeyword0_answers hdelim (r := r)
  cases o with
  | none => exact absurd hk.1 (ho k)
  | some k' =>
    obtain rfl := ho.unique hk
    have hlt : k' < r.length := hk.1.lt hdelim
    have htake : (r.take k').length = k' := by
      rw [List.length_take]
      omega
    have hsplit : pre ++ (r ++ 0 :: free) = (pre ++ r.take k') ++ r[k'] :: (r.drop (k' + 1) ++ 0 :: free) := by
      conv_lhs => rw [← List.take_append_drop k' r, List.drop_eq_getElem_cons hlt]
      simp only [List.append_assoc, List.cons_append]
    have hplace : pre.length + k' = (pre ++ r.take k').length := by
      rw [List.length_append, htake]
    have hget : (pre ++ (r ++ 0 :: free))[pre.length + k']? = some r[k'] := by
      rw [hsplit, hplace, getElem?_middle]
    have hset : (pre ++ (r ++ 0 :: free)).set (pre.length + k') 0 =
        pre ++ (r.take k' ++ 0 :: (r.drop (k' + 1) ++ 0 :: free)) := by
      rw [hsplit, hplace, List.set_append_right _ _ (Nat.le_refl _), Nat.sub_self, List.set_cons_zero, List.append_assoc]
    have hcap := nullAt_some hget
    rw [hset] at hcap
    rw [← drop_left_take pre r free] at hfind
    refine breakPiece_eq hlone (strlen_eq pre hr free) hfind ?_ hcap
    show pre.length + k' = pre.length + (r.take k').length
    rw [htake]

/-- The allocations for `n` more pieces after `m`: one for each, and one each time the array is full. -/
def pieceAllocations (m n : Nat) : Nat := n + ((m + n - 1) / MAX_BREAK_DOWN - m / MAX_BREAK_DOWN)

/-- How long the array is that has room for `m` pieces and one more. -/
def arrayFor (m : Nat) : Nat := (m / MAX_BREAK_DOWN + 1) * MAX_BREAK_DOWN

theorem lt_arrayFor (m : Nat) : m < arrayFor m := by
  unfold arrayFor MAX_BREAK_DOWN
  omega

/-- The array for one more piece is the same, or `MAX_BREAK_DOWN` longer where it is full. -/
theorem arrayFor_succ (m : Nat) :
    arrayFor (m + 1) = if m + 1 ≥ arrayFor m then arrayFor m + MAX_BREAK_DOWN else arrayFor m := by
  unfold arrayFor MAX_BREAK_DOWN
  split <;> omega

theorem pieceAllocations_succ (m : Nat) {n : Nat} (hn : 0 < n) :
    pieceAllocations m (n + 1) = pieceAllocations (m + 1) n + 1 + if m + 1 ≥ arrayFor m then 1 else 0 := by
  unfold pieceAllocations arrayFor MAX_BREAK_DOWN
  split <;> omega

/-- A split that comes back with its pieces where there is room for the allocations, and reports where there is
not. -/
def Splits (n room : Nat) (run : Except BreakFault (Bytes × List Bytes)) (b : Bytes) (pieces : List Bytes) : Prop :=
  if n ≤ room then run = .ok (b, pieces) else ∃ b', run = .error (.outmem b')

/-- An allocation more, with the room for it. -/
theorem Splits.succ {n room : Nat} {run : Except BreakFault (Bytes × List Bytes)} {pieces : List Bytes}
    (h : Splits n room run b pieces) : Splits (n + 1) (room + 1) run b pieces := by
  unfold Splits at h ⊢
  simpa only [Nat.add_le_add_iff_right] using h

theorem Splits.fails {n room : Nat} {run : Except BreakFault (Bytes × List Bytes)} {pieces : List Bytes}
    (hn : room < n) (h : ∃ b', run = .error (.outmem b')) : Splits n room run b pieces := by
  unfold Splits
  rw [if_neg (Nat.not_le.mpr hn)]
  exact h

/-- The loop splits what is left of the string. -/
theorem breakLoop_splits (pre free : Bytes) (hdelim : delim ≠ []) (h : Cuts (DelimAt delim) delim.length r ks ts)
    (hr : ∀ x ∈ r, x ≠ 0) (hlone : ∀ t ∈ ts, ¬ LoneQuote t) {fuel : Nat} (hfuel : r.length < fuel) (room : Nat)
    (pieces : List Bytes) :
    Splits (pieceAllocations pieces.length ts.length) room
      (breakLoop delim fuel (pre ++ (r ++ 0 :: free)) room (arrayFor pieces.length) pieces pre.length)
      (pre ++ (r ++ 0 :: free)) (pieces ++ ts.map fun t => stripped t ++ [0]) := by
  induction h generalizing pre fuel room pieces with
  | @last r hno =>
    obtain ⟨fuel, rfl⟩ := Nat.exists_eq_succ_of_ne_zero (Nat.ne_zero_of_lt hfuel)
    obtain ⟨⟨b', hfail⟩, hok⟩ := breakPiece_last pre free hdelim hr (hlone r (List.mem_singleton_self r)) hno
    have hfull : ¬ arrayFor pieces.length ≤ pieces.length := Nat.not_le.mpr (lt_arrayFor _)
    have hone : pieceAllocations pieces.length [r].length = 1 := by
      simp [pieceAllocations]
    unfold Splits
    rw [hone]
    cases room with
    | zero =>
      refine ⟨b', ?_⟩
      simp only [breakLoop, hfail, bind, Except.bind]
    | succ room =>
      rw [if_pos (Nat.succ_le_succ (Nat.zero_le room))]
      simp only [breakLoop, hok, bind, Except.bind, if_neg hfull]
      rfl
  | @cut r k ks ts hk hrest ih =>
    obtain ⟨fuel, rfl⟩ := Nat.exists_eq_succ_of_ne_zero (Nat.ne_zero_of_lt hfuel)
    obtain ⟨hfirst, hothers⟩ := List.forall_mem_cons.mp hlone
    obtain ⟨⟨b', hfail⟩, hok⟩ := breakPiece_cut pre free hdelim hr hfirst hk
    have hfull : ¬ arrayFor pieces.length ≤ pieces.length := Nat.not_le.mpr (lt_arrayFor _)
    have hend : k + delim.length ≤ r.length := by
      have hlen := hk.1.found.length_le
      have hlt := hk.1.lt hdelim
      rw [List.length_drop] at hlen
      omega
    have hpos : 0 < delim.length := List.length_pos_iff.mpr hdelim
    have hplace : pre.length + k + delim.length = (pre ++ r.take (k + delim.length)).length := by
      rw [List.length_append, List.length_take]
      omega
    have hblock : pre ++ (r ++ 0 :: free) =
        (pre ++ r.take (k + delim.length)) ++ (r.drop (k + delim.length) ++ 0 :: free) := by
      conv_lhs => rw [← List.take_append_drop (k + delim.length) r]
      simp only [List.append_assoc]
    have hn : 0 < ts.length := by
      rw [hrest.length_eq]
      exact Nat.succ_pos _
    have hr' : ∀ x ∈ r.drop (k + delim.length), x ≠ 0 := by
      intro x hx
      exact hr x (List.mem_of_mem_drop hx)
    have hfuel' : (r.drop (k + delim.length)).length < fuel := by
      rw [List.length_drop]
      omega
    have hlen : (pieces ++ [stripped (r.take k) ++ [0]]).length = pieces.length + 1 := by
      rw [List.length_append, List.length_singleton]
    -- the loop on what is behind the delimiter
    have hloop : ∀ room, Splits (pieceAllocations (pieces.length + 1) ts.length) room
        (breakLoop delim fuel (pre ++ (r ++ 0 :: free)) room (arrayFor (pieces.length + 1))
          (pieces ++ [stripped (r.take k) ++ [0]]) (pre.length + k + delim.length))
        (pre ++ (r ++ 0 :: free)) (pieces ++ (r.take k :: ts).map fun t => stripped t ++ [0]) := by
      intro room
      have hih := ih (pre ++ r.take (k + delim.length)) hr' hothers hfuel' room (pieces ++ [stripped (r.take k) ++ [0]])
      rw [hlen, ← hblock, ← hplace, List.append_assoc] at hih
      exact hih
    rw [arrayFor_succ] at hloop
    rw [List.length_cons, pieceAllocations_succ _ hn]
    cases room with
    | zero =>
      refine Splits.fails (by omega) ⟨b', ?_⟩
      simp only [breakLoop, hfail, bind, Except.bind]
    | succ room =>
      simp only [breakLoop, hok, bind, Except.bind, if_neg hfull, hlen]
      by_cases hmore : pieces.length + 1 ≥ arrayFor pieces.length
      · rw [if_pos hmore, if_pos hmore]
        rw [if_pos hmore] at hloop
        cases room with
        | zero => exact Splits.fails (by omega) ⟨_, rfl⟩
        | succ room => exact (hloop room).succ.succ
      · rw [if_neg hmore, if_neg hmore, Nat.add_zero]
        rw [if_neg hmore] at hloop
        exact (hloop room).succ

/-- What `rim_break_down` makes of a text lies in it. -/
theorem stripped_within (t : Bytes) : stripped t <:+: t := by
  have hbetween : stripped t <:+: trim isspace t := by
    unfold stripped betweenQuotes
    exact (List.take_prefix _ _).isInfix.trans (List.drop_suffix _ _).isInfix
  refine hbetween.trans ⟨front isspace t, back isspace t, ?_⟩
  rw [List.append_assoc, front_trim_back]

/-- No piece of a string is one quote with white space behind it. -/
def NoLoneQuote (delim value : Bytes) : Prop :=
  ∀ ks ts, Cuts (DelimAt delim) delim.length value ks ts → ∀ t ∈ ts, ¬ LoneQuote t

/-- A string without quotes has no such piece. -/
theorem noLoneQuote_of_not_mem (h : 34 ∉ value) : NoLoneQuote delim value := by
  intro ks ts hcuts t ht hlone
  have hmem : 34 ∈ trim isspace t := by
    rw [hlone.1]
    exact List.mem_singleton_self _
  exact h ((hcuts.part_of t ht).mem (mem_of_mem_trim hmem))

/-- A string is split at each delimiter outside of quotes, and is as it was. The pieces are the trimmed texts between
the delimiters, without their quotes where these are a pair. -/
theorem rimBreakDown_splits (hdelim : delim ≠ []) (hvalue : ∀ x ∈ value, x ≠ 0) (hlone : NoLoneQuote delim value)
    (free : Bytes) (room : Nat) :
    ∃ ks ts, Cuts (DelimAt delim) delim.length value ks ts ∧ ts.length = ks.length + 1 ∧
      ∃ pieces : List Bytes, pieces.length = ts.length ∧ (∀ p ∈ pieces, p <:+: value) ∧
        (∀ (i : Nat) (t : Bytes), ts[i]? = some t → ¬ HalfQuoted (trim isspace t) →
          pieces[i]? = some (unquoted (trim isspace t))) ∧
        Splits (2 + pieceAllocations 0 ts.length) room (rimBreakDown room (value ++ 0 :: free) delim)
          (value ++ 0 :: free) (pieces.map (· ++ [0])) := by
  have hlt : ∀ r k, DelimAt delim r k → k < r.length := fun r k h => h.lt hdelim
  obtain ⟨ks, ts, hcuts⟩ := exists_cuts (List.length_pos_iff.mpr hdelim) hlt value
  refine ⟨ks, ts, hcuts, hcuts.length_eq, ts.map stripped, List.length_map _, ?_, ?_, ?_⟩
  · intro p hp
    obtain ⟨t, ht, rfl⟩ := List.mem_map.mp hp
    exact (stripped_within t).trans (hcuts.part_of t ht)
  · intro i t ht hhalf
    rw [List.getElem?_map, ht, ← betweenQuotes_eq hhalf]
    rfl
  · have hfuel : value.length < (value ++ 0 :: free).length + 1 := by
      rw [List.length_append]
      omega
    have hloop := fun room => breakLoop_splits [] free hdelim hcuts hvalue (hlone ks ts hcuts) hfuel room []
    rw [Nat.add_comm, List.map_map]
    unfold rimBreakDown
    match room with
    | 0 => exact Splits.fails (by omega) ⟨_, rfl⟩
    | 1 => exact Splits.fails (by omega) ⟨_, rfl⟩
    | room + 2 => exact (hloop room).succ.succ

theorem rimBreakDown_splits_two :
    ∃ ks ts, Cuts (DelimAt [44]) 1 (ascii "a, b") ks ts ∧ ts.length = ks.length + 1 ∧
      ∃ pieces : List Bytes, pieces.length = ts.length ∧ (∀ p ∈ pieces, p <:+: ascii "a, b") ∧
        (∀ (i : Nat) (t : Bytes), ts[i]? = some t → ¬ HalfQuoted (trim isspace t) →
          pieces[i]? = some (unquoted (trim isspace t))) ∧
        Splits (2 + pieceAllocations 0 ts.length) 10 (rimBreakDown 10 (ascii "a, b" ++ [0]) [44])
          (ascii "a, b" ++ [0]) (pieces.map (· ++ [0])) :=
  rimBreakDown_splits (by decide) (by simp [ascii]) (noLoneQuote_of_not_mem (by simp [ascii])) [] 10

def OutsideAt (delim r : Bytes) (k : Nat) : Prop := delim <+: r.drop k ∧ (r.take k).count 34 % 2 = 0

/-- A delimiter between single quotes is outside of double quotes, and the string is not split there. -/
theorem not_splits_outside :
    ¬ ∃ ks ts, Cuts (OutsideAt [44]) 1 (ascii "a','b") ks ts ∧
      rimBreakDown 10 (ascii "a','b" ++ [0]) [44] =
        .ok (ascii "a','b" ++ [0], ts.map fun t => unquoted (trim isspace t) ++ [0]) := by
  rintro ⟨ks, ts, hcuts, hrun⟩
  have hone : rimBreakDown 10 (ascii "a','b" ++ [0]) [44] =
      .ok (ascii "a','b" ++ [0], [ascii "a','b" ++ [0]]) := by decide
  rw [hone, Except.ok.injEq, Prod.mk.injEq] at hrun
  have hlen := congrArg List.length hrun.2
  rw [List.length_map, hcuts.length_eq, List.length_singleton] at hlen
  cases hcuts with
  | last hno =>
    refine hno 2 ⟨?_, by decide⟩
    exact ⟨ascii "'b", by decide⟩
  | cut _ _ => simp at hlen

end RimStone
