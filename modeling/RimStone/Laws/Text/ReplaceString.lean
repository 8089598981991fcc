import RimStone.Text.ReplaceString
import RimStone.Lib.Cuts
import RimStone.Lib.Doubled
import RimStone.Laws.Memory.Chars

/-!
# One replacement after another

The buffer holds what was replaced, what was not, and a null (`ReplaceState.Holds`). A round puts `subst` in the place of
the first `find` in what was not replaced, and the null still ends the text, if all that fits. The places are the cuts
of the text: a round takes one cut, and what is left is cut as before. So the loop ends after as many replacements as fit,
and with the parts of the text joined by `subst` where all do (`rimReplaceString_replaces`).
-/

namespace RimStone

open RimStone.Lib

/-- A text is what is in front of the first null. -/
theorem textAt_eq {b pre v rest : Bytes} (h : b = pre ++ (v ++ 0 :: rest)) (hv : (0 : UInt8) ∉ v) :
    textAt b pre.length = some v := by
  have hall : ∀ x ∈ v, (x != 0) = true := fun x hx => bne_iff_ne.mpr fun h0 => hv (h0 ▸ hx)
  unfold textAt
  rw [h, List.drop_left, if_pos (by simp), List.takeWhile_append_of_pos hall, List.takeWhile_cons]
  simp

def HoldsText (b text : Bytes) : Prop := b.take (text.length + 1) = text ++ [0]

namespace ReplaceState

/-- The buffer has `size` bytes: what was replaced, what was not, a null, and what is behind it. -/
structure Holds (s : ReplaceState) (done rest : Bytes) (size : Nat) : Prop where
  text : s.str.take (done.length + rest.length + 1) = done ++ (rest ++ [0])
  size : s.str.length = size
  curr : s.curr = done.length
  len : s.len = done.length + rest.length
  currsize : s.currsize = done.length + rest.length + 1
  nonull : (0 : UInt8) ∉ rest

variable {s : ReplaceState} {done rest : Bytes} {size : Nat}

/-- The buffer, with what is behind the text. -/
theorem Holds.split (h : s.Holds done rest size) :
    s.str = done ++ (rest ++ 0 :: s.str.drop (done.length + rest.length + 1)) := by
  conv_lhs => rw [← List.take_append_drop (done.length + rest.length + 1) s.str, h.text]
  simp

theorem Holds.holdsText (h : s.Holds done rest size) : HoldsText s.str (done ++ rest) := by
  unfold HoldsText
  rw [List.length_append, h.text, List.append_assoc]

theorem Holds.textAt (h : s.Holds done rest size) : textAt s.str s.curr = some rest := by
  rw [h.curr]
  exact textAt_eq h.split h.nonull

end ReplaceState

/-- Bytes are moved, and others are written in front of them. -/
theorem edit_eq (a find tail rest subst : Bytes) {size : Nat} {b : Bytes} (hb : b = a ++ (find ++ (tail ++ rest)))
    (hsize : b.length = size) (hfits : a.length + subst.length + tail.length ≤ size) :
    ∃ b', ((memmove b (a.length + subst.length) (a.length + find.length) tail.length).bind
        fun b => memcpy b a.length subst) = some b' ∧ b'.length = size ∧
      b'.take (a.length + subst.length + tail.length) = a ++ (subst ++ tail) ∧
      b'.drop (a.length + subst.length + tail.length) = b.drop (a.length + subst.length + tail.length) := by
  have htail : (b.drop (a.length + find.length)).take tail.length = tail := by
    rw [hb, ← List.append_assoc, ← List.length_append, List.drop_left, List.take_left]
  have hbound : a.length + find.length + tail.length ≤ b.length := by
    rw [hb]
    simp only [List.length_append]
    omega
  have htakeLen : (b.take (a.length + subst.length)).length = a.length + subst.length := by
    rw [List.length_take]
    omega
  have ha : b.take a.length = a := by rw [hb, List.take_left]
  -- the block between the two copies
  obtain ⟨b₁, hb₁⟩ : ∃ b₁, b₁ = b.take (a.length + subst.length) ++ tail ++
      b.drop (a.length + subst.length + tail.length) := ⟨_, rfl⟩
  have hmove : memmove b (a.length + subst.length) (a.length + find.length) tail.length = some b₁ := by
    unfold memmove memcpy
    rw [if_pos hbound, htail, if_pos (by omega), hb₁]
  have hfront : b₁.take a.length = a := by
    rw [hb₁, List.append_assoc, List.take_append_of_le_length (by omega), List.take_take,
      Nat.min_eq_left (Nat.le_add_right _ _), ha]
  have hback : b₁.drop (a.length + subst.length) = tail ++ b.drop (a.length + subst.length + tail.length) := by
    rw [hb₁, List.append_assoc, List.drop_left' htakeLen]
  have hlen₁ : b₁.length = size := by
    rw [hb₁]
    simp only [List.length_append, htakeLen, List.length_drop]
    omega
  have hcopy : memcpy b₁ a.length subst =
      some (a ++ (subst ++ (tail ++ b.drop (a.length + subst.length + tail.length)))) := by
    unfold memcpy
    rw [if_pos (by omega), hfront, hback, List.append_assoc]
  have hplace : a.length + subst.length + tail.length = (a ++ (subst ++ tail)).length := by
    simp only [List.length_append]
    omega
  refine ⟨_, (by rw [hmove]; exact hcopy), ?_, ?_, ?_⟩
  · simp only [List.length_append, List.length_drop]
    omega
  · have hassoc : a ++ (subst ++ (tail ++ b.drop (a.length + subst.length + tail.length))) =
        a ++ (subst ++ tail) ++ b.drop (a.length + subst.length + tail.length) := by
      simp only [List.append_assoc]
    rw [hassoc, hplace, List.take_left]
  · have hassoc : a ++ (subst ++ (tail ++ b.drop (a.length + subst.length + tail.length))) =
        a ++ (subst ++ tail) ++ b.drop (a.length + subst.length + tail.length) := by
      simp only [List.append_assoc]
    rw [hassoc, List.drop_left' hplace.symm]

namespace ReplaceCall

/-- What `strstr` or `strcasestr` finds. -/
def first (c : ReplaceCall) (text : Bytes) : Option Nat :=
  if c.caseSensitive then strstr text c.find else strcasestr text c.find

/-- The string is at a place of a text, with or without regard to case. -/
def OccursAt (c : ReplaceCall) (text : Bytes) (k : Nat) : Prop :=
  k + c.find.length ≤ text.length ∧
    if c.caseSensitive then (text.drop k).take c.find.length = c.find
    else ((text.drop k).take c.find.length).map tolower = c.find.map tolower

def Fits (c : ReplaceCall) (text : Bytes) : Prop := (text.length : Int) + 1 ≤ c.strsize

/-- The text after `i` replacements, where it was cut at the places `ks` into the parts `ps`. -/
def textAfter (c : ReplaceCall) (text : Bytes) (ks : List Nat) (ps : List Bytes) (i : Nat) : Bytes :=
  replaced c.subst ps i ++ behind c.find.length text ks i

variable {c : ReplaceCall} {s s' : ReplaceState} {done rest : Bytes} {size : Nat} {ks : List Nat} {ps : List Bytes}
  {i : Nat}

theorem OccursAt.lt (hfind : c.find ≠ []) {text : Bytes} {k : Nat} (h : c.OccursAt text k) : k < text.length := by
  have hpos := List.length_pos_iff.mpr hfind
  have hle := h.1
  omega

theorem first_where (c : ReplaceCall) (text : Bytes) : FirstWhere (c.OccursAt text) (c.first text) := by
  unfold first OccursAt
  cases c.caseSensitive with
  | true =>
    apply (strstr_where c.find text).congr
    intro k
    rw [if_pos rfl]
    refine ⟨fun ⟨hk, h⟩ => ⟨?_, h⟩, fun ⟨hk, h⟩ => ⟨by omega, h⟩⟩
    have hlen := congrArg List.length h
    rw [List.length_take, List.length_drop] at hlen
    omega
  | false =>
    apply (strcasestr_where c.find text).congr
    intro k
    rw [if_neg Bool.false_ne_true]
    refine ⟨fun ⟨hk, h⟩ => ⟨?_, beq_iff_eq.mp h⟩, fun ⟨hk, h⟩ => ⟨by omega, beq_iff_eq.mpr h⟩⟩
    have hlen := length_of_sameCase h
    rw [List.length_take, List.length_drop] at hlen
    omega

/-! ## The loop -/

theorem search_eq (h : s.Holds done rest size) : c.search s = some ((c.first rest).map (done.length + ·)) := by
  unfold search
  rw [h.textAt, Option.map_some, h.curr]
  rfl

theorem loop_end (h : s.Holds done rest size) (hnone : c.first rest = none) (fuel : Nat) :
    c.loop (fuel + 1) s = some (s, (s.len : Int)) := by
  rw [loop, search_eq h, hnone]
  rfl

/-- How long the text is to be, where the string is found with `b` behind it. -/
theorem currsize_eq {a w b : Bytes} (hw : w.length = c.find.length) (h : s.Holds done (a ++ (w ++ b)) size) :
    s.currsize - c.find.length + c.subst.length = done.length + a.length + c.subst.length + b.length + 1 := by
  rw [h.currsize]
  simp only [List.length_append, hw]
  push_cast
  omega

/-- The string is found after `a` and in front of `b`, and there is no room. -/
theorem loop_stop {a w b : Bytes} (hw : w.length = c.find.length) (h : s.Holds done (a ++ (w ++ b)) size)
    (hfirst : c.first (a ++ (w ++ b)) = some a.length)
    (hfull : c.strsize < (done.length + a.length + c.subst.length + b.length + 1 : Int)) (fuel : Nat) :
    ∃ currsize, c.loop (fuel + 1) s = some ({ s with currsize }, -1) := by
  refine ⟨s.currsize - c.find.length + c.subst.length, ?_⟩
  rw [loop, search_eq h, hfirst]
  show (if s.currsize - c.find.length + c.subst.length > c.strsize then _ else _) = _
  rw [currsize_eq hw h, if_pos hfull]

/-- The string is found after `a` and in front of `b`, and there is room. -/
theorem loop_round (hall : c.all = true) {a w b : Bytes} (hw : w.length = c.find.length)
    (h : s.Holds done (a ++ (w ++ b)) size) (hfirst : c.first (a ++ (w ++ b)) = some a.length)
    (hroom : (done.length + a.length + c.subst.length + b.length + 1 : Int) ≤ c.strsize) (hsize : c.strsize ≤ size)
    (fuel : Nat) :
    ∃ s', c.loop (fuel + 1) s = c.loop fuel s' ∧ s'.Holds (done ++ (a ++ c.subst)) b size ∧
      s'.last = some (done ++ (a ++ c.subst)).length ∧ ∀ n : Nat, c.strsize ≤ n → s'.str.drop n = s.str.drop n := by
  have hsearch : c.search s = some (some (done.length + a.length)) := by
    rw [search_eq h, hfirst, Option.map_some]
  have hsplit : s.str = (done ++ a) ++ (w ++ ((b ++ [0]) ++ s.str.drop (done.length + (a ++ (w ++ b)).length + 1))) := by
    conv_lhs => rw [h.split]
    simp only [List.append_assoc, List.singleton_append]
  have hlen : (done ++ a).length = done.length + a.length := List.length_append
  have hb : (b ++ [0]).length = b.length + 1 := by simp
  obtain ⟨str, hedit, hstr, htake, hdrop⟩ := edit_eq (done ++ a) w (b ++ [0]) _ c.subst hsplit h.size (by omega)
  have hmoved : s.len - (done.length + a.length + c.find.length) + 1 = (b ++ [0]).length := by
    rw [h.len, ← hw]
    simp only [List.length_append, List.length_singleton]
    omega
  have hedit' : c.edit s.str s.len (done.length + a.length) = some str := by
    unfold edit
    rw [hmoved, ← hlen, ← hw]
    exact hedit
  have hcurrsize := currsize_eq hw h
  have hlast : done.length + a.length + c.subst.length = (done ++ (a ++ c.subst)).length := by
    simp only [List.length_append]
    omega
  refine ⟨{ str, len := s.len - c.find.length + c.subst.length, currsize := s.currsize - c.find.length + c.subst.length,
            curr := done.length + a.length + c.subst.length, last := some (done.length + a.length + c.subst.length) },
    ?_, ⟨?_, hstr, hlast, ?_, ?_, ?_⟩, congrArg some hlast, ?_⟩
  · rw [loop, hsearch]
    simp only [bind, Option.bind, hedit', hall, hcurrsize, if_neg (Int.not_lt.mpr hroom), if_true]
  · show str.take _ = _
    have hplace : (done ++ (a ++ c.subst)).length + b.length + 1 =
      (done ++ a).length + c.subst.length + (b ++ [0]).length := by
      simp only [List.length_append, List.length_singleton]
      omega
    rw [hplace, htake]
    simp only [List.append_assoc]
  · show s.len - c.find.length + c.subst.length = _
    rw [h.len, ← hw]
    simp only [List.length_append]
    omega
  · show s.currsize - c.find.length + c.subst.length = _
    rw [hcurrsize]
    simp only [List.length_append]
    push_cast
    omega
  · intro hzero
    exact h.nonull (List.mem_append_right _ (List.mem_append_right _ hzero))
  · intro n hn
    show str.drop n = _
    have hle : (done ++ a).length + c.subst.length + (b ++ [0]).length ≤ n := by omega
    obtain ⟨k, rfl⟩ := Nat.exists_eq_add_of_le hle
    rw [← List.drop_drop, hdrop, List.drop_drop]

/-- Where the loop ends: `i` of the cuts were replaced, as far as the texts fit. -/
structure Ended (c : ReplaceCall) (s : ReplaceState) (done rest : Bytes) (ks : List Nat) (ps : List Bytes) (i : Nat)
    (s' : ReplaceState) (res : Int) : Prop where
  le : i ≤ ks.length
  text : HoldsText s'.str (done ++ c.textAfter rest ks ps i)
  size : s'.str.length = s.str.length
  last : s'.last = if i = 0 then s.last else some (done ++ replaced c.subst ps i).length
  fits : ∀ j, 0 < j → j ≤ i → c.Fits (done ++ c.textAfter rest ks ps j)
  answer : i = ks.length ∧ res = (done ++ c.textAfter rest ks ps i).length ∨
    i < ks.length ∧ ¬ c.Fits (done ++ c.textAfter rest ks ps (i + 1)) ∧ res = -1
  frame : ∀ n : Nat, c.strsize ≤ n → s'.str.drop n = s.str.drop n

/-- After the first replacement the cuts are those of what is behind it. -/
theorem textAfter_cons {k : Nat} (hi : i ≤ ks.length) :
    done ++ c.textAfter rest (k :: ks.map (k + c.find.length + ·)) (rest.take k :: ps) (i + 1) =
      done ++ (rest.take k ++ c.subst) ++ c.textAfter (rest.drop (k + c.find.length)) ks ps i := by
  unfold textAfter
  rw [replaced_cons, behind_cons hi]
  simp only [List.append_assoc]

/-- The loop replaces one cut after another, and so it ends. -/
theorem loop_replaces (hall : c.all = true) (hfind : c.find ≠ []) (hsize : c.strsize ≤ size)
    (hcuts : Cuts c.OccursAt c.find.length rest ks ps) (h : s.Holds done rest size) {fuel : Nat}
      (hfuel : rest.length < fuel) :
    ∃ s' res i, c.loop fuel s = some (s', res) ∧ c.Ended s done rest ks ps i s' res := by
  induction hcuts generalizing s done fuel with
  | @last rest hno =>
    obtain ⟨fuel, rfl⟩ := Nat.exists_eq_succ_of_ne_zero (Nat.ne_zero_of_lt hfuel)
    have hnone : c.first rest = none := (c.first_where rest).eq_none hno
    have htext : done ++ c.textAfter rest [] [rest] 0 = done ++ rest := rfl
    refine ⟨s, s.len, 0, loop_end h hnone fuel, Nat.le_refl 0, ?_, rfl, rfl, fun j hj hle => ?_, Or.inl ⟨rfl, ?_⟩,
      fun _ _ => rfl⟩
    · rw [htext]
      exact h.holdsText
    · omega
    · rw [htext, h.len, List.length_append]
  | @cut rest k ks ps hk hrest ih =>
    obtain ⟨fuel, rfl⟩ := Nat.exists_eq_succ_of_ne_zero (Nat.ne_zero_of_lt hfuel)
    obtain ⟨w, hw⟩ : ∃ w, w = (rest.drop k).take c.find.length := ⟨_, rfl⟩
    have hle := hk.1.1
    have hwlen : w.length = c.find.length := by
      rw [hw, List.length_take, List.length_drop]
      omega
    have hklen : (rest.take k).length = k := List.length_take_of_le (by omega)
    have hsplit : rest = rest.take k ++ (w ++ rest.drop (k + c.find.length)) := by
      rw [hw, ← List.drop_drop, List.take_append_drop, List.take_append_drop]
    have hfirst : c.first rest = some (rest.take k).length := by
      rw [hklen]
      exact (c.first_where rest).eq_some hk
    have hholds : s.Holds done (rest.take k ++ (w ++ rest.drop (k + c.find.length))) size := hsplit ▸ h
    have hfirst' : c.first (rest.take k ++ (w ++ rest.drop (k + c.find.length))) = some (rest.take k).length := by
      rwa [← hsplit]
    have hone : done ++ c.textAfter rest (k :: ks.map (k + c.find.length + ·)) (rest.take k :: ps) 1 =
        done ++ (rest.take k ++ c.subst) ++ rest.drop (k + c.find.length) := textAfter_cons (Nat.zero_le _)
    have honelen : (done ++ (rest.take k ++ c.subst) ++ rest.drop (k + c.find.length)).length =
        done.length + (rest.take k).length + c.subst.length + (rest.drop (k + c.find.length)).length := by
      simp only [List.length_append]
      omega
    by_cases hroom : c.Fits (done ++ (rest.take k ++ c.subst) ++ rest.drop (k + c.find.length))
    · have hroom' := hroom
      unfold Fits at hroom'
      rw [honelen] at hroom'
      push_cast at hroom'
      obtain ⟨s₁, hloop, hs₁, hlast₁, hframe₁⟩ := loop_round hall hwlen hholds hfirst' hroom' hsize fuel
      have hshort : (rest.drop (k + c.find.length)).length < fuel := by
        have hpos := List.length_pos_iff.mpr hfind
        rw [List.length_drop]
        omega
      obtain ⟨s', res, i, hrun, hend⟩ := ih hs₁ hshort
      refine ⟨s', res, i + 1, hloop.trans hrun, ?_, ?_, hend.size.trans (hs₁.size.trans h.size.symm), ?_, ?_, ?_,
        fun n hn => (hend.frame n hn).trans (hframe₁ n hn)⟩
      · rw [List.length_cons, List.length_map]
        exact Nat.succ_le_succ hend.le
      · rw [textAfter_cons hend.le]
        exact hend.text
      · rw [hend.last, hlast₁, if_neg (Nat.succ_ne_zero i), replaced_cons]
        split_ifs with hi
        · rw [hi, replaced_zero, List.append_nil]
        · simp only [List.append_assoc]
      · intro j hj hji
        obtain ⟨j, rfl⟩ := Nat.exists_eq_succ_of_ne_zero (Nat.ne_of_gt hj)
        rw [Nat.succ_eq_add_one, textAfter_cons (by have := hend.le; omega)]
        obtain rfl | hj := Nat.eq_zero_or_pos j
        · exact hroom
        · exact hend.fits j hj (by omega)
      · rw [List.length_cons, List.length_map, textAfter_cons hend.le]
        obtain ⟨hi, hres⟩ | ⟨hi, hfull, hres⟩ := hend.answer
        · exact Or.inl ⟨congrArg _ hi, hres⟩
        · exact Or.inr ⟨Nat.succ_lt_succ hi, by rwa [textAfter_cons hi], hres⟩
    · have hfull := hroom
      unfold Fits at hfull
      rw [honelen] at hfull
      push_cast at hfull
      obtain ⟨currsize, hrun⟩ := loop_stop hwlen hholds hfirst' (Int.not_le.mp hfull) fuel
      refine ⟨_, -1, 0, hrun, Nat.zero_le _, h.holdsText, rfl, rfl, fun j hj hle => ?_,
        Or.inr ⟨Nat.zero_lt_succ _, ?_, rfl⟩,
        fun _ _ => rfl⟩
      · omega
      · rw [hone]
        exact hroom

end ReplaceCall

/-! ## The whole text -/

/-- All occurrences are replaced, where every text on the way fits, and else as many as fit; behind the buffer nothing is
written. -/
structure ReplacesAll (c : ReplaceCall) (b text : Bytes) (ks : List Nat) (ps : List Bytes) (b' : Bytes)
  (last : Option Nat)
    (res : Int) : Prop where
  within : b'.length = b.length ∧ ∀ n : Nat, c.strsize ≤ n → b'.drop n = b.drop n
  all : (∀ j, 0 < j → j ≤ ks.length → c.Fits (c.textAfter text ks ps j)) →
    HoldsText b' (c.subst.intercalate ps) ∧ res = (c.subst.intercalate ps).length
  stopped : ∀ i < ks.length, (∀ j, 0 < j → j ≤ i → c.Fits (c.textAfter text ks ps j)) →
    ¬ c.Fits (c.textAfter text ks ps (i + 1)) → HoldsText b' (c.textAfter text ks ps i) ∧ res = -1 ∧
      last = if i = 0 then none else some (replaced c.subst ps i).length

section Whole

variable {c : ReplaceCall} {b text : Bytes} {ks : List Nat} {ps : List Bytes}

theorem holds_start (htext : HoldsText b text) (hnonull : (0 : UInt8) ∉ text) : ReplaceState.Holds
    { str := b, len := text.length, currsize := text.length + 1, curr := 0, last := none } [] text b.length := by
  refine ⟨?_, rfl, rfl, ?_, ?_, hnonull⟩
  · rw [List.length_nil, Nat.zero_add]
    exact htext
  · exact (Nat.zero_add _).symm
  · show ((text.length : Int) + 1) = ((0 : Nat) : Int) + text.length + 1
    omega

/-- The call ends, after as many replacements as fit. -/
theorem rimReplaceString_ends (hall : c.all = true) (hfind : c.find ≠ []) (hsize : c.strsize ≤ b.length)
    (htext : HoldsText b text) (hnonull : (0 : UInt8) ∉ text) (hcuts : Cuts c.OccursAt c.find.length text ks ps) :
    ∃ s' res i, rimReplaceString b c = some (s'.str, s'.last, res) ∧ c.Ended
      { str := b, len := text.length, currsize := text.length + 1, curr := 0, last := none } [] text ks ps i s' res := by
  have hholds := holds_start htext hnonull
  have hat : textAt b 0 = some text := hholds.textAt
  obtain ⟨s', res, i, hrun, hend⟩ := ReplaceCall.loop_replaces hall hfind hsize hcuts hholds
    (by omega : text.length < text.length + c.strsize.toNat + 1)
  refine ⟨s', res, i, ?_, hend⟩
  unfold rimReplaceString
  rw [hat]
  show Option.bind (c.loop (text.length + c.strsize.toNat + 1) _) _ = _
  rw [hrun]
  rfl

/-- Where the call ends, all was replaced or as many as fit. -/
theorem ReplaceCall.Ended.replacesAll (hcuts : Cuts c.OccursAt c.find.length text ks ps) {s' : ReplaceState} {res : Int}
    {i : Nat} (hend : c.Ended
      { str := b, len := text.length, currsize := text.length + 1, curr := 0, last := none } [] text ks ps i s' res) :
    ReplacesAll c b text ks ps s'.str s'.last res := by
  refine ⟨⟨hend.size, hend.frame⟩, fun hfits => ?_, fun j hj hfits hfull => ?_⟩
  · obtain ⟨hi, hres⟩ | ⟨hi, hfull, -⟩ := hend.answer
    · have hwhole : c.textAfter text ks ps i = c.subst.intercalate ps := by
        rw [hi]
        exact hcuts.replaced_all c.subst
      rw [← hwhole]
      exact ⟨hend.text, hres⟩
    · exact absurd (hfits (i + 1) (Nat.succ_pos i) hi) hfull
  · -- as many were replaced as fit
    have hij : i = j := by
      obtain hlt | heq | hgt := Nat.lt_trichotomy i j
      · obtain ⟨hi, -⟩ | ⟨-, hstop, -⟩ := hend.answer
        · omega
        · exact absurd (hfits (i + 1) (Nat.succ_pos i) hlt) hstop
      · exact heq
      · exact absurd (hend.fits (j + 1) (Nat.succ_pos j) hgt) hfull
    subst hij
    obtain ⟨hi, -⟩ | ⟨-, -, hres⟩ := hend.answer
    · omega
    · exact ⟨hend.text, hres, hend.last⟩

theorem exists_replaceCuts (hfind : c.find ≠ []) (text : Bytes) : ∃ ks ps, Cuts c.OccursAt c.find.length text ks ps :=
  exists_cuts (List.length_pos_iff.mpr hfind) (fun _ _ => ReplaceCall.OccursAt.lt hfind) text

/-- Replacing all in a buffer ends, and is exact: the text is cut at the occurrences from left to right, and what is in
the buffer is its parts with the substitute between them, or, where a text on the way does not fit, the last one that
does. -/
theorem rimReplaceString_replaces (hall : c.all = true) (hfind : c.find ≠ []) (hsize : c.strsize ≤ b.length)
    (htext : HoldsText b text) (hnonull : (0 : UInt8) ∉ text) :
    ∃ ks ps b' last res, Cuts c.OccursAt c.find.length text ks ps ∧ rimReplaceString b c = some (b', last, res) ∧
      ReplacesAll c b text ks ps b' last res := by
  obtain ⟨ks, ps, hcuts⟩ := exists_replaceCuts hfind text
  obtain ⟨s', res, i, hrun, hend⟩ := rimReplaceString_ends hall hfind hsize htext hnonull hcuts
  exact ⟨ks, ps, _, _, res, hcuts, hrun, hend.replacesAll hcuts⟩

/-- Each slash by two bytes, in a buffer of seven. -/
def slashes : ReplaceCall := { find := [47], subst := [45, 47], strsize := 7, all := true, caseSensitive := true }

theorem rimReplaceString_replaces_slashes : ∃ ks ps b' last res,
    Cuts slashes.OccursAt 1 (ascii "a/b/") ks ps ∧
      rimReplaceString (ascii "a/b/" ++ [0, 9, 9]) slashes = some (b', last, res) ∧
      ReplacesAll slashes (ascii "a/b/" ++ [0, 9, 9]) (ascii "a/b/") ks ps b' last res :=
  rimReplaceString_replaces rfl (by decide) (by decide) rfl (by decide)

/-- In a buffer of six only the first one is replaced. -/
example : rimReplaceString (ascii "a/b/" ++ [0, 9]) { slashes with strsize := 6 } =
    some (ascii "a-/b/" ++ [0], some 3, -1) := by decide

end Whole

/-! ## A character that is doubled -/

/-- Replacing a character by two of it, in all of a text. -/
def doubling (x : UInt8) (strsize : Int) : ReplaceCall :=
  { find := [x], subst := [x, x], strsize, all := true, caseSensitive := true }

section Doubling

variable {x : UInt8} {strsize : Int} {text : Bytes} {ks : List Nat} {ps : List Bytes}

theorem doubling_occursAt {k : Nat} : (doubling x strsize).OccursAt text k ↔ text[k]? = some x := by
  show k + 1 ≤ text.length ∧ (text.drop k).take 1 = [x] ↔ _
  rw [List.getElem?_eq_some_iff]
  constructor
  · rintro ⟨hk, h⟩
    rw [List.drop_eq_getElem_cons hk] at h
    exact ⟨hk, (List.cons.inj h).1⟩
  · rintro ⟨hk, rfl⟩
    rw [List.drop_eq_getElem_cons hk]
    exact ⟨hk, rfl⟩

/-- The parts with the doubled character between them. -/
theorem doubling_parts (h : Cuts (doubling x strsize).OccursAt 1 text ks ps) : [x, x].intercalate ps = double x text := by
  induction h with
  | @last text hno =>
    have hx : x ∉ text := by
      intro hx
      obtain ⟨k, hk⟩ := List.mem_iff_getElem?.mp hx
      exact hno k (doubling_occursAt.mpr hk)
    rw [List.intercalate_singleton, double_of_notMem x hx]
  | @cut text k ks ps hk hrest ih =>
    obtain ⟨hlt, hget⟩ := List.getElem?_eq_some_iff.mp (doubling_occursAt.mp hk.1)
    have hfront : x ∉ text.take k := by
      intro hx
      obtain ⟨j, hj⟩ := List.mem_iff_getElem?.mp hx
      obtain ⟨hjlt, hget⟩ := List.getElem?_eq_some_iff.mp hj
      rw [List.length_take] at hjlt
      rw [List.getElem?_take_of_lt (by omega)] at hj
      have hle := hk.2 (doubling_occursAt.mpr hj)
      omega
    have hsplit : text = text.take k ++ x :: text.drop (k + 1) := by
      rw [← hget, ← List.drop_eq_getElem_cons hlt, List.take_append_drop]
    rw [List.intercalate_cons_of_ne_nil hrest.ne_nil, ih]
    conv_rhs => rw [hsplit, double_append, double_of_notMem x hfront, double_cons_self]
    rw [List.append_assoc]
    rfl

/-- A character is doubled in all of a text, if there is room for it. -/
theorem rimReplaceString_doubles (x : UInt8) (strsize : Int) {b text : Bytes} (hsize : strsize ≤ b.length)
    (htext : b.take (text.length + 1) = text ++ [0]) (hnonull : (0 : UInt8) ∉ text)
    (hroom : ((double x text).length + 1 : Int) ≤ strsize) :
    ∃ b' last, rimReplaceString b (doubling x strsize) = some (b', last, ((double x text).length : Int)) ∧
      b'.length = b.length ∧ b'.take ((double x text).length + 1) = double x text ++ [0] ∧
      ∀ n : Nat, strsize ≤ n → b'.drop n = b.drop n := by
  have hfind : (doubling x strsize).find ≠ [] := List.cons_ne_nil x []
  obtain ⟨ks, ps, hcuts⟩ := exists_replaceCuts hfind text
  obtain ⟨s', res, i, hrun, hended⟩ := rimReplaceString_ends rfl hfind hsize htext hnonull hcuts
  have hend := hended.replacesAll hcuts
  have hcuts' : Cuts (doubling x strsize).OccursAt 1 text ks ps := hcuts
  -- no text on the way is longer than the last
  have hlen := fun j (hj : j ≤ ks.length) => hcuts'.length_replaced (fun _ _ h => h.1) [x, x] hj
  have hlast := hlen ks.length (Nat.le_refl _)
  rw [hcuts'.replaced_all, doubling_parts hcuts'] at hlast
  obtain ⟨htaken, hres⟩ := hend.all fun j _ hj => by
    have hthis := hlen j hj
    simp only [List.length_cons, List.length_nil] at hthis hlast
    show ((replaced [x, x] ps j ++ behind 1 text ks j).length : Int) + 1 ≤ strsize
    omega
  have hdouble : (doubling x strsize).subst.intercalate ps = double x text := doubling_parts hcuts'
  rw [hdouble] at htaken hres
  rw [hres] at hrun
  exact ⟨_, _, hrun, hend.within.1, htaken, hend.within.2⟩

end Doubling

end RimStone
