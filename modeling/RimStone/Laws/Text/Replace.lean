import RimStone.Text.Regex
import RimStone.Laws.Memory.Chars
import RimStone.Lib.Yields

/-!
# The replacement of a match

The result is written in its memory, whatever is replaced with what: `RIM_ALLOC_REPLACE` counts a byte more for each
piece than is written, which is there for the null. What is written for a match is the replacement with its
references, but for one thing: `sdig`, the mark of a reference of one digit, is set for a `\0` that is none, and a
reference of two digits that comes next is then one of one digit.
-/

namespace RimStone

open RimStone.Lib

/-! ## What is written -/

/-- The text of a subexpression, which is empty where it is unset. -/
def subText (look : Bytes) (subexp : List Regmatch) (k : Nat) : Bytes :=
  match subexp[k]? with
  | some m => (look.drop m.so.toNat).take (m.eo - m.so).toNat
  | none => []

/-- The subexpression that a backslash with the digit `d` stands for, and whether it takes a second digit. -/
def subNamed (sub : Nat) (d : UInt8) (v : Bytes) : Option (Nat × Bool) :=
  let two := digitOf d * 10 + digitOf (v.headD 0)
  if 9 < sub ∧ isdigit (v.headD 0) = true ∧ 1 ≤ two ∧ two ≤ sub then some (two, true)
  else if 1 ≤ digitOf d ∧ digitOf d ≤ sub then some (digitOf d, false)
  else none

/-- The replacement with the texts of its references. -/
def replaceRefs (sub : Nat) (text : Nat → Bytes) : Bytes → Bytes
  | c :: d :: v =>
    if c = 92 ∧ isdigit d then
      match subNamed sub d v with
      | some (k, two) => text k ++ replaceRefs sub text (if two then v.tail else v)
      | none => c :: d :: replaceRefs sub text v
    else c :: replaceRefs sub text (d :: v)
  | v => v
termination_by v => v.length
decreasing_by
  all_goals simp only [List.length_cons]
  · have hle : v.tail.length ≤ v.length := by
      rw [List.length_tail]
      omega
    split <;> omega
  · omega
  · omega

/-- What the code writes for the replacement, from a place on where `sdig` is what it is. -/
def writeRefs (sub : Nat) (text : Nat → Bytes) (sdig : Bool) : Bytes → Bytes
  | c :: d :: v =>
    if c = 92 ∧ isdigit d then
      if (subReference sub sdig d v).1 < 1 then c :: d :: writeRefs sub text (subReference sub sdig d v).2 v
      else
        text (subReference sub sdig d v).1 ++
          writeRefs sub text false (if (subReference sub sdig d v).2 then v else v.tail)
    else c :: writeRefs sub text sdig (d :: v)
  | v => v
termination_by v => v.length
decreasing_by
  all_goals simp only [List.length_cons]
  · omega
  · have hle : v.tail.length ≤ v.length := by
      rw [List.length_tail]
      omega
    split <;> omega
  · omega

/-- No reference of two digits comes behind a `\0` that is none, where there is no reference in between. -/
def Unmasked (sub : Nat) (sdig : Bool) : Bytes → Prop
  | c :: d :: v =>
    if c = 92 ∧ isdigit d then
      match subNamed sub d v with
      | some (_, true) => sdig = false ∧ Unmasked sub false v.tail
      | some (_, false) => Unmasked sub false v
      | none => Unmasked sub (sdig || !decide (9 < sub ∧ isdigit (v.headD 0) = true)) v
    else Unmasked sub sdig (d :: v)
  | _ => True
termination_by v => v.length
decreasing_by
  all_goals simp only [List.length_cons, List.length_tail]
  all_goals omega

section

variable {sub : Nat} {text : Nat → Bytes} {c d : UInt8} {v : Bytes}

theorem digit_byte {d : UInt8} (h : isdigit d = true) : digitOf d ≤ 9 ∧ d ≠ 92 ∧ d ≠ 120 := by
  have hall : ∀ n < 256, isdigit (UInt8.ofNat n) = true →
      digitOf (UInt8.ofNat n) ≤ 9 ∧ UInt8.ofNat n ≠ 92 ∧ UInt8.ofNat n ≠ 120 := by decide +kernel
  have hd := hall d.toNat d.toNat_lt
  rw [UInt8.ofNat_toNat] at hd
  exact hd h

/-! ## References -/

/-- What the code takes for a reference, and what it is. -/
inductive Referenced (sub : Nat) (sdig : Bool) (d : UInt8) (v : Bytes) : Prop
  /-- two digits, which a mark makes one -/
  | two (k : Nat) : subNamed sub d v = some (k, true) →
      subReference sub sdig d v = (if sdig then digitOf d else k, sdig) → 1 ≤ k → k ≤ sub →
      k = digitOf d * 10 + digitOf (v.headD 0) → isdigit (v.headD 0) = true → 9 < sub → Referenced sub sdig d v
  | one (k : Nat) : subNamed sub d v = some (k, false) → subReference sub sdig d v = (k, true) → 1 ≤ k → k ≤ sub →
      Referenced sub sdig d v
  | none : subNamed sub d v = none →
      subReference sub sdig d v = (0, sdig || !decide (9 < sub ∧ isdigit (v.headD 0) = true)) → Referenced sub sdig d v

theorem referenced (sub : Nat) (sdig : Bool) (v : Bytes) (hd : isdigit d = true) : Referenced sub sdig d v := by
  have hnine := (digit_byte hd).1
  by_cases hboth : 9 < sub ∧ isdigit (v.headD 0) = true
  · have he := (digit_byte hboth.2).1
    by_cases hle : digitOf d * 10 + digitOf (v.headD 0) ≤ sub
    · have href : subReference sub sdig d v =
          (if sdig then digitOf d else digitOf d * 10 + digitOf (v.headD 0), sdig) := by
        unfold subReference
        dsimp only
        rw [if_pos hboth, if_neg (Nat.not_lt.mpr hle), if_neg (show ¬ digitOf d > sub by omega)]
      by_cases hone : 1 ≤ digitOf d * 10 + digitOf (v.headD 0)
      · exact .two _ (if_pos ⟨hboth.1, hboth.2, hone, hle⟩) href hone hle rfl hboth.2 hboth.1
      · refine .none ?_ ?_
        · unfold subNamed
          dsimp only
          rw [if_neg fun hall => hone hall.2.2.1, if_neg (by omega)]
        · rw [href, decide_eq_true hboth, Bool.not_true, Bool.or_false, show digitOf d = 0 by omega,
            show digitOf (v.headD 0) = 0 by omega, ite_self]
    · refine .one (digitOf d) ?_ ?_ (by omega) (by omega)
      · unfold subNamed
        dsimp only
        rw [if_neg fun hall => hle hall.2.2.2, if_pos (by omega)]
      · unfold subReference
        dsimp only
        rw [if_pos hboth, if_pos (Nat.lt_of_not_le hle), if_pos rfl, if_neg (show ¬ digitOf d > sub by omega)]
  · have hnamed : subNamed sub d v = if 1 ≤ digitOf d ∧ digitOf d ≤ sub then some (digitOf d, false) else none := by
      unfold subNamed
      dsimp only
      rw [if_neg fun hall => hboth ⟨hall.1, hall.2.1⟩]
    have href : subReference sub sdig d v = (if digitOf d > sub then 0 else digitOf d, true) := by
      unfold subReference
      dsimp only
      rw [if_neg hboth, if_pos rfl]
    by_cases hone : 1 ≤ digitOf d ∧ digitOf d ≤ sub
    · rw [if_pos hone] at hnamed
      rw [if_neg (by omega)] at href
      exact .one _ hnamed href hone.1 hone.2
    · rw [if_neg hone] at hnamed
      refine .none hnamed ?_
      rw [href, decide_eq_false hboth, Bool.not_false, Bool.or_true]
      split
      · rfl
      · rw [show digitOf d = 0 by omega]

/-! ## Texts -/

theorem replaceRefs_plain (h : ¬ (c = 92 ∧ isdigit d = true)) :
    replaceRefs sub text (c :: d :: v) = c :: replaceRefs sub text (d :: v) := by
  rw [replaceRefs, if_neg h]

theorem writeRefs_plain {sdig : Bool} (h : ¬ (c = 92 ∧ isdigit d = true)) :
    writeRefs sub text sdig (c :: d :: v) = c :: writeRefs sub text sdig (d :: v) := by
  rw [writeRefs, if_neg h]

theorem replaceRefs_named {k : Nat} {two : Bool} (hd : isdigit d = true) (h : subNamed sub d v = some (k, two)) :
    replaceRefs sub text (92 :: d :: v) = text k ++ replaceRefs sub text (if two then v.tail else v) := by
  rw [replaceRefs, if_pos ⟨rfl, hd⟩, h]

theorem replaceRefs_none (hd : isdigit d = true) (h : subNamed sub d v = none) :
    replaceRefs sub text (92 :: d :: v) = 92 :: d :: replaceRefs sub text v := by
  rw [replaceRefs, if_pos ⟨rfl, hd⟩, h]

theorem writeRefs_named {k : Nat} {sdig one : Bool} (hd : isdigit d = true) (h : subReference sub sdig d v = (k, one))
    (hk : 1 ≤ k) : writeRefs sub text sdig (92 :: d :: v) = text k ++ writeRefs sub text false (if one then v else v.tail) := by
  rw [writeRefs, if_pos ⟨rfl, hd⟩, h, if_neg (by omega)]

theorem writeRefs_none {sdig one : Bool} (hd : isdigit d = true) (h : subReference sub sdig d v = (0, one)) :
    writeRefs sub text sdig (92 :: d :: v) = 92 :: d :: writeRefs sub text one v := by
  rw [writeRefs, if_pos ⟨rfl, hd⟩, h, if_pos (by omega)]

/-- What is written is the replacement, where no reference is masked. -/
theorem writeRefs_eq (n : Nat) {sdig : Bool} {v : Bytes} (hlen : v.length ≤ n) (h : Unmasked sub sdig v) :
    writeRefs sub text sdig v = replaceRefs sub text v := by
  induction n generalizing sdig v with
  | zero =>
    obtain rfl := List.length_eq_zero_iff.mp (Nat.le_zero.mp hlen)
    rw [writeRefs, replaceRefs]
    all_goals exact fun c d v hv => by cases hv
  | succ n ih =>
    match v with
    | [] =>
      rw [writeRefs, replaceRefs]
      all_goals exact fun c d v hv => by cases hv
    | [c] =>
      rw [writeRefs, replaceRefs]
      all_goals exact fun c d v hv => by cases hv
    | c :: d :: v =>
      rw [List.length_cons, List.length_cons] at hlen
      rw [Unmasked] at h
      by_cases hslash : c = 92 ∧ isdigit d = true
      · rw [if_pos hslash] at h
        obtain ⟨rfl, hd⟩ := hslash
        cases referenced sub sdig v hd with
        | two k hnamed href hone hle hk he hsub =>
          rw [hnamed] at h
          obtain ⟨rfl, h⟩ := h
          rw [replaceRefs_named hd hnamed, writeRefs_named hd href hone, if_pos rfl, if_neg Bool.false_ne_true,
            if_neg Bool.false_ne_true]
          rw [ih (by rw [List.length_tail]; omega) h]
        | one k hnamed href hone hle =>
          rw [hnamed] at h
          rw [replaceRefs_named hd hnamed, writeRefs_named hd href hone, if_pos rfl, if_neg Bool.false_ne_true]
          rw [ih (by omega) h]
        | none hnamed href =>
          rw [hnamed] at h
          rw [replaceRefs_none hd hnamed, writeRefs_none hd href, ih (by omega) h]
      · rw [if_neg hslash] at h
        rw [replaceRefs_plain hslash, writeRefs_plain hslash, ih (by rw [List.length_cons]; omega) h]

/-- The subexpression `k` is an `x`, and the others are empty. -/
def OnlySub (sub k : Nat) (text : Nat → Bytes) : Prop :=
  text k = [120] ∧ ∀ i, 1 ≤ i → i ≤ sub → i ≠ k → text i = []

/-- A byte that is no backslash is written as it is. -/
theorem writeRefs_head (sdig : Bool) (hc : c ≠ 92) (v : Bytes) : ∃ x, writeRefs sub text sdig (c :: v) = c :: x := by
  cases v with
  | nil =>
    refine ⟨[], ?_⟩
    rw [writeRefs]
    exact fun c d v hv => by cases hv
  | cons d v => exact ⟨_, writeRefs_plain fun hslash => hc hslash.1⟩

/-- A reference that is masked shows, where its text is all there is. -/
theorem writeRefs_ne (n : Nat) {sdig : Bool} {v : Bytes} (hlen : v.length ≤ n) (h : ¬ Unmasked sub sdig v) :
    ∃ k, 1 ≤ k ∧ k ≤ sub ∧ ∀ text, OnlySub sub k text → writeRefs sub text sdig v ≠ replaceRefs sub text v := by
  induction n generalizing sdig v with
  | zero =>
    obtain rfl := List.length_eq_zero_iff.mp (Nat.le_zero.mp hlen)
    refine absurd ?_ h
    rw [Unmasked]
    · trivial
    · exact fun c d v hv => by cases hv
  | succ n ih =>
    match v with
    | [] =>
      refine absurd ?_ h
      rw [Unmasked]
      · trivial
      · exact fun c d v hv => by cases hv
    | [c] =>
      refine absurd ?_ h
      rw [Unmasked]
      · trivial
      · exact fun c d v hv => by cases hv
    | c :: d :: v =>
      rw [List.length_cons, List.length_cons] at hlen
      rw [Unmasked] at h
      by_cases hslash : c = 92 ∧ isdigit d = true
      · rw [if_pos hslash] at h
        obtain ⟨rfl, hd⟩ := hslash
        cases referenced sub sdig v hd with
        | two k hnamed href hone hle hk he hsub =>
          rw [hnamed] at h
          obtain rfl | hmark := Bool.eq_false_or_eq_true sdig
          · -- the text of the reference is where the code has a digit, or the backslash
            refine ⟨k, hone, hle, fun text htext => ?_⟩
            rw [if_pos rfl] at href
            have hspec : replaceRefs sub text (92 :: d :: v) = 120 :: replaceRefs sub text v.tail := by
              rw [replaceRefs_named hd hnamed, htext.1, if_pos rfl]
              rfl
            rw [hspec]
            have hnine := (digit_byte he).1
            by_cases hzero : digitOf d = 0
            · rw [hzero] at href
              rw [writeRefs_none hd href]
              intro heq
              have hhead := (List.cons.inj heq).1
              cases hhead
            · have hother : text (digitOf d) = [] := htext.2 _ (by omega) (by omega) (by omega)
              rw [writeRefs_named hd href (by omega), hother, List.nil_append, if_pos rfl]
              cases v with
              | nil => cases he
              | cons e w =>
                obtain ⟨-, hslash, hx⟩ := digit_byte he
                obtain ⟨x, hwritten⟩ := @writeRefs_head sub text _ false hslash w
                intro heq
                exact hx (List.cons.inj (hwritten.symm.trans heq)).1
          · obtain rfl := hmark
            obtain ⟨k, hone, hle, hne⟩ := @ih false v.tail (by rw [List.length_tail]; omega)
              fun hun => h ⟨rfl, hun⟩
            refine ⟨k, hone, hle, fun text htext => ?_⟩
            rw [replaceRefs_named hd hnamed, writeRefs_named hd href (by rwa [if_neg Bool.false_ne_true]), if_pos rfl,
              if_neg Bool.false_ne_true, if_neg Bool.false_ne_true]
            exact fun heq => hne text htext (List.append_cancel_left heq)
        | one k hnamed href hone hle =>
          rw [hnamed] at h
          obtain ⟨j, hj, hjle, hne⟩ := ih (by omega) h
          refine ⟨j, hj, hjle, fun text htext => ?_⟩
          rw [replaceRefs_named hd hnamed, writeRefs_named hd href hone, if_pos rfl, if_neg Bool.false_ne_true]
          exact fun heq => hne text htext (List.append_cancel_left heq)
        | none hnamed href =>
          rw [hnamed] at h
          obtain ⟨j, hj, hjle, hne⟩ := ih (by omega) h
          refine ⟨j, hj, hjle, fun text htext => ?_⟩
          rw [replaceRefs_none hd hnamed, writeRefs_none hd href]
          exact fun heq => hne text htext (List.cons.inj (List.cons.inj heq).2).2
      · rw [if_neg hslash] at h
        obtain ⟨j, hj, hjle, hne⟩ := ih (by rw [List.length_cons]; omega) h
        refine ⟨j, hj, hjle, fun text htext => ?_⟩
        rw [replaceRefs_plain hslash, writeRefs_plain hslash]
        exact fun heq => hne text htext (List.cons.inj heq).2

/-! ## The search for a reference -/

/-- A backslash with a digit, as the search sees it. -/
theorem referenceLoop_slash {sdig : Bool} (hd : isdigit d = true) :
    referenceLoop sub sdig (92 :: d :: v) =
      if (subReference sub sdig d v).1 < 1 then
        ((referenceLoop sub (subReference sub sdig d v).2 v).1 + 2, (referenceLoop sub (subReference sub sdig d v).2 v).2)
      else (0, some (subReference sub sdig d v)) := by
  rw [referenceLoop, if_pos ⟨rfl, hd⟩]

theorem referenceLoop_plain {sdig : Bool} (h : ¬ (c = 92 ∧ isdigit d = true)) :
    referenceLoop sub sdig (c :: d :: v) =
      ((referenceLoop sub sdig (d :: v)).1 + 1, (referenceLoop sub sdig (d :: v)).2) := by
  rw [referenceLoop, if_neg h]

/-- Without a reference, all is passed and written. -/
theorem referenceLoop_end (m : Nat) {sdig : Bool} {v : Bytes} (hlen : v.length ≤ m)
    (h : (referenceLoop sub sdig v).2 = none) :
    (referenceLoop sub sdig v).1 = v.length ∧ writeRefs sub text sdig v = v := by
  induction m generalizing sdig v with
  | zero =>
    obtain rfl := List.length_eq_zero_iff.mp (Nat.le_zero.mp hlen)
    refine ⟨rfl, ?_⟩
    rw [writeRefs]
    exact fun c d v hv => by cases hv
  | succ m ih =>
    match v with
    | [] =>
      refine ⟨rfl, ?_⟩
      rw [writeRefs]
      exact fun c d v hv => by cases hv
    | [c] =>
      refine ⟨rfl, ?_⟩
      rw [writeRefs]
      exact fun c d v hv => by cases hv
    | c :: d :: v =>
      rw [List.length_cons, List.length_cons] at hlen
      by_cases hslash : c = 92 ∧ isdigit d = true
      · obtain ⟨rfl, hd⟩ := hslash
        rw [referenceLoop_slash hd] at h ⊢
        by_cases hnone : (subReference sub sdig d v).1 < 1
        · rw [if_pos hnone] at h ⊢
          obtain ⟨hpassed, hwritten⟩ := @ih (subReference sub sdig d v).2 v (by omega) h
          refine ⟨congrArg (· + 2) hpassed, ?_⟩
          rw [writeRefs, if_pos ⟨rfl, hd⟩, if_pos hnone, hwritten]
        · rw [if_neg hnone] at h
          cases h
      · rw [referenceLoop_plain hslash] at h ⊢
        obtain ⟨hpassed, hwritten⟩ := @ih sdig (d :: v) (by rw [List.length_cons]; omega) h
        exact ⟨congrArg (· + 1) hpassed, by rw [writeRefs_plain hslash, hwritten]⟩

/-- What is passed before a reference is written as it is, and the reference is one of the pattern's. -/
theorem referenceLoop_found (m : Nat) {sdig : Bool} {v : Bytes} {k : Nat} {one : Bool} (hlen : v.length ≤ m)
    (h : (referenceLoop sub sdig v).2 = some (k, one)) :
    k ≤ sub ∧ (referenceLoop sub sdig v).1 + (if one then 2 else 3) ≤ v.length ∧
      writeRefs sub text sdig v = v.take (referenceLoop sub sdig v).1 ++
        (text k ++ writeRefs sub text false (v.drop ((referenceLoop sub sdig v).1 + if one then 2 else 3))) := by
  induction m generalizing sdig v with
  | zero =>
    obtain rfl := List.length_eq_zero_iff.mp (Nat.le_zero.mp hlen)
    cases h
  | succ m ih =>
    match v with
    | [] => cases h
    | [c] => cases h
    | c :: d :: v =>
      rw [List.length_cons, List.length_cons] at hlen
      by_cases hslash : c = 92 ∧ isdigit d = true
      · obtain ⟨rfl, hd⟩ := hslash
        rw [referenceLoop_slash hd] at h ⊢
        by_cases hnone : (subReference sub sdig d v).1 < 1
        · rw [if_pos hnone] at h ⊢
          obtain ⟨hle, hpassed, hwritten⟩ := @ih (subReference sub sdig d v).2 v (by omega) h
          refine ⟨hle, by dsimp only [List.length_cons]; omega, ?_⟩
          rw [writeRefs, if_pos ⟨rfl, hd⟩, if_pos hnone, hwritten]
          dsimp only
          rw [List.take_succ_cons, List.take_succ_cons, List.cons_append, List.cons_append, Nat.add_right_comm,
            List.drop_succ_cons, List.drop_succ_cons]
        · rw [if_neg hnone] at h ⊢
          have hnamed : subReference sub sdig d v = (k, one) := Option.some.inj h
          rw [hnamed] at hnone
          have hwritten := @writeRefs_named sub text d v k sdig one hd hnamed (Nat.not_lt.mp hnone)
          have hroom : k ≤ sub ∧ (if one then 2 else 3) ≤ v.length + 2 := by
            cases referenced sub sdig v hd with
            | two j _ href _ hle hj he _ =>
              rw [href] at hnamed
              obtain ⟨hk, rfl⟩ := Prod.mk.inj hnamed
              have hv : 1 ≤ v.length := by
                cases v with
                | nil => cases he
                | cons e w => exact Nat.le_add_left _ _
              constructor
              · rw [← hk]
                split
                · omega
                · exact hle
              · split <;> omega
            | one j _ href _ hle =>
              rw [href] at hnamed
              obtain ⟨rfl, rfl⟩ := Prod.mk.inj hnamed
              exact ⟨hle, by rw [if_pos rfl]; omega⟩
            | none _ href =>
              rw [href] at hnamed
              obtain ⟨rfl, -⟩ := Prod.mk.inj hnamed
              exact absurd Nat.zero_lt_one hnone
          refine ⟨hroom.1, by dsimp only [List.length_cons]; omega, ?_⟩
          rw [hwritten, List.take_zero, List.nil_append, Nat.zero_add]
          cases one with
          | true => rfl
          | false =>
            rw [if_neg Bool.false_ne_true, if_neg Bool.false_ne_true]
            cases v with
            | nil => rfl
            | cons e w => rfl
      · rw [referenceLoop_plain hslash] at h ⊢
        obtain ⟨hle, hpassed, hwritten⟩ := @ih sdig (d :: v) (by rw [List.length_cons]; omega) h
        refine ⟨hle, by dsimp only [List.length_cons] at hpassed ⊢; omega, ?_⟩
        rw [writeRefs_plain hslash, hwritten]
        dsimp only
        rw [List.take_succ_cons, List.cons_append, Nat.add_right_comm, List.drop_succ_cons]

/-! ## The memory of the result -/

/-- The result so far is in its memory, and there is room for its null in what is counted. -/
structure RegexRes.Has (r : RegexRes) (x : Bytes) : Prop where
  len : r.len = x.length
  text : r.block.take r.len = x
  counted : (r.len : Int) + 1 ≤ r.needed
  room : r.needed ≤ r.block.length

theorem RegexRes.start_has : RegexRes.start.Has [] := ⟨rfl, rfl, by decide, by decide⟩

/-- There is room for `n` bytes more, and a null. -/
theorem RegexRes.Has.alloc {r : RegexRes} {x : Bytes} (h : r.Has x) (n : Nat) :
    (r.alloc n).len = r.len ∧ (r.alloc n).block.take r.len = x ∧ (r.alloc n).needed = r.needed + (n + 1) ∧
      (r.alloc n).needed < (r.alloc n).block.length := by
  have hlen := h.counted
  have hroom := h.room
  have htake : ∀ more : Bytes, (r.block ++ more).take r.len = x := by
    intro more
    rw [List.take_append_of_le_length (by omega), h.text]
  unfold RegexRes.alloc
  dsimp only
  split
  · next hmore =>
    refine ⟨rfl, htake _, rfl, ?_⟩
    dsimp only
    rw [List.length_append, List.length_replicate]
    omega
  · next hless => exact ⟨rfl, h.text, rfl, by dsimp only; omega⟩

/-- What is written for a piece of a text is the piece. -/
theorem strncpy_piece {look : Bytes} {so eo : Int} (hin : so = eo ∨ 0 ≤ so ∧ so ≤ eo ∧ eo ≤ look.length) :
    strncpy look so (eo - so) = some ((look.drop so.toNat).take (eo - so).toNat) := by
  unfold strncpy
  rcases hin with rfl | ⟨hso, hle, heo⟩
  · rw [Int.sub_self, if_pos rfl]
    rfl
  · split
    · next hzero =>
      rw [hzero]
      rfl
    · rw [if_pos ⟨hso, Int.le_trans hle heo, by omega⟩, show (eo - so).toNat - (look.length - so.toNat) = 0 by omega]
      rw [List.replicate_zero, List.append_nil]

/-- A piece is written to a block, with a null behind it. -/
theorem memcpy_poke {b piece : Bytes} {i : Nat} (h : i + piece.length < b.length) :
    ∃ b₁ b₂, memcpy b i piece = some b₁ ∧ poke b₁ (i + piece.length) 0 = some b₂ ∧
      b₂.take (i + piece.length) = b.take i ++ piece ∧ b₂.length = b.length := by
  have hlen : (b.take i ++ piece).length = i + piece.length := by
    rw [List.length_append, List.length_take]
    omega
  have hblock : (b.take i ++ piece ++ b.drop (i + piece.length)).length = b.length := by
    rw [List.length_append, hlen, List.length_drop]
    omega
  refine ⟨_, _, if_pos (Nat.le_of_lt h), poke_eq (by rw [hblock]; exact h) 0, ?_, by rw [List.length_set, hblock]⟩
  rw [List.take_set_of_le (Nat.le_refl _), List.take_append_of_le_length (by rw [hlen]), ← hlen, List.take_length]

/-- A piece of a text is written to the end of the result. -/
theorem RegexRes.Has.copy {r : RegexRes} {x : Bytes} (h : r.Has x) (look : Bytes) {so eo : Int}
    (hin : so = eo ∨ 0 ≤ so ∧ so ≤ eo ∧ eo ≤ look.length) :
    ∃ r', r.copy look so (eo - so) = .ok r' ∧ r'.Has (x ++ (look.drop so.toNat).take (eo - so).toNat) := by
  have hpiece := strncpy_piece hin
  obtain ⟨n, hn⟩ := Int.eq_ofNat_of_zero_le (show 0 ≤ eo - so by omega)
  have hlength : ((look.drop so.toNat).take (eo - so).toNat).length = n := by
    rw [List.length_take, List.length_drop]
    omega
  generalize (look.drop so.toNat).take (eo - so).toNat = piece at hpiece hlength
  rw [hn] at hpiece
  rw [hn]
  obtain ⟨hlen, htext, hneeded, hroom⟩ := h.alloc n
  have hcounted := h.counted
  rw [hneeded] at hroom
  obtain ⟨b₁, b₂, hmem, hpoke, htake, hblock⟩ := @memcpy_poke (r.alloc n).block piece r.len (by omega)
  refine ⟨{ r.alloc n with block := b₂, len := r.len + piece.length }, ?_, ?_⟩
  · unfold RegexRes.copy
    dsimp only
    rw [hpiece, hlen, Option.bind_eq_bind, Option.bind_some, hmem, Option.bind_some, hpoke, Option.bind_some]
    rfl
  · refine ⟨?_, ?_, ?_, ?_⟩
    · dsimp only
      rw [List.length_append, h.len]
    · dsimp only
      rw [htake, htext]
    · dsimp only
      rw [hneeded]
      omega
    · dsimp only
      rw [hneeded, hblock]
      omega

/-! ## The replacement of one match -/

/-- What the matcher says of a match with `sub` subexpressions in a text of `len` bytes. -/
structure Subexp (sub len : Nat) (subexp : List Regmatch) : Prop where
  all : subexp.length = sub + 1
  within : ∀ m ∈ subexp, m.so = m.eo ∨ 0 ≤ m.so ∧ m.so ≤ m.eo ∧ m.eo ≤ len

theorem Subexp.get {len k : Nat} {subexp : List Regmatch} (h : Subexp sub len subexp) (hk : k ≤ sub) :
    ∃ m, subexp[k]? = some m ∧ (m.so = m.eo ∨ 0 ≤ m.so ∧ m.so ≤ m.eo ∧ m.eo ≤ len) := by
  have hlt : k < subexp.length := by
    rw [h.all]
    omega
  exact ⟨subexp[k], List.getElem?_eq_getElem hlt, h.within _ (List.getElem_mem hlt)⟩

/-- The replacement for a match is written to the end of the result. -/
theorem replaceLoop_writes {look : Bytes} {subexp : List Regmatch} (hsub : Subexp sub look.length subexp) (fuel : Nat)
    {current x : Bytes} {r : RegexRes} (hfuel : current.length < fuel) (h : r.Has x) :
    ∃ r', replaceLoop sub look subexp fuel current r = .ok r' ∧
      r'.Has (x ++ writeRefs sub (subText look subexp) false current) := by
  induction fuel generalizing current x r with
  | zero => exact absurd hfuel (Nat.not_lt_zero _)
  | succ fuel ih =>
    rw [replaceLoop]
    generalize href : referenceLoop sub false current = found
    obtain ⟨n, _ | ⟨k, one⟩⟩ := found
    · obtain ⟨hpassed, hwritten⟩ :=
        @referenceLoop_end sub (subText look subexp) current.length false current (Nat.le_refl _) (by rw [href])
      rw [href] at hpassed
      obtain rfl := hpassed
      obtain ⟨r', hcopy, hhas⟩ := @RegexRes.Has.copy r x h current 0 current.length (.inr (by omega))
      rw [Int.sub_zero] at hcopy hhas
      refine ⟨r', hcopy, ?_⟩
      rw [Int.toNat_zero, List.drop_zero, Int.toNat_natCast, List.take_length] at hhas
      rw [hwritten]
      exact hhas
    · obtain ⟨hk, hle, hwritten⟩ :=
        @referenceLoop_found sub (subText look subexp) current.length false current k one (Nat.le_refl _) (by rw [href])
      rw [href] at hle hwritten
      obtain ⟨m, hm, hin⟩ := hsub.get hk
      obtain ⟨r₁, hcopy₁, hhas₁⟩ := @RegexRes.Has.copy r x h current 0 n (.inr (by split at hle <;> omega))
      obtain ⟨r₂, hcopy₂, hhas₂⟩ := hhas₁.copy look hin
      obtain ⟨r', hloop, hhas⟩ := @ih (current.drop (n + if one then 2 else 3)) _ r₂
        (by rw [List.length_drop]; split at hle <;> split <;> omega) hhas₂
      refine ⟨r', ?_, ?_⟩
      · dsimp only
        rw [Int.sub_zero] at hcopy₁
        rw [hcopy₁, ok_bind, hm]
        change (r₁.copy look m.so (m.eo - m.so) >>= _) = _
        rw [hcopy₂, ok_bind, hloop]
      · rw [Int.sub_zero, Int.toNat_zero, List.drop_zero, Int.toNat_natCast] at hhas
        have htext : subText look subexp k = (look.drop m.so.toNat).take (m.eo - m.so).toNat := by
          unfold subText
          rw [hm]
        rw [hwritten, htext, ← List.append_assoc, ← List.append_assoc]
        exact hhas

/-! ## The replacement of the matches -/

/-- The text where each match that the matcher finds, one behind the other, is replaced, and how many they are. -/
inductive Replaces (exec : Regexec) (expand : Bytes → List Regmatch → Bytes) (single : Bool) : Bytes → Nat → Bytes → Prop
  | done {look : Bytes} : look = [] ∨ exec look = none → Replaces exec expand single look 0 look
  | one {look : Bytes} {subexp : List Regmatch} {m : Regmatch} : look ≠ [] → exec look = some subexp →
      subexp[0]? = some m → single = true →
      Replaces exec expand single look 1 (look.take m.so.toNat ++ (expand look subexp ++ look.drop m.eo.toNat))
  | more {look out : Bytes} {n : Nat} {subexp : List Regmatch} {m : Regmatch} : look ≠ [] → exec look = some subexp →
      subexp[0]? = some m → single = false → Replaces exec expand single (look.drop m.eo.toNat) n out →
      Replaces exec expand single look (n + 1) (look.take m.so.toNat ++ (expand look subexp ++ out))

/-- The matches that are found are within the text. -/
structure Matcher (sub : Nat) (exec : Regexec) : Prop where
  subexp {t : Bytes} {subexp : List Regmatch} : exec t = some subexp → Subexp sub t.length subexp
  whole {t : Bytes} {subexp : List Regmatch} {m : Regmatch} : exec t = some subexp → subexp[0]? = some m →
    0 ≤ m.so ∧ m.so ≤ m.eo ∧ m.eo ≤ t.length

def NonEmpty (exec : Regexec) : Prop :=
  ∀ t subexp m, exec t = some subexp → subexp[0]? = some m → m.so < m.eo

theorem Matcher.first {exec : Regexec} (hexec : Matcher sub exec) {look : Bytes} {subexp : List Regmatch}
    (h : exec look = some subexp) :
    ∃ m : Regmatch, subexp[0]? = some m ∧ 0 ≤ m.so ∧ m.so ≤ m.eo ∧ m.eo ≤ look.length := by
  obtain ⟨m, hm, -⟩ := (hexec.subexp h).get (Nat.zero_le _)
  exact ⟨m, hm, hexec.whole h hm⟩

theorem lookBehind_eq {look : Bytes} {m : Regmatch} (hin : 0 ≤ m.so ∧ m.so ≤ m.eo ∧ m.eo ≤ look.length) :
    lookBehind look m.eo = .ok (look.drop m.eo.toNat) := by
  unfold lookBehind
  rw [if_pos ⟨Int.le_trans hin.1 hin.2.1, hin.2.2⟩]
  rfl

/-- Where no match is empty, there is an end to the replacing. -/
theorem exists_replaces {exec : Regexec} (hexec : Matcher sub exec) (hne : NonEmpty exec)
    (expand : Bytes → List Regmatch → Bytes) (single : Bool) (n : Nat) {look : Bytes} (hlen : look.length ≤ n) :
    ∃ k out, k ≤ n ∧ Replaces exec expand single look k out := by
  induction n generalizing look with
  | zero => exact ⟨0, look, Nat.le_refl _, .done (.inl (List.length_eq_zero_iff.mp (Nat.le_zero.mp hlen)))⟩
  | succ n ih =>
    by_cases hnil : look = []
    · exact ⟨0, look, Nat.zero_le _, .done (.inl hnil)⟩
    generalize hfound : exec look = found
    obtain _ | subexp := found
    · exact ⟨0, look, Nat.zero_le _, .done (.inr hfound)⟩
    · obtain ⟨m, hm, hso, hle, heo⟩ := hexec.first hfound
      have hlt := hne look subexp m hfound hm
      cases single with
      | true => exact ⟨1, _, Nat.le_add_left _ _, .one hnil hfound hm rfl⟩
      | false =>
        obtain ⟨k, out, hk, hrest⟩ := @ih (look.drop m.eo.toNat) (by rw [List.length_drop]; omega)
        exact ⟨k + 1, _, Nat.succ_le_succ hk, .more hnil hfound hm rfl hrest⟩

/-- One match is replaced in the memory of the result. -/
theorem regexMatch_writes {exec : Regexec} (hexec : Matcher sub exec) (replace : Bytes) {look x : Bytes}
    {subexp : List Regmatch} {m : Regmatch} {r : RegexRes} (hfound : exec look = some subexp) (hm : subexp[0]? = some m)
    (h : r.Has x) :
    ∃ r', regexMatch sub (some replace) look subexp r = .ok (look.drop m.eo.toNat, r') ∧
      r'.Has (x ++ (look.take m.so.toNat ++ writeRefs sub (subText look subexp) false replace)) := by
  have hin := hexec.whole hfound hm
  obtain ⟨r₁, hcopy, hhas₁⟩ := @RegexRes.Has.copy r x h look 0 m.so (.inr (by omega))
  obtain ⟨r₂, hloop, hhas₂⟩ := replaceLoop_writes (hexec.subexp hfound) (replace.length + 1) (Nat.lt_succ_self _) hhas₁
  rw [Int.sub_zero] at hcopy
  rw [Int.sub_zero, Int.toNat_zero, List.drop_zero, List.append_assoc] at hhas₂
  refine ⟨r₂, ?_, hhas₂⟩
  unfold regexMatch
  rw [hm]
  change (r.copy look 0 m.so >>= _) = _
  rw [hcopy, ok_bind, hloop, ok_bind, lookBehind_eq hin]
  rfl

/-- The search writes what is replaced, as far as the last match; what is left is the end. -/
theorem Replaces.writes {exec : Regexec} (hexec : Matcher sub exec) {replace look out : Bytes} {single : Bool} {n : Nat}
    (h : Replaces exec (fun look subexp => writeRefs sub (subText look subexp) false replace) single look n out)
    {fuel tot : Nat} {x : Bytes} {r : RegexRes} (hfuel : n < fuel) (hhas : r.Has x) :
    ∃ rest r' y, regexLoop exec sub (some replace) single fuel look tot r = .ok (tot + n, rest, r') ∧
      r'.Has (x ++ y) ∧ out = y ++ rest := by
  obtain ⟨fuel, rfl⟩ := Nat.exists_eq_succ_of_ne_zero (Nat.ne_zero_of_lt hfuel)
  induction h generalizing fuel tot x r with
  | @done look hdone =>
    refine ⟨look, r, [], ?_, by rwa [List.append_nil], rfl⟩
    rw [regexLoop]
    rcases hdone with hnil | hnone
    · exact if_pos hnil
    · split
      · rfl
      · rw [hnone]
        rfl
  | @one look subexp m hnil hfound hm hsingle =>
    obtain ⟨r', hmatch, hhas'⟩ := regexMatch_writes hexec replace hfound hm hhas
    refine ⟨look.drop m.eo.toNat, r', _, ?_, hhas', by rw [List.append_assoc]⟩
    rw [regexLoop, if_neg hnil, hfound]
    dsimp only
    rw [hmatch, ok_bind]
    exact if_pos hsingle
  | @more look out n subexp m hnil hfound hm hsingle _ ih =>
    obtain ⟨r₁, hmatch, hhas₁⟩ := regexMatch_writes hexec replace hfound hm hhas
    obtain ⟨fuel, rfl⟩ := Nat.exists_eq_succ_of_ne_zero (Nat.ne_zero_of_lt (Nat.lt_of_succ_lt_succ hfuel))
    obtain ⟨rest, r', y, hloop, hhas', rfl⟩ := @ih (tot + 1) _ r₁ hhas₁ fuel (Nat.lt_of_succ_lt_succ hfuel)
    refine ⟨rest, r', _, ?_, by rwa [List.append_assoc] at hhas', by rw [List.append_assoc, List.append_assoc]⟩
    rw [regexLoop, if_neg hnil, hfound]
    dsimp only
    rw [hmatch, ok_bind]
    dsimp only
    rw [if_neg (by rw [hsingle]; exact Bool.false_ne_true), hloop, Nat.add_assoc, Nat.add_comm 1 n]

/-- `rim_regex` with a replacement has a result where each match is replaced by what the code writes for it. -/
theorem rimRegex_writes {exec : Regexec} (hexec : Matcher sub exec) {lookHere template out : Bytes} {single : Bool}
    {n fuel : Nat} (hfuel : n < fuel)
    (h : Replaces exec (fun look subexp => writeRefs sub (subText look subexp) false (cstr template)) single (cstr lookHere)
      n out) : rimRegex exec sub lookHere (some template) single fuel = .ok (n, some out) := by
  obtain ⟨rest, r, y, hloop, hhas, rfl⟩ := @Replaces.writes sub exec hexec _ _ _ single n h fuel 0 _ _ hfuel
    RegexRes.start_has
  rw [List.nil_append] at hhas
  obtain ⟨hlen, htext, hneeded, hroom⟩ := hhas.alloc rest.length
  have hcounted := hhas.counted
  have hmem : memcpy (r.alloc rest.length).block r.len (rest ++ [0]) = _ :=
    if_pos (by rw [List.length_append, List.length_singleton]; omega)
  have hfinish : r.finish rest = .ok (y ++ rest) := by
    unfold RegexRes.finish
    dsimp only
    rw [hlen, hmem, Option.bind_eq_bind, Option.bind_some, htext, hhas.len, ← List.length_append, ← List.append_assoc,
      List.append_assoc, List.take_left]
    rfl
  unfold rimRegex
  rw [Option.map_some, hloop, ok_bind, Nat.zero_add]
  dsimp only
  rw [hfinish]
  rfl

theorem Replaces.same {exec : Regexec} {expand : Bytes → List Regmatch → Bytes} {single : Bool} {look out out' : Bytes}
    {n n' : Nat} (h : Replaces exec expand single look n out) (h' : Replaces exec expand single look n' out') :
    n = n' ∧ out = out' := by
  induction h generalizing n' out' with
  | done hdone =>
    cases h' with
    | done => exact ⟨rfl, rfl⟩
    | one hne hfound => exact absurd hdone (by rw [hfound]; simp [hne])
    | more hne hfound => exact absurd hdone (by rw [hfound]; simp [hne])
  | one hne hfound hm hsingle =>
    cases h' with
    | done hdone => exact absurd hdone (by rw [hfound]; simp [hne])
    | one hne' hfound' hm' =>
      obtain rfl := Option.some.inj (hfound.symm.trans hfound')
      obtain rfl := Option.some.inj (hm.symm.trans hm')
      exact ⟨rfl, rfl⟩
    | more _ _ _ hsingle' => cases hsingle.symm.trans hsingle'
  | more hne hfound hm hsingle _ ih =>
    cases h' with
    | done hdone => exact absurd hdone (by rw [hfound]; simp [hne])
    | one _ _ _ hsingle' => cases hsingle'.symm.trans hsingle
    | more hne' hfound' hm' _ hrest =>
      obtain rfl := Option.some.inj (hfound.symm.trans hfound')
      obtain rfl := Option.some.inj (hm.symm.trans hm')
      obtain ⟨rfl, rfl⟩ := ih hrest
      exact ⟨rfl, rfl⟩

end

/-- With a replacement, whatever the matcher finds in a text: the result is the text with each match replaced by the
template with its references, for `sub` subexpressions. -/
def ReplacesExactly (sub : Nat) (template : Bytes) : Prop :=
  ∀ exec, Matcher sub exec → NonEmpty exec → ∀ lookHere single, ∃ n out,
    rimRegex exec sub lookHere (some template) single ((cstr lookHere).length + 1) = .ok (n, some out) ∧
      Replaces exec (fun look subexp => replaceRefs sub (subText look subexp) (cstr template)) single (cstr lookHere) n out

/-! ## The template that shows a mask -/

/-- In `x`, the whole is a match, and of its subexpressions only one. -/
def onlyExec (sub k : Nat) (t : Bytes) : Option (List Regmatch) :=
  if t = [120] then
    some ((List.range (sub + 1)).map fun i => if i = 0 ∨ i = k then ⟨0, 1⟩ else ⟨-1, -1⟩)
  else none

theorem onlyExec_matcher (sub k : Nat) : Matcher sub (onlyExec sub k) where
  subexp := by
    intro t subexp h
    unfold onlyExec at h
    split at h
    · next hx =>
      obtain rfl := hx
      obtain rfl := Option.some.inj h
      refine ⟨by rw [List.length_map, List.length_range], ?_⟩
      intro m hm
      obtain ⟨i, -, rfl⟩ := List.mem_map.mp hm
      split
      · exact .inr ⟨by decide, by decide, by decide⟩
      · exact .inl rfl
    · cases h
  whole := by
    intro t subexp m h hm
    unfold onlyExec at h
    split at h
    · next hx =>
      obtain rfl := hx
      obtain rfl := Option.some.inj h
      rw [List.getElem?_map, List.getElem?_range (Nat.succ_pos _), Option.map_some, if_pos (.inl rfl)] at hm
      obtain rfl := Option.some.inj hm
      decide
    · cases h

theorem onlyExec_nonEmpty (sub k : Nat) : NonEmpty (onlyExec sub k) := by
  intro t subexp m h hm
  unfold onlyExec at h
  split at h
  · obtain rfl := Option.some.inj h
    rw [List.getElem?_map, List.getElem?_range (Nat.succ_pos _), Option.map_some, if_pos (.inl rfl)] at hm
    obtain rfl := Option.some.inj hm
    decide
  · cases h

theorem onlyExec_text {sub k : Nat} (hk : k ≤ sub) :
    OnlySub sub k
      (subText [120] ((List.range (sub + 1)).map fun i => if i = 0 ∨ i = k then ⟨0, 1⟩ else ⟨-1, -1⟩)) := by
  constructor
  · unfold subText
    rw [List.getElem?_map, List.getElem?_range (by omega), Option.map_some, if_pos (.inr rfl)]
    rfl
  · intro i hi hle hne
    unfold subText
    rw [List.getElem?_map, List.getElem?_range (by omega), Option.map_some, if_neg (by omega)]
    rfl

/-! ## The replacement of the matches is what it says -/

theorem unmasked_of_replaces {sub : Nat} {template : Bytes} (h : ReplacesExactly sub template) :
    Unmasked sub false (cstr template) := by
  by_contra hmasked
  obtain ⟨k, hone, hle, hne⟩ := writeRefs_ne (cstr template).length (Nat.le_refl _) hmasked
  obtain ⟨n, out, hrun, hout⟩ := h (onlyExec sub k) (onlyExec_matcher sub k) (onlyExec_nonEmpty sub k) [120] true
  have hfirst : ((List.range (sub + 1)).map fun i => if i = 0 ∨ i = k then (⟨0, 1⟩ : Regmatch) else ⟨-1, -1⟩)[0]? =
      some ⟨0, 1⟩ := by
    rw [List.getElem?_map, List.getElem?_range (Nat.succ_pos _), Option.map_some, if_pos (.inl rfl)]
  have hfound : onlyExec sub k [120] = _ := if_pos rfl
  have hwritten := @rimRegex_writes sub (onlyExec sub k) (onlyExec_matcher sub k) [120] template _ true 1 2 (by decide)
    (.one (by decide) hfound hfirst rfl)
  rw [show cstr [120] = [120] from rfl] at hout hrun
  have hsame := hwritten.symm.trans hrun
  have hrefs := (hout.same (.one (by decide) hfound hfirst rfl)).2
  obtain ⟨-, hres⟩ := Prod.mk.inj (Except.ok.inj hsame)
  have heq := List.append_cancel_right (List.append_cancel_left ((Option.some.inj hres).trans hrefs))
  exact hne _ (onlyExec_text hle) heq

/-- The result of a replacement is exact, whatever is found, just where the template masks no reference. -/
theorem rimRegex_replaces_iff (sub : Nat) (template : Bytes) :
    ReplacesExactly sub template ↔ Unmasked sub false (cstr template) := by
  constructor
  · exact unmasked_of_replaces
  · intro hun exec hexec hne lookHere single
    have hsame : (fun look subexp => writeRefs sub (subText look subexp) false (cstr template)) =
        fun look subexp => replaceRefs sub (subText look subexp) (cstr template) := by
      ext look subexp
      rw [writeRefs_eq _ (Nat.le_refl _) hun]
    obtain ⟨n, out, hn, hout⟩ := exists_replaces hexec hne
      (fun look subexp => replaceRefs sub (subText look subexp) (cstr template)) single _ (Nat.le_refl (cstr lookHere).length)
    refine ⟨n, out, rimRegex_writes hexec (Nat.lt_succ_of_le hn) ?_, hout⟩
    rw [hsame]
    exact hout

/-- With ten subexpressions, of which the tenth is `x`, the template `\0\10` gives `\00`. -/
theorem rimRegex_masked :
    rimRegex (onlyExec 10 10) 10 [120] (some (ascii "\\0\\10")) true 2 = .ok (1, some (ascii "\\00")) ∧
      ¬ ReplacesExactly 10 (ascii "\\0\\10") := by
  constructor
  · decide +kernel
  · intro h
    have hun := unmasked_of_replaces h
    rw [show cstr (ascii "\\0\\10") = [92, 48, 92, 49, 48] from rfl, Unmasked, if_pos (by decide),
      show subNamed 10 48 [92, 49, 48] = none from rfl] at hun
    dsimp only at hun
    rw [Unmasked, if_pos (by decide), show subNamed 10 49 [48] = some (10, true) from rfl] at hun
    cases hun.1

end RimStone
