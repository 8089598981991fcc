import RimStone.Lib.CLine
import RimStone.Laws.Source.Keyword
import RimStone.Source.Scope

/-!
# The braces of a line

`check_level` looks for the first left and the first right brace in what is left of a line, each time from its beginning,
and takes the one that is in front. The search counts the quotes before a brace that have no backslash right before them,
and passes over a brace between two single quotes. In a line where that is what quotes mean (`Readable`), `check_level`
goes up and down with the braces of the line as C reads it (`checkLevel_eq`).
-/

namespace RimStone

open RimStone.Lib RimStone.Lib.CLine

/-! ## Lines that are read as C reads them -/

/-- From a place on, with `prev` before it, a double quote begins or ends a string just if there is no backslash right
before it, a brace outside of strings is in a character constant just if it is between two single quotes, and no comment
begins that does not go to the end of the line; in a constant there are no two slashes. -/
def AsRead (x : CMode) (prev : Option UInt8) : Bytes → Prop
  | [] => True
  | c :: s =>
    (c = 34 → (x.delimits = true ↔ prev ≠ some 92)) ∧
      (braceOf c ≠ none → x.inString = false → (x.inConstant = true ↔ prev = some 39 ∧ s.head? = some 39)) ∧
      (c = 47 → s.head? = some 42 → x ≠ .code) ∧ (c = 47 → s.head? = some 47 → x.inConstant = false) ∧
      AsRead (x.read c) (some c) s

def Readable (l : Bytes) : Prop := AsRead .code none (part .code l)

section Search

variable {x : CMode} {prev : Option UInt8} {c a : UInt8} {b : Brace} {s t : Bytes}

theorem mode_cases (x : CMode) : x = .code ∨ x.inString = true ∨ x.inConstant = true := by
  cases x <;> simp [CMode.inString, CMode.inConstant]

/-- The quotes that count are those that begin or end a string. -/
theorem inString_read (hq : c = 34 → (x.delimits = true ↔ prev ≠ some 92)) :
    (x.read c).inString = (x.inString ^^ quoteCounts (prev == some 92) c) := by
  unfold quoteCounts
  by_cases hc : c = 34
  · subst hc
    have hq := hq rfl
    by_cases hprev : prev = some 92
    · have hno : x.delimits = false := by simpa [hprev] using hq
      rw [hprev]
      cases x with
      | code => cases hno
      | string e =>
        cases e with
        | false => cases hno
        | true => rfl
      | constant e => cases e <;> rfl
    · have hyes : x.delimits = true := hq.mpr hprev
      rw [beq_eq_false_iff_ne.mpr hprev]
      cases x with
      | code => rfl
      | string e =>
        cases e with
        | false => rfl
        | true => cases hyes
      | constant e => cases hyes
  · rw [beq_eq_false_iff_ne.mpr hc, Bool.false_and, Bool.xor_false]
    cases x with
    | code =>
      unfold CMode.read
      dsimp only
      rw [if_neg hc]
      split_ifs <;> rfl
    | string e =>
      cases e with
      | true => rfl
      | false =>
        unfold CMode.read
        dsimp only
        rw [if_neg hc]
        split_ifs <;> rfl
    | constant e =>
      cases e with
      | true => rfl
      | false =>
        unfold CMode.read
        dsimp only
        split_ifs <;> rfl

theorem braceOf_inj (ha : braceOf a = some b) (hc : braceOf c = some b) : c = a := by
  unfold braceOf at ha hc
  split_ifs at ha hc with ha₁ hc₁ hc₂ ha₂ hc₁ hc₂
  · rw [ha₁, hc₁]
  · cases ha.trans hc.symm
  · cases ha.trans hc.symm
  · rw [ha₂, hc₂]

theorem brace_bounds (ha : braceOf a = some b) : a ≠ 34 ∧ a ≠ 39 ∧ a ≠ 92 := by
  unfold braceOf at ha
  split_ifs at ha with hl hr
  · subst hl
    decide
  · subst hr
    decide

theorem braceOf_quote : braceOf 39 = none := rfl

/-- A brace between two single quotes, and the quote behind it, are in a string, or end a constant. -/
theorem read_quoted (ha : braceOf a = some b) (hx : x ≠ .code) : ((x.read a).read 39).inConstant = false := by
  obtain ⟨h34, h39, h92⟩ := brace_bounds ha
  cases x with
  | code => exact absurd rfl hx
  | string e =>
    cases e with
    | true => rfl
    | false =>
      have hread : (CMode.string false).read a = .string false := by
        unfold CMode.read
        dsimp only
        rw [if_neg h92, if_neg h34]
      rw [hread]
      rfl
  | constant e =>
    cases e with
    | true => rfl
    | false =>
      have hread : (CMode.constant false).read a = .constant false := by
        unfold CMode.read
        dsimp only
        rw [if_neg h92, if_neg h39]
      rw [hread]
      rfl

/-- Where the search is: it knows whether it is in a string, and what is before. -/
structure SearchAt (t : Bytes) (f : Nat) (x : CMode) (prev : Option UInt8) : Prop where
  within : (goForth false (t.take f)).within = x.inString
  after : (goForth false (t.take f)).after = (prev == some 92)
  start : f = 0 → prev ≠ some 39
  prev : f ≠ 0 → t[f - 1]? = prev

theorem SearchAt.next {f : Nat} (h : SearchAt t f x prev) (hs : c :: s = t.drop f)
    (hq : c = 34 → (x.delimits = true ↔ prev ≠ some 92)) : SearchAt t (f + 1) (x.read c) (some c) ∧ s =
      t.drop (f + 1) := by
  have hf : f < t.length := by
    have hlen := congrArg List.length hs
    rw [List.length_cons, List.length_drop] at hlen
    omega
  have hcons := List.drop_eq_getElem_cons hf
  rw [← hs] at hcons
  obtain ⟨hc, hrest⟩ := List.cons.inj hcons
  have hnext : goForth false (t.take (f + 1)) = (goForth false (t.take f)).go false c := by
    rw [List.take_succ_eq_append_getElem hf, goForth_snoc, hc]
  refine ⟨⟨?_, ?_, fun h0 => absurd h0 (Nat.succ_ne_zero f), fun _ => ?_⟩, hrest⟩
  · rw [hnext, go_within, h.within, h.after, inString_read hq]
  · rw [hnext, go_after]
    rfl
  · rw [Nat.add_sub_cancel, List.getElem?_eq_getElem hf, hc]

/-- The loop of the search finds the first brace that counts. -/
theorem findLoop_brace (ha : braceOf a = some b) {beg f : Nat} (hplain : AsRead x prev s) (hs : s = t.drop f)
    (hat : SearchAt t f x prev) (hle : beg ≤ f) (hbeg : beg = f → prev = some 39 → x.inConstant = false) :
    findLoop t [a] false false beg f s = .ok ((firstBrace b x s).map (· + f)) := by
  induction hn : s.length using Nat.strong_induction_on generalizing x prev s beg f with
  | _ n ih =>
    cases s with
    | nil => rfl
    | cons c s =>
      obtain ⟨hq, hbrace, -, -, hrest⟩ := hplain
      obtain ⟨hat', hs'⟩ := hat.next hs hq
      have hgo : ∀ beg, beg ≤ f + 1 → (beg = f + 1 → some c = some 39 → (x.read c).inConstant = false) →
          findLoop t [a] false false beg (f + 1) s = .ok (((firstBrace b (x.read c) s).map (· + 1)).map (· + f)) := by
        intro beg hle hbeg
        rw [ih s.length (by rw [← hn]; exact Nat.lt_succ_self _) hrest hs' hat' hle hbeg rfl, Option.map_map]
        congr 2
        funext k
        show k + (f + 1) = k + 1 + f
        omega
      unfold findLoop firstBrace
      have hbegins : [a].isPrefixOf (c :: s) = (a == c) := by simp [List.isPrefixOf]
      rw [hbegins]
      by_cases hc : c = a
      · subst hc
        obtain ⟨h34, h39, h92⟩ := brace_bounds ha
        have hbrace := hbrace (by rw [ha]; exact Option.some_ne_none b)
        have hone : oneChar [c] = true := rfl
        simp only [beq_self_eq_true, Bool.not_true, Bool.false_eq_true, if_false, hone, Bool.true_and, ha, and_true,
          Bool.false_and]
        by_cases hquoted : f ≠ beg ∧ prev = some 39 ∧ s.head? = some 39
        · -- it is passed over
          obtain ⟨hne, hprev, hhead⟩ := hquoted
          have hget : t[f - 1]? = some 39 := (hat.prev (by omega)).trans hprev
          have hcode : x ≠ .code := by
            rintro rfl
            have hin : CMode.code.inConstant = true := (hbrace rfl).mpr ⟨hprev, hhead⟩
            cases hin
          obtain ⟨s, rfl⟩ : ∃ s', s = 39 :: s' := by
            cases s with
            | nil => cases hhead
            | cons d s => exact ⟨s, by rw [Option.some.inj hhead]⟩
          obtain ⟨hq', -, -, -, hrest'⟩ := hrest
          obtain ⟨hat'', hs''⟩ := hat'.next hs' hq'
          have hskip := ih s.length (by rw [← hn, List.length_cons, List.length_cons]; omega) hrest' hs'' hat''
            (Nat.le_refl (f + 2)) (fun _ _ => read_quoted ha hcode) rfl
          have hcond : (f != beg && t[f - 1]? == some 39 && (39 :: s).head? == some 39) = true := by
            simp [hne, hget]
          rw [hcond, if_pos rfl, if_neg hcode, firstBrace, if_neg (by rw [braceOf_quote]; simp)]
          dsimp only
          refine hskip.trans ?_
          rw [Option.map_map, Option.map_map]
          congr 2
          funext k
          show k + (f + 2) = k + 1 + 1 + f
          omega
        · have hcond : (f != beg && t[f - 1]? == some 39 && s.head? == some 39) = false := by
            rw [Bool.eq_false_iff]
            intro hall
            simp only [Bool.and_eq_true, bne_iff_ne, beq_iff_eq] at hall
            obtain ⟨⟨hne, hget⟩, hhead⟩ := hall
            exact hquoted ⟨hne, (hat.prev (by omega)).symm.trans hget, hhead⟩
          rw [hcond, if_neg Bool.false_ne_true]
          rw [hat.within, goForth_parens, beq_self_eq_true, Bool.and_true]
          cases hin : x.inString with
          | true =>
            have hcode : x ≠ .code := by
              rintro rfl
              cases hin
            rw [if_neg hcode, Bool.not_true, if_neg Bool.false_ne_true]
            exact hgo (f + 1) (Nat.le_refl _) fun _ h => absurd (Option.some.inj h) h39
          | false =>
            -- not between two single quotes, so in code
            have hnot : x.inConstant = false := by
              rw [Bool.eq_false_iff]
              intro hconst
              obtain ⟨hprev, hhead⟩ := (hbrace hin).mp hconst
              have hf : f = beg := by
                by_contra hne
                exact hquoted ⟨hne, hprev, hhead⟩
              rw [hbeg hf.symm hprev] at hconst
              cases hconst
            have hcode : x = .code := by
              rcases mode_cases x with h | h | h
              · exact h
              · rw [hin] at h
                cases h
              · rw [hnot] at h
                cases h
            rw [if_pos hcode, Bool.not_false, if_pos rfl, Option.map_some, Nat.zero_add]
      · have hne : (a == c) = false := beq_eq_false_iff_ne.mpr fun h => hc h.symm
        have hother : ¬ (x = .code ∧ braceOf c = some b) := fun h => hc (braceOf_inj ha h.2)
        rw [hne, if_neg hother]
        exact hgo beg (by omega) fun h => by omega

/-- A search for a brace finds the first one that counts. -/
theorem rimFindKeyword0_brace (ha : braceOf a = some b) (hplain : AsRead .code prev s) (h39 : prev ≠ some 39)
    (h92 : prev ≠ some 92) : rimFindKeyword0 s [a] false false = .ok (firstBrace b .code s) := by
  have hat : SearchAt s 0 .code prev := ⟨rfl, (beq_eq_false_iff_ne.mpr h92).symm, fun _ => h39, fun h => absurd rfl h⟩
  unfold rimFindKeyword0
  rw [if_neg (List.cons_ne_nil _ _),
    findLoop_brace ha hplain List.drop_zero.symm hat (Nat.le_refl 0) fun _ h => absurd h h39]
  simp

/-- A search for two slashes finds the comment. -/
theorem take_firstMark (hplain : AsRead x prev (part x s)) :
    s.take ((firstMark 47 47 (prev == some 92) x.inString s).getD s.length) = part x s := by
  induction s generalizing x prev with
  | nil => rfl
  | cons c s ih =>
    rw [part] at hplain ⊢
    rw [firstMark]
    by_cases hcomment : commentAt x c s = true
    · rw [if_pos hcomment]
      simp only [commentAt, Bool.and_eq_true, beq_iff_eq] at hcomment
      obtain ⟨⟨rfl, hc⟩, hhead⟩ := hcomment
      rw [if_pos ⟨hc, hhead, rfl⟩]
      rfl
    · rw [if_neg hcomment] at hplain ⊢
      obtain ⟨hq, -, -, hslash, hrest⟩ := hplain
      have hno : ¬ (c = 47 ∧ s.head? = some 47 ∧ x.inString = false) := by
        rintro ⟨rfl, hhead, hin⟩
        rcases mode_cases x with rfl | h | h
        · apply hcomment
          rw [commentAt, hhead]
          rfl
        · rw [hin] at h
          cases h
        · -- two slashes in a constant
          obtain ⟨s, rfl⟩ : ∃ s', s = 47 :: s' := by
            cases s with
            | nil => cases hhead
            | cons d s => exact ⟨s, by rw [Option.some.inj hhead]⟩
          have hread : x.read 47 ≠ .code := by
            cases x with
            | code => cases h
            | string e => cases h
            | constant e => cases e <;> (intro hcode; cases hcode)
          have hnext : commentAt (x.read 47) 47 s = false := by
            unfold commentAt
            rw [beq_eq_false_iff_ne.mpr hread, Bool.false_and, Bool.false_and]
          rw [part, hnext, if_neg Bool.false_ne_true] at hslash
          have hconst := hslash rfl rfl
          rw [h] at hconst
          cases hconst
      rw [if_neg hno, ← inString_read hq]
      have hrest' := ih hrest
      have hafter : (some c == some (92 : UInt8)) = (c == 92) := rfl
      rw [hafter] at hrest'
      cases hmark : firstMark 47 47 (c == 92) (x.read c).inString s with
      | none =>
        rw [hmark] at hrest'
        have hall : s.take s.length = part (x.read c) s := hrest'
        show (c :: s).take (c :: s).length = _
        rw [List.length_cons, List.take_succ_cons, hall]
      | some k =>
        rw [hmark] at hrest'
        have hall : s.take k = part (x.read c) s := hrest'
        show (c :: s).take (k + 1) = _
        rw [List.take_succ_cons, hall]

end Search

/-! ## The level -/

def ScopeState.brace (s : ScopeState) : Brace → Except ScopeError ScopeState
  | .left => .ok s.up
  | .right => s.down

section Level

variable {x : CMode} {prev : Option UInt8} {t : Bytes} {b : Brace} {s : ScopeState}

theorem AsRead.drop (h : AsRead x prev t) {i : Nat} (hi : i < t.length) :
    AsRead (readFrom x (t.take (i + 1))) t[i]? (t.drop (i + 1)) := by
  induction t generalizing x prev i with
  | nil => cases hi
  | cons c t ih =>
    obtain ⟨-, -, -, -, hrest⟩ := h
    cases i with
    | zero => exact hrest
    | succ i => exact ih hrest (Nat.lt_of_succ_lt_succ hi)

theorem braceOf_get {i : Nat} (h : firstBrace b x t = some i) : ∃ c, t[i]? = some c ∧ braceOf c = some b := by
  induction t generalizing x i with
  | nil => cases h
  | cons c t ih =>
    rw [firstBrace] at h
    split_ifs at h with hhere
    · obtain rfl := Option.some.inj h
      exact ⟨c, rfl, hhere.2⟩
    · obtain ⟨j, hj, rfl⟩ := Option.map_eq_some_iff.mp h
      exact ih hj

theorem checkLoop_none (hplain : AsRead .code prev t) (h39 : prev ≠ some 39) (h92 : prev ≠ some 92) (fuel : Nat)
    (hl : firstBrace .left .code t = none) (hr : firstBrace .right .code t = none) :
    ScopeState.checkLoop (fuel + 1) t s = .ok s := by
  have hleft : rimFindKeyword0 t [123] false false = .ok none :=
    (rimFindKeyword0_brace rfl hplain h39 h92).trans (congrArg _ hl)
  have hright : rimFindKeyword0 t [125] false false = .ok none :=
    (rimFindKeyword0_brace rfl hplain h39 h92).trans (congrArg _ hr)
  rw [ScopeState.checkLoop, hleft, hright]
  rfl

/-- A round of the loop takes the brace that is in front of the other kind. -/
theorem checkLoop_brace (hplain : AsRead .code prev t) (h39 : prev ≠ some 39) (h92 : prev ≠ some 92) (fuel : Nat)
    {cb : Nat}
    (hfirst : ScopeState.firstOf (firstBrace .left .code t) (firstBrace .right .code t) = some (cb, b == .left)) :
    ScopeState.checkLoop (fuel + 1) t s = s.brace b >>= fun s =>
      if t.drop (cb + 1) = [] then .ok s else ScopeState.checkLoop fuel (t.drop (cb + 1)) s := by
  have hleft : rimFindKeyword0 t [123] false false = .ok (firstBrace .left .code t) :=
    rimFindKeyword0_brace rfl hplain h39 h92
  have hright : rimFindKeyword0 t [125] false false = .ok (firstBrace .right .code t) :=
    rimFindKeyword0_brace rfl hplain h39 h92
  rw [ScopeState.checkLoop, hleft, hright]
  simp only [Except.mapError, bind, Except.bind, hfirst]
  cases b <;> rfl

/-- Which brace is in front, and what is behind it. -/
theorem firstOf_braces {cb : Nat} {left : Bool}
    (hfirst : ScopeState.firstOf (firstBrace .left x t) (firstBrace .right x t) = some (cb, left)) :
    ∃ b, left = (b == .left) ∧ firstBrace b x t = some cb ∧
      braces x t = b :: braces .code (t.drop (cb + 1)) ∧ readFrom x (t.take (cb + 1)) = .code := by
  have hlr : Brace.left ≠ Brace.right := by decide
  cases hl : firstBrace .left x t with
  | none =>
    cases hr : firstBrace .right x t with
    | none =>
      rw [hl, hr] at hfirst
      cases hfirst
    | some r =>
      rw [hl, hr] at hfirst
      obtain ⟨hcb, hleft⟩ := Prod.mk.inj (Option.some.inj hfirst)
      subst hcb hleft
      have hnone : ∀ j, firstBrace .left x t = some j → r < j := by
        intro j hj
        rw [hl] at hj
        cases hj
      exact ⟨.right, rfl, hr, braces_cons hlr.symm hr hnone⟩
  | some l =>
    cases hr : firstBrace .right x t with
    | none =>
      rw [hl, hr] at hfirst
      obtain ⟨hcb, hleft⟩ := Prod.mk.inj (Option.some.inj hfirst)
      subst hcb hleft
      have hnone : ∀ j, firstBrace .right x t = some j → l < j := by
        intro j hj
        rw [hr] at hj
        cases hj
      exact ⟨.left, rfl, hl, braces_cons hlr hl hnone⟩
    | some r =>
      rw [hl, hr, ScopeState.firstOf] at hfirst
      split_ifs at hfirst with hlt
      · obtain ⟨hcb, hleft⟩ := Prod.mk.inj (Option.some.inj hfirst)
        subst hcb hleft
        have hbehind : ∀ j, firstBrace .right x t = some j → l < j := by
          intro j hj
          rw [hr] at hj
          exact Option.some.inj hj ▸ hlt
        exact ⟨.left, rfl, hl, braces_cons hlr hl hbehind⟩
      · obtain ⟨hcb, hleft⟩ := Prod.mk.inj (Option.some.inj hfirst)
        subst hcb hleft
        -- they are not in one place
        have hne : l ≠ r := by
          rintro rfl
          obtain ⟨c, hc, hcl⟩ := braceOf_get hl
          obtain ⟨c', hc', hcr⟩ := braceOf_get hr
          obtain rfl := Option.some.inj (hc.symm.trans hc')
          rw [hcl] at hcr
          cases hcr
        have hbehind : ∀ j, firstBrace .left x t = some j → r < j := by
          intro j hj
          rw [hl] at hj
          obtain rfl := Option.some.inj hj
          omega
        exact ⟨.right, rfl, hr, braces_cons hlr.symm hr hbehind⟩

/-- The loop goes up and down with the braces. -/
theorem checkLoop_eq {fuel : Nat} (hplain : AsRead .code prev t) (h39 : prev ≠ some 39) (h92 : prev ≠ some 92)
    (hfuel : t.length < fuel) : ScopeState.checkLoop fuel t s = (braces .code t).foldlM ScopeState.brace s := by
  induction fuel generalizing t prev s with
  | zero => cases hfuel
  | succ fuel ih =>
    cases hfirst : ScopeState.firstOf (firstBrace .left .code t) (firstBrace .right .code t) with
    | none =>
      have hnone : firstBrace .left .code t = none ∧ firstBrace .right .code t = none := by
        cases hl : firstBrace .left .code t with
        | none =>
          cases hr : firstBrace .right .code t with
          | none => exact ⟨rfl, rfl⟩
          | some r =>
            rw [hl, hr] at hfirst
            cases hfirst
        | some l =>
          cases hr : firstBrace .right .code t with
          | none =>
            rw [hl, hr] at hfirst
            cases hfirst
          | some r =>
            rw [hl, hr, ScopeState.firstOf] at hfirst
            split_ifs at hfirst
      rw [checkLoop_none hplain h39 h92 fuel hnone.1 hnone.2, braces_nil hnone.1 hnone.2]
      rfl
    | some found =>
      obtain ⟨cb, left⟩ := found
      obtain ⟨b, rfl, hb, hbraces, hcode⟩ := firstOf_braces hfirst
      have hlt := firstBrace_lt hb
      have hrest := hplain.drop hlt
      rw [hcode] at hrest
      obtain ⟨c, hc, hbrace⟩ := braceOf_get hb
      obtain ⟨-, hc39, hc92⟩ := brace_bounds hbrace
      rw [hc] at hrest
      rw [checkLoop_brace hplain h39 h92 fuel hfirst, hbraces, List.foldlM_cons]
      congr 1
      funext s'
      split_ifs with hnil
      · rw [hnil]
        rfl
      · refine ih hrest (fun h => hc39 (Option.some.inj h)) (fun h => hc92 (Option.some.inj h)) ?_
        rw [List.length_drop]
        omega

/-- `check_level` goes up and down with the braces of a line. -/
theorem checkLevel_eq (h : Readable t) : ScopeState.checkLevel t s = (lineBraces t).foldlM ScopeState.brace s := by
  have hmark : rimFindKeyword0 t [47, 47] false false = .ok (firstMark 47 47 false false t) := rimFindKeyword0_mark
  have htake : t.take ((firstMark 47 47 false false t).getD t.length) = part .code t := take_firstMark h
  unfold ScopeState.checkLevel
  rw [hmark]
  show ScopeState.checkLoop (_ + 1) (t.take ((firstMark 47 47 false false t).getD t.length)) s = _
  rw [htake]
  exact checkLoop_eq h (by simp) (by simp) (Nat.lt_succ_self _)

end Level

end RimStone
