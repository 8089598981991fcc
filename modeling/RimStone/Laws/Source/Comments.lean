import Mathlib.Tactic.SplitIfs
import RimStone.Laws.Source.Keyword
import RimStone.Source.Comments

/-!
# Comments are removed

The loop over the comments of a line finds the marks that the line has, where four things
hold: the mark that opens a comment is not read as part of another one, the quotes before the
mark that closes a comment are even in number, no quote around a string is after a backslash,
and a mark that closes nothing has a `//` after it. A comment in a line is then one turn of the
loop; what is after a `//` has no part in the outcome, however the loop goes on there.
-/

namespace RimStone

variable {a b c : UInt8} {after odd : Bool} {s t u pre : Bytes} {mode : Mode}

/-! ## Text without a mark -/

/-- No mark begins in `s`, before `t`. -/
def Free (a b : UInt8) (after odd : Bool) : Bytes → Bytes → Prop
  | [], _ => True
  | c :: s, t => ¬ (c = a ∧ (s ++ t).head? = some b ∧ odd = false) ∧
    Free a b (c == 92) (odd ^^ quoteCounts after c) s t

def afterText (after : Bool) (s : Bytes) : Bool := s.foldl (fun _ c => c == 92) after

def oddAfter (after odd : Bool) : Bytes → Bool
  | [] => odd
  | c :: s => oddAfter (c == 92) (odd ^^ quoteCounts after c) s

theorem firstMark_append (h : Free a b after odd s t) :
    firstMark a b after odd (s ++ t) = (firstMark a b (afterText after s) (oddAfter after odd s) t).map (· + s.length) := by
  induction s generalizing after odd with
  | nil => simp [afterText, oddAfter]
  | cons c s ih =>
    obtain ⟨hnot, hfree⟩ := h
    rw [List.cons_append, firstMark, if_neg hnot, ih hfree, Option.map_map]
    rfl

theorem firstMark_free (h : Free a b after odd s []) : firstMark a b after odd s = none := by
  have happ := firstMark_append h
  rw [List.append_nil] at happ
  rw [happ]
  rfl

/-- What follows matters only by its first character. -/
theorem Free.congr (h : Free a b after odd s t) (ht : u.head? = some b → t.head? = some b) : Free a b after odd s u := by
  induction s generalizing after odd with
  | nil => trivial
  | cons c s ih =>
    obtain ⟨hnot, hfree⟩ := h
    refine ⟨fun ⟨hc, hhead, hodd⟩ => hnot ⟨hc, ?_, hodd⟩, ih hfree⟩
    cases s with
    | nil => exact ht hhead
    | cons d s => exact hhead

/-- Text outside of strings may be read with no regard to what is before it. -/
theorem Free.append (hs : Free a b after odd s (t ++ u)) (ht : Free a b (afterText after s) (oddAfter after odd s) t u) :
    Free a b after odd (s ++ t) u := by
  induction s generalizing after odd with
  | nil => exact ht
  | cons c s ih =>
    obtain ⟨hnot, hfree⟩ := hs
    refine ⟨?_, ih hfree ht⟩
    show ¬ (c = a ∧ (s ++ t ++ u).head? = some b ∧ odd = false)
    rw [List.append_assoc]
    exact hnot

theorem oddAfter_append : oddAfter after odd (s ++ t) = oddAfter (afterText after s) (oddAfter after odd s) t := by
  induction s generalizing after odd with
  | nil => rfl
  | cons c s ih => exact ih

theorem free_blanks {n : Nat} (ha : a ≠ 32) : Free a b after odd (List.replicate n 32) t := by
  induction n generalizing after odd with
  | zero => trivial
  | succ n ih => exact ⟨fun ⟨hc, _⟩ => ha hc.symm, ih⟩

theorem oddAfter_blanks {n : Nat} : oddAfter after odd (List.replicate n 32) = odd := by
  induction n generalizing after odd with
  | zero => rfl
  | succ n ih =>
    rw [List.replicate_succ, oddAfter, ih]
    simp [quoteCounts]

/-! ## Lines as the search reads them -/

/-- The marks of a line, from a character in a mode on, are the ones that the searches find. In
a comment, `odd` says how many quotes there were. -/
def Plain (after odd : Bool) : Mode → Bytes → Prop
  | _, [] => True
  | .code, c :: s =>
    if c = 47 ∧ s.head? = some 47 then s.tail.head? ≠ some 42
    else if c = 47 ∧ s.head? = some 42 then s.tail.head? ≠ some 47 ∧ Plain false false .opening s
    else if c = 42 ∧ s.head? = some 47 then firstMark 47 47 false false (c :: s) ≠ none
    else (c = 34 → after = false) ∧ Plain (c == 92) false (if c = 34 then .string else .code) s
  | .string, c :: s =>
    (c = 34 → after = false) ∧
      Plain (c == 92) false (if c = 34 then .code else if c = 92 then .escaped else .string) s
  | .escaped, c :: s => Plain (c == 92) false .string s
  | .opening, _ :: s => Plain false false (.comment true) s
  | .comment here, c :: s =>
    if c = 42 ∧ s.head? = some 47 then odd = false ∧ Plain false false .closing s
    else Plain (c == 92) (odd ^^ quoteCounts after c) (.comment here) s
  | .closing, _ :: s => Plain false false .code s

instance decidablePlain : ∀ after odd mode s, Decidable (Plain after odd mode s)
  | _, _, .code, [] | _, _, .string, [] | _, _, .escaped, [] | _, _, .opening, [] | _, _, .comment _, []
  | _, _, .closing, [] => isTrue trivial
  | after, _, .code, c :: s =>
    have := decidablePlain false false .opening s
    have := decidablePlain (c == 92) false (if c = 34 then .string else .code) s
    inferInstanceAs (Decidable (if c = 47 ∧ s.head? = some 47 then s.tail.head? ≠ some 42
      else if c = 47 ∧ s.head? = some 42 then s.tail.head? ≠ some 47 ∧ Plain false false .opening s
      else if c = 42 ∧ s.head? = some 47 then firstMark 47 47 false false (c :: s) ≠ none
      else (c = 34 → after = false) ∧ Plain (c == 92) false (if c = 34 then .string else .code) s))
  | after, _, .string, c :: s =>
    have := decidablePlain (c == 92) false (if c = 34 then .code else if c = 92 then .escaped else .string) s
    inferInstanceAs (Decidable ((c = 34 → after = false) ∧ _))
  | _, _, .escaped, c :: s => decidablePlain (c == 92) false .string s
  | _, _, .opening, _ :: s => decidablePlain false false (.comment true) s
  | after, odd, .comment here, c :: s =>
    have := decidablePlain false false .closing s
    have := decidablePlain (c == 92) (odd ^^ quoteCounts after c) (.comment here) s
    inferInstanceAs (Decidable (if c = 42 ∧ s.head? = some 47 then odd = false ∧ Plain false false .closing s
      else Plain (c == 92) (odd ^^ quoteCounts after c) (.comment here) s))
  | _, _, .closing, _ :: s => decidablePlain false false .code s

/-- The two characters are one of the three marks. -/
def IsMark (a b : UInt8) : Prop := a = 47 ∧ b = 47 ∨ a = 47 ∧ b = 42 ∨ a = 42 ∧ b = 47

/-- A rest of a line that is empty, or begins with a mark. -/
def AtMark (t : Bytes) : Prop := t = [] ∨ ∃ a b r, IsMark a b ∧ t = a :: b :: r

/-- Text up to a mark: `s` is `u` and `t`, where `u` has no mark, and `t` begins with one. -/
structure Segment (after odd : Bool) (mode : Mode) (s u t : Bytes) : Prop where
  split : s = u ++ t
  plain : Plain (afterText after u) false .code t
  outside : outside mode s = ⟨u ++ (outside .code t).text, (RimStone.outside .code t).last⟩
  even : oddAfter after odd u = false
  free : ∀ a b, IsMark a b → Free a b after odd u t
  atMark : AtMark t

theorem Segment.cons {mode' : Mode} {u t : Bytes} (h : Segment (c == 92) (odd ^^ quoteCounts after c) mode' s u t)
    (hnot : ∀ a b, IsMark a b → ¬ (c = a ∧ s.head? = some b ∧ odd = false))
    (hstep : RimStone.outside mode (c :: s) = (RimStone.outside mode' s).push c) : Segment after odd mode (c :: s) (c :: u) t where
  split := by rw [h.split]; rfl
  plain := h.plain
  outside := by rw [hstep, h.outside]; rfl
  even := h.even
  free := fun a b hmark => ⟨h.split ▸ hnot a b hmark, h.free a b hmark⟩
  atMark := h.atMark

/-- What the modes of a line outside of comments know of the text before. -/
def ModeOk (after odd : Bool) : Mode → Prop
  | .code => odd = false
  | .string => odd = true
  | .escaped => odd = true ∧ after = true
  | _ => False

/-- A character of the code that does not begin a mark. -/
theorem plain_code (hmark : ¬ ∃ b, IsMark c b ∧ s.head? = some b) (h : Plain after false .code (c :: s)) :
    (c = 34 → after = false) ∧ Plain (c == 92) false (if c = 34 then .string else .code) s ∧
      outside .code (c :: s) = (outside (if c = 34 then .string else .code) s).push c := by
  have h₁ : ¬ (c = 47 ∧ s.head? = some 47) := fun ⟨hc, hs⟩ => hmark ⟨47, .inl ⟨hc, rfl⟩, hs⟩
  have h₂ : ¬ (c = 47 ∧ s.head? = some 42) := fun ⟨hc, hs⟩ => hmark ⟨42, .inr (.inl ⟨hc, rfl⟩), hs⟩
  have h₃ : ¬ (c = 42 ∧ s.head? = some 47) := fun ⟨hc, hs⟩ => hmark ⟨47, .inr (.inr ⟨hc, rfl⟩), hs⟩
  rw [Plain, if_neg h₁, if_neg h₂, if_neg h₃] at h
  rw [outside, if_neg h₁, if_neg h₂, if_neg h₃]
  exact ⟨h.1, h.2, rfl⟩

/-- What a character of a string or outside of it makes of the mode is what it makes of the
count of the quotes. -/
theorem modeOk_code (hquote : c = 34 → after = false) :
    ModeOk (c == 92) (false ^^ quoteCounts after c) (if c = 34 then .string else .code) := by
  by_cases hc : c = 34
  · rw [if_pos hc, hquote hc, hc]
    exact rfl
  · rw [if_neg hc]
    simp [ModeOk, quoteCounts, hc]

theorem modeOk_string (hquote : c = 34 → after = false) :
    ModeOk (c == 92) (true ^^ quoteCounts after c) (if c = 34 then .code else if c = 92 then .escaped else .string) := by
  by_cases hc : c = 34
  · rw [if_pos hc, hquote hc, hc]
    exact rfl
  · rw [if_neg hc]
    by_cases hesc : c = 92
    · rw [if_pos hesc, hesc]
      exact ⟨rfl, rfl⟩
    · rw [if_neg hesc]
      simp [ModeOk, quoteCounts, hc]

/-- Text of the code goes up to a mark, or to the end of the line. -/
theorem exists_segment (h : Plain after false mode s) (hmode : ModeOk after odd mode)
    (hlast : (RimStone.outside mode s).last ≠ .string) : ∃ u t, Segment after odd mode s u t := by
  induction s generalizing after odd mode with
  | nil =>
    cases mode with
    | code => exact ⟨[], [], rfl, trivial, rfl, hmode, fun _ _ _ => trivial, .inl rfl⟩
    | string | escaped => exact absurd rfl hlast
    | opening | comment | closing => exact hmode.elim
  | cons c s ih =>
    cases mode with
    | opening | comment | closing => exact hmode.elim
    | code =>
      obtain rfl : odd = false := hmode
      by_cases hmark : ∃ b, IsMark c b ∧ s.head? = some b
      · obtain ⟨b, hmark, hhead⟩ := hmark
        obtain ⟨r, rfl⟩ := List.head?_eq_some_iff.mp hhead
        exact ⟨[], _, rfl, h, rfl, rfl, fun _ _ _ => trivial, .inr ⟨c, b, r, hmark, rfl⟩⟩
      · obtain ⟨hquote, hplain, hstep⟩ := plain_code hmark h
        rw [hstep] at hlast
        obtain ⟨u, t, hseg⟩ := ih hplain (modeOk_code hquote) hlast
        exact ⟨_, _, hseg.cons (fun a b hab ⟨hc, hb, _⟩ => hmark ⟨b, hc ▸ hab, hb⟩) hstep⟩
    | string =>
      obtain rfl : odd = true := hmode
      obtain ⟨hquote, hplain⟩ := h
      obtain ⟨u, t, hseg⟩ := ih hplain (modeOk_string hquote) hlast
      exact ⟨_, _, hseg.cons (fun _ _ _ ⟨_, _, hodd⟩ => Bool.noConfusion hodd) rfl⟩
    | escaped =>
      obtain ⟨rfl, rfl⟩ := hmode
      have hmode' : ModeOk (c == 92) (true ^^ quoteCounts true c) .string := by simp [ModeOk, quoteCounts]
      obtain ⟨u, t, hseg⟩ := ih h hmode' hlast
      exact ⟨_, _, hseg.cons (fun _ _ _ ⟨_, _, hodd⟩ => Bool.noConfusion hodd) rfl⟩

/-- A comment goes to the mark that closes it, and the search finds that one; or there is none. -/
theorem exists_close {here : Bool} (h : Plain after odd (.comment here) s) :
    (firstMark 42 47 after odd s = none ∧ outside (.comment here) s = ⟨List.replicate s.length 32, .comment here⟩) ∨
      ∃ u t, s = u ++ 42 :: 47 :: t ∧ firstMark 42 47 after odd s = some u.length ∧ Plain false false .code t ∧
        outside (.comment here) s = ⟨List.replicate (u.length + 2) 32 ++ (outside .code t).text, (outside .code t).last⟩ := by
  induction s generalizing after odd with
  | nil => exact .inl ⟨rfl, rfl⟩
  | cons c s ih =>
    by_cases hclose : c = 42 ∧ s.head? = some 47
    · rw [Plain, if_pos hclose] at h
      obtain ⟨rfl, hplain⟩ := h
      obtain ⟨rfl, hhead⟩ := hclose
      obtain ⟨t, rfl⟩ := List.head?_eq_some_iff.mp hhead
      right
      refine ⟨[], t, rfl, ?_, hplain, ?_⟩
      · rw [firstMark, if_pos ⟨rfl, hhead, rfl⟩]
        rfl
      · rw [outside, if_pos ⟨rfl, hhead⟩]
        rfl
    · rw [Plain, if_neg hclose] at h
      have hnot : ¬ (c = 42 ∧ s.head? = some 47 ∧ odd = false) := fun ⟨hc, hs, _⟩ => hclose ⟨hc, hs⟩
      rw [outside, if_neg hclose, firstMark, if_neg hnot]
      obtain ⟨hnone, hout⟩ | ⟨u, t, rfl, hsome, hplain, hout⟩ := ih h
      · left
        rw [hnone, hout]
        exact ⟨rfl, rfl⟩
      · right
        refine ⟨c :: u, t, rfl, ?_, hplain, ?_⟩
        · rw [hsome]
          rfl
        · rw [hout]
          rfl

/-! ## The loop -/

/-- The searches of the loop go past a text that is done with. -/
def Passed (pre : Bytes) : Prop :=
  ∀ x, firstMark 47 47 false false (pre ++ x) = (firstMark 47 47 false false x).map (· + pre.length)

theorem passed_nil : Passed [] := by
  intro x
  simp

/-- Text and a comment after it are done with. -/
theorem Passed.append {n : Nat} (h : Passed pre) (hfree : Free 47 47 false false u (List.replicate (n + 1) 32))
    (heven : oddAfter false false u = false) : Passed (pre ++ u ++ List.replicate (n + 1) 32) := by
  intro x
  have hblanks : Free 47 47 (afterText false u) false (List.replicate (n + 1) 32) x := free_blanks (by decide)
  have hfree' : Free 47 47 false false (u ++ List.replicate (n + 1) 32) x := by
    refine Free.append (hfree.congr ?_) ?_
    · exact id
    · rw [heven]
      exact hblanks
  have hafter : afterText false (u ++ List.replicate (n + 1) 32) = false := by
    rw [List.replicate_succ', ← List.append_assoc, afterText, List.foldl_append]
    rfl
  rw [List.append_assoc, List.append_assoc, h, ← List.append_assoc u, firstMark_append hfree', hafter, oddAfter_append,
    heven, oddAfter_blanks, Option.map_map]
  congr 1
  funext k
  simp only [Function.comp, List.length_append, List.length_replicate]
  omega

/-- The step of the loop, outside of a comment. -/
theorem commentLoop_succ {fuel : Nat} {line : Bytes} {lcheck : Nat} :
    commentLoop (fuel + 1) line lcheck false =
      match (firstMark 47 42 false false (line.drop lcheck)).map (· + lcheck),
        (firstMark 42 47 false false (line.drop lcheck)).map (· + lcheck) with
      | none, none => .ok { line, ccommOpen := false }
      | some l, none => .ok { line := line.take l, ccommOpen := true, ccommPos := some l }
      | some l, some r =>
        if l < r then commentLoop fuel (blankOut line l (r + 2)) (r + 2) false
        else .ok { line, ccommOpen := false, closing := some r }
      | none, some r => .ok { line, ccommOpen := false, closing := some r } := by
  have hopen : ascii "/*" = [47, 42] := by decide
  have hclose : ascii "*/" = [42, 47] := by decide
  rw [commentLoop, hopen, hclose, rimFindKeyword0_mark, rimFindKeyword0_mark]
  rfl

theorem firstMark_le {k : Nat} (h : firstMark a b after odd s = some k) : k + 2 ≤ s.length := by
  induction s generalizing after odd k with
  | nil => cases h
  | cons c s ih =>
    rw [firstMark] at h
    by_cases hmark : c = a ∧ s.head? = some b ∧ odd = false
    · rw [if_pos hmark] at h
      obtain rfl := Option.some.inj h
      obtain ⟨r, rfl⟩ := List.head?_eq_some_iff.mp hmark.2.1
      simp
    · rw [if_neg hmark] at h
      obtain ⟨j, hj, rfl⟩ := Option.map_eq_some_iff.mp h
      have hle := ih hj
      rw [List.length_cons]
      omega

/-- What the loop leaves of a line in which it found a `//`, where `q` goes up to there: that
much as it was. -/
structure Past (q : Bytes) (e : CommentLoopEnd) : Prop where
  line : q <+: e.line
  skipLine : e.skipLine = false
  closing : ∀ r, e.closing = some r → q.length ≤ r
  ccommPos : ∀ l, e.ccommPos = some l → q.length ≤ l
  ccommOpen : e.ccommOpen = true → e.ccommPos ≠ none

/-- After a `//`, the loop ends, and nothing that it finds is before it. -/
theorem commentLoop_past {fuel lcheck : Nat} {q line : Bytes} (hq : q <+: line) (hfuel : line.length < fuel + lcheck)
    (hcheck : lcheck ≤ line.length)
    (hopen : ∀ k, firstMark 47 42 false false (line.drop lcheck) = some k → q.length ≤ k + lcheck)
    (hclose : ∀ k, firstMark 42 47 false false (line.drop lcheck) = some k → q.length ≤ k + lcheck) :
    ∃ e, commentLoop fuel line lcheck false = .ok e ∧ Past q e := by
  induction fuel generalizing line lcheck with
  | zero => omega
  | succ fuel ih =>
    rw [commentLoop_succ]
    cases hl : firstMark 47 42 false false (line.drop lcheck) with
    | none =>
      cases hr : firstMark 42 47 false false (line.drop lcheck) with
      | none => exact ⟨_, rfl, hq, rfl, nofun, nofun, nofun⟩
      | some r =>
        refine ⟨_, rfl, hq, rfl, fun r' hr' => ?_, nofun, nofun⟩
        obtain rfl := Option.some.inj hr'
        exact hclose r hr
    | some l =>
      have hle := hopen l hl
      cases hr : firstMark 42 47 false false (line.drop lcheck) with
      | none =>
        refine ⟨_, rfl, ?_, rfl, nofun, fun l' hl' => ?_, fun _ => Option.some_ne_none _⟩
        · exact List.prefix_take_iff.mpr ⟨hq, hle⟩
        · obtain rfl := Option.some.inj hl'
          exact hle
      | some r =>
        have hrle := hclose r hr
        have hlen := firstMark_le hr
        rw [List.length_drop] at hlen
        show ∃ e, (if l + lcheck < r + lcheck then _ else _) = _ ∧ _
        by_cases hlt : l + lcheck < r + lcheck
        · rw [if_pos hlt]
          have hq' : q <+: blankOut line (l + lcheck) (r + lcheck + 2) := by
            unfold blankOut
            rw [List.append_assoc]
            exact (List.prefix_take_iff.mpr ⟨hq, hle⟩).trans (List.prefix_append _ _)
          have hlen' : (blankOut line (l + lcheck) (r + lcheck + 2)).length = line.length := by
            simp only [blankOut, List.length_append, List.length_take, List.length_replicate, List.length_drop]
            omega
          have hnext : ∃ e, commentLoop fuel (blankOut line (l + lcheck) (r + lcheck + 2)) (r + lcheck + 2) false = .ok e ∧
              Past q e := by
            refine ih hq' ?_ ?_ (fun k _ => ?_) (fun k _ => ?_)
            · omega
            · omega
            · omega
            · omega
          exact hnext
        · rw [if_neg hlt]
          refine ⟨_, rfl, hq, rfl, fun r' hr' => ?_, nofun, nofun⟩
          obtain rfl := Option.some.inj hr'
          exact hrle

/-! ## A line -/

theorem dropWhile_blanks_append {n : Nat} : (List.replicate n 32 ++ s).dropWhile isspace = s.dropWhile isspace := by
  induction n with
  | zero => rfl
  | succ n ih => exact ih

theorem trimmed_blanks_append {n : Nat} : trimmed (List.replicate n 32 ++ s) = trimmed s := by
  unfold trimmed
  rw [dropWhile_blanks_append]

theorem trimmed_append_blanks {n : Nat} : trimmed (s ++ List.replicate n 32) = trimmed s := by
  unfold trimmed
  rw [List.dropWhile_append]
  cases hs : s.dropWhile isspace with
  | nil =>
    have hblanks := dropWhile_blanks_append (s := []) (n := n)
    rw [List.append_nil] at hblanks
    rw [if_pos List.isEmpty_nil, hblanks]
    rfl
  | cons c r => rw [if_neg (by simp), List.reverse_append, List.reverse_replicate, dropWhile_blanks_append]

/-- What a line is to come to: the text outside of its comments, up to blanks around it. -/
def LineOk (lnum since : Nat) (o : Outside) (res : Except SourceError (Option Bytes × OpenComment)) : Prop :=
  match o.last with
  | .stray => res = .error .commentNotOpened
  | .code | .string => ∃ text n, trimmed text = trimmed o.text ∧ res = .ok (some text, ⟨false, n⟩)
  | .comment here => ∃ text : Option Bytes, trimmed (text.getD []) = trimmed o.text ∧
      res = .ok (text, ⟨true, if here then lnum else since⟩)

variable {lnum since : Nat} {st : OpenComment} {e : CommentLoopEnd}

theorem lineComment_none (h : firstMark 47 47 false false e.line = none) :
    lineComment lnum st e =
      .ok (if e.skipLine then none else some e.line, ⟨e.ccommOpen, if e.ccommPos.isSome then lnum else st.ccommLine⟩) := by
  have hmark : ascii "//" = [47, 47] := by decide
  rw [lineComment, hmark, rimFindKeyword0_mark, h]
  rfl

theorem lineComment_some {len : Nat} (h : firstMark 47 47 false false e.line = some len) :
    lineComment lnum st e =
      if e.closing.any (· < len) then .error .commentNotOpened
      else .ok (if e.skipLine then none else some (e.line.take len),
        ⟨if e.ccommPos.any (len < ·) then false else e.ccommOpen, if e.ccommPos.isSome then lnum else st.ccommLine⟩) := by
  have hmark : ascii "//" = [47, 47] := by decide
  rw [lineComment, hmark, rimFindKeyword0_mark, h]
  rfl

/-- A backslash before matters only to a quote. -/
theorem firstMark_after (hc : c ≠ 34) : firstMark a b after odd (c :: s) = firstMark a b false odd (c :: s) := by
  have hcount : ∀ after, quoteCounts after c = false := by simp [quoteCounts, hc]
  rw [firstMark, firstMark, hcount, hcount]

/-- Neither of two characters begins a mark. -/
theorem firstMark_cons_cons {d : UInt8} (hc : ¬ (c = a ∧ d = b)) (hd : ¬ (d = a ∧ s.head? = some b)) :
    firstMark a b after odd (c :: d :: s) =
      (firstMark a b (d == 92) (odd ^^ quoteCounts after c ^^ quoteCounts (c == 92) d) s).map (· + 2) := by
  rw [firstMark, if_neg fun h => hc ⟨h.1, Option.some.inj h.2.1⟩, firstMark, if_neg fun h => hd ⟨h.1, h.2.1⟩, Option.map_map]
  rfl

/-- The text up to a `//`. -/
theorem Past.lineComment {len : Nat} {q : Bytes} (h : Past q e) (hlen : len + 2 ≤ q.length)
    (hmark : firstMark 47 47 false false e.line = some len) :
    ∃ n, RimStone.lineComment lnum st e = .ok (some (q.take len), ⟨false, n⟩) := by
  have hclosing : e.closing.any (· < len) = false := by
    cases hc : e.closing with
    | none => rfl
    | some r =>
      have hle := h.closing r hc
      exact decide_eq_false (by omega)
  have hopen : (if e.ccommPos.any (len < ·) then false else e.ccommOpen) = false := by
    cases hp : e.ccommPos with
    | none =>
      cases ho : e.ccommOpen with
      | false => rfl
      | true => exact absurd hp (h.ccommOpen ho)
    | some l =>
      have hle := h.ccommPos l hp
      exact if_pos (decide_eq_true (by omega))
  have htake : e.line.take len = q.take len := by
    obtain ⟨x, hx⟩ := h.line
    rw [← hx, List.take_append_of_le_length (by omega)]
  rw [lineComment_some hmark, hclosing, if_neg Bool.false_ne_true, h.skipLine, if_neg Bool.false_ne_true, hopen, htake]
  exact ⟨_, rfl⟩

section

variable {rest r : Bytes} {fuel : Nat}

theorem Segment.firstMark_eq (h : Segment false false .code rest u t) (hab : IsMark a b) :
    firstMark a b false false rest = (firstMark a b (afterText false u) false t).map (· + u.length) := by
  rw [h.split, firstMark_append (h.free a b hab), h.even]

theorem Segment.firstMark_passed (h : Segment false false .code rest u t) (hpre : Passed pre) :
    firstMark 47 47 false false (pre ++ rest) =
      (firstMark 47 47 (afterText false u) false t).map (· + (pre.length + u.length)) := by
  rw [hpre, h.firstMark_eq (.inl ⟨rfl, rfl⟩), Option.map_map]
  congr 1
  funext k
  show k + u.length + pre.length = _
  omega

theorem loop_end (hpre : Passed pre) (h : Segment false false .code rest u []) :
    LineOk lnum st.ccommLine ⟨pre ++ (outside .code rest).text, (outside .code rest).last⟩
      (commentLoop (fuel + 1) (pre ++ rest) pre.length false >>= lineComment lnum st) := by
  have hnone : firstMark 47 47 false false (pre ++ rest) = none := h.firstMark_passed hpre
  have hloop : commentLoop (fuel + 1) (pre ++ rest) pre.length false = .ok { line := pre ++ rest, ccommOpen := false } := by
    rw [commentLoop_succ, List.drop_left, h.firstMark_eq (.inr (.inl ⟨rfl, rfl⟩)), h.firstMark_eq (.inr (.inr ⟨rfl, rfl⟩))]
    rfl
  have hout := h.outside
  rw [← h.split.trans (List.append_nil u)] at hout
  rw [hloop, hout]
  refine ⟨pre ++ rest, _, ?_, lineComment_none hnone⟩
  rw [show (outside .code []).text = [] from rfl, List.append_nil]

/-- The rest of the line is a comment. -/
theorem loop_line (hpre : Passed pre) (h : Segment false false .code rest u (47 :: 47 :: r)) (hfuel : rest.length < fuel + 1) :
    LineOk lnum st.ccommLine ⟨pre ++ (outside .code rest).text, (outside .code rest).last⟩
      (commentLoop (fuel + 1) (pre ++ rest) pre.length false >>= lineComment lnum st) := by
  have hstar : r.head? ≠ some 42 := h.plain
  have hq : pre ++ u ++ [47, 47] <+: pre ++ rest := ⟨r, by rw [h.split]; simp⟩
  have hlen : (pre ++ u ++ [47, 47]).length = pre.length + u.length + 2 := by
    rw [List.length_append, List.length_append]
    rfl
  have hbound : ∀ a b, IsMark a b → ¬ (47 = a ∧ 47 = b) → ¬ (47 = a ∧ r.head? = some b) → ∀ k,
      firstMark a b false false ((pre ++ rest).drop pre.length) = some k →
      (pre ++ u ++ [47, 47]).length ≤ k + pre.length := by
    intro a b hab hfirst hsecond k hk
    rw [List.drop_left, h.firstMark_eq hab, firstMark_cons_cons hfirst hsecond, Option.map_map] at hk
    obtain ⟨j, -, rfl⟩ := Option.map_eq_some_iff.mp hk
    rw [hlen]
    show _ ≤ j + 2 + u.length + pre.length
    omega
  obtain ⟨e, hloop, hpast⟩ : ∃ e, commentLoop (fuel + 1) (pre ++ rest) pre.length false = .ok e ∧ Past _ e := by
    refine commentLoop_past hq ?_ ?_ ?_ ?_
    · rw [List.length_append]
      omega
    · rw [List.length_append]
      omega
    · exact hbound 47 42 (.inr (.inl ⟨rfl, rfl⟩)) (by decide) (fun hmark => hstar hmark.2)
    · exact hbound 42 47 (.inr (.inr ⟨rfl, rfl⟩)) (by decide) (fun hmark => absurd hmark.1 (by decide))
  have hmark : firstMark 47 47 false false e.line = some (pre.length + u.length) := by
    obtain ⟨x, hx⟩ := hpast.line
    have hfree : Free 47 47 false false u (47 :: 47 :: x) := (h.free 47 47 (.inl ⟨rfl, rfl⟩)).congr id
    have hline : e.line = pre ++ (u ++ 47 :: 47 :: x) := by
      rw [← hx]
      simp
    rw [hline, hpre, firstMark_append hfree, h.even, firstMark, if_pos ⟨rfl, rfl, rfl⟩]
    show some (0 + u.length + pre.length) = _
    congr 1
    omega
  obtain ⟨n, hn⟩ : ∃ n, lineComment lnum st e = .ok (some (List.take _ _), ⟨false, n⟩) := hpast.lineComment (by omega) hmark
  have htake : (pre ++ u ++ [47, 47]).take (pre.length + u.length) = pre ++ u := by
    rw [← List.length_append, List.take_left]
  have hout : outside .code (47 :: 47 :: r) = ⟨[], .code⟩ := rfl
  have hrest := h.outside
  rw [hout, List.append_nil] at hrest
  rw [hloop, hrest]
  exact ⟨pre ++ u, n, rfl, by rw [← htake]; exact hn⟩

/-- A mark that closes a comment stands where there is none. -/
theorem loop_stray (hpre : Passed pre) (h : Segment false false .code rest u (42 :: 47 :: r)) :
    LineOk lnum st.ccommLine ⟨pre ++ (outside .code rest).text, (outside .code rest).last⟩
      (commentLoop (fuel + 1) (pre ++ rest) pre.length false >>= lineComment lnum st) := by
  have hline : firstMark 47 47 false false (42 :: 47 :: r) ≠ none := h.plain
  have hclose : firstMark 42 47 false false rest = some u.length := by
    rw [h.firstMark_eq (.inr (.inr ⟨rfl, rfl⟩)), firstMark, if_pos ⟨rfl, rfl, rfl⟩]
    exact congrArg some (Nat.zero_add _)
  have hopen : ∀ l, firstMark 47 42 false false rest = some l → u.length ≤ l := by
    intro l hl
    rw [h.firstMark_eq (.inr (.inl ⟨rfl, rfl⟩))] at hl
    obtain ⟨k, -, rfl⟩ := Option.map_eq_some_iff.mp hl
    exact Nat.le_add_left _ _
  have hloop : commentLoop (fuel + 1) (pre ++ rest) pre.length false =
      .ok { line := pre ++ rest, ccommOpen := false, closing := some (u.length + pre.length) } := by
    rw [commentLoop_succ, List.drop_left, hclose]
    cases hl : firstMark 47 42 false false rest with
    | none => rfl
    | some l =>
      have hle := hopen l hl
      show (if l + pre.length < u.length + pre.length then _ else _) = _
      rw [if_neg (by omega)]
  obtain ⟨k, hk⟩ := Option.ne_none_iff_exists'.mp hline
  have hmark : firstMark 47 47 false false (pre ++ rest) = some (k + (pre.length + u.length)) := by
    rw [h.firstMark_passed hpre, firstMark_after (by decide), hk]
    rfl
  have hout : outside .code (42 :: 47 :: r) = ⟨[], .stray⟩ := rfl
  have hrest := h.outside
  rw [hout] at hrest
  have hpos : k ≠ 0 := by
    rintro rfl
    rw [firstMark, if_neg (by simp)] at hk
    obtain ⟨j, -, hj⟩ := Option.map_eq_some_iff.mp hk
    exact Nat.succ_ne_zero j hj
  rw [hloop, hrest]
  show lineComment lnum st _ = _
  rw [lineComment_some hmark]
  refine if_pos (decide_eq_true ?_)
  omega

/-- A comment is open at the end of the line. -/
theorem loop_open (hpre : Passed pre) (h : Segment false false .code rest u (47 :: 42 :: r))
    (hclose : firstMark 42 47 false false r = none)
    (hout : outside (.comment true) r = ⟨List.replicate r.length 32, .comment true⟩) (hslash : r.head? ≠ some 47) :
    LineOk lnum st.ccommLine ⟨pre ++ (outside .code rest).text, (outside .code rest).last⟩
      (commentLoop (fuel + 1) (pre ++ rest) pre.length false >>= lineComment lnum st) := by
  have hopen : firstMark 47 42 false false rest = some u.length := by
    rw [h.firstMark_eq (.inr (.inl ⟨rfl, rfl⟩)), firstMark, if_pos ⟨rfl, rfl, rfl⟩]
    exact congrArg some (Nat.zero_add _)
  have hnone : firstMark 42 47 false false rest = none := by
    rw [h.firstMark_eq (.inr (.inr ⟨rfl, rfl⟩)), firstMark_cons_cons (by decide) (fun hmark => hslash hmark.2)]
    exact congrArg (fun o => (o.map (· + 2)).map (· + u.length)) hclose
  have htake : (pre ++ rest).take (u.length + pre.length) = pre ++ u := by
    rw [h.split, ← List.append_assoc, Nat.add_comm, ← List.length_append, List.take_left]
  have hloop : commentLoop (fuel + 1) (pre ++ rest) pre.length false =
      .ok { line := pre ++ u, ccommOpen := true, ccommPos := some (u.length + pre.length) } := by
    rw [commentLoop_succ, List.drop_left, hopen, hnone, ← htake]
    rfl
  have hmark : firstMark 47 47 false false (pre ++ u) = none := by
    have hfree : Free 47 47 false false u [] := (h.free 47 47 (.inl ⟨rfl, rfl⟩)).congr nofun
    rw [hpre, firstMark_free hfree]
    rfl
  have hcomment : outside .code (47 :: 42 :: r) = ⟨List.replicate (r.length + 2) 32, .comment true⟩ := by
    show ((outside (.comment true) r).push 32).push 32 = _
    rw [hout]
    rfl
  have hrest := h.outside
  rw [hcomment] at hrest
  rw [hloop, hrest]
  refine ⟨some (pre ++ u), ?_, lineComment_none hmark⟩
  rw [← List.append_assoc, trimmed_append_blanks]
  rfl

/-- A comment in the line is one turn of the loop. -/
theorem loop_comment {v : Bytes} (h : Segment false false .code rest u (47 :: 42 :: (v ++ 42 :: 47 :: t)))
    (hclose : firstMark 42 47 false false (v ++ 42 :: 47 :: t) = some v.length)
    (hslash : (v ++ 42 :: 47 :: t).head? ≠ some 47) :
    commentLoop (fuel + 1) (pre ++ rest) pre.length false =
      commentLoop fuel (pre ++ u ++ List.replicate (v.length + 4) 32 ++ t)
        (pre ++ u ++ List.replicate (v.length + 4) 32).length false := by
  have hopen : firstMark 47 42 false false rest = some u.length := by
    rw [h.firstMark_eq (.inr (.inl ⟨rfl, rfl⟩)), firstMark, if_pos ⟨rfl, rfl, rfl⟩]
    exact congrArg some (Nat.zero_add _)
  have hsome : firstMark 42 47 false false rest = some (v.length + 2 + u.length) := by
    rw [h.firstMark_eq (.inr (.inr ⟨rfl, rfl⟩)), firstMark_cons_cons (by decide) (fun hmark => hslash hmark.2)]
    exact congrArg (fun o => (o.map (· + 2)).map (· + u.length)) hclose
  have hblank : blankOut (pre ++ rest) (u.length + pre.length) (v.length + 2 + u.length + pre.length + 2) =
      pre ++ u ++ List.replicate (v.length + 4) 32 ++ t := by
    have htake : (pre ++ rest).take (u.length + pre.length) = pre ++ u := by
      rw [h.split, ← List.append_assoc, Nat.add_comm, ← List.length_append, List.take_left]
    have hdrop : (pre ++ rest).drop (v.length + 2 + u.length + pre.length + 2) = t := by
      have hsplit : pre ++ rest = (pre ++ u ++ 47 :: 42 :: (v ++ [42, 47])) ++ t := by
        rw [h.split]
        simp
      rw [hsplit]
      refine List.drop_left' ?_
      simp only [List.length_append, List.length_cons, List.length_nil]
      omega
    rw [blankOut, htake, hdrop]
    congr 3
    omega
  rw [commentLoop_succ, List.drop_left, hopen, hsome]
  show (if u.length + pre.length < v.length + 2 + u.length + pre.length then _ else _) = _
  rw [if_pos (by omega), hblank]
  congr 1
  simp only [List.length_append, List.length_replicate]
  omega

end

/-- The loop, and the search after it, from a place outside of strings on. -/
theorem loop_lineOk {fuel : Nat} {rest : Bytes} (hpre : Passed pre) (hplain : Plain false false .code rest)
    (hlast : (outside .code rest).last ≠ .string) (hfuel : rest.length < fuel) :
    LineOk lnum st.ccommLine ⟨pre ++ (outside .code rest).text, (outside .code rest).last⟩
      (commentLoop fuel (pre ++ rest) pre.length false >>= lineComment lnum st) := by
  induction fuel generalizing pre rest with
  | zero => exact absurd hfuel (Nat.not_lt_zero _)
  | succ fuel ih =>
    obtain ⟨u, t, hseg⟩ := exists_segment hplain rfl hlast
    obtain rfl | ⟨a, b, r, hmark, rfl⟩ := hseg.atMark
    · exact loop_end hpre hseg
    · obtain ⟨rfl, rfl⟩ | ⟨rfl, rfl⟩ | ⟨rfl, rfl⟩ := hmark
      · exact loop_line hpre hseg hfuel
      · obtain ⟨hslash, hcomment⟩ : r.head? ≠ some 47 ∧ Plain false false (.comment true) r := hseg.plain
        obtain ⟨hnone, hout⟩ | ⟨v, t, rfl, hclose, hnext, hout⟩ := exists_close hcomment
        · exact loop_open hpre hseg hnone hout hslash
        · have hfree : Free 47 47 false false u (List.replicate (v.length + 3 + 1) 32) :=
            (hseg.free 47 47 (.inl ⟨rfl, rfl⟩)).congr fun h => absurd (Option.some.inj h) (by decide)
          have hrest : outside .code rest =
              ⟨u ++ List.replicate (v.length + 4) 32 ++ (outside .code t).text, (outside .code t).last⟩ := by
            have hopen : outside .code (47 :: 42 :: (v ++ 42 :: 47 :: t)) =
                ⟨List.replicate (v.length + 4) 32 ++ (outside .code t).text, (outside .code t).last⟩ := by
              show ((outside (.comment true) _).push 32).push 32 = _
              rw [hout]
              rfl
            rw [hseg.outside, hopen, List.append_assoc]
          have hlen := congrArg List.length hseg.split
          simp only [List.length_append, List.length_cons] at hlen
          rw [hrest] at hlast
          rw [loop_comment hseg hclose hslash, hrest, ← List.append_assoc, ← List.append_assoc]
          exact ih (hpre.append hfree hseg.even) hnext hlast (by omega)
      · exact loop_stray hpre hseg

theorem LineOk.blanks {n : Nat} {res : Except SourceError (Option Bytes × OpenComment)} {o : Outside}
    (h : LineOk lnum since o res) : LineOk lnum since ⟨List.replicate n 32 ++ o.text, o.last⟩ res := by
  unfold LineOk at h ⊢
  cases hlast : o.last with
  | stray =>
    rw [hlast] at h
    exact h
  | code | string | comment =>
    rw [hlast] at h
    simpa only [trimmed_blanks_append] using h

/-- The step of the loop, in a comment. -/
theorem commentLoop_comment {fuel : Nat} {line : Bytes} :
    commentLoop (fuel + 1) line 0 true =
      match firstMark 42 47 false false line with
      | none => .ok { line, ccommOpen := true, skipLine := true }
      | some r => commentLoop fuel (line.drop (r + 2)) 0 false := by
  have hopen : ascii "/*" = [47, 42] := by decide
  have hclose : ascii "*/" = [42, 47] := by decide
  rw [commentLoop, hopen, hclose, rimFindKeyword0_mark, rimFindKeyword0_mark, List.drop_zero]
  cases firstMark 42 47 false false line with
  | none => rfl
  | some r => rfl

/-- A line that is a comment as a whole is skipped. -/
theorem lineComment_skip {line : Bytes} :
    lineComment lnum st { line, ccommOpen := true, skipLine := true } = .ok (none, ⟨true, st.ccommLine⟩) := by
  cases h : firstMark 47 47 false false line with
  | none => exact lineComment_none h
  | some len => exact lineComment_some h

/-- The comments of a line. -/
theorem lineComments_lineOk {line : Bytes} (houtput : isOutput line = false)
    (hplain : Plain false false (if st.ccommOpen then .comment false else .code) line)
    (hlast : (outside (if st.ccommOpen then .comment false else .code) line).last ≠ .string) :
    LineOk lnum st.ccommLine (outside (if st.ccommOpen then .comment false else .code) line) (lineComments lnum st line) := by
  have hloop : lineComments lnum st line =
      (commentLoop (line.length + 2) line 0 st.ccommOpen >>= lineComment lnum st) := by
    unfold lineComments
    rw [houtput, Bool.not_false, Bool.or_true]
    rfl
  rw [hloop]
  cases hst : st.ccommOpen with
  | false =>
    rw [hst] at hplain hlast
    have hok : LineOk lnum st.ccommLine ⟨[] ++ (outside .code line).text, (outside .code line).last⟩ _ :=
      loop_lineOk passed_nil hplain hlast (Nat.lt_add_of_pos_right (Nat.succ_pos 1))
    exact hok
  | true =>
    rw [hst] at hplain hlast
    rw [if_pos rfl] at hplain hlast ⊢
    show LineOk _ _ _ (commentLoop (line.length + 1 + 1) line 0 true >>= _)
    rw [commentLoop_comment]
    obtain ⟨hnone, hout⟩ | ⟨u, t, rfl, hclose, hnext, hout⟩ := exists_close hplain
    · rw [hnone, hout]
      refine ⟨none, ?_, lineComment_skip⟩
      rw [← List.append_nil (List.replicate _ _), trimmed_blanks_append]
      rfl
    · rw [hout] at hlast
      have hdrop : (u ++ 42 :: 47 :: t).drop (u.length + 2) = t := by
        rw [← List.drop_drop, List.drop_left]
        rfl
      rw [hclose, hout]
      show LineOk _ _ _ (commentLoop _ ((u ++ 42 :: 47 :: t).drop (u.length + 2)) 0 false >>= _)
      rw [hdrop]
      refine LineOk.blanks ?_
      have hok : LineOk lnum st.ccommLine ⟨[] ++ (outside .code t).text, (outside .code t).last⟩
          (commentLoop ((u ++ 42 :: 47 :: t).length + 1) ([] ++ t) 0 false >>= lineComment lnum st) := by
        refine loop_lineOk passed_nil hnext hlast ?_
        rw [List.length_append, List.length_cons, List.length_cons]
        omega
      exact hok

/-! ## A file -/

def startMode (inComment : Bool) : Mode := if inComment then .comment false else .code

def LineEnd.inComment : LineEnd → Bool
  | .comment _ => true
  | _ => false

/-- Each line, with the mode that it begins in, up to one with an error. -/
def EachLine (P : Mode → Bytes → Prop) : Bool → List Bytes → Prop
  | _, [] => True
  | inComment, line :: lines =>
    P (startMode inComment) line ∧
      ((outside (startMode inComment) line).last = .stray ∨
        EachLine P (outside (startMode inComment) line).last.inComment lines)

def StringsClosed (mode : Mode) (line : Bytes) : Prop := (outside mode line).last ≠ .string

instance : DecidablePred (StringsClosed mode) := fun line => inferInstanceAs (Decidable ((outside mode line).last ≠ .string))

/-- In each line of a file, what is outside of comments is left, up to blanks around it; and there
is an error exactly where a comment is not closed, or nothing was to be closed. -/
def CommentsRemoved (lines : List Bytes) : Prop :=
  (rimGenComments 1 {} lines).map (·.map trimmed) = (outsideLines 1 none lines).map (·.map trimmed)

/-- The comments that are open where a line begins. -/
structure SameOpen (st : OpenComment) (since : Option Nat) : Prop where
  isOpen : st.ccommOpen = since.isSome
  line : ∀ n, since = some n → st.ccommLine = n

/-- A comment that began before the line was open where the line begins. -/
theorem outside_here (hmode : mode ≠ .comment false) : (outside mode s).last ≠ .comment false := by
  induction s generalizing mode with
  | nil =>
    cases mode with
    | comment here => exact fun hlast => hmode (congrArg Mode.comment (LineEnd.comment.inj hlast))
    | code | string | escaped | opening | closing => simp [outside, Mode.atEnd]
  | cons c s ih =>
    cases mode with
    | code =>
      rw [outside]
      split_ifs
      · exact LineEnd.noConfusion
      · exact ih Mode.noConfusion
      · exact LineEnd.noConfusion
      · exact ih Mode.noConfusion
      · exact ih Mode.noConfusion
    | string =>
      refine ih ?_
      split_ifs
      · exact Mode.noConfusion
      · exact Mode.noConfusion
      · exact Mode.noConfusion
    | escaped | closing => exact ih Mode.noConfusion
    | opening => exact ih (by decide)
    | comment here =>
      refine ih ?_
      split_ifs
      · exact Mode.noConfusion
      · exact hmode

/-- One more text that is the same up to blanks. -/
theorem map_cons_trimmed {x y : Except SourceError (List Bytes)} {v w : Bytes} (hvw : trimmed v = trimmed w)
    (hxy : x.map (·.map trimmed) = y.map (·.map trimmed)) :
    (x >>= fun texts => .ok (v :: texts)).map (·.map trimmed) =
      (y >>= fun texts => .ok (w :: texts)).map (·.map trimmed) := by
  cases x with
  | error e =>
    cases y with
    | error e' => exact hxy
    | ok ws => cases hxy
  | ok vs =>
    cases y with
    | error e' => cases hxy
    | ok ws =>
      have hmap : vs.map trimmed = ws.map trimmed := Except.ok.inj hxy
      show Except.ok (trimmed v :: vs.map trimmed) = Except.ok (trimmed w :: ws.map trimmed)
      rw [hvw, hmap]

theorem rimGenComments_lines {lines : List Bytes} {since : Option Nat} (hopen : SameOpen st since)
    (houtput : ∀ line ∈ lines, isOutput line = false) (hstrings : EachLine StringsClosed st.ccommOpen lines)
    (hplain : EachLine (Plain false false) st.ccommOpen lines) :
    (rimGenComments lnum st lines).map (·.map trimmed) = (outsideLines lnum since lines).map (·.map trimmed) := by
  induction lines generalizing lnum st since with
  | nil =>
    cases since with
    | none =>
      have hst : st.ccommOpen = false := hopen.isOpen
      rw [rimGenComments, hst]
      rfl
    | some n =>
      have hst : st.ccommOpen = true := hopen.isOpen
      rw [rimGenComments, hst, hopen.line n rfl]
      rfl
  | cons line lines ih =>
    obtain ⟨houtput, houtputs⟩ := List.forall_mem_cons.mp houtput
    obtain ⟨hstring, hstrings⟩ := hstrings
    obtain ⟨hline, hplain⟩ := hplain
    have hok : LineOk lnum st.ccommLine (outside (startMode st.ccommOpen) line) (lineComments lnum st line) :=
      lineComments_lineOk houtput hline hstring
    have hspec : outsideLines lnum since (line :: lines) =
        ((outside (startMode st.ccommOpen) line).last.since lnum since >>= fun since' =>
          outsideLines (lnum + 1) since' lines >>= fun texts =>
            .ok ((outside (startMode st.ccommOpen) line).text :: texts)) := by
      rw [outsideLines, ← hopen.isOpen]
      rfl
    have hhere : (outside (startMode st.ccommOpen) line).last = .comment false → since.isSome = true := by
      intro hlast
      rw [← hopen.isOpen]
      by_contra hst
      rw [Bool.eq_false_iff.mpr hst] at hlast
      exact outside_here Mode.noConfusion hlast
    rw [rimGenComments, hspec]
    generalize outside (startMode st.ccommOpen) line = o at hok hstrings hplain hhere ⊢
    unfold LineOk at hok
    cases hlast : o.last with
    | stray =>
      rw [hlast] at hok
      rw [hok]
      rfl
    | code | string =>
      rw [hlast] at hok hstrings hplain
      obtain ⟨text, n, htext, hres⟩ := hok
      rw [hres]
      refine map_cons_trimmed htext (ih ⟨rfl, nofun⟩ houtputs ?_ ?_)
      · exact hstrings.resolve_left LineEnd.noConfusion
      · exact hplain.resolve_left LineEnd.noConfusion
    | comment here =>
      rw [hlast] at hok hstrings hplain
      obtain ⟨text, htext, hres⟩ := hok
      rw [hres]
      refine map_cons_trimmed htext (ih ⟨?_, ?_⟩ houtputs ?_ ?_)
      · cases here with
        | true => rfl
        | false => exact (hhere hlast).symm
      · intro n hn
        cases here with
        | true => exact Option.some.inj hn
        | false => exact hopen.line n hn
      · exact hstrings.resolve_left LineEnd.noConfusion
      · exact hplain.resolve_left LineEnd.noConfusion

/-- Two marks that are overlooked can make up for each other, so the condition is not necessary. -/
example : CommentsRemoved [ascii "/* \" */ /* \" */"] ∧ ¬ Plain false false .code (ascii "/* \" */ /* \" */") := by
  unfold CommentsRemoved
  decide +kernel

end RimStone
