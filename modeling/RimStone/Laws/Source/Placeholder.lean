import Mathlib.Data.Nat.Digits.Defs
import RimStone.Laws.Memory.Chars
import RimStone.Lib.Lines
import RimStone.Lib.Yields
import RimStone.Source.Output

/-!
# Placeholders

What `convert_puts` sees from a placeholder backwards, and what it makes of a stretch of code: a stretch is kept just
where nothing in front of the placeholders in it looks like a literal (`convertLoop_stretch`). From the end of a literal
back to its first quote the loop counts the characters of the text, wherever it begins: of a run of backslashes it may
pair the wrong ones, and is then one behind until the run is over (`backOver_escaped`).
-/

namespace RimStone

open Lib

/-! ## The placeholder -/

theorem mark_eq : RIM_EMPTY_LONG_PLAIN_ZERO = [82, 73, 77, 95, 69, 77, 80, 84, 89, 95, 76, 79, 78, 71, 95, 80, 76, 65, 73,
    78, 95, 90, 69, 82, 79] := by
  simp [RIM_EMPTY_LONG_PLAIN_ZERO, ascii]

theorem mark_length : RIM_EMPTY_LONG_PLAIN_ZERO.length = 25 := by
  rw [mark_eq]
  rfl

theorem mark_borderless : Borderless RIM_EMPTY_LONG_PLAIN_ZERO := by decide +kernel

theorem mark_cons : RIM_EMPTY_LONG_PLAIN_ZERO = 82 :: RIM_EMPTY_LONG_PLAIN_ZERO.tail := by
  rw [mark_eq]
  rfl

theorem of_mem_mark : ∀ c ∈ RIM_EMPTY_LONG_PLAIN_ZERO, 65 ≤ c ∧ c ≤ 95 := by
  rw [mark_eq]
  simp [UInt8.le_iff_toNat_le]

variable {c : UInt8} {behind r s w text rest out a tail f y : Bytes}

theorem not_mem_mark (h : ¬ (65 ≤ c ∧ c ≤ 95)) : c ∉ RIM_EMPTY_LONG_PLAIN_ZERO :=
  fun hc => h (of_mem_mark c hc)

/-! ## Back over blanks and literals -/

theorem backOverBlanks_eq (h : behind.dropWhile isspace = c :: r) :
    backOverBlanks behind = .ok (c, r) := by rw [backOverBlanks, h]

/-- The character that blanks in front of a placeholder end at is no comma. -/
theorem lookAhead_of_ne_comma (h : behind.dropWhile isspace = c :: r) (hc : c ≠ 44) :
    lookAhead behind = .ok .other := by
  simp only [lookAhead, backOverBlanks_eq h, ok_bind, hc, ne_eq, not_false_eq_true, if_true]

/-- There is a comma and no quote in front of it. -/
theorem lookAhead_of_ne_quote {r' : Bytes} (h : behind.dropWhile isspace = 44 :: r) (hr : r ≠ [])
    (h' : r.dropWhile isspace = c :: r') (hc : c ≠ 34) : lookAhead behind = .ok .other := by
  simp only [lookAhead, backOverBlanks_eq h, backOverBlanks_eq h', ok_bind, hc, hr, ne_eq, not_true_eq_false,
    not_false_eq_true, if_true, if_false]

/-- There is a comma and a quote, and what is in front of the literal decides. -/
theorem lookAhead_of_quote {r' q q' : Bytes} {totstr : Nat} (h : behind.dropWhile isspace = 44 :: r) (hr : r ≠ [])
    (h' : r.dropWhile isspace = 34 :: r') (hr' : r' ≠ []) (hq : backOverLiteral 0 r' = .ok (totstr, q))
      (hq' : q.dropWhile isspace = c :: q') :
    lookAhead behind = .ok (if c ≠ 44 then .other else .literal totstr) := by
  simp only [lookAhead, backOverBlanks_eq h, backOverBlanks_eq h', backOverBlanks_eq hq', ok_bind, hr, hr', hq, ne_eq,
    not_true_eq_false, if_false]

theorem getLast?_dropWhile (h : s.dropWhile isspace = c :: r) : s.getLast? = (c :: r).getLast? := by
  rw [← h]
  have hsplit := List.takeWhile_append_dropWhile (p := isspace) (l := s)
  conv_lhs => rw [← hsplit]
  rw [h, List.getLast?_append_of_ne_nil _ (by simp)]

theorem backOverBlanks_nil (h : behind.dropWhile isspace = []) :
    backOverBlanks behind = .error .undefined := by rw [backOverBlanks, h]

theorem error_bind {ε α β : Type} (e : ε) (f : α → Except ε β) : (Except.error e >>= f) = .error e := rfl

/-- `convert_puts` does not return at code that begins with `#`. -/
theorem lookAhead_ne_nothing (h : behind.getLast? = some 35) : lookAhead behind ≠ .ok .nothing := by
  cases hd : behind.dropWhile isspace with
  | nil =>
    rw [lookAhead, backOverBlanks_nil hd, error_bind]
    nofun
  | cons c r =>
    rw [getLast?_dropWhile hd] at h
    by_cases hc : c = 44
    · subst hc
      have hr : r ≠ [] := by
        rintro rfl
        cases h
      rw [List.getLast?_cons_of_ne_nil hr] at h
      cases hd' : r.dropWhile isspace with
      | nil =>
        simp only [lookAhead, backOverBlanks_eq hd, backOverBlanks_nil hd', ok_bind, error_bind, hr, ne_eq,
          not_true_eq_false, if_false]
        nofun
      | cons c' r' =>
        rw [getLast?_dropWhile hd'] at h
        by_cases hc' : c' = 34
        · subst hc'
          have hr' : r' ≠ [] := by
            rintro rfl
            cases h
          intro hnothing
          simp only [lookAhead, backOverBlanks_eq hd, backOverBlanks_eq hd', ok_bind, hr, hr', ne_eq, not_true_eq_false,
            if_false] at hnothing
          obtain ⟨⟨totstr, q⟩, -, hnothing⟩ := bind_eq_ok.mp hnothing
          obtain ⟨⟨d, q'⟩, -, hnothing⟩ := bind_eq_ok.mp hnothing
          by_cases hcomma : d = 44
          · simp [hcomma] at hnothing
          · simp [hcomma] at hnothing
        · rw [lookAhead_of_ne_quote hd hr hd' hc']
          nofun
    · rw [lookAhead_of_ne_comma hd hc]
      nofun

/-! ## Literals from behind -/

/-- The text of a literal from its last character back, of a text that is read so. -/
def escapedBack (w : Bytes) : Bytes := w.flatMap fun c => (outputChar c).reverse

theorem reverse_escaped (text : Bytes) : (text.flatMap outputChar).reverse = escapedBack text.reverse := by
  rw [escapedBack, List.reverse_flatMap]
  rfl

/-- The loop over a literal that stands behind `rim_puts (RIM_NOENC, ` counts the characters of its text; so it does
where a backslash of a pair is left, or another character that is no quote. -/
theorem backOver_escaped (hw : (0 : UInt8) ∉ w) (totstr : Nat) (r : Bytes) :
    backOverLiteral totstr (escapedBack w ++ 34 :: 32 :: r) = .ok (totstr + w.length, 32 :: r) ∧
      ∀ c, c ≠ 34 →
        backOverLiteral totstr (c :: (escapedBack w ++ 34 :: 32 :: r)) = .ok (totstr + 1 + w.length, 32 :: r) := by
  induction w generalizing totstr with
  | nil =>
    have hquote : ∀ n, backOverLiteral n (34 :: 32 :: r) = .ok (n, 32 :: r) := by
      intro n
      rw [backOverLiteral, if_neg (by decide), if_neg (by decide), if_pos rfl]
    refine ⟨hquote totstr, fun c hc => ?_⟩
    have hfirst : backOverLiteral totstr (c :: 34 :: 32 :: r) = backOverLiteral (totstr + 1) (34 :: 32 :: r) := by
      rw [backOverLiteral, if_neg (by decide), if_neg (by decide), if_neg hc]
    exact hfirst.trans (hquote (totstr + 1))
  | cons x w ih =>
    have hx : x ≠ 0 := fun hx => hw (hx ▸ List.mem_cons_self)
    have ih := ih fun h => hw (List.mem_cons_of_mem _ h)
    have hlen : ∀ n, n + 1 + w.length = n + (x :: w).length := by
      intro n
      rw [List.length_cons]
      omega
    -- the text ends with a quote, with a backslash or with another character
    by_cases hquote : x = 34
    · subst hquote
      have htext : ∀ t, escapedBack (34 :: w) ++ t = 34 :: 92 :: (escapedBack w ++ t) := fun t => rfl
      rw [htext]
      have hskip : ∀ n, backOverLiteral n (34 :: 92 :: (escapedBack w ++ 34 :: 32 :: r)) =
          .ok (n + (34 :: w).length, 32 :: r) := by
        intro n
        rw [backOverLiteral, if_neg (by decide), if_pos rfl, (ih (n + 1)).1, hlen]
      refine ⟨hskip totstr, fun c hc => ?_⟩
      rw [backOverLiteral, if_neg (by decide), if_neg (by decide), if_neg hc]
      exact hskip (totstr + 1)
    · by_cases hslash : x = 92
      · subst hslash
        have htext : ∀ t, escapedBack (92 :: w) ++ t = 92 :: 92 :: (escapedBack w ++ t) := fun t => rfl
        rw [htext]
        refine ⟨?_, fun c hc => ?_⟩
        · rw [backOverLiteral, if_neg (by decide), if_pos rfl, (ih (totstr + 1)).1, hlen]
        · -- one backslash of the pair is left
          rw [backOverLiteral, if_neg (by decide), if_pos rfl, (ih (totstr + 1)).2 92 (by decide), hlen]
      · have hplain : outputChar x = [x] := by rw [outputChar, if_neg hquote, if_neg hslash]
        have htext : ∀ t, escapedBack (x :: w) ++ t = x :: (escapedBack w ++ t) := by
          intro t
          rw [escapedBack, List.flatMap_cons, hplain]
          rfl
        rw [htext]
        refine ⟨?_, fun c hc => ?_⟩
        · rw [(ih totstr).2 x hquote, hlen]
        · rw [backOverLiteral, if_neg hx, if_neg hslash, if_neg hc, (ih (totstr + 1)).2 x hquote, hlen]

/-! ## Stretches of code -/

theorem convertLoop_over (h : text.length = s.length) :
    convertLoop text behind (s ++ rest) = convertLoop [] (text.reverse ++ behind) rest := by
  induction text generalizing behind s with
  | nil =>
    obtain rfl := List.length_eq_zero_iff.mp h.symm
    rfl
  | cons o text ih =>
    cases s with
    | nil => cases h
    | cons c s =>
      have hrev : text.reverse ++ o :: behind = (o :: text).reverse ++ behind := by simp
      rw [List.cons_append, convertLoop, ih (Nat.succ.inj h), hrev]

/-- What is behind stays. -/
theorem convertLoop_prefix (h : convertLoop text behind s = .ok out) : behind.reverse <+: out := by
  induction s generalizing text behind with
  | nil =>
    have hout : out = behind.reverse := by
      cases text with
      | nil => exact (Except.ok.inj h).symm
      | cons => exact (Except.ok.inj h).symm
    rw [hout]
  | cons c s ih =>
    have hback : ∀ d, (d :: behind).reverse <+: out → behind.reverse <+: out := by
      intro d hd
      rw [List.reverse_cons] at hd
      exact (List.prefix_append _ _).trans hd
    cases text with
    | cons o text =>
      rw [convertLoop] at h
      exact hback o (ih h)
    | nil =>
      rw [convertLoop] at h
      split at h
      · exact hback c (ih h)
      · obtain ⟨ahead, -, h⟩ := bind_eq_ok.mp h
        cases ahead with
        | other => exact hback c (ih h)
        | nothing =>
          cases h
          exact List.prefix_append _ _
        | literal totstr => exact hback _ (ih h)

/-- Nothing in front of a placeholder of the stretch looks like a literal. -/
def Unread (behind s : Bytes) : Prop :=
  ∀ u v, s = u ++ (RIM_EMPTY_LONG_PLAIN_ZERO ++ v) → lookAhead (u.reverse ++ behind) = .ok .other

/-- A stretch whose last character belongs to no placeholder. -/
def EndsOutside (s : Bytes) : Prop := ∀ c ∈ s.getLast?, c ∉ RIM_EMPTY_LONG_PLAIN_ZERO

theorem EndsOutside.of_append (h : EndsOutside (a ++ s)) : EndsOutside s := by
  intro c hc
  refine h c ?_
  cases s with
  | nil => cases hc
  | cons d s =>
    rw [List.getLast?_append_of_ne_nil _ (by simp)]
    exact hc

/-- A placeholder that begins in the stretch ends in it. -/
theorem EndsOutside.within (h : EndsOutside s) (hne : s ≠ []) (hp : RIM_EMPTY_LONG_PLAIN_ZERO <+: s ++ rest) :
    RIM_EMPTY_LONG_PLAIN_ZERO <+: s := by
  by_contra hnot
  have hs : s <+: RIM_EMPTY_LONG_PLAIN_ZERO := by
    obtain hle | hle := Nat.le_total s.length RIM_EMPTY_LONG_PLAIN_ZERO.length
    · exact List.prefix_of_prefix_length_le (List.prefix_append s rest) hp hle
    · exact absurd (List.prefix_of_prefix_length_le hp (List.prefix_append s rest) hle) hnot
  obtain ⟨t, ht⟩ := hs
  refine h (s.getLast hne) (List.getLast?_eq_getLast_of_ne_nil hne) ?_
  rw [← ht]
  exact List.mem_append_left _ (List.getLast_mem hne)

theorem lengthText_length {n : Nat} (hn : n < 10 ^ 25) : (lengthText n).length = 25 := by
  have hdigits := Nat.repr_length n 25 (by decide) hn
  rw [lengthText, List.length_append, List.length_replicate, mark_length, ascii, List.length_map, String.length_toList]
  omega

theorem lengthText_cons (n : Nat) : ∃ c r, lengthText n = c :: r ∧ c ≠ 82 := by
  have hall : ∀ c ∈ lengthText n, c ≠ 82 := by
    rintro c hc rfl
    obtain hblank | hdigit := List.mem_append.mp hc
    · cases List.eq_of_mem_replicate hblank
    · cases isdigit_repr hdigit
  cases htext : lengthText n with
  | nil =>
    have hlen := congrArg List.length htext
    rw [lengthText, List.length_append, List.length_replicate, mark_length, List.length_nil] at hlen
    omega
  | cons c r =>
    rw [htext] at hall
    exact ⟨c, r, rfl, hall c List.mem_cons_self⟩

theorem isPrefixOf_mark : (!RIM_EMPTY_LONG_PLAIN_ZERO.isPrefixOf s) = true ↔ ¬ RIM_EMPTY_LONG_PLAIN_ZERO <+: s := by
  rw [Bool.not_eq_true', ← Bool.not_eq_true, List.isPrefixOf_iff_prefix]

theorem mark_append (s : Bytes) : RIM_EMPTY_LONG_PLAIN_ZERO ++ s = 82 :: (RIM_EMPTY_LONG_PLAIN_ZERO.tail ++ s) := by
  conv_lhs => rw [mark_cons]
  rfl

theorem mark_at (s : Bytes) : ¬ (!RIM_EMPTY_LONG_PLAIN_ZERO.isPrefixOf (82 :: (RIM_EMPTY_LONG_PLAIN_ZERO.tail ++ s))) =
    true := by
  rw [isPrefixOf_mark, not_not, ← mark_append]
  exact List.prefix_append _ _

theorem convertLoop_other (h : lookAhead behind = .ok .other) :
    convertLoop [] behind (RIM_EMPTY_LONG_PLAIN_ZERO ++ s) =
      convertLoop [] (RIM_EMPTY_LONG_PLAIN_ZERO.reverse ++ behind) s := by
  have hrev : RIM_EMPTY_LONG_PLAIN_ZERO.tail.reverse ++ 82 :: behind = RIM_EMPTY_LONG_PLAIN_ZERO.reverse ++ behind := by
    conv_rhs => rw [mark_cons]
    simp
  rw [mark_append, convertLoop, if_neg (mark_at s), h, ok_bind, ← hrev]
  exact convertLoop_over rfl

/-- A placeholder that a length is written over. -/
theorem convertLoop_literal {totstr : Nat} (h : lookAhead behind = .ok (.literal totstr)) (hlen : totstr < 10 ^ 25) :
    convertLoop [] behind (RIM_EMPTY_LONG_PLAIN_ZERO ++ s) =
      convertLoop [] ((lengthText totstr).reverse ++ behind) s := by
  obtain ⟨c, r, htext, -⟩ := lengthText_cons totstr
  have hwidth := lengthText_length hlen
  have htail : RIM_EMPTY_LONG_PLAIN_ZERO.tail.length = 24 := by rw [List.length_tail, mark_length]
  rw [htext] at hwidth
  rw [mark_append, convertLoop, if_neg (mark_at s), h, ok_bind]
  have hover : convertLoop r (c :: behind) (RIM_EMPTY_LONG_PLAIN_ZERO.tail ++ s) =
    convertLoop [] (r.reverse ++ c :: behind) s := by
    refine convertLoop_over ?_
    rw [htail]
    simpa using hwidth
  have hrev : (c :: r).reverse ++ behind = r.reverse ++ c :: behind := by simp
  simp only [htext, List.tail_cons, List.headD_cons, hover, hrev]

/-- The code from a placeholder on is kept just where nothing looks like a literal in front of it. -/
theorem convertLoop_kept (hbegin : behind.getLast? = some 35) :
    (convertLoop [] behind (RIM_EMPTY_LONG_PLAIN_ZERO ++ s) = .ok out ∧
        behind.reverse ++ RIM_EMPTY_LONG_PLAIN_ZERO <+: out) ↔
      lookAhead behind = .ok .other ∧ convertLoop [] (RIM_EMPTY_LONG_PLAIN_ZERO.reverse ++ behind) s = .ok out := by
  constructor
  · intro h
    obtain ⟨hout, hprefix⟩ := h
    rw [mark_append, convertLoop, if_neg (mark_at s)] at hout
    obtain ⟨ahead, hahead, hout⟩ := bind_eq_ok.mp hout
    cases ahead with
    | other =>
      refine ⟨hahead, ?_⟩
      rw [← convertLoop_other hahead, mark_append, convertLoop, if_neg (mark_at s), hahead, ok_bind]
      exact hout
    | nothing => exact absurd hahead (lookAhead_ne_nothing hbegin)
    | literal totstr =>
      -- a length does not begin as a placeholder does
      obtain ⟨c, r, htext, hne⟩ := lengthText_cons totstr
      have hwritten := convertLoop_prefix hout
      simp only [htext, List.headD_cons, List.reverse_cons] at hwritten
      rw [mark_cons] at hprefix
      have hshort : behind.reverse ++ [82] <+: out :=
        (List.prefix_append _ RIM_EMPTY_LONG_PLAIN_ZERO.tail).trans (by simpa using hprefix)
      have hsame := List.prefix_of_prefix_length_le hwritten hshort (by simp)
      rw [List.prefix_append_right_inj] at hsame
      obtain ⟨t, ht⟩ := hsame
      cases ht
      exact absurd rfl hne
  · intro h
    obtain ⟨hahead, hout⟩ := h
    rw [convertLoop_other hahead]
    have hprefix := convertLoop_prefix hout
    rw [List.reverse_append, List.reverse_reverse] at hprefix
    exact ⟨hout, hprefix⟩

theorem unread_nil (behind : Bytes) : Unread behind [] := by
  intro u v h
  have hlen := congrArg List.length h
  rw [List.length_append, List.length_append, mark_length, List.length_nil] at hlen
  omega

theorem unread_mark {t : Bytes} : Unread behind (RIM_EMPTY_LONG_PLAIN_ZERO ++ t) ↔
    lookAhead behind = .ok .other ∧ Unread (RIM_EMPTY_LONG_PLAIN_ZERO.reverse ++ behind) t := by
  constructor
  · intro h
    refine ⟨h [] t rfl, fun u v ht => ?_⟩
    have hahead := h (RIM_EMPTY_LONG_PLAIN_ZERO ++ u) v (by rw [ht, List.append_assoc])
    rw [List.reverse_append, List.append_assoc] at hahead
    exact hahead
  · intro h u v ht
    by_cases hu : u = []
    · rw [hu]
      exact h.1
    · -- placeholders do not overlap
      have hprefix : RIM_EMPTY_LONG_PLAIN_ZERO <+: u ++ (RIM_EMPTY_LONG_PLAIN_ZERO ++ v) := ⟨t, ht⟩
      obtain ⟨u', rfl⟩ := mark_borderless.apart hu hprefix
      rw [List.append_assoc] at ht
      rw [List.reverse_append, List.append_assoc]
      exact h.2 u' v (List.append_cancel_left ht)

theorem unread_cons (h : ¬ RIM_EMPTY_LONG_PLAIN_ZERO <+: c :: s) : Unread behind (c :: s) ↔ Unread (c :: behind) s := by
  constructor
  · intro hun u v ht
    have hahead := hun (c :: u) v (by rw [ht, List.cons_append])
    rw [List.reverse_cons, List.append_assoc] at hahead
    exact hahead
  · intro hun u v ht
    cases u with
    | nil => exact absurd ⟨v, ht.symm⟩ h
    | cons d u =>
      rw [List.cons_append, List.cons.injEq] at ht
      obtain ⟨rfl, ht⟩ := ht
      rw [List.reverse_cons, List.append_assoc]
      exact hun u v ht

/-- A stretch of code is kept just where no placeholder in it is taken for one that follows a literal. -/
theorem convertLoop_stretch (hs : EndsOutside s) (hbegin : behind.getLast? = some 35) :
    (convertLoop [] behind (s ++ rest) = .ok out ∧ behind.reverse ++ s <+: out) ↔
      Unread behind s ∧ convertLoop [] (s.reverse ++ behind) rest = .ok out := by
  have hlast : ∀ a : Bytes, (a ++ behind).getLast? = some 35 := by
    intro a
    rw [List.getLast?_append, hbegin]
    rfl
  induction hn : s.length using Nat.strong_induction_on generalizing s behind with
  | _ n ih =>
    subst hn
    cases s with
    | nil =>
      rw [List.nil_append, List.append_nil, List.reverse_nil, List.nil_append]
      exact ⟨fun h => ⟨unread_nil behind, h.1⟩, fun h => ⟨h.2, convertLoop_prefix h.2⟩⟩
    | cons c s =>
      by_cases hmark : RIM_EMPTY_LONG_PLAIN_ZERO <+: c :: s
      · obtain ⟨t, ht⟩ := hmark
        have hshort : t.length < (c :: s).length := by
          rw [← ht, List.length_append, mark_length]
          omega
        rw [← ht] at hs ⊢
        have hrest := ih t.length hshort hs.of_append (hlast RIM_EMPTY_LONG_PLAIN_ZERO.reverse)
          (fun a => by rw [← List.append_assoc]; exact hlast _) rfl
        rw [List.reverse_append, List.reverse_reverse, List.append_assoc, ← List.append_assoc t.reverse,
          ← List.reverse_append] at hrest
        rw [unread_mark, List.append_assoc, and_assoc]
        refine Iff.trans ?_ (and_congr_right fun _ => hrest)
        constructor
        · intro h
          have hfront : behind.reverse ++ RIM_EMPTY_LONG_PLAIN_ZERO <+: out := by
            refine (List.prefix_append _ t).trans ?_
            rw [List.append_assoc]
            exact h.2
          have hkept := (convertLoop_kept hbegin).mp ⟨h.1, hfront⟩
          exact ⟨hkept.1, hkept.2, h.2⟩
        · intro h
          exact ⟨((convertLoop_kept hbegin).mpr ⟨h.1, h.2.1⟩).1, h.2.2⟩
      · have hnext : (!RIM_EMPTY_LONG_PLAIN_ZERO.isPrefixOf (c :: (s ++ rest))) = true := by
          rw [isPrefixOf_mark]
          exact fun h => hmark (hs.within (by simp) h)
        have hrest := ih s.length (Nat.lt_succ_self _) (EndsOutside.of_append (a := [c]) hs) (hlast [c])
          (fun a => by rw [← List.singleton_append, ← List.append_assoc]; exact hlast _) rfl
        rw [unread_cons hmark, List.cons_append, convertLoop, if_pos hnext]
        simpa using hrest

theorem unread_of_absent (h : ¬ RIM_EMPTY_LONG_PLAIN_ZERO <:+: s) (behind : Bytes) : Unread behind s := by
  intro u v hs
  exact absurd ⟨u, v, by rw [hs, List.append_assoc]⟩ h

theorem unread_append (ha : EndsOutside a) :
    Unread behind (a ++ s) ↔ Unread behind a ∧ Unread (a.reverse ++ behind) s := by
  constructor
  · intro h
    refine ⟨fun u v hu => h u (v ++ s) (by rw [hu]; simp), fun u v hu => ?_⟩
    have hahead := h (a ++ u) v (by rw [hu, List.append_assoc])
    rw [List.reverse_append, List.append_assoc] at hahead
    exact hahead
  · intro h u v hu
    obtain ⟨r, hr, hv⟩ | ⟨r, hr, hv⟩ := List.append_eq_append_iff.mp hu
    · -- the placeholder is behind `a`
      rw [hr, List.reverse_append, List.append_assoc]
      exact h.2 r v hv
    · by_cases hne : r = []
      · rw [hne, List.append_nil] at hr
        rw [hne, List.nil_append] at hv
        rw [← hr]
        exact h.2 [] v hv.symm
      · have houtside : EndsOutside r := by
          rw [hr] at ha
          exact ha.of_append
        obtain ⟨t, ht⟩ := houtside.within hne ⟨v, hv⟩
        exact h.1 u t (by rw [hr, ← ht])

/-! ## Placeholders in a text -/

theorem escaped_append (u v : Bytes) : (u ++ v).flatMap outputChar = u.flatMap outputChar ++ v.flatMap outputChar :=
  List.flatMap_append

/-- Characters that are neither quotes nor backslashes stand in the literal as they are. -/
theorem escaped_plain {p : Bytes} (h : ∀ c ∈ p, c ≠ 34 ∧ c ≠ 92) : p.flatMap outputChar = p := by
  induction p with
  | nil => rfl
  | cons c p ih =>
    obtain ⟨hc, hp⟩ := List.forall_mem_cons.mp h
    rw [List.flatMap_cons, ih hp, outputChar, if_neg hc.1, if_neg hc.2]
    rfl

theorem plain_mark : ∀ c ∈ RIM_EMPTY_LONG_PLAIN_ZERO, c ≠ 34 ∧ c ≠ 92 := by
  rw [mark_eq]
  simp

/-- Such characters in front of a literal are those of its text. -/
theorem prefix_of_escaped {p : Bytes} (hp : ∀ c ∈ p, c ≠ 34 ∧ c ≠ 92)
    (h : p <+: text.flatMap outputChar ++ 92 :: tail) : p <+: text := by
  induction p generalizing text with
  | nil => exact List.nil_prefix
  | cons c p ih =>
    obtain ⟨hc, hp⟩ := List.forall_mem_cons.mp hp
    cases text with
    | nil =>
      rw [List.flatMap_nil, List.nil_append, List.cons_prefix_cons] at h
      exact absurd h.1 hc.2
    | cons x text =>
      rw [List.flatMap_cons] at h
      unfold outputChar at h
      split at h
      · rw [List.cons_append, List.cons_append, List.cons_prefix_cons] at h
        exact absurd h.1 hc.2
      · split at h
        · rw [List.cons_append, List.cons_append, List.cons_prefix_cons] at h
          exact absurd h.1 hc.2
        · rw [List.cons_append, List.nil_append, List.cons_append, List.cons_prefix_cons] at h
          obtain ⟨rfl, h⟩ := h
          exact List.cons_prefix_cons.mpr ⟨rfl, ih hp h⟩

/-- A placeholder in a literal is one in its text. -/
theorem placeholder_of_escaped {u v : Bytes} (htail : ¬ RIM_EMPTY_LONG_PLAIN_ZERO <:+: 92 :: tail)
    (h : text.flatMap outputChar ++ 92 :: tail = u ++ (RIM_EMPTY_LONG_PLAIN_ZERO ++ v)) :
    ∃ u' v', text = u' ++ (RIM_EMPTY_LONG_PLAIN_ZERO ++ v') ∧ u = u'.flatMap outputChar := by
  induction text generalizing u with
  | nil =>
    rw [List.flatMap_nil, List.nil_append] at h
    exact absurd ⟨u, v, by rw [h, List.append_assoc]⟩ htail
  | cons x text ih =>
    by_cases hu : u = []
    · rw [hu, List.nil_append] at h
      obtain ⟨v', hv'⟩ := prefix_of_escaped plain_mark ⟨v, h.symm⟩
      exact ⟨[], v', hv'.symm, hu⟩
    · -- one character of the text is in front of it
      have hnext : ∀ u₁, text.flatMap outputChar ++ 92 :: tail = u₁ ++ (RIM_EMPTY_LONG_PLAIN_ZERO ++ v) →
          u = outputChar x ++ u₁ → ∃ u' v', x :: text = u' ++ (RIM_EMPTY_LONG_PLAIN_ZERO ++ v') ∧ u =
            u'.flatMap outputChar := by
        intro u₁ h₁ hu₁
        obtain ⟨u', v', htext, hu'⟩ := ih h₁
        exact ⟨x :: u', v', by rw [htext, List.cons_append], by rw [hu₁, hu', List.flatMap_cons]⟩
      rw [List.flatMap_cons, List.append_assoc] at h
      obtain ⟨r, hr, h₁⟩ | ⟨r, hr, h₁⟩ := List.append_eq_append_iff.mp h
      · exact hnext r h₁ hr
      · -- it does not begin within an escape
        have hr' : r = [] := by
          by_contra hne
          obtain ⟨d, r', rfl⟩ := List.exists_cons_of_ne_nil hne
          rw [mark_append, List.cons_append, List.cons.injEq] at h₁
          obtain ⟨c, u₁, rfl⟩ := List.exists_cons_of_ne_nil hu
          rw [← h₁.1] at hr
          unfold outputChar at hr
          split_ifs at hr
          all_goals
            cases u₁ with
            | nil => simp at hr
            | cons => simp at hr
        rw [hr', List.append_nil] at hr
        rw [hr', List.nil_append] at h₁
        exact hnext [] h₁.symm (by rw [hr, List.append_nil])

/-- The placeholders of a literal are those of its text. -/
theorem unread_escaped (htail : ¬ RIM_EMPTY_LONG_PLAIN_ZERO <:+: 92 :: tail) :
    Unread behind (text.flatMap outputChar ++ 92 :: tail) ↔
      ∀ u v, text = u ++ (RIM_EMPTY_LONG_PLAIN_ZERO ++ v) →
        lookAhead (escapedBack u.reverse ++ behind) = .ok .other := by
  constructor
  · intro h u v htext
    rw [← reverse_escaped]
    refine h (u.flatMap outputChar) (v.flatMap outputChar ++ 92 :: tail) ?_
    rw [htext, escaped_append, escaped_append, escaped_plain plain_mark]
    simp
  · intro h u v hs
    obtain ⟨u', v', htext, rfl⟩ := placeholder_of_escaped htail hs
    rw [reverse_escaped]
    exact h u' v' htext

/-! ## What a placeholder in a text sees -/

/-- What is in front of a comma, from the place where a text that is read backwards has come to. -/
def behindComma (r : Bytes) : Option Bytes :=
  if (r.dropWhile isspace).head? = some 44 then some ((r.dropWhile isspace).tail.dropWhile isspace) else none

theorem head_escapedBack (c : UInt8) (w t : Bytes) : ∃ r, escapedBack (c :: w) ++ t = c :: r := by
  rw [escapedBack, List.flatMap_cons]
  unfold outputChar
  split_ifs with hquote hslash
  · subst hquote
    exact ⟨_, rfl⟩
  · subst hslash
    exact ⟨_, rfl⟩
  · exact ⟨_, rfl⟩

theorem escapedBack_blank (hc : isspace c = true) (w : Bytes) : escapedBack (c :: w) = c :: escapedBack w := by
  have hplain : c ≠ 34 ∧ c ≠ 92 := by
    refine ⟨?_, ?_⟩
    all_goals
      rintro rfl
      cases hc
  rw [escapedBack, List.flatMap_cons, outputChar, if_neg hplain.1, if_neg hplain.2]
  rfl

/-- Blanks stand in a literal as they are. -/
theorem dropWhile_escapedBack {t : Bytes} (ht : t = c :: r) (hc : isspace c = false) (w : Bytes) :
    (escapedBack w ++ t).dropWhile isspace = escapedBack (w.dropWhile isspace) ++ t := by
  induction w with
  | nil =>
    have hneg : ¬ isspace c = true := by rw [hc]; decide
    rw [escapedBack, List.flatMap_nil, List.nil_append, ht, List.dropWhile_cons_of_neg hneg]
    rfl
  | cons x w ih =>
    by_cases hx : isspace x = true
    · rw [escapedBack_blank hx, List.cons_append, List.dropWhile_cons_of_pos hx, ih, List.dropWhile_cons_of_pos hx]
    · obtain ⟨r', hr'⟩ := head_escapedBack x w t
      rw [hr', List.dropWhile_cons_of_neg hx, List.dropWhile_cons_of_neg hx, hr']

/-- No comma is in front of the placeholder: it stays. -/
theorem lookAhead_noComma (h : behindComma w = none) : lookAhead (escapedBack w ++ 34 :: f) = .ok .other := by
  have hdrop := dropWhile_escapedBack (rfl : 34 :: f = 34 :: f) rfl w
  unfold behindComma at h
  split at h
  · cases h
  · next hhead =>
    cases hw : w.dropWhile isspace with
    | nil =>
      rw [hw] at hdrop
      exact lookAhead_of_ne_comma hdrop (by decide)
    | cons c w' =>
      rw [hw] at hdrop hhead
      obtain ⟨r, hr⟩ := head_escapedBack c w' (34 :: f)
      rw [hr] at hdrop
      exact lookAhead_of_ne_comma hdrop fun hc => hhead (by rw [hc]; rfl)

/-- In front of the placeholder is a comma, and behind what the code goes back to. -/
theorem behindComma_some (h : behindComma w = some r) :
    ∃ w', w.dropWhile isspace = 44 :: w' ∧ w'.dropWhile isspace = r := by
  unfold behindComma at h
  split at h
  · next hhead =>
    cases hw : w.dropWhile isspace with
    | nil =>
      rw [hw] at hhead
      cases hhead
    | cons c w' =>
      rw [hw] at hhead h
      cases hhead
      exact ⟨w', rfl, Option.some.inj h⟩
  · cases h

theorem escapedBack_comma (w : Bytes) : escapedBack (44 :: w) = 44 :: escapedBack w := rfl

/-- A character of the text is in front of the comma, which is no quote: the placeholder stays. -/
theorem lookAhead_noQuote (h : behindComma w = some (c :: r)) (hc : c ≠ 34) :
    lookAhead (escapedBack w ++ 34 :: f) = .ok .other := by
  obtain ⟨w', hw, hw'⟩ := behindComma_some h
  have hdrop := dropWhile_escapedBack (rfl : 34 :: f = 34 :: f) rfl w
  have hdrop' := dropWhile_escapedBack (rfl : 34 :: f = 34 :: f) rfl w'
  obtain ⟨t, ht⟩ := head_escapedBack c r (34 :: f)
  rw [hw, escapedBack_comma, List.cons_append] at hdrop
  rw [hw', ht] at hdrop'
  exact lookAhead_of_ne_quote hdrop (by simp) hdrop' hc

/-- A quote of the text is in front of the comma: the placeholder is taken for the length of a literal. -/
theorem lookAhead_quote (h : behindComma w = some (34 :: r)) (hw0 : (0 : UInt8) ∉ w) :
    ∃ n, lookAhead (escapedBack w ++ 34 :: 32 :: 44 :: f) = .ok (.literal n) := by
  obtain ⟨w', hw, hw'⟩ := behindComma_some h
  have hdrop := dropWhile_escapedBack (rfl : 34 :: 32 :: 44 :: f = 34 :: 32 :: 44 :: f) rfl w
  have hdrop' := dropWhile_escapedBack (rfl : 34 :: 32 :: 44 :: f = 34 :: 32 :: 44 :: f) rfl w'
  rw [hw, escapedBack_comma, List.cons_append] at hdrop
  rw [hw'] at hdrop'
  have hr0 : (0 : UInt8) ∉ r := by
    intro h0
    have h1 : (0 : UInt8) ∈ w'.dropWhile isspace := by
      rw [hw']
      exact List.mem_cons_of_mem _ h0
    have h2 : (0 : UInt8) ∈ w.dropWhile isspace := by
      rw [hw]
      exact List.mem_cons_of_mem _ ((List.dropWhile_sublist _).mem h1)
    exact hw0 ((List.dropWhile_sublist _).mem h2)
  have hback := (backOver_escaped hr0 0 (44 :: f)).2 92 (by decide)
  have hblank : (32 :: 44 :: f).dropWhile isspace = 44 :: f := rfl
  exact ⟨_, lookAhead_of_quote hdrop (by simp) hdrop' (by simp) hback hblank⟩

/-- The literal begins in front of the comma, and what is in front of it decides. -/
theorem lookAhead_open {q q' : Bytes} {n : Nat} (h : behindComma w = some [])
    (hq : backOverLiteral 0 (32 :: 44 :: f) = .ok (n, q)) (hq' : q.dropWhile isspace = c :: q') :
    lookAhead (escapedBack w ++ 34 :: 32 :: 44 :: f) = .ok (if c ≠ 44 then .other else .literal n) := by
  obtain ⟨w', hw, hw'⟩ := behindComma_some h
  have hdrop := dropWhile_escapedBack (rfl : 34 :: 32 :: 44 :: f = 34 :: 32 :: 44 :: f) rfl w
  have hdrop' := dropWhile_escapedBack (rfl : 34 :: 32 :: 44 :: f = 34 :: 32 :: 44 :: f) rfl w'
  rw [hw, escapedBack_comma, List.cons_append] at hdrop
  rw [hw'] at hdrop'
  exact lookAhead_of_quote hdrop (by simp) hdrop' (by simp) hq hq'

/-- The placeholder behind a literal that stands for a text and a line break. -/
theorem lookAhead_literal (hw0 : (0 : UInt8) ∉ w) (f : Bytes) :
    lookAhead (32 :: 44 :: 34 :: 110 :: 92 :: (escapedBack w ++ 34 :: 32 :: 44 :: f)) =
      .ok (.literal (w.length + 1)) := by
  have hback : backOverLiteral 0 (110 :: 92 :: (escapedBack w ++ 34 :: 32 :: 44 :: f)) =
      .ok (w.length + 1, 32 :: 44 :: f) := by
    rw [backOverLiteral, if_neg (by decide), if_pos rfl, (backOver_escaped hw0 1 (44 :: f)).1, Nat.add_comm]
  exact lookAhead_of_quote rfl (by simp) rfl (by simp) hback rfl

/-! ## In front of a literal -/

/-- Every quote has a backslash in front of it, in a text that is read backwards. -/
def Slashed (y : Bytes) : Prop := ∀ a b, y = a ++ 34 :: b → b.head? = some 92

theorem slashed_of_not_mem (h : (34 : UInt8) ∉ y) : Slashed y := by
  rintro a b rfl
  exact absurd (List.mem_append_right a List.mem_cons_self) h

theorem Slashed.of_append (h : Slashed (a ++ y)) : Slashed y := by
  intro u v hy
  exact h (a ++ u) v (by rw [hy, List.append_assoc])

/-- Two texts are put together where no quote is in front of the second one. -/
theorem Slashed.append {z : Bytes} (hy : Slashed y) (hz : Slashed z) : Slashed (y ++ z) := by
  intro a b h
  obtain ⟨r, hr, hv⟩ | ⟨r, hr, hv⟩ := List.append_eq_append_iff.mp h
  · exact hz r b hv
  · cases r with
    | nil => exact hz [] b hv.symm
    | cons c r =>
      rw [List.cons_append, List.cons.injEq] at hv
      obtain ⟨rfl, hv⟩ := hv
      have hhead := hy a r hr
      cases r with
      | nil => cases hhead
      | cons d r =>
        rw [hv]
        exact hhead

/-- A text has a last quote without a backslash in front of it, or none. -/
theorem slashed_or_quote (w : Bytes) : Slashed w ∨ ∃ y x, w = y ++ 34 :: x ∧ Slashed y ∧ x.head? ≠ some 92 := by
  induction w with
  | nil => exact .inl (slashed_of_not_mem (by simp))
  | cons c w ih =>
    by_cases hc : c = 34 ∧ w.head? ≠ some 92
    · exact .inr ⟨[], w, by rw [hc.1, List.nil_append], slashed_of_not_mem (by simp), hc.2⟩
    · -- the character is no quote, or a backslash is in front of it
      have hcons : ∀ y t, w = y ++ t → t.head? ≠ some 92 → Slashed y → Slashed (c :: y) := by
        intro y t hw ht hy a b h
        cases a with
        | nil =>
          rw [List.nil_append, List.cons.injEq] at h
          obtain ⟨hq, rfl⟩ := h
          have hhead : w.head? = some 92 := not_not.mp (not_and.mp hc hq)
          cases y with
          | nil =>
            rw [hw] at hhead
            exact absurd hhead ht
          | cons d y =>
            rw [hw] at hhead
            exact hhead
        | cons d a =>
          rw [List.cons_append, List.cons.injEq] at h
          exact hy a b h.2
      obtain hw | ⟨y, x, hw, hy, hx⟩ := ih
      · refine .inl (hcons w [] (by rw [List.append_nil]) (by simp) hw)
      · exact .inr ⟨c :: y, x, by rw [hw, List.cons_append], hcons y _ hw (by simp) hy, hx⟩

/-- The loop over a literal ends at a quote that has no backslash in front of it, and at no other one. -/
theorem backOver_stops {d : UInt8} (hy : Slashed y) (hy0 : (0 : UInt8) ∉ y) (hd : d ≠ 0 ∧ d ≠ 92) (k : Nat) :
    ∃ n, backOverLiteral k (y ++ 34 :: d :: r) = .ok (n, d :: r) := by
  induction hlen : y.length using Nat.strong_induction_on generalizing y k with
  | _ l ih =>
    subst hlen
    cases y with
    | nil => exact ⟨k, by rw [List.nil_append, backOverLiteral, if_neg hd.1, if_neg hd.2, if_pos rfl]⟩
    | cons c y =>
      have hy0' : (0 : UInt8) ∉ y := fun h => hy0 (List.mem_cons_of_mem _ h)
      have hy' : Slashed y := Slashed.of_append (a := [c]) hy
      cases y with
      | nil =>
        have hc : c ≠ 34 := by
          rintro rfl
          cases hy [] [] rfl
        rw [List.cons_append, List.nil_append, backOverLiteral, if_neg (by decide), if_neg (by decide), if_neg hc]
        exact @ih 0 (by simp) [] (slashed_of_not_mem (by simp)) (by simp) (k + 1) rfl
      | cons e y =>
        have he : e ≠ 0 := fun he => hy0' (he ▸ List.mem_cons_self)
        rw [List.cons_append, List.cons_append, backOverLiteral, if_neg he]
        by_cases hslash : e = 92
        · rw [if_pos hslash]
          exact ih y.length (by simp only [List.length_cons]; omega) (Slashed.of_append (a := [e]) hy')
            (fun h => hy0' (List.mem_cons_of_mem _ h)) (k + 1) rfl
        · have hc : c ≠ 34 := by
            rintro rfl
            exact hslash (Option.some.inj (hy [] (e :: y) rfl))
          rw [if_neg hslash, if_neg hc]
          exact ih (e :: y).length (by simp only [List.length_cons]; omega) hy' hy0' (k + 1) rfl

theorem dropWhile_append_cons {x : UInt8} (hx : isspace x = false) (w b : Bytes) :
    (w ++ x :: b).dropWhile isspace = w.dropWhile isspace ++ x :: b := by
  have hneg : ¬ isspace x = true := by rw [hx]; decide
  induction w with
  | nil => rw [List.nil_append, List.dropWhile_cons_of_neg hneg, List.dropWhile_nil, List.nil_append]
  | cons c w ih =>
    by_cases hc : isspace c = true
    · rw [List.cons_append, List.dropWhile_cons_of_pos hc, ih, List.dropWhile_cons_of_pos hc]
    · rw [List.cons_append, List.dropWhile_cons_of_neg hc, List.dropWhile_cons_of_neg hc, List.cons_append]

/-- A placeholder behind text stays, unless there is a comma and a quote in front of it. -/
theorem lookAhead_text {b : Bytes} {x : UInt8} (hx : isspace x = false ∧ x ≠ 44 ∧ x ≠ 34)
    (h : ∀ r, behindComma w = some r → r.head? ≠ some 34) : lookAhead (w ++ x :: b) = .ok .other := by
  have hdrop := dropWhile_append_cons hx.1 w b
  cases hw : w.dropWhile isspace with
  | nil =>
    rw [hw] at hdrop
    exact lookAhead_of_ne_comma hdrop hx.2.1
  | cons c w' =>
    rw [hw] at hdrop
    by_cases hc : c = 44
    · subst hc
      have hdrop' := dropWhile_append_cons hx.1 w' b
      have hbehind : behindComma w = some (w'.dropWhile isspace) := by
        rw [behindComma, hw, List.head?_cons, if_pos rfl, List.tail_cons]
      have hhead := h _ hbehind
      cases hw' : w'.dropWhile isspace with
      | nil =>
        rw [hw'] at hdrop'
        exact lookAhead_of_ne_quote hdrop (by simp) hdrop' hx.2.2
      | cons c' r =>
        rw [hw'] at hdrop' hhead
        exact lookAhead_of_ne_quote hdrop (by simp) hdrop' fun hc' => hhead (by rw [hc', List.head?_cons])
    · exact lookAhead_of_ne_comma hdrop hc

theorem mem_of_behindComma (h : behindComma w = some r) (hc : c ∈ r) : c ∈ w := by
  obtain ⟨w', hw, rfl⟩ := behindComma_some h
  have hw' : c ∈ w.dropWhile isspace := by
    rw [hw]
    exact List.mem_cons_of_mem _ ((List.dropWhile_sublist _).mem hc)
  exact (List.dropWhile_sublist _).mem hw'

end RimStone
