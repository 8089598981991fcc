import RimStone.Laws.Source.Emission
import RimStone.Laws.Source.Placeholder
import RimStone.Lib.CLiteral

/-!
# The lengths of output lines

An output line becomes a call whose literal stands for the text and a line break. In front of a placeholder in the call
the code is looked at backwards. The one behind the literal comes out right, whatever the text: the loop counts the
characters of the literal. But a text may have placeholders too. There `convert_puts` finds the beginning of the text,
and with a comma and a quote in front of it a length is written into the literal. So it is where the text begins with
a comma and the placeholder: the quote is then the one that opens the literal, and the loop goes back over the comment,
where without a directive it may end at a quote of the same text (`Misread`).

Line by line the code is kept up to the length (`convertLoop_line`), where no placeholder of the text is misread, and
then the code behind it is `Settled`: going back the loop over a literal ends at the last quote of the line before.
-/

namespace RimStone

open Lib

/-! ## What a text may look like -/

/-- In front of the last quote of the text that has no backslash in front of it, there is a comma. -/
def CommaQuote (text : Bytes) : Prop :=
  ∃ y x, text.reverse = y ++ 34 :: x ∧ Slashed y ∧ (x.dropWhile isspace).head? = some 44

/-- A placeholder in the text has a comma in front of it, and what looks like the end of a literal in front of that: a
quote of the text, or the one that opens the literal. -/
def OutputLine.Misread (g : GenFile) (l : OutputLine) : Prop :=
  ∃ u v r, l.text = u ++ (RIM_EMPTY_LONG_PLAIN_ZERO ++ v) ∧ behindComma u.reverse = some r ∧
    (r.head? = some 34 ∨ r = [] ∧ g.noRimLine = true ∧ CommaQuote l.text)

structure OutputLine.Source (l : OutputLine) : Prop where
  numbered : 0 < l.lnum
  marked : l.mark = 64 ∨ l.mark = 33
  noNull : (0 : UInt8) ∉ l.text
  noBreak : (10 : UInt8) ∉ l.text
  fits : l.text.length < RIM_FILE_LINE_LEN

structure GenFile.Named (g : GenFile) : Prop where
  path : ∃ p, g.path = 47 :: (p ++ ascii ".rim") ∧ (34 : UInt8) ∉ p ∧ (10 : UInt8) ∉ p
  base : (34 : UInt8) ∉ g.base ∧ (10 : UInt8) ∉ g.base

/-- The number of bytes of a literal, as it is written over a placeholder. -/
def measured (lit : Bytes) : Bytes := lengthText ((CLiteral.bytes (34 :: (lit ++ [34]))).getD []).length

/-! ## The literal -/

theorem ends_escaped {text : Bytes} (h : (10 : UInt8) ∉ text) (t : Bytes) :
    CLiteral.ends .inside (text.flatMap outputChar ++ t) = (CLiteral.ends .inside t).map (text ++ ·) := by
  induction text with
  | nil => simp
  | cons c text ih =>
    have hc : c ≠ 10 := fun hc => h (hc ▸ List.mem_cons_self)
    have hchar : CLiteral.run .inside (outputChar c) = some ([c], .inside) := by
      unfold outputChar
      split_ifs with hquote hslash
      · subst hquote
        decide
      · subst hslash
        decide
      · have hstep : CLiteral.step .inside c = some ([c], .inside) := by
          rw [CLiteral.step, CLiteral.within, if_neg hquote, if_neg hslash, if_neg hc]
        rw [CLiteral.run_cons hstep]
        rfl
    rw [List.flatMap_cons, List.append_assoc, CLiteral.ends_append hchar, ih fun hm => h (List.mem_cons_of_mem _ hm)]
    cases CLiteral.ends .inside t with
    | none => rfl
    | some out => rfl

/-- The literal of an output line is the line with a line break. -/
theorem bytes_literalText {text : Bytes} (h : (10 : UInt8) ∉ text) :
    CLiteral.bytes (34 :: (literalText text ++ [34])) = some (text ++ [10]) := by
  have hopen : CLiteral.step .start 34 = some ([], .inside) := by decide
  have hclose : CLiteral.ends .inside (ascii "\\n" ++ [34]) = some [10] := by
    rw [ascii_break]
    decide
  rw [CLiteral.bytes, CLiteral.ends_cons hopen, literalText, List.append_assoc, ends_escaped h, hclose]
  rfl

theorem measured_literalText {text : Bytes} (h : (10 : UInt8) ∉ text) :
    measured (literalText text) = lengthText (text.length + 1) := by
  rw [measured, bytes_literalText h, Option.getD_some, List.length_append, List.length_singleton]

theorem OutputLine.Source.length_lt {l : OutputLine} (h : l.Source) : l.text.length + 1 < 10 ^ 25 := by
  have hfits := h.fits
  rw [RIM_FILE_LINE_LEN] at hfits
  omega

/-! ## Calls without text -/

theorem putsNothing_quotes : [34, 34] <:+: putsNothing := by
  refine ⟨putsOpen.dropLast, 44 :: 32 :: (RIM_EMPTY_LONG_PLAIN_ZERO ++ putsEnd), ?_⟩
  rw [putsNothing, putsOpen_eq, putsClose_eq]
  simp

theorem putsNothing_ne_nil : putsNothing ≠ [] := by
  intro hnil
  have hsome := putsNothing_head
  rw [hnil] at hsome
  cases hsome

theorem not_nothing {s : Bytes} (h : single 34 s = s) : ¬ putsNothing <:+: s :=
  fun hs => not_infix_of_single h (putsNothing_quotes.trans hs)

/-- A line that ends with something in quotes. -/
theorem single_quoted {a m : Bytes} (ha : (34 : UInt8) ∉ a) (hm : (34 : UInt8) ∉ m) (hne : m ≠ []) :
    single 34 (a ++ 34 :: (m ++ [34])) = a ++ 34 :: (m ++ [34]) := by
  obtain ⟨c, m, rfl⟩ := List.exists_cons_of_ne_nil hne
  have hc : c ≠ 34 := fun hc => hm (hc ▸ List.mem_cons_self)
  rw [single_append_of_not_mem ha, List.cons_append, single_sep_of_ne hc,
    single_append_of_not_mem fun h => hm (List.mem_cons_of_mem _ h)]
  rfl

theorem escaped_head (text : Bytes) {t : Bytes} (ht : t.head? ≠ some 34) :
    (text.flatMap outputChar ++ t).head? ≠ some 34 := by
  cases text with
  | nil => exact ht
  | cons c text =>
    rw [List.flatMap_cons]
    unfold outputChar
    split_ifs with hquote hslash
    · simp
    · simp
    · simpa using hquote

/-- Between the quotes of a literal there are no quotes in a row. -/
theorem single_escaped (text : Bytes) {t : Bytes} (ht : t.head? ≠ some 34) :
    single 34 (text.flatMap outputChar ++ t) = text.flatMap outputChar ++ single 34 t := by
  induction text with
  | nil => rfl
  | cons c text ih =>
    have hhead := escaped_head text ht
    rw [List.flatMap_cons, List.append_assoc, List.append_assoc, ← ih, outputChar]
    split_ifs with hquote hslash
    · have hone : single 34 (34 :: (text.flatMap outputChar ++ t)) = 34 :: single 34 (text.flatMap outputChar ++ t) := by
        rw [single, if_neg fun h => hhead h.2]
      rw [List.cons_append, List.cons_append, List.nil_append, single_cons_of_ne (by decide), hone]
      rfl
    · rw [List.cons_append, List.cons_append, List.nil_append, single_cons_of_ne (by decide),
      single_cons_of_ne (by decide)]
      rfl
    · rw [List.cons_append, List.nil_append, single_cons_of_ne hquote]
      rfl

def holder : Bytes → Bytes := fun _ => RIM_EMPTY_LONG_PLAIN_ZERO

theorem single_call (l : OutputLine) : single 34 (l.call holder) = l.call holder := by
  obtain ⟨front, hopen, hfront⟩ : ∃ f, putsOpen = f ++ [34] ∧ (34 : UInt8) ∉ f :=
    ⟨putsOpen.dropLast, by simp [putsOpen_eq], by simp [putsOpen_eq]⟩
  obtain ⟨rest, hrest⟩ : ∃ r, r = 44 :: 32 :: (RIM_EMPTY_LONG_PLAIN_ZERO ++ putsEnd) := ⟨_, rfl⟩
  have hquote : (34 : UInt8) ∉ rest := by
    simp only [hrest, List.mem_cons, List.mem_append, not_or]
    exact ⟨by decide, by decide, not_mem_mark (by decide), by simp [putsEnd_eq]⟩
  have hcall : l.call holder = front ++ 34 :: (l.text.flatMap outputChar ++ 92 :: 110 :: 34 :: rest) := by
    rw [OutputLine.call, putsRest, literalText, holder, hopen, putsClose_eq, ascii_break, hrest]
    simp
  have hafter : single 34 (34 :: rest) = 34 :: rest := by
    have hplain := single_append_of_not_mem hquote []
    rw [List.append_nil] at hplain
    rw [single, if_neg fun h => hquote (List.mem_of_mem_head? h.2), hplain]
    simp [single]
  have hone : single 34 (34 :: (l.text.flatMap outputChar ++ 92 :: 110 :: 34 :: rest)) =
      34 :: single 34 (l.text.flatMap outputChar ++ 92 :: 110 :: 34 :: rest) := by
    rw [single, if_neg fun h => escaped_head l.text (by simp) h.2]
  rw [hcall, single_append_of_not_mem hfront, hone, single_escaped _ (by simp), single_cons_of_ne (by decide),
    single_cons_of_ne (by decide), hafter]

theorem GenFile.directive_eq (g : GenFile) {p : Bytes} (hp : g.path = 47 :: (p ++ ascii ".rim")) (lnum : Nat) :
    g.directive lnum = (ascii "#line " ++ ascii (Nat.repr lnum) ++ [32]) ++ 34 ::
      (47 :: (p ++ ascii ".rim") ++ [34]) := by
  rw [GenFile.directive, hp, ascii_quote]
  simp

theorem not_mem_repr {c : UInt8} (hc : isdigit c = false) (n : Nat) : c ∉ ascii (Nat.repr n) := by
  intro hmem
  rw [isdigit_repr hmem] at hc
  cases hc

theorem single_directive {g : GenFile} (hg : g.Named) (lnum : Nat) : single 34 (g.directive lnum) = g.directive lnum := by
  obtain ⟨p, hp, hquote, -⟩ := hg.path
  have hfront : (34 : UInt8) ∉ ascii "#line " ++ ascii (Nat.repr lnum) ++ [32] := by
    simp only [List.mem_append, not_or]
    exact ⟨⟨by simp [ascii_line], not_mem_repr (by decide) lnum⟩, by decide⟩
  have hrim : (34 : UInt8) ∉ ascii ".rim" := by simp [ascii_rim]
  rw [g.directive_eq hp]
  refine single_quoted hfront ?_ (by simp)
  simp only [List.mem_cons, List.mem_append, not_or]
  exact ⟨by decide, hquote, hrim⟩

/-- Only the comment of a line that is misread has a call without text. -/
theorem misread_of_nothing {g : GenFile} {l : OutputLine} (hl : l.Source) (h : putsNothing <:+: l.comment) :
    l.Misread g := by
  have hhead : ∀ {c : UInt8} {s : Bytes}, c ≠ 114 → putsNothing <:+: c :: s → putsNothing <:+: s := by
    intro c s hc hs
    refine (List.infix_cons_iff.mp hs).resolve_left fun hp => ?_
    obtain ⟨t, ht⟩ := hp
    have hsome := congrArg List.head? ht
    rw [List.head?_append_of_ne_nil _ putsNothing_ne_nil, putsNothing_head] at hsome
    exact hc (Option.some.inj hsome).symm
  have hmark : l.mark ≠ 114 := by
    obtain hm | hm := hl.marked
    · rw [hm]; decide
    · rw [hm]; decide
  obtain ⟨u, v, huv⟩ := hhead hmark (hhead (by decide) (hhead (by decide) h))
  refine ⟨u ++ (putsOpen ++ putsClose), putsEnd ++ v, 34 :: (u ++ putsOpen).reverse, ?_, ?_, .inl rfl⟩
  · rw [← huv, putsNothing]
    simp
  · have hback : (u ++ (putsOpen ++ putsClose)).reverse = 32 :: 44 :: 34 :: (u ++ putsOpen).reverse := by
      rw [← List.append_assoc, List.reverse_append, putsClose_eq]
      rfl
    rw [hback]
    rfl

/-! ## In front of the call -/

theorem mem_mark : (82 : UInt8) ∈ RIM_EMPTY_LONG_PLAIN_ZERO := by
  rw [mark_cons]
  exact List.mem_cons_self

theorem not_infix_mark {s : Bytes} (h : (82 : UInt8) ∉ s) : ¬ RIM_EMPTY_LONG_PLAIN_ZERO <:+: s := by
  intro hs
  exact h (hs.subset mem_mark)

/-- A placeholder is in front of what has none of its characters. -/
theorem mark_in_front {s t u v : Bytes} (ht : ∀ c ∈ t, c ∉ RIM_EMPTY_LONG_PLAIN_ZERO)
    (h : s ++ t = u ++ (RIM_EMPTY_LONG_PLAIN_ZERO ++ v)) : ∃ v', s = u ++ (RIM_EMPTY_LONG_PLAIN_ZERO ++ v') := by
  obtain ⟨r, -, hr⟩ | ⟨r, hs, hr⟩ := List.append_eq_append_iff.mp h
  · refine absurd mem_mark (ht 82 ?_)
    rw [hr, mark_append]
    simp
  · obtain ⟨w, hw, -⟩ | ⟨w, hw, hv⟩ := List.append_eq_append_iff.mp hr
    · exact ⟨w, by rw [hs, hw]⟩
    · cases w with
      | nil =>
        rw [List.append_nil] at hw
        exact ⟨[], by rw [hs, hw, List.append_nil]⟩
      | cons c w =>
        refine absurd ?_ (ht c ?_)
        · rw [hw]
          simp
        · rw [hv]
          exact List.mem_cons_self

theorem endsOutside_append {a : Bytes} {c : UInt8} (hc : c ∉ RIM_EMPTY_LONG_PLAIN_ZERO) : EndsOutside (a ++ [c]) := by
  intro d hd
  rw [List.getLast?_append_of_ne_nil _ (by simp)] at hd
  cases hd
  exact hc

theorem break_not_mem : (10 : UInt8) ∉ RIM_EMPTY_LONG_PLAIN_ZERO := not_mem_mark (by decide)

/-- A line that ends with a text within quotes, which begins behind some other character. -/
theorem unread_between {a p : Bytes} {x : UInt8} (ha : (82 : UInt8) ∉ a) (hp : (34 : UInt8) ∉ p)
    (hx : isspace x = false ∧ x ≠ 44 ∧ x ≠ 34) (hmark : x ∉ RIM_EMPTY_LONG_PLAIN_ZERO) (behind : Bytes) :
    Unread behind (a ++ x :: (p ++ [34]) ++ [10]) := by
  have hline : a ++ x :: (p ++ [34]) ++ [10] = (a ++ [x]) ++ (p ++ [34, 10]) := by simp
  have hfront : (82 : UInt8) ∉ a ++ [x] := by
    rw [List.mem_append, not_or]
    refine ⟨ha, fun h => ?_⟩
    rw [List.mem_singleton] at h
    exact hmark (h ▸ mem_mark)
  rw [hline, unread_append (endsOutside_append hmark)]
  refine ⟨unread_of_absent (not_infix_mark hfront) behind, fun u v h => ?_⟩
  have hlast : ∀ c ∈ [(34 : UInt8), 10], c ∉ RIM_EMPTY_LONG_PLAIN_ZERO := by
    intro c hc
    rw [List.mem_cons, List.mem_singleton] at hc
    rcases hc with rfl | rfl
    · exact not_mem_mark (by decide)
    · exact break_not_mem
  obtain ⟨v', rfl⟩ := mark_in_front hlast h
  rw [List.reverse_append, List.append_assoc]
  refine lookAhead_text hx fun r hr hquote => hp ?_
  exact List.mem_append_left _ (List.mem_reverse.mp (mem_of_behindComma hr (List.mem_of_mem_head? hquote)))

theorem unread_directive {g : GenFile} (hg : g.Named) (lnum : Nat) (behind : Bytes) :
    Unread behind (g.directive lnum ++ [10]) := by
  obtain ⟨p, hp, hquote, -⟩ := hg.path
  have hline : g.directive lnum = ascii "#line " ++ ascii (Nat.repr lnum) ++ [32, 34] ++ 47 ::
    ((p ++ ascii ".rim") ++ [34]) := by
    rw [g.directive_eq hp]
    simp
  have hfront : (82 : UInt8) ∉ ascii "#line " ++ ascii (Nat.repr lnum) ++ [32, 34] := by
    simp only [List.mem_append, not_or]
    exact ⟨⟨by simp [ascii_line], not_mem_repr (by decide) lnum⟩, by decide⟩
  have hrim : (34 : UInt8) ∉ ascii ".rim" := by simp [ascii_rim]
  rw [hline]
  exact unread_between hfront (by rw [List.mem_append, not_or]; exact ⟨hquote, hrim⟩) (by decide)
    (not_mem_mark (by decide)) behind

theorem OutputLine.Source.mark_plain {l : OutputLine} (hl : l.Source) :
    (isspace l.mark = false ∧ l.mark ≠ 44 ∧ l.mark ≠ 34) ∧ l.mark ≠ 0 ∧ l.mark ≠ 92 ∧
      l.mark ∉ RIM_EMPTY_LONG_PLAIN_ZERO := by
  obtain hm | hm := hl.marked
  · rw [hm]
    exact ⟨by decide, by decide, by decide, not_mem_mark (by decide)⟩
  · rw [hm]
    exact ⟨by decide, by decide, by decide, not_mem_mark (by decide)⟩

/-- The comment of a line, where no placeholder has a quote and a comma in front of it. -/
theorem unread_comment {l : OutputLine} (hl : l.Source)
    (h : ∀ u v r, l.text = u ++ (RIM_EMPTY_LONG_PLAIN_ZERO ++ v) → behindComma u.reverse = some r → r.head? ≠ some 34)
    (behind : Bytes) : Unread behind (l.comment ++ [10]) := by
  obtain ⟨hplain, -, -, hmark⟩ := hl.mark_plain
  have hline : l.comment ++ [10] = ([47, 47] ++ [l.mark]) ++ (l.text ++ [10]) := by
    rw [OutputLine.comment]
    simp
  have hfront : (82 : UInt8) ∉ [47, 47] ++ [l.mark] := by
    rw [List.mem_append, not_or]
    refine ⟨by decide, fun hm => ?_⟩
    rw [List.mem_singleton] at hm
    exact hmark (hm ▸ mem_mark)
  rw [hline, unread_append (endsOutside_append hmark)]
  refine ⟨unread_of_absent (not_infix_mark hfront) behind, fun u v hu => ?_⟩
  have hbreak : ∀ c ∈ [(10 : UInt8)], c ∉ RIM_EMPTY_LONG_PLAIN_ZERO := by
    intro c hc
    rw [List.mem_singleton] at hc
    exact hc ▸ break_not_mem
  obtain ⟨v', htext⟩ := mark_in_front hbreak hu
  rw [List.reverse_append, List.append_assoc]
  exact lookAhead_text hplain fun r => h u v' r htext

theorem endsOutside_unlines (lines : List Bytes) : EndsOutside (unlines 10 lines) := by
  induction lines with
  | nil => nofun
  | cons line lines ih =>
    cases lines with
    | nil =>
      rw [unlines_cons, unlines_nil]
      exact endsOutside_append break_not_mem
    | cons line' lines =>
      intro c hc
      have hne : unlines 10 (line' :: lines) ≠ [] := by simp
      rw [unlines_cons, List.append_cons, List.getLast?_append_of_ne_nil _ hne] at hc
      exact ih c hc

theorem unread_unlines {lines : List Bytes} (h : ∀ line ∈ lines, ∀ behind, Unread behind (line ++ [10]))
    (behind : Bytes) :
    Unread behind (unlines 10 lines) := by
  induction lines generalizing behind with
  | nil => exact unread_nil behind
  | cons line lines ih =>
    obtain ⟨hline, hlines⟩ := List.forall_mem_cons.mp h
    have hsplit : unlines 10 (line :: lines) = (line ++ [10]) ++ unlines 10 lines := by simp
    rw [hsplit, unread_append (endsOutside_append break_not_mem)]
    exact ⟨hline behind, ih hlines _⟩

/-! ## The call -/

/-- What is in front of an output line: from there back, the loop over a literal ends at a quote that follows no
comma. -/
structure Settled (behind : Bytes) : Prop where
  begins : behind.getLast? = some 35
  ends : ∃ y d q, behind = y ++ 34 :: d :: q ∧ Slashed y ∧ (0 : UInt8) ∉ y ∧ (d ≠ 0 ∧ d ≠ 92) ∧ isspace d = false ∧ d ≠ 44

/-- The lines in front of the call, as they are written out. -/
def GenFile.shown (g : GenFile) (l : OutputLine) : List Bytes := (g.front l).filter (· ≠ [])

def callFront (text : Bytes) : Bytes := putsOpen ++ (text.flatMap outputChar ++ 92 :: 110 :: putsClose)

theorem putsOpen_back : ∃ f, putsOpen.reverse = 34 :: 32 :: 44 :: f ∧ (34 : UInt8) ∉ 32 :: 44 :: f ∧
    (0 : UInt8) ∉ 32 :: 44 :: f :=
  ⟨putsOpen.reverse.drop 3, by simp [putsOpen_eq], by simp [putsOpen_eq], by simp [putsOpen_eq]⟩

/-- The placeholders of the text, within the call. -/
theorem unread_callFront {text behind : Bytes} : Unread behind (callFront text) ↔
    ∀ u v, text = u ++ (RIM_EMPTY_LONG_PLAIN_ZERO ++ v) →
      lookAhead (escapedBack u.reverse ++ (putsOpen.reverse ++ behind)) = .ok .other := by
  have hopen : ¬ RIM_EMPTY_LONG_PLAIN_ZERO <:+: putsOpen := by
    intro h
    have hlen := h.length_le
    rw [mark_length, putsOpen_eq] at hlen
    simp at hlen
  have hclose : (82 : UInt8) ∉ 92 :: 110 :: putsClose := by simp [putsClose_eq]
  have hends : EndsOutside putsOpen := by
    intro c hc
    obtain ⟨f, hf, -, -⟩ := putsOpen_back
    rw [List.getLast?_eq_head?_reverse, hf] at hc
    cases hc
    exact not_mem_mark (by decide)
  rw [callFront, unread_append hends, unread_escaped (not_infix_mark hclose)]
  exact ⟨fun h => h.2, fun h => ⟨unread_of_absent hopen behind, h⟩⟩

/-- The literal begins in front of the comma: the loop ends at the last quote that has no backslash in front of it. -/
theorem lookAhead_stops {w b y q q' : Bytes} {c d : UInt8} (hw : behindComma w = some []) (hb : b = y ++ 34 :: d :: q)
    (hy : Slashed y) (hy0 : (0 : UInt8) ∉ y) (hd : d ≠ 0 ∧ d ≠ 92) (hq : (d :: q).dropWhile isspace = c :: q') :
    ∃ n, lookAhead (escapedBack w ++ (putsOpen.reverse ++ b)) = .ok (if c ≠ 44 then .other else .literal n) := by
  obtain ⟨f, hf, hquote, hnull⟩ := putsOpen_back
  have hfront : Slashed ((32 :: 44 :: f) ++ y) := (slashed_of_not_mem hquote).append hy
  have hfront0 : (0 : UInt8) ∉ (32 :: 44 :: f) ++ y := by
    rw [List.mem_append, not_or]
    exact ⟨hnull, hy0⟩
  obtain ⟨n, hn⟩ := backOver_stops (r := q) hfront hfront0 hd 0
  have hcode : 32 :: 44 :: (f ++ b) = (32 :: 44 :: f) ++ y ++ 34 :: d :: q := by
    rw [hb]
    simp
  rw [← hcode] at hn
  refine ⟨n, ?_⟩
  rw [hf]
  exact lookAhead_open hw hn hq

theorem OutputLine.Source.emit {g : GenFile} {l : OutputLine} (hl : l.Source) : g.emitLine l.lnum = !g.noRimLine := by
  rw [GenFile.emitLine, decide_eq_true hl.numbered, Bool.and_true]

theorem directive_ne_nil (g : GenFile) (lnum : Nat) : g.directive lnum ≠ [] := by
  rw [GenFile.directive]
  simp

theorem mem_directives {g : GenFile} {lnum : Nat} {line : Bytes} (h : line ∈ g.directives lnum) :
    line = g.directive lnum := by
  rw [GenFile.directives] at h
  split at h
  · exact List.mem_singleton.mp h
  · cases h

/-- The lines in front of the call are directives and the comment, and lines with nothing on them. -/
theorem mem_front {g : GenFile} {l : OutputLine} {line : Bytes} (h : line ∈ g.front l) :
    line = [] ∨ line = g.directive l.lnum ∨ line = l.comment := by
  rw [GenFile.front] at h
  rcases List.mem_append.mp h with h | h
  · exact .inr (.inl (mem_directives h))
  · rcases List.mem_cons.mp h with rfl | h
    · exact .inr (.inr rfl)
    · rcases List.mem_append.mp h with h | h
      · split at h
        · rcases List.mem_append.mp h with h | h
          · exact .inr (.inl (mem_directives h))
          · exact .inl (List.mem_singleton.mp h)
        · cases h
      · exact .inr (.inl (mem_directives h))

theorem mem_shown {g : GenFile} {l : OutputLine} {line : Bytes} (h : line ∈ g.shown l) :
    line = g.directive l.lnum ∨ line = l.comment := by
  rw [GenFile.shown, List.mem_filter] at h
  refine (mem_front h.1).resolve_left fun hnil => ?_
  rw [hnil] at h
  simp at h

theorem mem_linesOf {g : GenFile} {place : Bytes → Bytes} {l : OutputLine} {line : Bytes} (h : line ∈ g.linesOf place l) :
    line = [] ∨ line = g.directive l.lnum ∨ line = l.comment ∨ line = l.call place := by
  rw [GenFile.linesOf] at h
  rcases List.mem_append.mp h with h | h
  · split at h
    · exact .inl (List.mem_singleton.mp h)
    · cases h
  · rcases List.mem_append.mp h with h | h
    · rcases mem_front h with h | h | h
      · exact .inl h
      · exact .inr (.inl h)
      · exact .inr (.inr (.inl h))
    · exact .inr (.inr (.inr (List.mem_singleton.mp h)))

/-- In front of the call there is a directive. -/
theorem shown_directive {g : GenFile} (hg : g.Named) {l : OutputLine} (h : g.emitLine l.lnum = true) :
    ∃ b, (unlines 10 (g.shown l)).reverse = 10 :: 34 :: 109 :: b := by
  obtain ⟨p, hp, -, -⟩ := hg.path
  have hlast : ∃ ls, g.shown l = ls ++ [g.directive l.lnum] := by
    have hkeep : [g.directive l.lnum].filter (· ≠ []) = [g.directive l.lnum] := by simp [directive_ne_nil]
    rw [GenFile.shown, GenFile.front, GenFile.directives, if_pos h, ← List.cons_append, ← List.append_assoc,
      List.filter_append,
      hkeep]
    exact ⟨_, rfl⟩
  obtain ⟨ls, hls⟩ := hlast
  refine ⟨(unlines 10 ls ++ (ascii "#line " ++ ascii (Nat.repr l.lnum) ++ [32]) ++ 34 :: 47 ::
    (p ++ [46, 114, 105])).reverse, ?_⟩
  rw [hls, g.directive_eq hp, ascii_rim]
  simp

/-- There is only the comment in front of the call. -/
theorem shown_comment {g : GenFile} {l : OutputLine} (h : g.emitLine l.lnum = false) (htext : l.text ≠ []) :
    g.shown l = [l.comment] := by
  have hoff : ¬ g.emitLine l.lnum = true := by rw [h]; decide
  rw [GenFile.shown, GenFile.front, GenFile.directives, if_neg hoff, if_neg htext]
  simp [OutputLine.comment]

theorem dropWhile_of_head {c : UInt8} {q : Bytes} (h : isspace c = false) : (c :: q).dropWhile isspace = c :: q := by
  have hneg : ¬ isspace c = true := by rw [h]; decide
  exact List.dropWhile_cons_of_neg hneg

/-- A text with a quote behind a comma, in a comment that no directive follows: the loop ends there. -/
theorem lookAhead_commaQuote {l : OutputLine} (hl : l.Source) (h : CommaQuote l.text) {w : Bytes}
    (hw : behindComma w = some [])
    (behind : Bytes) :
    ∃ n, lookAhead (escapedBack w ++ (putsOpen.reverse ++ ((l.comment ++ [10]).reverse ++ behind))) =
      .ok (.literal n) := by
  obtain ⟨y, x, htext, hy, hcomma⟩ := h
  have hnull : (0 : UInt8) ∉ y ++ 34 :: x := by
    rw [← htext, List.mem_reverse]
    exact hl.noNull
  rw [List.mem_append, not_or] at hnull
  cases x with
  | nil => cases hcomma
  | cons d x =>
    have hd : d ≠ 0 ∧ d ≠ 92 := by
      refine ⟨?_, ?_⟩
      · rintro rfl
        exact hnull.2 (by simp)
      · rintro rfl
        cases hcomma
    obtain ⟨t, ht⟩ : ∃ t, (d :: x).dropWhile isspace = 44 :: t := by
      cases hdrop : (d :: x).dropWhile isspace with
      | nil =>
        rw [hdrop] at hcomma
        cases hcomma
      | cons c t =>
        rw [hdrop] at hcomma
        cases hcomma
        exact ⟨t, rfl⟩
    have hb : (l.comment ++ [10]).reverse ++ behind = (10 :: y) ++ 34 :: d :: (x ++ l.mark :: 47 :: 47 :: behind) := by
      rw [OutputLine.comment]
      simp [htext]
    have hbreak : Slashed (10 :: y) := (slashed_of_not_mem (y := [10]) (by decide)).append hy
    have hq : (d :: (x ++ l.mark :: 47 :: 47 :: behind)).dropWhile isspace =
      44 :: (t ++ l.mark :: 47 :: 47 :: behind) := by
      have hdrop := dropWhile_append_cons hl.mark_plain.1.1 (d :: x) (47 :: 47 :: behind)
      rw [ht] at hdrop
      exact hdrop
    obtain ⟨n, hn⟩ := lookAhead_stops hw hb hbreak (by simpa using hnull.1) hd hq
    exact ⟨n, hn⟩

/-- Otherwise it ends at a quote that no comma is in front of. -/
theorem lookAhead_noCommaQuote {l : OutputLine} (hl : l.Source) (h : ¬ CommaQuote l.text) {w behind : Bytes}
    (hw : behindComma w = some []) (hb : Settled behind) :
    lookAhead (escapedBack w ++ (putsOpen.reverse ++ ((l.comment ++ [10]).reverse ++ behind))) = .ok .other := by
  obtain ⟨hplain, hmark0, hmark92, -⟩ := hl.mark_plain
  have hnull : (0 : UInt8) ∉ l.text.reverse := by
    rw [List.mem_reverse]
    exact hl.noNull
  have hcomment : (l.comment ++ [10]).reverse ++ behind = 10 :: (l.text.reverse ++ l.mark :: 47 :: 47 :: behind) := by
    rw [OutputLine.comment]
    simp
  have hbreak : Slashed [10] := slashed_of_not_mem (by decide)
  rw [hcomment]
  obtain hslashed | ⟨y, x, htext, hy, hx⟩ := slashed_or_quote l.text.reverse
  · -- every quote of the comment has a backslash in front of it
    obtain ⟨y, d, q, hbehind, hy, hy0, hd, hblank, hcomma⟩ := hb.ends
    have hfront : Slashed ([10] ++ (l.text.reverse ++ ([l.mark, 47, 47] ++ y))) := by
      have hmarks : Slashed [l.mark, 47, 47] := slashed_of_not_mem (by simp [hplain.2.2.symm])
      exact hbreak.append (hslashed.append (hmarks.append hy))
    have hfront0 : (0 : UInt8) ∉ [10] ++ (l.text.reverse ++ ([l.mark, 47, 47] ++ y)) := by
      simp only [List.mem_append, List.mem_cons, not_or]
      exact ⟨by decide, hnull, ⟨hmark0.symm, by decide⟩, hy0⟩
    have hcode : 10 :: (l.text.reverse ++ l.mark :: 47 :: 47 :: behind) =
        ([10] ++ (l.text.reverse ++ ([l.mark, 47, 47] ++ y))) ++ 34 :: d :: q := by
      rw [hbehind]
      simp
    obtain ⟨n, hn⟩ := lookAhead_stops hw hcode hfront hfront0 hd (dropWhile_of_head hblank)
    rw [if_pos hcomma] at hn
    exact hn
  · have hnull' : (0 : UInt8) ∉ y ++ 34 :: x := htext ▸ hnull
    rw [List.mem_append, not_or] at hnull'
    have hfront0 : (0 : UInt8) ∉ 10 :: y := by simpa using hnull'.1
    have hfront : Slashed (10 :: y) := hbreak.append hy
    cases x with
    | nil =>
      -- the quote is the first character of the text
      have hcode : 10 :: (l.text.reverse ++ l.mark :: 47 :: 47 :: behind) =
        (10 :: y) ++ 34 :: l.mark :: (47 :: 47 :: behind) := by
        rw [htext]
        simp
      obtain ⟨n, hn⟩ := lookAhead_stops hw hcode hfront hfront0 ⟨hmark0, hmark92⟩ (dropWhile_of_head hplain.1)
      rw [if_pos hplain.2.1] at hn
      exact hn
    | cons d x =>
      have hd : d ≠ 0 ∧ d ≠ 92 := by
        refine ⟨?_, ?_⟩
        · rintro rfl
          exact hnull'.2 (by simp)
        · rintro rfl
          exact hx rfl
      have hcode : 10 :: (l.text.reverse ++ l.mark :: 47 :: 47 :: behind) =
          (10 :: y) ++ 34 :: d :: (x ++ l.mark :: 47 :: 47 :: behind) := by
        rw [htext]
        simp
      have hdrop := dropWhile_append_cons hplain.1 (d :: x) (47 :: 47 :: behind)
      cases hfirst : (d :: x).dropWhile isspace with
      | nil =>
        rw [hfirst] at hdrop
        obtain ⟨n, hn⟩ := lookAhead_stops hw hcode hfront hfront0 hd hdrop
        rw [if_pos hplain.2.1] at hn
        exact hn
      | cons c t =>
        have hc : c ≠ 44 := by
          rintro rfl
          exact h ⟨y, d :: x, htext, hy, by rw [hfirst, List.head?_cons]⟩
        rw [hfirst] at hdrop
        obtain ⟨n, hn⟩ := lookAhead_stops hw hcode hfront hfront0 hd hdrop
        rw [if_pos hc] at hn
        exact hn

/-- The code in front of a length is kept just where the line is not misread. -/
theorem unread_line {g : GenFile} (hg : g.Named) {l : OutputLine} (hl : l.Source) {behind : Bytes} (hb : Settled behind) :
    Unread behind (unlines 10 (g.shown l) ++ callFront l.text) ↔ ¬ l.Misread g := by
  have hends := endsOutside_unlines (g.shown l)
  have hnull : ∀ {u v : Bytes}, l.text = u ++ v → (0 : UInt8) ∉ u.reverse := by
    intro u v htext h0
    refine hl.noNull ?_
    rw [htext]
    exact List.mem_append_left _ (List.mem_reverse.mp h0)
  obtain ⟨f, hf, -, -⟩ := putsOpen_back
  rw [unread_append hends, unread_callFront]
  constructor
  · rintro ⟨-, hcall⟩ ⟨u, v, r, htext, hr, hquote | ⟨rfl, hoff, hcomma⟩⟩
    · cases r with
      | nil => cases hquote
      | cons c r =>
        cases hquote
        have hother := hcall u v htext
        obtain ⟨n, hn⟩ := lookAhead_quote (f := f ++ ((unlines 10 (g.shown l)).reverse ++ behind)) hr (hnull htext)
        rw [hf] at hother
        cases hother.symm.trans hn
    · have hshown : g.shown l = [l.comment] := by
        refine shown_comment (by rw [hl.emit, hoff]; rfl) ?_
        rw [htext]
        intro hnil
        have hlen := congrArg List.length hnil
        simp [mark_length] at hlen
      have hother := hcall u v htext
      rw [hshown, unlines_cons, unlines_nil] at hother
      obtain ⟨n, hn⟩ := lookAhead_commaQuote hl hcomma hr behind
      cases hother.symm.trans hn
  · intro hnot
    refine ⟨?_, fun u v htext => ?_⟩
    · refine unread_unlines (fun line hline => ?_) behind
      obtain rfl | rfl := mem_shown hline
      · exact unread_directive hg l.lnum
      · exact unread_comment hl fun u v r htext hr hquote => hnot ⟨u, v, r, htext, hr, .inl hquote⟩
    · cases hr : behindComma u.reverse with
      | none =>
        rw [hf]
        exact lookAhead_noComma hr
      | some r =>
        cases r with
        | cons c r =>
          rw [hf]
          exact lookAhead_noQuote hr fun hc => hnot ⟨u, v, c :: r, htext, hr, .inl (by rw [hc, List.head?_cons])⟩
        | nil =>
          cases hemit : g.emitLine l.lnum with
          | true =>
            obtain ⟨b, hshown⟩ := shown_directive hg hemit
            have hcode : (unlines 10 (g.shown l)).reverse ++ behind = [10] ++ 34 :: 109 :: (b ++ behind) := by
              rw [hshown]
              rfl
            obtain ⟨n, hn⟩ := lookAhead_stops hr hcode (slashed_of_not_mem (by decide)) (by decide) (by decide)
              (dropWhile_of_head (by decide))
            exact hn
          | false =>
            have htext' : l.text ≠ [] := by
              rw [htext]
              intro hnil
              have hlen := congrArg List.length hnil
              simp [mark_length] at hlen
            have hoff : g.noRimLine = true := by
              rw [hl.emit] at hemit
              simpa using hemit
            rw [shown_comment hemit htext', unlines_cons, unlines_nil]
            exact lookAhead_noCommaQuote hl (fun hcomma => hnot ⟨u, v, [], htext, hr, .inr ⟨rfl, hoff, hcomma⟩⟩) hr hb

/-! ## The lines of the code -/

/-- The lines of the code for an output line, as they are written out. -/
def GenFile.outputText (g : GenFile) (place : Bytes → Bytes) (l : OutputLine) : Bytes :=
  unlines 10 (g.shown l) ++ (callFront l.text ++ (place (literalText l.text) ++ (putsEnd ++ [10])))

theorem unlines_filter_linesOf (g : GenFile) (place : Bytes → Bytes) (l : OutputLine) :
    unlines 10 ((g.linesOf place l).filter (· ≠ [])) = g.outputText place l := by
  have hcall : l.call place ≠ [] := by
    rw [OutputLine.call, putsOpen_eq]
    simp
  have hblank : (if g.emitLine l.lnum then [[]] else ([] : List Bytes)).filter (· ≠ []) = [] := by
    split
    · rfl
    · rfl
  rw [GenFile.linesOf, List.filter_append, List.filter_append, hblank, List.nil_append,
    List.filter_cons_of_pos (by simpa using hcall),
    List.filter_nil, unlines_append, unlines_cons, unlines_nil, GenFile.outputText, GenFile.shown, OutputLine.call,
      putsRest,
    literalText, callFront, ascii_break]
  simp

/-- The call up to the length, from its end back. -/
theorem callFront_back (text : Bytes) :
    ∃ f, (callFront text).reverse = 32 :: 44 :: 34 :: 110 :: 92 :: (escapedBack text.reverse ++ 34 :: 32 :: 44 :: f) := by
  obtain ⟨f, hf, -, -⟩ := putsOpen_back
  have hclose : putsClose.reverse = [32, 44, 34] := by rw [putsClose_eq]; rfl
  refine ⟨f, ?_⟩
  rw [callFront, List.reverse_append, List.reverse_append, List.reverse_cons, List.reverse_cons, hclose, hf,
    reverse_escaped]
  simp

/-- A length and what is behind it. -/
theorem settled_call {text behind : Bytes} (hb : behind.getLast? = some 35) (n : Nat) :
    Settled ((putsEnd ++ [10]).reverse ++ ((lengthText n).reverse ++ ((callFront text).reverse ++ behind))) := by
  obtain ⟨f, hf⟩ := callFront_back text
  have hlength : ∀ c ∈ lengthText n, c ≠ 34 ∧ c ≠ 0 := by
    intro c hc
    obtain hblank | hdigit := List.mem_append.mp hc
    · rw [List.eq_of_mem_replicate hblank]
      decide
    · have hrepr := isdigit_repr hdigit
      refine ⟨?_, ?_⟩
      all_goals
        rintro rfl
        cases hrepr
  have hnot : ∀ c, c = 34 ∨ c = 0 → c ∉ (putsEnd ++ [10]).reverse ++ ((lengthText n).reverse ++ [32, 44]) := by
    intro c hc hmem
    obtain hmem | hmem := List.mem_append.mp hmem
    · rcases hc with rfl | rfl
      · simp [putsEnd_eq] at hmem
      · simp [putsEnd_eq] at hmem
    · obtain hmem | hmem := List.mem_append.mp hmem
      · have hplain := hlength c (List.mem_reverse.mp hmem)
        exact hc.elim hplain.1 hplain.2
      · obtain rfl | rfl := hc
        · revert hmem; decide
        · revert hmem; decide
  refine ⟨?_, _, 110, 92 :: (escapedBack text.reverse ++ 34 :: 32 :: 44 :: f) ++ behind, ?_,
    slashed_of_not_mem (hnot 34 (.inl rfl)),
    hnot 0 (.inr rfl), by decide, by decide, by decide⟩
  · rw [← List.append_assoc, ← List.append_assoc, List.getLast?_append, hb]
    rfl
  · rw [hf]
    simp

/-- What is written for the placeholders of an output line: the length comes out right, and the rest of the code is
kept just where the line is not misread. -/
theorem convertLoop_line {g : GenFile} (hg : g.Named) {l : OutputLine} (hl : l.Source) {behind : Bytes}
    (hb : Settled behind)
    {rest out : Bytes} (hout : behind.reverse ++ g.outputText measured l <+: out) :
    convertLoop [] behind (g.outputText holder l ++ rest) = .ok out ↔
      ¬ l.Misread g ∧ convertLoop [] ((g.outputText measured l).reverse ++ behind) rest = .ok out := by
  obtain ⟨f, hf⟩ := callFront_back l.text
  have hlast : ∀ a : Bytes, (a ++ behind).getLast? = some 35 := by
    intro a
    rw [List.getLast?_append, hb.begins]
    rfl
  have hfront : EndsOutside (unlines 10 (g.shown l) ++ callFront l.text) := by
    intro c hc
    rw [List.getLast?_append_of_ne_nil _ (by intro hnil; rw [hnil] at hf; cases hf), List.getLast?_eq_head?_reverse,
      hf] at hc
    cases hc
    exact not_mem_mark (by decide)
  have hend : EndsOutside (putsEnd ++ [10]) := endsOutside_append break_not_mem
  have hplain : ¬ RIM_EMPTY_LONG_PLAIN_ZERO <:+: putsEnd ++ [10] := not_infix_mark (by simp [putsEnd_eq])
  have hnull : (0 : UInt8) ∉ l.text.reverse := by
    rw [List.mem_reverse]
    exact hl.noNull
  have hliteral := lookAhead_literal hnull (f ++ ((unlines 10 (g.shown l)).reverse ++ behind))
  have hcode : (unlines 10 (g.shown l) ++ callFront l.text).reverse ++ behind =
      32 :: 44 :: 34 :: 110 :: 92 ::
        (escapedBack l.text.reverse ++ 34 :: 32 :: 44 :: (f ++ ((unlines 10 (g.shown l)).reverse ++ behind))) := by
    rw [List.reverse_append, hf]
    simp
  have hholder : g.outputText holder l ++ rest =
      (unlines 10 (g.shown l) ++ callFront l.text) ++ (RIM_EMPTY_LONG_PLAIN_ZERO ++ ((putsEnd ++ [10]) ++ rest)) := by
    rw [GenFile.outputText, holder]
    simp only [List.append_assoc]
  have hmeasured : g.outputText measured l =
      (unlines 10 (g.shown l) ++ callFront l.text) ++ (lengthText (l.text.length + 1) ++ (putsEnd ++ [10])) := by
    rw [GenFile.outputText, measured_literalText hl.noBreak]
    simp only [List.append_assoc]
  rw [hmeasured] at hout ⊢
  have hkept : behind.reverse ++ (unlines 10 (g.shown l) ++ callFront l.text) <+: out := by
    refine List.IsPrefix.trans ?_ hout
    exact (List.prefix_append_right_inj behind.reverse).mpr (List.prefix_append _ _)
  have hstretch := @convertLoop_stretch _ _ (RIM_EMPTY_LONG_PLAIN_ZERO ++
    ((putsEnd ++ [10]) ++ rest)) out hfront hb.begins
  rw [unread_line hg hl hb, hcode,
    convertLoop_literal hliteral (by rw [List.length_reverse]; exact hl.length_lt)] at hstretch
  rw [← hcode, List.length_reverse] at hstretch
  have hrest := @convertLoop_stretch
    ((lengthText (l.text.length + 1)).reverse ++
      ((unlines 10 (g.shown l) ++ callFront l.text).reverse ++ behind)) _ rest out hend
    (by rw [← List.append_assoc]; exact hlast _)
  have hback : ((lengthText (l.text.length + 1)).reverse ++
    ((unlines 10 (g.shown l) ++ callFront l.text).reverse ++ behind)).reverse ++
      (putsEnd ++ [10]) = behind.reverse ++
        ((unlines 10 (g.shown l) ++ callFront l.text) ++ (lengthText (l.text.length + 1) ++ (putsEnd ++ [10]))) := by
    simp
  have hforth : (putsEnd ++ [10]).reverse ++ ((lengthText (l.text.length + 1)).reverse ++
      ((unlines 10 (g.shown l) ++ callFront l.text).reverse ++ behind)) =
      ((unlines 10 (g.shown l) ++ callFront l.text) ++
        (lengthText (l.text.length + 1) ++ (putsEnd ++ [10]))).reverse ++ behind := by
    simp
  rw [hback, hforth] at hrest
  have hwhole := hrest.trans (and_iff_right (unread_of_absent hplain _))
  rw [hholder]
  constructor
  · intro h
    obtain ⟨hnot, hafter⟩ := hstretch.mp ⟨h, hkept⟩
    exact ⟨hnot, hwhole.mp ⟨hafter, hout⟩⟩
  · intro h
    exact (hstretch.mpr ⟨h.1, (hwhole.mpr h.2).1⟩).1

/-! ## The whole code -/

theorem GenFile.Named.noBreak {g : GenFile} (hg : g.Named) (lnum : Nat) : (10 : UInt8) ∉ g.directive lnum := by
  obtain ⟨p, hp, -, hbreak⟩ := hg.path
  have hrim : (10 : UInt8) ∉ ascii ".rim" := by simp [ascii_rim]
  have hline : (10 : UInt8) ∉ ascii "#line " := by simp [ascii_line]
  rw [g.directive_eq hp]
  simp only [List.mem_append, List.mem_cons, not_or]
  exact ⟨⟨⟨hline, not_mem_repr (by decide) lnum⟩, by decide⟩, by decide, ⟨by decide, hbreak, hrim⟩, by decide⟩

theorem opening_unread {g : GenFile} (hg : g.Named) : ∀ line ∈ g.opening, ∀ behind, Unread behind (line ++ [10]) := by
  intro line hline behind
  rw [GenFile.opening, List.mem_cons, List.mem_singleton] at hline
  rcases hline with rfl | rfl
  · exact unread_of_absent (not_infix_mark (by simp [ascii_include])) behind
  · -- the name begins behind `rim_sparam`
    obtain ⟨front, hopen, hfront⟩ : ∃ f, ascii "#include \"rim_sparam_" = f ++ [109, 95] ∧ (82 : UInt8) ∉ f :=
      ⟨(ascii "#include \"rim_sparam_").take 19, by simp [ascii_params], by simp [ascii_params]⟩
    have hquote : (34 : UInt8) ∉ 95 :: (g.base ++ [46, 104]) := by
      simp only [List.mem_cons, List.mem_append, not_or]
      exact ⟨by decide, hg.base.1, by decide, by decide, List.not_mem_nil⟩
    have hbetween := unread_between hfront hquote (x := 109) (by decide) (not_mem_mark (by decide)) behind
    rw [hopen, ascii_header]
    simpa using hbetween

theorem opening_back (g : GenFile) :
    ∃ b, (unlines 10 g.opening).reverse = 10 :: 34 :: 104 :: b ∧ (104 :: b).getLast? = some 35 := by
  refine ⟨46 :: ((ascii "#include \"rim_sparam_" ++ g.base).reverse ++ 10 :: (ascii "#include \"rim.h\"").reverse),
    ?_, ?_⟩
  · rw [GenFile.opening, ascii_header]
    simp
  · rw [ascii_include, List.reverse_cons, ← List.cons_append, ← List.cons_append, ← List.cons_append, ← List.append_assoc]
    exact List.getLast?_concat

theorem settled_opening (g : GenFile) : Settled (unlines 10 g.opening).reverse := by
  obtain ⟨b, hb, hlast⟩ := opening_back g
  refine ⟨?_, [10], 104, b, hb, slashed_of_not_mem (by decide), by decide, by decide, by decide, by decide⟩
  rw [hb]
  exact hlast

/-- What is written for the placeholders of all output lines. -/
theorem convertLoop_lines {g : GenFile} (hg : g.Named) {ls : List OutputLine} (hls : ∀ l ∈ ls, l.Source) {last : Bytes}
    (hends : EndsOutside last) (hlast : ∀ behind, Unread behind last) {behind : Bytes} (hb : Settled behind) :
    convertLoop [] behind (ls.flatMap (g.outputText holder) ++ last) =
        .ok (behind.reverse ++ (ls.flatMap (g.outputText measured) ++ last)) ↔ ∀ l ∈ ls, ¬ l.Misread g := by
  induction ls generalizing behind with
  | nil =>
    have hstretch := @convertLoop_stretch _ _ [] (behind.reverse ++ last) hends hb.begins
    rw [List.append_nil] at hstretch
    refine iff_of_true (hstretch.mpr ⟨hlast behind, ?_⟩).1 nofun
    rw [convertLoop, List.reverse_append, List.reverse_reverse]
  | cons l ls ih =>
    obtain ⟨hl, hls⟩ := List.forall_mem_cons.mp hls
    have hsettled : Settled ((g.outputText measured l).reverse ++ behind) := by
      have hline := @settled_call l.text ((unlines 10 (g.shown l)).reverse ++ behind)
        (by rw [List.getLast?_append, hb.begins]; rfl) (l.text.length + 1)
      rw [GenFile.outputText, measured_literalText hl.noBreak]
      simpa using hline
    have hout : behind.reverse ++ ((l :: ls).flatMap (g.outputText measured) ++ last) =
        ((g.outputText measured l).reverse ++ behind).reverse ++ (ls.flatMap (g.outputText measured) ++ last) := by
      rw [List.flatMap_cons]
      simp
    have hprefix : behind.reverse ++ g.outputText measured l <+:
        behind.reverse ++ ((l :: ls).flatMap (g.outputText measured) ++ last) := by
      rw [hout, List.reverse_append, List.reverse_reverse]
      exact List.prefix_append _ _
    rw [List.flatMap_cons, List.append_assoc, convertLoop_line hg hl hb hprefix, hout, ih hls hsettled,
      List.forall_mem_cons]

/-- No line of the code has a line break in it. -/
theorem code_noBreak {g : GenFile} (hg : g.Named) {place : Bytes → Bytes} {ls : List OutputLine}
    (hls : ∀ l ∈ ls, l.Source)
    (hplace : ∀ l ∈ ls, (10 : UInt8) ∉ place (literalText l.text)) (lnum : Nat) {line : Bytes}
    (hline : line ∈ g.opening ++ (ls.flatMap (g.linesOf place) ++ (g.directives lnum ++ [closing]))) :
      (10 : UInt8) ∉ line := by
  rcases List.mem_append.mp hline with h | h
  · rw [GenFile.opening, List.mem_cons, List.mem_singleton] at h
    rcases h with rfl | rfl
    · simp [ascii_include]
    · have hopen : (10 : UInt8) ∉ ascii "#include \"rim_sparam_" := by simp [ascii_params]
      have hclose : (10 : UInt8) ∉ ascii ".h\"" := by simp [ascii_header]
      simp only [List.mem_append, not_or]
      exact ⟨⟨hopen, hg.base.2⟩, hclose⟩
  · rcases List.mem_append.mp h with h | h
    · obtain ⟨l, hl, h⟩ := List.mem_flatMap.mp h
      have hsource := hls l hl
      have hmark : l.mark ≠ 10 := by
        rcases hsource.marked with hm | hm
        · rw [hm]; decide
        · rw [hm]; decide
      rcases mem_linesOf h with rfl | rfl | rfl | rfl
      · exact List.not_mem_nil
      · exact hg.noBreak l.lnum
      · rw [OutputLine.comment]
        simp only [List.mem_cons, not_or]
        exact ⟨by decide, by decide, hmark.symm, hsource.noBreak⟩
      · have hopen : (10 : UInt8) ∉ putsOpen := by simp [putsOpen_eq]
        have hback : (10 : UInt8) ∉ ascii "\\n" := by simp [ascii_break]
        have hclose : (10 : UInt8) ∉ putsClose := by simp [putsClose_eq]
        have hend : (10 : UInt8) ∉ putsEnd := by simp [putsEnd_eq]
        have hescaped := contains_escaped hsource.noBreak
        rw [OutputLine.call, putsRest]
        simp only [List.mem_append, not_or]
        rw [literalText, List.mem_append, not_or]
        exact ⟨hopen, ⟨hescaped, hback⟩, ⟨hclose, hplace l hl⟩, hend⟩
    · rcases List.mem_append.mp h with h | h
      · rw [mem_directives h]
        exact hg.noBreak lnum
      · rw [List.mem_singleton.mp h, closing_eq]
        decide

/-- The code without its empty lines. -/
theorem single_code {g : GenFile} (hg : g.Named) {place : Bytes → Bytes} {ls : List OutputLine} (hls : ∀ l ∈ ls, l.Source)
    (hplace : ∀ l ∈ ls, (10 : UInt8) ∉ place (literalText l.text)) (lnum : Nat) :
    single 10 (g.code place ls lnum) =
      unlines 10 g.opening ++ (ls.flatMap (g.outputText place) ++ unlines 10 (g.directives lnum ++ [closing])) := by
  have hbreaks := fun line => @code_noBreak g hg place ls hls hplace lnum line
  have hopening : g.opening.filter (· ≠ []) = g.opening := by
    rw [List.filter_eq_self]
    intro line hline
    obtain ⟨c, hc⟩ : ∃ c, line.head? = some c := by
      rw [GenFile.opening, List.mem_cons, List.mem_singleton] at hline
      rcases hline with rfl | rfl
      · exact ⟨35, by rw [ascii_include]; rfl⟩
      · exact ⟨35, by rw [ascii_params]; rfl⟩
    have hne : line ≠ [] := by
      rintro rfl
      cases hc
    simpa using hne
  have hlast : (g.directives lnum ++ [closing]).filter (· ≠ []) = g.directives lnum ++ [closing] := by
    rw [List.filter_eq_self]
    intro line hline
    have hne : line ≠ [] := by
      rcases List.mem_append.mp hline with h | h
      · rw [mem_directives h]
        exact directive_ne_nil g lnum
      · rw [List.mem_singleton.mp h, closing_eq]
        simp
    simpa using hne
  have htexts : unlines 10 ((ls.flatMap (g.linesOf place)).filter (· ≠ [])) = ls.flatMap (g.outputText place) := by
    clear hbreaks hplace
    induction ls with
    | nil => rfl
    | cons l ls ih =>
      rw [List.flatMap_cons, List.filter_append, unlines_append, unlines_filter_linesOf,
        ih fun l hl => hls l (List.mem_cons_of_mem _ hl), List.flatMap_cons]
  have hne : ascii "#include \"rim.h\"" ≠ [] := by simp [ascii_include]
  rw [code_lines g place (fun l hl => (hls l hl).noBreak) lnum]
  have hwhole := @single_unlines _ _ 10 _ ((ascii "#include \"rim_sparam_" ++ g.base ++ ascii ".h\"") ::
    (ls.flatMap (g.linesOf place) ++ (g.directives lnum ++ [closing]))) hne hbreaks
  have hlines : g.opening ++ (ls.flatMap (g.linesOf place) ++ (g.directives lnum ++ [closing])) =
      ascii "#include \"rim.h\"" :: (ascii "#include \"rim_sparam_" ++ g.base ++ ascii ".h\"") ::
        (ls.flatMap (g.linesOf place) ++ (g.directives lnum ++ [closing])) := rfl
  rw [hlines, hwhole, ← hlines, List.filter_append, List.filter_append, hopening, hlast, unlines_append,
    unlines_append, htexts]

/-- The code in front of the output lines is kept. -/
theorem convertPuts_opening {g : GenFile} (hg : g.Named) {rest out : Bytes} (hout : unlines 10 g.opening <+: out) :
    convertPuts (unlines 10 g.opening ++ rest) = .ok out ↔ convertLoop [] (unlines 10 g.opening).reverse rest =
      .ok out := by
  obtain ⟨s, hs⟩ : ∃ s, unlines 10 g.opening = 35 :: s := by
    rw [GenFile.opening, unlines_cons, ascii_include]
    exact ⟨_, rfl⟩
  have hunread := unread_unlines (opening_unread hg) []
  have hends := endsOutside_unlines g.opening
  rw [hs] at hunread hends hout ⊢
  have hno : ∀ t, ¬ RIM_EMPTY_LONG_PLAIN_ZERO <+: 35 :: t := by
    rintro t ⟨v, hv⟩
    rw [mark_append] at hv
    cases hv
  have hstretch := @convertLoop_stretch [35] s rest out (EndsOutside.of_append (a := [35]) hends) rfl
  rw [convertPuts, List.cons_append, convertLoop, if_pos (isPrefixOf_mark.mpr (hno _))]
  rw [List.reverse_cons]
  exact ⟨fun h => (hstretch.mp ⟨h, hout⟩).2, fun h => (hstretch.mpr ⟨(unread_cons (hno s)).mp hunread, h⟩).1⟩

/-- A call without text in the code stands in the comment of a line that is misread. -/
theorem exists_misread {g : GenFile} (hg : g.Named) {ls : List OutputLine} (hls : ∀ l ∈ ls, l.Source) {lnum : Nat}
    (h : putsNothing <:+: g.code holder ls lnum) : ∃ l ∈ ls, l.Misread g := by
  have hbreak : (10 : UInt8) ∉ putsNothing := by
    simp only [putsNothing, List.mem_append, not_or]
    exact ⟨⟨⟨by simp [putsOpen_eq], by simp [putsClose_eq]⟩, break_not_mem⟩, by simp [putsEnd_eq]⟩
  rw [code_lines g holder (fun l hl => (hls l hl).noBreak) lnum] at h
  obtain ⟨line, hline, hin⟩ := infix_unlines hbreak putsNothing_ne_nil h
  rcases List.mem_append.mp hline with h | h
  · -- the names of the files to include
    rw [GenFile.opening, List.mem_cons, List.mem_singleton] at h
    rcases h with rfl | rfl
    · exact absurd hin (not_nothing (by rw [ascii_include]; decide))
    · obtain ⟨front, name, hopen, hfront, hname⟩ : ∃ f n, ascii "#include \"rim_sparam_" = f ++ 34 :: n ∧
          (34 : UInt8) ∉ f ∧ (34 : UInt8) ∉ n :=
        ⟨(ascii "#include \"rim_sparam_").take 9, (ascii "#include \"rim_sparam_").drop 10, by simp [ascii_params],
          by simp [ascii_params], by simp [ascii_params]⟩
      have hbase : (34 : UInt8) ∉ name ++ g.base ++ [46, 104] := by
        simp only [List.mem_append, not_or]
        exact ⟨⟨hname, hg.base.1⟩, by decide⟩
      have hquoted := single_quoted hfront hbase (by simp)
      refine absurd hin (not_nothing ?_)
      rw [hopen, ascii_header]
      simpa using hquoted
  · rcases List.mem_append.mp h with h | h
    · obtain ⟨l, hl, h⟩ := List.mem_flatMap.mp h
      rcases mem_linesOf h with rfl | rfl | rfl | rfl
      · exact absurd (List.infix_nil.mp hin) putsNothing_ne_nil
      · exact absurd hin (not_nothing (single_directive hg l.lnum))
      · exact ⟨l, hl, misread_of_nothing (hls l hl) hin⟩
      · exact absurd hin (not_nothing (single_call l))
    · rcases List.mem_append.mp h with h | h
      · rw [mem_directives h] at hin
        exact absurd hin (not_nothing (single_directive hg lnum))
      · rw [List.mem_singleton.mp h] at hin
        exact absurd hin (not_nothing (by rw [closing_eq]; decide))

/-- The literals are the lines, and nothing but the lengths is changed in the code that is written out, just where no
line is misread. -/
theorem genCode_iff {g : GenFile} (hg : g.Named) {ls : List OutputLine} (hls : ∀ l ∈ ls, l.Source) (lnum : Nat) :
    ((∀ l ∈ ls, CLiteral.bytes (34 :: (literalText l.text ++ [34])) = some (l.text ++ [10])) ∧
        g.genCode ls lnum = .ok (single 10 (g.code measured ls lnum))) ↔ ∀ l ∈ ls, ¬ l.Misread g := by
  have hheld : ∀ l ∈ ls, (10 : UInt8) ∉ holder (literalText l.text) := fun _ _ => break_not_mem
  have hlength : ∀ n : Nat, (10 : UInt8) ∉ lengthText n := by
    intro n hmem
    rcases List.mem_append.mp hmem with h | h
    · exact absurd (List.eq_of_mem_replicate h) (by decide)
    · cases isdigit_repr h
  have hmeasured : ∀ l ∈ ls, (10 : UInt8) ∉ measured (literalText l.text) := fun l _ => hlength _
  have hbytes : ∀ l ∈ ls, CLiteral.bytes (34 :: (literalText l.text ++ [34])) = some (l.text ++ [10]) :=
    fun l hl => bytes_literalText (hls l hl).noBreak
  have hprefix : unlines 10 g.opening <+: single 10 (g.code measured ls lnum) := by
    rw [single_code hg hls hmeasured]
    exact List.prefix_append _ _
  rw [and_iff_right hbytes, GenFile.genCode]
  by_cases hnothing : putsNothing <:+: g.code holder ls lnum
  · -- a call without text is dropped, and so the code is shorter
    obtain ⟨l, hl, hmisread⟩ := exists_misread hg hls hnothing
    refine iff_of_false (fun hout => ?_) fun h => h l hl hmisread
    have hshort := flushCode_length hnothing hout
    have hsame : (ls.flatMap (g.outputText holder)).length = (ls.flatMap (g.outputText measured)).length := by
      rw [List.length_flatMap, List.length_flatMap]
      refine congrArg List.sum (List.map_congr_left fun l hl => ?_)
      have hwidth := lengthText_length (hls l hl).length_lt
      simp only [GenFile.outputText, List.length_append, measured_literalText (hls l hl).noBreak, hwidth, holder,
        mark_length]
    rw [single_code hg hls hheld, single_code hg hls hmeasured] at hshort
    simp only [List.length_append] at hshort
    omega
  · have hends : EndsOutside (unlines 10 (g.directives lnum ++ [closing])) := endsOutside_unlines _
    have hlast : ∀ behind, Unread behind (unlines 10 (g.directives lnum ++ [closing])) := by
      refine unread_unlines fun line hline behind => ?_
      rcases List.mem_append.mp hline with h | h
      · rw [mem_directives h]
        exact unread_directive hg lnum behind
      · rw [List.mem_singleton.mp h]
        refine unread_of_absent (fun h => ?_) behind
        have hsame := h.eq_of_length (by rw [mark_length, closing_eq]; rfl)
        exact break_not_mem (hsame ▸ List.mem_append_right closing List.mem_cons_self)
    have hlines := convertLoop_lines hg hls hends hlast (settled_opening g)
    have hflush : flushCode (g.code (fun _ => RIM_EMPTY_LONG_PLAIN_ZERO) ls lnum) =
        convertPuts (single 10 (g.code holder ls lnum)) := flushCode_of_absent hnothing
    rw [List.reverse_reverse, ← single_code hg hls hmeasured] at hlines
    rw [hflush, single_code hg hls hheld, convertPuts_opening hg hprefix]
    exact hlines

/-- Lines with quotes, a backslash and a percent sign, and one without text. -/
theorem genCode_quotes :
    (∀ l ∈ [OutputLine.mk 1 64 (ascii "\"100%\" \\"), ⟨3, 33, []⟩],
        CLiteral.bytes (34 :: (literalText l.text ++ [34])) = some (l.text ++ [10])) ∧
      GenFile.genCode ⟨false, ascii "/app/hello.rim", ascii "hello.rim"⟩ [⟨1, 64, ascii "\"100%\" \\"⟩, ⟨3, 33, []⟩] 4 =
        .ok (single 10 (GenFile.code ⟨false, ascii "/app/hello.rim", ascii "hello.rim"⟩ measured
          [⟨1, 64, ascii "\"100%\" \\"⟩, ⟨3, 33, []⟩] 4)) := by
  have hnamed : GenFile.Named ⟨false, ascii "/app/hello.rim", ascii "hello.rim"⟩ :=
    ⟨⟨ascii "app/hello", by simp [ascii], by simp [ascii], by simp [ascii]⟩, by simp [ascii], by simp [ascii]⟩
  have hsource : ∀ l ∈ [OutputLine.mk 1 64 (ascii "\"100%\" \\"), ⟨3, 33, []⟩], l.Source := by
    intro l hl
    rw [List.mem_cons, List.mem_singleton] at hl
    rcases hl with rfl | rfl
    · exact ⟨by decide, .inl rfl, by simp [ascii], by simp [ascii], by simp [ascii, RIM_FILE_LINE_LEN]⟩
    · exact ⟨by decide, .inr rfl, by decide, by decide, by decide⟩
  refine (genCode_iff hnamed hsource 4).mpr ?_
  -- the texts are too short for a placeholder
  rintro l hl ⟨u, v, r, htext, -⟩
  have hshort : ∀ l ∈ [OutputLine.mk 1 64 (ascii "\"100%\" \\"), ⟨3, 33, []⟩], l.text.length < 25 := by simp [ascii]
  have hlen := hshort l hl
  rw [htext, List.length_append, List.length_append, mark_length] at hlen
  omega

/-- A text with a placeholder behind a quote and a comma: a length is written into it. -/
theorem genCode_placeholder :
    GenFile.genCode ⟨false, ascii "/app/hello.rim",
      ascii "hello.rim"⟩ [⟨1, 64, ascii "a\", RIM_EMPTY_LONG_PLAIN_ZERO"⟩] 2 ≠
      .ok (single 10 (GenFile.code ⟨false, ascii "/app/hello.rim", ascii "hello.rim"⟩ measured
        [⟨1, 64, ascii "a\", RIM_EMPTY_LONG_PLAIN_ZERO"⟩] 2)) := by decide +kernel

end RimStone
