import RimStone.Lib.Lines
import RimStone.Lib.Yields
import RimStone.Source.Output

/-!
# The code of output lines

`oprintf` puts whole lines together: an output line becomes the directives, the comment and the call, each of them a
line of the code (`outputLine_lines`). In the end the code has the lines that are not empty, unless a call without text
stands in it (`flushCode_eq`): then a part of it is dropped, and it comes out shorter (`flushCode_length`).
-/

namespace RimStone

open Lib

/-! ## What is replaced -/

theorem replaceString_of_absent {find subst s : Bytes} (h : ¬ find <:+: s) : replaceString find subst 0 s = s := by
  induction s with
  | nil => rfl
  | cons c s ih =>
    have hprefix : ¬ find.isPrefixOf (c :: s) = true := by
      rw [List.isPrefixOf_iff_prefix]
      exact fun hp => h hp.isInfix
    rw [replaceString, if_neg hprefix, ih fun hs => h (hs.trans (List.suffix_cons c s).isInfix)]

theorem replaceString_sublist (find : Bytes) (skip : Nat) (s : Bytes) : (replaceString find [] skip s).Sublist s := by
  induction s generalizing skip with
  | nil =>
    cases skip with
    | zero => exact List.Sublist.refl _
    | succ => exact List.Sublist.refl _
  | cons c s ih =>
    cases skip with
    | succ skip => exact (ih skip).cons c
    | zero =>
      rw [replaceString]
      split
      · exact (ih (find.length - 1)).cons c
      · exact (ih 0).cons_cons c

/-- Where a text occurs, something of it is dropped. -/
theorem replaceString_drops {find s : Bytes} (hfind : ∀ c ∈ find.head?, c ≠ 10) (hne : find ≠ []) (h : find <:+: s) :
    (replaceString find [] 0 s).countP (· ≠ 10) < s.countP (· ≠ 10) := by
  induction s with
  | nil => exact absurd (List.infix_nil.mp h) hne
  | cons c s ih =>
    rw [replaceString]
    split
    · next hprefix =>
      rw [List.isPrefixOf_iff_prefix] at hprefix
      obtain ⟨d, find, rfl⟩ := List.exists_cons_of_ne_nil hne
      obtain ⟨rfl, -⟩ := List.cons_prefix_cons.mp hprefix
      have hle := (replaceString_sublist (d :: find) ((d :: find).length - 1) s).countP_le (p := fun c => decide (c ≠ 10))
      rw [List.nil_append, List.countP_cons_of_pos (by simpa using hfind d rfl)]
      exact Nat.lt_succ_of_le hle
    · next hprefix =>
      rw [List.isPrefixOf_iff_prefix] at hprefix
      have hs := ih ((List.infix_cons_iff.mp h).resolve_left hprefix)
      rw [List.countP_cons, List.countP_cons]
      omega

/-- One round over the line breaks: the text has the same lines, and it becomes shorter unless its line breaks are
single. -/
theorem replaceString_breaks (s : Bytes) :
    single 10 (replaceString [10, 10] [10] 0 s) = single 10 s ∧
      (replaceString [10, 10] [10] 0 s).length ≤ s.length ∧
      ((replaceString [10, 10] [10] 0 s).length = s.length → single 10 s = s) := by
  induction hlen : s.length using Nat.strong_induction_on generalizing s with
  | _ n ih =>
    subst hlen
    cases s with
    | nil => exact ⟨rfl, le_rfl, fun _ => rfl⟩
    | cons c s =>
      by_cases hprefix : [10, 10] <+: c :: s
      · obtain ⟨t, ht⟩ := hprefix
        rw [← ht] at ih ⊢
        obtain ⟨hsame, hle, -⟩ := ih t.length (by simp only [List.length_append, List.length_cons]; omega) t rfl
        have htwo : [10, 10] ++ t = 10 :: 10 :: t := rfl
        have hround : replaceString [10, 10] [10] 0 (10 :: 10 :: t) = 10 :: replaceString [10, 10] [10] 0 t := rfl
        rw [htwo, hround, single_cons_cons]
        refine ⟨single_cons_congr hsame 10, ?_, ?_⟩
        · simp only [List.length_cons]
          omega
        · simp only [List.length_cons]
          omega
      · obtain ⟨hsame, hle, hfix⟩ := ih s.length (Nat.lt_succ_self _) s rfl
        have hround : replaceString [10, 10] [10] 0 (c :: s) = c :: replaceString [10, 10] [10] 0 s := by
          rw [replaceString, if_neg (by rwa [List.isPrefixOf_iff_prefix])]
        rw [hround]
        refine ⟨single_cons_congr hsame c, Nat.succ_le_succ hle, fun h => ?_⟩
        have hnot : ¬ (c = 10 ∧ s.head? = some 10) := by
          rintro ⟨rfl, hs⟩
          cases s with
          | nil => cases hs
          | cons d s =>
            cases hs
            exact hprefix ⟨s, rfl⟩
        rw [single, if_neg hnot, hfix (Nat.succ.inj h)]

/-- The loop over the line breaks ends when they are single. -/
theorem singleLines_eq {fuel : Nat} {s : Bytes} (h : s.length < fuel) : singleLines fuel s.length s = single 10 s := by
  induction fuel generalizing s with
  | zero => exact absurd h (Nat.not_lt_zero _)
  | succ fuel ih =>
    obtain ⟨hsame, hle, hfix⟩ := replaceString_breaks s
    simp only [singleLines]
    split
    · next hlen =>
      have hs := hfix hlen.symm
      rw [replaceString_of_absent (not_infix_of_single hs), hs]
    · next hlen =>
      rw [ih (by omega), hsame]

/-! ## The texts of the code -/

theorem putsOpen_eq : putsOpen =
    [114, 105, 109, 95, 112, 117, 116, 115, 32, 40, 82, 73, 77, 95, 78, 79, 69, 78, 67, 44, 32, 34] := by
  simp [putsOpen, ascii]

theorem putsClose_eq : putsClose = [34, 44, 32] := by
  simp [putsClose, ascii]

theorem putsEnd_eq : putsEnd = [44, 32, 102, 97, 108, 115, 101, 41, 59] := by
  simp [putsEnd, ascii]

theorem ascii_break : ascii "\\n" = [92, 110] := by
  simp [ascii]

theorem ascii_line : ascii "#line " = [35, 108, 105, 110, 101, 32] := by
  simp [ascii]

theorem ascii_quote : ascii " \"" = [32, 34] := by
  simp [ascii]

theorem ascii_rim : ascii ".rim" = [46, 114, 105, 109] := by
  simp [ascii]

theorem ascii_include : ascii "#include \"rim.h\"" = [35, 105, 110, 99, 108, 117, 100, 101, 32, 34, 114, 105, 109, 46, 104, 34] := by
  simp [ascii]

theorem ascii_params : ascii "#include \"rim_sparam_" =
    [35, 105, 110, 99, 108, 117, 100, 101, 32, 34, 114, 105, 109, 95, 115, 112, 97, 114, 97, 109, 95] := by
  simp [ascii]

theorem ascii_header : ascii ".h\"" = [46, 104, 34] := by
  simp [ascii]

/-! ## What is written out -/

theorem flushCode_eq (s : Bytes) : flushCode s =
    convertPuts (single 10 (replaceString putsNothing [] 0 (replaceString (putsNothing ++ [10]) [] 0 s))) := by
  rw [flushCode, singleLines_eq (Nat.lt_succ_self _), (replaceString_breaks _).1]

theorem flushCode_of_absent {s : Bytes} (h : ¬ putsNothing <:+: s) : flushCode s = convertPuts (single 10 s) := by
  have hline : ¬ putsNothing ++ [10] <:+: s := fun hs => h ((List.prefix_append _ _).isInfix.trans hs)
  rw [flushCode_eq, replaceString_of_absent hline, replaceString_of_absent h]

/-- What is written goes over as many bytes. -/
theorem convertLoop_length {text behind s out : Bytes} (h : convertLoop text behind s = .ok out) :
    out.length = behind.length + s.length := by
  induction s generalizing text behind with
  | nil =>
    have hout : out = behind.reverse := by
      cases text with
      | nil => exact (Except.ok.inj h).symm
      | cons => exact (Except.ok.inj h).symm
    rw [hout, List.length_reverse, List.length_nil, Nat.add_zero]
  | cons c s ih =>
    have hnext : ∀ d text', convertLoop text' (d :: behind) s = .ok out → out.length =
      behind.length + (c :: s).length := by
      intro d text' h'
      rw [ih h', List.length_cons, List.length_cons]
      omega
    cases text with
    | cons o text => exact hnext o text h
    | nil =>
      rw [convertLoop] at h
      split at h
      · exact hnext c [] h
      · obtain ⟨ahead, -, h⟩ := bind_eq_ok.mp h
        cases ahead with
        | other => exact hnext c _ h
        | nothing =>
          cases h
          rw [List.length_append, List.length_reverse]
        | literal totstr => exact hnext _ _ h

theorem putsNothing_head : putsNothing.head? = some 114 := by
  rw [putsNothing, putsOpen_eq]
  rfl

/-- A call without text is missing from what is written out. -/
theorem flushCode_length {s out : Bytes} (h : putsNothing <:+: s) (hout : flushCode s = .ok out) :
    out.length < (single 10 s).length := by
  have hhead : ∀ c ∈ putsNothing.head?, c ≠ 10 := by
    intro c hc
    rw [putsNothing_head] at hc
    cases hc
    decide
  have hne : putsNothing ≠ [] := by
    intro hnil
    have hsome := putsNothing_head
    rw [hnil] at hsome
    cases hsome
  rw [flushCode_eq] at hout
  have hlen := convertLoop_length hout
  have hsub : (replaceString putsNothing [] 0 (replaceString (putsNothing ++ [10]) [] 0 s)).Sublist s :=
    (replaceString_sublist putsNothing 0 _).trans (replaceString_sublist (putsNothing ++ [10]) 0 s)
  have hfewer : (replaceString putsNothing [] 0 (replaceString (putsNothing ++ [10]) [] 0 s)).countP (· ≠ 10) <
      s.countP (· ≠ 10) := by
    by_cases hline : putsNothing ++ [10] <:+: s
    · refine lt_of_le_of_lt ((replaceString_sublist putsNothing 0 _).countP_le) (replaceString_drops ?_ (by simp) hline)
      rw [List.head?_append_of_ne_nil _ hne]
      exact hhead
    · rw [replaceString_of_absent hline]
      exact replaceString_drops hhead hne h
  have hshort := (@single_length_sublist _ _ 10 _ _ hsub).1
  rw [List.length_nil] at hlen
  omega

/-! ## Line by line -/

/-- The directive in front of a line of the code. -/
def GenFile.directives (g : GenFile) (lnum : Nat) : List Bytes := if g.emitLine lnum then [g.directive lnum] else []

def OutputLine.comment (l : OutputLine) : Bytes := 47 :: 47 :: l.mark :: l.text

/-- The call that an output line becomes, from the end of its text on. -/
def putsRest (place : Bytes → Bytes) (text : Bytes) : Bytes := putsClose ++ place (literalText text) ++ putsEnd

def OutputLine.call (place : Bytes → Bytes) (l : OutputLine) : Bytes :=
  putsOpen ++ (literalText l.text ++ putsRest place l.text)

/-- The lines of the code for an output line, in front of the call. -/
def GenFile.front (g : GenFile) (l : OutputLine) : List Bytes :=
  g.directives l.lnum ++ l.comment :: ((if l.text = [] then g.directives l.lnum ++ [[]] else []) ++ g.directives l.lnum)

def GenFile.linesOf (g : GenFile) (place : Bytes → Bytes) (l : OutputLine) : List Bytes :=
  (if g.emitLine l.lnum then [[]] else []) ++ (g.front l ++ [l.call place])

/-- The code ends with a line break, behind which a directive may be written. -/
structure Oline.Ready (o : Oline) : Prop where
  prevLine : o.prevLine = true
  lastPos : o.lastPos < o.oline.length

/-- The text that `oprintf` writes at the beginning of a line. -/
theorem oprintf_ready (g : GenFile) (lnum : Nat) {o : Oline} (h : o.Ready) (text : Bytes) :
    (g.oprintf lnum o text).oline = o.oline ++ (unlines 10 (g.directives lnum) ++ text) ∧
      (g.oprintf lnum o text).lastPos < (g.oprintf lnum o text).oline.length ∧
      (g.oprintf lnum o text).prevLine = (!g.emitLine lnum || text.contains 10) := by
  have hcan : o.canWrite lnum = true := by
    have hne : o.oline.length ≠ o.lastPos := h.lastPos.ne'
    simp [Oline.canWrite, hne]
  by_cases hemit : g.emitLine lnum = true
  · rw [GenFile.oprintf, GenFile.directives, if_pos hemit, hemit, hcan, h.prevLine]
    simp only [Bool.and_self, if_true, unlines_cons, unlines_nil, List.append_assoc, List.length_append, List.length_cons,
      List.cons_append, List.nil_append, Bool.not_true]
    exact ⟨trivial, by omega, trivial⟩
  · have hoff : g.emitLine lnum = false := by simpa using hemit
    have hpos := h.lastPos
    rw [GenFile.oprintf, GenFile.directives, if_neg hemit, hoff, h.prevLine]
    simp only [Bool.and_false, Bool.false_eq_true, if_false, unlines_nil, List.nil_append, List.length_append,
      Bool.not_false, Bool.true_or]
    exact ⟨trivial, by omega, by rw [h.prevLine, Bool.true_or]⟩

/-- The text that `oprintf` writes within a line. -/
theorem oprintf_mid {g : GenFile} {lnum : Nat} {o : Oline} (h : (o.prevLine && g.emitLine lnum) = false) (text : Bytes) :
    g.oprintf lnum o text = { o with oline := o.oline ++ text, prevLine := o.prevLine || text.contains 10 } := by
  rw [GenFile.oprintf, h]
  rfl

/-- A line that `oprintf` writes. -/
theorem oprintf_break (g : GenFile) (lnum : Nat) {o : Oline} (h : o.Ready) (text : Bytes) :
    (g.oprintf lnum o (text ++ [10])).Ready ∧
      (g.oprintf lnum o (text ++ [10])).oline = o.oline ++ unlines 10 (g.directives lnum ++ [text]) := by
  obtain ⟨holine, hpos, hprev⟩ := oprintf_ready g lnum h (text ++ [10])
  refine ⟨⟨?_, hpos⟩, ?_⟩
  · rw [hprev]
    simp
  · rw [holine, unlines_append, unlines_cons, unlines_nil]

/-- The comment of an output line, behind the directive that stands in front of the line. -/
theorem beginLine_comment (g : GenFile) (l : OutputLine) {o : Oline} (h : o.Ready) :
    (g.oprintf l.lnum (g.beginLine l.lnum o) (l.comment ++ [10])).Ready ∧
      (g.oprintf l.lnum (g.beginLine l.lnum o) (l.comment ++ [10])).oline =
        o.oline ++ unlines 10 ((if g.emitLine l.lnum then [[]] else []) ++ (g.directives l.lnum ++ [l.comment])) := by
  have hcan : o.canWrite l.lnum = true := by
    have hne : o.oline.length ≠ o.lastPos := h.lastPos.ne'
    simp [Oline.canWrite, hne]
  by_cases hemit : g.emitLine l.lnum = true
  · -- the directive is there when the comment is written
    rw [GenFile.beginLine, GenFile.directives, if_pos hemit, if_pos hemit, hemit, hcan]
    simp only [Bool.and_self, if_true, GenFile.oprintf, Oline.canWrite, hemit, decide_true, Bool.not_true,
      Bool.false_eq_true, if_false, Bool.false_or]
    refine ⟨⟨by simp, ?_⟩, by simp⟩
    simp only [List.length_append, List.length_cons]
    omega
  · have hoff : g.emitLine l.lnum = false := by simpa using hemit
    obtain ⟨hready, holine⟩ := oprintf_break g l.lnum h l.comment
    have hsame : g.beginLine l.lnum o = o := by rw [GenFile.beginLine, hoff, Bool.false_and, if_neg Bool.false_ne_true]
    rw [hsame, hoff, if_neg Bool.false_ne_true, List.nil_append]
    exact ⟨hready, holine⟩

theorem contains_escaped {text : Bytes} (h : (10 : UInt8) ∉ text) : (10 : UInt8) ∉ text.flatMap outputChar := by
  intro hmem
  obtain ⟨c, hc, hmem⟩ := List.mem_flatMap.mp hmem
  unfold outputChar at hmem
  split_ifs at hmem
  · simp at hmem
  · simp at hmem
  · obtain rfl := List.mem_singleton.mp hmem
    exact h hc

/-- The text of a literal, character by character. -/
theorem oprintf_text {g : GenFile} {lnum : Nat} {text : Bytes} (h : (10 : UInt8) ∉ text) {o : Oline}
    (ho : (o.prevLine && g.emitLine lnum) = false) :
    text.foldl (fun o c => g.oprintf lnum o (outputChar c)) o =
      { o with oline := o.oline ++ text.flatMap outputChar } := by
  induction text generalizing o with
  | nil => simp
  | cons c text ih =>
    have hc : (outputChar c).contains 10 = false := by
      have hnot := contains_escaped h
      rw [List.flatMap_cons, List.mem_append, not_or] at hnot
      simpa using hnot.1
    have hstep : g.oprintf lnum o (outputChar c) = { o with oline := o.oline ++ outputChar c } := by
      rw [oprintf_mid ho, hc, Bool.or_false]
    have hrest := @ih (fun hm => h (List.mem_cons_of_mem _ hm)) { o with oline := o.oline ++ outputChar c } ho
    rw [List.foldl_cons, hstep, hrest, List.flatMap_cons, List.append_assoc]

/-- An output line becomes whole lines of the code. -/
theorem outputLine_lines (g : GenFile) (place : Bytes → Bytes) {l : OutputLine} (hl : (10 : UInt8) ∉ l.text) {o : Oline}
    (h : o.Ready) :
    (g.outputLine place o l).Ready ∧ (g.outputLine place o l).oline = o.oline ++ unlines 10 (g.linesOf place l) := by
  -- the comment, and a line break behind it where there is no text
  obtain ⟨hcomment, hc⟩ := beginLine_comment g l h
  obtain ⟨o₁, ho₁, hready₁, hline₁⟩ : ∃ o₁, o₁ = (if l.text = [] then
      g.oprintf l.lnum (g.oprintf l.lnum (g.beginLine l.lnum o) (l.comment ++ [10])) [10]
      else g.oprintf l.lnum (g.beginLine l.lnum o) (l.comment ++ [10])) ∧ o₁.Ready ∧
      o₁.oline = o.oline ++ unlines 10 ((if g.emitLine l.lnum then [[]] else []) ++ (g.directives l.lnum ++
        l.comment :: (if l.text = [] then g.directives l.lnum ++ [[]] else []))) := by
    refine ⟨_, rfl, ?_⟩
    split
    · obtain ⟨hready, hbreak⟩ := oprintf_break g l.lnum hcomment []
      refine ⟨hready, hbreak.trans ?_⟩
      rw [hc]
      simp
    · exact ⟨hcomment, hc⟩
  -- the call
  obtain ⟨hopen, hpos, hprev⟩ := oprintf_ready g l.lnum hready₁ putsOpen
  have hbreak : putsOpen.contains 10 = false := by simp [putsOpen_eq]
  rw [hbreak, Bool.or_false] at hprev
  have hmid : ((g.oprintf l.lnum o₁ putsOpen).prevLine && g.emitLine l.lnum) = false := by
    rw [hprev, Bool.not_and_self]
  have htext := oprintf_text hl hmid
  have hout : g.outputLine place o l =
      g.oprintf l.lnum { g.oprintf l.lnum o₁ putsOpen with
        oline := (g.oprintf l.lnum o₁ putsOpen).oline ++ l.text.flatMap outputChar }
        (ascii "\\n" ++ putsClose ++ place (literalText l.text) ++ putsEnd ++ [10]) := by
    rw [← htext, ho₁]
    rfl
  have hlast := @oprintf_mid g l.lnum { g.oprintf l.lnum o₁ putsOpen with
    oline := (g.oprintf l.lnum o₁ putsOpen).oline ++ l.text.flatMap outputChar } hmid
  rw [hout, hlast]
  refine ⟨⟨by simp, ?_⟩, ?_⟩
  · simp only [List.length_append, List.length_cons]
    omega
  · simp only [hopen, hline₁, GenFile.linesOf, GenFile.front, OutputLine.call, putsRest, literalText, unlines_append,
      unlines_cons, unlines_nil, List.append_assoc, List.cons_append]

def GenFile.opening (g : GenFile) : List Bytes :=
  [ascii "#include \"rim.h\"", ascii "#include \"rim_sparam_" ++ g.base ++ ascii ".h\""]

def closing : Bytes := ascii "// END OF GENERATED CODE"

theorem closing_eq : closing =
    [47, 47, 32, 69, 78, 68, 32, 79, 70, 32, 71, 69, 78, 69, 82, 65, 84, 69, 68, 32, 67, 79, 68, 69] := by
  simp [closing, ascii]

theorem includes_lines (g : GenFile) : g.includes.Ready ∧ g.includes.oline = unlines 10 g.opening := by
  have hoff : g.emitLine 0 = false := by simp [GenFile.emitLine]
  have hfirst : ascii "#include \"rim.h\"\n" = ascii "#include \"rim.h\"" ++ [10] := by simp [ascii]
  have hsecond : ascii ".h\"\n" = ascii ".h\"" ++ [10] := by simp [ascii]
  have hprint : g.includes = ⟨unlines 10 g.opening, true, 0, 0⟩ := by
    rw [GenFile.includes, oprintf_mid (by rw [hoff, Bool.and_false]), oprintf_mid (by rw [hoff, Bool.and_false]), hfirst,
      hsecond]
    simp [GenFile.opening]
  rw [hprint]
  refine ⟨⟨rfl, ?_⟩, rfl⟩
  simp only [GenFile.opening, unlines_cons, List.length_append, List.length_cons]
  omega

theorem code_lines (g : GenFile) (place : Bytes → Bytes) {ls : List OutputLine} (hls : ∀ l ∈ ls, (10 : UInt8) ∉ l.text)
    (lnum : Nat) :
    g.code place ls lnum = unlines 10 (g.opening ++
      (ls.flatMap (g.linesOf place) ++ (g.directives lnum ++ [closing]))) := by
  have hrun : ∀ o : Oline, o.Ready →
      (ls.foldl (g.outputLine place) o).Ready ∧
        (ls.foldl (g.outputLine place) o).oline = o.oline ++ unlines 10 (ls.flatMap (g.linesOf place)) := by
    induction ls with
    | nil => exact fun o h => ⟨h, by simp⟩
    | cons l ls ih =>
      intro o h
      obtain ⟨hl, hls⟩ := List.forall_mem_cons.mp hls
      obtain ⟨hready, hline⟩ := outputLine_lines g place hl h
      obtain ⟨hready', hline'⟩ := ih hls _ hready
      exact ⟨hready', by rw [List.foldl_cons, hline', hline, List.flatMap_cons, unlines_append, List.append_assoc]⟩
  obtain ⟨hready, hline⟩ := includes_lines g
  obtain ⟨hready', hline'⟩ := hrun g.includes hready
  have hlast : ascii "// END OF GENERATED CODE\n" = closing ++ [10] := by simp [closing, ascii]
  rw [GenFile.code, hlast, (oprintf_break g lnum hready' closing).2, hline', hline]
  simp only [unlines_append, List.append_assoc]

end RimStone
