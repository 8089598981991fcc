import Mathlib.Data.List.Basic
import RimStone.Lib.Lines

/-!
# How a line of C is read

A line is read a character at a time: quotes begin and end strings and character constants, unless a backslash
escapes them, and two slashes in code begin a comment, which goes to the end. What is in front of the comment is the
line's `part`, and the braces that are neither in a string nor in a constant open and close blocks.

The one rule is that reading is a fold: what is read of two texts is read of the first, and then of the second from
where that ends.
-/

namespace RimStone.Lib.CLine

/-- Where the reading is; `escaped` says that the next character means nothing. -/
inductive CMode where
  | code
  | string (escaped : Bool)
  | constant (escaped : Bool)
  deriving DecidableEq, Repr

inductive Brace where
  | left
  | right
  deriving DecidableEq, Repr

def CMode.read : CMode → UInt8 → CMode
  | .code, c => if c = 34 then .string false else if c = 39 then .constant false else .code
  | .string true, _ => .string false
  | .string false, c => if c = 92 then .string true else if c = 34 then .code else .string false
  | .constant true, _ => .constant false
  | .constant false, c => if c = 92 then .constant true else if c = 39 then .code else .constant false

def CMode.inString : CMode → Bool
  | .string _ => true
  | _ => false

def CMode.inConstant : CMode → Bool
  | .constant _ => true
  | _ => false

def CMode.delimits : CMode → Bool
  | .code | .string false => true
  | _ => false

def braceOf (c : UInt8) : Option Brace := if c = 123 then some .left else if c = 125 then some .right else none

def readFrom (x : CMode) (s : List UInt8) : CMode := s.foldl CMode.read x

def commentAt (x : CMode) (c : UInt8) (s : List UInt8) : Bool := x == .code && c == 47 && s.head? == some 47

def part : CMode → List UInt8 → List UInt8
  | _, [] => []
  | x, c :: s => if commentAt x c s then [] else c :: part (x.read c) s

def braces : CMode → List UInt8 → List Brace
  | _, [] => []
  | x, c :: s => if x = .code then (braceOf c).toList ++ braces (x.read c) s else braces (x.read c) s

def lineBraces (l : List UInt8) : List Brace := braces .code (part .code l)

def firstBrace (b : Brace) : CMode → List UInt8 → Option Nat
  | _, [] => none
  | x, c :: s => if x = .code ∧ braceOf c = some b then some 0 else (firstBrace b (x.read c) s).map (· + 1)

variable {x : CMode} {c : UInt8} {s t : List UInt8} {b : Brace}

theorem readFrom_append : readFrom x (s ++ t) = readFrom (readFrom x s) t := List.foldl_append ..

theorem read_brace (h : braceOf c ≠ none) : CMode.code.read c = .code := by
  unfold braceOf at h
  unfold CMode.read
  dsimp only
  split_ifs with h34 h39
  · subst h34
    exact absurd rfl h
  · subst h39
    exact absurd rfl h
  · rfl

/-- A text that begins no comment is in front of one. -/
def NoComment : CMode → List UInt8 → Prop
  | _, [] => True
  | x, c :: s => ¬ (x = .code ∧ c = 47) ∧ NoComment (x.read c) s

theorem part_append (h : NoComment x s) : part x (s ++ t) = s ++ part (readFrom x s) t := by
  induction s generalizing x with
  | nil => rfl
  | cons c s ih =>
    obtain ⟨hc, hs⟩ := h
    have hno : commentAt x c (s ++ t) = false := by
      rw [Bool.eq_false_iff]
      intro hat
      simp only [commentAt, Bool.and_eq_true, beq_iff_eq] at hat
      exact hc hat.1
    rw [List.cons_append, part, hno, if_neg Bool.false_ne_true, ih hs]
    rfl

theorem NoComment.append (hs : NoComment x s) (ht : NoComment (readFrom x s) t) : NoComment x (s ++ t) := by
  induction s generalizing x with
  | nil => exact ht
  | cons c s ih => exact ⟨hs.1, ih hs.2 ht⟩

theorem braces_append : braces x (s ++ t) = braces x s ++ braces (readFrom x s) t := by
  induction s generalizing x with
  | nil => rfl
  | cons c s ih =>
    rw [List.cons_append, braces, braces, ih]
    have hread : readFrom (x.read c) s = readFrom x (c :: s) := rfl
    rw [hread]
    split_ifs
    · rw [List.append_assoc]
    · rfl

theorem firstBrace_lt {i : Nat} (h : firstBrace b x s = some i) : i < s.length := by
  induction s generalizing x i with
  | nil => cases h
  | cons c s ih =>
    rw [firstBrace] at h
    split_ifs at h
    · obtain rfl := Option.some.inj h
      exact Nat.zero_lt_succ _
    · obtain ⟨j, hj, rfl⟩ := Option.map_eq_some_iff.mp h
      exact Nat.succ_lt_succ (ih hj)

/-- The first brace that counts, with what is behind it, which is read as code again. -/
theorem braces_cons {i : Nat} {b' : Brace} (hne : b ≠ b') (h : firstBrace b x s = some i)
    (hother : ∀ j, firstBrace b' x s = some j → i < j) :
    braces x s = b :: braces .code (s.drop (i + 1)) ∧ readFrom x (s.take (i + 1)) = .code := by
  induction s generalizing x i with
  | nil => cases h
  | cons c s ih =>
    rw [firstBrace] at h hother
    split_ifs at h with hhere
    · obtain ⟨rfl, hc⟩ := hhere
      obtain rfl := Option.some.inj h
      have hcode : CMode.code.read c = .code := read_brace (by rw [hc]; exact Option.some_ne_none b)
      rw [braces, if_pos rfl, hc, hcode]
      exact ⟨rfl, hcode⟩
    · obtain ⟨j, hj, rfl⟩ := Option.map_eq_some_iff.mp h
      split_ifs at hother with hthere
      · exact absurd (hother 0 rfl) (Nat.not_lt_zero _)
      · obtain ⟨hrest, hread⟩ := ih hj fun k hk => Nat.lt_of_succ_lt_succ (hother (k + 1) (by rw [hk]; rfl))
        refine ⟨?_, hread⟩
        rw [braces, hrest]
        split_ifs with hcode
        · have hnone : braceOf c = none := by
            cases hb : braceOf c with
            | none => rfl
            | some d =>
              -- it is of the one kind or of the other
              have hkind : d = b ∨ d = b' := by
                revert hne
                cases d <;> cases b <;> cases b' <;> simp
              obtain rfl | rfl := hkind
              · exact absurd ⟨hcode, hb⟩ hhere
              · exact absurd ⟨hcode, hb⟩ hthere
          rw [hnone]
          rfl
        · rfl

theorem braces_nil (hl : firstBrace .left x s = none) (hr : firstBrace .right x s = none) : braces x s = [] := by
  induction s generalizing x with
  | nil => rfl
  | cons c s ih =>
    rw [firstBrace] at hl hr
    split_ifs at hl with hleft
    split_ifs at hr with hright
    have hrest := ih (Option.map_eq_none_iff.mp hl) (Option.map_eq_none_iff.mp hr)
    rw [braces, hrest]
    split_ifs with hcode
    · cases hb : braceOf c with
      | none => rfl
      | some d =>
        cases d with
        | left => exact absurd ⟨hcode, hb⟩ hleft
        | right => exact absurd ⟨hcode, hb⟩ hright
    · rfl

/-- A line break behind a line changes nothing. -/
theorem braces_part_break : braces x (part x (s ++ [10])) = braces x (part x s) := by
  induction s generalizing x with
  | nil => cases x <;> rfl
  | cons c s ih =>
    have hsame : commentAt x c (s ++ [10]) = commentAt x c s := by
      cases s with
      | nil =>
        have hhead : (([] : List UInt8) ++ [10]).head? = some 10 := rfl
        unfold commentAt
        rw [hhead, List.head?_nil]
        cases x == .code && c == 47 <;> rfl
      | cons d s => rfl
    rw [List.cons_append, part, part, hsame]
    split_ifs with hcomment
    · rfl
    · rw [braces, braces, ih]

/-- A line without a comment, which ends in code. -/
structure Whole (l : List UInt8) : Prop where
  noComment : NoComment .code l
  read : readFrom .code l = .code

/-- Where only the last line has a comment, the braces of the text are those of its lines. -/
theorem lineBraces_unlines {ls : List (List UInt8)} (h : ∀ l ∈ ls, Whole l) (last : List UInt8) :
    lineBraces (unlines 10 (ls ++ [last])) = ls.flatMap lineBraces ++ lineBraces last := by
  induction ls with
  | nil =>
    rw [List.nil_append, unlines_cons, unlines_nil, List.flatMap_nil, List.nil_append]
    exact braces_part_break
  | cons l ls ih =>
    obtain ⟨hl, hls⟩ := List.forall_mem_cons.mp h
    have hpart : part .code l = l := by
      have happ := part_append (t := []) hl.noComment
      simpa [part] using happ
    have hline : ∀ t, lineBraces (l ++ 10 :: t) = lineBraces l ++ lineBraces t := by
      intro t
      have hbreak : part .code (10 :: t) = 10 :: part .code t := rfl
      have hbraces : braces .code (10 :: part .code t) = braces .code (part .code t) := rfl
      unfold lineBraces
      rw [part_append hl.noComment, hl.read, hbreak, braces_append, hl.read, hbraces, hpart]
    rw [List.cons_append, unlines_cons, hline, ih hls, List.flatMap_cons, List.append_assoc]

end RimStone.Lib.CLine
