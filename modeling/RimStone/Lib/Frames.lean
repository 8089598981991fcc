import Mathlib.Data.List.Basic
import Mathlib.Logic.Basic

/-!
# A text of frames

A decoder takes one frame off the front of a text. `unframe` takes frames until nothing
is left; where the decoder takes back what an encoder wrote, whatever comes after it,
`unframe` gives back the list that was written. `pieces` cuts a text into frames of a
length that is at most a limit.
-/

namespace RimStone.Lib

section Frames

variable {α β : Type*}

/-- Frames off the front of a text until nothing is left of it. -/
def frames (decode : List α → Option (β × List α)) : Nat → List α → Option (List β)
  | _, [] => some []
  | 0, _ :: _ => none
  | fuel + 1, a :: s =>
    (decode (a :: s)).bind fun r => (frames decode fuel r.2).map (r.1 :: ·)

def unframe (decode : List α → Option (β × List α)) (s : List α) : Option (List β) :=
  frames decode s.length s

variable {decode : List α → Option (β × List α)} {encode : β → List α} {xs : List β}

theorem frames_flatMap (hdec : ∀ x ∈ xs, ∀ rest, decode (encode x ++ rest) = some (x, rest))
    (hne : ∀ x ∈ xs, encode x ≠ []) {fuel : Nat} (hfuel : (xs.flatMap encode).length ≤ fuel) :
    frames decode fuel (xs.flatMap encode) = some xs := by
  induction xs generalizing fuel with
  | nil => rw [List.flatMap_nil, frames]
  | cons x xs ih =>
    obtain ⟨a, s, hx⟩ : ∃ a s, encode x = a :: s := List.exists_cons_of_ne_nil (hne x List.mem_cons_self)
    have hdec' := hdec x List.mem_cons_self (xs.flatMap encode)
    rw [List.flatMap_cons, List.length_append, hx, List.length_cons] at hfuel
    rw [List.flatMap_cons]
    rw [hx, List.cons_append] at hdec' ⊢
    cases fuel with
    | zero => omega
    | succ fuel =>
      have hrest : frames decode fuel (xs.flatMap encode) = some xs := by
        apply ih
        · intro y hy
          exact hdec y (List.mem_cons_of_mem _ hy)
        · intro y hy
          exact hne y (List.mem_cons_of_mem _ hy)
        · omega
      rw [frames, hdec', Option.bind_some, hrest, Option.map_some]

/-- What was written frame by frame is read frame by frame. -/
theorem unframe_flatMap (hdec : ∀ x ∈ xs, ∀ rest, decode (encode x ++ rest) = some (x, rest))
    (hne : ∀ x ∈ xs, encode x ≠ []) : unframe decode (xs.flatMap encode) = some xs :=
  frames_flatMap hdec hne (Nat.le_refl _)

/-! ## Pieces of a text -/

/-- A text in pieces of `limit`, the last of which may be shorter. -/
def pieces (limit : Nat) : Nat → List α → List (List α)
  | _, [] => []
  | 0, a :: s => [a :: s]
  | fuel + 1, a :: s => (a :: s).take limit :: pieces limit fuel ((a :: s).drop limit)

theorem pieces_flatten (limit fuel : Nat) (s : List α) : (pieces limit fuel s).flatten = s := by
  induction fuel generalizing s with
  | zero =>
    cases s with
    | nil => rfl
    | cons a s => rw [pieces, List.flatten_cons, List.flatten_nil, List.append_nil]
  | succ fuel ih =>
    cases s with
    | nil => rfl
    | cons a s => rw [pieces, List.flatten_cons, ih, List.take_append_drop]

theorem pieces_length {limit : Nat} (hlimit : 0 < limit) {fuel : Nat} {s : List α} (hfuel : s.length ≤ fuel) :
    ∀ p ∈ pieces limit fuel s, 1 ≤ p.length ∧ p.length ≤ limit := by
  induction fuel generalizing s with
  | zero =>
    cases s with
    | nil =>
      intro p hp
      cases hp
    | cons a s => cases hfuel
  | succ fuel ih =>
    cases s with
    | nil =>
      intro p hp
      cases hp
    | cons a s =>
      intro p hp
      rw [List.length_cons] at hfuel
      rw [pieces] at hp
      cases List.mem_cons.mp hp with
      | inl heq =>
        rw [heq, List.length_take, List.length_cons]
        omega
      | inr hp =>
        apply ih _ p hp
        rw [List.length_drop, List.length_cons]
        omega

end Frames

/-!
## Messages of lines, an empty line, and a body

A message is read as lines up to the first empty one, and what follows is its body. A line ends at
`lf`, and a `cr` right before that does not belong to it. `readFramed` reads back what was sent, as
long as no line that was sent is empty or holds an `lf`.
-/

section Framed

variable {α : Type*} [DecidableEq α] (cr lf : α)

/-- A line without a `cr` at its end. -/
def endLine (line : List α) : List α := if line.getLast? = some cr then line.dropLast else line

/-- The lines of a message, the first one after what `line` has of it, and the body. -/
def readFramedLoop : List α → List α → Option (List (List α) × List α)
  | _, [] => none
  | line, c :: s =>
    if c = lf then
      if endLine cr line = [] then some ([], s)
      else (readFramedLoop [] s).map fun (lines, body) => (endLine cr line :: lines, body)
    else readFramedLoop (line ++ [c]) s

def readFramed (s : List α) : Option (List (List α) × List α) := readFramedLoop cr lf [] s

variable {cr lf}

theorem endLine_concat (line : List α) : endLine cr (line ++ [cr]) = line := by
  unfold endLine
  rw [List.getLast?_concat, if_pos rfl, List.dropLast_concat]

theorem readFramedLoop_append {line t rest : List α} (ht : lf ∉ t) :
    readFramedLoop cr lf line (t ++ rest) = readFramedLoop cr lf (line ++ t) rest := by
  induction t generalizing line with
  | nil => rw [List.append_nil, List.nil_append]
  | cons c t ih =>
    have hc : c ≠ lf := fun h => ht (h ▸ List.mem_cons_self ..)
    rw [List.cons_append, readFramedLoop, if_neg hc, ih fun h => ht (List.mem_cons_of_mem _ h), List.append_assoc,
      List.singleton_append]

theorem readFramed_line {t rest : List α} (hne : cr ≠ lf) (ht : lf ∉ t) (hnil : t ≠ []) :
    readFramed cr lf (t ++ cr :: lf :: rest) = (readFramed cr lf rest).map fun (lines, body) => (t :: lines, body) := by
  unfold readFramed
  rw [readFramedLoop_append ht, List.nil_append, readFramedLoop, if_neg hne, readFramedLoop, if_pos rfl, endLine_concat,
    if_neg hnil]

theorem readFramed_blank {rest : List α} (hne : cr ≠ lf) : readFramed cr lf (cr :: lf :: rest) = some ([], rest) := by
  unfold readFramed
  rw [readFramedLoop, if_neg hne, readFramedLoop, if_pos rfl, endLine_concat, if_pos rfl]

theorem readFramed_message {lines : List (List α)} {body : List α} (hne : cr ≠ lf)
    (hlines : ∀ t ∈ lines, lf ∉ t ∧ t ≠ []) :
    readFramed cr lf (lines.flatMap (· ++ [cr, lf]) ++ cr :: lf :: body) = some (lines, body) := by
  induction lines with
  | nil => exact readFramed_blank hne
  | cons t lines ih =>
    obtain ⟨⟨ht, hnil⟩, hlines⟩ := List.forall_mem_cons.mp hlines
    rw [List.flatMap_cons, List.append_assoc, List.append_assoc, List.cons_append, List.cons_append, List.nil_append,
      readFramed_line hne ht hnil, ih hlines]
    rfl

end Framed

end RimStone.Lib
