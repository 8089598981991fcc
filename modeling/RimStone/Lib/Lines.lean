import Mathlib.Data.List.Infix

/-!
# Lines and borders

A text is made of lines, each with a separator behind it. `single` drops every separator that another one follows, and
so the lines that are empty. What occurs in the text and has no separator occurs in a line.

A text without a border occurs nowhere over itself: of two occurrences one begins where the other is over.
-/

namespace RimStone.Lib

universe u

variable {α : Type u}

/-! ## Lines -/

def unlines (sep : α) (ls : List (List α)) : List α := ls.flatMap (· ++ [sep])

@[simp] theorem unlines_nil (sep : α) : unlines sep [] = [] := rfl

@[simp] theorem unlines_cons (sep : α) (l : List α) (ls : List (List α)) :
    unlines sep (l :: ls) = l ++ sep :: unlines sep ls := by simp [unlines]

@[simp] theorem unlines_append (sep : α) (ls ls' : List (List α)) :
    unlines sep (ls ++ ls') = unlines sep ls ++ unlines sep ls' := by simp [unlines]

/-- What has no separator and occurs in a text occurs in one of its lines. -/
theorem infix_unlines {sep : α} {p : List α} (hp : sep ∉ p) (hne : p ≠ []) {ls : List (List α)}
    (h : p <:+: unlines sep ls) : ∃ l ∈ ls, p <:+: l := by
  induction ls with
  | nil => exact absurd (List.infix_nil.mp h) hne
  | cons l ls ih =>
    rw [unlines_cons] at h
    obtain ⟨u, v, huv⟩ := h
    obtain ⟨r, hr, hv⟩ | ⟨r, hu, hr⟩ := List.append_eq_append_iff.mp huv
    · -- the occurrence ends in the line
      exact ⟨l, List.mem_cons_self, u, r, hr.symm⟩
    · cases r with
      | nil =>
        rw [List.append_nil] at hu
        exact ⟨l, List.mem_cons_self, u, [], by rw [List.append_nil, hu]⟩
      | cons c r =>
        rw [List.cons_append, List.cons.injEq] at hr
        obtain ⟨rfl, hr⟩ := hr
        -- the separator behind the line is not in the occurrence, which begins behind it
        obtain ⟨q, hq, hp'⟩ | ⟨q, hl, hq⟩ := List.append_eq_append_iff.mp hu
        · cases q with
          | nil =>
            rw [List.nil_append] at hp'
            exact absurd (hp' ▸ List.mem_cons_self) hp
          | cons => exact absurd (hp' ▸ List.mem_append_right _ List.mem_cons_self) hp
        · cases q with
          | nil =>
            rw [List.nil_append] at hq
            exact absurd (hq ▸ List.mem_cons_self) hp
          | cons d q =>
            rw [List.cons_append, List.cons.injEq] at hq
            obtain ⟨l', hl', hin⟩ := ih ⟨q, v, by rw [hr, hq.2]⟩
            exact ⟨l', List.mem_cons_of_mem _ hl', hin⟩

section Single

variable [DecidableEq α]

/-- Without the separators that another one follows. -/
def single (sep : α) : List α → List α
  | [] => []
  | c :: s => if c = sep ∧ s.head? = some sep then single sep s else c :: single sep s

theorem single_cons_of_ne {sep c : α} (h : c ≠ sep) (s : List α) : single sep (c :: s) = c :: single sep s := by
  rw [single, if_neg fun hc => h hc.1]

theorem single_append_of_not_mem {sep : α} {a : List α} (h : sep ∉ a) (s : List α) :
    single sep (a ++ s) = a ++ single sep s := by
  induction a with
  | nil => rfl
  | cons c a ih =>
    have hc : c ≠ sep := fun hc => h (hc ▸ List.mem_cons_self)
    rw [List.cons_append, single_cons_of_ne hc, ih fun ha => h (List.mem_cons_of_mem _ ha), List.cons_append]

theorem single_sep_of_ne {sep c : α} (h : c ≠ sep) (s : List α) : single sep (sep :: c :: s) =
    sep :: c :: single sep s := by
  rw [single, if_neg fun hc => h (Option.some.inj hc.2), single_cons_of_ne h]

theorem single_cons_cons (sep : α) (s : List α) : single sep (sep :: sep :: s) = single sep (sep :: s) := by
  rw [single, if_pos ⟨rfl, rfl⟩]

theorem single_head (sep : α) (s : List α) : (single sep s).head? = s.head? := by
  induction s with
  | nil => rfl
  | cons c s ih =>
    rw [single]
    split
    · next h => rw [ih, h.2, List.head?_cons, h.1]
    · rfl

theorem single_cons_congr {sep : α} {s t : List α} (h : single sep s = single sep t) (c : α) :
    single sep (c :: s) = single sep (c :: t) := by
  have hhead : s.head? = t.head? := by rw [← single_head sep s, h, single_head]
  rw [single, single, hhead, h]

/-- A separator in front makes a text longer by one at most. -/
theorem single_cons_length (sep : α) (s : List α) :
    (single sep s).length ≤ (single sep (sep :: s)).length ∧
      (single sep (sep :: s)).length ≤ (single sep s).length + 1 := by
  rw [single]
  split
  · omega
  · rw [List.length_cons]
    omega

theorem single_length_le (sep : α) (s : List α) : (single sep s).length ≤ s.length := by
  induction s with
  | nil => exact le_rfl
  | cons c s ih =>
    rw [single]
    split
    · exact ih.trans (Nat.le_succ _)
    · exact Nat.succ_le_succ ih

/-- Behind a separator the empty lines go. -/
theorem single_sep_unlines {sep : α} {ls : List (List α)} (h : ∀ l ∈ ls, sep ∉ l) :
    single sep (sep :: unlines sep ls) = sep :: unlines sep (ls.filter (· ≠ [])) := by
  induction ls with
  | nil => simp [single]
  | cons l ls ih =>
    obtain ⟨hl, hls⟩ := List.forall_mem_cons.mp h
    cases l with
    | nil =>
      rw [unlines_cons, List.nil_append, single, if_pos ⟨rfl, rfl⟩, ih hls]
      simp
    | cons c l =>
      have hc : c ≠ sep := fun hc => hl (hc ▸ List.mem_cons_self)
      have hhead : ¬ (sep = sep ∧ (unlines sep ((c :: l) :: ls)).head? = some sep) := by simp [hc]
      rw [single, if_neg hhead, unlines_cons, single_append_of_not_mem hl, ih hls]
      simp

/-- Lines of which the first is not empty. -/
theorem single_unlines {sep : α} {l : List α} {ls : List (List α)} (hne : l ≠ []) (h : ∀ l' ∈ l :: ls, sep ∉ l') :
    single sep (unlines sep (l :: ls)) = unlines sep ((l :: ls).filter (· ≠ [])) := by
  obtain ⟨hl, hls⟩ := List.forall_mem_cons.mp h
  rw [unlines_cons, single_append_of_not_mem hl, single_sep_unlines hls, List.filter_cons_of_pos (by simpa using hne),
    unlines_cons]

/-- A text of which nothing is dropped has no separators in a row. -/
theorem not_infix_of_single {sep : α} {s : List α} (h : single sep s = s) : ¬ [sep, sep] <:+: s := by
  rintro ⟨u, v, rfl⟩
  rw [List.append_assoc] at h
  induction u with
  | nil =>
    have hlen := congrArg List.length h
    have hle := single_length_le sep (sep :: v)
    simp only [List.nil_append, List.cons_append, single, List.head?_cons, and_self, if_true,
      List.length_cons] at hlen hle
    omega
  | cons c u ih =>
    rw [List.cons_append, single] at h
    split at h
    · have hlen := congrArg List.length h
      have hle := single_length_le sep (u ++ ([sep, sep] ++ v))
      rw [List.length_cons] at hlen
      omega
    · exact ih (List.cons.inj h).2

/-- What is left of a text when a part of it is dropped: at least what else is dropped is missing. -/
theorem single_length_sublist {sep : α} {s t : List α} (h : s.Sublist t) :
    (single sep s).length + t.countP (· ≠ sep) ≤ (single sep t).length + s.countP (· ≠ sep) ∧
      (single sep (sep :: s)).length + t.countP (· ≠ sep) ≤ (single sep (sep :: t)).length + s.countP (· ≠ sep) := by
  induction h with
  | slnil => exact ⟨le_rfl, le_rfl⟩
  | @cons s t c _ ih =>
    have hs := single_cons_length sep s
    have ht := single_cons_length sep t
    by_cases hc : c = sep
    · subst hc
      rw [List.countP_cons_of_neg (by simp), single_cons_cons]
      exact ⟨by omega, ih.2⟩
    · rw [List.countP_cons_of_pos (by simpa using hc), single_cons_of_ne hc, single_sep_of_ne hc]
      simp only [List.length_cons]
      exact ⟨by omega, by omega⟩
  | @cons_cons s t c _ ih =>
    by_cases hc : c = sep
    · subst hc
      rw [List.countP_cons_of_neg (by simp), List.countP_cons_of_neg (by simp), single_cons_cons, single_cons_cons]
      exact ⟨ih.2, ih.2⟩
    · rw [List.countP_cons_of_pos (by simpa using hc), List.countP_cons_of_pos (by simpa using hc), single_cons_of_ne hc,
        single_cons_of_ne hc, single_sep_of_ne hc, single_sep_of_ne hc]
      simp only [List.length_cons]
      exact ⟨by omega, by omega⟩

end Single

/-! ## Borders -/

/-- No end of the text is its beginning, but for the whole of it and nothing. -/
def Borderless (p : List α) : Prop := ∀ k, 0 < k → k < p.length → ¬ p.drop k <+: p

instance [DecidableEq α] (p : List α) : Decidable (Borderless p) :=
  decidable_of_iff (∀ k < p.length, 0 < k → ¬ p.drop k <+: p) ⟨fun h k h0 hk => h k hk h0, fun h k hk h0 => h k h0 hk⟩

/-- Of two occurrences the second one begins where the first one is over. -/
theorem Borderless.apart {p : List α} (h : Borderless p) {a b : List α} (ha : a ≠ []) (hp : p <+: a ++ (p ++ b)) :
    p <+: a := by
  by_contra hnot
  have hlen : a.length < p.length := by
    by_contra hle
    exact hnot (List.prefix_of_prefix_length_le hp (List.prefix_append a _) (Nat.not_lt.mp hle))
  obtain ⟨t, ht⟩ := hp
  have hdrop : p.drop a.length ++ t = p ++ b := by
    have hsame := congrArg (List.drop a.length) ht
    rw [List.drop_left, List.drop_append_of_le_length hlen.le] at hsame
    exact hsame
  refine h a.length (List.length_pos_iff.mpr ha) hlen ?_
  refine List.prefix_of_prefix_length_le ⟨t, hdrop⟩ (List.prefix_append p b) ?_
  rw [List.length_drop]
  omega

end RimStone.Lib
