import RimStone.Laws.Tree.Invariant

/-!
# Searching

Each search walks down one path. What it returns is said on the in-order list:
the node with the key, the last node on the lesser side of the key, the first
one on its greater side, and the two ends.
-/

namespace RimStone

open TreeNode

section Search

variable {c : TreeCtx}

/-- The search for a key finds its node, or there is none. -/
theorem rimTreeSearchLoop_spec (hc : c.Valid) {t : TreeNode} (ht : KeysOrdered c.keyType t.inorder) :
    (∃ d ∈ t.inorder, d.key.bytes = c.key.bytes ∧ rimTreeSearchLoop c t = some d.addr) ∨
      ((∀ d ∈ t.inorder, d.key.bytes ≠ c.key.bytes) ∧ rimTreeSearchLoop c t = none) := by
  induction t with
  | null => exact Or.inr ⟨fun d hd => absurd hd List.not_mem_nil, rfl⟩
  | node d h l g ihl ihg =>
    obtain ⟨hl, hg, hok, hld, hdg⟩ := ht.parts
    have hmem : ∀ e, e ∈ (node d h l g).inorder ↔ e ∈ l.inorder ∨ e = d ∨ e ∈ g.inorder := by
      intro e
      simp [inorder]
    unfold rimTreeSearchLoop
    by_cases hzero : rimTreeCompare c d.key = 0
    · simp only [hzero, ↓reduceIte]
      exact Or.inl ⟨d, (hmem d).mpr (Or.inr (Or.inl rfl)), ((rimTreeCompare_eq_zero hc hok).mp hzero).symm, rfl⟩
    · by_cases hlt : rimTreeCompare c d.key < 0
      · have hkd := (rimTreeCompare_neg hc hok).mp hlt
        simp only [hzero, hlt, ↓reduceIte]
        rcases ihl hl with ⟨e, he, hkey, hres⟩ | ⟨habs, hres⟩
        · exact Or.inl ⟨e, (hmem e).mpr (Or.inl he), hkey, hres⟩
        · refine Or.inr ⟨fun e he => ?_, hres⟩
          rcases (hmem e).mp he with he | rfl | he
          · exact habs e he
          · exact (rank_ne hkd).symm
          · exact (rank_ne (lt_trans hkd (hdg e he))).symm
      · have hdk := (rimTreeCompare_pos hc hok).mp (by omega)
        simp only [hzero, hlt, ↓reduceIte]
        rcases ihg hg with ⟨e, he, hkey, hres⟩ | ⟨habs, hres⟩
        · exact Or.inl ⟨e, (hmem e).mpr (Or.inr (Or.inr he)), hkey, hres⟩
        · refine Or.inr ⟨fun e he => ?_, hres⟩
          rcases (hmem e).mp he with he | rfl | he
          · exact rank_ne (lt_trans (hld e he) hdk)
          · exact rank_ne hdk
          · exact habs e he

def OnLesser (c : TreeCtx) (equal : Bool) (s : Bytes) : Prop :=
  c.keyType.rank s < c.keyType.rank c.key.bytes ∨ (equal = true ∧ s = c.key.bytes)

/-- The keys a greater(-equal) search may answer. -/
def OnGreater (c : TreeCtx) (equal : Bool) (s : Bytes) : Prop :=
  c.keyType.rank c.key.bytes < c.keyType.rank s ∨ (equal = true ∧ s = c.key.bytes)

/-- No key above the operation's is on the lesser side. -/
theorem not_onLesser {equal : Bool} {s : Bytes}
    (h : c.keyType.rank c.key.bytes < c.keyType.rank s) : ¬ OnLesser c equal s := by
  rintro (hlt | ⟨-, rfl⟩)
  · exact lt_asymm h hlt
  · exact lt_irrefl _ h

theorem not_onGreater {equal : Bool} {s : Bytes}
    (h : c.keyType.rank s < c.keyType.rank c.key.bytes) : ¬ OnGreater c equal s := by
  rintro (hlt | ⟨-, rfl⟩)
  · exact lt_asymm h hlt
  · exact lt_irrefl _ h

/-- The lesser search answers the last node on the lesser side of the key, or what
it was given. -/
theorem rimTreeSearchLesserEqualLoop_spec (hc : c.Valid) (equal : Bool) {t : TreeNode}
    (ht : KeysOrdered c.keyType t.inorder) (prev : Option Addr) :
    (∃ I d J, t.inorder = I ++ d :: J ∧ OnLesser c equal d.key.bytes ∧
        (∀ e ∈ J, ¬ OnLesser c equal e.key.bytes) ∧
        rimTreeSearchLesserEqualLoop c equal t prev = some d.addr) ∨
      ((∀ e ∈ t.inorder, ¬ OnLesser c equal e.key.bytes) ∧ rimTreeSearchLesserEqualLoop c equal t prev = prev) := by
  induction t generalizing prev with
  | null => exact Or.inr ⟨fun d hd => absurd hd List.not_mem_nil, rfl⟩
  | node d h l g ihl ihg =>
    obtain ⟨hl, hg, hok, hld, hdg⟩ := ht.parts
    unfold rimTreeSearchLesserEqualLoop
    by_cases hzero : rimTreeCompare c d.key = 0
    · have hkey := (rimTreeCompare_eq_zero hc hok).mp hzero
      have hgreater : ∀ e ∈ g.inorder, ¬ OnLesser c equal e.key.bytes := fun e he =>
        not_onLesser (hkey ▸ hdg e he)
      cases equal with
      | true =>
        simp only [hzero, and_self, ↓reduceIte]
        exact Or.inl ⟨l.inorder, d, g.inorder, rfl, Or.inr ⟨rfl, hkey.symm⟩, hgreater, rfl⟩
      | false =>
        simp only [hzero, Bool.false_eq_true, and_false, ↓reduceIte]
        have hd : ¬ OnLesser c false d.key.bytes := by simp [OnLesser, hkey]
        have hright : ∀ x ∈ d :: g.inorder, ¬ OnLesser c false x.key.bytes := List.forall_mem_cons.mpr ⟨hd, hgreater⟩
        rcases ihl hl prev with ⟨I, e, J, hin, he, hJ, hres⟩ | ⟨habs, hres⟩
        · refine Or.inl ⟨I, e, J ++ d :: g.inorder, ?_, he, List.forall_mem_append.mpr ⟨hJ, hright⟩, hres⟩
          simp only [inorder, hin, List.append_assoc, List.cons_append]
        · exact Or.inr ⟨List.forall_mem_append.mpr ⟨habs, hright⟩, hres⟩
    · by_cases hlt : rimTreeCompare c d.key < 0
      · have hkd := (rimTreeCompare_neg hc hok).mp hlt
        simp only [hzero, hlt, false_and, ↓reduceIte]
        have hright : ∀ x ∈ d :: g.inorder, ¬ OnLesser c equal x.key.bytes :=
          List.forall_mem_cons.mpr ⟨not_onLesser hkd, fun x hx => not_onLesser (lt_trans hkd (hdg x hx))⟩
        rcases ihl hl prev with ⟨I, e, J, hin, he, hJ, hres⟩ | ⟨habs, hres⟩
        · refine Or.inl ⟨I, e, J ++ d :: g.inorder, ?_, he, List.forall_mem_append.mpr ⟨hJ, hright⟩, hres⟩
          simp only [inorder, hin, List.append_assoc, List.cons_append]
        · exact Or.inr ⟨List.forall_mem_append.mpr ⟨habs, hright⟩, hres⟩
      · have hdk := (rimTreeCompare_pos hc hok).mp (by omega)
        simp only [hzero, hlt, false_and, ↓reduceIte]
        -- `d` is the answer unless a greater node is on the lesser side too
        rcases ihg hg (some d.addr) with ⟨I, e, J, hin, he, hJ, hres⟩ | ⟨habs, hres⟩
        · refine Or.inl ⟨l.inorder ++ d :: I, e, J, ?_, he, hJ, hres⟩
          simp only [inorder, hin, List.append_assoc, List.cons_append]
        · exact Or.inl ⟨l.inorder, d, g.inorder, rfl, Or.inl hdk, habs, hres⟩

/-- The greater search answers the first node on the greater side of the key. -/
theorem rimTreeSearchGreaterEqualLoop_spec (hc : c.Valid) (equal : Bool) {t : TreeNode}
    (ht : KeysOrdered c.keyType t.inorder) (prev : Option Addr) :
    (∃ I d J, t.inorder = I ++ d :: J ∧ OnGreater c equal d.key.bytes ∧
        (∀ e ∈ I, ¬ OnGreater c equal e.key.bytes) ∧
        rimTreeSearchGreaterEqualLoop c equal t prev = some d.addr) ∨
      ((∀ e ∈ t.inorder, ¬ OnGreater c equal e.key.bytes) ∧ rimTreeSearchGreaterEqualLoop c equal t prev = prev) := by
  induction t generalizing prev with
  | null => exact Or.inr ⟨fun d hd => absurd hd List.not_mem_nil, rfl⟩
  | node d h l g ihl ihg =>
    obtain ⟨hl, hg, hok, hld, hdg⟩ := ht.parts
    have hjoin : ∀ {P : NodeData → Prop}, (∀ x ∈ l.inorder, P x) → P d →
        ∀ {X : List NodeData}, (∀ x ∈ X, P x) → ∀ x ∈ l.inorder ++ d :: X, P x := fun hl hd _ hX =>
      List.forall_mem_append.mpr ⟨hl, List.forall_mem_cons.mpr ⟨hd, hX⟩⟩
    unfold rimTreeSearchGreaterEqualLoop
    by_cases hzero : rimTreeCompare c d.key = 0
    · have hkey := (rimTreeCompare_eq_zero hc hok).mp hzero
      have hlesser : ∀ e ∈ l.inorder, ¬ OnGreater c equal e.key.bytes := fun e he =>
        not_onGreater (hkey ▸ hld e he)
      cases equal with
      | true =>
        simp only [hzero, and_self, ↓reduceIte]
        exact Or.inl ⟨l.inorder, d, g.inorder, rfl, Or.inr ⟨rfl, hkey.symm⟩, hlesser, rfl⟩
      | false =>
        simp only [hzero, Bool.false_eq_true, and_false, ↓reduceIte]
        have hd : ¬ OnGreater c false d.key.bytes := by simp [OnGreater, hkey]
        rcases ihg hg prev with ⟨I, e, J, hin, he, hI, hres⟩ | ⟨habs, hres⟩
        · refine Or.inl ⟨l.inorder ++ d :: I, e, J, ?_, he, hjoin hlesser hd hI, hres⟩
          simp only [inorder, hin, List.append_assoc, List.cons_append]
        · exact Or.inr ⟨hjoin hlesser hd habs, hres⟩
    · by_cases hlt : rimTreeCompare c d.key < 0
      · have hkd := (rimTreeCompare_neg hc hok).mp hlt
        simp only [hzero, hlt, false_and, ↓reduceIte]
        -- `d` is the answer unless a lesser node is on the greater side too
        rcases ihl hl (some d.addr) with ⟨I, e, J, hin, he, hI, hres⟩ | ⟨habs, hres⟩
        · refine Or.inl ⟨I, e, J ++ d :: g.inorder, ?_, he, hI, hres⟩
          simp only [inorder, hin, List.append_assoc, List.cons_append]
        · exact Or.inl ⟨l.inorder, d, g.inorder, rfl, Or.inl hkd, habs, hres⟩
      · have hdk := (rimTreeCompare_pos hc hok).mp (by omega)
        simp only [hzero, hlt, false_and, ↓reduceIte]
        have hleft : ∀ x ∈ l.inorder, ¬ OnGreater c equal x.key.bytes := fun x hx =>
          not_onGreater (lt_trans (hld x hx) hdk)
        rcases ihg hg prev with ⟨I, e, J, hin, he, hI, hres⟩ | ⟨habs, hres⟩
        · refine Or.inl ⟨l.inorder ++ d :: I, e, J, ?_, he, hjoin hleft (not_onGreater hdk) hI, hres⟩
          simp only [inorder, hin, List.append_assoc, List.cons_append]
        · exact Or.inr ⟨hjoin hleft (not_onGreater hdk) habs, hres⟩

end Search

theorem inorder_ne_nil {t : TreeNode} (hne : t ≠ null) : t.inorder ≠ [] := by
  obtain ⟨d, h, l, g, rfl⟩ := exists_node hne
  simp [inorder]

/-- Going down on one side ends at that end of the order. -/
theorem lastNode_lesser {t : TreeNode} (hne : t ≠ null) : lastNode .lesser t = (t.inorder.head?).map (·.addr) := by
  induction t with
  | null => exact absurd rfl hne
  | node d h l g ihl ihg =>
    unfold lastNode
    by_cases hnull : l = null
    · subst hnull
      rfl
    · simp only [isNull_false_iff.mpr hnull, Bool.false_eq_true, ↓reduceIte, ihl hnull]
      rw [inorder, List.head?_append_of_ne_nil _ (inorder_ne_nil hnull)]

theorem lastNode_greater {t : TreeNode} (hne : t ≠ null) : lastNode .greater t = (t.inorder.getLast?).map (·.addr) := by
  induction t with
  | null => exact absurd rfl hne
  | node d h l g ihl ihg =>
    unfold lastNode
    by_cases hnull : g = null
    · subst hnull
      simp [isNull, inorder]
    · simp only [isNull_false_iff.mpr hnull, Bool.false_eq_true, ↓reduceIte, ihg hnull]
      have hsplit : (node d h l g).inorder = (l.inorder ++ [d]) ++ g.inorder := by
        simp [inorder]
      rw [hsplit, List.getLast?_append_of_ne_nil _ (inorder_ne_nil hnull)]

end RimStone
