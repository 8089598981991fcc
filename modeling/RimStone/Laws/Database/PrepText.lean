import RimStone.Database.PrepText
import RimStone.Laws.Text.ReplaceString

/-!
# Every placeholder is a parameter

A text is cut at the places of `'%s'`, each behind the one before. `rim_db_prep_text` joins the parts with the
marks of the parameters, and leaves off after 65535 marks whatever is behind; so it answers the whole text where
there are fewer, or where nothing is behind the last. There are at least as many places where case is ignored,
which is why there is room.
-/

namespace RimStone

open RimStone.Lib

def FoundAt (test : Bytes → Bool) (s : Bytes) (k : Nat) : Prop := k < s.length ∧ test (s.drop k) = true

/-- `'%s'` is at a place. -/
def PlaceholderAt : Bytes → Nat → Prop := FoundAt fun s => decide (s.take 4 = RIM_LOOK_S)

/-- `'%s'` or `'%S'` is at a place. -/
def AnyCaseAt : Bytes → Nat → Prop := FoundAt fun s => sameCase (s.take 4) RIM_LOOK_S

/-- The text comes back with a mark for each placeholder, and is refused where they are more than 65535. -/
def PrepsText (db : DbVendor) (t : Bytes) (ks : List Nat) (ps : List Bytes) : Prop :=
  ∀ tot block, rimCountSubstring t RIM_LOOK_S 4 false = some tot → block.length = prepSize db t tot →
    if ks.length ≤ 65535 then rimDbPrepText db t block = .ok (weave (paramMark db) 1 ps)
    else ∃ message, rimDbPrepText db t block = .error (.report message ())

/-! ## Searching -/

section Search

variable {test : Bytes → Bool} {s : Bytes} {k : Nat}

theorem foundAt_add (j : Nat) : FoundAt test s (j + k) ↔ FoundAt test (s.drop j) k := by
  unfold FoundAt
  rw [List.length_drop, List.drop_drop]
  constructor
  · rintro ⟨hlt, h⟩
    exact ⟨by omega, h⟩
  · rintro ⟨hlt, h⟩
    exact ⟨by omega, h⟩

theorem foundAt_iff (test : Bytes → Bool) (hnil : test [] = false) : k ≤ s.length ∧ test (s.drop k) = true ↔ FoundAt test s k := by
  unfold FoundAt
  refine ⟨fun ⟨hle, h⟩ => ⟨?_, h⟩, fun ⟨hlt, h⟩ => ⟨Nat.le_of_lt hlt, h⟩⟩
  refine Nat.lt_of_le_of_ne hle fun hend => ?_
  rw [hend, List.drop_length, hnil] at h
  cases h

theorem strstr_spec (s : Bytes) : FirstWhere (PlaceholderAt s) (strstr s RIM_LOOK_S) := by
  apply (strstr_where RIM_LOOK_S s).congr
  intro k
  rw [← decide_eq_true_iff (p := (s.drop k).take RIM_LOOK_S.length = RIM_LOOK_S)]
  exact foundAt_iff (fun s => decide (s.take 4 = RIM_LOOK_S)) rfl

theorem strcasestr_spec (s : Bytes) : FirstWhere (AnyCaseAt s) (strcasestr s RIM_LOOK_S) := by
  apply (strcasestr_where RIM_LOOK_S s).congr
  intro k
  exact foundAt_iff (fun s => sameCase (s.take 4) RIM_LOOK_S) rfl

/-- The places of the cuts are counted. -/
theorem countLoop_eq {D : Bytes → Nat → Prop} {search : Bytes → Bytes → Option Nat} {find : Bytes} {n : Nat} (hn : 0 < n)
    (hlt : ∀ r k, D r k → k < r.length)
    (hspec : ∀ s, FirstWhere (D s) (search s find))
    {s : Bytes} {ks : List Nat} {ps : List Bytes} (h : Cuts D n s ks ps) (fuel count : Nat) (hfuel : s.length < fuel) :
    countLoop search find n fuel s count = some (count + ks.length) := by
  induction h generalizing fuel count with
  | @last s hno =>
    obtain ⟨fuel, rfl⟩ : ∃ m, fuel = m + 1 := ⟨fuel - 1, by omega⟩
    rw [countLoop, (hspec s).eq_none hno]
    rfl
  | @cut s k ks ps hk hrest ih =>
    obtain ⟨fuel, rfl⟩ : ∃ m, fuel = m + 1 := ⟨fuel - 1, by omega⟩
    rw [countLoop, (hspec s).eq_some hk]
    have hlen := hlt s k hk.1
    show countLoop search find n fuel (s.drop (k + n)) (count + 1) = _
    rw [ih fuel (count + 1) (by rw [List.length_drop]; omega), List.length_cons, List.length_map]
    congr 1
    omega

end Search

theorem foundAt_lt (test : Bytes → Bool) : ∀ r k, FoundAt test r k → k < r.length := fun _ _ h => h.1

/-- The arguments of a text are as many as its placeholders. -/
theorem count_placeholders {t : Bytes} {ks : List Nat} {ps : List Bytes} (h : Cuts PlaceholderAt 4 t ks ps) :
    rimCountSubstring t RIM_LOOK_S 4 true = some ks.length := by
  have hloop := countLoop_eq (by decide) (foundAt_lt _) strstr_spec h (t.length + 1) 0 (Nat.lt_succ_self _)
  rw [Nat.zero_add] at hloop
  exact hloop

/-- Where case is ignored there are at least as many. -/
theorem exists_count {t : Bytes} {ks : List Nat} {ps : List Bytes} (h : Cuts PlaceholderAt 4 t ks ps) :
    ∃ tot, rimCountSubstring t RIM_LOOK_S 4 false = some tot ∧ ks.length ≤ tot := by
  obtain ⟨ks', ps', h'⟩ := exists_cuts (D := AnyCaseAt) (n := 4) (by decide) (foundAt_lt _) t
  have hloop := countLoop_eq (by decide) (foundAt_lt _) strcasestr_spec h' (t.length + 1) 0 (Nat.lt_succ_self _)
  rw [Nat.zero_add] at hloop
  refine ⟨ks'.length, hloop, h.length_le (by decide) (fun r j k => foundAt_add j) (foundAt_lt _) ?_ h'⟩
  rintro r k ⟨hlt, htest⟩
  refine ⟨hlt, ?_⟩
  have htake : (r.drop k).take 4 = RIM_LOOK_S := of_decide_eq_true htest
  show sameCase ((r.drop k).take 4) RIM_LOOK_S = true
  rw [htake]
  decide

/-! ## Writing -/

/-- The parts that are written where `m` marks may be: nothing is behind the last of them. -/
def limited (m : Nat) (ps : List Bytes) : List Bytes := if ps.length ≤ m then ps else ps.take m ++ [[]]

theorem limited_ne_nil {m : Nat} {ps : List Bytes} (hps : ps ≠ []) : limited m ps ≠ [] := by
  unfold limited
  split
  next => exact hps
  next => exact fun h => List.cons_ne_nil _ _ (List.append_eq_nil_iff.mp h).2

theorem limited_cons (m : Nat) (p : Bytes) (ps : List Bytes) : limited (m + 1) (p :: ps) = p :: limited m ps := by
  unfold limited
  rw [List.length_cons]
  by_cases h : ps.length ≤ m
  · rw [if_pos (by omega), if_pos h]
  · rw [if_neg (by omega), if_neg h, List.take_succ_cons, List.cons_append]

theorem limited_zero {ps : List Bytes} (hps : ps ≠ []) : limited 0 ps = [[]] := by
  have hpos := List.length_pos_of_ne_nil hps
  unfold limited
  rw [if_neg (by omega), List.take_zero, List.nil_append]

/-- `'%s'` takes four bytes. -/
theorem placeholderAt_take {r : Bytes} {k : Nat} (h : PlaceholderAt r k) : (r.drop k).take 4 = RIM_LOOK_S :=
  of_decide_eq_true h.2

theorem placeholderAt_length {r : Bytes} {k : Nat} (h : PlaceholderAt r k) : k + 4 ≤ r.length := by
  have hlen := congrArg List.length (placeholderAt_take h)
  rw [List.length_take, List.length_drop] at hlen
  have hlook : RIM_LOOK_S.length = 4 := rfl
  omega

theorem paramMark_length (db : DbVendor) {p : Nat} (hp : p ≤ 65535) :
    (paramMark db p).length ≤ 6 ∧ (db ≠ .postgres → (paramMark db p).length = 1) := by
  cases db with
  | mariadb => exact ⟨show 1 ≤ 6 by decide, fun _ => rfl⟩
  | sqlite => exact ⟨show 1 ≤ 6 by decide, fun _ => rfl⟩
  | postgres =>
    have hdigits := Nat.repr_length p 5 (by decide) (by omega)
    have hlen : (paramMark .postgres p).length = (Nat.repr p).length + 1 := by
      rw [paramMark, List.length_cons, ascii, List.length_map, String.length_toList]
    exact ⟨by omega, fun h => absurd rfl h⟩

theorem repr_ne_zero (n : Nat) : ∀ c ∈ ascii (Nat.repr n), c ≠ 0 := by
  rintro c hc rfl
  have hdigit := isdigit_repr hc
  cases hdigit

theorem paramMark_ne_zero (db : DbVendor) (p : Nat) : ∀ c ∈ paramMark db p, c ≠ 0 := by
  cases db with
  | mariadb => exact fun c hc => by rw [List.mem_singleton.mp hc]; decide
  | sqlite => exact fun c hc => by rw [List.mem_singleton.mp hc]; decide
  | postgres => exact List.forall_mem_cons.mpr ⟨by decide, repr_ne_zero p⟩

theorem mem_weave {f : Nat → Bytes} {ps : List Bytes} {c : UInt8} (i : Nat) (h : c ∈ weave f i ps) :
    (∃ p ∈ ps, c ∈ p) ∨ ∃ j, c ∈ f j := by
  induction ps generalizing i with
  | nil => cases h
  | cons p ps ih =>
    by_cases hps : ps = []
    · subst hps
      exact .inl ⟨p, List.mem_cons_self, h⟩
    · rw [weave_cons f i p hps] at h
      obtain h | h := List.mem_append.mp h
      · exact .inl ⟨p, List.mem_cons_self, h⟩
      obtain h | h := List.mem_append.mp h
      · exact .inr ⟨i, h⟩
      · obtain ⟨q, hq, hc⟩ | hj := ih (i + 1) h
        · exact .inl ⟨q, List.mem_cons_of_mem _ hq, hc⟩
        · exact .inr hj

section Writing

variable {db : DbVendor} {t : Bytes} {ks : List Nat} {ps : List Bytes}

theorem length_weave_le {e : Nat} {f : Nat → Bytes} (hf : ∀ i ≤ 65535, (f i).length ≤ 4 + e)
    (h : Cuts PlaceholderAt 4 t ks ps) {p m : Nat} (hp : p + m = 65536) :
    (weave f p (limited m ps)).length ≤ t.length + e * ks.length := by
  induction h generalizing p m with
  | @last t _ =>
    cases m with
    | zero =>
      rw [limited_zero (List.cons_ne_nil _ _)]
      exact Nat.zero_le _
    | succ m => exact Nat.le_add_right _ _
  | @cut t k ks ps hk hrest ih =>
    have hlen := placeholderAt_length hk.1
    cases m with
    | zero =>
      rw [limited_zero (List.cons_ne_nil _ _)]
      exact Nat.zero_le _
    | succ m =>
      have hmark := hf p (by omega)
      have hmore := ih (p := p + 1) (m := m) (by omega)
      rw [List.length_drop] at hmore
      rw [limited_cons, weave_cons _ _ _ (limited_ne_nil hrest.ne_nil), List.length_append, List.length_append,
        List.length_take, List.length_cons, List.length_map, Nat.mul_succ]
      omega

/-- A mark is written, and a null behind it. -/
theorem writeMark_eq (db : DbVendor) (p : Nat) (a free : Bytes) (hfree : (paramMark db p).length < free.length) :
    ∃ x free', free.length = (paramMark db p).length + 1 + free'.length ∧
      writeMark db p (a ++ free) a.length = some (a ++ paramMark db p ++ x :: free') := by
  have hone : ∀ y z : UInt8, ∀ free : Bytes, poke (a ++ y :: z :: free) a.length 63 = some (a ++ [63] ++ z :: free) := by
    intro y z free
    rw [poke_middle, List.append_assoc]
    rfl
  cases db with
  | postgres =>
    have hlen : (paramMark .postgres p ++ [0]).length ≤ free.length := by
      rw [List.length_append, List.length_singleton]
      exact hfree
    refine ⟨0, free.drop (paramMark .postgres p ++ [0]).length, ?_, ?_⟩
    · rw [List.length_drop, List.length_append, List.length_singleton]
      omega
    · show memcpy _ _ _ = _
      rw [memcpy_append a hlen]
      simp only [List.append_assoc, List.cons_append, List.nil_append]
  | mariadb =>
    obtain ⟨y, free, rfl⟩ := List.exists_cons_of_length_pos (Nat.lt_of_le_of_lt (Nat.zero_le _) hfree)
    obtain ⟨z, free, rfl⟩ := List.exists_cons_of_length_pos (Nat.lt_of_succ_lt_succ hfree : 0 < free.length)
    refine ⟨z, free, ?_, hone y z free⟩
    show free.length + 1 + 1 = 1 + 1 + free.length
    omega
  | sqlite =>
    obtain ⟨y, free, rfl⟩ := List.exists_cons_of_length_pos (Nat.lt_of_le_of_lt (Nat.zero_le _) hfree)
    obtain ⟨z, free, rfl⟩ := List.exists_cons_of_length_pos (Nat.lt_of_succ_lt_succ hfree : 0 < free.length)
    refine ⟨z, free, ?_, hone y z free⟩
    show free.length + 1 + 1 = 1 + 1 + free.length
    omega

/-- What the loop writes. -/
theorem prepLoop_eq (h : Cuts PlaceholderAt 4 t ks ps) {p m : Nat} (hp : p + (m + 1) = 65536) (fuel : Nat) (out free : Bytes)
    (hfuel : t.length < fuel) (hfree : (weave (paramMark db) p (limited (m + 1) ps)).length < free.length) :
    ∃ free', prepLoop db fuel t (out ++ free) out.length p =
      some (out ++ (weave (paramMark db) p (limited (m + 1) ps) ++ 0 :: free')) := by
  induction h generalizing p m fuel out free with
  | @last t hno =>
    obtain ⟨fuel, rfl⟩ : ∃ n, fuel = n + 1 := ⟨fuel - 1, by omega⟩
    have hsearch : strstr t RIM_LOOK_S = none := (strstr_spec t).eq_none hno
    have hall : weave (paramMark db) p (limited (m + 1) [t]) = t := by
      unfold limited
      rw [if_pos (by rw [List.length_singleton]; omega)]
      rfl
    rw [hall] at hfree ⊢
    refine ⟨free.drop (t ++ [0]).length, ?_⟩
    rw [prepLoop, hsearch]
    show memcpy _ _ _ = _
    rw [memcpy_append out (by rw [List.length_append, List.length_singleton]; exact hfree)]
    simp only [List.append_assoc, List.cons_append, List.nil_append]
  | @cut t k ks ps hk hrest ih =>
    obtain ⟨fuel, rfl⟩ : ∃ n, fuel = n + 1 := ⟨fuel - 1, by omega⟩
    have hlen := placeholderAt_length hk.1
    have hsearch : strstr t RIM_LOOK_S = some k := (strstr_spec t).eq_some hk
    rw [limited_cons, weave_cons _ _ _ (limited_ne_nil hrest.ne_nil)] at hfree ⊢
    rw [List.length_append, List.length_append, List.length_take_of_le (by omega)] at hfree
    have hcopy : memcpy (out ++ free) out.length (t.take k) = some (out ++ t.take k ++ free.drop k) := by
      rw [memcpy_append out (by rw [List.length_take]; omega), List.length_take_of_le (by omega)]
    have hpos : out.length + k = (out ++ t.take k).length := by
      rw [List.length_append, List.length_take_of_le (by omega)]
    obtain ⟨x, free', hfree', hmark⟩ := writeMark_eq db p (out ++ t.take k) (free.drop k)
      (by rw [List.length_drop]; omega)
    rw [List.length_drop] at hfree'
    have hnull : poke (out ++ t.take k ++ paramMark db p ++ x :: free') (out ++ t.take k ++ paramMark db p).length 0 =
        some (out ++ t.take k ++ paramMark db p ++ 0 :: free') := poke_middle _ _ _ _
    have hround : prepLoop db (fuel + 1) t (out ++ free) out.length p =
        if p + 1 > 65535 then some (out ++ t.take k ++ paramMark db p ++ 0 :: free')
        else prepLoop db fuel (t.drop (k + 4)) (out ++ t.take k ++ paramMark db p ++ 0 :: free')
          (out ++ t.take k ++ paramMark db p).length (p + 1) := by
      rw [prepLoop, hsearch]
      simp only [bind, Option.bind, hcopy, hpos, hmark]
      rw [← List.length_append]
      simp only [hnull]
    rw [hround]
    by_cases hlast : p + 1 > 65535
    · obtain rfl : m = 0 := by omega
      refine ⟨free', ?_⟩
      rw [if_pos hlast, limited_zero hrest.ne_nil]
      simp only [weave, List.append_assoc, List.append_nil]
    · obtain ⟨m, rfl⟩ : ∃ n, m = n + 1 := ⟨m - 1, by omega⟩
      obtain ⟨free'', hmore⟩ := ih (p := p + 1) (m := m) (by omega) fuel (out ++ t.take k ++ paramMark db p)
        (0 :: free') (by rw [List.length_drop]; omega) (by rw [List.length_cons]; omega)
      refine ⟨free'', ?_⟩
      rw [if_neg hlast, hmore]
      simp only [List.append_assoc]

/-- What `rim_db_prep_text` answers. -/
theorem rimDbPrepText_eq (ht : ∀ c ∈ t, c ≠ 0) (h : Cuts PlaceholderAt 4 t ks ps) {tot : Nat}
    (htot : rimCountSubstring t RIM_LOOK_S 4 false = some tot) {block : Bytes} (hblock : block.length = prepSize db t tot) :
    rimDbPrepText db t block = .ok (weave (paramMark db) 1 (limited 65535 ps)) := by
  obtain ⟨tot', htot', hle⟩ := exists_count h
  obtain rfl : tot = tot' := Option.some.inj (htot.symm.trans htot')
  unfold rimDbPrepText
  rw [htot]
  show (if tot = 0 then _ else _) = _
  by_cases hzero : tot = 0
  · obtain rfl := List.length_eq_zero_iff.mp (show ks.length = 0 by omega)
    cases h
    rw [if_pos hzero]
    rfl
  · have hroom : (weave (paramMark db) 1 (limited 65535 ps)).length < block.length := by
      rw [hblock]
      by_cases hpg : db = .postgres
      · subst hpg
        have hlen := length_weave_le (e := 2) (f := paramMark .postgres) (fun i hi => (paramMark_length _ hi).1) h
          (p := 1) (m := 65535) rfl
        show _ < t.length + tot * 6 + 1
        omega
      · have hlen := length_weave_le (e := 0) (f := paramMark db)
          (fun i hi => by rw [(paramMark_length db hi).2 hpg]; decide) h (p := 1) (m := 65535) rfl
        have hsize : prepSize db t tot = t.length + 1 := by
          cases db with
          | mariadb => rfl
          | sqlite => rfl
          | postgres => exact absurd rfl hpg
        omega
    obtain ⟨free', hloop⟩ := prepLoop_eq h (p := 1) (m := 65534) rfl (t.length + 1) [] block (Nat.lt_succ_self _) hroom
    rw [List.nil_append, List.nil_append, List.length_nil] at hloop
    have hnull : ∀ c ∈ weave (paramMark db) 1 (limited 65535 ps), c ≠ 0 := by
      intro c hc
      obtain ⟨q, hq, hc⟩ | ⟨j, hc⟩ := mem_weave 1 hc
      · unfold limited at hq
        split at hq
        next => exact ht c ((h.part_of q hq).subset hc)
        next =>
          obtain hq | hq := List.mem_append.mp hq
          · exact ht c ((h.part_of q (List.mem_of_mem_take hq)).subset hc)
          · rw [List.mem_singleton.mp hq] at hc
            cases hc
      · exact paramMark_ne_zero db j c hc
    have htext : (weave (paramMark db) 1 (limited 65535 ps) ++ 0 :: free').takeWhile (· ≠ 0) =
        weave (paramMark db) 1 (limited 65535 ps) := by
      rw [List.takeWhile_append_of_pos fun c hc => decide_eq_true (hnull c hc), List.takeWhile_cons_of_neg (by simp),
        List.append_nil]
    rw [if_neg hzero, hloop]
    exact congrArg Except.ok htext

theorem weave_concat (f : Nat → Bytes) (qs : List Bytes) (x : Bytes) (i : Nat) :
    weave f i (qs ++ [x]) = weave f i (qs ++ [[]]) ++ x := by
  induction qs generalizing i with
  | nil => rfl
  | cons q qs ih =>
    have hne : ∀ y : Bytes, qs ++ [y] ≠ [] := fun y h => List.cons_ne_nil _ _ (List.append_eq_nil_iff.mp h).2
    rw [List.cons_append, List.cons_append, weave_cons f i q (hne x), weave_cons f i q (hne []), ih]
    simp only [List.append_assoc]

/-- Nothing is missing where there are fewer marks than are supported, or as many and nothing is behind them. -/
theorem weave_limited_iff (f : Nat → Bytes) {n : Nat} (hps : ps.length ≤ n + 1) (hne : ps ≠ []) :
    weave f 1 (limited n ps) = weave f 1 ps ↔ ps.length ≤ n ∨ ps.getLast? = some [] := by
  by_cases hfew : ps.length ≤ n
  · refine iff_of_true ?_ (.inl hfew)
    rw [limited, if_pos hfew]
  · have hdrop : ps.take n = ps.dropLast := by
      rw [List.dropLast_eq_take]
      congr 1
      omega
    have hsplit := List.dropLast_append_getLast hne
    have hweave : weave f 1 (limited n ps) = weave f 1 ps ↔ ps.getLast hne = [] := by
      rw [limited, if_neg hfew, hdrop]
      conv_lhs => rhs; rw [← hsplit, weave_concat]
      exact List.self_eq_append_right
    rw [hweave, List.getLast?_eq_getLast_of_ne_nil hne, Option.some.injEq]
    exact (or_iff_right hfew).symm

end Writing

/-- A text is its parts with the placeholders between them, and each placeholder is counted as an argument. The text
that `rim_db_prep_text` answers has a parameter for each exactly where there are fewer than 65535, or as many
and nothing is behind them. It never writes out of its allocation. -/
theorem rimDbPrepText_preps_iff (db : DbVendor) (t : Bytes) (ht : ∀ c ∈ t, c ≠ 0) :
    ∃ ks ps, Cuts PlaceholderAt 4 t ks ps ∧ weave (fun _ => RIM_LOOK_S) 1 ps = t ∧
      rimCountSubstring t RIM_LOOK_S 4 true = some ks.length ∧
      (∃ tot, rimCountSubstring t RIM_LOOK_S 4 false = some tot) ∧
      (∀ tot block, rimCountSubstring t RIM_LOOK_S 4 false = some tot → block.length = prepSize db t tot →
        ∃ text, rimDbPrepText db t block = .ok text) ∧
      (PrepsText db t ks ps ↔ ks.length < 65535 ∨ ks.length = 65535 ∧ ps.getLast? = some []) := by
  obtain ⟨ks, ps, h⟩ := exists_cuts (D := PlaceholderAt) (n := 4) (by decide) (foundAt_lt _) t
  obtain ⟨tot, htot, -⟩ := exists_count h
  have hparts := h.length_eq
  refine ⟨ks, ps, h, h.weave_eq (fun r k hk => placeholderAt_take hk) 1, count_placeholders h, ⟨tot, htot⟩,
    fun tot block htot hblock => ⟨_, rimDbPrepText_eq ht h htot hblock⟩, ?_⟩
  by_cases hmany : ks.length ≤ 65535
  · have hwhole : PrepsText db t ks ps ↔ weave (paramMark db) 1 (limited 65535 ps) = weave (paramMark db) 1 ps := by
      constructor
      · intro hp
        have hblock : (List.replicate (prepSize db t tot) (0 : UInt8)).length = prepSize db t tot := List.length_replicate
        have hok := hp tot _ htot hblock
        rw [if_pos hmany, rimDbPrepText_eq ht h htot hblock] at hok
        exact Except.ok.inj hok
      · intro heq tot block htot hblock
        rw [if_pos hmany, rimDbPrepText_eq ht h htot hblock, heq]
    rw [hwhole, weave_limited_iff _ (by omega) h.ne_nil]
    constructor
    · rintro (hfew | hlast)
      · exact .inl (by omega)
      · by_cases hfew : ks.length < 65535
        · exact .inl hfew
        · exact .inr ⟨by omega, hlast⟩
    · rintro (hfew | ⟨-, hlast⟩)
      · exact .inl (by omega)
      · exact .inr hlast
  · refine iff_of_false (fun hp => ?_) (by omega)
    have hblock : (List.replicate (prepSize db t tot) (0 : UInt8)).length = prepSize db t tot := List.length_replicate
    have hreport := hp tot _ htot hblock
    rw [if_neg hmany] at hreport
    obtain ⟨message, hreport⟩ := hreport
    cases hreport.symm.trans (rimDbPrepText_eq ht h htot hblock)

theorem rimDbPrepText_preps_one :
    ∃ ks ps, Cuts PlaceholderAt 4 (ascii "id='%s'") ks ps ∧ PrepsText .postgres (ascii "id='%s'") ks ps := by
  have hnull : (0 : UInt8) ∉ ascii "id='%s'" := notMem_of_all rfl
  obtain ⟨ks, ps, h, -, hcount, -, -, hiff⟩ := rimDbPrepText_preps_iff .postgres (ascii "id='%s'") fun c hc h => hnull (h ▸ hc)
  have hone : rimCountSubstring (ascii "id='%s'") RIM_LOOK_S 4 true = some 1 := by rfl
  have hlen : 1 = ks.length := Option.some.inj (hone.symm.trans hcount)
  exact ⟨ks, ps, h, hiff.mpr (.inl (by omega))⟩

theorem look_ne_zero : ∀ c ∈ RIM_LOOK_S, c ≠ 0 := by
  have hnull : (0 : UInt8) ∉ RIM_LOOK_S := notMem_of_all rfl
  exact fun c hc h => hnull (h ▸ hc)

theorem exists_cuts_replicate (n : Nat) : ∃ ks ps, Cuts PlaceholderAt 4 (List.replicate n RIM_LOOK_S).flatten ks ps ∧
    ks.length = n := by
  induction n with
  | zero => exact ⟨[], _, .last fun k hk => Nat.not_lt_zero _ hk.1, rfl⟩
  | succ n ih =>
    obtain ⟨ks, ps, h, hlen⟩ := ih
    have htext : (List.replicate (n + 1) RIM_LOOK_S).flatten = RIM_LOOK_S ++ (List.replicate n RIM_LOOK_S).flatten := by
      rw [List.replicate_succ, List.flatten_cons]
    have hfirst : IsLeast {k | PlaceholderAt (List.replicate (n + 1) RIM_LOOK_S).flatten k} 0 := by
      refine ⟨⟨?_, ?_⟩, fun k _ => Nat.zero_le k⟩
      · rw [htext, List.length_append]
        exact Nat.lt_of_lt_of_le (by decide) (Nat.le_add_right RIM_LOOK_S.length _)
      · rw [htext]
        rfl
    have hrest : (List.replicate (n + 1) RIM_LOOK_S).flatten.drop (0 + 4) = (List.replicate n RIM_LOOK_S).flatten := by
      rw [htext]
      exact (List.drop_left : List.drop RIM_LOOK_S.length _ = _)
    refine ⟨_, _, .cut hfirst (hrest ▸ h), ?_⟩
    rw [List.length_cons, List.length_map, hlen]

/-- A text of 65536 placeholders comes back with one parameter less, and is not refused. -/
theorem rimDbPrepText_not_preps : ¬ ∀ (db : DbVendor) (t : Bytes) (ks : List Nat) (ps : List Bytes), (∀ c ∈ t, c ≠ 0) →
    Cuts PlaceholderAt 4 t ks ps → PrepsText db t ks ps := by
  intro hall
  obtain ⟨ks, ps, h, hlen⟩ := exists_cuts_replicate 65536
  have hnull : ∀ c ∈ (List.replicate 65536 RIM_LOOK_S).flatten, c ≠ 0 := by
    intro c hc
    obtain ⟨s, hs, hc⟩ := List.mem_flatten.mp hc
    rw [List.eq_of_mem_replicate hs] at hc
    exact look_ne_zero c hc
  obtain ⟨tot, htot, -⟩ := exists_count h
  have hblock : (List.replicate (prepSize .sqlite (List.replicate 65536 RIM_LOOK_S).flatten tot) (0 : UInt8)).length =
      prepSize .sqlite (List.replicate 65536 RIM_LOOK_S).flatten tot := List.length_replicate
  have hreport := hall .sqlite _ ks ps hnull h tot _ htot hblock
  rw [if_neg (by rw [hlen]; decide)] at hreport
  obtain ⟨message, hreport⟩ := hreport
  cases hreport.symm.trans (rimDbPrepText_eq hnull h htot hblock)

/-!
## Escaping a string for SQLite

Between the quotes of SQLite a quote is written twice and every other character stands for itself, so that a quote has
to be doubled and nothing else. A character is a backslash or a quote and not both, so there is room to double all of
them. But a backslash that is doubled stands for two of them.
-/

/-- What `rim_lite_escape` writes. -/
def liteEscaped (s : Bytes) : Bytes := double 39 (double 92 s)

theorem length_liteEscaped (s : Bytes) : (liteEscaped s).length ≤ 2 * s.length := by
  have hquotes : (double 92 s).count 39 = s.count 39 := count_double_of_ne 92 (by decide) s
  have hboth := count_add_count_le (a := (39 : UInt8)) (b := 92) (by decide) s
  unfold liteEscaped
  rw [length_double, length_double, hquotes]
  omega

theorem liteReplace_eq {x : UInt8} (find subst : String) (hfind : ascii find = [x]) (hsubst : ascii subst = [x, x])
    {dst text : Bytes} (len : Nat) (hdst : 2 * len + 1 ≤ dst.length) (htext : dst.take (text.length + 1) = text ++ [0])
    (hnonull : (0 : UInt8) ∉ text) (hroom : (double x text).length ≤ 2 * len) :
    ∃ dst', liteReplace dst len find subst = some (dst', ((double x text).length : Int)) ∧ dst'.length = dst.length ∧
      dst'.take ((double x text).length + 1) = double x text ++ [0] ∧
      dst'.drop (2 * len + 1) = dst.drop (2 * len + 1) := by
  obtain ⟨dst', last, hrun, hlen, htake, hdrop⟩ := rimReplaceString_doubles x (2 * len + 1)
    (by omega) htext hnonull (by omega)
  refine ⟨dst', ?_, hlen, htake, hdrop (2 * len + 1) (by omega)⟩
  unfold liteReplace
  rw [hfind, hsubst]
  show Option.bind (rimReplaceString dst (doubling x (2 * len + 1))) _ = _
  rw [hrun]
  rfl

/-- The string is written with its backslashes and its quotes doubled. -/
theorem rimLiteEscape_eq {s dst : Bytes} (hs : (0 : UInt8) ∉ s) (hdst : 2 * s.length + 1 ≤ dst.length) (more : Bytes) :
    ∃ dst', rimLiteEscape (s ++ 0 :: more) dst s.length = some (0, dst', ((liteEscaped s).length : Int)) ∧
      dst'.take ((liteEscaped s).length + 1) = liteEscaped s ++ [0] ∧
      dst'.drop (2 * s.length + 1) = dst.drop (2 * s.length + 1) := by
  have hfrm : s.length + 1 ≤ (s ++ 0 :: more).length := by
    rw [List.length_append, List.length_cons]
    omega
  have htake : (s ++ 0 :: more).take (s.length + 1) = s ++ [0] := by
    rw [List.take_length_add_append, List.take_succ_cons, List.take_zero]
  have hsn : (s ++ [0]).length = s.length + 1 := by simp
  -- the copy
  obtain ⟨dst₁, hcopy, hlen₁, htext₁, hbehind₁⟩ : ∃ dst₁, memcpy dst 0 (s ++ [0]) = some dst₁ ∧
      dst₁.length = dst.length ∧ dst₁.take (s.length + 1) = s ++ [0] ∧
      dst₁.drop (2 * s.length + 1) = dst.drop (2 * s.length + 1) := by
    refine ⟨s ++ [0] ++ dst.drop (s.length + 1), ?_, ?_, ?_, ?_⟩
    · unfold memcpy
      rw [hsn, if_pos (by omega), List.take_zero, List.nil_append, Nat.zero_add]
    · rw [List.length_append, hsn, List.length_drop]
      omega
    · rw [← hsn, List.take_left]
    · have hsplit : 2 * s.length + 1 = (s ++ [0]).length + s.length := by omega
      rw [hsplit, ← List.drop_drop, List.drop_left, List.drop_drop, hsn]
  -- the backslashes, and then the quotes
  have hnonull : (0 : UInt8) ∉ double 92 s := fun h => hs ((mem_double 92).mp h)
  have hlen := length_liteEscaped s
  have hslashes : (double 92 s).length ≤ 2 * s.length := by
    unfold liteEscaped at hlen
    rw [length_double] at hlen
    omega
  obtain ⟨dst₂, hrun₂, hlen₂, htext₂, hbehind₂⟩ := liteReplace_eq "\\" "\\\\" rfl rfl s.length
    (by omega) htext₁ hs hslashes
  obtain ⟨dst₃, hrun₃, -, htext₃, hbehind₃⟩ := liteReplace_eq "'" "''" rfl rfl s.length
    (by omega) htext₂ hnonull hlen
  refine ⟨dst₃, ?_, htext₃, hbehind₃.trans (hbehind₂.trans hbehind₁)⟩
  have hne : ∀ n : Nat, ¬ ((n : Int) = -1) := fun n => by omega
  unfold rimLiteEscape
  rw [if_pos hfrm, htake, hcopy]
  simp only [bind, Option.bind, hrun₂, if_neg (hne _), hrun₃]
  rfl

/-- The call succeeds in no more than `2 * n + 1` bytes, and what it writes denotes the string between quotes. -/
def LiteEscapes (s more dst : Bytes) : Prop :=
  ∃ out dst', rimLiteEscape (s ++ 0 :: more) dst s.length = some (0, dst', (out.length : Int)) ∧
    out.length + 1 ≤ 2 * s.length + 1 ∧ dst'.take (out.length + 1) = out ++ [0] ∧
    dst'.drop (2 * s.length + 1) = dst.drop (2 * s.length + 1) ∧ undouble 39 out = some s

/-- A string is escaped exactly just where it has no backslash. -/
theorem rimLiteEscape_iff {s dst : Bytes} (hs : (0 : UInt8) ∉ s) (hdst : 2 * s.length + 1 ≤ dst.length) (more : Bytes) :
    LiteEscapes s more dst ↔ 92 ∉ s := by
  obtain ⟨dst', hrun, htext, hbehind⟩ := rimLiteEscape_eq hs hdst more
  have hread : undouble 39 (liteEscaped s) = some (double 92 s) := undouble_double 39 _
  rw [← double_eq_self_iff]
  constructor
  · intro h
    obtain ⟨out, dst₁, hrun₁, -, htext₁, -, hdenotes⟩ := h
    obtain ⟨-, hpair⟩ := Prod.mk.inj (Option.some.inj (hrun₁.symm.trans hrun))
    obtain ⟨rfl, hlen⟩ := Prod.mk.inj hpair
    have hout : out = liteEscaped s := by
      rw [Int.natCast_inj.mp hlen, htext] at htext₁
      exact (List.append_cancel_right htext₁).symm
    rw [hout, hread] at hdenotes
    exact Option.some.inj hdenotes
  · intro hsame
    have hlen := length_liteEscaped s
    exact ⟨liteEscaped s, dst', hrun, by omega, htext, hbehind, hread.trans (congrArg some hsame)⟩

theorem rimLiteEscape_quotes : LiteEscapes (ascii "it's") [] (List.replicate 9 7) :=
  (rimLiteEscape_iff (by decide) (by decide) []).mpr (by decide)

theorem rimLiteEscape_backslash : ¬ LiteEscapes (ascii "a\\b") [] (List.replicate 7 7) := by
  intro h
  obtain ⟨out, dst', hrun, -, htext, -, hdenotes⟩ := h
  have heq : rimLiteEscape (ascii "a\\b" ++ [0]) (List.replicate 7 7) 3 =
      some (0, [97, 92, 92, 98, 0, 7, 7], 4) := by decide
  obtain ⟨-, hpair⟩ := Prod.mk.inj (Option.some.inj (hrun.symm.trans heq))
  obtain ⟨rfl, hlen⟩ := Prod.mk.inj hpair
  have hfour : out.length = 4 := by omega
  rw [hfour] at htext
  have hwritten : [97, 92, 92, 98] ++ [0] = out ++ [0] := htext
  have hout : out = [97, 92, 92, 98] := (List.append_cancel_right hwritten).symm
  subst hout
  cases hdenotes

end RimStone
