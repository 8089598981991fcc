import RimStone.Laws.Text.Escapes
import RimStone.Laws.Text.Quoted

/-!
# The front of a text

Where text in quotes ends in the front of a block, only the front is read and written: with anything behind it the
same is read, and what is behind stays. Nothing that is passed is a null.
-/

namespace RimStone

open RimStone.Lib

variable {a b out : Bytes} {i j pull q u n tot : Nat} {r : Int}

/-! ## Code points -/

theorem rimGetHexLoop_append (h : i + n ≤ a.length) (x : Nat) : rimGetHexLoop (a ++ b) n i x = rimGetHexLoop a n i x := by
  induction n generalizing i x with
  | zero => rfl
  | succ n ih =>
    rw [rimGetHexLoop, rimGetHexLoop, List.getElem?_append_left (by omega)]
    congr 1
    funext c
    cases hexVal c with
    | none => rfl
    | some d => exact ih (by omega) _

theorem rimGetHex_append (h : i + n ≤ a.length) : rimGetHex (a ++ b) i n = rimGetHex a i n := by
  unfold rimGetHex
  rw [rimGetHexLoop_append h]

theorem rimUtfGetCode8_append (h : u + 9 ≤ a.length) : rimUtfGetCode8 (a ++ b) u = rimUtfGetCode8 a u := by
  unfold rimUtfGetCode8
  rw [rimGetHex_append (by omega)]

/-- A code point of `\u` has six or twelve bytes. -/
theorem rimUtfGetCode_total (h : rimUtfGetCode a u = .ok (r, tot)) : tot = 6 ∨ tot = 12 := by
  unfold rimUtfGetCode at h
  obtain ⟨x, -, h⟩ := bind_eq_ok.mp h
  split_ifs at h
  · obtain ⟨c, -, h⟩ := bind_eq_ok.mp h
    split_ifs at h
    obtain ⟨d, -, h⟩ := bind_eq_ok.mp h
    split_ifs at h
    obtain ⟨y, -, h⟩ := bind_eq_ok.mp h
    exact .inr (Prod.mk.inj (Except.ok.inj h)).2.symm
  · exact .inl (Prod.mk.inj (Except.ok.inj h)).2.symm

/-- A code point in the front is the same with anything behind. -/
theorem rimUtfGetCode_append (h : rimUtfGetCode (a ++ b) u = .ok (r, tot)) (hin : u + tot ≤ a.length + 1) (b' : Bytes) :
    rimUtfGetCode (a ++ b') u = .ok (r, tot) := by
  have htotal := rimUtfGetCode_total h
  have hsix : u + 1 + 4 ≤ a.length := by omega
  unfold rimUtfGetCode at h ⊢
  rw [rimGetHex_append hsix] at h ⊢
  obtain ⟨x, hx, h⟩ := bind_eq_ok.mp h
  rw [hx]
  show (if 0xD800 ≤ x ∧ x ≤ 0xDFFF then _ else _) = _
  by_cases hsurrogate : 0xD800 ≤ x ∧ x ≤ 0xDFFF
  · rw [if_pos hsurrogate] at h ⊢
    obtain ⟨c, hc, h⟩ := bind_eq_ok.mp h
    by_cases hslash : c ≠ 92
    · rw [if_pos hslash] at h
      cases h
    rw [if_neg hslash] at h
    obtain ⟨d, hd, h⟩ := bind_eq_ok.mp h
    by_cases hletter : d ≠ 117
    · rw [if_pos hletter] at h
      cases h
    rw [if_neg hletter] at h
    obtain ⟨y, hy, h⟩ := bind_eq_ok.mp h
    have htwelve : u + 12 ≤ a.length + 1 := by
      obtain rfl := (Prod.mk.inj (Except.ok.inj h)).2
      exact hin
    rw [List.getElem?_append_left (by omega)] at hc hd
    rw [rimGetHex_append (by omega)] at hy
    rw [List.getElem?_append_left (by omega), List.getElem?_append_left (by omega), rimGetHex_append (by omega)]
    refine bind_eq_ok.mpr ⟨c, hc, ?_⟩
    rw [if_neg hslash]
    refine bind_eq_ok.mpr ⟨d, hd, ?_⟩
    rw [if_neg hletter]
    exact bind_eq_ok.mpr ⟨y, hy, h⟩
  · rw [if_neg hsurrogate] at h ⊢
    exact h

/-! ## The loops -/

theorem memcpy_front {src : Bytes} (h : i + src.length ≤ a.length) (b : Bytes) :
    memcpy (a ++ b) i src = some (a.take i ++ src ++ a.drop (i + src.length) ++ b) := by
  refine memcpy_eq_some.mpr ⟨?_, ?_⟩
  · rw [List.length_append]
    omega
  · rw [List.take_append_of_le_length (by omega), List.drop_append_of_le_length h, List.append_assoc _ _ b]

theorem poke_front {c : UInt8} (h : i < a.length) (b : Bytes) : poke (a ++ b) i c = some (a.set i c ++ b) := by
  refine poke_eq_some.mpr ⟨?_, ?_⟩
  · rw [List.length_append]
    omega
  · rw [List.set_append_left _ _ h]

/-- The front as it is after a loop, whatever is behind it. -/
def EndsInFront (loop : Bytes → Nat → Except TextFault (Bytes × Nat × Nat)) (a b out : Bytes) (i j q : Nat) : Prop :=
  ∃ a', a'.length = a.length ∧ out = a' ++ b ∧
    ∀ b' fuel, b' ≠ [] → j - i < fuel → loop (a ++ b') fuel = .ok (a' ++ b', j, q)

/-- A round that goes on in the front is the same with anything behind the front. -/
theorem TextRound.front {val₁ : Bytes} {i₁ pull₁ : Nat} (h : TextRound (a ++ b) i pull val₁ i₁ pull₁) (hp : pull ≤ i)
    (hi₁ : i₁ < a.length) :
    ∃ a₁, a₁.length = a.length ∧ val₁ = a₁ ++ b ∧ ∀ b', TextRound (a ++ b') i pull (a₁ ++ b') i₁ pull₁ := by
  have hfront : ∀ {k : Nat} (b' : Bytes), k ≤ i₁ → (a ++ b')[k]? = (a ++ b)[k]? := fun b' hk => by
    rw [List.getElem?_append_left (by omega), List.getElem?_append_left (by omega)]
  have hon := (h.window hp).2.1
  cases h with
  | plain hc hstop hslash hval =>
    have hread := fun b' => (hfront b' (Nat.le_of_lt hon)).trans hc
    obtain ⟨hz, rfl⟩ | ⟨hz, hval⟩ := hval
    · exact ⟨a, rfl, rfl, fun b' => .plain (hread b') hstop hslash (.inl ⟨hz, rfl⟩)⟩
    · rw [poke_front (by omega)] at hval
      obtain rfl := Option.some.inj hval
      exact ⟨_, List.length_set, rfl, fun b' => .plain (hread b') hstop hslash (.inr ⟨hz, poke_front (by omega) b'⟩)⟩
  | escape hc he hb hval =>
    rw [poke_front (by omega)] at hval
    obtain rfl := Option.some.inj hval
    exact ⟨_, List.length_set, rfl, fun b' => .escape ((hfront b' (by omega)).trans hc) ((hfront b' (by omega)).trans he)
      hb (poke_front (by omega) b')⟩
  | code hc he hcode hbytes hval =>
    have hfour := rimDecodeUtf_length hbytes
    have hsix := hcode.elim (fun hu => rimUtfGetCode8_bound hu.2) fun hu => rimUtfGetCode_bound hu.2
    rw [memcpy_front (by omega)] at hval
    obtain rfl := Option.some.inj hval
    refine ⟨_, ?_, rfl, fun b' => .code ((hfront b' (by omega)).trans hc) ((hfront b' (by omega)).trans he) ?_ hbytes
      (memcpy_front (by omega) b')⟩
    · simp only [List.length_append, List.length_take, List.length_drop]
      omega
    · obtain ⟨he, hu⟩ | ⟨he, hu⟩ := hcode
      · have hten := hu
        unfold rimUtfGetCode8 at hten
        obtain ⟨x, -, hten⟩ := bind_eq_ok.mp hten
        split_ifs at hten
        have hten := (Prod.mk.inj (Except.ok.inj hten)).2
        refine .inl ⟨he, ?_⟩
        rw [rimUtfGetCode8_append (by omega), ← hu, rimUtfGetCode8_append (by omega)]
      · exact .inr ⟨he, rimUtfGetCode_append hu (by omega) b'⟩

variable {fuel k : Nat} {t : TextEnd} {dec : Bool}

/-- The loop with encoding ends in the front. -/
theorem rimTextLoop_front (hp : pull ≤ i) (h : rimTextLoop fuel (a ++ b) i pull = .ok (out, j, q))
    (hj : j < a.length) : EndsInFront (fun v fuel => rimTextLoop fuel v i pull) a b out i j q := by
  induction fuel generalizing a i pull with
  | zero => cases h
  | succ fuel ih =>
    obtain ⟨hstop, rfl, rfl, rfl⟩ | ⟨val₁, i₁, pull₁, hround, h⟩ := rimTextLoop_cases h
    · refine ⟨a, rfl, rfl, fun b' fuel' hb' hfuel => ?_⟩
      obtain ⟨fuel', rfl⟩ := Nat.exists_eq_succ_of_ne_zero (Nat.ne_of_gt (Nat.lt_of_le_of_lt (Nat.zero_le _) hfuel))
      rw [List.getElem?_append_left hj, ← @List.getElem?_append_left _ _ b' _ hj] at hstop
      show rimTextLoop (fuel' + 1) (a ++ b') i pull = _
      rw [rimTextLoop]
      obtain hc | hc := hstop
      · exact bind_eq_ok.mpr ⟨34, inBlock_eq_ok.mpr hc, if_pos (.inl rfl)⟩
      · exact bind_eq_ok.mpr ⟨0, inBlock_eq_ok.mpr hc, if_pos (.inr rfl)⟩
    · obtain ⟨-, hi, hp₁, -⟩ := hround.window hp
      have hon := (rimTextLoop_end hp₁ h).on
      obtain ⟨a₁, hlen, rfl, hsame⟩ := hround.front hp (by omega)
      obtain ⟨a', hlen', hout, hall⟩ := ih hp₁ h (by omega)
      refine ⟨a', hlen'.trans hlen, hout, fun b' fuel' hb' hfuel => ?_⟩
      obtain ⟨fuel', rfl⟩ := Nat.exists_eq_succ_of_ne_zero (Nat.ne_of_gt (Nat.lt_of_le_of_lt (Nat.zero_le _) hfuel))
      show rimTextLoop (fuel' + 1) (a ++ b') i pull = _
      rw [(hsame b').loop]
      exact hall b' fuel' hb' (by omega)

/-- The loop without encoding ends in the front, where it takes quotes. -/
theorem rimSkipLoop_front (h : rimSkipLoop true fuel (a ++ b) i = .ok (out, j, q)) (hj : j < a.length)
    (hquote : a[j]? = some 34) : EndsInFront (fun v fuel => rimSkipLoop true fuel v i) a b out i j q := by
  induction fuel generalizing i with
  | zero => cases h
  | succ fuel ih =>
    have hon : i ≤ j := (rimSkipLoop_end h).on
    have hround : ∀ {i₁ : Nat}, i < i₁ → rimSkipLoop true fuel (a ++ b) i₁ = .ok (out, j, q) →
        (i₁ ≤ j → ∀ b' fuel', rimSkipLoop true (fuel' + 1) (a ++ b') i = rimSkipLoop true fuel' (a ++ b') i₁) →
        EndsInFront (fun v fuel => rimSkipLoop true fuel v i) a b out i j q := by
      intro i₁ hi hloop hsame
      have hon₁ : i₁ ≤ j := (rimSkipLoop_end hloop).on
      obtain ⟨a', hlen', hout, hall⟩ := ih hloop
      refine ⟨a', hlen', hout, fun b' fuel' hb' hfuel => ?_⟩
      obtain ⟨fuel', rfl⟩ := Nat.exists_eq_succ_of_ne_zero (Nat.ne_of_gt (Nat.lt_of_le_of_lt (Nat.zero_le _) hfuel))
      show rimSkipLoop true (fuel' + 1) (a ++ b') i = _
      rw [hsame hon₁]
      exact hall b' fuel' hb' (by omega)
    rw [rimSkipLoop] at h
    obtain ⟨c, hc, h⟩ := bind_eq_ok.mp h
    rw [List.getElem?_append_left (by omega)] at hc
    have hread : ∀ b' : Bytes, inBlock (a ++ b')[i]? = .ok c := fun b' => by
      rw [List.getElem?_append_left (by omega), hc]
    by_cases hz : c = 0
    · rw [if_pos hz] at h
      obtain ⟨-, rfl, -⟩ : a ++ b = out ∧ i = j ∧ 0 = q := by simpa using h
      rw [hquote] at hc
      obtain rfl := Except.ok.inj hc
      cases hz
    rw [if_neg hz] at h
    obtain ⟨d, hd, h⟩ := bind_eq_ok.mp h
    have hsame : i + 1 < a.length → ∀ b' : Bytes, inBlock (a ++ b')[i + 1]? = .ok d := by
      intro hin b'
      rw [List.getElem?_append_left hin] at hd ⊢
      exact hd
    by_cases hslash : c = 92 ∧ d ≠ 0
    · rw [if_pos hslash] at h
      refine hround (by omega) h fun hle b' fuel' => ?_
      rw [rimSkipLoop, hread, hsame (by omega)]
      simp only [bind, Except.bind, if_neg hz, if_pos hslash]
    rw [if_neg hslash] at h
    by_cases hend : c = 34
    · rw [if_pos hend, if_pos rfl] at h
      obtain ⟨rfl, rfl, rfl⟩ : a ++ b = out ∧ i = j ∧ 0 = q := by simpa using h
      refine ⟨a, rfl, rfl, fun b' fuel' hb' hfuel => ?_⟩
      obtain ⟨fuel', rfl⟩ := Nat.exists_eq_succ_of_ne_zero (Nat.ne_of_gt (Nat.lt_of_le_of_lt (Nat.zero_le _) hfuel))
      -- the byte after the quote is read as well, which may be behind the front
      have hpos := List.length_pos_of_ne_nil hb'
      have hlt : i + 1 < (a ++ b').length := by
        rw [List.length_append]
        omega
      have hslash' : ¬ (c = 92 ∧ (a ++ b')[i + 1] ≠ 0) := by
        rw [hend]
        exact fun hall => absurd hall.1 (by decide)
      have hnext : inBlock (a ++ b')[i + 1]? = .ok (a ++ b')[i + 1] := inBlock_eq_ok.mpr (List.getElem?_eq_getElem hlt)
      show rimSkipLoop true (fuel' + 1) (a ++ b') i = _
      rw [rimSkipLoop, hread, hnext]
      simp only [bind, Except.bind, if_neg hz, if_neg hslash', if_pos hend, if_true]
    · rw [if_neg hend] at h
      refine hround (by omega) h fun hle b' fuel' => ?_
      rw [rimSkipLoop, hread, hsame (by omega)]
      simp only [bind, Except.bind, if_neg hz, if_neg hslash, if_neg hend]

/-! ## Text in quotes -/

/-- The loop of `rim_text_to_utf` for text in quotes. -/
def quotedLoop (dec : Bool) (v : Bytes) (fuel : Nat) : Except TextFault (Bytes × Nat × Nat) :=
  if dec then rimTextLoop fuel v 1 0 else rimSkipLoop true fuel v 1

def quotedEnd (x : Bytes × Nat × Nat) : Except TextFault TextEnd :=
  (if x.2.2 ≠ 0 then inBlock (poke x.1 (x.2.1 - x.2.2) 0) else .ok x.1) >>= fun val =>
  inBlock val[x.2.1]? >>= fun c =>
  if c = 0 then .error (.err .RIM_ERR_UTF_NOQUOTE) else .ok { val, last := x.2.1, len := none }

theorem rimTextToUtf_eq (dec : Bool) (v : Bytes) :
    rimTextToUtf v true dec false = quotedLoop dec v (v.length + 1) >>= quotedEnd := by
  unfold quotedLoop
  cases dec <;>
  · simp only [rimTextToUtf, if_true, and_true, Bool.false_eq_true, and_false, if_false]
    congr 1
    funext x
    unfold quotedEnd
    by_cases hq : x.2.2 = 0 <;> simp only [ne_eq, hq, not_true_eq_false, not_false_eq_true, if_true, if_false]

/-- What is done after the loop does not change where it ended. -/
theorem quotedEnd_last {x : Bytes × Nat × Nat} (h : quotedEnd x = .ok t) : t.last = x.2.1 := by
  unfold quotedEnd at h
  obtain ⟨val, -, h⟩ := bind_eq_ok.mp h
  obtain ⟨c, -, h⟩ := bind_eq_ok.mp h
  split_ifs at h
  obtain rfl := Except.ok.inj h
  rfl

theorem quotedLoop_front (h : quotedLoop dec (a ++ b) fuel = .ok (out, j, q)) (hj : j < a.length)
    (hquote : a[j]? = some 34) : EndsInFront (quotedLoop dec) a b out 1 j q := by
  cases dec with
  | true => exact rimTextLoop_front (Nat.zero_le 1) h hj
  | false => exact rimSkipLoop_front h hj hquote

/-- Text in quotes that ends in the front of a block is read in the same way with anything behind the front. -/
theorem rimTextToUtf_front (h : rimTextToUtf (a ++ b) true dec false = .ok t) (hlast : t.last < a.length) :
    ∃ a', a'.length = a.length ∧ t.val = a' ++ b ∧
      ∀ b', b' ≠ [] → rimTextToUtf (a ++ b') true dec false = .ok { t with val := a' ++ b' } := by
  obtain ⟨-, hquote, -⟩ := rimTextToUtf_quoted h
  rw [List.getElem?_append_left hlast] at hquote
  rw [rimTextToUtf_eq] at h
  obtain ⟨⟨out, j, q⟩, hloop, h⟩ := bind_eq_ok.mp h
  obtain rfl : t.last = j := quotedEnd_last h
  obtain ⟨a', hlen, rfl, hall⟩ := quotedLoop_front hloop hlast hquote
  unfold quotedEnd at h
  obtain ⟨val, hval, h⟩ := bind_eq_ok.mp h
  obtain ⟨c, hc, h⟩ := bind_eq_ok.mp h
  dsimp only at hval hc h
  by_cases hz : c = 0
  · rw [if_pos hz] at h
    cases h
  rw [if_neg hz] at h
  have hsame := Except.ok.inj h
  -- the null behind what was written is in the front too
  obtain ⟨a'', hlen', rfl, hpoke⟩ : ∃ a'', a''.length = a.length ∧ val = a'' ++ b ∧
      ∀ b', (if q ≠ 0 then inBlock (poke (a' ++ b') (t.last - q) 0) else .ok (a' ++ b')) = .ok (a'' ++ b') := by
    have hj : t.last - q < a'.length := by omega
    by_cases hq : q = 0
    · rw [if_neg (not_not_intro hq)] at hval
      exact ⟨a', hlen, (Except.ok.inj hval).symm, fun b' => if_neg (not_not_intro hq)⟩
    · rw [if_pos hq, poke_front hj] at hval
      refine ⟨a'.set (t.last - q) 0, List.length_set.trans hlen, (Except.ok.inj hval).symm, fun b' => ?_⟩
      rw [if_pos hq, poke_front hj]
      rfl
  refine ⟨a'', hlen', (congrArg TextEnd.val hsame).symm, fun b' hb' => ?_⟩
  have hin : t.last < a''.length := by omega
  have hfuel : t.last - 1 < (a ++ b').length + 1 := by
    rw [List.length_append]
    omega
  rw [List.getElem?_append_left hin] at hc
  rw [rimTextToUtf_eq]
  refine bind_eq_ok.mpr ⟨(a' ++ b', t.last, q), hall b' _ hb' hfuel,
    bind_eq_ok.mpr ⟨a'' ++ b', hpoke b', bind_eq_ok.mpr ⟨c, ?_, ?_⟩⟩⟩
  · rw [List.getElem?_append_left hin, hc]
  · rw [if_neg hz, ← congrArg TextEnd.len hsame]

/-! ## Nulls -/

theorem rimGetHexLoop_passes {x y : Nat} (h : rimGetHexLoop a n i x = .ok y) (hk : i ≤ k) (hlt : k < i + n) :
    a[k]? ≠ some 0 := by
  induction n generalizing i x with
  | zero => omega
  | succ n ih =>
    rw [rimGetHexLoop] at h
    obtain ⟨c, hc, h⟩ := bind_eq_ok.mp h
    cases hd : hexVal c with
    | none =>
      rw [hd] at h
      cases h
    | some d =>
      rw [hd] at h
      obtain rfl | hnext := Nat.eq_or_lt_of_le hk
      · rw [inBlock_eq_ok.mp hc]
        exact fun e => (hexVal_bounds hd).2 (Option.some.inj e)
      · exact ih h hnext (by omega)

theorem rimGetHex_passes (h : rimGetHex a i n = .ok r) (hk : i ≤ k) (hlt : k < i + n) : a[k]? ≠ some 0 := by
  unfold rimGetHex at h
  obtain ⟨y, hy, -⟩ := bind_eq_ok.mp h
  exact rimGetHexLoop_passes hy hk hlt

theorem rimUtfGetCode8_passes (h : rimUtfGetCode8 a u = .ok (r, tot)) (hk : u < k) (hlt : k + 1 < u + tot) :
    a[k]? ≠ some 0 := by
  unfold rimUtfGetCode8 at h
  obtain ⟨x, hx, h⟩ := bind_eq_ok.mp h
  split_ifs at h
  obtain rfl := (Prod.mk.inj (Except.ok.inj h)).2
  exact rimGetHex_passes hx hk (by omega)

theorem rimUtfGetCode_passes (h : rimUtfGetCode a u = .ok (r, tot)) (hk : u < k) (hlt : k + 1 < u + tot) :
    a[k]? ≠ some 0 := by
  unfold rimUtfGetCode at h
  obtain ⟨x, hx, h⟩ := bind_eq_ok.mp h
  have hfirst : k < u + 5 → a[k]? ≠ some 0 := fun hin => rimGetHex_passes hx hk (by omega)
  split_ifs at h
  · obtain ⟨c, hc, h⟩ := bind_eq_ok.mp h
    split_ifs at h with hslash
    obtain ⟨d, hd, h⟩ := bind_eq_ok.mp h
    split_ifs at h with hletter
    obtain ⟨y, hy, h⟩ := bind_eq_ok.mp h
    obtain rfl := (Prod.mk.inj (Except.ok.inj h)).2
    obtain hin | rfl | rfl | hsecond : k < u + 5 ∨ k = u + 5 ∨ k = u + 6 ∨ u + 7 ≤ k := by omega
    · exact hfirst hin
    · rw [inBlock_eq_ok.mp hc, not_not.mp hslash]
      decide
    · rw [inBlock_eq_ok.mp hd, not_not.mp hletter]
      decide
    · exact rimGetHex_passes hy hsecond (by omega)
  · obtain rfl := (Prod.mk.inj (Except.ok.inj h)).2
    exact hfirst (by omega)

theorem TextRound.passes {a₁ : Bytes} {i₁ pull₁ : Nat} (h : TextRound a i pull a₁ i₁ pull₁) (hk : i ≤ k)
    (hlt : k < i₁) : a[k]? ≠ some 0 := by
  cases h with
  | plain hc hstop =>
    obtain rfl : k = i := by omega
    rw [hc]
    exact fun e => hstop (.inr (Option.some.inj e))
  | escape hc he hb =>
    obtain rfl | rfl : k = i ∨ k = i + 1 := by omega
    · rw [hc]
      decide
    · rw [he]
      intro hzero
      obtain rfl := Option.some.inj hzero
      cases hb
  | code hc he hcode =>
    obtain rfl | rfl | hafter : k = i ∨ k = i + 1 ∨ i + 1 < k := by omega
    · rw [hc]
      decide
    · rw [he]
      obtain ⟨rfl, -⟩ | ⟨rfl, -⟩ := hcode <;> decide
    · obtain ⟨-, hu⟩ | ⟨-, hu⟩ := hcode
      · exact rimUtfGetCode8_passes hu hafter (by omega)
      · exact rimUtfGetCode_passes hu hafter (by omega)

/-- What the loop with encoding passes is no null. -/
theorem rimTextLoop_passes (hp : pull ≤ i) (h : rimTextLoop fuel a i pull = .ok (out, j, q)) (hk : i ≤ k)
    (hlt : k < j) : a[k]? ≠ some 0 := by
  induction fuel generalizing a i pull with
  | zero => cases h
  | succ fuel ih =>
    obtain ⟨-, -, rfl, -⟩ | ⟨a₁, i₁, pull₁, hround, h⟩ := rimTextLoop_cases h
    · omega
    · by_cases hin : k < i₁
      · exact hround.passes hk hin
      · obtain ⟨hwrote, -, hp₁, -⟩ := hround.window hp
        rw [← hwrote.same k (.inr (by omega))]
        exact ih hp₁ h (by omega)

/-- What the loop without encoding passes is no null. -/
theorem rimSkipLoop_passes (h : rimSkipLoop true fuel a i = .ok (out, j, q)) (hk : i ≤ k) (hlt : k < j) :
    a[k]? ≠ some 0 := by
  induction fuel generalizing i with
  | zero => cases h
  | succ fuel ih =>
    rw [rimSkipLoop] at h
    obtain ⟨c, hc, h⟩ := bind_eq_ok.mp h
    have hc := inBlock_eq_ok.mp hc
    by_cases hz : c = 0
    · rw [if_pos hz] at h
      obtain ⟨-, rfl, -⟩ : a = out ∧ i = j ∧ 0 = q := by simpa using h
      omega
    rw [if_neg hz] at h
    obtain ⟨d, hd, h⟩ := bind_eq_ok.mp h
    have hd := inBlock_eq_ok.mp hd
    have hfirst : k = i → a[k]? ≠ some 0 := by
      rintro rfl
      rw [hc]
      exact fun e => hz (Option.some.inj e)
    by_cases hslash : c = 92 ∧ d ≠ 0
    · rw [if_pos hslash] at h
      obtain rfl | rfl | hafter : k = i ∨ k = i + 1 ∨ i + 2 ≤ k := by omega
      · exact hfirst rfl
      · rw [hd]
        exact fun e => hslash.2 (Option.some.inj e)
      · exact ih h hafter
    rw [if_neg hslash] at h
    by_cases hend : c = 34
    · rw [if_pos hend, if_pos rfl] at h
      obtain ⟨-, rfl, -⟩ : a = out ∧ i = j ∧ 0 = q := by simpa using h
      omega
    · rw [if_neg hend] at h
      obtain rfl | hafter : k = i ∨ i + 1 ≤ k := by omega
      · exact hfirst rfl
      · exact ih h hafter

theorem rimTextToUtf_passes (h : rimTextToUtf a true dec false = .ok t) (hk : 1 ≤ k) (hlt : k < t.last) :
    a[k]? ≠ some 0 := by
  rw [rimTextToUtf_eq] at h
  obtain ⟨⟨out, j, q⟩, hloop, h⟩ := bind_eq_ok.mp h
  rw [quotedEnd_last h] at hlt
  cases dec with
  | true => exact rimTextLoop_passes (Nat.zero_le 1) hloop hk hlt
  | false => exact rimSkipLoop_passes hloop hk hlt

/-- A null in front of the end stays, or one behind it. -/
theorem rimTextToUtf_nulls (h : rimTextToUtf a true dec false = .ok t) (hk : a[k]? = some 0) : t.val[k]? = some 0 := by
  obtain ⟨-, -, hwrote⟩ := rimTextToUtf_quoted h
  rw [hwrote.same k, hk]
  by_contra hin
  exact rimTextToUtf_passes h (by omega) (by omega) hk

/-- The loop without encoding ends where there is a null. -/
theorem rimSkipLoop_ends (hnull : 0 ∈ a.drop i) (hfuel : a.length < fuel + i) :
    ∃ j, j < a.length ∧ rimSkipLoop true fuel a i = .ok (a, j, 0) := by
  induction fuel generalizing i with
  | zero =>
    have hpos := List.length_pos_of_mem hnull
    rw [List.length_drop] at hpos
    omega
  | succ fuel ih =>
    have hi : i < a.length := by
      have hpos := List.length_pos_of_mem hnull
      rw [List.length_drop] at hpos
      omega
    rw [List.drop_eq_getElem_cons hi] at hnull
    have hc : inBlock a[i]? = .ok a[i] := inBlock_eq_ok.mpr (List.getElem?_eq_getElem hi)
    rw [rimSkipLoop]
    by_cases hz : a[i] = 0
    · exact ⟨i, hi, bind_eq_ok.mpr ⟨_, hc, if_pos hz⟩⟩
    have hrest : 0 ∈ a.drop (i + 1) := by
      obtain hhere | hrest := List.mem_cons.mp hnull
      · exact absurd hhere.symm hz
      · exact hrest
    have hi' : i + 1 < a.length := by
      have hpos := List.length_pos_of_mem hrest
      rw [List.length_drop] at hpos
      omega
    have hd : inBlock a[i + 1]? = .ok a[i + 1] := inBlock_eq_ok.mpr (List.getElem?_eq_getElem hi')
    simp only [hc, hd, bind, Except.bind, if_neg hz]
    by_cases hslash : a[i] = 92 ∧ a[i + 1] ≠ 0
    · rw [List.drop_eq_getElem_cons hi'] at hrest
      obtain ⟨j, hj, hloop⟩ := ih ((List.mem_cons.mp hrest).resolve_left fun e => hslash.2 e.symm) (by omega)
      exact ⟨j, hj, (if_pos hslash).trans hloop⟩
    rw [if_neg hslash]
    by_cases hend : a[i] = 34
    · exact ⟨i, hi, if_pos hend⟩
    · obtain ⟨j, hj, hloop⟩ := ih hrest (by omega)
      exact ⟨j, hj, (if_neg hend).trans hloop⟩

/-- Text that ends with a null is read, or refused with a message. -/
theorem rimTextToUtf_defined (dec : Bool) (hnull : 0 ∈ a.drop 1) : rimTextToUtf a true dec false ≠ .error .undefined := by
  have hlen : 1 ≤ a.length := by
    have hpos := List.length_pos_of_mem hnull
    rw [List.length_drop] at hpos
    omega
  cases dec with
  | true =>
    have hstart : InPlace a (a.take 1) (a.drop 1) 1 1 :=
      ⟨rfl, rfl, by rw [List.length_take, Nat.min_eq_left hlen], Nat.le_refl _, hlen⟩
    have hfuel : (a.drop 1).length < a.length + 1 := by
      rw [List.length_drop]
      omega
    obtain ⟨ps, r, -, -, ⟨hr, bs, val', i, pull, hloop, h, hi, -, -⟩ | ⟨-, -, e, hloop, -⟩⟩ :=
      rimTextLoop_outcome hfuel hnull hstart (Nat.add_zero _).symm
    · obtain ⟨c, hc⟩ : ∃ c, r.head? = some c := by
        obtain hr | hr := hr
        · exact ⟨34, hr⟩
        · exact ⟨0, hr⟩
      have hended := @rimTextToUtf_ended a val' _ r true i _ pull false hloop h hi _ hc
      split at hended
      · rw [hended]
        simp
      · obtain ⟨t, ht, -⟩ := hended
        rw [ht]
        simp
    · rw [@rimTextToUtf_failed a true false _ hloop]
      simp
  | false =>
    obtain ⟨j, hj, hloop⟩ := rimSkipLoop_ends hnull (show a.length < a.length + 1 + 1 by omega)
    rw [rimTextToUtf_eq]
    show rimSkipLoop true (a.length + 1) a 1 >>= quotedEnd ≠ _
    rw [hloop]
    show (inBlock a[j]? >>= fun c => if c = 0 then _ else _) ≠ _
    rw [List.getElem?_eq_getElem hj]
    show (if a[j] = 0 then _ else _) ≠ _
    split <;> simp

end RimStone
