import RimStone.Text.Utf
import RimStone.Laws.Memory.Chars
import RimStone.Lib.Window
import RimStone.Lib.Yields

/-!
# Text in quotes

What `rim_text_to_utf` does with any text that begins with a quote: it ends at another
quote, and writes nothing but between the two.
-/

namespace RimStone

open RimStone.Lib

theorem inBlock_eq_ok {α : Type} {o : Option α} {a : α} : inBlock o = .ok a ↔ o = some a := by
  cases o with
  | none => simp [inBlock]
  | some b => simp [inBlock]

theorem poke_eq_some {b b' : Bytes} {i : Nat} {c : UInt8} : poke b i c = some b' ↔ i < b.length ∧ b' = b.set i c := by
  unfold poke
  by_cases h : i < b.length
  · rw [if_pos h, Option.some.injEq]
    exact ⟨fun e => ⟨h, e.symm⟩, fun e => e.2.symm⟩
  · rw [if_neg h]
    exact ⟨nofun, fun e => absurd e.1 h⟩

theorem memcpy_eq_some {b b' src : Bytes} {i : Nat} :
    memcpy b i src = some b' ↔ i + src.length ≤ b.length ∧ b' = b.take i ++ src ++ b.drop (i + src.length) := by
  unfold memcpy
  by_cases h : i + src.length ≤ b.length
  · rw [if_pos h, Option.some.injEq]
    exact ⟨fun e => ⟨h, e.symm⟩, fun e => e.2.symm⟩
  · rw [if_neg h]
    exact ⟨nofun, fun e => absurd e.1 h⟩

/-- Hexadecimal digits lie in the block. -/
theorem rimGetHexLoop_bound {v : Bytes} {n i r r' : Nat} (h : rimGetHexLoop v n i r = .ok r') (hn : 0 < n) :
    i + n ≤ v.length := by
  induction n generalizing i r with
  | zero => omega
  | succ n ih =>
    rw [rimGetHexLoop] at h
    obtain ⟨c, hc, h⟩ := bind_eq_ok.mp h
    have hi : i < v.length := (List.getElem?_eq_some_iff.mp (inBlock_eq_ok.mp hc)).1
    by_cases hz : n = 0
    · omega
    · cases hd : hexVal c with
      | none =>
        rw [hd] at h
        cases h
      | some d =>
        rw [hd] at h
        have hnext := ih h (Nat.pos_of_ne_zero hz)
        omega

theorem rimGetHex_bound {v : Bytes} {n i : Nat} {r : Int} (h : rimGetHex v i n = .ok r) (hn : 0 < n) :
    i + n ≤ v.length := by
  unfold rimGetHex at h
  obtain ⟨r', hr', -⟩ := bind_eq_ok.mp h
  exact rimGetHexLoop_bound hr' hn

/-- A code point takes six bytes at least, all in the block. -/
theorem rimUtfGetCode8_bound {val : Bytes} {u j : Nat} {r : Int} (h : rimUtfGetCode8 val u = .ok (r, j)) :
    6 ≤ j ∧ u + j ≤ val.length + 1 := by
  unfold rimUtfGetCode8 at h
  obtain ⟨r', hr', h⟩ := bind_eq_ok.mp h
  have hb := rimGetHex_bound hr' (by decide)
  split_ifs at h
  obtain ⟨-, rfl⟩ := Prod.mk.inj (Except.ok.inj h)
  omega

theorem rimUtfGetCode_bound {val : Bytes} {u j : Nat} {r : Int} (h : rimUtfGetCode val u = .ok (r, j)) :
    6 ≤ j ∧ u + j ≤ val.length + 1 := by
  unfold rimUtfGetCode at h
  obtain ⟨r', hr', h⟩ := bind_eq_ok.mp h
  have hb := rimGetHex_bound hr' (by decide)
  split_ifs at h
  · obtain ⟨c, -, h⟩ := bind_eq_ok.mp h
    split_ifs at h
    obtain ⟨c', -, h⟩ := bind_eq_ok.mp h
    split_ifs at h
    obtain ⟨r₁, hr₁, h⟩ := bind_eq_ok.mp h
    have hb₁ := rimGetHex_bound hr₁ (by decide)
    obtain ⟨-, rfl⟩ := Prod.mk.inj (Except.ok.inj h)
    omega
  · obtain ⟨-, rfl⟩ := Prod.mk.inj (Except.ok.inj h)
    omega

theorem rimDecodeUtf_length {u : Int} {bytes : Bytes} (h : rimDecodeUtf u = .ok bytes) : bytes.length ≤ 4 := by
  unfold rimDecodeUtf at h
  split_ifs at h <;> cases h <;> simp

/-- What a round of the loop does with a byte or an escape: what it leaves of the block, and where it goes on. -/
inductive TextRound (val : Bytes) (i pull : Nat) : Bytes → Nat → Nat → Prop where
  | plain {c : UInt8} {val₁ : Bytes} (hc : val[i]? = some c) (hstop : ¬ (c = 34 ∨ c = 0)) (hslash : c ≠ 92)
      (hval : pull = 0 ∧ val = val₁ ∨ pull ≠ 0 ∧ poke val (i - pull) c = some val₁) :
      TextRound val i pull val₁ (i + 1) pull
  | escape {e b : UInt8} {val₁ : Bytes} (hc : val[i]? = some 92) (he : val[i + 1]? = some e)
      (hb : textEscape e = some b) (hval : poke val (i - pull) b = some val₁) :
      TextRound val i pull val₁ (i + 2) (pull + 1)
  | code {e : UInt8} {u : Int} {n : Nat} {bytes val₁ : Bytes} (hc : val[i]? = some 92) (he : val[i + 1]? = some e)
      (hcode : e = 85 ∧ rimUtfGetCode8 val (i + 1) = .ok (u, n) ∨ e = 117 ∧ rimUtfGetCode val (i + 1) = .ok (u, n))
      (hbytes : rimDecodeUtf u = .ok bytes) (hval : memcpy val (i - pull) bytes = some val₁) :
      TextRound val i pull val₁ (i + n) (pull + (n - bytes.length))

section Round

variable {fuel : Nat} {val val₁ val' : Bytes} {i i₁ i' pull pull₁ pull' : Nat}

theorem TextRound.loop (h : TextRound val i pull val₁ i₁ pull₁) (fuel : Nat) :
    rimTextLoop (fuel + 1) val i pull = rimTextLoop fuel val₁ i₁ pull₁ := by
  have hend : ¬ ((92 : UInt8) = 34 ∨ (92 : UInt8) = 0) := by decide
  cases h with
  | plain hc hstop hslash hval =>
    obtain ⟨rfl, rfl⟩ | ⟨hz, hval⟩ := hval
    · simp only [rimTextLoop, hc, inBlock, bind, Except.bind, if_neg hstop, if_neg hslash, ne_eq, not_true_eq_false, if_false]
    · simp only [rimTextLoop, hc, inBlock, bind, Except.bind, if_neg hstop, if_neg hslash, ne_eq, hz, not_false_eq_true,
        if_true, hval]
  | escape hc he hb hval => simp only [rimTextLoop, hc, he, inBlock, bind, Except.bind, if_neg hend, if_true, hb, hval]
  | code hc he hcode hbytes hval =>
    obtain ⟨rfl, hu⟩ | ⟨rfl, hu⟩ := hcode
    · have hno : textEscape 85 = none := by decide
      simp only [rimTextLoop, hc, he, inBlock, bind, Except.bind, if_neg hend, if_true, hno, true_or, hu, hbytes, hval]
    · have hno : textEscape 117 = none := by decide
      have hne : ¬ (117 : UInt8) = 85 := by decide
      simp only [rimTextLoop, hc, he, inBlock, bind, Except.bind, if_neg hend, if_true, hno, or_true, if_neg hne, hu,
        hbytes, hval]

/-- The loop ends, or a round is followed by the others. -/
theorem rimTextLoop_cases (h : rimTextLoop (fuel + 1) val i pull = .ok (val', i', pull')) :
    ((val[i]? = some 34 ∨ val[i]? = some 0) ∧ val = val' ∧ i = i' ∧ pull = pull') ∨
      ∃ val₁ i₁ pull₁, TextRound val i pull val₁ i₁ pull₁ ∧ rimTextLoop fuel val₁ i₁ pull₁ = .ok (val', i', pull') := by
  rw [rimTextLoop] at h
  obtain ⟨c, hc, h⟩ := bind_eq_ok.mp h
  have hc := inBlock_eq_ok.mp hc
  by_cases hstop : c = 34 ∨ c = 0
  · rw [if_pos hstop] at h
    refine .inl ⟨?_, by simpa using h⟩
    rw [hc]
    exact hstop.imp (congrArg some) (congrArg some)
  rw [if_neg hstop] at h
  refine .inr ?_
  by_cases hslash : c = 92
  · subst hslash
    rw [if_pos rfl] at h
    obtain ⟨e, he, h⟩ := bind_eq_ok.mp h
    have he := inBlock_eq_ok.mp he
    cases hb : textEscape e with
    | some b =>
      rw [hb] at h
      obtain ⟨val₁, hval, h⟩ := bind_eq_ok.mp h
      exact ⟨_, _, _, .escape hc he hb (inBlock_eq_ok.mp hval), h⟩
    | none =>
      rw [hb] at h
      by_cases hcode : e = 85 ∨ e = 117
      · simp only [if_pos hcode] at h
        split_ifs at h with hlong
        · obtain ⟨⟨u, n⟩, hu, h⟩ := bind_eq_ok.mp h
          obtain ⟨bytes, hbytes, h⟩ := bind_eq_ok.mp h
          obtain ⟨val₁, hval, h⟩ := bind_eq_ok.mp h
          exact ⟨_, _, _, .code hc he (.inl ⟨hlong, hu⟩) hbytes (inBlock_eq_ok.mp hval), h⟩
        · obtain ⟨⟨u, n⟩, hu, h⟩ := bind_eq_ok.mp h
          obtain ⟨bytes, hbytes, h⟩ := bind_eq_ok.mp h
          obtain ⟨val₁, hval, h⟩ := bind_eq_ok.mp h
          exact ⟨_, _, _, .code hc he (.inr ⟨hcode.resolve_left hlong, hu⟩) hbytes (inBlock_eq_ok.mp hval), h⟩
      · rw [if_neg hcode] at h
        cases h
  · rw [if_neg hslash] at h
    by_cases hz : pull = 0
    · simp only [ne_eq, hz, not_true_eq_false, if_false] at h
      exact ⟨val, _, _, .plain hc hstop hslash (.inl ⟨hz, rfl⟩), hz ▸ h⟩
    · simp only [ne_eq, hz, not_false_eq_true, if_true] at h
      obtain ⟨val₁, hval, h⟩ := bind_eq_ok.mp h
      exact ⟨_, _, _, .plain hc hstop hslash (.inr ⟨hz, inBlock_eq_ok.mp hval⟩), h⟩

/-- A round goes on behind what it reads, and writes no more than that. -/
theorem TextRound.window (h : TextRound val i pull val₁ i₁ pull₁) (hp : pull ≤ i) :
    Window val val₁ (i - pull) i₁ ∧ i < i₁ ∧ pull₁ ≤ i₁ ∧ i - pull ≤ i₁ - pull₁ := by
  cases h with
  | plain hc hstop hslash hval =>
    refine ⟨?_, by omega⟩
    obtain ⟨-, rfl⟩ | ⟨-, hval⟩ := hval
    · exact Window.refl _ _ _
    · obtain ⟨-, rfl⟩ := poke_eq_some.mp hval
      exact Window.set val (Nat.le_refl _) (by omega) _
  | escape hc he hb hval =>
    obtain ⟨-, rfl⟩ := poke_eq_some.mp hval
    exact ⟨Window.set val (Nat.le_refl _) (by omega) _, by omega⟩
  | code hc he hcode hbytes hval =>
    have hfour := rimDecodeUtf_length hbytes
    have hsix := hcode.elim (fun hu => rimUtfGetCode8_bound hu.2) fun hu => rimUtfGetCode_bound hu.2
    obtain ⟨hroom, rfl⟩ := memcpy_eq_some.mp hval
    exact ⟨Window.putAll (Nat.le_refl _) hroom (by omega), by omega⟩

end Round

structure LoopEnd (val : Bytes) (i pull : Nat) (val' : Bytes) (i' pull' : Nat) : Prop where
  wrote : Window val val' (i - pull) i'
  on : i ≤ i'
  behind : pull' ≤ i'
  order : i - pull ≤ i' - pull'
  stop : val[i']? = some 34 ∨ val[i']? = some 0

theorem LoopEnd.step {val val₁ val' : Bytes} {i i₁ i' pull pull₁ pull' : Nat}
    (hwrote : Window val val₁ (i - pull) i₁) (hi : i ≤ i₁) (hback : i - pull ≤ i₁ - pull₁)
    (h : LoopEnd val₁ i₁ pull₁ val' i' pull') : LoopEnd val i pull val' i' pull' := by
  refine ⟨?_, Nat.le_trans hi h.on, h.behind, Nat.le_trans hback h.order, ?_⟩
  · exact (hwrote.mono (Nat.le_refl _) h.on).trans (h.wrote.mono hback (Nat.le_refl _))
  · rw [← hwrote.same i' (Or.inr h.on)]
    exact h.stop

theorem rimTextLoop_end {fuel : Nat} {val val' : Bytes} {i i' pull pull' : Nat} (hp : pull ≤ i)
    (h : rimTextLoop fuel val i pull = .ok (val', i', pull')) : LoopEnd val i pull val' i' pull' := by
  induction fuel generalizing val i pull with
  | zero => cases h
  | succ fuel ih =>
    obtain ⟨hstop, rfl, rfl, rfl⟩ | ⟨val₁, i₁, pull₁, hround, h⟩ := rimTextLoop_cases h
    · exact ⟨Window.refl _ _ _, Nat.le_refl _, hp, Nat.le_refl _, hstop⟩
    · obtain ⟨hwrote, hi, hp₁, hback⟩ := hround.window hp
      exact (ih hp₁ h).step hwrote (by omega) hback

theorem rimSkipLoop_end {quoted : Bool} {fuel : Nat} {val val' : Bytes} {i i' pull' : Nat}
    (h : rimSkipLoop quoted fuel val i = .ok (val', i', pull')) : LoopEnd val i 0 val' i' pull' := by
  induction fuel generalizing val i with
  | zero => cases h
  | succ fuel ih =>
    rw [rimSkipLoop] at h
    obtain ⟨c, hc, h⟩ := bind_eq_ok.mp h
    have hc := inBlock_eq_ok.mp hc
    have hend : ∀ {x : UInt8}, val[i]? = some x → x = 34 ∨ x = 0 →
        (Except.ok (val, i, 0) : Except TextFault (Bytes × Nat × Nat)) = .ok (val', i', pull') →
        LoopEnd val i 0 val' i' pull' := by
      intro x hx hstop e
      have e := Except.ok.inj e
      simp only [Prod.mk.injEq] at e
      obtain ⟨rfl, rfl, rfl⟩ := e
      refine ⟨Window.refl _ _ _, Nat.le_refl _, Nat.zero_le _, Nat.le_refl _, ?_⟩
      rw [hx]
      rcases hstop with rfl | rfl
      · exact Or.inl rfl
      · exact Or.inr rfl
    have hon : ∀ {j : Nat}, i ≤ j → rimSkipLoop quoted fuel val j = .ok (val', i', pull') →
        LoopEnd val i 0 val' i' pull' :=
      fun hj hloop => (ih hloop).step (Window.refl _ _ _) hj (by omega)
    by_cases hz : c = 0
    · rw [if_pos hz] at h
      exact hend hc (Or.inr hz) h
    rw [if_neg hz] at h
    obtain ⟨d, -, h⟩ := bind_eq_ok.mp h
    by_cases hslash : c = 92 ∧ d ≠ 0
    · rw [if_pos hslash] at h
      exact hon (by omega) h
    rw [if_neg hslash] at h
    by_cases hquote : c = 34
    · rw [if_pos hquote] at h
      cases quoted with
      | true => exact hend hc (Or.inl hquote) h
      | false => exact hon (Nat.le_refl _) h
    · rw [if_neg hquote] at h
      exact hon (by omega) h

/-- Text in quotes ends at a quote, and is written between the two. -/
theorem rimTextToUtf_quoted {v : Bytes} {dec : Bool} {t : TextEnd} (h : rimTextToUtf v true dec false = .ok t) :
    1 ≤ t.last ∧ v[t.last]? = some 34 ∧ Window v t.val 1 t.last := by
  -- the end of the loop is a quote or a null, and a null is an error
  have hend : ∀ {val : Bytes} {i : Nat} {len : Option Nat}, 1 ≤ i → v[i]? = some 34 ∨ v[i]? = some 0 →
      Window v val 1 i →
      (inBlock val[i]? >>= fun c =>
          if c = 0 then (.error (.err .RIM_ERR_UTF_NOQUOTE) : Except TextFault TextEnd)
          else .ok { val, last := i, len }) = .ok t →
      1 ≤ t.last ∧ v[t.last]? = some 34 ∧ Window v t.val 1 t.last := by
    intro val i len hi hstop hwrote h
    obtain ⟨c, hc, h⟩ := bind_eq_ok.mp h
    have hc := inBlock_eq_ok.mp hc
    rw [hwrote.same i (Or.inr (Nat.le_refl _))] at hc
    by_cases hz : c = 0
    · rw [if_pos hz] at h
      cases h
    · rw [if_neg hz] at h
      obtain rfl := Except.ok.inj h
      refine ⟨hi, ?_, hwrote⟩
      rcases hstop with hstop | hstop
      · exact hstop
      · rw [hstop] at hc
        exact absurd (Option.some.inj hc).symm hz
  have hmain : ∀ {val' : Bytes} {i' pull' : Nat}, LoopEnd v 1 0 val' i' pull' →
      rimTextToUtf v true dec false = (do
        let val ← if pull' ≠ 0 then inBlock (poke val' (i' - pull') 0) else .ok val'
        let c ← inBlock val[i']?
        if c = 0 then .error (.err .RIM_ERR_UTF_NOQUOTE)
        else .ok { val, last := i', len := none }) →
      1 ≤ t.last ∧ v[t.last]? = some 34 ∧ Window v t.val 1 t.last := by
    intro val' i' pull' hloop heq
    rw [heq] at h
    by_cases hz : pull' = 0
    · rw [if_neg (not_not_intro hz)] at h
      exact hend hloop.on hloop.stop hloop.wrote h
    · rw [if_pos hz] at h
      obtain ⟨val₁, hval₁, h⟩ := bind_eq_ok.mp h
      obtain ⟨-, rfl⟩ := poke_eq_some.mp (inBlock_eq_ok.mp hval₁)
      have hback := hloop.order
      have hbehind := hloop.behind
      exact hend hloop.on hloop.stop (hloop.wrote.trans (Window.set val' (by omega) (by omega) 0)) h
  cases dec with
  | true =>
    cases hloop : rimTextLoop (v.length + 1) v 1 0 with
    | error e => simp [rimTextToUtf, hloop, bind, Except.bind] at h
    | ok r =>
      obtain ⟨val', i', pull'⟩ := r
      apply hmain (rimTextLoop_end (Nat.zero_le 1) hloop)
      simp only [rimTextToUtf, if_true, hloop, bind, Except.bind, and_true, Bool.false_eq_true, and_false, if_false]
  | false =>
    cases hloop : rimSkipLoop true (v.length + 1) v 1 with
    | error e => simp [rimTextToUtf, hloop, bind, Except.bind] at h
    | ok r =>
      obtain ⟨val', i', pull'⟩ := r
      apply hmain (rimSkipLoop_end hloop)
      simp only [rimTextToUtf, if_true, hloop, bind, Except.bind, and_true, Bool.false_eq_true, and_false, if_false]

end RimStone
