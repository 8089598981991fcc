import Mathlib.Data.Nat.Find
import RimStone.Laws.Text.Encode

/-!
# Malformed URL escapes

The loop of `rim_decode` moves its index over the digits of an escape before it looks at them. After
a digit that is none it stops where that digit is, not at the escape; and where the escape is cut
off by the end of the text, it looks at bytes behind the end, and may stop exactly there, as if all
had been decoded. So what it answers is right exactly for a text whose escapes are all whole.
-/

namespace RimStone

open RimStone.Lib

def GoodEscape (s : Bytes) (p : Nat) : Prop :=
  ∃ x y h l, s[p + 1]? = some x ∧ s[p + 2]? = some y ∧ urlDig x = some h ∧ urlDig y = some l

/-- Every `%` is followed by two digits. -/
def UrlWellFormed (s : Bytes) : Prop := ∀ p, s[p]? = some 37 → GoodEscape s p

/-- The first `%` that is not followed by two digits. -/
structure FirstMalformed (s : Bytes) (p : Nat) : Prop where
  escape : s[p]? = some 37
  malformed : ¬ GoodEscape s p
  first : ∀ q < p, s[q]? = some 37 → GoodEscape s q

/-- `s` is a URL text of `d`. -/
inductive UrlText : Bytes → Bytes → Prop
  | nil : UrlText [] []
  | plain {c : UInt8} {s d : Bytes} : c ≠ 37 → UrlText s d → UrlText (c :: s) ((if c = 43 then 32 else c) :: d)
  | escape {x y h l : UInt8} {s d : Bytes} :
      urlDig x = some h → urlDig y = some l → UrlText s d → UrlText (37 :: x :: y :: s) ((h * 16 + l) :: d)

/-- What `rim_decode` is to do with the first `inlen` bytes of `v`, which is in a block. -/
structure DecodesUrl (v free : Bytes) (inlen : Nat) : Prop where
  /-- No other bytes are read. -/
  reads : rimDecodeUrlLoop inlen (inlen + 1) (v.take inlen) 0 0 ≠ none
  answers : ∃ d, rimDecode .url (v ++ 0 :: free) inlen = some d ∧
    (d.status = some RIM_OKAY ↔ UrlWellFormed (v.take inlen)) ∧
    (UrlWellFormed (v.take inlen) → ∃ out, UrlText (v.take inlen) out ∧ d.memory = out ++ [0] ∧ d.len = out.length) ∧
    ∀ p, FirstMalformed (v.take inlen) p → d.status = some (p : Int) ∧
      ∃ out, UrlText (v.take p) out ∧ d.memory = out ++ [0] ∧ d.len = out.length

/-! ## Texts -/

theorem urlDig_pct : urlDig 37 = none := by decide

theorem urlWellFormed_escape {x y h l : UInt8} {s : Bytes} (hx : urlDig x = some h) (hy : urlDig y = some l) :
    UrlWellFormed (37 :: x :: y :: s) ↔ UrlWellFormed s := by
  constructor
  · intro hs p hp
    exact hs (p + 3) hp
  · intro hs p hp
    match p with
    | 0 => exact ⟨x, y, h, l, rfl, rfl, hx, hy⟩
    | 1 =>
      have hp : some x = some 37 := hp
      rw [Option.some.inj hp, urlDig_pct] at hx
      cases hx
    | 2 =>
      have hp : some y = some 37 := hp
      rw [Option.some.inj hp, urlDig_pct] at hy
      cases hy
    | p + 3 => exact hs p hp

theorem urlWellFormed_plain {c : UInt8} {s : Bytes} (hc : c ≠ 37) : UrlWellFormed (c :: s) ↔ UrlWellFormed s := by
  constructor
  · intro hs p hp
    exact hs (p + 1) hp
  · intro hs p hp
    match p with
    | 0 => exact absurd (Option.some.inj hp) hc
    | p + 1 => exact hs p hp

/-- A text whose escapes are whole is one of some bytes. -/
theorem UrlWellFormed.text {s : Bytes} (hs : UrlWellFormed s) : ∃ d, UrlText s d := by
  match s, hs with
  | [], _ => exact ⟨[], .nil⟩
  | c :: s, hs =>
    by_cases hc : c = 37
    · subst hc
      obtain ⟨x, y, h, l, hgetx, hgety, hx, hy⟩ := hs 0 rfl
      obtain ⟨t, rfl⟩ : ∃ t, s = x :: y :: t := by
        match s, hgetx, hgety with
        | x' :: y' :: t, hgetx, hgety => exact ⟨t, by rw [Option.some.inj hgetx, Option.some.inj hgety]⟩
      obtain ⟨d, hd⟩ := ((urlWellFormed_escape hx hy).mp hs).text
      exact ⟨_, .escape hx hy hd⟩
    · obtain ⟨d, hd⟩ := ((urlWellFormed_plain hc).mp hs).text
      exact ⟨_, .plain hc hd⟩
termination_by s.length

/-- What is before the first malformed escape is well formed. -/
theorem FirstMalformed.front {s : Bytes} {p : Nat} (hp : FirstMalformed s p) : UrlWellFormed (s.take p) := by
  intro q hq
  have hlt : q < p := by
    by_contra hge
    rw [List.getElem?_take, if_neg hge] at hq
    cases hq
  rw [List.getElem?_take, if_pos hlt] at hq
  obtain ⟨x, y, h, l, hgetx, hgety, hx, hy⟩ := hp.first q hlt hq
  -- the escape is no digit of another
  have hne : ∀ {z d : UInt8} {k : Nat}, s[k]? = some z → urlDig z = some d → k ≠ p := by
    intro z d k hget hz heq
    rw [heq, hp.escape] at hget
    rw [← Option.some.inj hget, urlDig_pct] at hz
    cases hz
  have h1 := hne hgetx hx
  have h2 := hne hgety hy
  refine ⟨x, y, h, l, ?_, ?_, hx, hy⟩
  · rw [List.getElem?_take, if_pos (by omega)]
    exact hgetx
  · rw [List.getElem?_take, if_pos (by omega)]
    exact hgety

/-- A text is well formed, or there is a first malformed escape. -/
theorem exists_firstMalformed {s : Bytes} (hs : ¬ UrlWellFormed s) : ∃ p, FirstMalformed s p := by
  classical
  obtain ⟨p, hp⟩ := not_forall.mp hs
  have hex : ∃ p, s[p]? = some 37 ∧ ¬ GoodEscape s p := ⟨p, Classical.not_imp.mp hp⟩
  obtain ⟨hescape, hbad⟩ := Nat.find_spec hex
  refine ⟨Nat.find hex, hescape, hbad, ?_⟩
  intro q hq hget
  by_contra hnot
  exact Nat.find_min hex hq ⟨hget, hnot⟩

/-! ## The loop -/

theorem rimDecodeUrlLoop_le {inlen fuel : Nat} {v v' : Bytes} {i i' j j' : Nat}
    (h : rimDecodeUrlLoop inlen fuel v i j = some (v', j', i')) : i ≤ i' := by
  induction fuel generalizing v i j with
  | zero => cases h
  | succ fuel ih =>
    unfold rimDecodeUrlLoop at h
    split at h
    · obtain ⟨c, -, h⟩ := Option.bind_eq_some_iff.mp h
      split at h
      · obtain ⟨x, -, h⟩ := Option.bind_eq_some_iff.mp h
        split at h
        · cases h
          omega
        · obtain ⟨y, -, h⟩ := Option.bind_eq_some_iff.mp h
          split at h
          · cases h
            omega
          · obtain ⟨w, -, h⟩ := Option.bind_eq_some_iff.mp h
            have hle := ih h
            omega
      · obtain ⟨w, -, h⟩ := Option.bind_eq_some_iff.mp h
        have hle := ih h
        omega
    · cases h
      exact Nat.le_refl _

/-- At a malformed escape the loop goes on behind its `%`, wherever it ends. -/
theorem rimDecodeUrlLoop_pct {inlen fuel : Nat} {v v' : Bytes} {i i' j j' : Nat} (hget : v[i]? = some 37)
    (hi : i < inlen) (h : rimDecodeUrlLoop inlen (fuel + 1) v i j = some (v', j', i')) : i < i' := by
  unfold rimDecodeUrlLoop at h
  rw [if_pos hi] at h
  obtain ⟨c, hc, h⟩ := Option.bind_eq_some_iff.mp h
  rw [hget] at hc
  rw [← Option.some.inj hc, if_pos rfl] at h
  obtain ⟨x, -, h⟩ := Option.bind_eq_some_iff.mp h
  split at h
  · cases h
    omega
  · obtain ⟨y, -, h⟩ := Option.bind_eq_some_iff.mp h
    split at h
    · cases h
      omega
    · obtain ⟨w, -, h⟩ := Option.bind_eq_some_iff.mp h
      have hle := rimDecodeUrlLoop_le h
      omega

/-- The loop takes a text. -/
theorem rimDecodeUrlLoop_text {s d : Bytes} (hs : UrlText s d) {inlen fuel : Nat} {v out rest : Bytes} {i j : Nat}
    (h : InPlace v out (s ++ rest) i j) (hi : i + s.length ≤ inlen) (hfuel : s.length < fuel) :
    ∃ v' fuel', rimDecodeUrlLoop inlen fuel v i j = rimDecodeUrlLoop inlen (fuel' + 1) v' (i + s.length) (j + d.length) ∧
      InPlace v' (out ++ d) rest (i + s.length) (j + d.length) := by
  obtain ⟨fuel, rfl⟩ := Nat.exists_eq_succ_of_ne_zero (Nat.ne_of_gt (Nat.zero_lt_of_lt hfuel))
  induction hs generalizing v out i j fuel with
  | nil =>
    refine ⟨v, fuel, rfl, ?_⟩
    rw [List.append_nil]
    exact h
  | @plain c s d hc hs ih =>
    rw [List.length_cons] at hi hfuel
    obtain ⟨v₁, hstep, h₁⟩ := rimDecodeUrlLoop_plain fuel hc h (show i < inlen by omega)
    obtain ⟨fuel, rfl⟩ : ∃ f, fuel = f + 1 := ⟨fuel - 1, by omega⟩
    obtain ⟨v', fuel', hloop, h'⟩ := ih h₁ (by omega) fuel (by omega)
    rw [List.append_assoc, List.singleton_append, Nat.add_right_comm, Nat.add_right_comm j] at h'
    rw [Nat.add_right_comm, Nat.add_right_comm j] at hloop
    exact ⟨v', fuel', hstep.trans hloop, h'⟩
  | @escape x y d₁ d₂ s d hx hy hs ih =>
    simp only [List.length_cons] at hi hfuel
    obtain ⟨v₁, hstep, h₁⟩ := rimDecodeUrlLoop_digits fuel hx hy h (show i < inlen by omega)
    obtain ⟨fuel, rfl⟩ : ∃ f, fuel = f + 1 := ⟨fuel - 1, by omega⟩
    obtain ⟨v', fuel', hloop, h'⟩ := ih h₁ (by omega) fuel (by omega)
    have hplace : i + 3 + s.length = i + (37 :: x :: y :: s).length := by
      simp only [List.length_cons]
      omega
    rw [List.append_assoc, List.singleton_append, hplace, Nat.add_right_comm j] at h'
    rw [hplace, Nat.add_right_comm j] at hloop
    exact ⟨v', fuel', hstep.trans hloop, h'⟩

/-! ## Decoding -/

theorem rimDecodeUrlLoop_all {s d : Bytes} (hs : UrlText s d) (rest : Bytes) :
    ∃ v', rimDecodeUrlLoop s.length (s.length + 1) (s ++ rest) 0 0 = some (v', d.length, s.length) ∧
      InPlace v' d rest s.length d.length := by
  obtain ⟨v', fuel', hloop, h'⟩ := rimDecodeUrlLoop_text hs (InPlace.start (s ++ rest)) (Nat.le_of_eq (Nat.zero_add _))
    (Nat.lt_succ_self _)
  rw [Nat.zero_add, Nat.zero_add] at hloop
  rw [Nat.zero_add, Nat.zero_add, List.nil_append] at h'
  refine ⟨v', ?_, h'⟩
  rw [hloop, rimDecodeUrlLoop, if_neg (Nat.lt_irrefl _)]

/-- Decoding does what it is to do exactly with a text whose escapes are whole. -/
theorem decodesUrl_iff (v free : Bytes) {inlen : Nat} (hlen : inlen ≤ v.length) :
    DecodesUrl v free inlen ↔ UrlWellFormed (v.take inlen) := by
  have hcount : (v.take inlen).length = inlen := by
    rw [List.length_take]
    omega
  have hsplit : v ++ 0 :: free = v.take inlen ++ (v.drop inlen ++ 0 :: free) := by
    rw [← List.append_assoc, List.take_append_drop]
  constructor
  · rintro ⟨-, d, hd, hstatus, -, hfirst⟩
    by_contra hbad
    obtain ⟨p, hp⟩ := exists_firstMalformed hbad
    obtain ⟨front, hfront⟩ := hp.front.text
    have hlt : p < inlen := by
      have h := (List.getElem?_eq_some_iff.mp hp.escape).1
      omega
    have hfrontLen : ((v.take inlen).take p).length = p := by
      rw [List.length_take]
      omega
    -- the loop comes to the malformed escape, and goes on
    have hstart : InPlace (v ++ 0 :: free) [] ((v.take inlen).take p ++ (v ++ 0 :: free).drop p) 0 0 := by
      have hjoin : (v.take inlen).take p ++ (v ++ 0 :: free).drop p = v ++ 0 :: free := by
        have htake : (v ++ 0 :: free).take p = v.take p := List.take_append_of_le_length (by omega)
        rw [List.take_take, Nat.min_eq_left (by omega), ← htake, List.take_append_drop]
      rw [hjoin]
      exact InPlace.start _
    have hgo : 0 + ((v.take inlen).take p).length ≤ inlen ∧ ((v.take inlen).take p).length < inlen + 1 := by omega
    obtain ⟨v', fuel', hloop, h'⟩ := rimDecodeUrlLoop_text hfront hstart hgo.1 hgo.2
    rw [hfrontLen, Nat.zero_add, Nat.zero_add] at hloop h'
    have hpct : v'[p]? = some 37 := by
      have hget := hp.escape
      rw [List.getElem?_take, if_pos hlt] at hget
      rw [h'.get_zero, List.getElem?_drop, Nat.add_zero, List.getElem?_append_left (by omega)]
      exact hget
    have hd := hd
    unfold rimDecode at hd
    rw [hloop] at hd
    obtain ⟨⟨w, j, i⟩, hrun, hd⟩ := Option.bind_eq_some_iff.mp hd
    obtain ⟨w', -, hd⟩ := Option.bind_eq_some_iff.mp hd
    have hgo : p < i := rimDecodeUrlLoop_pct hpct hlt hrun
    obtain ⟨hindex, -⟩ := hfirst p hp
    obtain rfl := (Option.some.inj hd).symm
    by_cases hend : i = inlen
    · refine hbad (hstatus.mp ?_)
      show some (if i ≠ inlen then (i : Int) else RIM_OKAY) = some RIM_OKAY
      rw [if_neg (not_not.mpr hend)]
    · have hindex : some (if i ≠ inlen then (i : Int) else RIM_OKAY) = some (p : Int) := hindex
      rw [if_pos hend] at hindex
      have heq := Option.some.inj hindex
      omega
  · intro hs
    obtain ⟨out, hout⟩ := hs.text
    refine ⟨?_, ?_⟩
    · obtain ⟨v', hloop, -⟩ := rimDecodeUrlLoop_all hout []
      rw [hcount, List.append_nil] at hloop
      rw [hloop]
      exact Option.some_ne_none _
    · obtain ⟨v', hloop, h'⟩ := rimDecodeUrlLoop_all hout (v.drop inlen ++ 0 :: free)
      rw [hcount, ← hsplit] at hloop
      obtain ⟨x, rest, hrest⟩ := List.exists_cons_of_ne_nil (l := v.drop inlen ++ 0 :: free) (by simp)
      rw [hrest] at h'
      obtain ⟨w, hpoke, hwritten⟩ := exists_poke_null h'
      refine ⟨⟨w, out.length, some RIM_OKAY⟩, ?_, ⟨fun _ => hs, fun _ => rfl⟩, fun _ => ⟨out, hout, hwritten, rfl⟩, ?_⟩
      · unfold rimDecode
        simp only [hloop, bind, Option.bind, hpoke, ne_eq, not_true_eq_false, if_false]
      · intro p hp
        exact absurd (hs p hp.escape) hp.malformed

/-- A text with an escape and a plus, of which the last byte is left out. -/
theorem decodesUrl_plus : DecodesUrl (ascii "%41+b%") [] 5 ∧
    rimDecode .url (ascii "%41+b%" ++ [0]) 5 = some ⟨ascii "A b" ++ [0] ++ ascii "b%" ++ [0], 3, some RIM_OKAY⟩ := by
  constructor
  · refine (decodesUrl_iff _ _ (by decide)).mpr ?_
    refine (urlWellFormed_escape (h := 4) (l := 1) (by decide) (by decide)).mpr ?_
    intro p hp
    match p with
    | 0 | 1 => cases hp
    | p + 2 => cases hp
  · decide

/-- The text `a%` is decoded as if it were whole, and in `a%zz` the escape begins at 1. -/
theorem not_decodesUrl : ¬ (∀ (v free : Bytes) (inlen : Nat), inlen ≤ v.length → DecodesUrl v free inlen) ∧
    rimDecode .url (ascii "a%" ++ [0]) 2 = some ⟨ascii "a" ++ [0, 0], 1, some RIM_OKAY⟩ ∧
    rimDecode .url (ascii "a%zz" ++ [0]) 4 = some ⟨ascii "a" ++ [0] ++ ascii "zz" ++ [0], 1, some 2⟩ := by
  refine ⟨?_, by decide, by decide⟩
  intro h
  have hwell := (decodesUrl_iff (ascii "a%") [] (by decide)).mp (h (ascii "a%") [] 2 (by decide))
  obtain ⟨x, y, -, -, hx, -⟩ := hwell 1 rfl
  cases hx

end RimStone
