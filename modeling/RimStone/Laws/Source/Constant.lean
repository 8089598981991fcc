import Mathlib.Data.List.DropRight
import RimStone.Laws.Text.Utf
import RimStone.Lib.CLiteral
import RimStone.Lib.Yields
import RimStone.Source.Constant

/-!
# The length of a string constant

`Scans` is the reading of a literal piece by piece, as the loop of `is_constant_string` does it, with the bytes it
counts and the text that it leaves. What C reads in that text is compared with it from each place on: an escape is
either read alike, or C finds no literal, or a hexadecimal escape goes on over characters that were counted one by
one. So C never reads more bytes than were counted, and as many only where every escape is `exact`.
-/

namespace RimStone

open Lib Lib.CLiteral

/-! ## Characters -/

theorem hexDigit_eq_hexVal (c : UInt8) : hexDigit c = hexVal c := by
  unfold hexDigit hexVal
  split
  · rfl
  · by_cases hlower : 97 ≤ c ∧ c ≤ 102
    · have hupper : ¬ (65 ≤ c ∧ c ≤ 70) := by
        simp only [UInt8.le_iff_toNat_le, UInt8.reduceToNat] at hlower ⊢
        omega
      have hval : c.toNat - 87 = c.toNat - 97 + 10 := by
        simp only [UInt8.le_iff_toNat_le, UInt8.reduceToNat] at hlower
        omega
      rw [if_neg hupper, if_pos hlower, if_pos hlower, hval]
    · rw [if_neg hlower, if_neg hlower]
      split
      · next hupper =>
        simp only [UInt8.le_iff_toNat_le, UInt8.reduceToNat] at hupper
        congr 1
        omega
      · rfl

theorem hexDigit_lt (c : UInt8) : (hexDigit c).getD 0 < 16 := by
  unfold hexDigit
  simp only [UInt8.le_iff_toNat_le, UInt8.reduceToNat]
  split_ifs
  all_goals
    simp only [Option.getD_some, Option.getD_none]
    omega

theorem octDigit_isSome (c : UInt8) : (octDigit c).isSome = RIM_IS_OCTAL c := by
  unfold octDigit RIM_IS_OCTAL
  split
  · next h => simp [h]
  · next h =>
    rw [Option.isSome_none]
    exact (Bool.eq_false_iff.mpr fun hc => h (by simpa using hc)).symm

variable {s val cs t utf w : Bytes} {c cur : UInt8} {n : Nat} {e : Escape}

theorem nextIs_iff {p : UInt8 → Bool} : nextIs p s = true ↔ ∃ c t, s = c :: t ∧ p c = true := by
  cases s with
  | nil => simp [nextIs]
  | cons c t => simp [nextIs]

theorem isxdigit_iff : isxdigit c = true ↔ ∃ d, hexDigit c = some d := by
  rw [isxdigit, hexDigit_eq_hexVal, Option.isSome_iff_exists]

/-- The next `n` characters are digits. -/
theorem exists_xdigits (h : xdigits n s = true) :
    ∃ (cs : Bytes) (ds : List Nat) (rest : Bytes), s = cs ++ rest ∧ cs.length = n ∧ cs.map hexDigit = ds.map some ∧
      ds.length = n ∧ ∀ d ∈ ds, d < 16 := by
  obtain ⟨hlen, hall⟩ : n ≤ s.length ∧ (s.take n).all isxdigit = true := by simpa [xdigits] using h
  refine ⟨s.take n, (s.take n).map fun c => (hexDigit c).getD 0, s.drop n, (List.take_append_drop n s).symm,
    List.length_take_of_le hlen, ?_, by rw [List.length_map, List.length_take_of_le hlen], ?_⟩
  · rw [List.map_map]
    refine List.map_congr_left fun c hc => ?_
    obtain ⟨d, hd⟩ := isxdigit_iff.mp (List.all_eq_true.mp hall c hc)
    rw [Function.comp_apply, hd]
    rfl
  · intro d hd
    obtain ⟨c, -, rfl⟩ := List.mem_map.mp hd
    exact hexDigit_lt c

theorem rimGetHexLoop_hexDigit {rest : Bytes} {ds : List Nat} (hcs : cs.map hexDigit = ds.map some) {i : Nat}
    (h : val.drop i = cs ++ rest) (r : Nat) : rimGetHexLoop val cs.length i r = .ok (r + number 16 ds) := by
  induction cs generalizing ds i r with
  | nil =>
    cases ds with
    | nil => rfl
    | cons => cases hcs
  | cons c cs ih =>
    cases ds with
    | nil => cases hcs
    | cons d ds =>
      rw [List.map_cons, List.map_cons, List.cons.injEq, hexDigit_eq_hexVal] at hcs
      obtain ⟨hc, hcs⟩ := hcs
      have hlen : cs.length = ds.length := by simpa using congrArg List.length hcs
      have hget : val[i]? = some c := by
        rw [← Nat.add_zero i, ← List.getElem?_drop, h]
        rfl
      have hnext : val.drop (i + 1) = cs ++ rest := by
        rw [← List.drop_drop, h]
        rfl
      simp only [List.length_cons, rimGetHexLoop, hget, inBlock, bind, Except.bind, hc]
      rw [ih hcs hnext, number, hlen, Nat.add_assoc]

/-! ## The escapes that are read alike -/

/-- A code point that was read names a character that a literal may name. -/
def names : Except TextFault (Int × Nat) → Bool
  | .ok (u, _) => 0 ≤ u && decide (MayName u.toNat)
  | .error _ => true

/-- An escape, behind its backslash, that C does not read otherwise: a hexadecimal one has no third digit, and one of
Unicode names a character. -/
def exactEscape : Bytes → Bool
  | [] => true
  | cur :: s =>
    if cur = 120 then !xdigits 3 s
    else if cur = 85 then names (rimUtfGetCode8 (85 :: s ++ [0]) 0)
    else if cur = 117 then names (rimUtfGetCode (117 :: s ++ [0]) 0)
    else true

/-- How C reads an escape that `n` bytes are counted for, where `t` follows: as so many bytes, or not at all, or on
over digits that follow. -/
inductive Reading (text : Bytes) (n : Nat) (t : Bytes) : Bool → Prop where
  | alike {bs : Bytes} (hlen : bs.length = n) (h : ends .inside (text ++ t) = (ends .inside t).map (bs ++ ·)) :
      Reading text n t true
  | refused (h : ends .inside (text ++ t) = none) : Reading text n t false
  | longer (hn : n = 1) (ht : nextIs isxdigit t = true)
      (h : ∀ out, ends .inside (text ++ t) = some out →
        ∃ b rest, out = b :: rest ∧ ends .inside (t.dropWhile fun c => (hexDigit c).isSome) = some rest) :
      Reading text n t false

theorem ends_backslash (s : Bytes) : ends .inside (92 :: s) = ends .escape s := by
  have hstep : step .inside 92 = some ([], .escape) := rfl
  rw [ends_cons hstep]
  simp

/-- An escape of one byte, whose code ends with its last character. -/
theorem Reading.of_code {m : CLiteral.Mode} {a : Bytes} {v : Nat} (hrun : run .escape a = some ([], m))
    (hm : m ≠ .between) (hv : v < 256) (hstep : ∀ c r, t = c :: r → step m c = afterCode v c) :
      Reading (92 :: a) 1 t true := by
  refine @Reading.alike _ _ _ [UInt8.ofNat v] rfl ?_
  rw [List.cons_append, ends_backslash, ends_append hrun, ends_afterCode hm hstep, if_pos hv, Option.map_map]
  rfl

theorem simpleEscapes_step : ∀ c ∈ 34 :: simpleEscapes,
    (simple c).isSome = true ∧ octDigit c = none ∧ c ≠ 120 ∧ c ≠ 85 ∧ c ≠ 117 := by decide +kernel

theorem exactEscape_of_ne (h : cur ≠ 120 ∧ cur ≠ 85 ∧ cur ≠ 117) (s : Bytes) : exactEscape (cur :: s) = true := by
  rw [exactEscape, if_neg h.1, if_neg h.2.1, if_neg h.2.2]

theorem reading_simple (h : cur = 34 ∨ cur ∈ simpleEscapes) (s t : Bytes) :
    Reading [92, cur] 1 t (exactEscape (cur :: s)) := by
  obtain ⟨hsimple, hoct, hne⟩ := simpleEscapes_step cur (List.mem_cons.mpr h)
  obtain ⟨b, hb⟩ := Option.isSome_iff_exists.mp hsimple
  rw [exactEscape_of_ne hne]
  have hstep : step .escape cur = some ([b], .inside) := by
    simp only [step, hoct, hne.1, hne.2.1, hne.2.2, hb, if_false, Option.map_some]
  refine @Reading.alike _ _ _ [b] rfl ?_
  rw [List.cons_append, ends_backslash]
  exact ends_cons hstep t

/-! ## Octal escapes -/

theorem octal_iff : RIM_IS_OCTAL c = true ↔ octDigit c = some (c.toNat - 48) ∧ c.toNat - 48 < 8 := by
  unfold octDigit
  simp only [RIM_IS_OCTAL, Bool.and_eq_true, decide_eq_true_eq]
  constructor
  · intro h
    have hlt : c.toNat - 48 < 8 := by
      simp only [UInt8.le_iff_toNat_le, UInt8.reduceToNat] at h
      omega
    exact ⟨if_pos h, hlt⟩
  · intro h
    by_contra hc
    rw [if_neg hc] at h
    cases h.1

theorem not_octal (h : RIM_IS_OCTAL c = false) : octDigit c = none := by
  rw [← octDigit_isSome] at h
  exact Option.isSome_eq_false_iff.mp h |> Option.isNone_iff_eq_none.mp

theorem reading_octal (hcur : RIM_IS_OCTAL cur = true) (he : octalEscape cur s = .ok e)
    (ht : t.head? = ((92 :: cur :: s).drop e.used).head?) :
    Reading e.text e.bytes t (exactEscape (cur :: s)) := by
  obtain ⟨hd, hlt⟩ := octal_iff.mp hcur
  have hne : cur ≠ 120 ∧ cur ≠ 85 ∧ cur ≠ 117 := by
    refine ⟨?_, ?_, ?_⟩
    all_goals
      rintro rfl
      cases hcur
  rw [exactEscape_of_ne hne]
  have hfirst : step .escape cur = some ([], .octal 1 (cur.toNat - 48)) := by rw [step, hd]
  -- the digits are over where the next character is none
  have hover : ∀ {n v : Nat} {r : Bytes}, nextIs RIM_IS_OCTAL r = false → t.head? = r.head? →
      ∀ c r', t = c :: r' → step (.octal n v) c = afterCode v c := by
    intro n v r hr hhead c r' hc
    rw [hc] at hhead
    have hoct : RIM_IS_OCTAL c = false := by
      rw [nextIs, ← hhead] at hr
      exact hr
    rw [step, not_octal hoct]
  unfold octalEscape at he
  split at he
  · next hs =>
    cases he
    have hrun : run .escape [cur] = some ([], .octal 1 (cur.toNat - 48)) := by
      rw [run_cons hfirst]
      rfl
    exact .of_code hrun (by simp) (by omega) (hover (by simpa using hs) ht)
  · next hs =>
    obtain ⟨c₁, s₁, rfl, h₁⟩ := nextIs_iff.mp (by simpa using hs)
    obtain ⟨hd₁, hlt₁⟩ := octal_iff.mp h₁
    have hsecond : step (.octal 1 (cur.toNat - 48)) c₁ =
        some ([], .octal 2 ((cur.toNat - 48) * 8 + (c₁.toNat - 48))) := by
      rw [step, hd₁]
      rfl
    split at he
    · next hs₁ =>
      cases he
      have hrun : run .escape [cur, c₁] = some ([], .octal 2 ((cur.toNat - 48) * 8 + (c₁.toNat - 48))) := by
        rw [run_cons hfirst, run_cons hsecond]
        rfl
      exact .of_code hrun (by simp) (by omega) (hover (by simpa using hs₁) ht)
    · next hs₁ =>
      obtain ⟨c₂, s₂, hcons, h₂⟩ := nextIs_iff.mp (by simpa using hs₁)
      obtain ⟨hd₂, hlt₂⟩ := octal_iff.mp h₂
      subst hcons
      have hthird : step (.octal 2 ((cur.toNat - 48) * 8 + (c₁.toNat - 48))) c₂ =
          some ([], .octal 3 (((cur.toNat - 48) * 8 + (c₁.toNat - 48)) * 8 + (c₂.toNat - 48))) := by
        rw [step, hd₂]
        rfl
      have hrun : run .escape [cur, c₁, c₂] =
          some ([], .octal 3 (((cur.toNat - 48) * 8 + (c₁.toNat - 48)) * 8 + (c₂.toNat - 48))) := by
        rw [run_cons hfirst, run_cons hsecond, run_cons hthird]
        rfl
      split at he
      · cases he
      · next hval =>
        cases he
        have hval : (cur.toNat - 48) * 8 * 8 + (c₁.toNat - 48) * 8 + (c₂.toNat - 48) ≤ 255 := Nat.not_lt.mp hval
        have hsmall : ((cur.toNat - 48) * 8 + (c₁.toNat - 48)) * 8 + (c₂.toNat - 48) < 256 := by omega
        refine .of_code hrun (by simp) hsmall fun c r _ => ?_
        -- there is no fourth digit
        rw [step]
        cases octDigit c with
        | none => rfl
        | some d => rfl

/-! ## Hexadecimal escapes -/

theorem not_xdigit (h : isxdigit c = false) : hexDigit c = none := by
  rw [isxdigit, ← hexDigit_eq_hexVal] at h
  exact Option.isNone_iff_eq_none.mp (Option.isSome_eq_false_iff.mp h)

theorem hexDigit_of (h : isxdigit c = true) : ∃ d, hexDigit c = some d ∧ d < 16 := by
  obtain ⟨d, hd⟩ := isxdigit_iff.mp h
  have hlt := hexDigit_lt c
  rw [hd] at hlt
  exact ⟨d, hd, hlt⟩

theorem reading_hex (he : hexEscape s = .ok e) (ht : t.head? = ((92 :: 120 :: s).drop e.used).head?) :
    Reading e.text e.bytes t (exactEscape (120 :: s)) := by
  have hbegin : step .escape 120 = some ([], .hexFirst) := rfl
  -- the digits are over where the next character is none
  have hover : ∀ {v : Nat} {r : Bytes}, nextIs isxdigit r = false → t.head? = r.head? →
      ∀ c r', t = c :: r' → step (.hex v) c = afterCode v c := by
    intro v r hr hhead c r' hc
    rw [hc] at hhead
    have hx : isxdigit c = false := by
      rw [nextIs, ← hhead] at hr
      exact hr
    rw [step, not_xdigit hx]
  have hexact : exactEscape (120 :: s) = !xdigits 3 s := rfl
  rw [hexact]
  unfold hexEscape at he
  split at he
  · cases he
  · next hs =>
    obtain ⟨c₁, s₁, rfl, h₁⟩ := nextIs_iff.mp (by simpa using hs)
    obtain ⟨d₁, hd₁, hlt₁⟩ := hexDigit_of h₁
    have hfirst : step .hexFirst c₁ = some ([], .hex d₁) := by
      rw [step, hd₁]
      rfl
    split at he
    · next hs₁ =>
      cases he
      have hs₁ : nextIs isxdigit s₁ = false := by simpa using hs₁
      have hrun : run .escape [120, c₁] = some ([], .hex d₁) := by
        rw [run_cons hbegin, run_cons hfirst]
        rfl
      have hthree : xdigits 3 (c₁ :: s₁) = false := by
        cases s₁ with
        | nil => rfl
        | cons c₂ s₂ =>
          have hc₂ : isxdigit c₂ = false := hs₁
          simp [xdigits, hc₂]
      rw [hthree]
      exact .of_code hrun (by simp) (by omega) (hover hs₁ ht)
    · next hs₁ =>
      cases he
      obtain ⟨c₂, s₂, hcons, h₂⟩ := nextIs_iff.mp (by simpa using hs₁)
      obtain ⟨d₂, hd₂, hlt₂⟩ := hexDigit_of h₂
      subst hcons
      have hsecond : step (.hex d₁) c₂ = some ([], .hex (d₁ * 16 + d₂)) := by rw [step, hd₂]
      have hrun : run .escape [120, c₁, c₂] = some ([], .hex (d₁ * 16 + d₂)) := by
        rw [run_cons hbegin, run_cons hfirst, run_cons hsecond]
        rfl
      have hthree : xdigits 3 (c₁ :: c₂ :: s₂) = nextIs isxdigit s₂ := by
        cases s₂ with
        | nil => rfl
        | cons c₃ s₃ => simp [xdigits, nextIs, h₁, h₂]
      rw [hthree]
      cases hnext : nextIs isxdigit s₂ with
      | false => exact .of_code hrun (by simp) (by omega) (hover hnext ht)
      | true =>
        have htnext : nextIs isxdigit t = true := by
          rw [nextIs, ht]
          exact hnext
        refine .longer rfl htnext fun out hout => ?_
        have hcode := ends_append hrun t
        rw [← ends_backslash] at hcode
        have hsame : ends .inside ((92 :: [120, c₁, c₂]) ++ t) = (ends (.hex (d₁ * 16 + d₂)) t).map ([] ++ ·) := hcode
        obtain ⟨out', hout', rfl⟩ := Option.map_eq_some_iff.mp (hsame.symm.trans hout)
        exact ends_hex hout'

/-! ## Escapes of Unicode -/

theorem toNat_ofNat {u : Nat} (h : MayName u) : (Char.ofNat u).val.toNat = u := by
  have hvalid : u.isValidChar := by
    obtain ⟨-, hsurrogate, hlt⟩ := h
    unfold Nat.isValidChar
    omega
  have hchar : Char.ofNat u = Char.ofNatAux u hvalid := dif_pos hvalid
  rw [hchar]
  rfl

/-- A character that a literal may name has the bytes that are counted. -/
theorem namedBytes_decode {u : Nat} (h : MayName u) (hutf : rimDecodeUtf u = .ok utf) : namedBytes u = some utf := by
  have hval := toNat_ofNat h
  have hfeff : (Char.ofNat u).val.toNat ≠ 0xFEFF := by
    rw [hval]
    rintro rfl
    cases hutf
  have hdecode := rimDecodeUtf_char hfeff
  rw [hval] at hdecode
  rw [namedBytes, if_pos h]
  cases hdecode.symm.trans hutf
  rfl

/-- A character that is named: its bytes are counted if it may be. -/
theorem Reading.of_name {text : Bytes} {u : Nat} (hutf : MayName u → rimDecodeUtf u = .ok utf)
    (h : ends .inside (text ++ t) = (namedBytes u).bind fun bs => (ends .inside t).map (bs ++ ·)) :
    Reading text utf.length t (decide (MayName u)) := by
  by_cases hu : MayName u
  · rw [namedBytes_decode hu (hutf hu), Option.bind_some] at h
    rw [decide_eq_true hu]
    exact .alike rfl h
  · rw [namedBytes, if_neg hu] at h
    rw [decide_eq_false hu]
    exact .refused h

/-- `\U` or `\u`, behind its letter: the name with its digits. -/
theorem ends_name (hcur : step .escape cur = some ([], .named n 0)) (hn : n ≠ 0) {ds : List Nat}
    (hcs : cs.map hexDigit = ds.map some) (hlen : cs.length = n) (t : Bytes) :
    ends .inside (92 :: cur :: (cs ++ t)) =
      (namedBytes (number 16 ds)).bind fun bs => (ends .inside t).map (bs ++ ·) := by
  have hne : cs ≠ [] := by
    rintro rfl
    exact hn hlen.symm
  have hnamed := ends_named hcs (v := 0) hne t
  rw [Nat.zero_mul, Nat.zero_add, hlen] at hnamed
  rw [ends_backslash, ends_cons hcur, hnamed]
  simp

theorem take_name (c d : UInt8) (hlen : cs.length = n) (rest : Bytes) :
    (c :: d :: (cs ++ rest)).take (n + 2) = c :: d :: cs := by
  rw [List.take_succ_cons, List.take_succ_cons, ← hlen, List.take_left]

theorem rimUtfGetCode8_ok {ubeg : Nat} {u v : Int} (h : rimGetHex val (ubeg + 1) 8 = .ok v)
    (hcode : rimUtfGetCode8 val ubeg = .ok (u, n)) : u = v ∧ n = 10 := by
  rw [rimUtfGetCode8, h, ok_bind] at hcode
  split at hcode
  · cases hcode
  · split at hcode
    · cases hcode
    · cases hcode
      exact ⟨rfl, rfl⟩

theorem orUnicode_eq_ok {α : Type} {x : Except TextFault α} {a : α} (h : orUnicode x = .ok a) : x = .ok a := by
  cases x with
  | ok => exact congrArg Except.ok (Except.ok.inj h)
  | error => cases h

/-- What `\U` comes to. -/
theorem bigUnicodeEscape_ok (h : bigUnicodeEscape s = .ok e) :
    xdigits 8 s = true ∧ ∃ u n utf, rimUtfGetCode8 (85 :: s ++ [0]) 0 = .ok (u, n) ∧ rimDecodeUtf u = .ok utf ∧
      e = { used := n, bytes := utf.length, text := (92 :: 85 :: s).take n } := by
  unfold bigUnicodeEscape at h
  split at h
  · next hx =>
    obtain ⟨⟨u, n⟩, hcode, h⟩ := bind_eq_ok.mp h
    obtain ⟨utf, hutf, h⟩ := bind_eq_ok.mp h
    exact ⟨hx, u, n, utf, orUnicode_eq_ok hcode, orUnicode_eq_ok hutf, (Except.ok.inj h).symm⟩
  · cases h

theorem reading_bigUnicode (he : bigUnicodeEscape s = .ok e) : Reading e.text e.bytes t (exactEscape (85 :: s)) := by
  have hexact : exactEscape (85 :: s) = names (rimUtfGetCode8 (85 :: s ++ [0]) 0) := by
    rw [exactEscape, if_neg (by decide), if_pos rfl]
  obtain ⟨hx, u, n, utf, hcode, hutf, rfl⟩ := bigUnicodeEscape_ok he
  rw [hexact, hcode]
  obtain ⟨cs, ds, rest, rfl, hcs, hds, hlen, hlt⟩ := exists_xdigits hx
  have hval : (85 :: (cs ++ rest) ++ [0]).drop 1 = cs ++ (rest ++ [0]) := by simp
  have hloop := rimGetHexLoop_hexDigit hds hval 0
  rw [hcs, Nat.zero_add] at hloop
  have hwide : number 16 ds < 0x100000000 := by
    have hnumber := number_lt hlt
    rw [hlen] at hnumber
    omega
  obtain ⟨v, hget, hsmall, hnonneg⟩ := rimGetHex_reads hloop hwide
  obtain ⟨rfl, rfl⟩ := rimUtfGetCode8_ok hget hcode
  have hname : names (.ok (u, 10)) = decide (MayName (number 16 ds)) := by
    rw [names]
    by_cases hu : MayName (number 16 ds)
    · rw [hsmall hu.2.2]
      simp
    · rw [decide_eq_false hu, Bool.and_eq_false_iff]
      by_cases h0 : 0 ≤ u
      · rw [hnonneg h0]
        exact .inr (decide_eq_false hu)
      · exact .inl (decide_eq_false h0)
  rw [hname]
  refine .of_name (fun hu => by rw [← hsmall hu.2.2, hutf]) ?_
  rw [take_name 92 85 hcs rest]
  exact ends_name rfl (by simp) hds hcs t

/-! ## Surrogate pairs -/

theorem hexDigit_upperHex {x : Nat} (hx : x < 16) : hexDigit (upperHex x) = some x := by
  have hall : ∀ x < 16, hexDigit (upperHex x) = some x := by decide
  exact hall x hx

/-- What is written over a pair names one character, in a piece of its own. -/
theorem ends_surrogateText {u : Nat} (hu : u < 16 ^ 8) (t : Bytes) :
    ends .inside (surrogateText u ++ t) = (namedBytes u).bind fun bs => (ends .inside t).map (bs ++ ·) := by
  let ds := digits 16 8 u
  have hds : ((List.range 8).map fun i => upperHex (u / 16 ^ (7 - i) % 16)) = ds.map upperHex := by
    simp only [ds, digits, List.map_cons, List.map_nil, List.range, List.range.loop]
  have hmod : ((u : Int) % 2 ^ 32).toNat = u := by omega
  have hcs : (ds.map upperHex).map hexDigit = ds.map some := by
    rw [List.map_map]
    refine List.map_congr_left fun d hd => ?_
    exact hexDigit_upperHex (digits_lt (by omega) 8 u d hd)
  have htext : surrogateText u ++ t = 92 :: 85 :: (ds.map upperHex ++ 34 :: 34 :: t) := by
    simp only [surrogateText, hmod, hds, List.cons_append, List.nil_append, List.append_assoc]
  have hlen : (ds.map upperHex).length = 8 := by rw [List.length_map, length_digits]
  have hname := ends_name (rfl : step .escape 85 = some ([], .named 8 0)) (by omega) hcs hlen (34 :: 34 :: t)
  -- the piece ends, and the next one begins
  have hquotes : ends .inside (34 :: 34 :: t) = ends .inside t := by
    rw [ends_cons (rfl : step .inside 34 = some ([], .between)), ends_cons (rfl : step .between 34 = some ([], .inside))]
    simp
  rw [htext, hname, number_digits_of_lt hu, hquotes]

theorem rimGetHexLoop_lt {v : Bytes} {i r x : Nat} (h : rimGetHexLoop v n i r = .ok x) : x < r + 16 ^ n := by
  induction n generalizing i r with
  | zero =>
    cases h
    simp
  | succ n ih =>
    rw [rimGetHexLoop] at h
    obtain ⟨c, -, h⟩ := bind_eq_ok.mp h
    have hlt := hexDigit_lt c
    rw [hexDigit_eq_hexVal] at hlt
    split at h
    · next d hd =>
      rw [hd, Option.getD_some] at hlt
      have hx := ih h
      have hle : (d + 1) * 16 ^ n ≤ 16 * 16 ^ n := Nat.mul_le_mul_right _ hlt
      rw [Nat.add_mul, Nat.one_mul] at hle
      rw [Nat.pow_succ, Nat.mul_comm (16 ^ n)]
      omega
    · cases h

/-- What `\u` comes to: a code point of its own, or one that two of them make. -/
theorem rimUtfGetCode_ok {r : Nat} {u : Int} (h : rimGetHex val 1 4 = .ok (r : Int))
    (hcode : rimUtfGetCode val 0 = .ok (u, n)) :
    (¬ (0xD800 ≤ r ∧ r ≤ 0xDFFF) ∧ u = r ∧ n = 6) ∨ (0xD800 ≤ r ∧ n = 12 ∧ 0 ≤ u) := by
  rw [rimUtfGetCode, h, ok_bind] at hcode
  split at hcode
  · next hsurrogate =>
    right
    obtain ⟨c, -, hcode⟩ := bind_eq_ok.mp hcode
    split at hcode
    · cases hcode
    obtain ⟨d, -, hcode⟩ := bind_eq_ok.mp hcode
    split at hcode
    · cases hcode
    obtain ⟨r₁, hr₁, hcode⟩ := bind_eq_ok.mp hcode
    obtain ⟨x, hx, -⟩ := bind_eq_ok.mp hr₁
    have hlt := rimGetHexLoop_lt hx
    obtain ⟨v, hv, hval, -⟩ := rimGetHex_reads hx (by omega)
    cases hv.symm.trans hr₁
    have hsmall := hval (by omega)
    cases hcode
    refine ⟨by omega, rfl, ?_⟩
    rw [rimMakeFromUtfSurrogate, hsmall]
    omega
  · next hsurrogate =>
    left
    cases hcode
    exact ⟨by omega, rfl, rfl⟩

theorem rimUtfGetCode_used {u : Int} (h : rimUtfGetCode val 0 = .ok (u, n)) : n = 6 ∨ n = 12 := by
  obtain ⟨r, -, h⟩ := bind_eq_ok.mp h
  split at h
  · obtain ⟨c, -, h⟩ := bind_eq_ok.mp h
    split at h
    · cases h
    obtain ⟨d, -, h⟩ := bind_eq_ok.mp h
    split at h
    · cases h
    obtain ⟨r₁, -, h⟩ := bind_eq_ok.mp h
    cases h
    exact .inr rfl
  · cases h
    exact .inl rfl

theorem unicodeEscape_ok (h : unicodeEscape s = .ok e) :
    xdigits 4 s = true ∧ ∃ u n utf, rimUtfGetCode (117 :: s ++ [0]) 0 = .ok (u, n) ∧ rimDecodeUtf u = .ok utf ∧
      e = {
        used := n
        bytes := utf.length
        text := if n = 12 then surrogateText u else (92 :: 117 :: s).take n } := by
  unfold unicodeEscape at h
  split at h
  · next hx =>
    obtain ⟨⟨u, n⟩, hcode, h⟩ := bind_eq_ok.mp h
    obtain ⟨utf, hutf, h⟩ := bind_eq_ok.mp h
    exact ⟨hx, u, n, utf, orUnicode_eq_ok hcode, orUnicode_eq_ok hutf, (Except.ok.inj h).symm⟩
  · cases h

theorem decoded_lt {u : Int} (h : rimDecodeUtf u = .ok utf) : u < 0x110000 := by
  unfold rimDecodeUtf at h
  by_contra hu
  rw [if_neg (by omega), if_neg (by omega), if_neg (by omega), if_neg (by omega)] at h
  cases h

theorem reading_unicode (he : unicodeEscape s = .ok e) : Reading e.text e.bytes t (exactEscape (117 :: s)) := by
  have hexact : exactEscape (117 :: s) = names (rimUtfGetCode (117 :: s ++ [0]) 0) := by
    rw [exactEscape, if_neg (by decide), if_neg (by decide), if_pos rfl]
  obtain ⟨hx, u, n, utf, hcode, hutf, rfl⟩ := unicodeEscape_ok he
  rw [hexact, hcode]
  obtain ⟨cs, ds, rest, rfl, hcs, hds, hlen, hlt⟩ := exists_xdigits hx
  have hval : (117 :: (cs ++ rest) ++ [0]).drop 1 = cs ++ (rest ++ [0]) := by simp
  have hloop := rimGetHexLoop_hexDigit hds hval 0
  rw [hcs, Nat.zero_add] at hloop
  have hwide : number 16 ds < 0x10000 := by
    have hnumber := number_lt hlt
    rw [hlen] at hnumber
    omega
  obtain ⟨v, hget, hsmall, -⟩ := rimGetHex_reads hloop (by omega)
  rw [hsmall (by omega)] at hget
  have hnames : 0 ≤ u → names (.ok (u, n)) = decide (MayName u.toNat) := by
    intro hu
    simp [names, hu]
  obtain ⟨-, rfl, rfl⟩ | ⟨-, rfl, hu⟩ := rimUtfGetCode_ok hget hcode
  · rw [hnames (Int.natCast_nonneg _)]
    refine .of_name (fun _ => hutf) ?_
    rw [if_neg (by decide), take_name 92 117 hcs rest]
    exact ends_name rfl (by simp) hds hcs t
  · rw [hnames hu]
    have htoNat : (u.toNat : Int) = u := Int.toNat_of_nonneg hu
    have hutf' : rimDecodeUtf (u.toNat : Int) = .ok utf := by rw [htoNat, hutf]
    refine .of_name (fun _ => hutf') ?_
    rw [if_pos rfl, ← htoNat]
    have hlt := decoded_lt hutf
    exact ends_surrogateText (by omega) t

/-- How C reads an escape that is counted. -/
theorem reading_escape (he : escape s = .ok e) (ht : t.head? = ((92 :: s).drop e.used).head?) :
    Reading e.text e.bytes t (exactEscape s) := by
  cases s with
  | nil => cases he
  | cons cur s =>
    rw [escape] at he
    split at he
    · next h =>
      cases he
      exact reading_simple h s t
    · split at he
      · next h => exact reading_octal h he ht
      · split at he
        · next h =>
          subst h
          exact reading_hex he ht
        · split at he
          · next h =>
            subst h
            exact reading_bigUnicode he
          · split at he
            · next h =>
              subst h
              exact reading_unicode he
            · cases he

/-! ## Scanning a literal -/

/-- The characters of an escape behind its backslash. -/
def escapeLen (s : Bytes) : Nat :=
  match escape s with
  | .ok e => e.used - 1
  | .error _ => 0

/-- A text has no escape that C reads otherwise and no line that ends within quotes. `inside` says whether the place is
within quotes, and `skip` characters belong to an escape. -/
def exactFrom : Bool → Nat → Bytes → Bool
  | _, _, [] => true
  | inside, skip + 1, _ :: s => exactFrom inside skip s
  | false, 0, c :: s => exactFrom (c == 34) 0 s
  | true, 0, c :: s =>
    if c = 34 then exactFrom false 0 s
    else if c = 92 then exactEscape s && exactFrom true (escapeLen s) s
    else c != 10 && exactFrom true 0 s

/-- What the loop does with a text from some place within quotes on: it counts `n` bytes, and leaves the text `s'`. -/
inductive Scans : Bytes → Nat → Bytes → Prop where
  | last {w : Bytes} (hw : ∀ c ∈ w, isspace c = true) : Scans (34 :: w) 0 (34 :: w)
  | piece {w s s' : Bytes} {n : Nat} (hw : ∀ c ∈ w, isspace c = true) (h : Scans s n s') :
      Scans (34 :: (w ++ 34 :: s)) n (34 :: (w ++ 34 :: s'))
  | plain {c : UInt8} {s s' : Bytes} {n : Nat} (hescape : c ≠ 92) (hquote : c ≠ 34) (h : Scans s n s') :
      Scans (c :: s) (n + 1) (c :: s')
  | escape {s s' : Bytes} {n : Nat} {e : Escape} (he : escape s = .ok e) (h : Scans ((92 :: s).drop e.used) n s') :
      Scans (92 :: s) (e.bytes + n) (e.text ++ s')

theorem constLoop_scans {fuel : Nat} {done : Bytes} {clen : Nat} {r : ConstEnd}
    (h : constLoop fuel s clen done = .ok r) (hfound : r.found = true) (hleft : r.left.dropWhile isspace = []) :
    ∃ n s', Scans s n s' ∧ r.clen = clen + n ∧ r.done ++ r.left = done ++ s' := by
  induction fuel generalizing s clen done with
  | zero => cases h
  | succ fuel ih =>
    cases s with
    | nil =>
      cases h
      cases hfound
    | cons c s =>
      rw [constLoop] at h
      split at h
      · next hc =>
        subst hc
        obtain ⟨e, he, h⟩ := bind_eq_ok.mp h
        obtain ⟨n, s', hscans, hclen, htext⟩ := ih h
        exact ⟨e.bytes + n, e.text ++ s', .escape he hscans, by omega, by rw [htext, List.append_assoc]⟩
      · next hescape =>
        split at h
        · next hc =>
          subst hc
          have hw : ∀ c ∈ s.takeWhile isspace, isspace c = true := fun c hc => List.mem_takeWhile_imp hc
          have h : (if nextIs (· == 34) (s.dropWhile isspace) then
              constLoop fuel (s.dropWhile isspace).tail clen (done ++ 34 :: s.takeWhile isspace ++ [34])
            else .ok {
              clen := clen
              found := true
              done := done ++ 34 :: s.takeWhile isspace
              left := s.dropWhile isspace }) = .ok r := h
          split at h
          · next hnext =>
            obtain ⟨d, t, ht, hd⟩ := nextIs_iff.mp hnext
            cases eq_of_beq hd
            rw [ht, List.tail_cons] at h
            obtain ⟨n, s', hscans, hclen, htext⟩ := ih h
            have hs : s = s.takeWhile isspace ++ 34 :: t := by rw [← ht, List.takeWhile_append_dropWhile]
            refine ⟨n, 34 :: (s.takeWhile isspace ++ 34 :: s'), ?_, hclen, ?_⟩
            · have hpiece := Scans.piece hw hscans
              rw [← hs] at hpiece
              exact hpiece
            · rw [htext]
              simp
          · cases h
            have hrest : s.dropWhile isspace = [] := by
              rw [List.dropWhile_idempotent] at hleft
              exact hleft
            have hall : s.takeWhile isspace = s := by
              have happend := List.takeWhile_append_dropWhile (p := isspace) (l := s)
              rw [hrest, List.append_nil] at happend
              exact happend
            refine ⟨0, 34 :: s, .last (by rw [← hall]; exact hw), rfl, ?_⟩
            simp only [hall, hrest, List.append_nil]
        · next hquote =>
          obtain ⟨n, s', hscans, hclen, htext⟩ := ih h
          exact ⟨n + 1, c :: s', .plain hescape hquote hscans, by omega, by rw [htext]; simp⟩

/-- An escape takes its backslash and a character at least, and what is written over it is an escape. -/
theorem escape_takes (he : escape s = .ok e) : 2 ≤ e.used ∧ e.text.head? = some 92 := by
  cases s with
  | nil => cases he
  | cons cur s =>
    rw [escape] at he
    split at he
    · cases he
      exact ⟨Nat.le_refl 2, rfl⟩
    · split at he
      · unfold octalEscape at he
        split_ifs at he
        all_goals
          cases he
          exact ⟨by simp, rfl⟩
      · split at he
        · unfold hexEscape at he
          split_ifs at he
          all_goals
            cases he
            exact ⟨by simp, rfl⟩
        · split at he
          · obtain ⟨-, u, n, utf, hcode, -, rfl⟩ := bigUnicodeEscape_ok he
            obtain ⟨v, hget, -⟩ := bind_eq_ok.mp hcode
            obtain ⟨-, rfl⟩ := rimUtfGetCode8_ok hget hcode
            exact ⟨by simp, rfl⟩
          · split at he
            · obtain ⟨hx, u, n, utf, hcode, -, rfl⟩ := unicodeEscape_ok he
              obtain rfl | rfl := rimUtfGetCode_used hcode
              · exact ⟨by simp, rfl⟩
              · exact ⟨by simp, rfl⟩
            · cases he

theorem head_of_scans {s' : Bytes} (h : Scans s n s') : s'.head? = s.head? := by
  cases h with
  | last => rfl
  | piece => rfl
  | plain => rfl
  | escape he h =>
    rw [List.head?_append, (escape_takes he).2]
    rfl

theorem exactFrom_skip (inside : Bool) (n : Nat) (s : Bytes) : exactFrom inside n s = exactFrom inside 0 (s.drop n) := by
  induction n generalizing s with
  | zero => rfl
  | succ n ih =>
    cases s with
    | nil => simp [exactFrom]
    | cons c s => rw [exactFrom, ih, List.drop_succ_cons]

theorem exactFrom_blanks (hw : ∀ c ∈ w, isspace c = true) (s : Bytes) :
    exactFrom false 0 (w ++ s) = exactFrom false 0 s := by
  induction w with
  | nil => rfl
  | cons c w ih =>
    obtain ⟨hc, hw⟩ := List.forall_mem_cons.mp hw
    have hquote : (c == 34) = false := by
      rw [beq_eq_false_iff_ne]
      rintro rfl
      cases hc
    rw [List.cons_append, exactFrom, hquote, ih hw]

theorem exactFrom_escape (he : escape s = .ok e) :
    exactFrom true 0 (92 :: s) = (exactEscape s && exactFrom true 0 ((92 :: s).drop e.used)) := by
  have hused := (escape_takes he).1
  have hdrop : (92 :: s).drop e.used = s.drop (e.used - 1) := by
    obtain ⟨k, hk⟩ := Nat.exists_eq_add_of_le' hused
    rw [hk]
    rfl
  rw [exactFrom, if_neg (by decide), if_pos rfl, exactFrom_skip, escapeLen, he, hdrop]

theorem ends_blanks (hw : ∀ c ∈ w, isspace c = true) : ends .between w = some [] := by
  rw [ends, run_blanks hw]
  rfl

theorem ends_piece (hw : ∀ c ∈ w, isspace c = true) (s : Bytes) :
    ends .inside (34 :: (w ++ 34 :: s)) = ends .inside s := by
  rw [ends_cons (rfl : step .inside 34 = some ([], .between)), ends_append (run_blanks hw),
    ends_cons (rfl : step .between 34 = some ([], .inside))]
  simp

theorem ends_digits {a : Bytes} (h : ∀ c ∈ a, (hexDigit c).isSome = true) (s : Bytes) :
    ends .inside (a ++ s) = (ends .inside s).map (a ++ ·) := by
  induction a with
  | nil => simp
  | cons c a ih =>
    obtain ⟨hc, ha⟩ := List.forall_mem_cons.mp h
    have hstep : step .inside c = some ([c], .inside) := by
      have hplain : c ≠ 34 ∧ c ≠ 92 ∧ c ≠ 10 := by
        refine ⟨?_, ?_, ?_⟩
        all_goals
          rintro rfl
          cases hc
      rw [step, within, if_neg hplain.1, if_neg hplain.2.1, if_neg hplain.2.2]
    rw [List.cons_append, ends_cons hstep, ih ha, Option.map_map]
    rfl

/-- What C reads in a text is no longer than what is counted. -/
def AtMost (n : Nat) (read : Option Bytes) : Prop := ∀ out, read = some out → out.length ≤ n

/-- What C reads in a text is as long as what is counted. -/
def Exactly (n : Nat) (read : Option Bytes) : Prop := ∃ out, read = some out ∧ out.length = n

theorem exactly_append {read : Option Bytes} (bs : Bytes) :
    Exactly (bs.length + n) (read.map (bs ++ ·)) ↔ Exactly n read := by
  cases read with
  | none => simp [Exactly]
  | some out => simp [Exactly]

theorem bounded_append {read : Option Bytes} (bs : Bytes) (h : AtMost n read) :
    AtMost (bs.length + n) (read.map (bs ++ ·)) := by
  intro out hout
  obtain ⟨rest, hrest, rfl⟩ := Option.map_eq_some_iff.mp hout
  have hle := h rest hrest
  rw [List.length_append]
  omega

/-- C reads as many bytes as were counted just where the text is exact, and never more. -/
theorem Scans.reads {s' : Bytes} (h : Scans s n s') :
    AtMost n (ends .inside s') ∧ (Exactly n (ends .inside s') ↔ exactFrom true 0 s = true) := by
  induction h with
  | @last w hw =>
    have hread : ends .inside (34 :: w) = some [] := by
      rw [ends_cons (rfl : step .inside 34 = some ([], .between)), ends_blanks hw]
      rfl
    have hexact : exactFrom true 0 (34 :: w) = true := by
      have hblanks := exactFrom_blanks hw []
      rw [List.append_nil] at hblanks
      rw [exactFrom, if_pos rfl, hblanks]
      rfl
    rw [hread]
    exact ⟨fun out hout => by cases hout; simp, ⟨fun _ => hexact, fun _ => ⟨[], rfl, rfl⟩⟩⟩
  | @piece w s s' n hw h ih =>
    have hexact : exactFrom true 0 (34 :: (w ++ 34 :: s)) = exactFrom true 0 s := by
      rw [exactFrom, if_pos rfl, exactFrom_blanks hw, exactFrom]
      rfl
    rw [ends_piece hw, hexact]
    exact ih
  | @plain c s s' n hescape hquote h ih =>
    rw [exactFrom, if_neg hquote, if_neg hescape]
    by_cases hline : c = 10
    · have hread : ends .inside (c :: s') = none := by
        refine ends_none ?_ s'
        rw [step, within, if_neg hquote, if_neg hescape, if_pos hline]
      rw [hread, hline]
      exact ⟨fun out hout => (by cases hout), by simp [Exactly]⟩
    · have hread : ends .inside (c :: s') = (ends .inside s').map ([c] ++ ·) := by
        refine ends_cons ?_ s'
        rw [step, within, if_neg hquote, if_neg hescape, if_neg hline]
      have hne : (c != 10) = true := bne_iff_ne.mpr hline
      rw [hread, hne, Bool.true_and, ← ih.2, Nat.add_comm n 1]
      exact ⟨bounded_append [c] ih.1, exactly_append [c]⟩
  | @escape s s' n e he h ih =>
    rw [exactFrom_escape he]
    have hreading := reading_escape he (head_of_scans h)
    generalize exactEscape s = exact at hreading
    cases hreading with
    | @alike bs hlen hread =>
      rw [hread, Bool.true_and, ← ih.2, ← hlen]
      exact ⟨bounded_append bs ih.1, exactly_append bs⟩
    | refused hread =>
      rw [hread]
      exact ⟨fun out hout => (by cases hout), by simp [Exactly]⟩
    | longer hone hnext hread =>
      -- the digits that C takes for the escape were counted one by one
      have hlong : ∀ out, ends .inside (e.text ++ s') = some out → out.length ≤ n := by
        intro out hout
        obtain ⟨b, rest, rfl, hrest⟩ := hread out hout
        obtain ⟨c, t, rfl, hc⟩ := nextIs_iff.mp hnext
        rw [isxdigit, ← hexDigit_eq_hexVal] at hc
        have hall : ∀ d ∈ (c :: t).takeWhile fun c => (hexDigit c).isSome, (hexDigit d).isSome = true := by
          intro d hd
          exact List.mem_takeWhile_imp (p := fun c => (hexDigit c).isSome) hd
        have hdigits := ends_digits hall ((c :: t).dropWhile fun c => (hexDigit c).isSome)
        rw [List.takeWhile_append_dropWhile, hrest] at hdigits
        have hle := ih.1 _ hdigits
        rw [List.length_append, List.takeWhile_cons, if_pos hc, List.length_cons] at hle
        rw [List.length_cons]
        omega
      refine ⟨fun out hout => (hlong out hout).trans (Nat.le_add_left _ _), ?_⟩
      rw [Bool.false_and]
      constructor
      · intro hexactly
        obtain ⟨out, hout, hlen⟩ := hexactly
        have hle := hlong out hout
        omega
      · intro hfalse
        cases hfalse

/-! ## The constant that is made -/

/-- An accepted literal is scanned behind its first quote. -/
theorem constantFrom_scans {clause text : Bytes} {size : Nat} (h : constantFrom clause = .ok (some (size, text))) :
    ∃ s s', clause = 34 :: s ∧ Scans s size s' ∧ text = 34 :: s' := by
  unfold constantFrom at h
  split at h
  · cases h
  · next hnext =>
    obtain ⟨c, s, rfl, hc⟩ := nextIs_iff.mp (by simpa using hnext)
    cases eq_of_beq hc
    split at h
    · cases h
    · cases h
    · obtain ⟨r, hr, h⟩ := bind_eq_ok.mp h
      split at h
      · cases h
      · next hleft =>
        split at h
        · next hfound =>
          cases h
          obtain ⟨n, s', hscans, hclen, htext⟩ := constLoop_scans hr hfound (not_not.mp hleft)
          rw [Nat.zero_add] at hclen
          refine ⟨s, s', rfl, ?_, ?_⟩
          · rw [hclen]
            exact hscans
          · rw [List.cons_append, htext, List.nil_append]
        · cases h

/-- What `make_mem` has made: the literal behind its blanks, with the length that was counted for it. -/
theorem makeMem_scans {clause : Bytes} {m : MemConst} (h : makeMem clause = .ok (some m)) :
    ∃ w s s' n, (∀ c ∈ w, isspace c = true) ∧ clause = w ++ 34 :: s ∧ Scans s n s' ∧ m.clause = w ++ 34 :: s' ∧
      m.len = n + 1 := by
  obtain ⟨r, hr, h⟩ := bind_eq_ok.mp h
  obtain ⟨r', hr', hr⟩ := bind_eq_ok.mp hr
  rw [List.dropWhile_idempotent] at hr'
  have hblank : (clause.dropWhile isspace).takeWhile isspace = [] := by
    rw [List.takeWhile_eq_nil_iff]
    intro hlen
    exact List.dropWhile_get_zero_not _ _ hlen
  cases Except.ok.inj hr
  cases r' with
  | none => cases h
  | some r =>
    obtain ⟨s, s', hs, hscans, htext⟩ := constantFrom_scans hr'
    cases h
    refine ⟨clause.takeWhile isspace, s, s', r.1, fun c hc => List.mem_takeWhile_imp hc, ?_, hscans, ?_, rfl⟩
    · rw [← hs, List.takeWhile_append_dropWhile]
    · simp only [hblank, List.nil_append, htext]

/-! ## The header -/

theorem hexDigit_toHex {x : Nat} (hx : x < 16) : hexDigit (rimToHex x) = some x := by
  rw [hexDigit_eq_hexVal, hexVal_rimToHex hx]

/-- A byte that is written as `\x` with two digits, where no other digit follows. -/
theorem ends_hexByte (b : UInt8) (ht : ∀ c r, t = c :: r → hexDigit c = none) :
    ends .inside ([92, 120] ++ rimHexFromByte b.toNat ++ t) = (ends .inside t).map (b :: ·) := by
  have hlt := b.toNat_lt
  have hhigh := hexDigit_toHex (x := b.toNat / 16 % 16) (by omega)
  have hlow := hexDigit_toHex (x := b.toNat % 16) (by omega)
  have hfirst : step .hexFirst (rimToHex (b.toNat / 16 % 16)) = some ([], .hex (b.toNat / 16 % 16)) := by
    rw [step, hhigh]
    rfl
  have hsecond : step (.hex (b.toNat / 16 % 16)) (rimToHex (b.toNat % 16)) = some ([], .hex b.toNat) := by
    have hval : b.toNat / 16 % 16 * 16 + b.toNat % 16 = b.toNat := by omega
    rw [step, hlow]
    simp only [hval]
  have hrun : run .escape [120, rimToHex (b.toNat / 16 % 16), rimToHex (b.toNat % 16)] = some ([], .hex b.toNat) := by
    rw [run_cons (rfl : step .escape 120 = some ([], .hexFirst)), run_cons hfirst, run_cons hsecond]
    rfl
  have hover : ∀ c r, t = c :: r → step (.hex b.toNat) c = afterCode b.toNat c := by
    intro c r hc
    rw [step, ht c r hc]
  have htext : [92, 120] ++ rimHexFromByte b.toNat ++ t =
      92 :: ([120, rimToHex (b.toNat / 16 % 16), rimToHex (b.toNat % 16)] ++ t) := rfl
  rw [htext, ends_backslash, ends_append hrun, ends_afterCode (by simp) hover, if_pos (by omega), UInt8.ofNat_toNat,
    Option.map_map]
  rfl

theorem ends_hexBytes (bs s : Bytes) :
    ends .inside (bs.flatMap (fun b => [92, 120] ++ rimHexFromByte b.toNat) ++ 34 :: s) =
      (ends .inside (34 :: s)).map (bs ++ ·) := by
  induction bs with
  | nil => simp
  | cons b bs ih =>
    have hnext : ∀ c r, bs.flatMap (fun b => [92, 120] ++ rimHexFromByte b.toNat) ++ 34 :: s = c :: r →
        hexDigit c = none := by
      intro c r hc
      cases bs with
      | nil =>
        cases hc
        rfl
      | cons d bs =>
        cases hc
        rfl
    rw [List.flatMap_cons, List.append_assoc, ends_hexByte b hnext, ih, Option.map_map]
    rfl

/-- The array is initialized with the header and what the literal stands for. -/
theorem bytes_literal {m : MemConst} (hw : ∀ c ∈ w, isspace c = true) (hclause : m.clause = w ++ 34 :: s) :
    bytes m.literal = (ends .inside s).map (m.head ++ ·) := by
  have hclose : ends .inside (34 :: 32 :: m.clause) = ends .inside s := by
    have hblanks : ∀ c ∈ 32 :: w, isspace c = true := List.forall_mem_cons.mpr ⟨rfl, hw⟩
    rw [hclause]
    exact ends_piece hblanks s
  have htext : m.literal = 34 :: (m.head.flatMap (fun b => [92, 120] ++ rimHexFromByte b.toNat) ++ 34 :: 32 ::
    m.clause) := by
    simp [MemConst.literal, MemConst.shead]
  have hopen := ends_cons (rfl : step .start 34 = some ([], .inside))
    (m.head.flatMap (fun b => [92, 120] ++ rimHexFromByte b.toNat) ++ 34 :: 32 :: m.clause)
  rw [bytes, htext, hopen, ends_hexBytes, hclose, Option.map_map]
  rfl

/-- The header of a constant has the length of the string that C makes of its literal, and the null. -/
def LengthRight (m : MemConst) : Prop :=
  ∃ bs, bytes m.literal = some (m.head ++ bs) ∧ m.len = bs.length + 1

/-- The length in the header is right just where no escape of the literal is read otherwise by C. -/
theorem makeMem_length_iff {clause : Bytes} {m : MemConst} (h : makeMem clause = .ok (some m)) :
    LengthRight m ↔ exactFrom false 0 clause = true := by
  obtain ⟨w, s, s', n, hw, rfl, hscans, hclause, hlen⟩ := makeMem_scans h
  have hexact : exactFrom false 0 (w ++ 34 :: s) = exactFrom true 0 s := by
    rw [exactFrom_blanks hw, exactFrom]
    rfl
  rw [hexact, ← hscans.reads.2, LengthRight, bytes_literal hw hclause, hlen]
  constructor
  · intro h
    obtain ⟨bs, hbs, hlength⟩ := h
    obtain ⟨out, hout, heq⟩ := Option.map_eq_some_iff.mp hbs
    cases List.append_cancel_left heq
    exact ⟨bs, hout, by omega⟩
  · intro h
    obtain ⟨out, hout, hlength⟩ := h
    exact ⟨out, by rw [hout]; rfl, by omega⟩

/-- Two pieces, and an octal escape in the second one. -/
theorem makeMem_length_octal : LengthRight { id := -1, len := 3, clause := ascii "\"a\" \"\\101\"" } := by
  have hmake : makeMem (ascii "\"a\" \"\\101\"") =
    .ok (some { id := -1, len := 3, clause := ascii "\"a\" \"\\101\"" }) := by decide +kernel
  have hexact : exactFrom false 0 (ascii "\"a\" \"\\101\"") = true := by decide
  exact (makeMem_length_iff hmake).mpr hexact

/-- C takes all of `\x041` for one byte, and it was counted as two. -/
theorem makeMem_length_hex : ¬ ∀ (clause : Bytes) (m : MemConst), makeMem clause = .ok (some m) → LengthRight m := by
  intro h
  let m : MemConst := { id := -1, len := 3, clause := ascii "\"\\x041\"" }
  have hmake : makeMem (ascii "\"\\x041\"") = .ok (some m) := by decide +kernel
  have hread : bytes m.literal = some (m.head ++ [65]) := by decide
  obtain ⟨bs, hbs, hlen⟩ := h _ m hmake
  rw [hread, Option.some.injEq] at hbs
  cases List.append_cancel_left hbs
  cases hlen

end RimStone
