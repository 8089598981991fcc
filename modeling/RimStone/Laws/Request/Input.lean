import RimStone.Request.Input
import RimStone.Text.Encode
import RimStone.Laws.Text.Utf
import RimStone.Laws.Text.Trim

/-!
# The parameters of a query string

The decoding loop of `rim_get_input` writes, for the pieces of a query string between
`&`, the decoded name, a null, the decoded value, and a null; the loop after it takes
them from there. Separators are bytes of the string itself, as decoded bytes are written
behind the place where the loop reads.

A null that is encoded, a second `=` in a piece, and `%` without two digits are left
aside: there the nulls that the two loops share do not say where a value ends.
-/

namespace RimStone

open RimStone.Lib

/-! ## The form encoding -/

/-- Every `%` is followed by two hexadecimal digits, which do not encode a null. -/
def escapesOk : Bytes → Bool
  | [] => true
  | c :: s =>
    if c = 37 then
      match s with
      | x :: y :: s => (hexVal x).isSome && (hexVal y).isSome && !(x = 48 && y = 48) && escapesOk s
      | _ => false
    else escapesOk s

/-- The byte that two hexadecimal digits stand for. -/
def hexByte (x y : UInt8) : UInt8 := UInt8.ofNat ((hexVal x).getD 0 * 16 + (hexVal y).getD 0)

/-- A name or a value without its encoding. A `-` in a name is a `_`. -/
def formDecode (name : Bool) : Bytes → Bytes
  | [] => []
  | c :: s =>
    if c = 37 then
      match s with
      | x :: y :: s => hexByte x y :: formDecode name s
      | _ => []
    else (if c = 43 then 32 else if name ∧ c = 45 then 95 else c) :: formDecode name s

/-- A piece is split at its first `=`. -/
def splitEq (p : Bytes) : Option (Bytes × Bytes) :=
  if 61 ∈ p then some (p.takeWhile (· ≠ 61), (p.dropWhile (· ≠ 61)).tail) else none

/-- The parameters that a query string has, with their values trimmed. -/
def formPairs (s : Bytes) : List (Bytes × Bytes) :=
  ((s.splitOn 38).filterMap splitEq).map fun p => (formDecode true p.1, trim isspace (formDecode false p.2))

/-- Some piece before the last has no `=`. -/
def lacksEq (s : Bytes) : Bool := (s.splitOn 38).dropLast.any fun p => !p.contains 61

/-! ## Decoding -/

variable {x y : UInt8} {s p : Bytes} {ps : List Bytes}

theorem rimCharFromHex_eq {d : Nat} (h : hexVal x = some d) : rimCharFromHex x = d ∧ d < 16 := by
  have hall : ∀ n, n < 256 → ∀ d ∈ hexVal (UInt8.ofNat n), rimCharFromHex (UInt8.ofNat n) = d ∧ d < 16 := by
    decide +kernel
  have hx := hall x.toNat x.toNat_lt d
  rw [UInt8.ofNat_toNat] at hx
  exact hx h

theorem hexByte_eq {a b : Nat} (ha : hexVal x = some a) (hb : hexVal y = some b) :
    UInt8.ofInt (rimCharFromHex x * 16 + rimCharFromHex y) = hexByte x y := by
  rw [(rimCharFromHex_eq ha).1, (rimCharFromHex_eq hb).1, hexByte, ha, hb, Option.getD_some, Option.getD_some]
  exact ofInt_natCast _

theorem exists_digits (h : escapesOk (37 :: s) = true) : ∃ x y t, s = x :: y :: t := by
  match s with
  | x :: y :: t => exact ⟨x, y, t, rfl⟩
  | [_] => cases h
  | [] => cases h

theorem escapesOk_plain {c : UInt8} (hc : ¬ c = 37) : escapesOk (c :: s) = escapesOk s := by
  rw [escapesOk.eq_def]
  exact if_neg hc

/-- The digits after a `%`. -/
theorem escapesOk_pct (h : escapesOk (37 :: x :: y :: s) = true) :
    ∃ a b, hexVal x = some a ∧ hexVal y = some b ∧ ¬ (x = 48 ∧ y = 48) ∧ escapesOk s = true := by
  rw [escapesOk, if_pos rfl] at h
  simp only [Bool.and_eq_true, Option.isSome_iff_exists, Bool.not_eq_true'] at h
  obtain ⟨⟨⟨⟨a, ha⟩, b, hb⟩, hzero⟩, hesc⟩ := h
  refine ⟨a, b, ha, hb, ?_, hesc⟩
  simpa using hzero

theorem formDecode_pct (name : Bool) (x y : UInt8) (s : Bytes) :
    formDecode name (37 :: x :: y :: s) = hexByte x y :: formDecode name s := by
  rw [formDecode, if_pos rfl]

theorem formDecode_plain {c : UInt8} (hc : ¬ c = 37) (name : Bool) (s : Bytes) :
    formDecode name (c :: s) = (if c = 43 then 32 else if name ∧ c = 45 then 95 else c) :: formDecode name s := by
  rw [formDecode.eq_def]
  exact if_neg hc

/-- What the decoding loop is to answer: an error, or what it wrote and how many
parameters there are, where it stopped at the null before `free`. -/
def Ends (free : Bytes) (r : Except InputFault (Bytes × Nat × Nat)) :
    Except InputFault (Bytes × Nat) → Prop
  | .error e => r = .error e
  | .ok (out, num) => ∃ content i, r = .ok (content, out.length, num) ∧
      InPlace content out (0 :: free) i out.length

/-- What the decoding loop answers, whatever was read before, where it has written `out`
and `rest` is left. -/
def Decodes (free out rest : Bytes) (hadEqual isname : Bool) (num : Nat)
    (answer : Except InputFault (Bytes × Nat)) : Prop :=
  ∀ content i j fuel, InPlace content out rest i j → rest.length < fuel →
    Ends free (decodeLoop fuel content i j hadEqual isname num) answer

variable {free out rest : Bytes} {hadEqual isname : Bool} {num : Nat} {c : UInt8}
  {answer : Except InputFault (Bytes × Nat)}

theorem decodes_end (out free : Bytes) (hadEqual isname : Bool) (num : Nat) :
    Decodes free out (0 :: free) hadEqual isname num (.ok (out, num)) := by
  intro content i j fuel h hfuel
  obtain ⟨fuel, rfl⟩ : ∃ f, fuel = f + 1 := ⟨fuel - 1, by omega⟩
  have hget : content[i]? = some 0 := h.get_zero
  have hw := h.write
  subst hw
  refine ⟨content, i, ?_, h⟩
  simp only [decodeLoop, hget, inContent, bind, Except.bind, if_true]

/-- A byte that has no meaning of its own. -/
theorem decodes_plain (hc : c ≠ 0) (hpct : c ≠ 37) (hamp : c ≠ 38) (heq : c ≠ 61)
    (hgo : Decodes free (out ++ [if c = 43 then 32 else if isname ∧ c = 45 then 95 else c]) rest hadEqual
      isname num answer) :
    Decodes free out (c :: rest) hadEqual isname num answer := by
  intro content i j fuel h hfuel
  obtain ⟨fuel, rfl⟩ : ∃ f, fuel = f + 1 := ⟨fuel - 1, by omega⟩
  rw [List.length_cons] at hfuel
  have hget : content[i]? = some c := h.get_zero
  have hi : i < content.length := (List.getElem?_eq_some_iff.mp hget).1
  have hrep := h.replace (if c = 43 then 32 else c)
  have hj := hrep.lt
  unfold decodeLoop
  simp only [hget, inContent, bind, Except.bind, if_neg hc, poke_eq hi]
  by_cases hplus : c = 43
  · rw [if_pos hplus] at hgo
    simp only [if_pos hplus] at hrep hj ⊢
    have h1 : ¬ (isname = true ∧ (32 : UInt8) = 45) := fun h => absurd h.2 (by decide)
    rw [if_neg h1, if_neg (by decide), if_neg (by decide), if_neg (by decide)]
    simp only [poke_eq hj]
    exact hgo _ _ _ _ (hrep.step 32) (by omega)
  · rw [if_neg hplus] at hgo
    simp only [if_neg hplus] at hrep hj ⊢
    by_cases hname : isname = true ∧ c = 45
    · rw [if_pos hname] at hgo ⊢
      simp only [poke_eq hj]
      exact hgo _ _ _ _ (hrep.step 95) (by omega)
    · rw [if_neg hname] at hgo ⊢
      rw [if_neg hpct, if_neg hamp, if_neg heq]
      simp only [poke_eq hj]
      exact hgo _ _ _ _ (hrep.step c) (by omega)

theorem decodes_escape {a b : Nat} (ha : hexVal x = some a) (hb : hexVal y = some b)
    (hgo : Decodes free (out ++ [hexByte x y]) rest hadEqual isname num answer) :
    Decodes free out (37 :: x :: y :: rest) hadEqual isname num answer := by
  intro content i j fuel h hfuel
  obtain ⟨fuel, rfl⟩ : ∃ f, fuel = f + 1 := ⟨fuel - 1, by omega⟩
  simp only [List.length_cons] at hfuel
  have hi : i < content.length := (List.getElem?_eq_some_iff.mp h.get_zero).1
  have hrep := h.replace 37
  have hx : (content.set i 37)[i + 1]? = some x := hrep.get 1
  have hy : (content.set i 37)[i + 2]? = some y := hrep.get 2
  have hplus : ¬ (37 : UInt8) = 43 := by decide
  have hname : ¬ (isname = true ∧ (37 : UInt8) = 45) := fun h => absurd h.2 (by decide)
  have hget : content[i]? = some 37 := h.get_zero
  have hzero : ¬ (37 : UInt8) = 0 := by decide
  unfold decodeLoop
  simp only [hget, inContent, bind, Except.bind, if_neg hzero, if_neg hplus, poke_eq hi, if_neg hname, hx, hy,
    hexByte_eq ha hb, poke_eq hrep.lt, if_true]
  have hskip : InPlace ((content.set i 37).set j (hexByte x y)) (out ++ [hexByte x y]) ([x, y] ++ rest)
      (i + 1) (j + 1) := hrep.step _
  exact hgo _ _ _ _ hskip.skip (by omega)

theorem decodes_amp (hgo : Decodes free (out ++ [0]) rest false true num answer) :
    Decodes free out (38 :: rest) true isname num answer := by
  intro content i j fuel h hfuel
  obtain ⟨fuel, rfl⟩ : ∃ f, fuel = f + 1 := ⟨fuel - 1, by omega⟩
  rw [List.length_cons] at hfuel
  have hget : content[i]? = some 38 := h.get_zero
  have hi : i < content.length := (List.getElem?_eq_some_iff.mp hget).1
  have hrep := h.replace 38
  have hplus : ¬ (38 : UInt8) = 43 := by decide
  have hname : ¬ (isname = true ∧ (38 : UInt8) = 45) := fun h => absurd h.2 (by decide)
  have hzero : ¬ (38 : UInt8) = 0 := by decide
  have hpct : ¬ (38 : UInt8) = 37 := by decide
  unfold decodeLoop
  simp only [hget, inContent, bind, Except.bind, if_neg hzero, if_neg hplus, poke_eq hi, if_neg hname, if_neg hpct,
    poke_eq hrep.lt, if_true]
  exact hgo _ _ _ _ (hrep.step 0) (by omega)

/-- A separator after a piece without `=`. -/
theorem decodes_malformed (free out rest : Bytes) (isname : Bool) (num : Nat) :
    Decodes free out (38 :: rest) false isname num
      (.error (.report "Malformed URL request, encountered ampersand without prior name=value" [])) := by
  intro content i j fuel h hfuel
  obtain ⟨fuel, rfl⟩ : ∃ f, fuel = f + 1 := ⟨fuel - 1, by omega⟩
  have hget : content[i]? = some 38 := h.get_zero
  have hi : i < content.length := (List.getElem?_eq_some_iff.mp hget).1
  have hplus : ¬ (38 : UInt8) = 43 := by decide
  have hname : ¬ (isname = true ∧ (38 : UInt8) = 45) := fun h => absurd h.2 (by decide)
  have hzero : ¬ (38 : UInt8) = 0 := by decide
  have hpct : ¬ (38 : UInt8) = 37 := by decide
  show decodeLoop (fuel + 1) content i j false isname num = _
  unfold decodeLoop
  simp only [hget, inContent, bind, Except.bind, if_neg hzero, if_neg hplus, poke_eq hi, if_neg hname, if_neg hpct,
    if_true, Bool.false_eq_true, if_false]

/-- A separator between a name and a value. -/
theorem decodes_equal (hgo : Decodes free (out ++ [0]) rest true false (num + 1) answer) :
    Decodes free out (61 :: rest) hadEqual isname num answer := by
  intro content i j fuel h hfuel
  obtain ⟨fuel, rfl⟩ : ∃ f, fuel = f + 1 := ⟨fuel - 1, by omega⟩
  rw [List.length_cons] at hfuel
  have hget : content[i]? = some 61 := h.get_zero
  have hi : i < content.length := (List.getElem?_eq_some_iff.mp hget).1
  have hrep := h.replace 61
  have hplus : ¬ (61 : UInt8) = 43 := by decide
  have hname : ¬ (isname = true ∧ (61 : UInt8) = 45) := fun h => absurd h.2 (by decide)
  have hzero : ¬ (61 : UInt8) = 0 := by decide
  have hpct : ¬ (61 : UInt8) = 37 := by decide
  have hamp : ¬ (61 : UInt8) = 38 := by decide
  unfold decodeLoop
  simp only [hget, inContent, bind, Except.bind, if_neg hzero, if_neg hplus, poke_eq hi, if_neg hname, if_neg hpct,
    if_neg hamp, poke_eq hrep.lt, if_true]
  exact hgo _ _ _ _ (hrep.step 0) (by omega)

/-- Bytes of a name or a value: no separators, no null. -/
def CleanPart (p : Bytes) : Prop := escapesOk p = true ∧ ∀ x ∈ p, x ≠ 0 ∧ x ≠ 38 ∧ x ≠ 61

theorem decodes_part (hp : CleanPart p)
    (hgo : Decodes free (out ++ formDecode isname p) rest hadEqual isname num answer) :
    Decodes free out (p ++ rest) hadEqual isname num answer := by
  obtain ⟨hesc, hclean⟩ := hp
  induction p using escapesOk.induct generalizing out with
  | case1 =>
    rw [formDecode, List.append_nil] at hgo
    exact hgo
  | case2 x y s ih =>
    obtain ⟨a, b, ha, hb, -, hesc⟩ := escapesOk_pct hesc
    rw [formDecode_pct, List.append_cons] at hgo
    have hclean : ∀ x ∈ s, x ≠ 0 ∧ x ≠ 38 ∧ x ≠ 61 := by
      intro z hz
      exact hclean z (by simp [hz])
    exact decodes_escape ha hb (ih hgo hesc hclean)
  | case3 s hshort =>
    obtain ⟨x, y, t, rfl⟩ := exists_digits hesc
    exact absurd rfl (hshort x y t)
  | case4 c s hpct ih =>
    rw [escapesOk_plain hpct] at hesc
    rw [formDecode_plain hpct, List.append_cons] at hgo
    obtain ⟨⟨hc, hamp, heq⟩, hclean⟩ := List.forall_mem_cons.mp hclean
    exact decodes_plain hc hpct hamp heq (ih hgo hesc hclean)

/-! ## Pieces -/

/-- A separator is in no encoded byte. -/
theorem escapesOk_append {c : UInt8} (hpct : ¬ c = 37) (hhex : hexVal c = none) {a b : Bytes}
    (h : escapesOk (a ++ c :: b) = true) : escapesOk a = true ∧ escapesOk b = true := by
  induction a using escapesOk.induct with
  | case1 =>
    rw [List.nil_append, escapesOk_plain hpct] at h
    exact ⟨rfl, h⟩
  | case2 x y s ih =>
    simp only [List.cons_append] at h
    obtain ⟨d, e, hd, he, hzero, hesc⟩ := escapesOk_pct h
    obtain ⟨hs, hb⟩ := ih hesc
    refine ⟨?_, hb⟩
    rw [escapesOk, if_pos rfl, hd, he, hs]
    have hdigits : (decide (x = 48) && decide (y = 48)) = false := by
      rw [← Bool.not_eq_true, Bool.and_eq_true, decide_eq_true_iff, decide_eq_true_iff]
      exact hzero
    rw [hdigits]
    rfl
  | case3 s hshort =>
    -- the separator would be one of the two digits
    exfalso
    rw [List.cons_append] at h
    obtain ⟨x, y, t, ht⟩ := exists_digits h
    rw [ht] at h
    obtain ⟨d, e, hd, he, -, -⟩ := escapesOk_pct h
    match s, hshort with
    | [], _ =>
      rw [List.nil_append, List.cons.injEq] at ht
      rw [← ht.1, hhex] at hd
      cases hd
    | [z], _ =>
      rw [List.cons_append, List.nil_append, List.cons.injEq, List.cons.injEq] at ht
      rw [← ht.2.1, hhex] at he
      cases he
    | z :: w :: u, hshort => exact hshort z w u rfl
  | case4 c' s hne ih =>
    rw [List.cons_append, escapesOk_plain hne] at h
    rw [escapesOk_plain hne]
    exact ih h

/-- A piece of a query string that is not left aside. -/
structure PlainPiece (p : Bytes) : Prop where
  escapes : escapesOk p = true
  bytes : ∀ x ∈ p, x ≠ 0 ∧ x ≠ 38
  once : p.count 61 ≤ 1

/-- The two parts of a piece. -/
theorem PlainPiece.parts (h : PlainPiece p) (heq : 61 ∈ p) :
    ∃ n v, p = n ++ 61 :: v ∧ splitEq p = some (n, v) ∧ CleanPart n ∧ CleanPart v ∧ p.count 61 = 1 := by
  have hne : p.dropWhile (· ≠ 61) ≠ [] := by
    intro hnil
    have hall := List.dropWhile_eq_nil_iff.mp hnil 61 heq
    simp at hall
  obtain ⟨c, v, hv⟩ := List.exists_cons_of_ne_nil hne
  have hc : c = 61 := by
    have hhead := List.head_dropWhile_not (fun x : UInt8 => decide (x ≠ 61)) hne
    simp only [hv, List.head_cons] at hhead
    simpa using hhead
  subst hc
  have happ : p.takeWhile (· ≠ 61) ++ 61 :: v = p := by
    rw [← hv]
    exact List.takeWhile_append_dropWhile
  have hn : ∀ x ∈ p.takeWhile (· ≠ 61), x ≠ 61 := by
    intro x hx
    simpa using List.mem_takeWhile_imp hx
  have hone := h.once
  rw [← happ, List.count_append, List.count_cons_self,
    List.count_eq_zero_of_not_mem (fun hmem => hn _ hmem rfl)] at hone
  have hv61 : ∀ x ∈ v, x ≠ 61 := by
    intro x hx heq
    subst heq
    have hpos := List.count_pos_iff.mpr hx
    omega
  have hesc := h.escapes
  rw [← happ] at hesc
  obtain ⟨hescn, hescv⟩ := escapesOk_append (by decide) (by decide) hesc
  refine ⟨_, v, happ.symm, ?_, ⟨hescn, ?_⟩, ⟨hescv, ?_⟩, ?_⟩
  · rw [splitEq, if_pos heq, hv, List.tail_cons]
  · intro x hx
    obtain ⟨h0, h38⟩ := h.bytes x (by rw [← happ]; exact List.mem_append_left _ hx)
    exact ⟨h0, h38, hn x hx⟩
  · intro x hx
    obtain ⟨h0, h38⟩ := h.bytes x (by
      rw [← happ]
      exact List.mem_append_right _ (List.mem_cons_of_mem _ hx))
    exact ⟨h0, h38, hv61 x hx⟩
  · rw [← happ, List.count_append, List.count_cons_self, List.count_eq_zero_of_not_mem (fun hmem => hn _ hmem rfl),
      List.count_eq_zero_of_not_mem (fun hmem => hv61 _ hmem rfl)]

/-- A piece without `=` is one part. -/
theorem PlainPiece.part (h : PlainPiece p) (heq : 61 ∉ p) : CleanPart p := by
  refine ⟨h.escapes, ?_⟩
  intro x hx
  obtain ⟨h0, h38⟩ := h.bytes x hx
  refine ⟨h0, h38, ?_⟩
  intro h61
  rw [h61] at hx
  exact heq hx

def pieceText (p : Bytes) : Bytes :=
  match splitEq p with
  | none => formDecode true p
  | some (n, v) => formDecode true n ++ 0 :: formDecode false v

theorem decodes_piece (hp : PlainPiece p)
    (hgo : Decodes free (out ++ pieceText p) rest (p.contains 61) (!p.contains 61) (num + p.count 61) answer) :
    Decodes free out (p ++ rest) false true num answer := by
  by_cases heq : 61 ∈ p
  · obtain ⟨n, v, hsplit, hparts, hn, hv, hone⟩ := hp.parts heq
    have hcontains : p.contains 61 = true := List.contains_iff_mem.mpr heq
    have htext : pieceText p = formDecode true n ++ 0 :: formDecode false v := by rw [pieceText, hparts]
    rw [htext, hcontains, hone, Bool.not_true] at hgo
    rw [hsplit, List.append_assoc, List.cons_append]
    apply decodes_part hn
    apply decodes_equal
    apply decodes_part hv
    simp only [List.append_assoc, List.cons_append, List.nil_append] at hgo ⊢
    exact hgo
  · have hcontains : p.contains 61 = false := by
      rw [← Bool.not_eq_true, List.contains_iff_mem]
      exact heq
    have hnone : splitEq p = none := if_neg heq
    rw [pieceText, hnone, hcontains, List.count_eq_zero_of_not_mem heq, Bool.not_false, Nat.add_zero] at hgo
    exact decodes_part (hp.part heq) hgo

/-! ## Query strings -/

def piecesAnswer (out : Bytes) (num : Nat) : List Bytes → Except InputFault (Bytes × Nat)
  | [] => .ok (out, num)
  | [p] => .ok (out ++ pieceText p, num + p.count 61)
  | p :: q :: ps =>
    if p.contains 61 then piecesAnswer (out ++ pieceText p ++ [0]) (num + p.count 61) (q :: ps)
    else .error (.report "Malformed URL request, encountered ampersand without prior name=value" [])

/-- Pieces are decoded one after the other. -/
theorem decodes_pieces (hne : ps ≠ []) (hps : ∀ p ∈ ps, PlainPiece p) :
    Decodes free out (List.intercalate [38] ps ++ 0 :: free) false true num (piecesAnswer out num ps) := by
  induction ps generalizing out num with
  | nil => exact absurd rfl hne
  | cons p ps ih =>
    obtain ⟨hp, hps⟩ := List.forall_mem_cons.mp hps
    cases ps with
    | nil =>
      rw [List.intercalate_singleton]
      exact decodes_piece hp (decodes_end _ _ _ _ _)
    | cons q ps =>
      rw [List.intercalate_cons_cons, List.append_assoc, List.append_assoc, piecesAnswer]
      apply decodes_piece hp
      cases hcontains : p.contains 61 with
      | true => exact decodes_amp (ih (List.cons_ne_nil _ _) hps)
      | false => exact decodes_malformed _ _ _ _ _

/-- Some piece before the last has no `=`, or all of them are written. -/
theorem piecesAnswer_eq (out : Bytes) (num : Nat) (hne : ps ≠ []) :
    piecesAnswer out num ps =
      if ps.dropLast.any fun p => !p.contains 61 then
        .error (.report "Malformed URL request, encountered ampersand without prior name=value" [])
      else .ok (out ++ List.intercalate [0] (ps.map pieceText), num + (ps.map fun p => p.count 61).sum) := by
  induction ps generalizing out num with
  | nil => exact absurd rfl hne
  | cons p ps ih =>
    cases ps with
    | nil =>
      rw [piecesAnswer, List.dropLast_singleton, List.any_nil, if_neg Bool.false_ne_true]
      simp
    | cons q ps =>
      rw [piecesAnswer, List.dropLast_cons_cons, List.any_cons]
      cases hcontains : p.contains 61 with
      | false => rw [if_neg Bool.false_ne_true, Bool.not_false, Bool.true_or, if_pos rfl]
      | true =>
        rw [if_pos rfl, Bool.not_true, Bool.false_or, ih _ _ (List.cons_ne_nil _ _)]
        simp only [List.map_cons, List.intercalate_cons_cons, List.sum_cons, List.append_assoc, Nat.add_assoc]

section Params

variable {δ : Type} (str2num : Bytes → Option Int) (str2dbl : Bytes → Option δ)

/-- A decoded part has no null. -/
theorem formDecode_ne_zero (name : Bool) (hp : CleanPart p) : ∀ x ∈ formDecode name p, x ≠ 0 := by
  obtain ⟨hesc, hclean⟩ := hp
  induction p using escapesOk.induct with
  | case1 =>
    intro x hx
    cases hx
  | case2 x y s ih =>
    obtain ⟨a, b, ha, hb, hzero, hesc⟩ := escapesOk_pct hesc
    rw [formDecode_pct, List.forall_mem_cons]
    refine ⟨?_, ih hesc (fun z hz => hclean z (by simp [hz]))⟩
    intro hbyte
    apply hzero
    have hall : ∀ n, n < 256 → ∀ d ∈ hexVal (UInt8.ofNat n), d = 0 → UInt8.ofNat n = 48 := by decide +kernel
    have ha16 := (rimCharFromHex_eq ha).2
    have hb16 := (rimCharFromHex_eq hb).2
    have hnat := congrArg UInt8.toNat hbyte
    rw [hexByte, ha, hb, Option.getD_some, Option.getD_some, UInt8.toNat_ofNat'] at hnat
    have hmod : (a * 16 + b) % 2 ^ 8 = 0 := hnat
    have hx := hall x.toNat x.toNat_lt a
    have hy := hall y.toNat y.toNat_lt b
    rw [UInt8.ofNat_toNat] at hx hy
    exact ⟨hx ha (by omega), hy hb (by omega)⟩
  | case3 s hshort =>
    obtain ⟨x, y, t, rfl⟩ := exists_digits hesc
    exact absurd rfl (hshort x y t)
  | case4 c s hpct ih =>
    rw [escapesOk_plain hpct] at hesc
    obtain ⟨⟨hc, -, -⟩, hclean⟩ := List.forall_mem_cons.mp hclean
    rw [formDecode_plain hpct, List.forall_mem_cons]
    refine ⟨?_, ih hesc hclean⟩
    split_ifs
    · decide
    · decide
    · exact hc

/-- A round of the loop over names and values sets a parameter to the trimmed value. -/
theorem paramLoop_pair {n v : Bytes} (hn : ∀ x ∈ n, x ≠ 0) (hv : ∀ x ∈ v, x ≠ 0) (pre rest : Bytes) (num : Nat)
    (pars : List (RimIpar δ)) :
    ∃ pre', paramLoop str2num str2dbl (num + 1) (pre ++ (n ++ 0 :: (v ++ 0 :: rest))) pre.length pars =
      (do
        let pars ← setPar str2num str2dbl pars n (trim isspace v)
        paramLoop str2num str2dbl num (pre' ++ rest) pre'.length pars) := by
  have hlen := length_front_trim_back isspace v
  have hname := strlen_eq pre hn (v ++ 0 :: rest)
  have htake : ((pre ++ (n ++ 0 :: (v ++ 0 :: rest))).drop pre.length).take n.length = n := by
    rw [List.drop_left, List.take_left]
  have hmid : pre ++ (n ++ 0 :: (v ++ 0 :: rest)) = (pre ++ (n ++ [0])) ++ (v ++ 0 :: rest) := by
    simp only [List.append_assoc, List.cons_append, List.nil_append]
  have hplace : pre.length + n.length + 1 = (pre ++ (n ++ [0])).length := by
    simp only [List.length_append, List.length_singleton]
    omega
  have hvalue := strlen_eq (pre ++ (n ++ [0])) hv rest
  have htrim := rimTrimPtr_eq (pre ++ (n ++ [0])) hv rest
  -- the trimmed value is a string by itself
  have htv : ∀ x ∈ trim isspace v, x ≠ 0 := fun x hx => hv x (mem_of_mem_trim hx)
  obtain ⟨tail, htail⟩ : ∃ tail, nulled (back isspace v) ++ 0 :: rest = 0 :: tail := by
    cases back isspace v with
    | nil => exact ⟨rest, rfl⟩
    | cons x b => exact ⟨b ++ 0 :: rest, rfl⟩
  have hsplit : ∀ t, (pre ++ (n ++ [0])) ++ (front isspace v ++ (trim isspace v ++ t)) =
      ((pre ++ (n ++ [0])) ++ front isspace v) ++ (trim isspace v ++ t) := by
    intro t
    rw [← List.append_assoc (pre ++ (n ++ [0]))]
  have hsv := strlen_eq ((pre ++ (n ++ [0])) ++ front isspace v) htv tail
  have hsvTake : ((((pre ++ (n ++ [0])) ++ front isspace v) ++ (trim isspace v ++ 0 :: tail)).drop
      ((pre ++ (n ++ [0])) ++ front isspace v).length).take (trim isspace v).length = trim isspace v := by
    rw [List.drop_left, List.take_left]
  have hstart : (pre ++ (n ++ [0])).length + (front isspace v).length =
      ((pre ++ (n ++ [0])) ++ front isspace v).length := List.length_append.symm
  refine ⟨((pre ++ (n ++ [0])) ++ front isspace v) ++ (trim isspace v ++ (nulled (back isspace v) ++ [0])), ?_⟩
  have hdone : ((pre ++ (n ++ [0])) ++ front isspace v) ++ (trim isspace v ++ 0 :: tail) =
      ((pre ++ (n ++ [0])) ++ front isspace v) ++ (trim isspace v ++ (nulled (back isspace v) ++ [0])) ++ rest := by
    rw [← htail]
    simp only [List.append_assoc, List.cons_append, List.nil_append]
  have hend : (pre ++ (n ++ [0])).length + v.length + 1 =
      (((pre ++ (n ++ [0])) ++ front isspace v) ++ (trim isspace v ++ (nulled (back isspace v) ++ [0]))).length := by
    simp only [List.length_append, length_nulled, List.length_singleton]
    omega
  rw [paramLoop, setPar]
  simp only [hname, inContent, bind, Except.bind, htake]
  cases hfind : rimFindPar pars n with
  | error e => rfl
  | ok i =>
    simp only [hmid, hplace, hvalue, htrim, htail, hsplit, hstart, hsv, hsvTake]
    rw [hdone, hend]
    cases pars[i]? with
    | none => rfl
    | some p =>
      cases hcheck : rimCheckWebParamType str2num str2dbl n { p with tval := .value (trim isspace v) }
        (trim isspace v) with
      | error e => simp only [hcheck]
      | ok p' => simp only [hcheck]

def piecePairs (ps : List Bytes) : List (Bytes × Bytes) :=
  (ps.filterMap splitEq).map fun p => (formDecode true p.1, trim isspace (formDecode false p.2))

/-- The parameters are set one after the other. -/
theorem paramLoop_pieces (hps : ∀ p ∈ ps, PlainPiece p) (heq : (ps.dropLast.any fun p => !p.contains 61) = false)
    (pre tail : Bytes) (pars : List (RimIpar δ)) :
    paramLoop str2num str2dbl (ps.map fun p => p.count 61).sum
        (pre ++ (List.intercalate [0] (ps.map pieceText) ++ 0 :: tail)) pre.length pars =
      (piecePairs ps).foldlM (fun pars p => setPar str2num str2dbl pars p.1 p.2) pars := by
  induction ps generalizing pre pars with
  | nil => rfl
  | cons p ps ih =>
    obtain ⟨hp, hps⟩ := List.forall_mem_cons.mp hps
    -- a piece with `=` is a round, after which comes what the other pieces wrote
    have hround : 61 ∈ p → ∀ rest, List.intercalate [0] ((p :: ps).map pieceText) ++ 0 :: tail =
      pieceText p ++ 0 :: rest →
        (∀ pre' pars', paramLoop str2num str2dbl (ps.map fun p => p.count 61).sum (pre' ++ rest) pre'.length pars' =
          (piecePairs ps).foldlM (fun pars p => setPar str2num str2dbl pars p.1 p.2) pars') →
        paramLoop str2num str2dbl ((p :: ps).map fun p => p.count 61).sum
            (pre ++ (List.intercalate [0] ((p :: ps).map pieceText) ++ 0 :: tail)) pre.length pars =
          (piecePairs (p :: ps)).foldlM (fun pars p => setPar str2num str2dbl pars p.1 p.2) pars := by
      intro hmem rest htext hothers
      obtain ⟨n, v, -, hparts, hn, hv, hone⟩ := hp.parts hmem
      have hpairs : piecePairs (p :: ps) =
          (formDecode true n, trim isspace (formDecode false v)) :: piecePairs ps := by
        simp only [piecePairs, List.filterMap_cons, hparts, List.map_cons]
      have hpiece : pieceText p = formDecode true n ++ 0 :: formDecode false v := by rw [pieceText, hparts]
      obtain ⟨pre', hstep⟩ := paramLoop_pair str2num str2dbl (formDecode_ne_zero true hn)
        (formDecode_ne_zero false hv) pre rest (ps.map fun p => p.count 61).sum pars
      rw [htext, hpiece, hpairs, List.map_cons, List.sum_cons, hone, Nat.add_comm 1, List.append_assoc,
        List.cons_append, hstep, List.foldlM_cons]
      simp only [hothers]
    cases ps with
    | nil =>
      by_cases hmem : 61 ∈ p
      · apply hround hmem tail
        · rw [List.map_cons, List.map_nil, List.intercalate_singleton]
        · intro pre' pars'
          rfl
      · -- a piece without `=` is not read any more
        have hzero : List.count 61 p = 0 := List.count_eq_zero_of_not_mem hmem
        have hnone : splitEq p = none := if_neg hmem
        have hpairs : piecePairs [p] = [] := by
          simp only [piecePairs, List.filterMap_cons, hnone, List.filterMap_nil, List.map_nil]
        rw [hpairs, List.map_cons, List.map_nil, List.sum_cons, List.sum_nil, hzero]
        rfl
    | cons q ps =>
      rw [List.dropLast_cons_cons, List.any_cons, Bool.or_eq_false_iff, Bool.not_eq_false'] at heq
      have hmem : 61 ∈ p := List.contains_iff_mem.mp heq.1
      apply hround hmem (List.intercalate [0] ((q :: ps).map pieceText) ++ 0 :: tail)
      · rw [List.map_cons, List.map_cons, List.intercalate_cons_cons, List.append_assoc, List.append_assoc]
        rfl
      · intro pre' pars'
        exact ih hps heq.2 pre' pars'

/-- A separator is in no piece. -/
theorem not_mem_of_mem_splitOn (a : UInt8) (s : Bytes) : ∀ p ∈ s.splitOn a, a ∉ p := by
  induction s with
  | nil =>
    intro p hp
    rw [List.splitOn_nil, List.mem_singleton] at hp
    rw [hp]
    exact List.not_mem_nil
  | cons x s ih =>
    intro p hp
    rw [List.splitOn_cons_eq_if_modifyHead] at hp
    by_cases hx : (x == a) = true
    · rw [if_pos hx, List.mem_cons] at hp
      obtain rfl | hp := hp
      · exact List.not_mem_nil
      · exact ih p hp
    · rw [if_neg hx] at hp
      obtain ⟨q, qs, hsplit⟩ := List.exists_cons_of_ne_nil (List.splitOn_ne_nil a s)
      rw [hsplit, List.modifyHead_cons, List.mem_cons] at hp
      rw [hsplit] at ih
      obtain rfl | hp := hp
      · rw [List.mem_cons, not_or]
        refine ⟨?_, ih q List.mem_cons_self⟩
        intro heq
        apply hx
        rw [heq, beq_self_eq_true]
      · exact ih p (List.mem_cons_of_mem _ hp)

/-- What holds of a query string holds of its pieces. -/
theorem pieces_of_intercalate (hesc : escapesOk (List.intercalate [38] ps) = true)
    (hnull : 0 ∉ List.intercalate [38] ps) : ∀ p ∈ ps, escapesOk p = true ∧ 0 ∉ p := by
  induction ps with
  | nil =>
    intro p hp
    cases hp
  | cons p ps ih =>
    cases ps with
    | nil =>
      rw [List.intercalate_singleton] at hesc hnull
      intro q hq
      rw [List.mem_singleton.mp hq]
      exact ⟨hesc, hnull⟩
    | cons q ps =>
      rw [List.intercalate_cons_cons] at hesc hnull
      simp only [List.append_assoc, List.cons_append, List.nil_append] at hesc hnull
      obtain ⟨hp, hps⟩ := escapesOk_append (by decide) (by decide) hesc
      rw [List.mem_append, List.mem_cons, not_or, not_or] at hnull
      exact List.forall_mem_cons.mpr ⟨⟨hp, hnull.1⟩, ih hps hnull.2.2⟩

theorem plainPiece_of_split (hnull : 0 ∉ s) (hesc : escapesOk s = true) (honce : ∀ p ∈ s.splitOn 38, p.count 61 ≤ 1) :
    ∀ p ∈ s.splitOn 38, PlainPiece p := by
  intro p hp
  have hjoin : List.intercalate [38] (s.splitOn 38) = s := List.intercalate_splitOn 38
  rw [← hjoin] at hnull hesc
  obtain ⟨hescp, hnullp⟩ := pieces_of_intercalate hesc hnull p hp
  refine ⟨hescp, ?_, honce p hp⟩
  intro x hx
  constructor
  · intro h0
    rw [h0] at hx
    exact hnullp hx
  · intro h38
    rw [h38] at hx
    exact not_mem_of_mem_splitOn 38 s p hp hx

/-- The string is ended with two nulls where it was decoded to. -/
theorem decodeContent_eq {free : Bytes} (hfree : free ≠ []) (hps : ∀ p ∈ s.splitOn 38, PlainPiece p) :
    match piecesAnswer [] 0 (s.splitOn 38) with
    | .error e => decodeContent (s ++ 0 :: free) = .error e
    | .ok (out, num) => ∃ tail, decodeContent (s ++ 0 :: free) = .ok (out ++ 0 :: tail, num) := by
  have hdec : Decodes free [] (List.intercalate [38] (s.splitOn 38) ++ 0 :: free) false true 0
      (piecesAnswer [] 0 (s.splitOn 38)) := decodes_pieces (List.splitOn_ne_nil 38 s) hps
  rw [List.intercalate_splitOn] at hdec
  have hloop := hdec (s ++ 0 :: free) 0 0 ((s ++ 0 :: free).length + 1) (InPlace.start _) (Nat.lt_succ_self _)
  unfold decodeContent
  cases hanswer : piecesAnswer [] 0 (s.splitOn 38) with
  | error e =>
    rw [hanswer] at hloop
    have hloop : decodeLoop _ _ 0 0 false true 0 = .error e := hloop
    simp only [hloop, bind, Except.bind]
  | ok answer =>
    obtain ⟨out, num⟩ := answer
    rw [hanswer] at hloop
    obtain ⟨content, i, hloop, hin⟩ := hloop
    have hlen := hin.length_eq
    rw [List.length_cons] at hlen
    have horder := hin.order
    have hpos : 0 < free.length := List.length_pos_iff.mpr hfree
    obtain ⟨x, y, tail, htail⟩ : ∃ x y tail, content.drop out.length = x :: y :: tail := by
      have hd : (content.drop out.length).length = content.length - out.length := List.length_drop
      match hcon : content.drop out.length with
      | x :: y :: tail => exact ⟨x, y, tail, rfl⟩
      | [x] =>
        rw [hcon, List.length_singleton] at hd
        omega
      | [] =>
        rw [hcon, List.length_nil] at hd
        omega
    have hcontent : content = out ++ x :: y :: tail := by
      rw [← htail]
      conv_lhs => rw [← List.take_append_drop out.length content, hin.written]
    have hfirst : poke content out.length 0 = some (out ++ 0 :: y :: tail) := by
      rw [hcontent]
      exact poke_middle out x (y :: tail) 0
    have hnext : poke (out ++ 0 :: y :: tail) (out.length + 1) 0 = some (out ++ 0 :: 0 :: tail) := by
      have h := poke_middle (out ++ [0]) y tail 0
      rw [List.length_append, List.length_singleton, List.append_assoc, List.append_assoc] at h
      exact h
    refine ⟨0 :: tail, ?_⟩
    simp only [hloop, bind, Except.bind, hfirst, hnext, inContent]

/-- The parameters of a query string are set in order, each to its trimmed value, unless
a piece before the last has no `=`. -/
theorem inputParams_eq {s free : Bytes} (hfree : free ≠ []) (hnull : 0 ∉ s) (hesc : escapesOk s = true)
    (honce : ∀ p ∈ s.splitOn 38, p.count 61 ≤ 1) (pars : List (RimIpar δ)) :
    inputParams str2num str2dbl (s ++ 0 :: free) pars =
      if lacksEq s then
        .error (.report "Malformed URL request, encountered ampersand without prior name=value" [])
      else (formPairs s).foldlM (fun pars p => setPar str2num str2dbl pars p.1 p.2) pars := by
  have hps := plainPiece_of_split hnull hesc honce
  have hcontent := decodeContent_eq hfree hps
  rw [piecesAnswer_eq _ _ (List.splitOn_ne_nil 38 s)] at hcontent
  unfold inputParams
  by_cases hlack : lacksEq s = true
  · have hany : ((s.splitOn 38).dropLast.any fun p => !p.contains 61) = true := hlack
    rw [if_pos hany] at hcontent
    rw [if_pos hlack, hcontent]
    rfl
  · have hany : ¬ ((s.splitOn 38).dropLast.any fun p => !p.contains 61) = true := hlack
    rw [if_neg hany] at hcontent
    obtain ⟨tail, hcontent⟩ := hcontent
    rw [Bool.not_eq_true] at hany
    have hloop := paramLoop_pieces str2num str2dbl hps hany [] tail pars
    rw [if_neg hlack, hcontent]
    simp only [bind, Except.bind, List.nil_append, Nat.zero_add]
    exact hloop

end Params

/-- Encoded separators stay in a value, a `-` in a name is a `_`, and a piece without `=`
at the end is left out. -/
theorem inputParams_eq_encoded :
    inputParams (fun _ => none) (fun _ => (none : Option Unit)) (ascii "a-b=1+%26%3D+&c=&d" ++ 0 :: [0])
        [{ name := ascii "a_b" }, { name := ascii "c" }] =
      .ok [{ name := ascii "a_b", set := true, alloc := false, tval := .value (ascii "1 &=") },
        { name := ascii "c", set := true, alloc := false, tval := .value [] }] := by
  have honce : ∀ p ∈ (ascii "a-b=1+%26%3D+&c=&d").splitOn 38, p.count 61 ≤ 1 := by decide +kernel
  have hlack : lacksEq (ascii "a-b=1+%26%3D+&c=&d") = false := by decide +kernel
  have hpairs : formPairs (ascii "a-b=1+%26%3D+&c=&d") = [(ascii "a_b", ascii "1 &="), (ascii "c", [])] := by
    decide +kernel
  rw [inputParams_eq _ _ (List.cons_ne_nil _ _) (by decide) (by decide +kernel) honce, hlack, hpairs]
  rfl

/-- The value of a parameter is trimmed, and after a second `=` the names and the values
are no longer those of the string. -/
theorem inputParams_trims :
    inputParams (fun _ => none) (fun _ => (none : Option Unit)) (ascii "a=+b" ++ 0 :: [0]) [{ name := ascii "a" }] =
      .ok [{ name := ascii "a", set := true, alloc := false, tval := .value (ascii "b") }] ∧
    formDecode false (ascii "+b") = ascii " b" ∧
    inputParams (fun _ => none) (fun _ => (none : Option Unit)) (ascii "a=b=c&d=e" ++ 0 :: [0])
        [{ name := ascii "a" }, { name := ascii "c" }, { name := ascii "e" }] =
      .ok [{ name := ascii "a", set := true, alloc := false, tval := .value (ascii "b") },
        { name := ascii "c", set := true, alloc := false, tval := .value (ascii "d") },
        { name := ascii "e", set := true, alloc := false, tval := .value [] }] := by
  refine ⟨rfl, ?_, rfl⟩
  decide

/-! ## Query strings that a program writes -/

theorem hexVal_urlHex : ∀ d : Nat, d < 16 → hexVal (urlHex d) = some d ∧ (urlHex d = 48 → d = 0) ∧
    urlHex d ≠ 0 ∧ urlHex d ≠ 38 ∧ urlHex d ≠ 61 := by
  decide

/-- What is written for a byte has no separator, and is read as that byte. -/
theorem rimEncodeUrl_form {c : UInt8} (hc : c ≠ 0) : (∀ z ∈ rimEncodeUrl c, z ≠ 0 ∧ z ≠ 38 ∧ z ≠ 61) ∧
    ((rimEncodeUrl c = [c] ∧ c ≠ 37 ∧ c ≠ 43) ∨ ∃ x y, rimEncodeUrl c = [37, x, y] ∧ hexByte x y = c ∧
      ((hexVal x).isSome && (hexVal y).isSome && !(x = 48 && y = 48)) = true) := by
  unfold rimEncodeUrl
  by_cases hplain : urlPlain c = true
  · have hne : ∀ z, urlPlain z = false → c ≠ z := by
      rintro z hz rfl
      rw [hz] at hplain
      cases hplain
    rw [if_pos hplain]
    refine ⟨List.forall_mem_singleton.mpr ⟨hc, hne 38 (by decide), hne 61 (by decide)⟩, Or.inl ⟨rfl, ?_, ?_⟩⟩
    · exact hne 37 (by decide)
    · exact hne 43 (by decide)
  · rw [if_neg hplain, show charVal c / 16 = ((c.toNat / 16 : Nat) : Int) from rfl,
      show charVal c % 16 = ((c.toNat % 16 : Nat) : Int) from rfl]
    have hlt := c.toNat_lt
    obtain ⟨hx, hx0, hxz⟩ := hexVal_urlHex (c.toNat / 16) (by omega)
    obtain ⟨hy, hy0, hyz⟩ := hexVal_urlHex (c.toNat % 16) (by omega)
    generalize urlHex (c.toNat / 16 : Nat) = x at hx hx0 hxz ⊢
    generalize urlHex (c.toNat % 16 : Nat) = y at hy hy0 hyz ⊢
    refine ⟨by simp [hxz, hyz], Or.inr ⟨x, y, rfl, ?_, ?_⟩⟩
    · rw [hexByte, hx, hy, Option.getD_some, Option.getD_some, Nat.div_add_mod', UInt8.ofNat_toNat]
    · have hboth : x = 48 → ¬ y = 48 := by
        intro h h'
        have hhigh := hx0 h
        have hlow := hy0 h'
        exact hc (UInt8.toNat_inj.mp (show c.toNat = 0 by omega))
      simpa [hx, hy, imp_iff_not_or] using hboth

/-- An encoded name or value is a part that is decoded to what it was, but for a `-` of a name. -/
theorem encoded_part {s : Bytes} (hs : 0 ∉ s) : (∀ r, escapesOk (s.flatMap rimEncodeUrl ++ r) = escapesOk r) ∧
    (∀ x ∈ s.flatMap rimEncodeUrl, x ≠ 0 ∧ x ≠ 38 ∧ x ≠ 61) ∧ formDecode false (s.flatMap rimEncodeUrl) = s ∧
      (45 ∉ s → formDecode true (s.flatMap rimEncodeUrl) = s) := by
  induction s with
  | nil => exact ⟨fun _ => rfl, List.forall_mem_nil _, rfl, fun _ => rfl⟩
  | cons c s ih =>
    rw [List.mem_cons, not_or] at hs
    obtain ⟨hesc, hclean, hval, hname⟩ := ih hs.2
    rw [List.flatMap_cons]
    obtain ⟨hbytes, ⟨henc, hpct, hplus⟩ | ⟨x, y, henc, hbyte, hdigits⟩⟩ := rimEncodeUrl_form (Ne.symm hs.1)
    · rw [henc] at hbytes ⊢
      refine ⟨fun r => ?_, List.forall_mem_append.mpr ⟨hbytes, hclean⟩, ?_, fun hminus => ?_⟩
      · rw [List.append_assoc, List.singleton_append, escapesOk_plain hpct, hesc]
      · rw [List.singleton_append, formDecode_plain hpct, if_neg hplus, if_neg (by simp), hval]
      · rw [List.mem_cons, not_or] at hminus
        rw [List.singleton_append, formDecode_plain hpct, if_neg hplus, if_neg (fun h => hminus.1 h.2.symm), hname hminus.2]
    · rw [henc] at hbytes ⊢
      refine ⟨fun r => ?_, List.forall_mem_append.mpr ⟨hbytes, hclean⟩, ?_, fun hminus => ?_⟩
      · have hrest := hesc r
        simp only [List.cons_append, List.nil_append, escapesOk, if_pos, hdigits, Bool.true_and]
        exact hrest
      · have hrest := formDecode_pct false x y (s.flatMap rimEncodeUrl)
        rw [hbyte, hval] at hrest
        exact hrest
      · rw [List.mem_cons, not_or] at hminus
        have hrest := formDecode_pct true x y (s.flatMap rimEncodeUrl)
        rw [hbyte, hname hminus.2] at hrest
        exact hrest

/-- A name and a value, as they are written. -/
def writePair (p : Bytes × Bytes) : Bytes := p.1.flatMap rimEncodeUrl ++ 61 :: p.2.flatMap rimEncodeUrl

theorem writePair_piece {p : Bytes × Bytes} (hname : 0 ∉ p.1) (hminus : 45 ∉ p.1) (hval : 0 ∉ p.2) :
    PlainPiece (writePair p) ∧
      (splitEq (writePair p)).map (fun q => (formDecode true q.1, trim isspace (formDecode false q.2))) =
        some (p.1, trim isspace p.2) := by
  obtain ⟨hesc, hclean, -, hdec⟩ := encoded_part hname
  obtain ⟨hesc', hclean', hdec', -⟩ := encoded_part hval
  have hmem : 61 ∈ writePair p := List.mem_append_right _ List.mem_cons_self
  have hbefore : ∀ x ∈ p.1.flatMap rimEncodeUrl, decide (x ≠ 61) = true := fun x hx => decide_eq_true (hclean x hx).2.2
  refine ⟨⟨?_, ?_, ?_⟩, ?_⟩
  · unfold writePair
    rw [hesc, escapesOk_plain (by decide), ← List.append_nil (List.flatMap _ _), hesc']
    rfl
  · exact List.forall_mem_append.mpr ⟨fun x hx => ⟨(hclean x hx).1, (hclean x hx).2.1⟩,
      List.forall_mem_cons.mpr ⟨by decide, fun x hx => ⟨(hclean' x hx).1, (hclean' x hx).2.1⟩⟩⟩
  · unfold writePair
    rw [List.count_append, List.count_cons_self, List.count_eq_zero_of_not_mem fun h => (hclean _ h).2.2 rfl,
      List.count_eq_zero_of_not_mem fun h => (hclean' _ h).2.2 rfl]
  · rw [splitEq, if_pos hmem]
    unfold writePair
    rw [List.takeWhile_append_of_pos hbefore, List.dropWhile_append_of_pos hbefore]
    simp [hdec hminus, hdec']

section Written

variable {δ : Type} (str2num : Bytes → Option Int) (str2dbl : Bytes → Option δ)

/-- A query string of encoded names and values sets the parameters that they are of, in order. -/
theorem inputParams_written {ps : List (Bytes × Bytes)} {free : Bytes} (hfree : free ≠ []) (hne : ps ≠ [])
    (hps : ∀ p ∈ ps, 0 ∉ p.1 ∧ 45 ∉ p.1 ∧ 0 ∉ p.2) (pars : List (RimIpar δ)) :
    inputParams str2num str2dbl ([38].intercalate (ps.map writePair) ++ 0 :: free) pars =
      ps.foldlM (fun pars p => setPar str2num str2dbl pars p.1 (trim isspace p.2)) pars := by
  have hpiece := fun p hp => writePair_piece (hps p hp).1 (hps p hp).2.1 (hps p hp).2.2
  have hsplit : ([38].intercalate (ps.map writePair)).splitOn 38 = ps.map writePair := by
    apply List.splitOn_intercalate
    · intro l hl hmem
      obtain ⟨p, hp, rfl⟩ := List.mem_map.mp hl
      exact ((hpiece p hp).1.bytes 38 hmem).2 rfl
    · simpa using hne
  have hplain : ∀ q ∈ ([38].intercalate (ps.map writePair)).splitOn 38, PlainPiece q := by
    rw [hsplit]
    exact List.forall_mem_map.mpr fun p hp => (hpiece p hp).1
  have hall : ((ps.map writePair).dropLast.any fun q => !q.contains 61) = false := by
    rw [List.any_eq_false]
    intro q hq
    obtain ⟨p, -, rfl⟩ := List.mem_map.mp ((List.dropLast_subset _) hq)
    simp [writePair]
  have hpairs : piecePairs (ps.map writePair) = ps.map fun p => (p.1, trim isspace p.2) := by
    unfold piecePairs
    rw [List.filterMap_map, List.map_filterMap, ← List.filterMap_eq_map]
    exact List.filterMap_congr fun p hp => (hpiece p hp).2
  have hcontent := decodeContent_eq hfree hplain
  rw [piecesAnswer_eq _ _ (List.splitOn_ne_nil 38 _), hsplit, hall] at hcontent
  obtain ⟨tail, hcontent⟩ := hcontent
  rw [hsplit] at hplain
  have hloop := paramLoop_pieces str2num str2dbl hplain hall [] tail pars
  rw [hpairs, List.foldlM_map] at hloop
  unfold inputParams
  rw [hcontent]
  simp only [bind, Except.bind, List.nil_append, Nat.zero_add]
  exact hloop

end Written

theorem inputParams_written_two : inputParams (fun _ => none) (fun _ => (none : Option Unit))
    ([38].intercalate ([(ascii "a", ascii "1 &="), (ascii "b", ascii "%\n")].map writePair) ++ 0 :: [0])
      [{ name := ascii "a" }, { name := ascii "b" }] =
    [(ascii "a", ascii "1 &="), (ascii "b", ascii "%\n")].foldlM
      (fun pars p => setPar (fun _ => none) (fun _ => none) pars p.1 (trim isspace p.2))
      [{ name := ascii "a" }, { name := ascii "b" }] :=
  inputParams_written _ _ (List.cons_ne_nil _ _) (List.cons_ne_nil _ _) (by decide) _

end RimStone
