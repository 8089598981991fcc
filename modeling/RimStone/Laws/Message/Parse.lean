import RimStone.Message.Message
import RimStone.Laws.Memory.Chars
import RimStone.Laws.Memory.Str
import RimStone.Lib.Trim

/-!
# Reading one item

What `rim_parse_item` makes of the bytes from `msg->curr` on. The bytes before are of no
use any more, so every law has them as they may be, `pre`; what the function nulls, the
`=`, the white space after the key and the byte after the value, it nulls from there on.
-/

namespace RimStone

open RimStone.Lib

/-! ## Keys -/

/-- A key as it is left in the string: the white space after it is nulled. -/
def keyText (k : Bytes) : Bytes :=
  front isspace k ++ (trim isspace k ++ List.replicate (back isspace k).length 0)

@[simp] theorem length_keyText (k : Bytes) : (keyText k).length = k.length := by
  have h := length_front_trim_back isspace k
  simp only [keyText, List.length_append, List.length_replicate]
  exact h

namespace RimMsg

/-- The loop before a key stops at the first byte that is no white space. -/
theorem keyFront_eq {a : Bytes} (ha : ∀ x ∈ a, isspace x = true) {x : UInt8} (hx : ¬ isspace x = true)
    (pre rest : Bytes) (keyLen : Nat) {fuel : Nat} (hfuel : a.length < fuel) :
    keyFront fuel (pre ++ (a ++ x :: rest)) pre.length keyLen = some (pre.length + a.length, keyLen - a.length) := by
  induction a generalizing pre keyLen fuel with
  | nil =>
    obtain ⟨fuel, rfl⟩ : ∃ f, fuel = f + 1 := ⟨fuel - 1, by omega⟩
    simp only [List.nil_append, keyFront, getElem?_middle, bind, Option.bind, if_neg hx]
    rfl
  | cons y a ih =>
    obtain ⟨hy, ha⟩ := List.forall_mem_cons.mp ha
    rw [List.length_cons] at hfuel
    obtain ⟨fuel, rfl⟩ : ∃ f, fuel = f + 1 := ⟨fuel - 1, by omega⟩
    have hlt : a.length < fuel := by omega
    have hih := ih ha (pre ++ [y]) (keyLen - 1) hlt
    simp only [List.append_assoc, List.singleton_append, List.length_append, List.length_singleton] at hih
    simp only [List.cons_append, keyFront, getElem?_middle, bind, Option.bind, if_pos hy]
    rw [hih, List.length_cons]
    congr 2 <;> omega

/-- The loop after a key nulls white space as far back as there is any. -/
theorem keyBack_eq {t : Bytes} (ht : t ≠ []) (hlast : ¬ isspace (t.getLast ht) = true) {b : Bytes}
    (hb : ∀ x ∈ b, isspace x = true) (pre rest : Bytes) (keyLen : Nat) {fuel : Nat}
    (hfuel : b.length < fuel) :
    keyBack fuel (pre ++ (t ++ (b ++ rest))) pre.length (pre.length + t.length + b.length - 1) keyLen =
      some (pre ++ (t ++ (List.replicate b.length 0 ++ rest)), keyLen - b.length) := by
  have htpos : 0 < t.length := List.length_pos_iff.mpr ht
  induction b using List.reverseRecOn generalizing rest keyLen fuel with
  | nil =>
    obtain ⟨fuel, rfl⟩ : ∃ f, fuel = f + 1 := ⟨fuel - 1, by omega⟩
    unfold keyBack
    by_cases hq : pre.length + t.length + ([] : Bytes).length - 1 = pre.length
    · rw [if_pos hq]
      rfl
    · have hget : (pre ++ (t ++ ([] ++ rest)))[pre.length + t.length + ([] : Bytes).length - 1]? =
          some (t.getLast ht) := by
        rw [List.length_nil, List.getElem?_append_right (by omega),
          List.getElem?_append_left (by omega), List.getLast_eq_getElem,
          List.getElem?_eq_getElem (by omega)]
        congr 2
        omega
      rw [if_neg hq, hget]
      simp only [bind, Option.bind, if_neg hlast]
      rfl
  | append_singleton b c ih =>
    have hc : isspace c = true := hb c (List.mem_append_right _ (List.mem_singleton_self c))
    have hbs : ∀ x ∈ b, isspace x = true := by
      intro x hx
      exact hb x (List.mem_append_left _ hx)
    rw [List.length_append, List.length_singleton] at hfuel
    obtain ⟨fuel, rfl⟩ : ∃ f, fuel = f + 1 := ⟨fuel - 1, by omega⟩
    have hlt : b.length < fuel := by omega
    have hih := ih hbs (0 :: rest) (keyLen - 1) hlt
    have hq : pre.length + t.length + (b ++ [c]).length - 1 = (pre ++ (t ++ b)).length := by
      simp only [List.length_append, List.length_singleton]
      omega
    have hsplit : pre ++ (t ++ ((b ++ [c]) ++ rest)) = (pre ++ (t ++ b)) ++ c :: rest := by
      simp only [List.append_assoc, List.singleton_append]
    have hne : (pre ++ (t ++ b)).length ≠ pre.length := by
      simp only [List.length_append]
      omega
    have hprev : (pre ++ (t ++ b)).length - 1 = pre.length + t.length + b.length - 1 := by
      simp only [List.length_append]
      omega
    rw [hq, hsplit, keyBack, if_neg hne]
    simp only [getElem?_middle, poke_middle, bind, Option.bind, if_pos hc]
    rw [hprev, List.append_assoc, List.append_assoc, hih]
    simp only [List.length_append, List.length_singleton, List.replicate_add, List.replicate_one,
      List.append_assoc, List.singleton_append]
    congr 2
    omega

theorem not_isspace_zero : ¬ isspace 0 = true := by decide

/-- A key is trimmed. -/
theorem trimKey_eq (pre k rest : Bytes) :
    trimKey (pre ++ (k ++ 0 :: rest)) pre.length (pre.length + k.length) =
      some (pre ++ (keyText k ++ 0 :: rest), pre.length + (front isspace k).length, (trim isspace k).length) := by
  unfold trimKey
  have hlen := length_front_trim_back isspace k
  by_cases hk : k = []
  · rw [hk, if_pos (by simp)]
    rfl
  have hpos : 0 < k.length := List.length_pos_iff.mpr hk
  rw [if_neg (by omega), Nat.add_sub_cancel_left]
  cases ht : trim isspace k with
  | nil =>
    have hb := back_eq_nil ht
    have hf : front isspace k = k := by
      have h := front_trim_back isspace k
      rwa [ht, hb, List.append_nil, List.append_nil] at h
    have hall : ∀ x ∈ k, isspace x = true := trim_eq_nil_iff.mp ht
    rw [keyFront_eq hall not_isspace_zero pre rest k.length (Nat.lt_succ_self _)]
    simp only [bind, Option.bind, Nat.sub_self, if_true, keyText, ht, hb, hf, List.length_nil,
      List.replicate_zero, List.append_nil]
  | cons x t =>
    have hx := trim_head_not ht
    have hne : trim isspace k ≠ [] := by
      rw [ht]
      exact List.cons_ne_nil _ _
    have hlast := trim_last_not hne
    have hfront : ∀ y ∈ front isspace k, isspace y = true := fun y => of_mem_front
    have hback : ∀ y ∈ back isspace k, isspace y = true := fun y => of_mem_back
    rw [ht, List.length_cons] at hlen
    have hff := keyFront_eq hfront hx pre (t ++ (back isspace k ++ 0 :: rest)) k.length
      (show (front isspace k).length < k.length + 1 by omega)
    have hbb := keyBack_eq hne hlast hback (pre ++ front isspace k) (0 :: rest)
      (k.length - (front isspace k).length) (show (back isspace k).length < k.length + 1 by omega)
    have hsplit : k ++ 0 :: rest =
        front isspace k ++ x :: (t ++ (back isspace k ++ 0 :: rest)) := by
      conv_lhs => rw [← front_trim_back isspace k, ht]
      simp only [List.append_assoc, List.cons_append]
    have hq : (pre ++ front isspace k).length + (trim isspace k).length + (back isspace k).length - 1 =
        pre.length + k.length - 1 := by
      rw [List.length_append, ht, List.length_cons]
      omega
    rw [hq] at hbb
    simp only [ht, List.cons_append, List.append_assoc, List.length_append] at hbb
    rw [hsplit, hff]
    simp only [bind, Option.bind]
    rw [if_neg (by omega), hbb]
    simp only [keyText, ht, List.cons_append, List.append_assoc, List.length_cons]
    congr 3
    omega

/-! ## Items -/

section Item

variable {k hdr v : Bytes} {c : UInt8}

/-- The bytes of a key: `strstr` passes over them. -/
def CleanKey (k : Bytes) : Prop := ∀ x ∈ k, x ≠ 61 ∧ x ≠ 0

def itemLen (hdr : Bytes) : Nat := number 256 ((hdr.take 8).map UInt8.toNat)

/-- The null after a message is a null already. -/
theorem pokeAt_end (pre rest : Bytes) :
    pokeAt (pre ++ (rest ++ [0])) ((pre.length : Int) + (rest.length : Int)) 0 = some (pre ++ (rest ++ [0])) := by
  unfold pokeAt
  have hpos : (0 : Int) ≤ (pre.length : Int) + (rest.length : Int) := by omega
  have hidx : ((pre.length : Int) + (rest.length : Int)).toNat = (pre ++ rest).length := by
    rw [List.length_append]
    omega
  rw [if_pos hpos, hidx, ← List.append_assoc, poke_middle]

/-- There is no `=`. -/
theorem rimParseItem_noEq {rest tail : Bytes} (hk : CleanKey k) (htext : rest ++ [0] = k ++ 0 :: tail) (pre : Bytes) :
    rimParseItem (pre ++ (rest ++ [0])) pre.length rest.length = some (pre ++ (rest ++ [0]), .error .errFormat) := by
  have hnull := strchr_null (c := 61) (by decide) hk pre tail
  rw [← htext] at hnull
  simp only [rimParseItem, pokeAt_end, hnull, bind, Option.bind]

theorem rimParseItem_key (hk : CleanKey k) (body pre : Bytes) :
    rimParseItem (pre ++ ((k ++ 61 :: body) ++ [0])) pre.length ((k ++ 61 :: body).length : Nat) =
      parseValue (pre ++ (keyText k ++ 0 :: (body ++ [0]))) (pre.length + (front isspace k).length)
        (trim isspace k).length (pre.length + k.length + 1) body.length := by
  have hend := pokeAt_end pre (k ++ 61 :: body)
  have hfound := strchr_found hk pre (body ++ [0])
  have hpoke := poke_middle (pre ++ k) 61 (body ++ [0]) 0
  have htrim := trimKey_eq pre k (body ++ [0])
  have hleft : (((k ++ 61 :: body).length : Nat) : Int) - (((pre.length + k.length + 1 : Nat) : Int) - pre.length) =
      body.length := by
    rw [List.length_append, List.length_cons]
    omega
  unfold rimParseItem
  rw [hend]
  simp only [List.append_assoc, List.length_append] at hpoke
  simp only [List.append_assoc, List.cons_append, bind, Option.bind, hfound, hpoke, htrim]
  rw [hleft]

theorem parseValue_short {body : Bytes} (h : body.length < 16) (P tail : Bytes) (key keyLen : Nat) :
    parseValue (P ++ (body ++ tail)) key keyLen P.length body.length =
      some (P ++ (body ++ tail), .error .errFormat) := by
  have hlt : (body.length : Int) < (RIM_ALIGN : Nat) := by
    show (body.length : Int) < ((16 : Nat) : Int)
    omega
  rw [parseValue, if_pos hlt]

theorem be64toh_eq (hhdr : hdr.length = 16) (P rest : Bytes) :
    be64toh (P ++ (hdr ++ rest)) P.length = some (itemLen hdr) := by
  have hroom : P.length + RIM_ALIGN ≤ (P ++ (hdr ++ rest)).length := by
    simp only [List.length_append, RIM_ALIGN]
    omega
  rw [be64toh, if_pos hroom, List.drop_left, List.take_append_of_le_length (by omega)]
  rfl

theorem toRimNum_of_lt {n : Nat} (h : n < 2 ^ 63) : toRimNum n = n := if_pos h

/-- The start of the part after the key, where there is a length. -/
theorem parseValue_header (hhdr : hdr.length = 16) (hlen : itemLen hdr < 2 ^ 63) (rest P : Bytes) (key keyLen : Nat) :
    parseValue (P ++ ((hdr ++ rest) ++ [0])) key keyLen P.length ((hdr ++ rest).length : Nat) =
      (if (rest.length : Int) < (itemLen hdr : Nat) then
        some (P ++ ((hdr ++ rest) ++ [0]), .error .errLength)
      else do
        let c ← peekAt (P ++ ((hdr ++ rest) ++ [0])) (((P.length + 16 : Nat) : Int) + (itemLen hdr : Nat))
        if c ≠ 10 ∧ c ≠ 0 then some (P ++ ((hdr ++ rest) ++ [0]), .error .errLength)
        else do
          let data ← pokeAt (P ++ ((hdr ++ rest) ++ [0])) (((P.length + 16 : Nat) : Int) + (itemLen hdr : Nat)) 0
          some (data, .ok ⟨key, keyLen, P.length + 16, (itemLen hdr : Nat),
            ((P.length + 16 : Nat) : Int) + (itemLen hdr : Nat) + 1⟩)) := by
  have hnot : ¬ (((hdr ++ rest).length : Nat) : Int) < (RIM_ALIGN : Nat) := by
    show ¬ (((hdr ++ rest).length : Nat) : Int) < ((16 : Nat) : Int)
    rw [List.length_append]
    omega
  have hleft : (((hdr ++ rest).length : Nat) : Int) - (RIM_ALIGN : Nat) = (rest.length : Int) := by
    show (((hdr ++ rest).length : Nat) : Int) - ((16 : Nat) : Int) = (rest.length : Int)
    rw [List.length_append]
    omega
  have hbe := be64toh_eq hhdr P (rest ++ [0])
  rw [← List.append_assoc hdr] at hbe
  rw [parseValue, if_neg hnot, hbe]
  simp only [bind, Option.bind, hleft, toRimNum_of_lt hlen]
  rfl

/-- The value is longer than what is left. -/
theorem parseValue_long (hhdr : hdr.length = 16) {rest : Bytes} (hlen : itemLen hdr < 2 ^ 63)
    (hlong : rest.length < itemLen hdr) (P : Bytes) (key keyLen : Nat) :
    parseValue (P ++ ((hdr ++ rest) ++ [0])) key keyLen P.length ((hdr ++ rest).length : Nat) =
      some (P ++ ((hdr ++ rest) ++ [0]), .error .errLength) := by
  rw [parseValue_header hhdr hlen, if_pos (by omega)]

/-- The value ends with a byte that ends none, or with one that does. -/
theorem parseValue_value (hhdr : hdr.length = 16) {rest tail : Bytes} (hlen : itemLen hdr = v.length)
    (hsmall : v.length < 2 ^ 63) (hrest : rest ++ [0] = v ++ c :: tail) (P : Bytes) (key keyLen : Nat) :
    parseValue (P ++ ((hdr ++ rest) ++ [0])) key keyLen P.length ((hdr ++ rest).length : Nat) =
      if c ≠ 10 ∧ c ≠ 0 then some (P ++ ((hdr ++ rest) ++ [0]), .error .errLength)
      else some (P ++ (hdr ++ (v ++ 0 :: tail)), .ok ⟨key, keyLen, P.length + 16, v.length,
        ((P.length + 16 + v.length + 1 : Nat) : Int)⟩) := by
  have hl := congrArg List.length hrest
  simp only [List.length_append, List.length_cons, List.length_nil] at hl
  have hnot : ¬ (rest.length : Int) < (v.length : Nat) := by omega
  have hsplit : P ++ ((hdr ++ rest) ++ [0]) = (P ++ (hdr ++ v)) ++ c :: tail := by
    rw [List.append_assoc hdr, hrest]
    simp only [List.append_assoc]
  have hidx : ((P.length + 16 : Nat) : Int) + (v.length : Nat) = ((P ++ (hdr ++ v)).length : Nat) := by
    simp only [List.length_append]
    omega
  have hpeek : peekAt ((P ++ (hdr ++ v)) ++ c :: tail) ((P ++ (hdr ++ v)).length : Nat) = some c := by
    rw [peekAt, if_pos (by omega), Int.toNat_natCast, getElem?_middle]
  have hpoke : pokeAt ((P ++ (hdr ++ v)) ++ c :: tail) ((P ++ (hdr ++ v)).length : Nat) 0 =
      some ((P ++ (hdr ++ v)) ++ 0 :: tail) := by
    rw [pokeAt, if_pos (by omega), Int.toNat_natCast, poke_middle]
  have hnext : (((P ++ (hdr ++ v)).length : Nat) : Int) + 1 = ((P.length + 16 + v.length + 1 : Nat) : Int) := by
    rw [← hidx]
    omega
  rw [parseValue_header hhdr (by rw [hlen]; exact hsmall), hlen, if_neg hnot, hsplit, hidx, hpeek]
  simp only [bind, Option.bind, hpoke, hnext]
  simp only [List.append_assoc]

end Item

end RimMsg

end RimStone
