import RimStone.Sec.Crypt
import RimStone.Laws.Text.Hex
import RimStone.Laws.Text.Utf
import RimStone.Laws.Text.WriteString

/-!
# Decryption undoes encryption

A block cipher pads: what it makes of data is longer, so that the plaintext with its null is within a block of the
length of the ciphertext. A stream cipher does not, and the null of `rim_decrypt` is written behind the block, always.
What is checked when encrypting, the length of an `iv`, is not when decrypting, and what `Final` answers is not looked
at. So `rim_decrypt` is good for what is good anyway (`rimDecrypt_good_iff`), and for what `rim_encrypt` makes
(`rimEncrypt_undone_iff`).
-/

namespace RimStone

namespace Cipher

variable (c : Cipher)

def encrypted (iv : Option Bytes) (data : Bytes) : Bytes := c.encryptUpdate iv data ++ c.encryptFinal iv data

/-- What is known of ciphers: a block is of 32 bytes at most, `EVP_MAX_BLOCK_LENGTH`; data is padded to full blocks by
one byte at least, but for a stream cipher; less is left of what was padded; and decryption undoes encryption. -/
structure Documented : Prop where
  block_pos : 1 ≤ c.blockSize
  block_le : c.blockSize ≤ 32
  encrypt_length : ∀ iv data, (c.encrypted iv data).length =
    if c.blockSize = 1 then data.length else data.length + (c.blockSize - data.length % c.blockSize)
  decrypt_length : ∀ iv data out, c.decryptFinal iv data = some out →
    if c.blockSize = 1 then (c.decryptUpdate iv data ++ out).length = data.length
    else (c.decryptUpdate iv data ++ out).length < data.length
  decrypt_encrypt : ∀ iv data, ∃ out, c.decryptFinal iv (c.encrypted iv data) = some out ∧
    c.decryptUpdate iv (c.encrypted iv data) ++ out = data

/-- An `iv` that is not long enough. -/
def IvShort (iv : Option Bytes) : Prop := ∃ b, iv = some b ∧ b.length < c.ivLength

/-- The bytes of an `iv` that are read. -/
def ivUsed (iv : Option Bytes) : Option Bytes := iv.map fun b => (b ++ [0]).take c.ivLength

end Cipher

variable {c : Cipher} {iv : Option Bytes} {isBinary : Bool}

def Refused (r : Except (Fault Unit) Bytes) : Prop := ∃ message, r = .error (.report message ())

theorem ok_then {α β : Type} (a : α) (f : α → Except (Fault Unit) β) : (Except.ok a >>= f) = f a := rfl

theorem error_then {α β : Type} (e : Fault Unit) (f : α → Except (Fault Unit) β) : (Except.error e >>= f) = .error e :=
  rfl

theorem some_then {α β : Type} (a : α) (f : α → Option β) : (some a >>= f) = f a := rfl

/-! ## Blocks -/

theorem toInt32_eq_bmod (n : Int) : toInt32 n = n.bmod (2 ^ 32) := by
  unfold toInt32
  rw [Int.bmod_def]
  push_cast
  split <;> omega

/-- Both pieces are written if there is room. -/
theorem cryptInto_eq (block update final : Bytes) : cryptInto block update final =
    if (update ++ final).length ≤ block.length then
      some (update ++ final ++ block.drop (update ++ final).length, (update ++ final).length)
    else none := by
  unfold cryptInto
  by_cases hupdate : update.length ≤ block.length
  · have hfirst : memcpy block 0 update = some (update ++ block.drop update.length) := memcpy_append [] hupdate
    rw [hfirst]
    simp only [bind, Option.bind]
    by_cases hfinal : final.length ≤ (block.drop update.length).length
    · rw [memcpy_append update hfinal, List.drop_drop, if_pos, List.length_append]
      rw [List.length_drop] at hfinal
      rw [List.length_append]
      omega
    · have hnone : memcpy (update ++ block.drop update.length) update.length final = none := by
        unfold memcpy
        rw [if_neg]
        rw [List.length_append]
        omega
      rw [hnone, if_neg]
      rw [List.length_drop] at hfinal
      rw [List.length_append]
      omega
  · have hnone : memcpy block 0 update = none := by
      unfold memcpy
      rw [if_neg]
      omega
    rw [hnone, if_neg]
    · rfl
    · rw [List.length_append]
      omega

/-- The null is written if there is room for it. -/
theorem cryptEnd_eq (text rest : Bytes) :
    cryptEnd (text ++ rest) text.length = if rest = [] then none else some text := by
  unfold cryptEnd
  cases rest with
  | nil =>
    have hnone : poke (text ++ []) text.length 0 = none := by
      unfold poke
      rw [if_neg]
      rw [List.append_nil]
      exact Nat.lt_irrefl _
    rw [hnone]
    rfl
  | cons x rest =>
    rw [poke_middle]
    simp only [bind, Option.bind]
    rw [List.take_left]
    rfl

theorem cryptText_eq (block update final : Bytes) : cryptText block update final =
    if (update ++ final).length < block.length then some (update ++ final) else none := by
  unfold cryptText
  rw [cryptInto_eq]
  by_cases hroom : (update ++ final).length ≤ block.length
  · rw [if_pos hroom]
    simp only [bind, Option.bind]
    rw [cryptEnd_eq]
    by_cases hnull : (update ++ final).length < block.length
    · rw [if_pos hnull, if_neg (fun hnil => Nat.not_le_of_lt hnull (List.drop_eq_nil_iff.mp hnil))]
    · rw [if_neg hnull, if_pos (List.drop_eq_nil_iff.mpr (Nat.not_lt.mp hnull))]
  · rw [if_neg hroom, if_neg (fun h => hroom (Nat.le_of_lt h))]
    rfl

theorem cryptBlock_of_nonneg {size : Int} (h : 0 ≤ size) : cryptBlock size = .ok (List.replicate size.toNat 0) :=
  if_neg (Int.not_lt.mpr h)

theorem cryptBlock_natCast (n : Nat) : cryptBlock n = .ok (List.replicate n 0) :=
  cryptBlock_of_nonneg (Int.natCast_nonneg n)

/-- What a call of OpenSSL is given of data with something behind it. -/
theorem evpInput_append (data rest : Bytes) : evpInput (data ++ rest) data.length =
    if 0 ≤ toInt32 data.length then some (data.take (toInt32 data.length).toNat) else none := by
  have hle : toInt32 data.length ≤ data.length := by
    unfold toInt32
    omega
  unfold evpInput
  dsimp only
  rw [← toInt32_eq_bmod, List.length_append]
  by_cases hpos : 0 ≤ toInt32 data.length
  · rw [if_pos ⟨hpos, by omega⟩, if_pos hpos, List.take_append_of_le_length (by omega)]
  · rw [if_neg (fun h => hpos h.1), if_neg hpos]

/-! ## Digits -/

/-- Two digits for each byte; one that is left is no pair. -/
def cryptPairs : Bytes → Bytes
  | x :: y :: s => cryptByte x y :: cryptPairs s
  | [_] => []
  | [] => []

theorem length_cryptPairs (s : Bytes) : (cryptPairs s).length = s.length / 2 := by
  induction s using cryptPairs.induct with
  | case1 x y s ih =>
    rw [cryptPairs, List.length_cons, ih, List.length_cons, List.length_cons]
    omega
  | case2 x => simp [cryptPairs]
  | case3 => simp [cryptPairs]

/-- A byte is written for every two digits, the last of which may be alone. -/
theorem cryptHexLoop_eq (fuel : Nat) (pre src out free : Bytes) (n : Nat) (h : n + n % 2 ≤ src.length)
    (hfree : (n + 1) / 2 ≤ free.length) (hfuel : n < fuel) :
    cryptHexLoop (pre ++ src) (pre.length + n) fuel (out ++ free) pre.length out.length =
      some (out ++ cryptPairs (src.take (n + n % 2)) ++ free.drop ((n + 1) / 2), out.length + (n + 1) / 2) := by
  induction fuel generalizing pre src out free n with
  | zero => omega
  | succ fuel ih =>
    rw [cryptHexLoop]
    by_cases hn : n = 0
    · subst hn
      rw [if_neg (by omega), List.take_zero, cryptPairs, List.append_nil]
      rfl
    · obtain ⟨x, y, src, rfl⟩ : ∃ x y t, src = x :: y :: t := by
        cases src with
        | nil => exact absurd h (by simp; omega)
        | cons x src =>
          cases src with
          | nil =>
            rw [List.length_singleton] at h
            omega
          | cons y src => exact ⟨x, y, src, rfl⟩
      obtain ⟨z, free, rfl⟩ := List.exists_cons_of_length_pos (show 0 < free.length by omega)
      rw [List.length_cons, List.length_cons] at h
      rw [List.length_cons] at hfree
      have hsecond : (pre ++ x :: y :: src)[pre.length + 1]? = some y := by
        rw [List.getElem?_append_right (Nat.le_add_right _ _), Nat.add_sub_cancel_left]
        rfl
      rw [if_pos (by omega), getElem?_middle, hsecond]
      simp only [bind, Option.bind]
      rw [poke_middle]
      simp only
      have hmem : pre ++ x :: y :: src = (pre ++ [x, y]) ++ src := by
        rw [List.append_assoc]
        rfl
      have hout : out ++ cryptByte x y :: free = (out ++ [cryptByte x y]) ++ free := by
        rw [List.append_assoc]
        rfl
      have hpre : (pre ++ [x, y]).length = pre.length + 2 := by
        rw [List.length_append]
        rfl
      have hlen : (out ++ [cryptByte x y]).length = out.length + 1 := by
        rw [List.length_append]
        rfl
      rw [hmem, hout, ← hpre, ← hlen]
      by_cases hone : n = 1
      · -- the last digit is alone
        subst hone
        obtain ⟨fuel, rfl⟩ := Nat.exists_eq_succ_of_ne_zero (show fuel ≠ 0 by omega)
        rw [cryptHexLoop, if_neg (by omega)]
        have hpair : cryptPairs ((x :: y :: src).take (1 + 1 % 2)) = [cryptByte x y] := by
          show cryptPairs [x, y] = _
          rw [cryptPairs, cryptPairs]
        rw [hlen, hpair]
        rfl
      · obtain ⟨m, rfl⟩ : ∃ m, n = m + 2 := ⟨n - 2, by omega⟩
        have hstep := ih (pre ++ [x, y]) src (out ++ [cryptByte x y]) free m (by omega) (by omega) (by omega)
        have hidx : pre.length + (m + 2) = (pre ++ [x, y]).length + m := by omega
        have htake : m + 2 + (m + 2) % 2 = m + m % 2 + 2 := by omega
        have hdrop : (m + 2 + 1) / 2 = (m + 1) / 2 + 1 := by omega
        rw [hidx, hstep, htake, List.take_succ_cons, List.take_succ_cons, cryptPairs, hdrop, List.drop_succ_cons, hlen,
          List.append_assoc out, Nat.add_assoc, Nat.add_comm 1]
        rfl

/-- The digits of a byte are its two halves. -/
theorem cryptByte_byteHex (x : UInt8) : ∃ a b, byteHex x = [a, b] ∧ cryptByte a b = x := by
  have hdigit : ∀ i < 16, rimCharFromHex (rimToHex i) = i := by decide
  refine ⟨_, _, rfl, ?_⟩
  unfold cryptByte
  rw [hdigit _ (Nat.mod_lt _ (by omega)), hdigit _ (Nat.mod_lt _ (by omega))]
  have hx := x.toNat_lt
  have hsum : ((x.toNat / 16 % 16 : Nat) : Int) * 16 + (x.toNat % 16 : Nat) = (x.toNat : Nat) := by omega
  rw [hsum, ofInt_natCast, UInt8.ofNat_toNat]

theorem cryptPairs_flatMap (s : Bytes) : cryptPairs (s.flatMap byteHex) = s := by
  induction s with
  | nil => rw [List.flatMap_nil, cryptPairs]
  | cons x s ih =>
    obtain ⟨a, b, hdigits, hbyte⟩ := cryptByte_byteHex x
    rw [List.flatMap_cons, hdigits]
    show cryptPairs (a :: b :: s.flatMap byteHex) = _
    rw [cryptPairs, hbyte, ih]

/-! ## The answer of `rim_encrypt` -/

def cryptForm (isBinary : Bool) (text : Bytes) : Bytes := if isBinary then text else text.flatMap byteHex

theorem encryptAnswer_binary (text rest : Bytes) : encryptAnswer (text ++ rest) text.length true =
    if rest = [] then .error .undefined else .ok text := by
  unfold encryptAnswer
  rw [if_pos rfl, cryptEnd_eq]
  split <;> rfl

theorem encryptAnswer_hex (text rest : Bytes) :
    encryptAnswer (text ++ rest) text.length false = .ok (text.flatMap byteHex) := by
  have hloop := bin2hexLoop_eq (n := text.length) (text.length + 1) [] [] (List.replicate (2 * text.length + 1) 0)
    (show text.length ≤ (text ++ rest).length by rw [List.length_append]; omega)
    (by rw [List.length_replicate]; omega) (Nat.lt_succ_self _)
  rw [List.nil_append, List.nil_append, List.nil_append, List.length_nil, Nat.zero_add, List.take_left] at hloop
  unfold encryptAnswer
  rw [if_neg Bool.false_ne_true, cryptBlock_natCast]
  simp only [bind, Except.bind, Option.bind]
  rw [hloop]
  simp only
  rw [cryptEnd_eq, if_neg]
  · rfl
  · intro hnil
    have hlen := congrArg List.length hnil
    rw [List.length_drop, List.length_replicate, List.length_nil] at hlen
    omega

/-! ## The bytes that are decrypted -/

/-- What `cipher_bin` holds. -/
def cryptData (ciphertext : Bytes) (n : Nat) (isBinary : Bool) : Bytes :=
  if isBinary then ciphertext.take n else cryptPairs ((ciphertext ++ [0]).take (n + n % 2))

variable {ciphertext data : Bytes}

theorem cryptBinary_eq {n : Nat} (h : n ≤ ciphertext.length) (isBinary : Bool) :
    ∃ rest, cryptBinary ciphertext n isBinary =
      .ok (cryptData ciphertext n isBinary ++ rest, (cryptData ciphertext n isBinary).length) := by
  unfold cryptBinary cryptData
  cases isBinary with
  | true =>
    refine ⟨ciphertext.drop n ++ [0], ?_⟩
    rw [if_pos rfl, if_pos rfl, ← List.append_assoc, List.take_append_drop, List.length_take, Nat.min_eq_left h]
  | false =>
    have hlength : (cryptPairs ((ciphertext ++ [0]).take (n + n % 2))).length = (n + 1) / 2 := by
      rw [length_cryptPairs, List.length_take, List.length_append, List.length_singleton]
      omega
    have hloop := cryptHexLoop_eq (n + 1) [] (ciphertext ++ [0]) [] (List.replicate (n / 2 + 2) 0) n
      (by rw [List.length_append, List.length_singleton]; omega) (by rw [List.length_replicate]; omega)
      (Nat.lt_succ_self n)
    rw [List.nil_append, List.nil_append, List.nil_append, List.length_nil, Nat.zero_add, Nat.zero_add] at hloop
    obtain ⟨x, free, hfree⟩ := List.exists_cons_of_length_pos
      (show 0 < ((List.replicate (n / 2 + 2) (0 : UInt8)).drop ((n + 1) / 2)).length by
        rw [List.length_drop, List.length_replicate]
        omega)
    refine ⟨0 :: free, ?_⟩
    rw [if_neg Bool.false_ne_true, if_neg Bool.false_ne_true, cryptBlock_natCast]
    simp only [bind, Except.bind, Option.bind]
    rw [hloop, hfree]
    simp only
    rw [← hlength, poke_middle]
    rfl

/-! ## `rim_decrypt` -/

/-- What of the data there is room for, where its length is put into an `int`. -/
def cryptSeen (data : Bytes) : Bytes := data.take (toInt32 data.length).toNat

theorem length_cryptSeen (data : Bytes) : (cryptSeen data).length = (toInt32 data.length).toNat := by
  have hle : toInt32 data.length ≤ data.length := by
    unfold toInt32
    omega
  unfold cryptSeen
  rw [List.length_take]
  omega

theorem cryptSeen_eq (h : data.length < 2 ^ 31) : cryptSeen data = data := by
  unfold cryptSeen
  rw [toInt32_eq (by omega) (by omega), Int.toNat_natCast, List.take_length]

/-- All that is made of a ciphertext, where a failure makes nothing. -/
def Cipher.decrypted (c : Cipher) (iv : Option Bytes) (data : Bytes) : Bytes :=
  c.decryptUpdate iv data ++ (c.decryptFinal iv data).getD []

theorem ivRead_ok (h : ¬ c.IvShort iv) : c.ivRead iv = .ok (c.ivUsed iv) := by
  cases iv with
  | none => rfl
  | some b =>
    have hlong : c.ivLength ≤ b.length := Nat.not_lt.mp fun hlt => h ⟨b, rfl, hlt⟩
    exact if_pos (Nat.le_succ_of_le hlong)

/-- To read an `iv` is no error that is reported. -/
theorem ivRead_cases (c : Cipher) (iv : Option Bytes) :
    c.ivRead iv = .error .undefined ∨ c.ivRead iv = .ok (c.ivUsed iv) := by
  cases iv with
  | none => exact .inr rfl
  | some b =>
    rw [Cipher.ivRead]
    split
    next => exact .inr rfl
    next => exact .inl rfl

theorem decryptBinary_unread (rest : Bytes) (hlen : 0 ≤ toInt32 data.length) (hiv : c.ivRead iv = .error .undefined) :
    decryptBinary c (data ++ rest) data.length iv = .error .undefined := by
  unfold decryptBinary
  rw [cryptBlock_of_nonneg hlen, ok_then, hiv, error_then]

/-- A block of the length of the data, for what is made of it and a null. -/
theorem decryptBinary_eq (rest : Bytes) (hlen : 0 ≤ toInt32 data.length) (hiv : c.ivRead iv = .ok (c.ivUsed iv)) :
    decryptBinary c (data ++ rest) data.length iv =
      if (c.decrypted (c.ivUsed iv) (cryptSeen data)).length < (cryptSeen data).length then
        .ok (c.decrypted (c.ivUsed iv) (cryptSeen data))
      else .error .undefined := by
  unfold decryptBinary
  rw [cryptBlock_of_nonneg hlen, ok_then, hiv, ok_then, evpInput_append, if_pos hlen, ← cryptSeen, some_then,
    cryptText_eq, List.length_replicate, ← length_cryptSeen data, ← Cipher.decrypted]
  by_cases hroom : (c.decrypted (c.ivUsed iv) (cryptSeen data)).length < (cryptSeen data).length
  · rw [if_pos hroom, if_pos hroom, inCrypt]
  · rw [if_neg hroom, if_neg hroom, inCrypt]

theorem decryptBinary_refused (rest : Bytes) (hlen : toInt32 data.length < 0) :
    Refused (decryptBinary c (data ++ rest) data.length iv) := by
  unfold decryptBinary cryptBlock
  rw [if_pos hlen, error_then]
  exact ⟨_, rfl⟩

theorem cryptLength_ok {s : Bytes} {len : Option Nat} {n : Nat} (h : cryptLength s len = .ok n) : n ≤ s.length := by
  cases len with
  | none =>
    cases h
    exact Nat.le_refl _
  | some k =>
    rw [cryptLength] at h
    split at h
    next => cases h
    next hle =>
      cases h
      exact Nat.not_lt.mp hle

theorem rimDecrypt_eq (c : Cipher) (iv : Option Bytes) (isBinary : Bool) {len : Option Nat} {n : Nat}
    (h : cryptLength ciphertext len = .ok n) :
    ∃ rest, rimDecrypt c ciphertext len isBinary iv =
      decryptBinary c (cryptData ciphertext n isBinary ++ rest) (cryptData ciphertext n isBinary).length iv := by
  obtain ⟨rest, hbin⟩ := cryptBinary_eq (cryptLength_ok h) isBinary
  refine ⟨rest, ?_⟩
  unfold rimDecrypt
  rw [h]
  simp only [bind, Except.bind]
  rw [hbin]

/-- A ciphertext is good or refused: nothing is read or written out of place, an `iv` that is too short is refused, and
so is what `Final` refuses. -/
def GoodOrRefused (c : Cipher) (ciphertext : Bytes) (len : Option Nat) (isBinary : Bool) (iv : Option Bytes) : Prop :=
  rimDecrypt c ciphertext len isBinary iv ≠ .error .undefined ∧
    (c.IvShort iv → Refused (rimDecrypt c ciphertext len isBinary iv)) ∧
    ∀ n, cryptLength ciphertext len = .ok n →
      c.decryptFinal (c.ivUsed iv) (cryptSeen (cryptData ciphertext n isBinary)) = none →
      Refused (rimDecrypt c ciphertext len isBinary iv)

theorem not_refused_ok {text : Bytes} : ¬ Refused (.ok text) := by
  intro h
  obtain ⟨message, hm⟩ := h
  cases hm

theorem Refused.inside {r : Except (Fault Unit) Bytes} (h : Refused r) : r ≠ .error .undefined := by
  intro hundef
  obtain ⟨message, hm⟩ := h
  rw [hundef] at hm
  cases hm

/-- After the block was allocated nothing is refused. -/
theorem decryptBinary_not_refused (c : Cipher) (iv : Option Bytes) (rest : Bytes) (hlen : 0 ≤ toInt32 data.length) :
    ¬ Refused (decryptBinary c (data ++ rest) data.length iv) := by
  obtain hundef | hok := ivRead_cases c iv
  · rw [decryptBinary_unread rest hlen hundef]
    exact fun h => h.inside rfl
  · rw [decryptBinary_eq rest hlen hok]
    split
    next => exact not_refused_ok
    next => exact fun h => h.inside rfl

/-- With an `iv` that is long enough, and a block cipher that accepts the data, the block is large enough. -/
theorem Cipher.Documented.decryptBinary_ok (hc : c.Documented) (rest : Bytes) (hlen : 0 ≤ toInt32 data.length)
    (hlong : ¬ c.IvShort iv) (hblock : c.blockSize ≠ 1) (hsome : c.decryptFinal (c.ivUsed iv) (cryptSeen data) ≠ none) :
    decryptBinary c (data ++ rest) data.length iv = .ok (c.decrypted (c.ivUsed iv) (cryptSeen data)) := by
  obtain ⟨out, hout⟩ := Option.ne_none_iff_exists'.mp hsome
  have hlength := hc.decrypt_length _ _ out hout
  rw [if_neg hblock] at hlength
  have hroom : (c.decrypted (c.ivUsed iv) (cryptSeen data)).length < (cryptSeen data).length := by
    rw [Cipher.decrypted, hout, Option.getD_some]
    exact hlength
  rw [decryptBinary_eq rest hlen (ivRead_ok hlong), if_pos hroom]

/-- A stream cipher that accepts the data leaves no room for the null. -/
theorem Cipher.Documented.decryptBinary_stream (hc : c.Documented) (rest : Bytes) (hlen : 0 ≤ toInt32 data.length)
    (hstream : c.blockSize = 1) (hsome : c.decryptFinal (c.ivUsed iv) (cryptSeen data) ≠ none) :
    decryptBinary c (data ++ rest) data.length iv = .error .undefined := by
  obtain hundef | hok := ivRead_cases c iv
  · exact decryptBinary_unread rest hlen hundef
  · obtain ⟨out, hout⟩ := Option.ne_none_iff_exists'.mp hsome
    have hlength := hc.decrypt_length _ _ out hout
    rw [if_pos hstream] at hlength
    have hroom : ¬ (c.decrypted (c.ivUsed iv) (cryptSeen data)).length < (cryptSeen data).length := by
      rw [Cipher.decrypted, hout, Option.getD_some, hlength]
      exact Nat.lt_irrefl _
    rw [decryptBinary_eq rest hlen hok, if_neg hroom]

theorem rimDecrypt_long (c : Cipher) (isBinary : Bool) (iv : Option Bytes) {len : Option Nat}
    (h : ∀ n, cryptLength ciphertext len ≠ .ok n) :
    Refused (rimDecrypt c ciphertext len isBinary iv) := by
  cases len with
  | none => exact absurd rfl (h _)
  | some k =>
    unfold rimDecrypt
    rw [cryptLength]
    by_cases hlong : k > ciphertext.length
    · rw [if_pos hlong]
      exact ⟨_, rfl⟩
    · exact absurd (if_neg hlong) (h k)

/-- It is so for too much, of which there is none, for what has no length in an `int`, and for what a block cipher
accepts with an `iv` that is long enough. -/
theorem rimDecrypt_good_iff (hc : c.Documented) {len : Option Nat} :
    GoodOrRefused c ciphertext len isBinary iv ↔ ∀ n, cryptLength ciphertext len = .ok n →
      toInt32 (cryptData ciphertext n isBinary).length < 0 ∨ (¬ c.IvShort iv ∧ c.blockSize ≠ 1 ∧
        c.decryptFinal (c.ivUsed iv) (cryptSeen (cryptData ciphertext n isBinary)) ≠ none) := by
  constructor
  · intro h n hn
    obtain ⟨hinside, hshort, hfinal⟩ := h
    obtain ⟨rest, heq⟩ := rimDecrypt_eq c iv isBinary hn
    have hfinal := hfinal n hn
    rw [heq] at hinside hshort hfinal
    generalize cryptData ciphertext n isBinary = data at *
    obtain hneg | hlen := Int.lt_or_le (toInt32 data.length) 0
    · exact .inl hneg
    · have hno := decryptBinary_not_refused c iv rest hlen
      have hsome : c.decryptFinal (c.ivUsed iv) (cryptSeen data) ≠ none := fun hnone => hno (hfinal hnone)
      refine .inr ⟨fun hs => hno (hshort hs), fun hstream => ?_, hsome⟩
      exact hinside (hc.decryptBinary_stream rest hlen hstream hsome)
  · intro h
    by_cases hlong : ∀ n, cryptLength ciphertext len ≠ .ok n
    · have hrefused := rimDecrypt_long c isBinary iv hlong
      exact ⟨hrefused.inside, fun _ => hrefused, fun _ _ _ => hrefused⟩
    · obtain ⟨n, hn⟩ := not_forall_not.mp hlong
      obtain ⟨rest, heq⟩ := rimDecrypt_eq c iv isBinary hn
      obtain hneg | ⟨hivlong, hblock, hsome⟩ := h n hn
      · have hrefused : Refused (rimDecrypt c ciphertext len isBinary iv) := by
          rw [heq]
          exact decryptBinary_refused rest hneg
        exact ⟨hrefused.inside, fun _ => hrefused, fun _ _ _ => hrefused⟩
      · obtain hneg | hlen := Int.lt_or_le (toInt32 (cryptData ciphertext n isBinary).length) 0
        · have hrefused : Refused (rimDecrypt c ciphertext len isBinary iv) := by
            rw [heq]
            exact decryptBinary_refused rest hneg
          exact ⟨hrefused.inside, fun _ => hrefused, fun _ _ _ => hrefused⟩
        · rw [GoodOrRefused, heq, hc.decryptBinary_ok rest hlen hivlong hblock hsome]
          refine ⟨fun herror => ?_, fun hs => absurd hs hivlong, fun k hk hnone => ?_⟩
          · cases herror
          · cases hn.symm.trans hk
            exact absurd hnone hsome

/-! ## `rim_encrypt` -/

theorem ivChecked_ok (h : ¬ c.IvShort iv) : c.ivChecked iv = .ok () := by
  cases iv with
  | none => rfl
  | some b => exact if_neg fun hlt => h ⟨b, rfl, hlt⟩

theorem ivChecked_short (h : c.IvShort iv) : c.ivChecked iv = .error
    (.report "Length of Initialization Vector (IV) must be [%d] but only [%ld] allocated" ()) := by
  obtain ⟨b, rfl, hlt⟩ := h
  exact if_pos hlt

/-- The size of the block of `rim_encrypt`, which is counted in an `int`. -/
def encryptSize (c : Cipher) (n : Nat) : Int := toInt32 (n + c.blockSize) + 1

theorem intSucc_eq (n : Int) : intSucc n = if n + 1 < 2 ^ 31 then .ok (n + 1) else .error .undefined := rfl

/-- What is written into the block of `rim_encrypt`, and answered. -/
def encryptInto (c : Cipher) (plaintext : Bytes) (n : Nat) (isBinary : Bool) (iv : Option Bytes) (block : Bytes) :
    Except (Fault Unit) Bytes := do
  let (ciphertext, len) ← inCrypt do
    let data ← evpInput (plaintext ++ [0]) n
    cryptInto block (c.encryptUpdate iv data) (c.encryptFinal iv data)
  encryptAnswer ciphertext len isBinary

section

variable {plaintext : Bytes} {len : Option Nat} {n : Nat} (h : cryptLength plaintext len = .ok n)

include h

/-- The size of the block is not in the range of `int`. -/
theorem rimEncrypt_overflow (hsize : ¬ encryptSize c n < 2 ^ 31) :
    rimEncrypt c plaintext len isBinary iv = .error .undefined := by
  unfold rimEncrypt
  rw [h, ok_then, intSucc_eq, ← encryptSize, if_neg hsize, error_then]

theorem rimEncrypt_memory (hsize : encryptSize c n < 0) : Refused (rimEncrypt c plaintext len isBinary iv) := by
  unfold rimEncrypt
  rw [h, ok_then, intSucc_eq, ← encryptSize, if_pos (by omega), ok_then, cryptBlock, if_pos hsize, error_then]
  exact ⟨_, rfl⟩

theorem rimEncrypt_short (hlow : 0 ≤ encryptSize c n) (hsize : encryptSize c n < 2 ^ 31) (hshort : c.IvShort iv) :
    Refused (rimEncrypt c plaintext len isBinary iv) := by
  unfold rimEncrypt
  rw [h, ok_then, intSucc_eq, ← encryptSize, if_pos hsize, ok_then, cryptBlock_of_nonneg hlow, ok_then,
    ivChecked_short hshort, error_then]
  exact ⟨_, rfl⟩

theorem rimEncrypt_eq (hlow : 0 ≤ encryptSize c n) (hsize : encryptSize c n < 2 ^ 31) (hlong : ¬ c.IvShort iv) :
    rimEncrypt c plaintext len isBinary iv =
      encryptInto c plaintext n isBinary (c.ivUsed iv) (List.replicate (encryptSize c n).toNat 0) := by
  unfold rimEncrypt encryptInto
  rw [h, ok_then, intSucc_eq, ← encryptSize, if_pos hsize, ok_then, cryptBlock_of_nonneg hlow, ok_then,
    ivChecked_ok hlong, ok_then, ivRead_ok hlong, ok_then]

end

theorem toInt32_le (n : Nat) : toInt32 n ≤ n := by
  unfold toInt32
  omega

/-- What is written is answered in its form, if the bytes asked for can be counted and there is room for what is made
of them, in binary form with a null. -/
theorem encryptInto_eq {plaintext : Bytes} {n k : Nat} (hk : toInt32 n = k) (block : Bytes) (hn : n ≤ plaintext.length) :
    encryptInto c plaintext n isBinary iv block =
      if (c.encrypted iv (plaintext.take k)).length + (if isBinary then 1 else 0) ≤ block.length then
        .ok (cryptForm isBinary (c.encrypted iv (plaintext.take k)))
      else .error .undefined := by
  have hkn : k ≤ n := by
    have hle := toInt32_le n
    omega
  have hinput : evpInput (plaintext ++ [0]) n = some (plaintext.take k) := by
    have happ := evpInput_append (plaintext.take n) (plaintext.drop n ++ [0])
    rw [← List.append_assoc, List.take_append_drop, List.length_take, Nat.min_eq_left hn, hk,
      if_pos (Int.natCast_nonneg k), Int.toNat_natCast, List.take_take, Nat.min_eq_left hkn] at happ
    exact happ
  unfold encryptInto
  rw [hinput, some_then, cryptInto_eq, ← Cipher.encrypted]
  by_cases hroom : (c.encrypted iv (plaintext.take k)).length ≤ block.length
  · rw [if_pos hroom, inCrypt, ok_then]
    cases isBinary with
    | false =>
      rw [if_pos (by exact hroom), cryptForm, if_neg Bool.false_ne_true]
      exact encryptAnswer_hex _ _
    | true =>
      show encryptAnswer _ _ true = _
      rw [encryptAnswer_binary, cryptForm, if_pos rfl, if_pos rfl]
      by_cases hnull : (c.encrypted iv (plaintext.take k)).length + 1 ≤ block.length
      · rw [if_pos hnull, if_neg (fun hnil => Nat.not_le_of_lt hnull (List.drop_eq_nil_iff.mp hnil))]
      · rw [if_neg hnull, if_pos (List.drop_eq_nil_iff.mpr (by omega))]
  · rw [if_neg hroom, if_neg (fun h => hroom (Nat.le_trans (Nat.le_add_right _ _) h)), inCrypt, error_then]

/-- A length that is not the one given. -/
theorem encryptInto_uncounted {plaintext : Bytes} {n : Nat} (hneg : toInt32 n < 0) (block : Bytes)
    (hn : n ≤ plaintext.length) : encryptInto c plaintext n isBinary iv block = .error .undefined := by
  have hinput : evpInput (plaintext ++ [0]) n = none := by
    have happ := evpInput_append (plaintext.take n) (plaintext.drop n ++ [0])
    rw [← List.append_assoc, List.take_append_drop, List.length_take, Nat.min_eq_left hn,
      if_neg (Int.not_le.mpr hneg)] at happ
    exact happ
  unfold encryptInto
  rw [hinput]
  rfl

/-! ## There and back -/

/-- What was encrypted comes back, from either form, if it is not too long for an `int`. -/
theorem Cipher.Documented.decrypt_form (hc : c.Documented) (hlong : ¬ c.IvShort iv)
    (hlen : (c.encrypted (c.ivUsed iv) data).length < 2 ^ 31) :
    rimDecrypt c (cryptForm isBinary (c.encrypted (c.ivUsed iv) data)) none isBinary iv =
      if c.blockSize = 1 then .error .undefined else .ok data := by
  have hform : cryptData (cryptForm isBinary (c.encrypted (c.ivUsed iv) data))
      (cryptForm isBinary (c.encrypted (c.ivUsed iv) data)).length isBinary = c.encrypted (c.ivUsed iv) data := by
    unfold cryptData cryptForm
    cases isBinary with
    | true => exact List.take_length
    | false =>
      rw [if_neg Bool.false_ne_true, if_neg Bool.false_ne_true]
      have heven : ((c.encrypted (c.ivUsed iv) data).flatMap byteHex).length % 2 = 0 := by
        rw [length_flatMap_byteHex]
        omega
      rw [heven, Nat.add_zero, List.take_left, cryptPairs_flatMap]
  have hwhole : cryptLength (cryptForm isBinary (c.encrypted (c.ivUsed iv) data)) none =
      .ok (cryptForm isBinary (c.encrypted (c.ivUsed iv) data)).length := rfl
  obtain ⟨rest, heq⟩ := rimDecrypt_eq c iv isBinary hwhole
  rw [heq, hform]
  obtain ⟨out, hout, hback⟩ := hc.decrypt_encrypt (c.ivUsed iv) data
  have hsize : 0 ≤ toInt32 (c.encrypted (c.ivUsed iv) data).length := by
    rw [toInt32_eq (by omega) (by omega)]
    exact Int.natCast_nonneg _
  have hsome : c.decryptFinal (c.ivUsed iv) (cryptSeen (c.encrypted (c.ivUsed iv) data)) ≠ none := by
    rw [cryptSeen_eq hlen, hout]
    exact Option.some_ne_none out
  by_cases hstream : c.blockSize = 1
  · rw [if_pos hstream]
    exact hc.decryptBinary_stream rest hsize hstream hsome
  · rw [if_neg hstream, hc.decryptBinary_ok rest hsize hlong hstream hsome, cryptSeen_eq hlen, Cipher.decrypted, hout,
      Option.getD_some, hback]

/-- Encryption is undone: an `iv` that is too short is refused, and with any other the bytes asked for come back from
what `rim_encrypt` answers. -/
def Undone (c : Cipher) (plaintext : Bytes) (len : Option Nat) (isBinary : Bool) (iv : Option Bytes) : Prop :=
  (c.IvShort iv → Refused (rimEncrypt c plaintext len isBinary iv)) ∧
    (¬ c.IvShort iv → ∀ n, cryptLength plaintext len = .ok n →
      ∃ x, rimEncrypt c plaintext len isBinary iv = .ok x ∧ rimDecrypt c x none isBinary iv = .ok (plaintext.take n))

section

variable {plaintext : Bytes} {len : Option Nat} {n : Nat} (h : cryptLength plaintext len = .ok n)

include h

/-- What comes back is what was encrypted only if the cipher pads and the size of the block can be counted. -/
theorem Cipher.Documented.of_undone (hc : c.Documented) (hlong : ¬ c.IvShort iv) {x : Bytes}
    (henc : rimEncrypt c plaintext len isBinary iv = .ok x)
    (hdec : rimDecrypt c x none isBinary iv = .ok (plaintext.take n)) :
    c.blockSize ≠ 1 ∧ n + c.blockSize + 1 < 2 ^ 31 := by
  have hn := cryptLength_ok h
  have hsize : encryptSize c n < 2 ^ 31 := by
    by_contra hover
    cases henc.symm.trans (rimEncrypt_overflow h hover)
  have hlow : 0 ≤ encryptSize c n := by
    by_contra hneg
    exact not_refused_ok (henc ▸ rimEncrypt_memory h (Int.not_le.mp hneg))
  rw [rimEncrypt_eq h hlow hsize hlong] at henc
  have hcounted : 0 ≤ toInt32 n := by
    by_contra hneg
    rw [encryptInto_uncounted (Int.not_le.mp hneg) _ hn] at henc
    cases henc
  obtain ⟨k, hk⟩ := Int.eq_ofNat_of_zero_le hcounted
  have hroom : (c.encrypted (c.ivUsed iv) (plaintext.take k)).length + (if isBinary then 1 else 0) ≤
      (List.replicate (encryptSize c n).toNat (0 : UInt8)).length := by
    by_contra hno
    rw [encryptInto_eq hk _ hn, if_neg hno] at henc
    cases henc
  rw [encryptInto_eq hk _ hn, if_pos hroom] at henc
  cases henc
  rw [List.length_replicate] at hroom
  rw [hc.decrypt_form hlong (by omega)] at hdec
  by_cases hstream : c.blockSize = 1
  · rw [if_pos hstream] at hdec
    cases hdec
  · rw [if_neg hstream] at hdec
    -- as many bytes came back as were asked for
    have hback := congrArg List.length (Except.ok.inj hdec)
    rw [List.length_take, List.length_take, Nat.min_eq_left hn] at hback
    have hle := toInt32_le n
    have hsame : toInt32 n = n := by omega
    have hb := hc.block_le
    refine ⟨hstream, ?_⟩
    unfold encryptSize toInt32 at hlow hsize
    unfold toInt32 at hsame
    omega

theorem Cipher.Documented.undone (hc : c.Documented) (hlong : ¬ c.IvShort iv) (hblock : c.blockSize ≠ 1)
    (hsize : n + c.blockSize + 1 < 2 ^ 31) :
    ∃ x, rimEncrypt c plaintext len isBinary iv = .ok x ∧ rimDecrypt c x none isBinary iv = .ok (plaintext.take n) := by
  have hn := cryptLength_ok h
  have heq : encryptSize c n = (n + c.blockSize + 1 : Nat) := by
    unfold encryptSize
    rw [toInt32_eq (by omega) (by omega)]
    push_cast
    rfl
  have hlength := hc.encrypt_length (c.ivUsed iv) (plaintext.take n)
  rw [if_neg hblock, List.length_take, Nat.min_eq_left hn] at hlength
  have hroom : (c.encrypted (c.ivUsed iv) (plaintext.take n)).length + (if isBinary then 1 else 0) ≤
      (List.replicate (encryptSize c n).toNat (0 : UInt8)).length := by
    rw [List.length_replicate, heq, Int.toNat_natCast, hlength]
    split <;> omega
  refine ⟨cryptForm isBinary (c.encrypted (c.ivUsed iv) (plaintext.take n)), ?_, ?_⟩
  · rw [rimEncrypt_eq h (by omega) (by omega) hlong,
      encryptInto_eq (toInt32_eq (by omega) (by omega)) _ hn, if_pos hroom]
  · rw [hc.decrypt_form hlong (by omega), if_neg hblock]

end

/-- The plaintext is longer than is asked for. -/
theorem rimEncrypt_long (c : Cipher) (isBinary : Bool) (iv : Option Bytes) {plaintext : Bytes} {len : Option Nat}
    (h : ∀ n, cryptLength plaintext len ≠ .ok n) : Refused (rimEncrypt c plaintext len isBinary iv) := by
  cases len with
  | none => exact absurd rfl (h _)
  | some k =>
    unfold rimEncrypt
    rw [cryptLength]
    by_cases hlong : k > plaintext.length
    · rw [if_pos hlong, error_then]
      exact ⟨_, rfl⟩
    · exact absurd (if_neg hlong) (h k)

/-- It is undone with a cipher that pads, of lengths that can be counted. -/
theorem rimEncrypt_undone_iff (hc : c.Documented) {plaintext : Bytes} {len : Option Nat} :
    Undone c plaintext len isBinary iv ↔ ∀ n, cryptLength plaintext len = .ok n →
      (c.IvShort iv → encryptSize c n < 2 ^ 31) ∧
      (¬ c.IvShort iv → c.blockSize ≠ 1 ∧ n + c.blockSize + 1 < 2 ^ 31) := by
  constructor
  · intro h n hn
    refine ⟨fun hshort => ?_, fun hlong => ?_⟩
    · by_contra hover
      exact (h.1 hshort).inside (rimEncrypt_overflow hn hover)
    · obtain ⟨x, henc, hdec⟩ := h.2 hlong n hn
      exact hc.of_undone hn hlong henc hdec
  · intro h
    refine ⟨fun hshort => ?_, fun hlong n hn => ?_⟩
    · by_cases hall : ∀ n, cryptLength plaintext len ≠ .ok n
      · exact rimEncrypt_long c isBinary iv hall
      · obtain ⟨n, hn⟩ := not_forall_not.mp hall
        obtain hneg | hlow := Int.lt_or_le (encryptSize c n) 0
        · exact rimEncrypt_memory hn hneg
        · exact rimEncrypt_short hn hlow ((h n hn).1 hshort) hshort
    · obtain ⟨hblock, hsize⟩ := (h n hn).2 hlong
      exact hc.undone hn hlong hblock hsize

/-- How many bytes are added to fill a block of 16, one at least. -/
def padCount (n : Nat) : Nat := 16 - n % 16

/-- Data with padding, each byte of which is the number of its bytes, and nothing hidden. -/
def paddedCipher : Cipher where
  blockSize := 16
  ivLength := 0
  encryptUpdate := fun _ data => data
  encryptFinal := fun _ data => List.replicate (padCount data.length) (UInt8.ofNat (padCount data.length))
  decryptUpdate := fun _ data => data.take (data.length - 16)
  decryptFinal := fun _ data =>
    let pad := (data.getLastD 0).toNat
    if 0 < pad ∧ pad ≤ 16 ∧ 16 ≤ data.length ∧ data.drop (data.length - pad) = List.replicate pad (UInt8.ofNat pad) then
      some ((data.drop (data.length - 16)).take (16 - pad))
    else none

theorem padCount_bounds (n : Nat) : 0 < padCount n ∧ padCount n ≤ 16 ∧ 16 ≤ n + padCount n := by
  unfold padCount
  omega

theorem padded_last (data : Bytes) {k : Nat} (hpos : 0 < k) (hle : k ≤ 16) :
    ((data ++ List.replicate k (UInt8.ofNat k)).getLastD 0).toNat = k := by
  obtain ⟨k, rfl⟩ := Nat.exists_eq_succ_of_ne_zero (Nat.ne_of_gt hpos)
  rw [List.replicate_succ', ← List.append_assoc, List.getLastD_concat, UInt8.toNat_ofNat']
  exact Nat.mod_eq_of_lt (by omega)

theorem paddedCipher_documented : paddedCipher.Documented where
  block_pos := by decide
  block_le := by decide
  encrypt_length := fun _ data => by
    rw [if_neg (show paddedCipher.blockSize ≠ 1 by decide)]
    show (data ++ List.replicate (padCount data.length) _).length = _
    rw [List.length_append, List.length_replicate]
    rfl
  decrypt_length := fun _ data out hout => by
    rw [if_neg (show paddedCipher.blockSize ≠ 1 by decide)]
    dsimp only [paddedCipher] at hout ⊢
    split at hout
    next hpad =>
      cases hout
      rw [List.length_append, List.length_take, List.length_take, List.length_drop]
      omega
    next => cases hout
  decrypt_encrypt := fun iv data => by
    obtain ⟨hpos, hle, hfull⟩ := padCount_bounds data.length
    have henc : paddedCipher.encrypted iv data =
        data ++ List.replicate (padCount data.length) (UInt8.ofNat (padCount data.length)) := rfl
    have hlen : (data ++ List.replicate (padCount data.length) (UInt8.ofNat (padCount data.length))).length =
        data.length + padCount data.length := by
      rw [List.length_append, List.length_replicate]
    rw [henc]
    dsimp only [paddedCipher]
    rw [padded_last data hpos hle, hlen, Nat.add_sub_cancel, List.drop_left, if_pos ⟨hpos, hle, hfull, rfl⟩]
    refine ⟨_, rfl, ?_⟩
    have hcut : 16 - padCount data.length = data.length - (data.length + padCount data.length - 16) := by omega
    rw [hcut, ← List.drop_take, List.take_left,
      List.take_append_of_le_length (show data.length + padCount data.length - 16 ≤ data.length by omega),
      List.take_append_drop]

def nullCipher : Cipher where
  blockSize := 1
  ivLength := 0
  encryptUpdate := fun _ data => data
  encryptFinal := fun _ _ => []
  decryptUpdate := fun _ data => data
  decryptFinal := fun _ _ => some []

theorem nullCipher_documented : nullCipher.Documented where
  block_pos := Nat.le_refl 1
  block_le := by decide
  encrypt_length := fun _ data => by
    rw [if_pos (show nullCipher.blockSize = 1 from rfl)]
    exact congrArg List.length (List.append_nil data)
  decrypt_length := fun _ data out hout => by
    cases hout
    rw [if_pos (show nullCipher.blockSize = 1 from rfl)]
    exact congrArg List.length (List.append_nil data)
  decrypt_encrypt := fun _ data => ⟨[], rfl, by
    show (data ++ []) ++ [] = data
    rw [List.append_nil, List.append_nil]⟩

end RimStone
