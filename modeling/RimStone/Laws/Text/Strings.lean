import RimStone.Laws.Text.Trim
import RimStone.Laws.Text.WriteString
import RimStone.Lib.Yields
import RimStone.Text.Strings

/-!
# Strings stay inside of their memory

The check of an index trusts the header, and so does everything that reads a whole string:
what a statement has to keep is that the bytes up to the length are there, and that a null
follows them (`Fits`). This is a text, a null, and the rest of the block (`Holds`). Most
statements keep it. These do not: to set a length that is not within the string, to copy more
than there is, to make a string whose last byte is not null by chance, and to take a substring
whose end is not a number.
-/

namespace RimStone

open RimStone.Lib

variable {heap : Heap} {b res add : StrBlock} {text rest : Bytes}

namespace StrBlock

/-- The length is not negative and within what was allocated, and a null follows. -/
structure Fits (b : StrBlock) : Prop where
  pos : 0 ≤ b.rimMemGetLen
  room : b.rimMemGetLen + 1 ≤ b.bytes.length
  null : peekAt b.bytes b.rimMemGetLen = some 0

structure Holds (b : StrBlock) (text rest : Bytes) : Prop where
  bytes : b.bytes = text ++ 0 :: rest
  len : b.len = text.length + 1

theorem Holds.getLen (h : b.Holds text rest) : b.rimMemGetLen = text.length := by
  unfold rimMemGetLen
  rw [h.len]
  omega

theorem Holds.length (h : b.Holds text rest) : b.bytes.length = text.length + 1 + rest.length := by
  rw [h.bytes, List.length_append, List.length_cons]
  omega

theorem Holds.fits (h : b.Holds text rest) : b.Fits := by
  have hlen := h.length
  refine ⟨?_, ?_, ?_⟩
  · rw [h.getLen]
    exact Int.natCast_nonneg _
  · rw [h.getLen, hlen]
    omega
  · rw [h.getLen, peekAt, if_pos (Int.natCast_nonneg _), Int.toNat_natCast, h.bytes, getElem?_middle]

/-- What fits is the block of the bytes up to the length. -/
theorem Fits.holds (h : b.Fits) :
    b.Holds (b.bytes.take b.rimMemGetLen.toNat) (b.bytes.drop (b.rimMemGetLen.toNat + 1)) := by
  have hpos := h.pos
  have hroom := h.room
  have hnull := h.null
  unfold peekAt at hnull
  rw [if_pos hpos] at hnull
  obtain ⟨hlt, hget⟩ := List.getElem?_eq_some_iff.mp hnull
  refine ⟨?_, ?_⟩
  · conv_lhs => rw [← List.take_append_drop b.rimMemGetLen.toNat b.bytes, List.drop_eq_getElem_cons hlt, hget]
  · rw [List.length_take]
    unfold rimMemGetLen at *
    omega

theorem const_holds (text : Bytes) : (const text).Holds text [] := ⟨rfl, rfl⟩

end StrBlock

open StrBlock

/-- What may fail does not fail outside of a string. -/
abbrev Safe {α : Type} (P : α → Prop) (x : Except WriteFault α) : Prop := Yields (fun fault => fault ≠ .outside) P x

abbrev Gives {α : Type} (P : α → Prop) (x : Except WriteFault α) : Prop := Yields (fun fault => fault = .memory) P x

theorem Gives.safe {α : Type} {P : α → Prop} {x : Except WriteFault α} (h : Gives P x) : Safe P x := by
  cases x with
  | ok a => exact h
  | error fault =>
    obtain rfl : fault = .memory := h
    exact Yields.error (by decide)

theorem yields_inside {allowed : WriteFault → Prop} {α : Type} {P : α → Prop} {x : Option α} {a : α} (h : x = some a)
    (ha : P a) : Yields allowed P (inside x) := by
  rw [h]
  exact ha

theorem toRimNum_eq {x : Int} (h : -2 ^ 63 ≤ x) (h' : x < 2 ^ 63) : toRimNum x = x := by
  unfold toRimNum
  omega

theorem slice_eq {b : Bytes} {i n : Int} (hi : 0 ≤ i) (hn : 0 ≤ n) (h : i + n ≤ b.length) :
    slice b i n = some ((b.drop i.toNat).take n.toNat) := if_pos ⟨hi, hn, h⟩

theorem length_slice {b : Bytes} {i n : Int} (hi : 0 ≤ i) (hn : 0 ≤ n) (h : i + n ≤ b.length) :
    ((b.drop i.toNat).take n.toNat).length = n.toNat := by
  rw [List.length_take, List.length_drop]
  omega

theorem pokeAt_middle (a : Bytes) (x : UInt8) (c : Bytes) (y : UInt8) :
    pokeAt (a ++ x :: c) a.length y = some (a ++ y :: c) := by
  unfold pokeAt
  rw [if_pos (Int.natCast_nonneg _), Int.toNat_natCast, poke_middle]

/-- A place in a block is between what is before and what is after. -/
theorem exists_middle {b : Bytes} {i : Int} (h : 0 ≤ i) (hi : i < b.length) :
    ∃ a x c, b = a ++ x :: c ∧ i = a.length := by
  have hlt : i.toNat < b.length := by omega
  refine ⟨b.take i.toNat, b[i.toNat], b.drop (i.toNat + 1), ?_, ?_⟩
  · rw [← List.drop_eq_getElem_cons hlt, List.take_append_drop]
  · rw [List.length_take]
    omega

/-! ## Statements that change a string -/

theorem setLength_safe (h : b.Holds text rest) {len : Int} (hlt : b.bytes.length < 2 ^ 48) (hpos : 0 ≤ len)
    (hle : len ≤ b.rimMemGetLen) :
    Safe (fun b' => b'.Fits ∧ b'.bytes.length = b.bytes.length) (b.setLength len) := by
  rw [h.getLen] at hle
  have hlen := h.length
  obtain ⟨a, x, c, hb, rfl⟩ := exists_middle hpos (b := b.bytes) (by omega)
  unfold StrBlock.setLength
  rw [if_pos (Or.inl hpos), toRimNum_eq (by omega) (by omega)]
  refine (yields_inside (P := fun bytes => bytes = a ++ 0 :: c) ?_ rfl).bind fun bytes hbytes => ?_
  · rw [hb, pokeAt_middle]
  · subst hbytes
    have hholds : StrBlock.Holds ⟨a ++ 0 :: c, (a.length : Int) + 1⟩ a c := ⟨rfl, rfl⟩
    refine ⟨hholds.fits, ?_⟩
    rw [hb, List.length_append, List.length_append]
    rfl

theorem checkIndex_eq (h : b.Holds text rest) (ind : Int) :
    b.checkIndex ind = if 0 ≤ ind ∧ ind < text.length then .ok () else .error .error := by
  unfold StrBlock.checkIndex
  rw [h.getLen]
  by_cases hind : 0 ≤ ind ∧ ind < text.length
  · rw [if_pos hind, if_neg (by omega)]
  · rw [if_neg hind, if_pos (by omega)]

theorem checkIndex_safe (h : b.Holds text rest) (ind : Int) :
    Safe (fun _ => 0 ≤ ind ∧ ind < text.length) (b.checkIndex ind) := by
  rw [checkIndex_eq h]
  by_cases hind : 0 ≤ ind ∧ ind < text.length
  · rw [if_pos hind]
    exact hind
  · rw [if_neg hind]
    exact Yields.error (by decide)

theorem setByte_safe (h : b.Holds text rest) (ind : Int) (y : UInt8) :
    Safe (fun b' => b'.Fits ∧ b'.bytes.length = b.bytes.length) (b.setByte ind y) := by
  refine (checkIndex_safe h ind).bind fun _ hind => ?_
  obtain ⟨a, x, c, htext, rfl⟩ := exists_middle hind.1 hind.2
  have hb : b.bytes = a ++ x :: (c ++ 0 :: rest) := by
    rw [h.bytes, htext, List.append_assoc, List.cons_append]
  refine (yields_inside (P := fun bytes => bytes = a ++ y :: (c ++ 0 :: rest)) ?_ rfl).bind fun bytes hbytes => ?_
  · rw [hb, pokeAt_middle]
  · subst hbytes
    have hholds : StrBlock.Holds { b with bytes := a ++ y :: (c ++ 0 :: rest) } (a ++ y :: c) rest := by
      refine ⟨?_, ?_⟩
      · rw [List.append_assoc, List.cons_append]
      · rw [h.len, htext, List.length_append, List.length_append]
        rfl
    refine ⟨hholds.fits, ?_⟩
    rw [hb, List.length_append, List.length_append]
    rfl

theorem getByte_safe (h : b.Holds text rest) (ind : Int) : Safe (fun _ => True) (b.getByte ind) := by
  refine (checkIndex_safe h ind).bind fun _ hind => ?_
  obtain ⟨a, x, c, htext, rfl⟩ := exists_middle hind.1 hind.2
  refine yields_inside (a := x) ?_ trivial
  unfold peekAt
  rw [if_pos (Int.natCast_nonneg _), Int.toNat_natCast, h.bytes, htext, List.append_assoc, List.cons_append,
    getElem?_middle]

/-- `memmove` of a part of a block to its beginning. -/
theorem moveFront_eq (a m c : Bytes) :
    moveFront (a ++ (m ++ c)) a.length m.length = some (m ++ (a ++ (m ++ c)).drop m.length) := by
  unfold moveFront
  rw [slice_eq (Int.natCast_nonneg _) (Int.natCast_nonneg _) (by simp only [List.length_append]; omega)]
  simp only [Int.toNat_natCast, List.drop_left, List.take_left, bind, Option.bind]
  unfold memcpy
  rw [if_pos (by simp only [List.length_append]; omega), List.take_zero, List.nil_append, Nat.zero_add]

/-- Trimming leaves the string without the white space at its ends, in the same memory. -/
theorem rimTrim_holds (h : b.Holds text rest) :
    ∃ b' rest', b.rimTrim = .ok b' ∧ b'.Holds (trim isspace text) rest' ∧ b'.bytes.length = b.bytes.length := by
  have hlen := length_front_trim_back isspace text
  have hsplit := front_trim_back isspace text
  have hfront : ∀ x ∈ front isspace text, isspace x = true := fun x => of_mem_front
  have hbytes : b.bytes = front isspace text ++ ((trim isspace text ++ (back isspace text ++ [0])) ++ rest) := by
    rw [h.bytes]
    conv_lhs => rw [← hsplit]
    simp only [List.append_assoc, List.cons_append, List.nil_append]
  have hstart : trimFrontLoop b.bytes 0 = some (front isspace text).length := by
    rw [hbytes]
    cases ht : trim isspace text with
    | nil =>
      rw [back_eq_nil ht, List.nil_append, List.nil_append, List.singleton_append,
        trimFrontLoop_eq hfront (by decide), Nat.zero_add]
    | cons x t =>
      rw [List.cons_append, List.cons_append, trimFrontLoop_eq hfront (trim_head_not ht), Nat.zero_add]
  have hcount : b.rimMemGetLen - (front isspace text).length + 1 =
      ((trim isspace text ++ (back isspace text ++ [0])).length : Nat) := by
    rw [h.getLen]
    simp only [List.length_append, List.length_singleton]
    omega
  -- the string, without what is before it, is at the beginning of the block
  obtain ⟨after, hmoved, hafter⟩ : ∃ after,
      b.moved (front isspace text).length = some ((trim isspace text ++ (back isspace text ++ [0])) ++ after) ∧
      ((trim isspace text ++ (back isspace text ++ [0])) ++ after).length = b.bytes.length := by
    unfold StrBlock.moved
    by_cases hzero : (front isspace text).length = 0
    · have hnil := List.eq_nil_of_length_eq_zero hzero
      refine ⟨rest, ?_, ?_⟩
      · rw [if_pos hzero, hbytes, hnil, List.nil_append]
      · rw [hbytes, hnil, List.nil_append]
    · refine ⟨b.bytes.drop (trim isspace text ++ (back isspace text ++ [0])).length, ?_, ?_⟩
      · rw [if_neg hzero, hcount, hbytes, moveFront_eq]
      · rw [List.length_append, List.length_drop, hbytes]
        simp only [List.length_append]
        omega
  have hmiddle : (trim isspace text ++ (back isspace text ++ [0])) ++ after =
      trim isspace text ++ (back isspace text ++ 0 :: after) := by
    simp only [List.append_assoc, List.cons_append, List.nil_append]
  rw [hmiddle] at hmoved hafter
  have hrest : b.rimMemGetLen - (front isspace text).length =
      ((trim isspace text).length + (back isspace text).length : Nat) := by
    rw [h.getLen]
    omega
  have hend : StrBlock.trimEnd (trim isspace text ++ (back isspace text ++ 0 :: after))
      (b.rimMemGetLen - (front isspace text).length) = some ((trim isspace text).length : Int) := by
    have hloop := trimBackLoop_eq (t := trim isspace text) (fun h => trim_last_not h)
      (fun x => of_mem_back) back_eq_nil [] [] (0 :: after)
    rw [List.nil_append, List.nil_append, List.length_nil, Nat.zero_add, Nat.zero_add] at hloop
    unfold StrBlock.trimEnd
    rw [hrest, if_pos (Int.natCast_nonneg _), Int.toNat_natCast, hloop]
    rfl
  -- a byte follows that can be nulled: white space, or the null
  obtain ⟨x, rest', hx⟩ : ∃ x rest', back isspace text ++ 0 :: after = x :: rest' := by
    cases back isspace text with
    | nil => exact ⟨0, after, rfl⟩
    | cons x t => exact ⟨x, t ++ 0 :: after, rfl⟩
  refine ⟨⟨trim isspace text ++ 0 :: rest', (trim isspace text).length + 1⟩, rest', ?_, ⟨rfl, rfl⟩, ?_⟩
  · unfold StrBlock.rimTrim
    simp only [hstart, bind, Except.bind, inside, Option.elim, hmoved, hend]
    rw [hx, pokeAt_middle]
  · rw [← hafter, hx, List.length_append, List.length_append]
    rfl

theorem rimTrim_safe (h : b.Holds text rest) :
    Safe (fun b' => b'.Fits ∧ b'.bytes.length = b.bytes.length) b.rimTrim := by
  obtain ⟨b', rest', htrim, hholds, hlen⟩ := rimTrim_holds h
  rw [htrim]
  exact ⟨hholds.fits, hlen⟩

theorem setEmpty_eq (h : 0 < b.bytes.length) : b.setEmpty = .ok { b with bytes := b.bytes.set 0 0 } := by
  unfold StrBlock.setEmpty pokeAt
  rw [if_pos (Int.le_refl 0), Int.toNat_zero, poke_eq h]
  rfl

/-- A string becomes empty for those that take it up to its first null. -/
theorem setEmpty_safe (h : b.Fits) : Safe (fun b' => b'.Fits ∧ b'.bytes.length = b.bytes.length) b.setEmpty := by
  have hroom := h.room
  have hpos := h.pos
  have hnull := h.null
  rw [setEmpty_eq (by omega)]
  refine ⟨⟨hpos, ?_, ?_⟩, List.length_set⟩
  · rw [List.length_set]
    exact hroom
  · unfold peekAt at hnull ⊢
    rw [if_pos hpos] at hnull
    show (if 0 ≤ b.rimMemGetLen then (b.bytes.set 0 0)[b.rimMemGetLen.toNat]? else none) = _
    rw [if_pos hpos, List.getElem?_set]
    split
    · rw [if_pos (by omega)]
    · exact hnull

/-! ## Statements that make a string -/

theorem length_reblock (b : Bytes) (n : Nat) : (reblock heap b n).length = n := by
  unfold reblock
  rw [List.length_append, List.length_take, List.length_map, List.length_range]
  omega

/-- What there is memory for has a size that can be asked for. -/
theorem requested_eq {size : Int} (h : 0 ≤ size) (hlt : size < 2 ^ 63) : requested size = size + sizeofHead := by
  unfold requested sizeofHead
  omega

theorem rimRealloc_given (old : Bytes) {size : Int} (h : 0 ≤ size) (hlt : size < 2 ^ 63)
    (hgives : heap.gives (size + sizeofHead) = true) :
    rimRealloc heap old size = .ok ⟨reblock heap old size.toNat, size⟩ := by
  have hhead : sizeofHead = 16 := rfl
  unfold rimRealloc
  rw [requested_eq h hlt, if_pos hgives, if_neg (by omega), Int.add_sub_cancel]

/-- Memory of a size that is not negative. -/
theorem rimRealloc_gives (old : Bytes) {size : Int} (h : 0 ≤ size) (hlt : size < 2 ^ 63) :
    Gives (fun r => r.bytes = reblock heap old size.toNat ∧ r.bytes.length = size ∧ r.len = size ∧ size < 2 ^ 47)
      (rimRealloc heap old size) := by
  cases hgives : heap.gives (size + sizeofHead) with
  | false =>
    unfold rimRealloc
    rw [requested_eq h hlt, hgives]
    exact Yields.error rfl
  | true =>
    obtain ⟨-, hbound⟩ := heap.bound _ hgives
    have hhead : sizeofHead = 16 := rfl
    rw [rimRealloc_given old h hlt hgives]
    refine ⟨rfl, ?_, rfl, by omega⟩
    show ((reblock heap old size.toNat).length : Int) = size
    rw [length_reblock]
    omega

/-- Bytes that fill a block but for a byte, which is nulled. -/
theorem fill_holds {src dst : Bytes} {x : UInt8} (h : dst.length = src.length) (c : Bytes) :
    memcpy (dst ++ x :: c) 0 src = some (src ++ x :: c) := by
  have hcopy := memcpy_middle [] (b := dst) (x :: c) h.symm
  rw [List.nil_append, List.nil_append] at hcopy
  exact hcopy

theorem memcpy_whole {b src : Bytes} (h : src.length = b.length) : memcpy b 0 src = some src := by
  have hcopy := memcpy_middle [] [] h
  rw [List.append_nil, List.append_nil, List.nil_append, List.nil_append] at hcopy
  exact hcopy

/-- A string from the bytes of another, up to its end. -/
theorem rimStrdupl_gives (h : b.Holds text rest) (hlt : b.bytes.length < 2 ^ 48) {start : Int} (hpos : 0 ≤ start)
    (hle : start ≤ text.length) :
    Gives (fun b' => b'.Holds (text.drop start.toNat) [] ∧ b'.bytes.length < 2 ^ 48) (rimStrdupl heap b start) := by
  have hlen := h.length
  unfold rimStrdupl
  rw [h.getLen, if_neg (by omega)]
  have hn : (text.length : Int) + 1 - start = ((text.drop start.toNat).length + 1 : Nat) := by
    rw [List.length_drop]
    omega
  refine (rimRealloc_gives [] (by omega) (by omega)).bind fun r hr => ?_
  obtain ⟨-, hrlen, -, hbound⟩ := hr
  have hsrc : slice b.bytes start ((text.length : Int) + 1 - start) = some (text.drop start.toNat ++ [0]) := by
    rw [slice_eq (by omega) (by omega) (by omega), h.bytes, hn, Int.toNat_natCast,
      List.drop_append_of_le_length (by omega),
      List.take_append, List.take_of_length_le (by omega)]
    simp
  refine (yields_inside (P := fun src => src = text.drop start.toNat ++ [0]) hsrc rfl).bind fun src hsrc => ?_
  subst hsrc
  refine (yields_inside (P := fun bytes => bytes = text.drop start.toNat ++ [0]) ?_ rfl).bind fun bytes hbytes => ?_
  · refine memcpy_whole ?_
    rw [List.length_append, List.length_singleton]
    omega
  · subst hbytes
    refine ⟨⟨rfl, ?_⟩, ?_⟩
    · exact hn
    · show ((text.drop start.toNat ++ [0]).length : Nat) < _
      rw [List.length_append, List.length_singleton]
      omega

theorem rimStrdupl_safe (h : b.Holds text rest) (hlt : b.bytes.length < 2 ^ 48) (start : Int) :
    Safe (fun b' => b'.Holds (text.drop start.toNat) [] ∧ b'.bytes.length < 2 ^ 48) (rimStrdupl heap b start) := by
  by_cases hc : start < 0 ∨ (text.length : Int) < start
  · unfold rimStrdupl
    rw [h.getLen, if_pos hc]
    exact Yields.error (by decide)
  · exact (rimStrdupl_gives h hlt (by omega) (by omega)).safe

/-- As many bytes as are asked for are there to be copied, where there is memory for them. -/
def CopyWithin (heap : Heap) (b : StrBlock) (start len : Int) : Prop :=
  0 ≤ len → 0 ≤ start → start ≤ b.rimMemGetLen - 1 → heap.gives (requested (toRimNum (len + 1))) = true →
    start + len ≤ b.bytes.length

theorem gives_of_toRimNum {len : Int} (h : 0 ≤ len) (hlt : len < 2 ^ 63)
    (hgives : heap.gives (requested (toRimNum (len + 1))) = true) : len + 1 < 2 ^ 47 := by
  obtain ⟨-, hbound⟩ := heap.bound _ hgives
  unfold requested toRimNum sizeofHead at hbound
  omega

/-- There is memory for a length and a null, or a failure is reported. -/
theorem rimRealloc_or (heap : Heap) (old : Bytes) {len : Int} (h : heap.gives (requested (toRimNum (len + 1))) = true → 0 ≤ len)
    (hlt : len < 2 ^ 63) :
    rimRealloc heap old (toRimNum (len + 1)) = .error .memory ∨
      heap.gives (requested (toRimNum (len + 1))) = true ∧ 0 ≤ len ∧ len + 1 < 2 ^ 47 ∧
        Safe (fun r => r.bytes = reblock heap old (len + 1).toNat ∧ r.bytes.length = len + 1 ∧ r.len = len + 1 ∧
          len + 1 < 2 ^ 47) (rimRealloc heap old (toRimNum (len + 1))) := by
  cases hgives : heap.gives (requested (toRimNum (len + 1))) with
  | false =>
    left
    unfold rimRealloc
    rw [hgives]
    rfl
  | true =>
    right
    have hpos := h hgives
    have hsmall := gives_of_toRimNum hpos hlt hgives
    refine ⟨rfl, hpos, hsmall, ?_⟩
    rw [toRimNum_eq (by omega) (by omega)]
    exact (rimRealloc_gives old (by omega) (by omega)).safe

/-- A string of a length, and of bytes of another. -/
theorem rimCopyString_eq {start len : Int} (hlen : 0 ≤ len) (hlt : len < 2 ^ 63) (hstart : 0 ≤ start)
    (hin : start ≤ b.rimMemGetLen - 1) (hgives : heap.gives (requested (toRimNum (len + 1))) = true) {src : Bytes}
    (hsrc : slice b.bytes start len = some src) : rimCopyString heap b start len = .ok ⟨src ++ [0], len + 1⟩ := by
  have hsmall := gives_of_toRimNum hlen hlt hgives
  rw [toRimNum_eq (by omega) (by omega), requested_eq (by omega) (by omega)] at hgives
  have hcount : src.length = len.toNat := by
    unfold slice at hsrc
    split at hsrc
    · next hroom =>
      rw [← Option.some.inj hsrc]
      exact length_slice hroom.1 hroom.2.1 hroom.2.2
    · cases hsrc
  obtain ⟨dst, x, c, hbytes, hdst⟩ := exists_middle hlen (b := reblock heap [] (len + 1).toNat)
    (by rw [length_reblock]; omega)
  have hnil : c = [] := by
    have hblock : (reblock heap [] (len + 1).toNat).length = _ := length_reblock _ _
    rw [hbytes, List.length_append, List.length_cons] at hblock
    exact List.eq_nil_of_length_eq_zero (by omega)
  subst hnil
  have hfill : memcpy (reblock heap [] (len + 1).toNat) 0 src = some (src ++ [x]) := by
    rw [hbytes]
    exact fill_holds (by omega) []
  have hnull : pokeAt (src ++ [x]) len 0 = some (src ++ [0]) := by
    have hplace : len = (src.length : Int) := by omega
    rw [hplace]
    exact pokeAt_middle src x [] 0
  unfold rimCopyString
  rw [if_neg (by omega), if_neg (by omega), toRimNum_eq (by omega) (by omega),
    rimRealloc_given [] (by omega) (by omega) hgives]
  simp only [hsrc, hfill, hnull, inside, Option.elim, bind, Except.bind]

theorem rimCopyString_memory {start len : Int} (hgives : heap.gives (requested (toRimNum (len + 1))) = false) :
    Safe (fun _ => False) (rimCopyString heap b start len) := by
  unfold rimCopyString
  refine Yields.check (by decide) fun hneg => ?_
  refine Yields.check (by decide) fun hstart => ?_
  unfold rimRealloc
  rw [hgives]
  exact Yields.error (by decide)

theorem rimCopyString_safe {start len : Int} (hlt : len < 2 ^ 63) (hwithin : CopyWithin heap b start len) :
    Safe (fun b' => b'.Fits ∧ b'.bytes.length < 2 ^ 48) (rimCopyString heap b start len) := by
  cases hgives : heap.gives (requested (toRimNum (len + 1))) with
  | false => exact (rimCopyString_memory hgives).mono fun _ h => h.elim
  | true =>
    by_cases hneg : len < 0
    · unfold rimCopyString
      rw [if_pos hneg]
      exact Yields.error (by decide)
    by_cases hstart : start < 0 ∨ b.rimMemGetLen - 1 < start
    · unfold rimCopyString
      rw [if_neg hneg, if_pos hstart]
      exact Yields.error (by decide)
    have hroom := hwithin (by omega) (by omega) (by omega) hgives
    have hsmall := gives_of_toRimNum (by omega) hlt hgives
    have hcount := length_slice (b := b.bytes) (i := start) (n := len) (by omega) (by omega) hroom
    rw [rimCopyString_eq (by omega) hlt (by omega) (by omega) hgives (slice_eq (by omega) (by omega) hroom)]
    have hholds : StrBlock.Holds ⟨(b.bytes.drop start.toNat).take len.toNat ++ [0], len + 1⟩
        ((b.bytes.drop start.toNat).take len.toNat) [] := ⟨rfl, by show len + 1 = _; omega⟩
    refine ⟨hholds.fits, ?_⟩
    rw [hholds.length, List.length_nil]
    omega

/-- A string that `new-string` makes has a null after its bytes, where there is memory for
it. -/
def NewWithin (heap : Heap) (len : Int) : Prop :=
  heap.gives (requested (toRimNum (len + 1))) = true → 0 ≤ len ∧ (0 < len → heap.fresh len.toNat = 0)

theorem newBlock_safe {len : Int} (hlt : len < 2 ^ 63) (hwithin : NewWithin heap len) :
    Safe (fun b' => b'.Fits ∧ b'.bytes.length < 2 ^ 48) (newBlock heap len) := by
  unfold newBlock
  obtain hmem | ⟨hgives, hpos, hsmall, hsafe⟩ := rimRealloc_or heap [] (fun hg => (hwithin hg).1) hlt
  · rw [hmem]
    exact Yields.error (by decide)
  · have hnull := (hwithin hgives).2
    refine hsafe.bind fun r hr => ?_
    obtain ⟨hbytes, hrlen, hhead, -⟩ := hr
    obtain ⟨n, rfl⟩ := Int.eq_ofNat_of_zero_le hpos
    have hfresh : r.bytes = (List.range (n + 1)).map heap.fresh := by
      rw [hbytes]
      unfold reblock
      rw [List.take_nil, List.nil_append, List.length_nil, Nat.sub_zero]
      rfl
    rw [setEmpty_eq (by show 0 < r.bytes.length; omega)]
    have hgetLen : ({ r with bytes := r.bytes.set 0 0 } : StrBlock).rimMemGetLen = n := by
      unfold StrBlock.rimMemGetLen
      rw [hhead]
      omega
    refine ⟨⟨?_, ?_, ?_⟩, ?_⟩
    · rw [hgetLen]
      omega
    · rw [hgetLen, List.length_set]
      omega
    · rw [hgetLen]
      unfold peekAt
      rw [if_pos (Int.natCast_nonneg n), Int.toNat_natCast]
      cases n with
      | zero =>
        rw [List.getElem?_set_self (by omega)]
      | succ n =>
        rw [List.getElem?_set_ne (by omega), hfresh, List.getElem?_map, List.getElem?_range (by omega),
          Option.map_some]
        exact congrArg some (hnull (by omega))
    · rw [List.length_set]
      omega

/-! ## Concatenations -/

/-- The result of a concatenation, as far as it was made: what is up to its length is there. -/
structure Ready (res : StrBlock) : Prop where
  pos : 0 ≤ res.rimMemGetLen
  room : res.rimMemGetLen ≤ res.bytes.length
  lt : res.bytes.length < 2 ^ 48

theorem roomFor_bounds {x : Int} (h : 0 ≤ x) (hlt : x < 2 ^ 60) : x ≤ roomFor x ∧ roomFor x < 2 ^ 62 := by
  unfold roomFor
  split
  · omega
  · rw [toRimNum_eq (by omega) (by omega)]
    omega

theorem memcpyAt_middle (a : Bytes) {m src : Bytes} (c : Bytes) (h : src.length = m.length) :
    memcpyAt (a ++ (m ++ c)) a.length src = some (a ++ (src ++ c)) := by
  unfold memcpyAt
  rw [if_pos (Int.natCast_nonneg _), Int.toNat_natCast, memcpy_middle a c h]

/-- A block that is long enough has so many bytes, so many more, a byte, and the rest. -/
theorem exists_parts {b : Bytes} {i n : Int} (hi : 0 ≤ i) (hn : 0 ≤ n) (h : i + n < b.length) :
    ∃ a m x c, b = a ++ (m ++ x :: c) ∧ i = a.length ∧ n = m.length := by
  obtain ⟨a, y, d, hb, rfl⟩ := exists_middle hi (b := b) (by omega)
  have hlen : (b.length : Int) = a.length + (y :: d).length := by
    rw [hb, List.length_append]
    omega
  obtain ⟨m, x, c, hd, rfl⟩ := exists_middle hn (b := y :: d) (by omega)
  exact ⟨a, m, x, c, by rw [hb, hd], rfl, rfl⟩

/-- Bytes that are there are added. -/
theorem addBytes_gives (hres : Ready res) {beg len : Int} (hbeg : 0 ≤ beg) (hlen : 0 ≤ len)
    (hle : beg + len ≤ add.bytes.length) (hlt : add.bytes.length < 2 ^ 48) :
    Gives (fun b => b.bytes.length < 2 ^ 48 ∧ ∃ a src c, b.Holds (a ++ src) c ∧ res.rimMemGetLen = (a.length : Nat) ∧
      slice add.bytes beg len = some src) (addBytes heap res add beg len) := by
  obtain ⟨hpos, hroom, hsmall⟩ := hres
  have hsum : toRimNum (res.rimMemGetLen + len + 1) = res.rimMemGetLen + len + 1 := toRimNum_eq (by omega) (by omega)
  have hend : toRimNum (res.rimMemGetLen + len) = res.rimMemGetLen + len := toRimNum_eq (by omega) (by omega)
  obtain ⟨hge, hmore⟩ := roomFor_bounds (x := res.rimMemGetLen + len + 1) (by omega) (by omega)
  unfold addBytes
  rw [hsum, hend]
  refine (rimRealloc_gives res.bytes (by omega) (by omega)).bind fun r hr => ?_
  obtain ⟨-, hrlen, -, hbound⟩ := hr
  have hcount := length_slice hbeg hlen hle
  refine (yields_inside (P := fun src => src.length = len.toNat ∧ slice add.bytes beg len = some src)
    (slice_eq hbeg hlen hle) ⟨hcount, slice_eq hbeg hlen hle⟩).bind fun src hsrc => ?_
  obtain ⟨hsrc, hslice⟩ := hsrc
  obtain ⟨a, m, x, c, hbytes, ha, hm⟩ := exists_parts (b := r.bytes) hpos hlen (by omega)
  have hcopy : memcpyAt r.bytes a.length src = some (a ++ (src ++ x :: c)) := by
    rw [hbytes]
    exact memcpyAt_middle a _ (by omega)
  have hplace : (a.length : Int) + len = (a ++ src).length := by
    rw [List.length_append]
    omega
  rw [ha, hplace]
  refine (yields_inside (P := fun bytes => bytes = a ++ (src ++ x :: c)) hcopy rfl).bind fun bytes hcopied => ?_
  subst hcopied
  refine (yields_inside (P := fun bytes => bytes = (a ++ src) ++ 0 :: c) ?_ rfl).bind fun bytes hnulled => ?_
  · rw [← List.append_assoc, pokeAt_middle]
  · subst hnulled
    have hholds : StrBlock.Holds ⟨(a ++ src) ++ 0 :: c, ((a ++ src).length : Int) + 1⟩ (a ++ src) c := ⟨rfl, rfl⟩
    refine ⟨?_, a, src, c, hholds, rfl, hslice⟩
    have hsame : ((a ++ src) ++ 0 :: c).length = r.bytes.length := by
      rw [hbytes]
      simp only [List.length_append, List.length_cons]
      omega
    dsimp only
    rw [hsame]
    omega

theorem addBytes_safe (hres : Ready res) {beg len : Int} (hbeg : 0 ≤ beg) (hlen : 0 ≤ len)
    (hle : beg + len ≤ add.bytes.length) (hlt : add.bytes.length < 2 ^ 48) :
    Safe (fun b => b.Fits ∧ b.bytes.length < 2 ^ 48) (addBytes heap res add beg len) := by
  refine (addBytes_gives hres hbeg hlen hle hlt).safe.mono fun b hb => ?_
  obtain ⟨hsmall, a, src, c, hholds, -⟩ := hb
  exact ⟨hholds.fits, hsmall⟩

theorem Ready.of_fits (h : b.Fits) (hlt : b.bytes.length < 2 ^ 48) : Ready b := by
  have hroom := h.room
  exact ⟨h.pos, by omega, hlt⟩

/-- A block is given back but for what is needed. -/
theorem trimmed_gives (h : b.Holds text rest) (hlt : b.bytes.length < 2 ^ 48) :
    Gives (fun r => r.Holds text [] ∧ r.bytes.length < 2 ^ 48) (rimRealloc heap b.bytes (b.rimMemGetLen + 1)) := by
  have hlen := h.length
  rw [h.getLen]
  refine (rimRealloc_gives b.bytes (by omega) (by omega)).mono fun r hr => ?_
  obtain ⟨hbytes, hrlen, hhead, -⟩ := hr
  refine ⟨⟨?_, hhead⟩, by omega⟩
  have hn : ((text.length : Int) + 1).toNat = (text ++ [(0 : UInt8)]).length := by
    rw [List.length_append, List.length_singleton]
    omega
  have hsplit : b.bytes = (text ++ [0]) ++ rest := by
    rw [h.bytes, List.append_assoc, List.singleton_append]
  rw [hbytes, hn]
  unfold reblock
  have hzero : (text ++ [(0 : UInt8)]).length - b.bytes.length = 0 := by
    rw [hlen, List.length_append, List.length_singleton]
    omega
  rw [hzero, hsplit, List.take_left, List.range_zero, List.map_nil, List.append_nil]

namespace StrSys

variable {s s' : StrSys}

@[simp] theorem write_mem (s : StrSys) (p : StrPtr) (b : StrBlock) (q : StrPtr) :
    (s.write p b).mem q = if q = p then b else s.mem q := Function.update_apply _ _ _ _

@[simp] theorem alloc_mem (s : StrSys) (b : StrBlock) (q : StrPtr) :
    (s.alloc b).mem q = if q = .mem s.next then b else s.mem q := Function.update_apply _ _ _ _

/-- All strings are inside of their memory. There is no room in `RIM_EMPTY_STRING`. -/
structure Inside (s : StrSys) : Prop where
  fits : ∀ p, (s.mem p).Fits
  lt : ∀ p, (s.mem p).bytes.length < 2 ^ 48
  empty : (s.mem .empty).bytes.length = 1

def PartWithin (s : StrSys) : StrPart → Prop
  | .whole _ => True
  | .sub t beg len =>
    0 ≤ beg.toInt → beg.toInt ≤ (s.block t).rimMemGetLen - 1 → beg.toInt + len.toInt ≤ 2 ^ 63

def ExprWithin (heap : Heap) (s : StrSys) : List StrPart → Prop
  | [] => True
  | [.whole _] => True
  | [.sub t beg len] => len.toInt ≠ -1 → CopyWithin heap (s.block t) beg.toInt len.toInt
  | p :: q :: e => ∀ part ∈ p :: q :: e, s.PartWithin part

theorem addPart_safe (hs : s.Inside) (hres : Ready res) {part : StrPart} (hp : s.PartWithin part) :
    Safe (fun b => b.Fits ∧ b.bytes.length < 2 ^ 48) (s.addPart heap res part) := by
  cases part with
  | whole t =>
    have hfits := hs.fits (s.term t)
    have hroom := hfits.room
    exact addBytes_safe hres (Int.le_refl 0) hfits.pos (by unfold block; omega) (hs.lt _)
  | sub t beg len =>
    have hfits := hs.fits (s.term t)
    have hroom := hfits.room
    have hlt := hs.lt (s.term t)
    have hsub : 0 ≤ beg.toInt → beg.toInt ≤ (s.block t).rimMemGetLen - 1 → beg.toInt + len.toInt ≤ 2 ^ 63 := hp
    change Safe _ (rimAddStringPart heap res (s.block t) beg.toInt len.toInt)
    unfold block at hsub ⊢
    unfold rimAddStringPart
    refine Yields.check (by decide) fun hbeg => ?_
    refine Yields.check (by decide) fun hlen => ?_
    have hsum := hsub (by omega) (by omega)
    unfold partLen toRimNum at *
    refine addBytes_safe hres (by omega) (by omega) ?_ hlt
    split at hlen <;> omega

/-- A concatenation is a string with no room left. -/
theorem concat_safe (heap : Heap) (hs : s.Inside) {p : StrPart} {e : List StrPart} (he : ∀ part ∈ p :: e, s.PartWithin part) :
    Safe (fun b => b.Fits ∧ b.bytes.length < 2 ^ 48) (s.concat heap (p :: e)) := by
  have hfits := hs.fits .empty
  have hpos := hfits.pos
  have hroom := hfits.room
  have hempty := hs.empty
  obtain ⟨hp, he⟩ := List.forall_mem_cons.mp he
  have hready : Ready ⟨[], (s.mem .empty).len⟩ := by
    have hlen : (⟨[], (s.mem .empty).len⟩ : StrBlock).rimMemGetLen = (s.mem .empty).rimMemGetLen := rfl
    refine ⟨?_, ?_, Nat.two_pow_pos 48⟩
    · rw [hlen]
      exact hpos
    · rw [hlen]
      show _ ≤ (0 : Int)
      omega
  unfold concat
  rw [List.foldlM_cons]
  have hfold : Safe (fun b => b.Fits ∧ b.bytes.length < 2 ^ 48)
      (s.addPart heap ⟨[], (s.mem .empty).len⟩ p >>= fun b => e.foldlM (s.addPart heap) b) := by
    refine (addPart_safe hs hready hp).bind fun b hb => ?_
    refine Yields.foldlM (fun part hpart b hb => ?_) hb
    exact addPart_safe hs (Ready.of_fits hb.1 hb.2) (he part hpart)
  refine hfold.bind fun b hb => ?_
  exact (trimmed_gives hb.1.holds hb.2).safe.mono fun r hr => ⟨hr.1.fits, hr.2⟩

/-! ## Runs -/

/-- A string is another one of as many bytes. -/
theorem Inside.write (hs : s.Inside) (p : StrPtr) (hb : b.Fits) (hlen : b.bytes.length = (s.mem p).bytes.length) :
    (s.write p b).Inside := by
  refine ⟨fun q => ?_, fun q => ?_, ?_⟩
  · rw [write_mem]
    split
    · exact hb
    · exact hs.fits q
  · rw [write_mem]
    split
    · rw [hlen]
      exact hs.lt p
    · exact hs.lt q
  · rw [write_mem]
    split
    · rename_i hp
      rw [hlen, ← hp]
      exact hs.empty
    · exact hs.empty

theorem Inside.alloc (hs : s.Inside) (hb : b.Fits) (hlt : b.bytes.length < 2 ^ 48) : (s.alloc b).Inside := by
  refine ⟨fun q => ?_, fun q => ?_, ?_⟩
  · rw [alloc_mem]
    split
    · exact hb
    · exact hs.fits q
  · rw [alloc_mem]
    split
    · exact hlt
    · exact hs.lt q
  · rw [alloc_mem, if_neg StrPtr.noConfusion]
    exact hs.empty

theorem Inside.assign (hs : s.Inside) (str : Nat) (p : StrPtr) : (s.assign str p).Inside := ⟨hs.fits, hs.lt, hs.empty⟩

theorem Inside.endRequest (hs : s.Inside) (prog : StrProg) : (s.endRequest prog).Inside := ⟨hs.fits, hs.lt, hs.empty⟩

theorem make_safe (hs : s.Inside) {x : Except WriteFault StrBlock}
    (hx : Safe (fun b => b.Fits ∧ b.bytes.length < 2 ^ 48) x) : Safe (fun r => r.1.Inside) (s.make x) :=
  hx.bind fun _ hb => hs.alloc hb.1 hb.2

theorem makeIn_safe (hs : s.Inside) (str : Nat) {x : Except WriteFault StrBlock}
    (hx : Safe (fun b => b.Fits ∧ b.bytes.length < 2 ^ 48) x) : Safe Inside (s.makeIn str x) :=
  (make_safe hs hx).bind fun r hr => hr.assign str r.2

theorem change_safe (hs : s.Inside) (p : StrPtr) {f : StrBlock → Except WriteFault StrBlock}
    (hf : Safe (fun b => b.Fits ∧ b.bytes.length = (s.mem p).bytes.length) (f (s.mem p))) :
    Safe Inside (s.change p f) :=
  hf.bind fun _ hb => hs.write p hb.1 hb.2

theorem copied_safe (hb : b.Fits) (hlt : b.bytes.length < 2 ^ 48) (swith : Int) {len : Option Int64}
    (hlen : ∀ l, len = some l → CopyWithin heap b swith l.toInt) :
    Safe (fun b' => b'.Fits ∧ b'.bytes.length < 2 ^ 48) (copied heap b swith len) := by
  cases len with
  | none => exact (rimStrdupl_safe hb.holds hlt swith).mono fun b' hb' => ⟨hb'.1.fits, hb'.2⟩
  | some l => exact rimCopyString_safe l.toInt_lt (hlen l rfl)

theorem eval_safe (hs : s.Inside) {e : List StrPart} (he : s.ExprWithin heap e) :
    Safe (fun r => r.1.Inside) (s.eval heap e) := by
  cases e with
  | nil => exact hs
  | cons part e =>
    cases e with
    | cons q e =>
      have hparts : ∀ p ∈ part :: q :: e, s.PartWithin p := by
        cases part with
        | whole t => exact he
        | sub t beg len => exact he
      cases part with
      | whole t => exact make_safe hs (concat_safe heap hs hparts)
      | sub t beg len => exact make_safe hs (concat_safe heap hs hparts)
    | nil =>
      cases part with
      | whole t => exact hs
      | sub t beg len =>
        have hfits := hs.fits (s.term t)
        have hlt := hs.lt (s.term t)
        refine make_safe hs ?_
        unfold substring
        by_cases hall : len.toInt = -1
        · rw [if_pos hall]
          exact (rimStrdupl_safe hfits.holds hlt beg.toInt).mono fun b' hb' => ⟨hb'.1.fits, hb'.2⟩
        · rw [if_neg hall]
          exact rimCopyString_safe len.toInt_lt (he hall)

/-- The condition on a statement: a length is set within the string, there is as much as is
copied, and what is new happens to end with a null. -/
def Within (s : StrSys) (heap : Heap) : StrOp → Prop
  | .setString _ e => s.ExprWithin heap e
  | .setLength str len => 0 ≤ len.toInt ∧ len.toInt ≤ (s.string str).rimMemGetLen
  | .newString _ len => NewWithin heap len.toInt
  | .trimString e => s.ExprWithin heap e
  | .copyString e _ swith len =>
    s.ExprWithin heap e ∧ ∀ s' p l, s.eval heap e = .ok (s', p) → len = some l →
      CopyWithin heap (s'.mem p) swith.toInt l.toInt
  | _ => True

/-- Every statement under the condition stays inside of the strings. -/
theorem exec_safe (prog : StrProg) (hs : s.Inside) {op : StrOp} (hop : s.Within heap op) :
    Safe Inside (s.exec heap prog op) := by
  cases op with
  | setString str e => exact (eval_safe hs hop).bind fun r hr => hr.assign str r.2
  | setLength str len =>
    exact change_safe (f := fun b => b.setLength len.toInt) hs (s.vars str)
      (setLength_safe (hs.fits _).holds (hs.lt _) hop.1 hop.2)
  | setByte str ind num =>
    exact change_safe (f := fun b => b.setByte ind.toInt num.toUInt64.toUInt8) hs (s.vars str)
      (setByte_safe (hs.fits _).holds ind.toInt _)
  | getByte str ind => exact (getByte_safe (hs.fits (s.vars str)).holds ind.toInt).bind fun _ _ => hs
  | newArray str n => exact change_safe (hs.assign str (.array n)) _ (setEmpty_safe (hs.fits _))
  | newString str len => exact makeIn_safe hs str (newBlock_safe len.toInt_lt hop)
  | trimString e =>
    exact (eval_safe hs hop).bind fun r hr => change_safe hr r.2 (rimTrim_safe (hr.fits r.2).holds)
  | copyString e dst swith len =>
    obtain ⟨he, hcopy⟩ := hop
    have heval := eval_safe hs he
    show Safe Inside (s.eval heap e >>= fun r => r.1.makeIn dst (copied heap (r.1.mem r.2) swith.toInt len))
    cases hres : s.eval heap e with
    | error fault =>
      rw [hres] at heval
      exact heval
    | ok r =>
      rw [hres] at heval
      refine makeIn_safe heval dst (copied_safe (heval.fits _) (heval.lt _) _ fun l hl => ?_)
      exact hcopy r.1 r.2 l hres hl
  | done => exact hs.endRequest prog

theorem init_inside (prog : StrProg) : (init prog).Inside := by
  have hconst : ∀ text : Bytes, text.length < 2 ^ 47 → (const text).Fits ∧ (const text).bytes.length < 2 ^ 48 := by
    intro text htext
    have hholds := const_holds text
    refine ⟨hholds.fits, ?_⟩
    rw [hholds.length, List.length_nil]
    omega
  have hall : ∀ p, ((init prog).mem p).Fits ∧ ((init prog).mem p).bytes.length < 2 ^ 48 := by
    intro p
    cases p with
    | empty => exact hconst [] (by decide)
    | literal n => exact hconst _ (prog.literal_lt n)
    | array n =>
      refine hconst _ ?_
      have hsize := prog.newLen_lt n
      rw [List.length_replicate]
      omega
    | mem n => exact hconst [] (by decide)
  exact ⟨fun p => (hall p).1, fun p => (hall p).2, rfl⟩

/-- A step under the condition keeps the strings inside of their memory. -/
theorem step_inside (prog : StrProg) (hs : s.Inside) {ev : Heap × StrOp} (hev : s.Within ev.1 ev.2)
    (hstep : s.Step prog ev s') : s'.Inside := by
  have hsafe := exec_safe prog hs hev
  cases hstep with
  | done h => exact hsafe.of_ok h
  | reported _ _ => exact hs.endRequest prog
  | outside s' h => exact absurd rfl (hsafe.of_error h)

/-- The length and the index of a statement are those that are documented. -/
def InRange (s : StrSys) : StrOp → Prop
  | .setLength str len => 0 ≤ len.toInt ∧ len.toInt ≤ (s.string str).rimMemGetLen
  | .setByte str ind _ => 0 ≤ ind.toInt ∧ ind.toInt ≤ (s.string str).rimMemGetLen - 1
  | .getByte str ind => 0 ≤ ind.toInt ∧ ind.toInt ≤ (s.string str).rimMemGetLen - 1
  | _ => True

/-- An index that is not within the string is reported. -/
theorem exec_reports (prog : StrProg) (hs : s.Inside) {op : StrOp} (hop : s.Within heap op) (hr : ¬ s.InRange op) :
    s.exec heap prog op = .error .error := by
  have hcheck : ∀ str (ind : Int), ¬ (0 ≤ ind ∧ ind ≤ (s.string str).rimMemGetLen - 1) →
      (s.string str).checkIndex ind = .error .error := by
    intro str ind hind
    have hholds := (hs.fits (s.vars str)).holds
    have hlen : (s.string str).rimMemGetLen = _ := hholds.getLen
    unfold string at *
    rw [checkIndex_eq hholds, if_neg (by omega)]
  cases op with
  | setLength str len => exact absurd hop hr
  | setByte str ind num =>
    show (s.change (s.vars str) fun b => b.setByte ind.toInt num.toUInt64.toUInt8) = _
    have hind := hcheck str ind.toInt hr
    unfold string at hind
    unfold change StrBlock.setByte
    simp only [hind]
    rfl
  | getByte str ind =>
    show ((s.string str).getByte ind.toInt >>= fun _ => Except.ok s) = _
    unfold StrBlock.getByte
    rw [hcheck str ind.toInt hr]
    rfl
  | setString | newArray | newString | trimString | copyString | done => exact absurd trivial hr

/-- A reported error leaves all strings as they are. -/
theorem step_reported (prog : StrProg) {op : StrOp} (h : s.exec heap prog op = .error .error)
    (hstep : s.Step prog (heap, op) s') : s'.mem = s.mem := by
  cases hstep with
  | done h' =>
    rw [h] at h'
    cases h'
  | reported _ _ => rfl
  | outside s' h' =>
    rw [h] at h'
    cases h'

/-- In every run whose statements meet the condition, each string is inside of its memory and
ends with a null, no statement reads or writes elsewhere, and what is not within a string is
reported and changes none. -/
theorem run_inside (prog : StrProg) {evs : List (Heap × StrOp)}
    (hrun : GuardedRun (Step prog) (fun s ev => s.Within ev.1 ev.2) (init prog) evs s) :
    (∀ p, (s.mem p).Fits) ∧
      ∀ heap op, s.Within heap op → s.exec heap prog op ≠ .error .outside ∧
        (¬ s.InRange op → s.exec heap prog op = .error .error ∧ ∀ s', s.Step prog (heap, op) s' → s'.mem = s.mem) := by
  have hs : s.Inside := hrun.invariant (fun hs hev hstep => step_inside prog hs hev hstep) (init_inside prog)
  refine ⟨hs.fits, fun heap op hop => ⟨fun hout => ?_, fun hr => ?_⟩⟩
  · exact absurd rfl ((exec_safe prog hs hop).of_error hout)
  · have hreport := exec_reports prog hs hop hr
    exact ⟨hreport, fun s' hstep => step_reported prog hreport hstep⟩

/-- A program with the literal `ab`. -/
def oneLiteral : StrProg where
  literal _ := [97, 98]
  newLen _ := 2
  process _ := false
  literal_lt _ := by decide
  newLen_pos _ := by decide
  newLen_lt _ := by decide

/-- A string is made, a byte is set, and the length. -/
theorem run_inside_byte : ∃ s, Run (Step oneLiteral) (init oneLiteral)
    [(plenty, .newString 0 3), (plenty, .setByte 0 0 65), (plenty, .setLength 0 1)] s ∧ ∀ p, (s.mem p).Fits := by
  have hnew : NewWithin plenty (3 : Int64).toInt := fun _ => ⟨by decide, fun _ => rfl⟩
  have hrun : GuardedRun (Step oneLiteral) (fun s ev => s.Within ev.1 ev.2) (init oneLiteral)
      [(plenty, .newString 0 3), (plenty, .setByte 0 0 65), (plenty, .setLength 0 1)] _ :=
    .cons hnew (.done rfl) (.cons trivial (.done rfl) (.cons ⟨by decide, by decide⟩ (.done rfl) (.nil _)))
  exact ⟨_, hrun.mono fun _ _ _ => trivial, (run_inside oneLiteral hrun).1⟩

/-- The length of a literal of two bytes is set to 100. -/
theorem run_not_inside : ¬ ∀ (prog : StrProg) (evs : List (Heap × StrOp)) (s : StrSys),
    Run (Step prog) (init prog) evs s → ∀ heap op, s.exec heap prog op ≠ .error .outside := by
  intro h
  refine h oneLiteral [(plenty, .setString 0 [.whole (.literal 0)])] _ (.cons trivial (.done rfl) (.nil _)) plenty
    (.setLength 0 100) ?_
  rfl

end StrSys

end RimStone
