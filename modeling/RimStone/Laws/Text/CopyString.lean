import RimStone.Laws.Text.Strings

/-!
# Copying a part of a string

`rim_copy_string` computes how many bytes there are to copy and then copies as many as it was
asked for. So what it makes is a part of the string as long as that is all within it. One byte
more is the null, which becomes a byte of the new string; after that, it is what else was
allocated, and then what is behind the memory.
-/

namespace RimStone

open RimStone.Lib

variable {heap : Heap} {b : StrBlock} {start len : Int}

def StrBlock.text (b : StrBlock) : Bytes := b.bytes.take b.rimMemGetLen.toNat

/-- An error is reported, or the string is that of the bytes from `start` on, at most `len` of
them. -/
def CopiesPart (heap : Heap) (b : StrBlock) (start len : Int) : Prop :=
  Safe (fun b' => b'.Holds ((b.text.drop start.toNat).take len.toNat) []) (rimCopyString heap b start len)

/-- The start is not in the string, there is no memory, or all that is asked for is in the
string. -/
def PartWithin (heap : Heap) (b : StrBlock) (start len : Int) : Prop :=
  start < 0 ∨ b.rimMemGetLen ≤ start ∨ heap.gives (requested (toRimNum (len + 1))) = false ∨
    start + len ≤ b.rimMemGetLen

theorem length_text (h : b.Fits) : (b.text.length : Int) = b.rimMemGetLen := by
  have hpos := h.pos
  have hroom := h.room
  unfold StrBlock.text
  rw [List.length_take]
  omega

/-- A part of the text is what is there. -/
theorem slice_text (h : b.Fits) (hstart : 0 ≤ start) (hlen : 0 ≤ len) (hend : start + len ≤ b.rimMemGetLen) :
    slice b.bytes start len = some ((b.text.drop start.toNat).take len.toNat) := by
  have hroom := h.room
  rw [slice_eq hstart hlen (by omega), StrBlock.text, List.drop_take, List.take_take, Nat.min_eq_left (by omega)]

/-- Bytes outside of the memory are copied. -/
theorem rimCopyString_outside (hlen : 0 ≤ len) (hlt : len < 2 ^ 63) (hstart : 0 ≤ start)
    (hin : start < b.rimMemGetLen) (hgives : heap.gives (requested (toRimNum (len + 1))) = true)
    (hend : b.bytes.length < start + len) : rimCopyString heap b start len = .error .outside := by
  have hsmall := gives_of_toRimNum hlen hlt hgives
  have hslice : slice b.bytes start len = none := if_neg (by omega)
  rw [toRimNum_eq (by omega) (by omega), requested_eq (by omega) (by omega)] at hgives
  unfold rimCopyString
  rw [if_neg (by omega), if_neg (by omega), toRimNum_eq (by omega) (by omega),
    rimRealloc_given [] (by omega) (by omega) hgives]
  simp only [hslice, inside, Option.elim, bind, Except.bind]

/-- A part of a string is copied exactly where all of it is in the string. -/
theorem copiesPart_iff (h : b.Fits) (start len : Int64) (hlen : 0 ≤ len.toInt) :
    CopiesPart heap b start.toInt len.toInt ↔ PartWithin heap b start.toInt len.toInt := by
  have hlt : len.toInt < 2 ^ 63 := Int64.toInt_lt len
  have hroom := h.room
  have htext := length_text h
  constructor
  · intro hcopy
    by_contra hout
    simp only [PartWithin, not_or, Int.not_lt, Int.not_le, Bool.not_eq_false] at hout
    obtain ⟨hstart, hin, hgives, hend⟩ := hout
    by_cases hbytes : start.toInt + len.toInt ≤ b.bytes.length
    · -- the new string is longer than what is left of the text
      have hcopied := rimCopyString_eq hlen hlt hstart (by omega) hgives (slice_eq hstart hlen hbytes)
      have hholds := hcopy.of_ok hcopied
      have hsame : len.toInt + 1 = ((((b.text.drop start.toInt.toNat).take len.toInt.toNat).length + 1 : Nat) : Int) :=
        hholds.len
      rw [List.length_take, List.length_drop] at hsame
      omega
    · have hfault := rimCopyString_outside hlen hlt hstart hin hgives (by omega)
      exact hcopy.of_error hfault rfl
  · rintro (hstart | hin | hgives | hend)
    · unfold CopiesPart rimCopyString
      refine Yields.check (by decide) fun _ => ?_
      rw [if_pos (Or.inl hstart)]
      exact Yields.error (by decide)
    · unfold CopiesPart rimCopyString
      refine Yields.check (by decide) fun _ => ?_
      rw [if_pos (Or.inr (by omega))]
      exact Yields.error (by decide)
    · exact (rimCopyString_memory hgives).mono fun _ hfalse => hfalse.elim
    · by_cases hstart : start.toInt < 0 ∨ b.rimMemGetLen - 1 < start.toInt
      · unfold CopiesPart rimCopyString
        refine Yields.check (by decide) fun _ => ?_
        rw [if_pos hstart]
        exact Yields.error (by decide)
      cases hgives : heap.gives (requested (toRimNum (len.toInt + 1))) with
      | false => exact (rimCopyString_memory hgives).mono fun _ hfalse => hfalse.elim
      | true =>
        have hslice := slice_text h (by omega) hlen hend
        unfold CopiesPart
        rw [rimCopyString_eq hlen hlt (by omega) (by omega) hgives hslice]
        refine ⟨rfl, ?_⟩
        show len.toInt + 1 = _
        rw [List.length_take, List.length_drop]
        omega

/-- The string `abc`, the two bytes from the second on. -/
theorem copiesPart_abc : CopiesPart plenty (StrBlock.const (ascii "abc")) 1 2 ∧
    rimCopyString plenty (StrBlock.const (ascii "abc")) 1 2 = .ok (StrBlock.const (ascii "bc")) := by
  constructor
  · exact (copiesPart_iff (StrBlock.const_holds _).fits 1 2 (by decide)).mpr (Or.inr (Or.inr (Or.inr (by decide))))
  · rfl

/-- The string `abc`, from its second byte on: with three bytes the null is one of them, and with
nine more is copied than there is. -/
theorem not_copiesPart : ¬ (∀ (b : StrBlock) (start len : Int64), b.Fits → 0 ≤ len.toInt →
      CopiesPart plenty b start.toInt len.toInt) ∧
    rimCopyString plenty (StrBlock.const (ascii "abc")) 1 3 = .ok ⟨ascii "bc" ++ [0, 0], 4⟩ ∧
    rimCopyString plenty (StrBlock.const (ascii "abc")) 1 9 = .error .outside := by
  refine ⟨?_, rfl, rfl⟩
  intro h
  have hcopy := h (StrBlock.const (ascii "abc")) 1 9 (StrBlock.const_holds _).fits (by decide)
  have hfault : rimCopyString plenty (StrBlock.const (ascii "abc")) (Int64.toInt 1) (Int64.toInt 9) =
      .error .outside := rfl
  rw [CopiesPart, hfault] at hcopy
  exact hcopy rfl

end RimStone
