import RimStone.Laws.Text.CopyString

/-!
# A substring alone and in a concatenation

For `@(s, beg, len)` there are three functions: alone, `rim_strdupl` up to the end and `rim_copy_string` for a length;
in a concatenation, `rim_add_string_part`. The last takes no beginning at the end of the string, where the first does,
and it checks the length, which the second does not. That check is of a sum in 64 bits, and there is a length that
passes it and is not there.
-/

namespace RimStone

open RimStone.Lib

variable {heap : Heap} {b e res : StrBlock} {s : StrSys}

/-! ## What is generated -/

namespace StrSys

def value (heap : Heap) (s : StrSys) (e : List StrPart) : Except WriteFault StrBlock := do
  let r ← s.eval heap e
  .ok (r.1.mem r.2)

theorem value_make (x : Except WriteFault StrBlock) : (s.make x >>= fun r => Except.ok (r.1.mem r.2)) = x := by
  cases x with
  | ok b =>
    show Except.ok ((s.alloc b).mem (.mem s.next)) = _
    rw [alloc_mem, if_pos rfl]
  | error fault => rfl

theorem value_sub (t : StrTerm) (beg len : Int64) :
    s.value heap [.sub t beg len] = s.substring heap t beg.toInt len.toInt := value_make _

theorem value_joined (e t : StrTerm) (beg len : Int64) :
    s.value heap [.whole e, .sub t beg len] = s.concat heap [.whole e, .sub t beg len] := value_make _

end StrSys

/-- There is a string from `beg` on, up to the end or of the length. -/
def SubThere (b : StrBlock) (beg len : Int) : Prop :=
  0 ≤ beg ∧ beg < b.rimMemGetLen ∧ (len = -1 ∨ 0 ≤ len ∧ beg + len ≤ b.rimMemGetLen)

def subPart (b : StrBlock) (beg len : Int) : Bytes := (b.text.drop beg.toNat).take (partLen b beg len).toNat

theorem SubThere.partLen_bounds {beg len : Int} (h : SubThere b beg len) :
    0 ≤ partLen b beg len ∧ beg + partLen b beg len ≤ b.rimMemGetLen := by
  obtain ⟨hpos, hlt, hlen⟩ := h
  unfold partLen
  split <;> omega

theorem SubThere.slice_eq {beg len : Int} (hb : b.Fits) (h : SubThere b beg len) :
    slice b.bytes beg (partLen b beg len) = some (subPart b beg len) := by
  obtain ⟨hlen, hend⟩ := h.partLen_bounds
  exact slice_text hb h.1 hlen hend

/-! ## Alone -/

theorem inside_some {α : Type} (a : α) : inside (some a) = .ok a := rfl

theorem rimCopyString_none {start len : Int} (hlen : 0 ≤ len) (hstart : 0 ≤ start) (hin : start < b.rimMemGetLen)
    (hgives : heap.gives (requested (toRimNum (len + 1))) = false) :
    rimCopyString heap b start len = .error .memory := by
  unfold rimCopyString rimRealloc
  rw [if_neg (by omega), if_neg (by omega), hgives]
  rfl

/-- The end of a string is a copy of the empty string. -/
theorem rimStrdupl_end {text rest : Bytes} (hb : b.Holds text rest) (hgives : heap.gives 17 = true) :
    rimStrdupl heap b text.length = .ok ⟨[0], 1⟩ := by
  have hsize : ((text.length : Int) + 1 - text.length) = 1 := by omega
  have hslice : slice b.bytes text.length 1 = some [0] := by
    rw [slice_eq (Int.natCast_nonneg _) (by decide) (by rw [hb.length]; omega), Int.toNat_natCast, hb.bytes, List.drop_left]
    rfl
  have hcopy : memcpy (reblock heap [] 1) 0 [0] = some [0] := memcpy_whole (by rw [length_reblock]; rfl)
  unfold rimStrdupl
  rw [hb.getLen, if_neg (by omega), hsize]
  dsimp only
  rw [rimRealloc_given [] (by decide) (by decide) hgives, ok_bind, hslice, inside_some,
    ok_bind, show (1 : Int).toNat = 1 from rfl, hcopy, inside_some, ok_bind]

theorem substring_gives {t : StrTerm} (hb : (s.block t).Fits) (hlt : (s.block t).bytes.length < 2 ^ 48) {beg len : Int}
    (hmax : len < 2 ^ 63) (h : SubThere (s.block t) beg len) :
    Gives (fun b' => b'.Holds (subPart (s.block t) beg len) []) (s.substring heap t beg len) := by
  have hslice := h.slice_eq hb
  have htext := length_text hb
  obtain ⟨hpos, hbeg, hlen⟩ := h
  unfold StrSys.substring
  by_cases hall : len = -1
  · rw [if_pos hall]
    refine (rimStrdupl_gives hb.holds hlt hpos ?_).mono fun b' hb' => ?_
    · change beg ≤ ((s.block t).text.length : Nat)
      omega
    · have hpart : subPart (s.block t) beg len = (s.block t).text.drop beg.toNat := by
        unfold subPart partLen
        rw [if_pos hall, List.take_of_length_le]
        rw [List.length_drop]
        omega
      rw [hpart]
      exact hb'.1
  · rw [if_neg hall]
    have hbounds := hlen.resolve_left hall
    cases hgives : heap.gives (requested (toRimNum (len + 1))) with
    | false =>
      rw [rimCopyString_none hbounds.1 hpos hbeg hgives]
      exact Yields.error rfl
    | true =>
      have hpart : partLen (s.block t) beg len = len := if_neg hall
      rw [hpart] at hslice
      rw [rimCopyString_eq hbounds.1 hmax hpos (by omega) hgives hslice]
      refine ⟨rfl, ?_⟩
      unfold subPart
      dsimp only
      rw [hpart, List.length_take, List.length_drop]
      omega

theorem substring_reports {t : StrTerm} {beg len : Int} (h : beg < 0 ∨ (s.block t).rimMemGetLen ≤ beg ∨ len < -1)
    (hend : len = -1 → beg ≠ (s.block t).rimMemGetLen) : s.substring heap t beg len = .error .error := by
  unfold StrSys.substring
  by_cases hall : len = -1
  · have hout : beg < 0 ∨ (s.block t).rimMemGetLen < beg := by
      have hne := hend hall
      omega
    rw [if_pos hall]
    unfold rimStrdupl
    rw [if_pos hout]
  · rw [if_neg hall]
    unfold rimCopyString
    by_cases hneg : len < 0
    · rw [if_pos hneg]
    · rw [if_neg hneg, if_pos (by omega)]

/-! ## In a concatenation -/

theorem concat_pair (e t : StrTerm) (beg len : Int64) :
    s.concat heap [.whole e, .sub t beg len] =
      (rimAddString heap ⟨[], (s.mem .empty).len⟩ (s.block e) >>= fun res =>
        rimAddStringPart heap res (s.block t) beg.toInt len.toInt >>= fun res =>
          rimRealloc heap res.bytes (res.rimMemGetLen + 1)) := by
  unfold StrSys.concat
  rw [List.foldlM_cons]
  change ((rimAddString heap ⟨[], (s.mem .empty).len⟩ (s.block e) >>= fun res =>
    [StrPart.sub t beg len].foldlM (s.addPart heap) res) >>= _) = _
  cases rimAddString heap ⟨[], (s.mem .empty).len⟩ (s.block e) with
  | error fault => rfl
  | ok res =>
    rw [ok_bind, ok_bind, List.foldlM_cons]
    change ((rimAddStringPart heap res (s.block t) beg.toInt len.toInt >>= fun res => pure res) >>= _) = _
    cases rimAddStringPart heap res (s.block t) beg.toInt len.toInt with
    | error fault => rfl
    | ok res => rfl

/-- The empty string is added to nothing. -/
theorem rimAddString_nothing (he : e.rimMemGetLen = 0) :
    rimAddString heap ⟨[], 1⟩ e =
      if heap.gives 272 then .ok ⟨(reblock heap [] 256).set 0 0, 1⟩ else .error .memory := by
  have hnone : (⟨[], 1⟩ : StrBlock).rimMemGetLen = 0 := rfl
  have hslice : slice e.bytes 0 0 = some [] := slice_eq (by decide) (by decide) (by omega)
  unfold rimAddString addBytes
  rw [he, hnone, show roomFor (toRimNum (0 + 0 + 1)) = 256 from by decide, show toRimNum (0 + 0) = 0 from by decide,
    show toRimNum (0 + 0 + 1) = 1 from by decide]
  split
  · next hgives =>
    have hlen : (reblock heap [] 256).length = 256 := length_reblock _ _
    have hcopy : memcpyAt (reblock heap [] 256) 0 [] = some (reblock heap [] 256) := by
      unfold memcpyAt memcpy
      rw [if_pos (Int.le_refl 0), Int.toNat_zero, List.length_nil, if_pos (Nat.zero_le _), List.take_zero,
        List.nil_append, List.nil_append, List.drop_zero]
    have hpoke : pokeAt (reblock heap [] 256) 0 0 = some ((reblock heap [] 256).set 0 0) := by
      unfold pokeAt
      rw [if_pos (Int.le_refl 0), Int.toNat_zero, poke_eq (by rw [hlen]; decide)]
    rw [rimRealloc_given [] (by decide) (by decide) hgives, show (256 : Int).toNat = 256 from rfl, ok_bind, hslice,
      inside_some, ok_bind, hcopy, inside_some, ok_bind, hpoke, inside_some, ok_bind]
  · next hgives =>
    unfold rimRealloc
    rw [show requested 256 = 272 from by decide, if_neg hgives]
    rfl

/-- What the result is, once the empty string is in it. -/
structure Begun (res : StrBlock) : Prop where
  len : res.rimMemGetLen = 0
  size : res.bytes.length = 256

theorem first_begun (heap : Heap) : Begun ⟨(reblock heap [] 256).set 0 0, 1⟩ := by
  refine ⟨rfl, ?_⟩
  rw [List.length_set, length_reblock]

theorem Begun.ready (h : Begun res) : Ready res := by
  have hlen := h.len
  have hsize := h.size
  exact ⟨by omega, by omega, by omega⟩

/-- A part that is there is the result. -/
theorem part_gives (hres : Begun res) (hb : b.Fits) (hlt : b.bytes.length < 2 ^ 48) {beg len : Int} (h : SubThere b beg len) :
    Gives (fun b' => b'.Holds (subPart b beg len) [])
      (rimAddStringPart heap res b beg len >>= fun res => rimRealloc heap res.bytes (res.rimMemGetLen + 1)) := by
  have hslice := h.slice_eq hb
  obtain ⟨hlen, hend⟩ := h.partLen_bounds
  have hroom := hb.room
  have hbeg := h.1
  have hin := h.2.1
  unfold rimAddStringPart
  rw [if_neg (by omega), toRimNum_eq (x := beg + partLen b beg len) (by omega) (by omega),
    toRimNum_eq (by omega) (by omega), if_neg (by omega)]
  refine (addBytes_gives hres.ready hbeg hlen (by omega) hlt).bind fun r hr => ?_
  obtain ⟨hsmall, a, src, c, hholds, ha, hsrc⟩ := hr
  obtain rfl := Option.some.inj (hslice.symm.trans hsrc)
  obtain rfl : a = [] := by
    have hzero := hres.len
    exact List.eq_nil_of_length_eq_zero (by omega)
  exact (trimmed_gives hholds hsmall).mono fun b' hb' => hb'.1

/-- A part that is not there is reported, but for a length that is too large for the check. -/
theorem part_reports (hb : b.Fits) (hlt : b.bytes.length < 2 ^ 48) {beg len : Int} (hneg : -2 ^ 63 ≤ len) (hmax : len < 2 ^ 63)
    (h : ¬ SubThere b beg len) (hsum : 0 ≤ beg → beg < b.rimMemGetLen → beg + len ≤ 2 ^ 63) :
    rimAddStringPart heap res b beg len = .error .error := by
  have hpos := hb.pos
  have hroom := hb.room
  unfold rimAddStringPart
  by_cases hout : beg < 0 ∨ b.rimMemGetLen - 1 < beg
  · rw [if_pos hout]
  · rw [if_neg hout, if_pos]
    have hthere : ¬ (len = -1 ∨ 0 ≤ len ∧ beg + len ≤ b.rimMemGetLen) := fun hlen => h ⟨by omega, by omega, hlen⟩
    have hle := hsum (by omega) (by omega)
    unfold partLen toRimNum
    rw [if_neg (by omega)]
    omega

/-- A length that the check does not stop is too much for any memory, or it is the largest there is. -/
theorem part_huge (hres : Begun res) (hb : b.Fits) (hlt : b.bytes.length < 2 ^ 48) {beg len : Int} (hpos : 0 ≤ beg)
    (hin : beg < b.rimMemGetLen) (hmax : len < 2 ^ 63 - 1) (hsum : 2 ^ 63 < beg + len) :
    rimAddStringPart heap res b beg len = .error .memory := by
  have hroom := hb.room
  have hzero := hres.len
  have hpart : partLen b beg len = len := if_neg (by omega)
  have hgives : heap.gives (requested (roomFor (toRimNum (len + 1)))) = false := by
    cases hgives : heap.gives (requested (roomFor (toRimNum (len + 1)))) with
    | false => rfl
    | true =>
      obtain ⟨-, hbound⟩ := heap.bound _ hgives
      rw [toRimNum_eq (by omega) (by omega), roomFor, if_neg (by omega)] at hbound
      unfold requested toRimNum sizeofHead at hbound
      omega
  unfold rimAddStringPart
  rw [if_neg (by omega), hpart, if_neg]
  · unfold addBytes rimRealloc
    rw [hzero, Int.zero_add, hgives]
    rfl
  · unfold toRimNum
    omega

/-- The largest length is not there, and there is memory for it: it becomes a negative number. -/
theorem part_outside (hres : Begun res) (hb : b.Fits) (hlt : b.bytes.length < 2 ^ 48) {beg : Int} (hpos : 2 ≤ beg)
    (hin : beg < b.rimMemGetLen) (hgives : heap.gives 272 = true) :
    rimAddStringPart heap res b beg (2 ^ 63 - 1) = .error .outside := by
  have hroom := hb.room
  have hzero := hres.len
  have hpart : partLen b beg (2 ^ 63 - 1) = 2 ^ 63 - 1 := if_neg (by decide)
  have hslice : slice b.bytes beg (2 ^ 63 - 1) = none := if_neg (by omega)
  unfold rimAddStringPart
  rw [if_neg (by omega), hpart, if_neg]
  · unfold addBytes
    rw [hzero, show roomFor (toRimNum (0 + (2 ^ 63 - 1) + 1)) = 256 from by decide,
      rimRealloc_given res.bytes (by decide) (by decide) hgives, ok_bind, hslice]
    rfl
  · unfold toRimNum
    omega

/-! ## The two of them -/

/-- Whatever memory there is, neither reads outside of the string, and where neither lacks memory both report an error,
or both are the part of the string that is asked for. -/
def SubstringSame (s : StrSys) (e t : StrTerm) (beg len : Int64) : Prop :=
  ∀ heap : Heap, s.value heap [.sub t beg len] ≠ .error .outside ∧
    s.value heap [.whole e, .sub t beg len] ≠ .error .outside ∧
    (s.value heap [.sub t beg len] ≠ .error .memory → s.value heap [.whole e, .sub t beg len] ≠ .error .memory →
      s.value heap [.sub t beg len] = .error .error ∧ s.value heap [.whole e, .sub t beg len] = .error .error ∨
      ∃ part b b', slice (s.block t).text beg.toInt (partLen (s.block t) beg.toInt len.toInt) = some part ∧
        s.value heap [.sub t beg len] = .ok b ∧ b.Holds part [] ∧
        s.value heap [.whole e, .sub t beg len] = .ok b' ∧ b'.Holds part [])

/-- For a string of `size` bytes: up to the end, the beginning is not the end; and a length is there from a beginning in
the string, or there is no memory for so much, and the sum of the two is not too large for the check. -/
def SubstringWithin (size beg len : Int) : Prop :=
  (len = -1 → beg ≠ size) ∧
    (0 ≤ beg → beg < size → size < beg + len → 2 ^ 47 ≤ len + 17 ∧ (2 ≤ beg → len < 2 ^ 63 - 1))

/-- A length that no memory is large enough for. -/
theorem gives_huge {len : Int} (hmax : len < 2 ^ 63) (hlen : 2 ^ 47 ≤ len + 17) :
    heap.gives (requested (toRimNum (len + 1))) = false := by
  cases hgives : heap.gives (requested (toRimNum (len + 1))) with
  | false => rfl
  | true =>
    obtain ⟨-, hbound⟩ := heap.bound _ hgives
    unfold requested toRimNum sizeofHead at hbound
    omega

/-- Memory for what `rim_copy_string` makes. -/
theorem plenty_gives {len : Int} (hpos : 0 ≤ len) (hlen : len + 17 < 2 ^ 47) :
    plenty.gives (requested (toRimNum (len + 1))) = true := by
  rw [toRimNum_eq (by omega) (by omega), requested_eq (by omega) (by omega)]
  refine decide_eq_true ?_
  unfold sizeofHead
  omega

namespace StrSys

variable {e t : StrTerm} {beg len : Int64}

/-- The concatenation, once the empty string is in it. -/
theorem joined_eq (hs : s.Inside) (he : (s.block e).rimMemGetLen = 0) (heap : Heap) (t : StrTerm) (beg len : Int64) :
    s.value heap [.whole e, .sub t beg len] =
      if heap.gives 272 then
        rimAddStringPart heap ⟨(reblock heap [] 256).set 0 0, 1⟩ (s.block t) beg.toInt len.toInt >>= fun res =>
          rimRealloc heap res.bytes (res.rimMemGetLen + 1)
      else .error .memory := by
  have hone : (s.mem .empty).len = 1 := by
    have hroom := (hs.fits .empty).room
    have hpos := (hs.fits .empty).pos
    have hempty := hs.empty
    unfold StrBlock.rimMemGetLen at hroom hpos
    omega
  rw [value_joined, concat_pair, hone, rimAddString_nothing he]
  split
  · exact ok_bind _ _
  · rfl

/-- Both are the part that is there. -/
theorem same_there (hs : s.Inside) (he : (s.block e).rimMemGetLen = 0) (h : SubThere (s.block t) beg.toInt len.toInt) :
    SubstringSame s e t beg len := by
  intro heap
  have hfits := hs.fits (s.term t)
  have hlt := hs.lt (s.term t)
  have hbounds := h.partLen_bounds
  have htext := length_text hfits
  have halone := @substring_gives heap s t hfits hlt beg.toInt len.toInt len.toInt_lt h
  have hjoined : Gives (fun b' => b'.Holds (subPart (s.block t) beg.toInt len.toInt) [])
      (s.value heap [.whole e, .sub t beg len]) := by
    rw [joined_eq hs he]
    split
    · exact part_gives (first_begun heap) hfits hlt h
    · exact Yields.error rfl
  have hpart : slice (s.block t).text beg.toInt (partLen (s.block t) beg.toInt len.toInt) =
      some (subPart (s.block t) beg.toInt len.toInt) := slice_eq h.1 hbounds.1 (by unfold block at *; omega)
  rw [← value_sub] at halone
  cases hx : s.value heap [.sub t beg len] with
  | error fault =>
    rw [hx] at halone
    obtain rfl : fault = .memory := halone
    refine ⟨by simp, fun hout => ?_, fun hmem => absurd rfl hmem⟩
    have hfault := hjoined.of_error hout
    cases hfault
  | ok b =>
    cases hy : s.value heap [.whole e, .sub t beg len] with
    | error fault =>
      rw [hy] at hjoined
      obtain rfl : fault = .memory := hjoined
      exact ⟨by simp, by simp, fun _ hmem => absurd rfl hmem⟩
    | ok b' =>
      rw [hx] at halone
      rw [hy] at hjoined
      exact ⟨by simp, by simp, fun _ _ => .inr ⟨_, b, b', hpart, rfl, halone, rfl, hjoined⟩⟩

theorem same_reported (hs : s.Inside) (he : (s.block e).rimMemGetLen = 0)
    (halone : ∀ heap, s.substring heap t beg.toInt len.toInt = .error .error)
    (hjoined : ∀ heap res, Begun res → rimAddStringPart heap res (s.block t) beg.toInt len.toInt = .error .error) :
    SubstringSame s e t beg len := by
  intro heap
  rw [joined_eq hs he, value_sub, halone heap]
  split
  · rw [hjoined heap _ (first_begun heap)]
    exact ⟨by simp, by simp [bind, Except.bind], fun _ _ => .inl ⟨rfl, rfl⟩⟩
  · exact ⟨by simp, by simp, fun _ hmem => absurd rfl hmem⟩

/-- There is no memory for what is alone. -/
theorem same_huge (hs : s.Inside) (he : (s.block e).rimMemGetLen = 0)
    (halone : ∀ heap, s.substring heap t beg.toInt len.toInt = .error .memory)
    (hjoined : ∀ heap res, Begun res → rimAddStringPart heap res (s.block t) beg.toInt len.toInt = .error .error ∨
      rimAddStringPart heap res (s.block t) beg.toInt len.toInt = .error .memory) :
    SubstringSame s e t beg len := by
  intro heap
  rw [joined_eq hs he, value_sub, halone heap]
  refine ⟨by simp, ?_, fun hmem => absurd rfl hmem⟩
  split
  · rcases hjoined heap _ (first_begun heap) with herror | hmem
    · rw [herror]
      simp [bind, Except.bind]
    · rw [hmem]
      simp [bind, Except.bind]
  · simp

end StrSys

open StrSys

/-- Alone or in a concatenation, a substring is the same just where the condition holds. -/
theorem substring_same_iff (hs : s.Inside) {e : StrTerm} (he : (s.block e).rimMemGetLen = 0) (t : StrTerm) (beg len : Int64) :
    SubstringSame s e t beg len ↔ SubstringWithin (s.block t).rimMemGetLen beg.toInt len.toInt := by
  have hfits : (s.block t).Fits := hs.fits (s.term t)
  have hlt : (s.block t).bytes.length < 2 ^ 48 := hs.lt (s.term t)
  have hroom := hfits.room
  have hmax := len.toInt_lt
  have hmin := Int64.le_toInt len
  have hjoined : ∀ heap, heap.gives 272 = true → s.value heap [.whole e, .sub t beg len] =
      (rimAddStringPart heap ⟨(reblock heap [] 256).set 0 0, 1⟩ (s.block t) beg.toInt len.toInt >>= fun res =>
        rimRealloc heap res.bytes (res.rimMemGetLen + 1)) := by
    intro heap hgives
    rw [joined_eq hs he, if_pos hgives]
  constructor
  · intro h
    obtain ⟨-, hinside, hsame⟩ := h plenty
    rw [hjoined plenty rfl] at hinside hsame
    refine ⟨fun hall hend => ?_, fun hpos hin hout => ⟨?_, fun htwo => ?_⟩⟩
    · -- the end of the string is its empty end alone
      have hthere : ¬ SubThere (s.block t) beg.toInt len.toInt := fun hthere => by
        have hbeg := hthere.2.1
        omega
      have halone : s.value plenty [.sub t beg len] = .ok ⟨[0], 1⟩ := by
        have hcopy := @rimStrdupl_end plenty (s.block t) _ _ hfits.holds rfl
        rw [← hfits.holds.getLen] at hcopy
        rw [value_sub, substring, if_pos hall, hend]
        exact hcopy
      rw [part_reports hfits hlt hmin hmax hthere (by omega), halone] at hsame
      rcases hsame (by simp) (by simp [bind, Except.bind]) with ⟨halone, -⟩ | ⟨part, b, b', -, -, -, hjoin, -⟩
      · cases halone
      · cases hjoin
    · -- more than there is, and there is memory for it
      by_contra hsmall
      have hthere : ¬ SubThere (s.block t) beg.toInt len.toInt := fun hthere => by
        have hlen := hthere.2.2
        omega
      have hgives : plenty.gives (requested (toRimNum (len.toInt + 1))) = true := plenty_gives (by omega) (by omega)
      have halone : s.value plenty [.sub t beg len] = rimCopyString plenty (s.block t) beg.toInt len.toInt := by
        rw [value_sub, substring, if_neg (by omega)]
      rw [part_reports hfits hlt hmin hmax hthere (by omega)] at hsame
      by_cases hbytes : beg.toInt + len.toInt ≤ (s.block t).bytes.length
      · have hcopy := rimCopyString_eq (b := s.block t) (by omega) hmax hpos (by omega) hgives
          (slice_eq hpos (by omega) hbytes)
        rw [halone, hcopy] at hsame
        rcases hsame (by simp) (by simp [bind, Except.bind]) with ⟨hok, -⟩ | ⟨part, b, b', -, -, -, hjoin, -⟩
        · cases hok
        · cases hjoin
      · have houtside := @rimCopyString_outside plenty (s.block t) beg.toInt len.toInt (by omega) hmax hpos hin hgives (by omega)
        exact (h plenty).1 (halone.trans houtside)
    · -- the sum is a negative number
      by_contra hlen
      have hlast : len.toInt = 2 ^ 63 - 1 := by omega
      rw [hlast, part_outside (first_begun plenty) hfits hlt htwo hin rfl] at hinside
      exact hinside rfl
  · rintro ⟨hend, hmuch⟩
    by_cases hthere : SubThere (s.block t) beg.toInt len.toInt
    · exact same_there hs he hthere
    by_cases hin : 0 ≤ beg.toInt ∧ beg.toInt < (s.block t).rimMemGetLen ∧ 0 ≤ len.toInt
    · obtain ⟨hpos, hbeg, hlen⟩ := hin
      have hout : (s.block t).rimMemGetLen < beg.toInt + len.toInt := by
        by_contra hle
        exact hthere ⟨hpos, hbeg, .inr ⟨hlen, by omega⟩⟩
      obtain ⟨hhuge, hlast⟩ := hmuch hpos hbeg hout
      refine same_huge hs he (fun heap => ?_) fun heap res hres => ?_
      · rw [substring, if_neg (by omega)]
        exact rimCopyString_none hlen hpos hbeg (gives_huge hmax hhuge)
      · by_cases hsum : beg.toInt + len.toInt ≤ 2 ^ 63
        · exact .inl (part_reports hfits hlt hmin hmax hthere fun _ _ => hsum)
        · exact .inr (part_huge hres hfits hlt hpos hbeg (hlast (by omega)) (by omega))
    · have hout : beg.toInt < 0 ∨ (s.block t).rimMemGetLen ≤ beg.toInt ∨ len.toInt < -1 := by
        by_contra hnot
        refine hthere ⟨by omega, by omega, .inl (by omega)⟩
      refine same_reported hs he (fun heap => substring_reports hout hend) fun heap res _ => ?_
      refine part_reports hfits hlt hmin hmax hthere fun hpos hbeg => ?_
      omega

/-- The second byte of `ab`. -/
theorem substring_same_literal : SubstringSame (init oneLiteral) (.var 0) (.literal 0) 1 1 :=
  (substring_same_iff (init_inside oneLiteral) rfl (.literal 0) 1 1).mpr ⟨by decide, by decide⟩

/-- The end of `ab` is empty alone and an error in a concatenation, and nine bytes from the second on are copied from
outside of it. -/
theorem substring_not_same :
    (init oneLiteral).value plenty [.sub (.literal 0) 2 (-1)] = .ok ⟨[0], 1⟩ ∧
      (init oneLiteral).value plenty [.whole (.var 0), .sub (.literal 0) 2 (-1)] = .error .error ∧
      (init oneLiteral).value plenty [.sub (.literal 0) 1 9] = .error .outside ∧
      ¬ SubstringSame (init oneLiteral) (.var 0) (.literal 0) 1 9 := by
  refine ⟨rfl, ?_, rfl, fun h => (h plenty).1 rfl⟩
  have hs := init_inside oneLiteral
  have hfits : ((init oneLiteral).block (.literal 0)).Fits := hs.fits _
  have hlt : ((init oneLiteral).block (.literal 0)).bytes.length < 2 ^ 48 := hs.lt _
  rw [joined_eq hs rfl, if_pos (show plenty.gives 272 = true from rfl), part_reports hfits hlt (by decide) (by decide)]
  · rfl
  · exact fun hthere => absurd hthere.2.1 (by decide)
  · exact fun _ _ => by decide

end RimStone
