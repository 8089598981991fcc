import RimStone.File.Read
import RimStone.Laws.Memory.Chars

/-!
# What a file read leaves

The two functions take the same way through the clauses, so that they give the same status. But of the two only
`rim_read_file` sets the length of what it read, and it is only at its end that it closes the file; a length of 0 is the
same to both as no length; and the end of file is not told where there is nothing to read, and told where the kernel
reads less than all at once. What is asked for is had where none of this comes in (`ReadPlain`).
-/

namespace RimStone

variable {junk : Nat → UInt8} {f : RegularFile} {position length : Option Int}

def askedBytes (f : RegularFile) (position length : Option Int) : Int := length.getD (f.size - position.getD 0)

/-- Both give the same status, and all bytes that there are of those asked for; the descriptor of the first is closed. -/
structure ReadsAsked (f : RegularFile) (position length : Option Int) (a b : FileRead) : Prop where
  status : a.status = b.status
  closed : a.isOpen = false
  string : 0 ≤ a.status → ∃ text, a.string = some text ∧ b.string = some text ∧ (text.length : Int) = a.status ∧
    text = (f.content.drop (position.getD 0).toNat).take (askedBytes f position length).toNat
  eof : 0 ≤ a.status → a.eof = some (decide (f.size - position.getD 0 < askedBytes f position length)) ∧ b.eof = a.eof
  zero : length = some 0 → 0 ≤ position.getD 0 → position.getD 0 ≤ f.size → a.status = 0

/-- A clause is below zero; or there is something to read, and it is beyond what there can be in a file, or a read that
fails, or all in the file and no more than the kernel reads at once. -/
def ReadPlain (f : RegularFile) (position length : Option Int) : Prop :=
  position.getD 0 < 0 ∨ length.getD 0 < 0 ∨
    (length ≠ some 0 ∧ 0 < askedBytes f position length ∧
      (f.maxOffset < position.getD 0 ∨ (f.failing = true ∧ askedBytes f position length < 2 ^ 63 - 1) ∨
        (position.getD 0 + askedBytes f position length ≤ f.size ∧ askedBytes f position length ≤ MAX_RW_COUNT)))

/-! ## The way through the clauses -/

/-- A file that was just opened is read from its beginning. -/
theorem readFileId_eq : readFileId junk f 0 position length =
    rimReadFileId junk f 0 (position.getD 0) (length.getD 0) true := by
  cases position with
  | some pos => rfl
  | none =>
    have hmax : ¬ (0 : Int) > f.maxOffset := by omega
    simp [readFileId, rimReadFileId, hmax]

section Way

variable {p l sz : Int} (hp : 0 ≤ p) (hl : 0 ≤ l) (hsz : sz = if l > 0 then l else f.size - p)
include hp hl hsz

theorem read_beyond (h : sz < 0) : rimReadFile junk (some f) p l = .ok { status := RIM_ERR_POSITION, isOpen := true } := by
  unfold rimReadFile
  rw [if_neg (by omega), if_neg (by omega)]
  simp only [← hsz]
  exact if_pos h

theorem read_nothing (h : sz = 0) :
    rimReadFile junk (some f) p l = .ok { status := 0, data := emptyData, isOpen := true } := by
  unfold rimReadFile
  rw [if_neg (by omega), if_neg (by omega)]
  simp only [← hsz]
  rw [if_neg (by omega), if_pos h]

theorem read_unseekable (junk : Nat → UInt8) (h : 0 < sz) (hmax : f.maxOffset < p) :
    rimReadFile junk (some f) p l = .ok { status := RIM_ERR_POSITION, data := emptyData, isOpen := false } ∧
      rimReadFileId junk f 0 p l true = .ok { status := RIM_ERR_POSITION, isOpen := true } := by
  have hmax' : p > (f.maxOffset : Int) := hmax
  constructor
  · unfold rimReadFile
    rw [if_neg (by omega), if_neg (by omega)]
    simp only [← hsz]
    rw [if_neg (by omega), if_neg (by omega), if_pos ⟨by omega, hmax'⟩]
  · unfold rimReadFileId
    rw [if_neg (by omega), if_neg (by omega)]
    simp only [if_true, ← hsz]
    rw [if_neg (by omega), if_neg (by omega), if_pos ⟨trivial, hmax'⟩]

/-- Where there is something to read, it is read. -/
theorem rimReadFile_tail (h : 0 < sz) (hmax : p ≤ f.maxOffset) {r : Except (Fault Unit) (Option (Bytes × Nat))}
    (hr : readData junk f p.toNat sz = r) :
    (∀ e, r = .error e → rimReadFile junk (some f) p l = .error e) ∧
      (r = .ok none →
        rimReadFile junk (some f) p l = .ok { status := RIM_ERR_READ, data := emptyData, isOpen := false }) ∧
      ∀ block rd, r = .ok (some (block, rd)) → rimReadFile junk (some f) p l =
        .ok { status := rd, data := some (block, rd), eof := some (decide ((rd : Int) ≠ sz)), isOpen := false } := by
  have hmax' : ¬ p > (f.maxOffset : Int) := by omega
  unfold rimReadFile
  rw [if_neg (by omega : ¬ p < 0), if_neg (by omega : ¬ l < 0)]
  simp only [← hsz]
  rw [if_neg (by omega : ¬ sz < 0), if_neg (by omega : ¬ sz = 0), if_neg (fun h => hmax' h.2), hr]
  refine ⟨?_, ?_, ?_⟩
  · rintro e rfl
    rfl
  · rintro rfl
    rfl
  · rintro block rd rfl
    rfl

theorem rimReadFileId_tail (h : 0 < sz) (hmax : p ≤ f.maxOffset) {r : Except (Fault Unit) (Option (Bytes × Nat))}
    (hr : readData junk f p.toNat sz = r) :
    (r = .ok none →
        rimReadFileId junk f 0 p l true = .ok { status := RIM_ERR_READ, data := emptyData, isOpen := true }) ∧
      ∀ block rd, r = .ok (some (block, rd)) → rimReadFileId junk f 0 p l true =
        .ok { status := rd, data := some (block, sz.toNat), eof := some (decide ((rd : Int) ≠ sz)), isOpen := true } := by
  have hmax' : ¬ p > (f.maxOffset : Int) := by omega
  have hneg : ¬ p < 0 := by omega
  unfold rimReadFileId
  rw [if_neg (fun h => hneg h.2), if_neg (by omega : ¬ l < 0)]
  simp only [if_true, ← hsz]
  rw [if_neg (by omega : ¬ sz < 0), if_neg (by omega : ¬ sz = 0), if_neg (fun h => hmax' h.2), hr]
  constructor
  · rintro rfl
    rfl
  · rintro block rd rfl
    rfl

end Way

/-! ## What is read -/

section Data

variable {sz : Int}

/-- A block of more bytes than there are numbers. -/
theorem readData_undefined (junk : Nat → UInt8) (p : Int) (h : ¬ sz < 2 ^ 63 - 1) : readData junk f p.toNat sz = .error .undefined := by
  have hblock : dataBlock junk sz = none := by
    unfold dataBlock rimNumAdd
    rw [if_neg (by omega), Option.map_none]
  unfold readData
  rw [hblock]

theorem dataBlock_eq (junk : Nat → UInt8) (hpos : 0 < sz) (h : sz < 2 ^ 63 - 1) :
    ∃ block, dataBlock junk sz = some block ∧ block.length = sz.toNat + 1 := by
  refine ⟨(List.range (sz + 1).toNat).map junk, ?_, ?_⟩
  · unfold dataBlock rimNumAdd
    rw [if_pos ⟨by omega, by omega⟩, Option.map_some]
  · rw [List.length_map, List.length_range]
    omega

theorem readData_failing (junk : Nat → UInt8) (p : Int) (hpos : 0 < sz) (h : sz < 2 ^ 63 - 1) (hfail : f.failing = true) :
    readData junk f p.toNat sz = .ok none := by
  obtain ⟨block, hblock, -⟩ := dataBlock_eq junk hpos h
  have hread : f.read p.toNat sz.toNat = none := if_pos hfail
  unfold readData
  rw [hblock]
  simp only [hread]

/-- The bytes from the position on, as many as the kernel reads at once. -/
theorem readData_eq (junk : Nat → UInt8) (p : Int) (hpos : 0 < sz) (h : sz < 2 ^ 63 - 1) (hfail : f.failing = false) :
    ∃ block rd, rd = (f.content.drop p.toNat).take (min sz.toNat MAX_RW_COUNT) ∧
      readData junk f p.toNat sz = .ok (some (block, rd.length)) ∧ block.take rd.length = rd ∧
      block.length = sz.toNat + 1 := by
  obtain ⟨block, hblock, hlen⟩ := dataBlock_eq junk hpos h
  obtain ⟨rd, hrd⟩ : ∃ rd, rd = (f.content.drop p.toNat).take (min sz.toNat MAX_RW_COUNT) := ⟨_, rfl⟩
  have hread : f.read p.toNat sz.toNat = some rd := by
    rw [hrd]
    exact if_neg (by rw [hfail]; exact Bool.false_ne_true)
  have hle : rd.length ≤ sz.toNat := by
    rw [hrd, List.length_take]
    omega
  obtain ⟨b, hb, hblen, hbtake⟩ : ∃ b, memcpy block 0 rd = some b ∧ b.length = block.length ∧ b.take rd.length = rd := by
    refine ⟨rd ++ block.drop rd.length, ?_, ?_, ?_⟩
    · unfold memcpy
      rw [if_pos (by omega), List.take_zero, List.nil_append, Nat.zero_add]
    · rw [List.length_append, List.length_drop]
      omega
    · rw [List.take_left]
  refine ⟨b.set rd.length 0, rd, hrd, ?_, ?_, ?_⟩
  · unfold readData
    rw [hblock]
    simp only [hread, hb, Option.bind_some, poke_eq (show rd.length < b.length by omega)]
  · rw [List.take_set_of_le (Nat.le_refl _), hbtake]
  · rw [List.length_set, hblen, hlen]

end Data

/-! ## The statement -/

/-- Everything is read that is asked for, in both ways. -/
def ReadsBoth (junk : Nat → UInt8) (f : RegularFile) (position length : Option Int) : Prop :=
  ∃ a b, readFile junk (some f) position length = .ok a ∧ readFileId junk f 0 position length = .ok b ∧
    ReadsAsked f position length a b

/-- A clause that is below zero is refused before the file is opened. -/
theorem readsBoth_refused (h : position.getD 0 < 0 ∨ length.getD 0 < 0) : ReadsBoth junk f position length := by
  have hrefused : ∀ st : Int, st < 0 → ∀ {a b : FileRead}, a.status = st → b.status = st → a.isOpen = false →
      (length = some 0 → 0 ≤ position.getD 0 → False) → ReadsAsked f position length a b := by
    intro st hst a b ha hb hclosed hzero
    refine ⟨ha.trans hb.symm, hclosed, fun h => ?_, fun h => ?_, fun hl hp => (hzero hl hp).elim⟩
    · omega
    · omega
  by_cases hp : position.getD 0 < 0
  · refine ⟨{ status := RIM_ERR_POSITION, isOpen := false }, { status := RIM_ERR_POSITION, isOpen := true }, if_pos hp,
      readFileId_eq.trans (if_pos ⟨rfl, hp⟩), hrefused RIM_ERR_POSITION (by decide) rfl rfl rfl ?_⟩
    intro _ hp'
    omega
  · have hl : length.getD 0 < 0 := h.resolve_left hp
    refine ⟨{ status := RIM_ERR_READ, isOpen := false }, { status := RIM_ERR_READ, isOpen := true },
      (if_neg hp).trans (if_pos hl), readFileId_eq.trans ((if_neg fun h => hp h.2).trans (if_pos hl)),
      hrefused RIM_ERR_READ (by decide) rfl rfl rfl ?_⟩
    rintro rfl
    exact absurd hl (by decide)

theorem not_readsBoth_open {a : FileRead} (h : readFile junk (some f) position length = .ok a) (hopen : a.isOpen = true) :
    ¬ ReadsBoth junk f position length := by
  rintro ⟨a', b, ha, -, hasked⟩
  obtain rfl := Except.ok.inj (ha.symm.trans h)
  rw [hasked.closed] at hopen
  cases hopen

/-- A read that answers -1 or a position that is not one is the same error for both. -/
theorem readsBoth_error (st : Int) (hst : st < 0) (hne : length ≠ some 0) {a b : FileRead}
    (ha : readFile junk (some f) position length = .ok a) (hb : readFileId junk f 0 position length = .ok b)
    (hsa : a.status = st) (hsb : b.status = st) (hclosed : a.isOpen = false) : ReadsBoth junk f position length := by
  refine ⟨a, b, ha, hb, hsa.trans hsb.symm, hclosed, fun h => ?_, fun h => ?_, fun h => absurd h hne⟩
  · omega
  · omega

section Read

variable {sz : Int} (hp : 0 ≤ position.getD 0) (hl : 0 ≤ length.getD 0)
  (hsz : sz = if length.getD 0 > 0 then length.getD 0 else f.size - position.getD 0)
include hp hl hsz

theorem not_readsBoth_of_nothing (h : sz ≤ 0) : ¬ ReadsBoth junk f position length := by
  by_cases hzero : sz = 0
  · exact not_readsBoth_open (read_nothing hp hl hsz hzero) rfl
  · exact not_readsBoth_open (read_beyond hp hl hsz (by omega)) rfl

/-- A length of 0, as if there were none. -/
theorem not_readsBoth_zero (hzero : length = some 0) : ¬ ReadsBoth junk f position length := by
  by_cases hpos : 0 < sz
  · -- all that is left is read, and is more than nothing
    have hrest : sz = f.size - position.getD 0 := by
      rw [hsz, hzero]
      exact if_neg (by decide)
    have hmax : position.getD 0 ≤ f.maxOffset := by
      have hfits := f.fits
      unfold RegularFile.size at hrest
      omega
    rintro ⟨a, b, ha, -, hasked⟩
    have hstatus : a.status = 0 := hasked.zero hzero hp (by omega)
    by_cases hsum : sz < 2 ^ 63 - 1
    · cases hfail : f.failing with
      | true =>
        have hrun := (rimReadFile_tail hp hl hsz hpos hmax (readData_failing junk _ hpos hsum hfail)).2.1 rfl
        obtain rfl := Except.ok.inj (ha.symm.trans hrun)
        exact absurd hstatus (by decide)
      | false =>
        obtain ⟨block, rd, hrd, hdata, -, -⟩ := readData_eq junk (position.getD 0) hpos hsum hfail
        have hrun := (rimReadFile_tail hp hl hsz hpos hmax hdata).2.2 block rd.length rfl
        obtain rfl := Except.ok.inj (ha.symm.trans hrun)
        have hlen := congrArg List.length hrd
        rw [List.length_take, List.length_drop] at hlen
        have hnone : ((rd.length : Nat) : Int) = 0 := hstatus
        unfold RegularFile.size at hrest
        unfold MAX_RW_COUNT at hlen
        omega
    · have hrun := (rimReadFile_tail hp hl hsz hpos hmax (readData_undefined junk _ hsum)).1 _ rfl
      cases ha.symm.trans hrun
  · exact not_readsBoth_of_nothing hp hl hsz (by omega)

/-- What the kernel answers is all that is asked for just where there is as much and it answers that at once. -/
theorem readsBoth_data (hne : length ≠ some 0) (hasked : askedBytes f position length = sz) (hpos : 0 < sz)
    (hmax : position.getD 0 ≤ f.maxOffset) (hsum : sz < 2 ^ 63 - 1) (hfail : f.failing = false) :
    ReadsBoth junk f position length ↔ position.getD 0 + sz ≤ f.size ∧ sz ≤ MAX_RW_COUNT := by
  obtain ⟨block, rd, hrd, hdata, htake, hblen⟩ := readData_eq junk (position.getD 0) hpos hsum hfail
  have hname := (rimReadFile_tail hp hl hsz hpos hmax hdata).2.2 block rd.length rfl
  have hid := readFileId_eq.trans ((rimReadFileId_tail hp hl hsz hpos hmax hdata).2 block rd.length rfl)
  have hlen := congrArg List.length hrd
  rw [List.length_take, List.length_drop] at hlen
  have hsize : f.size = f.content.length := rfl
  constructor
  · rintro ⟨a, b, ha, hb, hreads⟩
    obtain rfl := Except.ok.inj (ha.symm.trans hname)
    obtain rfl := Except.ok.inj (hb.symm.trans hid)
    obtain ⟨text, hta, htb, -, -⟩ := hreads.string (Int.natCast_nonneg _)
    -- the string of the second has as many bytes as were asked for
    have hsame : block.take rd.length = block.take sz.toNat := Option.some.inj (hta.trans htb.symm)
    have hall := congrArg List.length hsame
    rw [List.length_take, List.length_take] at hall
    omega
  · intro h
    have hall : rd.length = sz.toNat := by omega
    have hwhole : ((rd.length : Nat) : Int) = sz := by omega
    have htext : rd = (f.content.drop (position.getD 0).toNat).take (askedBytes f position length).toNat := by
      rw [hasked, hrd, Nat.min_eq_left (by omega)]
    refine ⟨_, _, hname, hid, rfl, rfl, fun _ => ⟨rd, ?_, ?_, rfl, htext⟩, fun _ => ⟨?_, rfl⟩, fun h => absurd h hne⟩
    · exact congrArg some htake
    · show some (block.take sz.toNat) = some rd
      rw [← hall, htake]
    · show some (decide (((rd.length : Nat) : Int) ≠ sz)) = some (decide (f.size - position.getD 0 < askedBytes f position length))
      rw [hasked, decide_eq_false (not_not.mpr hwhole), decide_eq_false (by omega)]

end Read

/-- Everything that is asked for is read in both ways just where there is as much in the file, the kernel reads it at
once, and it is not nothing. -/
theorem readFile_both_iff (junk : Nat → UInt8) (f : RegularFile) (position length : Option Int) :
    ReadsBoth junk f position length ↔ ReadPlain f position length := by
  by_cases hrefused : position.getD 0 < 0 ∨ length.getD 0 < 0
  · refine iff_of_true (readsBoth_refused hrefused) ?_
    exact hrefused.elim .inl fun hl => .inr (.inl hl)
  · have hp : 0 ≤ position.getD 0 := by omega
    have hl : 0 ≤ length.getD 0 := by omega
    have hplain : ReadPlain f position length ↔ length ≠ some 0 ∧ 0 < askedBytes f position length ∧
        (f.maxOffset < position.getD 0 ∨ (f.failing = true ∧ askedBytes f position length < 2 ^ 63 - 1) ∨
          (position.getD 0 + askedBytes f position length ≤ f.size ∧ askedBytes f position length ≤ MAX_RW_COUNT)) := by
      unfold ReadPlain
      rw [or_iff_right (by omega), or_iff_right (by omega)]
    rw [hplain]
    obtain ⟨sz, hsz⟩ : ∃ sz, sz = if length.getD 0 > 0 then length.getD 0 else f.size - position.getD 0 := ⟨_, rfl⟩
    by_cases hzero : length = some 0
    · exact iff_of_false (not_readsBoth_zero hp hl hsz hzero) fun h => h.1 hzero
    · have hasked : askedBytes f position length = sz := by
        rw [hsz]
        cases length with
        | none => rfl
        | some l =>
          have hne : l ≠ 0 := fun h => hzero (congrArg some h)
          have hpos : (some l).getD 0 > 0 := by
            rw [Option.getD_some] at hl ⊢
            omega
          rw [if_pos hpos]
          rfl
      by_cases hpos : 0 < sz
      · by_cases hmax : f.maxOffset < position.getD 0
        · obtain ⟨hname, hid⟩ := read_unseekable hp hl hsz junk hpos hmax
          refine iff_of_true ?_ ⟨hzero, by omega, .inl hmax⟩
          exact readsBoth_error RIM_ERR_POSITION (by decide) hzero hname (readFileId_eq.trans hid) rfl rfl rfl
        · have hmax' : position.getD 0 ≤ f.maxOffset := by omega
          by_cases hsum : sz < 2 ^ 63 - 1
          · cases hfail : f.failing with
            | true =>
              have hdata := readData_failing junk (position.getD 0) hpos hsum hfail
              have hname := (rimReadFile_tail hp hl hsz hpos hmax' hdata).2.1 rfl
              have hid := (rimReadFileId_tail hp hl hsz hpos hmax' hdata).1 rfl
              refine iff_of_true ?_ ⟨hzero, by omega, .inr (.inl ⟨rfl, by omega⟩)⟩
              exact readsBoth_error RIM_ERR_READ (by decide) hzero hname (readFileId_eq.trans hid) rfl rfl rfl
            | false =>
              rw [readsBoth_data hp hl hsz hzero hasked hpos hmax' hsum hfail, hasked]
              constructor
              · exact fun h => ⟨hzero, hpos, .inr (.inr h)⟩
              · rintro ⟨-, -, h | h | h⟩
                · omega
                · cases h.1
                · exact h
          · -- a block that cannot be asked for
            have hrun := (rimReadFile_tail hp hl hsz hpos hmax' (readData_undefined junk _ hsum)).1 _ rfl
            refine iff_of_false ?_ ?_
            · rintro ⟨a, b, ha, -, -⟩
              cases ha.symm.trans hrun
            · rintro ⟨-, -, h | h | h⟩
              · omega
              · omega
              · unfold MAX_RW_COUNT at h
                omega
      · exact iff_of_false (not_readsBoth_of_nothing hp hl hsz (by omega)) fun h => by
          have hask := h.2.1
          omega

theorem readFile_short : ¬ ReadsBoth (fun _ => 7) ⟨ascii "ab", 9, by decide, false⟩ none (some 3) := by
  rintro ⟨a, b, ha, hb, h⟩
  have hname : readFile (fun _ => 7) (some ⟨ascii "ab", 9, by decide, false⟩) none (some 3) =
      .ok { status := 2, data := some ([97, 98, 0, 7], 2), eof := some true, isOpen := false } := rfl
  have hid : readFileId (fun _ => 7) ⟨ascii "ab", 9, by decide, false⟩ 0 none (some 3) =
      .ok { status := 2, data := some ([97, 98, 0, 7], 3), eof := some true, isOpen := true } := rfl
  obtain rfl := Except.ok.inj (ha.symm.trans hname)
  obtain rfl := Except.ok.inj (hb.symm.trans hid)
  obtain ⟨text, hta, htb, -, -⟩ := h.string (by decide)
  have hta' : some [97, 98] = some text := hta
  have htb' : some [97, 98, 0] = some text := htb
  cases hta'.trans htb'.symm

end RimStone
