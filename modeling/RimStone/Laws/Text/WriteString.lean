import RimStone.Laws.Text.Encode
import RimStone.Lib.Run
import RimStone.Lib.Trim
import RimStone.Text.WriteString

/-!
# What is written is what the strings get

At each level of nesting there is a block that begins with what was written there, and
has room for one byte more at least (`Level`). Every statement keeps this, for all levels:
the writers ask for the memory that they need, in three ways, and write where the text
ends. So the strings are those of a stack of texts (`Written`), which is what nested
writing is. Two of the writers count in an `int`: the room for an encoded text, and what
`vsnprintf` answers. Texts that they cannot count are left out.
-/

namespace RimStone

open RimStone.Lib

/-! ## What writing means -/

/-- The strings that are being written, the innermost first, and the variables. -/
structure Written where
  opened : List (Nat × Bytes) := []
  vars : Nat → Bytes := fun _ => []

def Written.put (g : Written) (text : Bytes) : Written :=
  match g.opened with
  | [] => g
  | (str, acc) :: opened => { g with opened := (str, acc ++ text) :: opened }

def encodeText (enc : Option RimEnc) (text : Bytes) : Bytes := enc.elim text fun enc => text.flatMap enc.char

/-- How many bytes `rim_puts` writes: all of them, if no length is given. -/
def putsLength (s : Bytes) (len : Int) (alloc : Bool) : Int :=
  if len ≠ 0 then len else if alloc then s.length - 1 else ((strlen s 0).map Int.ofNat).getD 0

namespace WriteOp

def onWritten (g : Written) : WriteOp → Written
  | .begin str => { opened := (str, []) :: g.opened, vars := Function.update g.vars str [] }
  | .puts enc s len alloc => g.put (encodeText enc (s.take (putsLength s len alloc).toNat))
  | .printf enc text => g.put (encodeText enc text)
  | .finish notrim =>
    match g.opened with
    | [] => g
    | (str, acc) :: opened =>
      { opened, vars := Function.update g.vars str (if notrim then acc else acc.rdropWhile isspace) }

/-- What the generated code gives: a block with a null byte at the end, and of what is not
allocated no more than there is. -/
def Legal : WriteOp → Prop
  | .puts _ s len alloc => s ≠ [] ∧ (alloc = false → len < s.length ∧ (len = 0 → 0 ∈ s))
  | _ => True

/-- The lengths are such that the code can count them, and not negative. -/
def Counted : WriteOp → Prop
  | .puts none s len alloc => 0 ≤ putsLength s len alloc
  | .puts (some _) s len alloc => putsLength s len alloc * 6 + 1 < 2 ^ 31
  | .printf _ text => text.length < 2 ^ 31
  | _ => True

def Guard (r : WriteReq) (op : WriteOp) : Prop := r.currWriteToString = -1 ∨ op.Counted

def Reports (g : Written) : WriteOp → Prop
  | .begin _ => g.opened.length = 5
  | .puts _ s len alloc => g.opened ≠ [] ∧ alloc = true ∧ len ≠ 0 ∧ (s.length : Int) - 1 < len
  | .printf _ _ => False
  | .finish _ => g.opened = []

end WriteOp

/-! ## One level -/

/-- The block of a level begins with what was written, and has room for a null. -/
structure Level (w : RimWriteString) (str : Nat) (acc free : Bytes) : Prop where
  string : w.string = some (acc ++ free)
  len : w.len = acc.length + free.length
  room : 0 < free.length
  bufPos : w.bufPos = acc.length
  userString : w.userString = str
  wlen : 1 ≤ w.wlen
  notrim : w.notrim = false
  bound : w.len < 2 ^ 47

variable (heap : Heap) {w w' : RimWriteString} {str : Nat} {acc free : Bytes}

theorem Level.buf_eq (h : Level w str acc free) : w.buf = acc ++ free := by
  unfold RimWriteString.buf
  rw [h.string]
  rfl

theorem Level.posToNat (h : Level w str acc free) : w.bufPos.toNat = acc.length := by
  rw [h.bufPos, Int.toNat_natCast]

theorem Level.room_eq (h : Level w str acc free) : w.len - 1 - w.bufPos = free.length - 1 := by
  rw [h.len, h.bufPos]
  omega

variable {b text s : Bytes} {enc : Option RimEnc}

theorem reblock_of_le {n : Nat} (h : b.length ≤ n) :
    reblock heap b n = b ++ (List.range (n - b.length)).map heap.fresh := by
  unfold reblock
  rw [List.take_of_length_le h]

theorem RIM_WRSTR_ADJMEM_pos {x : Int} (h : 1 ≤ x) : 1 ≤ RIM_WRSTR_ADJMEM x := by
  unfold RIM_WRSTR_ADJMEM
  split <;> omega

/-- There is no memory, or the block has more room and begins as before. -/
theorem grow_level (h : Level w str acc free) {n : Int} (hn : 0 ≤ n) :
    w.grow heap n = .error .memory ∨
      ∃ w' free', w.grow heap n = .ok w' ∧ Level w' str acc free' ∧ n < free'.length := by
  have hwlen := h.wlen
  have hroom := h.room
  have hlen : (acc ++ free).length ≤ (w.len + n + w.wlen).toNat := by
    rw [List.length_append, h.len]
    omega
  unfold RimWriteString.grow rimBlock
  simp only [h.buf_eq]
  cases hgives : heap.gives (w.len + n + w.wlen) with
  | true =>
    right
    have hlen' := h.len
    refine ⟨_, free ++ (List.range ((w.len + n + w.wlen).toNat - (acc ++ free).length)).map heap.fresh, rfl, ?_, ?_⟩
    · refine ⟨?_, ?_, ?_, h.bufPos, h.userString, RIM_WRSTR_ADJMEM_pos h.wlen, h.notrim, (heap.bound _ hgives).2⟩
      · show some (reblock heap (acc ++ free) _) = _
        rw [reblock_of_le heap hlen, List.append_assoc]
      · show w.len + n + w.wlen = _
        rw [List.length_append, List.length_map, List.length_range, List.length_append]
        omega
      · rw [List.length_append]
        omega
    · rw [List.length_append, List.length_map, List.length_range, List.length_append]
      omega
  | false => exact Or.inl rfl

/-- There is no memory, or the level goes on with a text. -/
def Goes (str : Nat) (acc : Bytes) (x : Except WriteFault RimWriteString) : Prop :=
  x = .error .memory ∨ ∃ w free, x = .ok w ∧ Level w str acc free

/-- The text of a level grows by what was written after it. -/
theorem Level.write (h : Level w str acc free) {rest : Bytes} {pos : Int} (hb : b = acc ++ text ++ rest)
    (hlen : text.length + rest.length = free.length) (hrest : 0 < rest.length) (hpos : pos = (acc ++ text).length) :
    Level { w with string := some b, bufPos := pos } str (acc ++ text) rest := by
  refine ⟨congrArg some hb, ?_, hrest, hpos, h.userString, h.wlen, h.notrim, h.bound⟩
  have hw := h.len
  show w.len = _
  rw [List.length_append]
  omega

/-! ## The writers -/

theorem rimPutsToString_fits (h : Level w str acc free) (fuel : Nat) {n : Nat} (hn : n < s.length)
    (hfits : n < free.length) :
    ∃ w' free', w.rimPutsToString heap (fuel + 1) s n = .ok w' ∧ Level w' str (acc ++ s.take n) free' := by
  have hlast : s.take (n + 1) = s.take n ++ [s.get ⟨n, hn⟩] := by
    rw [List.take_succ_eq_append_getElem hn]
    rfl
  have htake : (s.take (n + 1)).length = n + 1 := List.length_take_of_le hn
  have hcopy : memcpy w.buf w.bufPos.toNat (s.take ((n : Int) + 1).toNat) =
      some (acc ++ s.take (n + 1) ++ free.drop (n + 1)) := by
    have hnat : ((n : Int) + 1).toNat = n + 1 := by omega
    rw [h.buf_eq, h.posToNat, hnat, memcpy_append acc (by rw [htake]; omega), htake]
  have hif : (0 : Int) ≤ n + 1 ∧ 0 ≤ w.bufPos ∧ (n : Int) + 1 ≤ s.length := by
    have hpos := h.bufPos
    omega
  unfold RimWriteString.rimPutsToString
  rw [if_neg (by rw [h.room_eq]; omega)]
  simp only [if_pos hif, hcopy]
  refine ⟨_, [s.get ⟨n, hn⟩] ++ free.drop (n + 1), rfl, h.write ?_ ?_ ?_ ?_⟩
  · rw [hlast]
    simp only [List.append_assoc]
  · rw [List.length_append, List.length_take_of_le (Nat.le_of_lt hn), List.length_singleton, List.length_drop]
    omega
  · simp
  · rw [h.bufPos, List.length_append, List.length_take_of_le (Nat.le_of_lt hn)]
    omega

/-- `rim_puts_to_string` -/
theorem rimPutsToString_goes (h : Level w str acc free) {n : Nat} (hn : n < s.length) :
    Goes str (acc ++ s.take n) (w.rimPutsToString heap 2 s n) := by
  by_cases hfits : n < free.length
  · exact Or.inr (rimPutsToString_fits heap h 1 hn hfits)
  · unfold RimWriteString.rimPutsToString
    rw [if_pos (by rw [h.room_eq]; have hroom := h.room; omega)]
    obtain hnone | ⟨w', free', hgrow, hl, hroom⟩ := grow_level heap h (n := n) (by omega)
    · exact Or.inl (by rw [hnone]; rfl)
    · rw [hgrow]
      exact Or.inr (rimPutsToString_fits heap hl 0 hn (by omega))

theorem toInt32_eq {x : Int} (h : x < 2 ^ 31) (h' : -(2 ^ 31) ≤ x) : toInt32 x = x := by
  unfold toInt32
  omega

/-- The room that is asked for is enough, if it can be counted. -/
theorem encoded_fits (enc : RimEnc) (s : Bytes) {n : Int} (hn : n * 6 + 1 < 2 ^ 31) (hle : n ≤ s.length) {room : Nat}
    (hroom : toInt32 (n * 6 + 1) ≤ room - 1) (hpos : 0 < room) :
    ((s.take n.toNat).flatMap enc.char).length < room := by
  have hlen := flatMap_char_length_le enc (s.take n.toNat)
  rw [List.length_take] at hlen
  by_cases hneg : n < 0
  · have hzero : n.toNat = 0 := by omega
    rw [hzero] at hlen ⊢
    omega
  · rw [toInt32_eq hn (by omega)] at hroom
    omega

theorem putsLoop_fits (h : Level w str acc free) (enc : RimEnc) (fuel : Nat) {n : Int} (hn : n * 6 + 1 < 2 ^ 31)
    (hle : n ≤ s.length) (hfits : toInt32 (n * 6 + 1) ≤ free.length - 1) :
    Goes str (acc ++ (s.take n.toNat).flatMap enc.char) (w.putsLoop heap enc (fuel + 1) s n) := by
  have hroom := encoded_fits enc s hn hle hfits h.room
  have hloop := rimEncodeLoop_eq enc (s.take n.toNat) acc (Nat.le_of_lt hroom)
  have hpos := h.bufPos
  generalize (s.take n.toNat).flatMap enc.char = text at hroom hloop ⊢
  obtain ⟨x, rest, hrest⟩ : ∃ x rest, free.drop text.length = x :: rest := by
    cases hd : free.drop text.length with
    | nil =>
      have hz := congrArg List.length hd
      rw [List.length_drop, List.length_nil] at hz
      omega
    | cons x rest => exact ⟨x, rest, rfl⟩
  rw [hrest] at hloop
  have hnull : poke (acc ++ text ++ x :: rest) (acc ++ text).length 0 = some (acc ++ text ++ 0 :: rest) :=
    poke_middle (acc ++ text) x rest 0
  unfold RimWriteString.putsLoop
  simp only
  rw [if_neg (by rw [h.room_eq]; omega), if_pos ⟨by omega, hle⟩, h.buf_eq, h.posToNat, hloop]
  simp only [inside, Option.elim, bind, Except.bind, hnull]
  refine Or.inr ⟨_, 0 :: rest, rfl, h.write rfl ?_ ?_ rfl⟩
  · have hlen := congrArg List.length hrest
    rw [List.length_drop, List.length_cons] at hlen
    rw [List.length_cons]
    omega
  · simp

/-- The loop of `rim_puts` for an encoded text -/
theorem putsLoop_goes (h : Level w str acc free) (enc : RimEnc) {n : Int} (hn : n * 6 + 1 < 2 ^ 31)
    (hle : n ≤ s.length) : Goes str (acc ++ (s.take n.toNat).flatMap enc.char) (w.putsLoop heap enc 2 s n) := by
  by_cases hfits : toInt32 (n * 6 + 1) ≤ free.length - 1
  · exact putsLoop_fits heap h enc 1 hn hle hfits
  · have hroom := h.room
    unfold RimWriteString.putsLoop
    simp only
    rw [if_pos (by rw [h.room_eq]; omega)]
    obtain hnone | ⟨w', free', hgrow, hl, hmore⟩ := grow_level heap h (n := toInt32 (n * 6 + 1)) (by omega)
    · exact Or.inl (by rw [hnone]; rfl)
    · rw [hgrow]
      exact putsLoop_fits heap hl enc 0 hn hle (by omega)

/-- `vsnprintf` writes to the rest of the block what fits, and answers the length of all. -/
theorem vsnprintf_level (h : Level w str acc free) (htext : text.length < 2 ^ 31) :
    vsnprintf w.buf w.bufPos (w.len - w.bufPos) text =
      .ok (acc ++ (text.take (free.length - 1) ++ [0]) ++ free.drop (text.take (free.length - 1) ++ [0]).length,
        text.length) := by
  have hroom := h.room
  have hleft : w.len - w.bufPos = free.length := by
    rw [h.len, h.bufPos]
    omega
  have hfits : (text.take (free.length - 1) ++ [0]).length ≤ free.length := by
    rw [List.length_append, List.length_take, List.length_singleton]
    omega
  unfold vsnprintf
  simp only [hleft, if_pos htext]
  rw [if_neg (by omega), if_pos (by rw [h.bufPos]; omega), if_pos (by omega), Int.toNat_natCast, h.buf_eq, h.posToNat,
    memcpy_append acc hfits]
  rfl

theorem printfLoop_fits (h : Level w str acc free) (fuel : Nat) (htext : text.length < 2 ^ 31)
    (hfits : text.length < free.length) :
    ∃ w' free', w.printfLoop heap (fuel + 1) text = .ok (w', text.length) ∧ Level w' str (acc ++ text) free' := by
  have hall : text.take (free.length - 1) = text := List.take_of_length_le (by omega)
  have hprint := vsnprintf_level h htext
  rw [hall] at hprint
  unfold RimWriteString.printfLoop
  simp only [hprint, bind, Except.bind]
  have hleft : ¬ ((text.length : Int) ≥ w.len - w.bufPos) := by
    rw [h.len, h.bufPos]
    omega
  rw [if_neg hleft]
  refine ⟨_, 0 :: free.drop (text ++ [0]).length, rfl, h.write ?_ ?_ ?_ ?_⟩
  · simp only [List.append_assoc, List.singleton_append]
  · rw [List.length_cons, List.length_drop, List.length_append, List.length_singleton]
    omega
  · simp
  · show w.bufPos + _ = _
    rw [h.bufPos, List.length_append]
    omega

/-- The loop of `rim_printf` -/
theorem printfLoop_goes (h : Level w str acc free) (htext : text.length < 2 ^ 31) :
    w.printfLoop heap 2 text = .error .memory ∨
      ∃ w' free', w.printfLoop heap 2 text = .ok (w', text.length) ∧ Level w' str (acc ++ text) free' := by
  by_cases hfits : text.length < free.length
  · exact Or.inr (printfLoop_fits heap h 1 htext hfits)
  · have hroom := h.room
    have hprint := vsnprintf_level h htext
    have hleft : (text.length : Int) ≥ w.len - w.bufPos := by
      rw [h.len, h.bufPos]
      omega
    unfold RimWriteString.printfLoop
    simp only [hprint, bind, Except.bind]
    rw [if_pos hleft]
    -- What did not fit is in the block already, behind the text so far.
    have hlevel : Level { w with string := some (acc ++ (text.take (free.length - 1) ++ [0]) ++
        free.drop (text.take (free.length - 1) ++ [0]).length) } str acc
        ((text.take (free.length - 1) ++ [0]) ++ free.drop (text.take (free.length - 1) ++ [0]).length) := by
      have hsame : ((text.take (free.length - 1) ++ ([0] : Bytes)) ++
          free.drop (text.take (free.length - 1) ++ ([0] : Bytes)).length).length = free.length := by
        simp only [List.length_append, List.length_take, List.length_drop, List.length_singleton]
        omega
      refine ⟨by rw [List.append_assoc], ?_, by rw [hsame]; exact hroom, h.bufPos, h.userString, h.wlen, h.notrim,
        h.bound⟩
      show w.len = _
      rw [hsame, h.len]
    obtain hnone | ⟨w', free', hgrow, hl, hmore⟩ := grow_level heap hlevel (n := text.length) (by omega)
    · exact Or.inl (by rw [hnone])
    · rw [hgrow]
      exact Or.inr (printfLoop_fits heap hl 0 htext (by omega))

theorem strlenLoop_mem (h : 0 ∈ b) (k : Nat) : ∃ n, strlenLoop b k = some (k + n) ∧ n < b.length := by
  induction b generalizing k with
  | nil => cases h
  | cons c b ih =>
    rw [strlenLoop]
    by_cases hc : c = 0
    · rw [if_pos hc]
      exact ⟨0, rfl, Nat.succ_pos _⟩
    · rw [if_neg hc]
      rcases List.mem_cons.mp h with rfl | hmem
      · exact absurd rfl hc
      · obtain ⟨n, hn, hlt⟩ := ih hmem (k + 1)
        exact ⟨n + 1, by rw [hn]; congr 1; omega, Nat.succ_lt_succ hlt⟩

/-- The length that is written, within the block. -/
theorem putsLen_eq {len : Int} {alloc : Bool} (hl : (WriteOp.puts enc s len alloc).Legal)
    (hlen : ¬ (alloc = true ∧ (s.length : Int) - 1 < len)) :
    RimWriteString.putsLen s len alloc = .ok (putsLength s len alloc) ∧ putsLength s len alloc < s.length := by
  obtain ⟨hne, hconst⟩ := hl
  have hpos := List.length_pos_of_ne_nil hne
  unfold RimWriteString.putsLen putsLength
  cases alloc with
  | true =>
    have hle : ¬ len > (s.length : Int) - 1 := fun hgt => hlen ⟨rfl, hgt⟩
    by_cases hzero : len = 0
    · subst hzero
      refine ⟨rfl, ?_⟩
      rw [if_neg (not_not_intro rfl), if_pos rfl]
      omega
    · simp only [if_true, ne_eq, hzero, not_false_eq_true, if_neg hle]
      exact ⟨trivial, by omega⟩
  | false =>
    obtain ⟨hlt, hnull⟩ := hconst rfl
    by_cases hzero : len = 0
    · obtain ⟨n, hn, hlt'⟩ := strlenLoop_mem (hnull hzero) 0
      have hstrlen : strlen s 0 = some n := by
        unfold strlen
        rw [List.drop_zero, hn, Nat.zero_add]
      subst hzero
      simp only [hstrlen]
      exact ⟨rfl, by simpa using hlt'⟩
    · simp only [ne_eq, hzero, not_false_eq_true, if_true]
      exact ⟨rfl, hlt⟩

/-- `rim_puts` -/
theorem rimPuts_goes (h : Level w str acc free) {len : Int} {alloc : Bool} (hl : (WriteOp.puts enc s len alloc).Legal)
    (hg : (WriteOp.puts enc s len alloc).Counted) (hlen : ¬ (alloc = true ∧ (s.length : Int) - 1 < len)) :
    Goes str (acc ++ encodeText enc (s.take (putsLength s len alloc).toNat)) (w.rimPuts heap enc s len alloc) := by
  obtain ⟨hval, hlt⟩ := putsLen_eq hl hlen
  unfold RimWriteString.rimPuts
  simp only [hval, bind, Except.bind]
  cases enc with
  | none =>
    have hg' : 0 ≤ putsLength s len alloc := hg
    obtain ⟨n, hn⟩ := Int.eq_ofNat_of_zero_le hg'
    rw [hn] at hlt ⊢
    rw [Int.toNat_natCast]
    exact rimPutsToString_goes heap h (by omega)
  | some enc => exact putsLoop_goes heap h enc hg (Int.le_of_lt hlt)

/-- What was written last is taken back. -/
theorem Level.rewind {pos : Int} (h : Level w str (acc ++ text) free) (hpos : pos = acc.length) :
    Level { w with bufPos := pos } str acc (text ++ free) := by
  refine ⟨by rw [← List.append_assoc]; exact h.string, ?_, ?_, hpos, h.userString, h.wlen, h.notrim, h.bound⟩
  · have hlen := h.len
    rw [List.length_append] at hlen ⊢
    show w.len = _
    omega
  · have hroom := h.room
    rw [List.length_append]
    omega

/-- There is no memory for it, or the text is encoded. -/
theorem rimEncode_cases (enc : RimEnc) {v : Bytes} (hv : v.take text.length = text) :
    RimWriteString.rimEncode heap enc v text.length = .error .memory ∨
      RimWriteString.rimEncode heap enc v text.length =
        .ok (text.flatMap enc.char ++ [0], (text.flatMap enc.char).length) := by
  have hlen : RimWriteString.encodeLen v text.length = .ok text.length := if_pos (Int.natCast_nonneg _)
  unfold RimWriteString.rimEncode rimBlock
  rw [hlen]
  simp only [bind, Except.bind, Int.toNat_natCast, hv]
  cases heap.gives ((text.length : Int) * 6 + 1) with
  | true =>
    right
    have hblock : (reblock heap [] ((text.length : Int) * 6 + 1).toNat).length = RIM_MAX_ENC_BLOWUP text.length := by
      rw [reblock_of_le heap (Nat.zero_le _), List.nil_append, List.length_map, List.length_range, List.length_nil]
      unfold RIM_MAX_ENC_BLOWUP
      omega
    simp only [if_true, rimEncodeBase_eq enc text hblock]
    rfl
  | false => exact Or.inl rfl

/-- `rim_printf` -/
theorem rimPrintf_goes (h : Level w str acc free) (htext : text.length < 2 ^ 31) :
    Goes str (acc ++ encodeText enc text) (w.rimPrintf heap enc text) := by
  unfold RimWriteString.rimPrintf
  obtain hnone | ⟨w', free', hprint, hl⟩ := printfLoop_goes heap h htext
  · rw [hnone]
    exact Or.inl rfl
  · rw [hprint]
    cases enc with
    | none => exact Or.inr ⟨w', free', rfl, hl⟩
    | some enc =>
      have hpos : w'.bufPos - text.length = acc.length := by
        rw [hl.bufPos, List.length_append]
        omega
      have hback := hl.rewind hpos
      have hsource : (w'.buf.drop (w'.bufPos - text.length).toNat).take text.length = text := by
        rw [hl.buf_eq, hpos, Int.toNat_natCast, List.append_assoc, List.drop_left, List.take_left]
      have hnot : ¬ w'.bufPos - (text.length : Int) < 0 := by
        rw [hpos]
        exact Int.not_lt.mpr (Int.natCast_nonneg _)
      simp only [bind, Except.bind, if_neg hnot]
      obtain hmemory | hencoded := rimEncode_cases heap enc hsource
      · rw [hmemory]
        exact Or.inl rfl
      · have hput := rimPutsToString_goes heap hback (s := text.flatMap enc.char ++ [0])
          (n := (text.flatMap enc.char).length) (by rw [List.length_append]; exact Nat.lt_succ_self _)
        rw [List.take_left] at hput
        rw [hencoded]
        exact hput

/-! ## The end of a string -/

/-- White space at the end is left out. Before the block there is a byte that is none. -/
theorem trimLoop_eq (h : Level w str acc free) (text : Bytes) {rest : Bytes} (hsplit : acc ++ free = text ++ rest) :
    w.trimLoop text.length = .ok (text.rdropWhile isspace).length := by
  induction text using List.reverseRecOn generalizing rest with
  | nil =>
    have hzero : w.len / 2 ^ 56 = 0 := by
      have hlen := h.len
      have hbound := h.bound
      omega
    have hbyte : w.byteAt (-1) = some 0 := by
      unfold RimWriteString.byteAt
      rw [if_pos rfl, hzero]
      rfl
    unfold RimWriteString.trimLoop
    rw [hbyte]
    rfl
  | append_singleton text c ih =>
    have hlast : w.byteAt text.length = some c := by
      unfold RimWriteString.byteAt peekAt
      rw [if_neg (by omega), if_pos (Int.natCast_nonneg _), Int.toNat_natCast, h.buf_eq, hsplit, List.append_assoc,
        List.getElem?_append_right (Nat.le_refl _), Nat.sub_self]
      rfl
    rw [List.length_append, List.length_singleton, RimWriteString.trimLoop, hlast]
    simp only [inside, Option.elim, bind, Except.bind]
    by_cases hspace : isspace c = true
    · rw [if_pos hspace, List.rdropWhile_concat_pos _ _ _ hspace]
      exact ih (hsplit.trans (List.append_assoc _ _ _))
    · rw [if_neg hspace, List.rdropWhile_concat_neg _ _ _ hspace, List.length_append, List.length_singleton]

/-! ## All levels -/

/-- The strings are those that the writing of a program means. -/
structure IsWritten (r : WriteReq) (g : Written) : Prop where
  current : r.currWriteToString = g.opened.length - 1
  depth : g.opened.length ≤ 5
  vars : r.vars = g.vars
  levels : ∀ (i : Nat) (str : Nat) (acc : Bytes), g.opened.reverse[i]? = some (str, acc) →
    ∃ free, Level (r.writeStringArr i) str acc free
  notrim : ∀ i : Nat, g.opened.length ≤ i → (r.writeStringArr i).notrim = false

variable {r r' : WriteReq} {g : Written} {opened : List (Nat × Bytes)}

theorem init_isWritten : IsWritten {} {} := by
  refine ⟨rfl, Nat.zero_le _, rfl, ?_, fun _ _ => rfl⟩
  intro i str acc h
  cases h

theorem IsWritten.top (h : IsWritten r g) (hopened : g.opened = (str, acc) :: opened) :
    r.currWriteToString = opened.length ∧ ∃ free, Level r.wrstr str acc free := by
  have hcur := h.current
  rw [hopened, List.length_cons] at hcur
  have hcur' : r.currWriteToString = opened.length := by omega
  refine ⟨hcur', ?_⟩
  have hlast : g.opened.reverse[opened.length]? = some (str, acc) := by
    rw [hopened, List.reverse_cons, List.getElem?_append_right (by rw [List.length_reverse]),
      List.length_reverse, Nat.sub_self]
    rfl
  unfold WriteReq.wrstr
  rw [hcur']
  exact h.levels _ _ _ hlast

/-- A level is put over those that there are. -/
theorem levels_push {arr : Int → RimWriteString}
    (hlevels : ∀ (i : Nat) (str : Nat) (acc : Bytes), opened.reverse[i]? = some (str, acc) →
      ∃ free, Level (arr i) str acc free)
    (hw : ∃ free, Level w str acc free) (i : Nat) (str' : Nat) (acc' : Bytes)
    (hi : ((str, acc) :: opened).reverse[i]? = some (str', acc')) :
    ∃ free, Level (Function.update arr opened.length w i) str' acc' free := by
  rw [List.reverse_cons] at hi
  by_cases hlt : i < opened.length
  · have hne : (i : Int) ≠ opened.length := by omega
    rw [List.getElem?_append_left (by rw [List.length_reverse]; exact hlt)] at hi
    rw [Function.update_of_ne hne]
    exact hlevels i str' acc' hi
  · rw [List.getElem?_append_right (by rw [List.length_reverse]; omega), List.length_reverse] at hi
    have heq : i = opened.length := by
      by_contra hne
      rw [List.getElem?_eq_none (by rw [List.length_singleton]; omega)] at hi
      cases hi
    subst heq
    rw [Nat.sub_self] at hi
    obtain ⟨rfl, rfl⟩ := Prod.mk.inj (Option.some.inj hi)
    rw [Function.update_self]
    exact hw

theorem IsWritten.below (h : IsWritten r g) (hopened : g.opened = (str, acc) :: opened) (i : Nat) (str' : Nat)
    (acc' : Bytes) (hi : opened.reverse[i]? = some (str', acc')) : ∃ free, Level (r.writeStringArr i) str' acc' free := by
  refine h.levels i str' acc' ?_
  obtain ⟨hlt, -⟩ := List.getElem?_eq_some_iff.mp hi
  rw [hopened, List.reverse_cons, List.getElem?_append_left hlt]
  exact hi

theorem IsWritten.put (h : IsWritten r g) (hopened : g.opened = (str, acc) :: opened)
    (hw : Level w str (acc ++ text) free) : IsWritten (r.setWrstr w) (g.put text) := by
  obtain ⟨hcur, -⟩ := h.top hopened
  have hput : g.put text = { g with opened := (str, acc ++ text) :: opened } := by
    unfold Written.put
    rw [hopened]
  have hdepth := h.depth
  rw [hopened] at hdepth
  rw [hput]
  refine ⟨hcur.trans ?_, hdepth, h.vars, ?_, ?_⟩
  · rw [List.length_cons]
    omega
  · intro i str' acc' hi
    show ∃ free, Level (Function.update r.writeStringArr r.currWriteToString w i) str' acc' free
    rw [hcur]
    exact levels_push (h.below hopened) ⟨free, hw⟩ i str' acc' hi
  · intro i hi
    rw [List.length_cons] at hi
    have hne : (i : Int) ≠ r.currWriteToString := by omega
    show (Function.update r.writeStringArr r.currWriteToString w i).notrim = false
    rw [Function.update_of_ne hne]
    refine h.notrim i ?_
    rw [hopened, List.length_cons]
    exact hi

/-- A statement does what it means, or there is no memory. -/
def Carries (g : Written) (x : Except WriteFault WriteReq) : Prop :=
  x = .error .memory ∨ ∃ r, x = .ok r ∧ IsWritten r g

theorem carries_put (h : IsWritten r g) (hopened : g.opened = (str, acc) :: opened)
    {x : Except WriteFault RimWriteString} (hx : Goes str (acc ++ text) x) :
    Carries (g.put text) (do let w ← x; .ok (r.setWrstr w)) := by
  obtain rfl | ⟨w, free, rfl, hw⟩ := hx
  · exact Or.inl rfl
  · exact Or.inr ⟨_, rfl, h.put hopened hw⟩

/-- A new level, in a block of the first length. -/
theorem begin_gives (h : IsWritten r g) (str : Nat) (hdepth : g.opened.length ≠ 5)
    (hgives : heap.gives RIM_WRSTR_ADD_MIN = true) :
    ∃ r', r.rimWriteToString heap str = .ok r' ∧ IsWritten r' ((WriteOp.begin str).onWritten g) ∧
      r'.wrstr.len = RIM_WRSTR_ADD_MIN := by
  have hcur := h.current
  have hle := h.depth
  have hnext : r.currWriteToString + 1 = g.opened.length := by omega
  unfold WriteReq.rimWriteToString rimBlock
  simp only [hnext, hgives]
  rw [if_neg (show ¬ (g.opened.length : Int) ≥ RIM_MAX_NESTED_WRITE_STRING by unfold RIM_MAX_NESTED_WRITE_STRING; omega)]
  refine ⟨_, rfl, ⟨?_, ?_, ?_, ?_, ?_⟩, ?_⟩
  · show (g.opened.length : Int) = (((str, []) :: g.opened).length : Int) - 1
    rw [List.length_cons]
    omega
  · show ((str, []) :: g.opened).length ≤ 5
    rw [List.length_cons]
    omega
  · exact congrArg (fun v => Function.update v str []) h.vars
  · have hlevel : Level { r.writeStringArr g.opened.length with
        userString := str, wlen := RIM_WRSTR_ADD_MIN, len := RIM_WRSTR_ADD_MIN,
        string := some (reblock heap [] RIM_WRSTR_ADD_MIN.toNat), bufPos := 0 } str []
        (reblock heap [] RIM_WRSTR_ADD_MIN.toNat) := by
      have hmin : 1 ≤ RIM_WRSTR_ADD_MIN := by decide
      have hsize : (reblock heap [] RIM_WRSTR_ADD_MIN.toNat).length = 1024 := by
        rw [reblock_of_le heap (Nat.zero_le _), List.nil_append, List.length_map, List.length_range]
        rfl
      refine ⟨congrArg some (List.nil_append _).symm, ?_, by omega, rfl, rfl, hmin, h.notrim _ (Nat.le_refl _),
        (heap.bound _ hgives).2⟩
      rw [hsize]
      rfl
    exact levels_push h.levels ⟨_, hlevel⟩
  · intro i hi
    have hi' : g.opened.length < i := hi
    have hne : (i : Int) ≠ g.opened.length := by omega
    show (Function.update r.writeStringArr (g.opened.length : Int) _ i).notrim = false
    rw [Function.update_of_ne hne]
    exact h.notrim i (Nat.le_of_lt hi')
  · show (Function.update r.writeStringArr (g.opened.length : Int) _ (g.opened.length : Int)).len = _
    rw [Function.update_self]

theorem begin_carries (h : IsWritten r g) (str : Nat) (hdepth : g.opened.length ≠ 5) :
    Carries ((WriteOp.begin str).onWritten g) (r.rimWriteToString heap str) := by
  cases hgives : heap.gives RIM_WRSTR_ADD_MIN with
  | true =>
    obtain ⟨r', hok, hwritten, -⟩ := begin_gives heap h str hdepth hgives
    exact Or.inr ⟨r', hok, hwritten⟩
  | false =>
    have hcur := h.current
    have hle := h.depth
    unfold WriteReq.rimWriteToString rimBlock
    simp only [hgives]
    rw [if_neg (show ¬ r.currWriteToString + 1 ≥ RIM_MAX_NESTED_WRITE_STRING by
      unfold RIM_MAX_NESTED_WRITE_STRING; omega)]
    exact Or.inl rfl

/-- The user's string gets the text, and the level is closed. -/
theorem close_carries (text rest : Bytes) (h : IsWritten r g) (hopened : g.opened = (str, acc) :: opened)
    (hcur : r'.currWriteToString = opened.length) (hvars : r'.vars = r.vars)
    (harr : ∀ i : Int, i ≠ opened.length → r'.writeStringArr i = r.writeStringArr i)
    (hbuf : w.buf = text ++ rest) (hpos : w.bufPos = text.length) (hrest : 0 < rest.length) (hstr : w.userString = str) :
    Carries { opened, vars := Function.update g.vars str text } (do
      let b ← rimBlock heap w.buf (w.bufPos + 1)
      let r := r'.setWrstr { w with notrim := false, string := none }
      .ok { r with
        vars := Function.update r.vars w.userString (b.take w.bufPos.toNat)
        currWriteToString := r.currWriteToString - 1 }) := by
  have hdepth := h.depth
  rw [hopened, List.length_cons] at hdepth
  have hset : ∀ (w' : RimWriteString) (i : Nat), i ≠ opened.length → (r'.setWrstr w').writeStringArr i =
    r.writeStringArr i := by
    intro w' i hi
    show Function.update r'.writeStringArr r'.currWriteToString w' i = _
    rw [hcur, Function.update_of_ne (by omega)]
    exact harr i (by omega)
  unfold rimBlock
  cases heap.gives (w.bufPos + 1) with
  | false => exact Or.inl rfl
  | true =>
    refine Or.inr ⟨_, rfl, ?_, ?_, ?_, ?_, ?_⟩
    · show r'.currWriteToString - 1 = (opened.length : Int) - 1
      rw [hcur]
    · show opened.length ≤ 5
      omega
    · show Function.update r'.vars w.userString ((reblock heap w.buf (w.bufPos + 1).toNat).take w.bufPos.toNat) = _
      have hnat : (w.bufPos + 1).toNat = text.length + 1 := by omega
      have hpos' : w.bufPos.toNat = text.length := by omega
      rw [hvars, h.vars, hstr, hbuf, hnat, hpos']
      unfold reblock
      rw [List.take_append_of_le_length (by rw [List.length_take, List.length_append]; omega), List.take_take,
        Nat.min_eq_left (Nat.le_succ _), List.take_left]
    · intro i str' acc' hi
      obtain ⟨hlt, -⟩ := List.getElem?_eq_some_iff.mp hi
      rw [List.length_reverse] at hlt
      obtain ⟨free', hlevel⟩ := h.below hopened i str' acc' hi
      refine ⟨free', ?_⟩
      show Level ((r'.setWrstr _).writeStringArr i) str' acc' free'
      rw [hset _ i (Nat.ne_of_lt hlt)]
      exact hlevel
    · intro i hi
      have hi' : opened.length ≤ i := hi
      show ((r'.setWrstr _).writeStringArr i).notrim = false
      by_cases heq : i = opened.length
      · subst heq
        show (Function.update r'.writeStringArr r'.currWriteToString _ (opened.length : Int)).notrim = false
        rw [hcur, Function.update_self]
      · rw [hset _ i heq]
        refine h.notrim i ?_
        rw [hopened, List.length_cons]
        omega

theorem setWrstr_wrstr (r : WriteReq) (w : RimWriteString) : (r.setWrstr w).wrstr = w := by
  unfold WriteReq.wrstr WriteReq.setWrstr
  exact Function.update_self _ _ _

theorem finish_carries (h : IsWritten r g) (notrim : Bool) (hopened : g.opened = (str, acc) :: opened) :
    Carries ((WriteOp.finish notrim).onWritten g) (r.rimWriteToStringEnd heap notrim) := by
  obtain ⟨hcur, free, hl⟩ := h.top hopened
  have hmeans : (WriteOp.finish notrim).onWritten g =
      ⟨opened, Function.update g.vars str (if notrim then acc else acc.rdropWhile isspace)⟩ := by
    unfold WriteOp.onWritten
    rw [hopened]
  rw [hmeans]
  unfold WriteReq.rimWriteToStringEnd
  cases notrim with
  | true =>
    have hcur' : (r.setWrstr { r.wrstr with notrim := true }).currWriteToString = opened.length := hcur
    simp only [if_true, setWrstr_wrstr]
    rw [if_neg (by rw [hcur']; omega), if_neg (by rw [hl.string]; exact Option.some_ne_none _)]
    refine close_carries heap acc free h hopened hcur' rfl ?_ hl.buf_eq hl.bufPos hl.room hl.userString
    intro i hi
    exact Function.update_of_ne (hcur ▸ hi) _ _
  | false =>
    have htrim := trimLoop_eq hl acc rfl
    have hpre := List.rdropWhile_prefix isspace (l := acc)
    obtain ⟨space, hspace⟩ := hpre
    obtain ⟨x, rest, hrest⟩ : ∃ x rest, space ++ free = x :: rest := by
      cases hd : space ++ free with
      | nil =>
        have hz := congrArg List.length hd
        have hroom := hl.room
        rw [List.length_append, List.length_nil] at hz
        omega
      | cons x rest => exact ⟨x, rest, rfl⟩
    have hbuf : r.wrstr.buf = acc.rdropWhile isspace ++ x :: rest := by
      rw [hl.buf_eq, ← hrest, ← List.append_assoc, hspace]
    have hnull : poke r.wrstr.buf (acc.rdropWhile isspace).length 0 = some (acc.rdropWhile isspace ++ 0 :: rest) := by
      rw [hbuf, poke_middle]
    simp only [Bool.false_eq_true, if_false, hl.notrim]
    rw [if_neg (by rw [hcur]; omega), if_neg (by rw [hl.string]; exact Option.some_ne_none _),
      if_pos (by rw [hl.bufPos]; exact Int.natCast_nonneg _), hl.posToNat, htrim]
    simp only [bind, Except.bind, hnull, inside, Option.elim]
    have hclose := close_carries heap (acc.rdropWhile isspace) (0 :: rest) h hopened hcur rfl (fun _ _ => rfl)
      (w := { r.wrstr with
        bufPos := (acc.rdropWhile isspace).length, string := some (acc.rdropWhile isspace ++ 0 :: rest) })
      rfl rfl (Nat.succ_pos _) hl.userString
    exact hclose

/-- What is written where no string is open. -/
theorem put_carries (h : IsWritten r g) (hopened : g.opened = []) (text : Bytes) {x : Except WriteFault WriteReq} :
    Carries (g.put text) (if r.currWriteToString = -1 then .ok r else x) := by
  have hcur : r.currWriteToString = -1 := by
    rw [h.current, hopened]
    rfl
  have hput : g.put text = g := by
    unfold Written.put
    rw [hopened]
  rw [if_pos hcur, hput]
  exact Or.inr ⟨r, rfl, h⟩

/-- What every statement does. -/
theorem exec_carries (h : IsWritten r g) {op : WriteOp} (hl : op.Legal) (hg : op.Guard r) (hr : ¬ op.Reports g) :
    Carries (op.onWritten g) (r.exec heap op) := by
  cases op with
  | begin str => exact begin_carries heap h str hr
  | puts enc s len alloc =>
    show Carries (g.put _) (if r.currWriteToString = -1 then .ok r else _)
    cases hopened : g.opened with
    | nil => exact put_carries h hopened _
    | cons level opened =>
      obtain ⟨str, acc⟩ := level
      obtain ⟨hcur, free, hlevel⟩ := h.top hopened
      have hne : r.currWriteToString ≠ -1 := by omega
      rw [if_neg hne]
      have hlen : ¬ (alloc = true ∧ (s.length : Int) - 1 < len) := by
        rintro ⟨halloc, hlt⟩
        have hpos := List.length_pos_of_ne_nil hl.1
        exact hr ⟨by rw [hopened]; exact List.cons_ne_nil _ _, halloc, by omega, hlt⟩
      exact carries_put h hopened (rimPuts_goes heap hlevel hl (hg.resolve_left hne) hlen)
  | printf enc text =>
    show Carries (g.put _) (if r.currWriteToString = -1 then .ok r else _)
    cases hopened : g.opened with
    | nil => exact put_carries h hopened _
    | cons level opened =>
      obtain ⟨str, acc⟩ := level
      obtain ⟨hcur, free, hlevel⟩ := h.top hopened
      have hne : r.currWriteToString ≠ -1 := by omega
      rw [if_neg hne]
      exact carries_put h hopened (rimPrintf_goes heap hlevel (hg.resolve_left hne))
  | finish notrim =>
    cases hopened : g.opened with
    | nil => exact absurd hopened hr
    | cons level opened => exact finish_carries heap h notrim hopened

/-- What is not to be done is reported. -/
theorem exec_reports (h : IsWritten r g) {op : WriteOp} (hr : op.Reports g) : r.exec heap op = .error .error := by
  have hcur := h.current
  cases op with
  | begin str =>
    have hfull : g.opened.length = 5 := hr
    have hge : r.currWriteToString + 1 ≥ RIM_MAX_NESTED_WRITE_STRING := by
      unfold RIM_MAX_NESTED_WRITE_STRING
      omega
    show r.rimWriteToString heap str = _
    unfold WriteReq.rimWriteToString
    exact if_pos hge
  | puts enc s len alloc =>
    obtain ⟨hopened, rfl, hzero, hlen⟩ := hr
    have hpos := List.length_pos_of_ne_nil hopened
    have hputs : RimWriteString.putsLen s len true = .error .error := by
      unfold RimWriteString.putsLen
      simp only [if_true]
      rw [if_pos hzero, if_pos hlen]
    show (if r.currWriteToString = -1 then Except.ok r else _) = _
    rw [if_neg (by omega)]
    unfold RimWriteString.rimPuts
    rw [hputs]
    rfl
  | printf enc text => exact absurd hr id
  | finish notrim =>
    have hnil : g.opened = [] := hr
    rw [hnil] at hcur
    have hneg : r.currWriteToString < 0 := by
      rw [hcur]
      decide
    show r.rimWriteToStringEnd heap notrim = _
    unfold WriteReq.rimWriteToStringEnd
    cases notrim with
    | true => exact if_pos hneg
    | false => exact if_pos hneg

def WriteReq.Step (r : WriteReq) (op : WriteOp) (r' : WriteReq) : Prop :=
  op.Legal ∧ ∃ heap, r.exec heap op = .ok r'

/-- In every run whose texts can be counted, the strings are those that the program means,
and the next statement is carried out, unless there is no memory or it reports an error. -/
theorem run_written {ops : List WriteOp} (hrun : GuardedRun WriteReq.Step (fun r op => op.Guard r) {} ops r) :
    IsWritten r (ops.foldl WriteOp.onWritten {}) ∧
      ∀ (heap : Heap) (op : WriteOp), op.Legal → op.Guard r →
        (op.Reports (ops.foldl WriteOp.onWritten {}) ∧ r.exec heap op = .error .error) ∨
          Carries (op.onWritten (ops.foldl WriteOp.onWritten {})) (r.exec heap op) := by
  have hwritten : IsWritten r (ops.foldl WriteOp.onWritten {}) := by
    refine hrun.foldl ?_ init_isWritten
    intro r₁ r₂ op g hs hg hstep
    obtain ⟨hl, heap, hexec⟩ := hstep
    by_cases hr : op.Reports g
    · rw [exec_reports heap hs hr] at hexec
      cases hexec
    · obtain hnone | ⟨r₃, hok, hnext⟩ := exec_carries heap hs hl hg hr
      · rw [hnone] at hexec
        cases hexec
      · rw [hok] at hexec
        obtain rfl := Except.ok.inj hexec
        exact hnext
  refine ⟨hwritten, ?_⟩
  intro heap op hl hg
  by_cases hr : op.Reports (ops.foldl WriteOp.onWritten {})
  · exact Or.inl ⟨hr, exec_reports heap hwritten hr⟩
  · exact Or.inr (exec_carries heap hwritten hl hg hr)

/-- A heap that gives all blocks that there can be. -/
def plenty : Heap where
  gives size := decide (0 ≤ size ∧ size < 2 ^ 47)
  fresh _ := 0
  bound _ h := of_decide_eq_true h

/-- A string is begun, and a byte is written. -/
theorem run_written_byte :
    ∃ r, IsWritten r (([.begin 0, .puts none [97, 0] 0 true] : List WriteOp).foldl WriteOp.onWritten {}) := by
  obtain ⟨r, hbegin, hwritten, hlen⟩ := begin_gives plenty init_isWritten 0 (by decide) (by decide)
  obtain ⟨hcur, free, hlevel⟩ := hwritten.top rfl
  have hfree : 1 < free.length := by
    have hsame : (1024 : Int) = (0 : Nat) + free.length := hlen.symm.trans hlevel.len
    omega
  have hbyte : 1 < ([97, 0] : Bytes).length := by decide
  obtain ⟨w, free', hputs, -⟩ := rimPutsToString_fits plenty hlevel 1 hbyte hfree
  have hexec : r.exec plenty (.puts none [97, 0] 0 true) = .ok (r.setWrstr w) := by
    show (if r.currWriteToString = -1 then Except.ok r else _) = _
    rw [if_neg (by rw [hcur]; decide)]
    show (do let w ← r.wrstr.rimPutsToString plenty 2 [97, 0] (1 : Nat); Except.ok (r.setWrstr w)) = _
    rw [hputs]
    rfl
  have hlegal : (WriteOp.puts none [97, 0] 0 true).Legal := ⟨List.cons_ne_nil _ _, nofun⟩
  have hcounted : (WriteOp.puts none [97, 0] 0 true).Counted := by
    show 0 ≤ putsLength [97, 0] 0 true
    decide
  have hrun : GuardedRun WriteReq.Step (fun r op => op.Guard r) {} [.begin 0, .puts none [97, 0] 0 true] (r.setWrstr w) :=
    .cons (Or.inl rfl) ⟨trivial, plenty, hbegin⟩ (.cons (Or.inr hcounted) ⟨hlegal, plenty, hexec⟩ (.nil _))
  exact ⟨_, (run_written hrun).1⟩

/-! ## A text that is too long -/

/-- Only what is inside of the block is written. -/
theorem rimEncodeLoop_inside (enc : RimEnc) (s : Bytes) {b' : Bytes} {j k : Nat} (hj : j ≤ b.length)
    (h : rimEncodeLoop enc s b j = some (b', k)) : k ≤ b.length ∧ k = j + (s.flatMap enc.char).length := by
  induction s generalizing b j with
  | nil =>
    obtain ⟨-, rfl⟩ := Prod.mk.inj (Option.some.inj h)
    exact ⟨hj, rfl⟩
  | cons c s ih =>
    obtain ⟨b₁, hcopy, hrest⟩ := Option.bind_eq_some_iff.mp h
    unfold memcpy at hcopy
    split at hcopy
    · rename_i hfits
      obtain rfl := Option.some.inj hcopy
      have hlen : (b.take j ++ enc.char c ++ b.drop (j + (enc.char c).length)).length = b.length := by
        simp only [List.length_append, List.length_take, List.length_drop]
        omega
      obtain ⟨hle, heq⟩ := ih (by rw [hlen]; exact hfits) hrest
      rw [hlen] at hle
      refine ⟨hle, ?_⟩
      rw [heq, List.flatMap_cons, List.length_append, Nat.add_assoc]
    · cases hcopy

/-- The room for a text is not asked for where the number of its bytes becomes negative. -/
theorem rimPuts_outside (h : Level w str acc free) {n : Nat} (hneg : toInt32 ((n : Int) * 6 + 1) < 0)
    (hlong : free.length < n) : w.rimPuts heap (some .web) (List.replicate n 97 ++ [0]) 0 true = .error .outside := by
  have hroom := h.room
  have hlen : RimWriteString.putsLen (List.replicate n 97 ++ [0]) 0 true = .ok n := by
    unfold RimWriteString.putsLen
    simp
  have htake : (List.replicate n (97 : UInt8) ++ [0]).take (n : Int).toNat = List.replicate n 97 := by
    rw [Int.toNat_natCast, List.take_left' List.length_replicate]
  have hloop : rimEncodeLoop .web (List.replicate n 97) w.buf w.bufPos.toNat = none := by
    rw [h.buf_eq, h.posToNat]
    cases hx : rimEncodeLoop .web (List.replicate n 97) (acc ++ free) acc.length with
    | none => rfl
    | some x =>
      obtain ⟨b, k⟩ := x
      obtain ⟨hle, hk⟩ := rimEncodeLoop_inside .web _ (by rw [List.length_append]; omega) hx
      have hchar : ∀ c ∈ List.replicate n (97 : UInt8), RimEnc.web.char c = [c] := by
        intro c hc
        rw [List.eq_of_mem_replicate hc]
        rfl
      rw [List.flatMap_congr hchar, List.flatMap_singleton', List.length_replicate] at hk
      rw [List.length_append] at hle
      omega
  have hle : (n : Int) ≤ ((List.replicate n (97 : UInt8) ++ [0]).length : Nat) := by
    rw [List.length_append, List.length_replicate]
    omega
  have hputs : w.putsLoop heap .web 2 (List.replicate n 97 ++ [0]) n = .error .outside := by
    rw [RimWriteString.putsLoop]
    simp only [htake]
    rw [if_neg (by rw [h.room_eq]; omega), if_pos ⟨by rw [h.bufPos]; exact Int.natCast_nonneg _, hle⟩, hloop]
    rfl
  unfold RimWriteString.rimPuts
  simp only [hlen, bind, Except.bind, hputs]

/-- A text of 357913942 bytes is written in web encoding. -/
theorem run_not_written : ¬ ∀ (ops : List WriteOp) (r : WriteReq) (heap : Heap) (op : WriteOp),
    Run WriteReq.Step {} ops r → op.Legal → r.exec heap op ≠ .error .outside := by
  intro h
  obtain ⟨r, hbegin, hwritten, hlen⟩ := begin_gives plenty init_isWritten 0 (by decide) (by decide)
  obtain ⟨hcur, free, hlevel⟩ := hwritten.top rfl
  have hfree : free.length < 357913942 := by
    have hsame : (1024 : Int) = (0 : Nat) + free.length := hlen.symm.trans hlevel.len
    omega
  have houtside := rimPuts_outside plenty hlevel (n := 357913942) (by decide) hfree
  refine h [.begin 0] r plenty (.puts (some .web) (List.replicate 357913942 97 ++ [0]) 0 true)
    (.cons trivial ⟨trivial, plenty, hbegin⟩ (.nil _)) ⟨?_, nofun⟩ ?_
  · exact List.append_ne_nil_of_right_ne_nil _ (List.cons_ne_nil _ _)
  · show (if r.currWriteToString = -1 then Except.ok r else _) = _
    rw [if_neg (by rw [hcur]; decide), houtside]
    rfl

end RimStone
