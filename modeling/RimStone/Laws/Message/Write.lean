import RimStone.Message.Message
import RimStone.Laws.Memory.Chars

/-!
# Writing a message

However the block of a message grows, `rim_write_msg` leaves in it the items that were
written so far, a null, and room that was not used yet.
-/

namespace RimStone

open RimStone.Lib

namespace RimMsg

/-- What `rim_write_msg` appends for a pair. -/
def encodeItem (p : Bytes × Bytes) : Bytes :=
  p.1 ++ 61 :: ((htobe64 p.2.length ++ List.replicate 8 0) ++ (p.2 ++ [10]))

def encode (pairs : List (Bytes × Bytes)) : Bytes := pairs.flatMap encodeItem

@[simp] theorem length_htobe64 (n : Nat) : (htobe64 n).length = 8 := by
  simp [htobe64]

theorem length_encodeItem (p : Bytes × Bytes) :
    (encodeItem p).length = p.1.length + 1 + RIM_ALIGN + p.2.length + 1 := by
  simp only [encodeItem, List.length_append, List.length_cons, length_htobe64, List.length_replicate,
    List.length_nil, RIM_ALIGN]
  omega

/-- A message that is written to, and holds `content`. The first item has a block made
for it. -/
structure Written (msg : RimMsg) (content : Bytes) : Prop where
  mode : msg.mode = .write
  len : msg.len = content.length
  curr : msg.curr = content.length
  dataLen : msg.dataLen = content.length
  block : content = [] ∨ ∃ free, msg.data = some (content ++ 0 :: free) ∧
    msg.tot = content.length + 1 + free.length ∧ msg.tot < 2 ^ 63

variable {garbage : Nat → UInt8} {msg msg' : RimMsg} {content key value : Bytes} {p : Bytes × Bytes}

theorem write_append {out : Bytes} {i : Nat} (hi : i = out.length) {free src : Bytes}
    (h : src.length ≤ free.length) : write (out ++ free) i src = .ok (out ++ src ++ free.drop src.length) := by
  rw [write, hi, memcpy_append out h]

/-- Where there is room, an item is put after what the block holds. -/
theorem putItem_eq (content : Bytes) {free : Bytes} (key value : Bytes)
    (hroom : (encodeItem (key, value)).length < free.length) :
    ∃ rest, putItem (content ++ free) content.length key value =
        .ok (content ++ encodeItem (key, value) ++ 0 :: rest) ∧
      (encodeItem (key, value)).length + 1 + rest.length = free.length := by
  rw [length_encodeItem] at hroom
  simp only [RIM_ALIGN] at hroom
  have hhdr : (htobe64 value.length ++ List.replicate 8 0).length = 16 := by
    rw [List.length_append, length_htobe64, List.length_replicate]
  have hnull : (value ++ [0]).length = value.length + 1 := List.length_append
  obtain ⟨hdr, hdef⟩ : ∃ hdr, htobe64 value.length ++ List.replicate 8 0 = hdr := ⟨_, rfl⟩
  rw [hdef] at hhdr
  have h₁ : write (content ++ free) content.length key = .ok (content ++ key ++ free.drop key.length) :=
    write_append rfl (by omega)
  have h₂ : write (content ++ key ++ free.drop key.length) (content.length + key.length) [61] =
      .ok (content ++ key ++ [61] ++ (free.drop key.length).drop 1) :=
    write_append (by simp) (by simp; omega)
  have h₃ : write (content ++ key ++ [61] ++ (free.drop key.length).drop 1)
      (content.length + key.length + 1) hdr =
      .ok (content ++ key ++ [61] ++ hdr ++ ((free.drop key.length).drop 1).drop hdr.length) :=
    write_append (by simp; omega) (by simp [hhdr]; omega)
  have h₄ : write (content ++ key ++ [61] ++ hdr ++ ((free.drop key.length).drop 1).drop hdr.length)
      (content.length + key.length + 1 + RIM_ALIGN) (value ++ [0]) =
      .ok (content ++ key ++ [61] ++ hdr ++ (value ++ [0]) ++
        (((free.drop key.length).drop 1).drop hdr.length).drop (value ++ [0]).length) :=
    write_append (by simp [hhdr, RIM_ALIGN]; omega) (by simp [hhdr]; omega)
  have hleft : ((((free.drop key.length).drop 1).drop hdr.length).drop (value ++ [0]).length).length =
      free.length - (key.length + 1 + 16 + value.length + 1) := by
    simp only [List.length_drop, hnull, hhdr]
    omega
  generalize (((free.drop key.length).drop 1).drop hdr.length).drop (value ++ [0]).length = left at h₄ hleft
  -- the line feed takes the place of the null of the value
  have h₅ : write (content ++ key ++ [61] ++ hdr ++ (value ++ [0]) ++ left)
      (content.length + key.length + 1 + RIM_ALIGN + value.length) [10] =
      .ok (content ++ key ++ [61] ++ hdr ++ value ++ [10] ++ left) := by
    have hsplit : content ++ key ++ [61] ++ hdr ++ (value ++ [0]) ++ left =
        content ++ key ++ [61] ++ hdr ++ value ++ 0 :: left := by simp
    rw [hsplit, write_append (by simp [hhdr, RIM_ALIGN]; omega) (by simp)]
    rfl
  have h₆ : write (content ++ key ++ [61] ++ hdr ++ value ++ [10] ++ left)
      (content.length + (key.length + 1 + RIM_ALIGN + value.length + 1)) [0] =
      .ok (content ++ key ++ [61] ++ hdr ++ value ++ [10] ++ [0] ++ left.drop 1) :=
    write_append (by simp [hhdr, RIM_ALIGN]; omega) (by simp; omega)
  refine ⟨left.drop 1, ?_, ?_⟩
  · simp only [putItem, hdef, h₁, h₂, h₃, h₄, h₅, h₆, bind, Except.bind]
    simp only [encodeItem, hdef, List.append_assoc, List.cons_append, List.nil_append]
  · rw [length_encodeItem, List.length_drop, hleft]
    simp only [RIM_ALIGN]
    omega

/-! ## Growing -/

/-- A block is made, unless there is no memory. -/
theorem allocBlock_cases (garbage : Nat → UInt8) (msg : RimMsg) (old : Bytes) {tot : Nat} (hold : old.length ≤ tot) :
    allocBlock garbage msg old tot = .error (.report "Out of memory" msg) ∨
      tot < 2 ^ 63 ∧ ∃ free, allocBlock garbage msg old tot = .ok (old ++ free) ∧ old.length + free.length = tot := by
  unfold allocBlock
  by_cases htot : tot < 2 ^ 63
  · rw [if_pos htot]
    refine Or.inr ⟨htot, _, rfl, ?_⟩
    rw [List.length_map, List.length_range]
    omega
  · rw [if_neg htot]
    exact Or.inl rfl

/-- What `rim_write_msg` needs of the block: what was written, and room for an item of
these lengths. -/
structure Grown (msg : RimMsg) (content : Bytes) (keyl valuel : Nat) (msg' : RimMsg) : Prop where
  mode : msg'.mode = msg.mode
  len : msg'.len = msg.len
  curr : msg'.curr = msg.curr
  dataLen : msg'.dataLen = msg.dataLen
  block : ∃ free, msg'.data = some (content ++ free) ∧ msg'.tot = content.length + free.length ∧
    keyl + valuel + RIM_MSG_ADD_LEN ≤ free.length
  tot : msg'.tot < 2 ^ 63

theorem growMsg_cases (h : Written msg content) (garbage : Nat → UInt8) (keyl valuel : Nat) :
    (∃ m, growMsg garbage msg keyl valuel = .error (.report "Out of memory" m)) ∨
      ∃ msg', growMsg garbage msg keyl valuel = .ok msg' ∧ Grown msg content keyl valuel msg' := by
  unfold growMsg
  by_cases hcurr : msg.curr = 0
  · have hnil : content = [] := by
      apply List.eq_nil_of_length_eq_zero
      have hc := h.curr
      omega
    subst hnil
    rw [if_pos hcurr]
    have halloc := allocBlock_cases garbage msg [] (Nat.zero_le (keyl + valuel + RIM_MSG_ADD_LEN + RIM_MSG_BUFF_LEN))
    obtain herr | ⟨htot, free, hok, hlen⟩ := halloc
    · refine Or.inl ⟨msg, ?_⟩
      simp only [herr, bind, Except.bind]
    · simp only [hok, bind, Except.bind]
      refine Or.inr ⟨_, rfl, rfl, rfl, rfl, rfl, ⟨free, rfl, hlen.symm, ?_⟩, htot⟩
      rw [List.length_nil] at hlen
      omega
  · have hpos : content ≠ [] := by
      intro hnil
      apply hcurr
      rw [h.curr, hnil]
      rfl
    obtain hnil | ⟨free, hdata, htot, hsmall⟩ := h.block
    · exact absurd hnil hpos
    rw [if_neg hcurr]
    generalize (if msg.addinc ≤ 4096 then msg.addinc * 2
      else if msg.tot > 8 * msg.addinc then msg.tot / 4 else msg.addinc) = addinc
    by_cases hfull : msg.tot < msg.len + keyl + valuel + RIM_MSG_ADD_LEN
    · have hold : (content ++ 0 :: free).length ≤ msg.len + keyl + valuel + RIM_MSG_ADD_LEN + addinc := by
        rw [List.length_append, List.length_cons]
        omega
      have halloc := allocBlock_cases garbage { msg with addinc } (content ++ 0 :: free) hold
      have hblock : RimMsg.block { msg with addinc } = content ++ 0 :: free := by
        rw [block, hdata, Option.getD_some]
      rw [if_pos hfull, hblock]
      obtain herr | ⟨htot', free', hok, hlen⟩ := halloc
      · refine Or.inl ⟨{ msg with addinc }, ?_⟩
        simp only [herr, bind, Except.bind]
      · simp only [hok, bind, Except.bind]
        rw [List.length_append, List.length_cons] at hlen
        refine Or.inr ⟨_, rfl, rfl, rfl, rfl, rfl, ⟨0 :: (free ++ free'), ?_, ?_, ?_⟩, htot'⟩
        · rw [List.append_assoc, List.cons_append]
        · show msg.len + keyl + valuel + RIM_MSG_ADD_LEN + addinc = _
          rw [List.length_cons, List.length_append]
          omega
        · have hl := h.len
          rw [List.length_cons, List.length_append]
          omega
    · rw [if_neg hfull]
      refine Or.inr ⟨_, rfl, rfl, rfl, rfl, rfl, ⟨0 :: free, hdata, ?_, ?_⟩, hsmall⟩
      · show msg.tot = _
        rw [htot, List.length_cons]
        omega
      · have hl := h.len
        rw [List.length_cons]
        omega

/-! ## Writing -/

def Holds (msg : RimMsg) (content : Bytes) : Prop :=
  (msg.mode = .none ∧ msg.data = none ∧ content = []) ∨ Written msg content

theorem written_rimInitMsg (msg : RimMsg) : Written { msg.rimInitMsg with mode := .write } [] :=
  ⟨rfl, rfl, rfl, rfl, Or.inl rfl⟩

/-- An item is written, unless there is no memory for it. -/
theorem rimWriteMsg_cases (h : Holds msg content) (garbage : Nat → UInt8)
    (hkey : key.all keyChar = true) (value : Bytes) :
    (∃ m, rimWriteMsg garbage msg key value = .error (.report "Out of memory" m)) ∨
      ∃ msg', rimWriteMsg garbage msg key value = .ok msg' ∧
        Written msg' (content ++ encodeItem (key, value)) ∧ value.length < 2 ^ 63 := by
  -- the message as it is written to, which begins empty where it has no mode
  obtain ⟨m, hm, hmode⟩ : ∃ m, Written m content ∧ beginWrite msg = .ok m := by
    unfold beginWrite
    obtain ⟨hnone, -, rfl⟩ | hw := h
    · rw [hnone]
      exact ⟨_, written_rimInitMsg msg, rfl⟩
    · rw [hw.mode]
      exact ⟨msg, hw, rfl⟩
  have hlen : ¬ m.len > m.dataLen := by
    rw [hm.len, hm.dataLen]
    omega
  have hvalid : ¬ (!key.all keyChar) = true := by
    rw [hkey]
    decide
  unfold rimWriteMsg
  simp only [hmode, bind, Except.bind, if_neg hlen, if_neg hvalid]
  obtain ⟨e, herr⟩ | ⟨g, hok, hg⟩ := growMsg_cases hm garbage key.length value.length
  · refine Or.inl ⟨e, ?_⟩
    rw [herr]
  · obtain ⟨free, hdata, htot, hroom⟩ := hg.block
    have hblock : g.block = content ++ free := by rw [block, hdata, Option.getD_some]
    have hcurr : g.curr.toNat = content.length := by rw [hg.curr, hm.curr, Int.toNat_natCast]
    have hitem : (encodeItem (key, value)).length < free.length := by
      rw [length_encodeItem]
      simp only [RIM_ALIGN, RIM_MSG_ADD_LEN] at hroom ⊢
      omega
    obtain ⟨rest, hput, hrest⟩ := putItem_eq content key value hitem
    have hnew : g.len + (key.length + 1 + RIM_ALIGN + value.length + 1) =
        (content ++ encodeItem (key, value)).length := by
      rw [hg.len, hm.len, List.length_append, length_encodeItem]
    have hsmall := hg.tot
    simp only [hok, hblock, hcurr, hput, hnew]
    refine Or.inr ⟨_, rfl, ⟨hg.mode.trans hm.mode, rfl, rfl, rfl, Or.inr ⟨rest, rfl, ?_, hsmall⟩⟩, ?_⟩
    · show g.tot = _
      rw [List.length_append]
      omega
    · omega

/-- The pairs are written one after the other, unless there is no memory for them. -/
theorem writeAll_cases (h : Holds msg content) (garbage : Nat → UInt8) {pairs : List (Bytes × Bytes)}
    (hkeys : ∀ p ∈ pairs, p.1.all keyChar = true) :
    (∃ m, writeAll garbage msg pairs = .error (.report "Out of memory" m)) ∨
      ∃ msg', writeAll garbage msg pairs = .ok msg' ∧ Holds msg' (content ++ encode pairs) ∧
        ∀ p ∈ pairs, p.2.length < 2 ^ 63 := by
  induction pairs generalizing msg content with
  | nil =>
    refine Or.inr ⟨msg, rfl, ?_, fun _ hp => absurd hp List.not_mem_nil⟩
    rw [encode, List.flatMap_nil, List.append_nil]
    exact h
  | cons p pairs ih =>
    obtain ⟨hkey, hkeys⟩ := List.forall_mem_cons.mp hkeys
    obtain ⟨e, herr⟩ | ⟨m, hok, hm, hsmall⟩ := rimWriteMsg_cases h garbage hkey p.2
    · refine Or.inl ⟨e, ?_⟩
      simp only [writeAll, List.foldlM_cons, herr, bind, Except.bind]
    · have hgo : writeAll garbage msg (p :: pairs) = writeAll garbage m pairs := by
        simp only [writeAll, List.foldlM_cons, hok, bind, Except.bind]
      rw [hgo]
      obtain hfull | ⟨msg', hok', hm', hsmall'⟩ := ih (Or.inr hm) hkeys
      · exact Or.inl hfull
      · refine Or.inr ⟨msg', hok', ?_, List.forall_mem_cons.mpr ⟨hsmall, hsmall'⟩⟩
        rw [encode, List.flatMap_cons, ← List.append_assoc]
        exact hm'

/-- The string of a message is what was written. -/
theorem rimGetMsg_eq (h : Holds msg content) : (rimGetMsg msg).1 = content := by
  obtain ⟨-, hdata, rfl⟩ | hw := h
  · rw [rimGetMsg, hdata]
  · obtain rfl | ⟨free, hdata, -, -⟩ := hw.block
    · unfold rimGetMsg
      cases msg.data with
      | none => rfl
      | some data =>
        show data.take msg.len = []
        rw [hw.len]
        rfl
    · rw [rimGetMsg, hdata, hw.len]
      exact List.take_left

end RimMsg

end RimStone
