import RimStone.Client.Read
import RimStone.Laws.Memory.Chars

/-!
# Replies are put together

A round of `fc_server_read` reads a header or what comes after it. Between two records
`Gathered` says what the three blocks hold, and a record appends its content to its
block; how the bytes arrived does not matter, since `rim_read_socket` reads on until it
has all it was asked for.
-/

namespace RimStone

open RimStone.Lib

namespace FcLocal

/-! ## Reading from the socket -/

/-- The loop reads what is still missing. -/
theorem rimReadSocketLoop_eq {l : FcLocal} {len fuel : Nat} {gotten a rest : Bytes}
    (hfuel : l.sock.length < fuel) (hs : Answer.Steady l.sock)
    (hd : Answer.delivered l.sock = a ++ rest) (ha : gotten.length + a.length = len) (hne : a ≠ []) :
    ∃ sock, rimReadSocketLoop fuel l len gotten = some ({ l with sock }, true, gotten ++ a) ∧
      Answer.delivered sock = rest ∧ Answer.Steady sock := by
  induction fuel generalizing l gotten a with
  | zero => omega
  | succ fuel ih =>
    have hpos : 0 < a.length := List.length_pos_iff.mpr hne
    have hmiss : 0 < len - gotten.length := by omega
    have hsome : Answer.delivered l.sock ≠ [] := by
      intro hnil
      rw [hnil] at hd
      exact hne (List.append_eq_nil_iff.mp hd.symm).1
    rw [rimReadSocketLoop]
    obtain ⟨s', hread, hd', hs', hlen⟩ | ⟨b, s', hread, hb, hble, hd', hs', hlen⟩ := Answer.read_steady hs hmiss hsome
    · have hfuel' : s'.length < fuel := by omega
      have hgo := ih (l := { l with sock := s' }) hfuel' hs' (hd'.trans hd) ha hne
      rw [hread]
      exact hgo
    · -- what was read is the front of what is missing
      obtain ⟨a', rfl⟩ : ∃ a', a = b ++ a' := by
        rw [hd] at hd'
        have hpre : b <+: a := by
          apply List.prefix_of_prefix_length_le (List.prefix_append b _) (hd' ▸ List.prefix_append a rest)
          omega
        obtain ⟨a', ha'⟩ := hpre
        exact ⟨a', ha'.symm⟩
      rw [hd, List.append_assoc, List.append_cancel_left_eq] at hd'
      rw [List.length_append] at ha
      rw [hread]
      obtain ⟨x, xs, rfl⟩ : ∃ x xs, b = x :: xs := List.exists_cons_of_ne_nil hb
      by_cases hfull : (gotten ++ x :: xs).length ≥ len
      · have hnil : a' = [] := by
          apply List.eq_nil_of_length_eq_zero
          rw [List.length_append] at hfull
          omega
        subst hnil
        refine ⟨s', ?_, hd'.symm, hs'⟩
        simp only [if_pos hfull, List.append_nil]
      · have hshort : gotten.length + (x :: xs).length < len := by
          rw [List.length_append] at hfull
          omega
        have hfuel' : s'.length < fuel := by
          cases hlen with
          | inl hlt => omega
          | inr heq => omega
        have ha' : (gotten ++ x :: xs).length + a'.length = len := by
          rw [List.length_append]
          omega
        have hne' : a' ≠ [] := by
          intro hnil
          rw [hnil, List.length_nil] at ha
          omega
        have hgo := ih (l := { l with sock := s' }) hfuel' hs' hd'.symm ha' hne'
        simp only [if_neg hfull]
        rw [List.append_assoc] at hgo
        exact hgo

/-- `rim_read_socket` reads all it is asked for, however it arrives. -/
theorem rimReadSocket_eq {l : FcLocal} {a rest : Bytes} (hs : Answer.Steady l.sock)
    (hd : Answer.delivered l.sock = a ++ rest) (hne : a ≠ []) :
    ∃ sock, l.rimReadSocket a.length = some ({ l with sock }, true, a) ∧
      Answer.delivered sock = rest ∧ Answer.Steady sock :=
  rimReadSocketLoop_eq (Nat.lt_succ_self _) hs hd (Nat.zero_add _) hne

/-! ## Records -/

inductive Gather where
  | data
  | error
  | other
  deriving DecidableEq

def gatherOf (type : UInt8) : Gather :=
  if type = RIM_CLI_STDOUT then .data else if type = RIM_CLI_STDERR then .error else .other

/-- A record as the protocol has it, of version 1 and request 1. -/
structure FcRecord where
  type : UInt8
  content : Bytes
  padding : Bytes
  reserved : UInt8
  content_lt : content.length < 65536
  padding_lt : padding.length < 256

def FcRecord.header (r : FcRecord) : FcHeader where
  ver := 1
  type := r.type
  reqId1 := 0
  reqId0 := 1
  contLen1 := UInt8.ofNat (r.content.length / 256)
  contLen0 := UInt8.ofNat (r.content.length % 256)
  padLen := UInt8.ofNat r.padding.length
  futureUse := r.reserved

def headerBytes (h : FcHeader) : Bytes :=
  [h.ver, h.type, h.reqId1, h.reqId0, h.contLen1, h.contLen0, h.padLen, h.futureUse]

def FcRecord.encode (r : FcRecord) : Bytes := headerBytes r.header ++ (r.content ++ r.padding)

def contents (rs : List FcRecord) (g : Gather) : Bytes :=
  (rs.filter fun r => gatherOf r.type = g).flatMap FcRecord.content

variable {l : FcLocal} {c : Gather → Bytes} {r : FcRecord} {rest : Bytes}

/-- What was gathered between two records: each block has it, and one byte more. -/
structure Gathered (l : FcLocal) (c : Gather → Bytes) : Prop where
  buffs : ∀ type, ∃ x, l.buff type = ⟨c (gatherOf type) ++ [x], (c (gatherOf type)).length⟩
  steady : Answer.Steady l.sock
  doneHeader : l.doneHeader = false
  reqId : l.reqId = 1
  readDone : l.readDone = false
  readStatus : l.readStatus = .okay

/-- After the header of `r`: its block has room for its content. -/
structure Headed (l : FcLocal) (c : Gather → Bytes) (r : FcRecord) : Prop where
  room : ∃ free, l.buff r.type = ⟨c (gatherOf r.type) ++ free, (c (gatherOf r.type)).length⟩ ∧
    free.length = r.content.length + 1
  others : ∀ type, gatherOf type ≠ gatherOf r.type →
    ∃ x, l.buff type = ⟨c (gatherOf type) ++ [x], (c (gatherOf type)).length⟩
  steady : Answer.Steady l.sock
  doneHeader : l.doneHeader = true
  header : l.header = some r.header
  msgRemain : l.msgRemain = r.content.length
  paddingLen : l.paddingLen = r.padding.length
  reqId : l.reqId = 1
  readDone : l.readDone = false
  readStatus : l.readStatus = .okay

theorem buff_eq (l : FcLocal) (type : UInt8) :
    l.buff type = match gatherOf type with | .data => l.data | .error => l.error | .other => l.other := by
  unfold buff gatherOf
  split_ifs <;> rfl

theorem setBuff_eq (l : FcLocal) (type : UInt8) (b : FcBuff) :
    l.setBuff type b = match gatherOf type with
      | .data => { l with data := b } | .error => { l with error := b } | .other => { l with other := b } := by
  unfold setBuff gatherOf
  split_ifs <;> rfl

/-- The block of a type changes, and no other. -/
theorem buff_setBuff (l : FcLocal) (type type' : UInt8) (b : FcBuff) :
    (l.setBuff type b).buff type' = if gatherOf type' = gatherOf type then b else l.buff type' := by
  rw [setBuff_eq, buff_eq, buff_eq]
  cases gatherOf type <;> cases gatherOf type' <;> rfl

theorem buff_setBuff_self (l : FcLocal) (type : UInt8) (b : FcBuff) : (l.setBuff type b).buff type = b := by
  rw [buff_setBuff, if_pos rfl]

theorem setBuff_setBuff (l : FcLocal) (type : UInt8) (b b' : FcBuff) :
    (l.setBuff type b).setBuff type b' = l.setBuff type b' := by
  rw [setBuff_eq, setBuff_eq, setBuff_eq]
  cases gatherOf type <;> rfl

/-- A change of a block is no other change. -/
theorem setBuff_frame (l : FcLocal) (type : UInt8) (b : FcBuff) :
    (l.setBuff type b).sock = l.sock ∧ (l.setBuff type b).header = l.header ∧
      (l.setBuff type b).doneHeader = l.doneHeader ∧ (l.setBuff type b).msgRemain = l.msgRemain ∧
      (l.setBuff type b).paddingLen = l.paddingLen ∧ (l.setBuff type b).reqId = l.reqId ∧
      (l.setBuff type b).readDone = l.readDone ∧ (l.setBuff type b).readStatus = l.readStatus ∧
      (l.setBuff type b).reqStatus = l.reqStatus := by
  rw [setBuff_eq]
  cases gatherOf type <;> exact ⟨rfl, rfl, rfl, rfl, rfl, rfl, rfl, rfl, rfl⟩

/-- The lengths in a header are read back. -/
theorem header_lengths (r : FcRecord) :
    r.header.contLen0.toNat + r.header.contLen1.toNat * 2 ^ 8 = r.content.length ∧
      r.header.padLen.toNat = r.padding.length := by
  have hc := r.content_lt
  have hp := r.padding_lt
  simp only [FcRecord.header, UInt8.toNat_ofNat']
  omega

section

variable {mem : Nat → Bool} {garbage : Nat → UInt8}

/-- Lengths that fit in an `int` make a size that fits. -/
theorem fcSize_eq {type : UInt8} {len n : Nat} (h : gatherOf type = .other → len + n + 1 < 2 ^ 31) :
    fcSize type len n = some (len + n + 1) := by
  unfold fcSize
  by_cases hdata : type = RIM_CLI_STDOUT ∨ type = RIM_CLI_STDERR
  · rw [if_pos hdata]
  · rw [if_neg hdata]
    have hother : gatherOf type = .other := by
      obtain ⟨hout, herr⟩ := not_or.mp hdata
      rw [gatherOf, if_neg hout, if_neg herr]
    have hlt := h hother
    have hfirst : addInt len n = some (len + n) := if_pos (by omega)
    have hnext : addInt (len + n) 1 = some (len + n + 1) := if_pos hlt
    rw [hfirst]
    exact hnext

theorem fcRealloc_eq (hmem : ∀ n, mem n = true) (garbage : Nat → UInt8) (content : Bytes) (x : UInt8) (add n : Nat) :
    ∃ free, fcRealloc mem garbage (content ++ [x]) add (content.length + n + 1) = content ++ free ∧
      free.length = n + 1 := by
  unfold fcRealloc
  rw [if_pos (hmem _)]
  have hlen : (content ++ [x]).length = content.length + 1 := List.length_append
  refine ⟨x :: (List.range (content.length + n + 1 - (content ++ [x]).length)).map garbage, ?_, ?_⟩
  · rw [List.take_of_length_le (by omega), List.append_assoc]
    rfl
  · rw [List.length_cons, List.length_map, List.length_range]
    omega

/-- A header is read. -/
theorem fcHeader_headed (hmem : ∀ n, mem n = true) (garbage : Nat → UInt8) (h : Gathered l c)
    (hd : Answer.delivered l.sock = headerBytes r.header ++ rest)
    (hroom : gatherOf r.type = .other → (c .other).length + r.content.length + 1 < 2 ^ 31) :
    ∃ l', l.fcHeader mem garbage = some (l', false) ∧ Headed l' c r ∧ Answer.delivered l'.sock = rest := by
  have hne : headerBytes r.header ≠ [] := List.cons_ne_nil _ _
  obtain ⟨sock, hread, hrest, hs⟩ := rimReadSocket_eq h.steady hd hne
  obtain ⟨x, hx⟩ := h.buffs r.type
  obtain ⟨hcont, hpad⟩ := header_lengths r
  have hsize : fcSize r.type (c (gatherOf r.type)).length r.content.length =
      some ((c (gatherOf r.type)).length + r.content.length + 1) := by
    apply fcSize_eq
    intro hother
    rw [hother]
    exact hroom hother
  obtain ⟨free, hblock, hfree⟩ := fcRealloc_eq hmem garbage (c (gatherOf r.type)) x
    (if r.type = RIM_CLI_STDOUT ∨ r.type = RIM_CLI_STDERR then RIM_ADD_FOR_RIM else 0) r.content.length
  have hsome : ¬ c (gatherOf r.type) ++ free = [] := by
    intro hnil
    have hz := congrArg List.length hnil
    rw [List.length_append, List.length_nil] at hz
    omega
  have hlen : (headerBytes r.header).length = 8 := rfl
  rw [hlen] at hread
  have hof : fcHeaderOf (headerBytes r.header) = some r.header := rfl
  have hver : ¬ r.header.ver ≠ RIM_CLI_VER_1 := by
    intro hne
    exact hne rfl
  have hid : ¬ r.header.reqId0.toNat + r.header.reqId1.toNat * 2 ^ 8 ≠ l.reqId := by
    have h0 : r.header.reqId0 = 1 := rfl
    have h1 : r.header.reqId1 = 0 := rfl
    rw [h.reqId, h0, h1]
    decide
  have htype : r.header.type = r.type := rfl
  -- the block is the one before the header was read
  have hbuff : ({ l with
      sock, header := some r.header, msgRemain := r.content.length,
      paddingLen := r.padding.length } : FcLocal).buff r.type =
        ⟨c (gatherOf r.type) ++ [x], (c (gatherOf r.type)).length⟩ := hx
  unfold fcHeader
  simp only [hread, bind, Option.bind, Bool.not_true, Bool.false_eq_true, if_false, hof, if_neg hver, if_neg hid,
    hcont, hpad, htype, hbuff, hsize, hblock, if_neg hsome]
  obtain ⟨hsock, hheader, -, hmsg, hpadding, hreq, hdone, hstatus, -⟩ := setBuff_frame
    { l with sock, header := some r.header, msgRemain := r.content.length, paddingLen := r.padding.length }
    r.type ⟨c (gatherOf r.type) ++ free, (c (gatherOf r.type)).length⟩
  refine ⟨_, rfl, ⟨⟨free, buff_setBuff_self _ _ _, hfree⟩, ?_, ?_, rfl, hheader, hmsg, hpadding,
    hreq.trans h.reqId, hdone.trans h.readDone, hstatus.trans h.readStatus⟩, ?_⟩
  · intro type hne
    obtain ⟨y, hy⟩ := h.buffs type
    refine ⟨y, ?_⟩
    show (setBuff _ r.type _).buff type = _
    rw [buff_setBuff, if_neg hne]
    exact hy
  · show Answer.Steady (setBuff _ r.type _).sock
    rw [hsock]
    exact hs
  · show Answer.delivered (setBuff _ r.type _).sock = rest
    rw [hsock]
    exact hrest

end

/-- The content of a record is appended to its block. -/
def gather (c : Gather → Bytes) (r : FcRecord) (g : Gather) : Bytes :=
  if g = gatherOf r.type then c g ++ r.content else c g

/-- After the content of `r`, before its padding. -/
structure Filled (l : FcLocal) (c : Gather → Bytes) (r : FcRecord) : Prop where
  buffs : ∀ type, ∃ x, l.buff type = ⟨c (gatherOf type) ++ [x], (c (gatherOf type)).length⟩
  steady : Answer.Steady l.sock
  paddingLen : l.paddingLen = r.padding.length
  reqId : l.reqId = 1
  readDone : l.readDone = false
  readStatus : l.readStatus = .okay

/-- A record without content has nothing to be read. -/
theorem Headed.filled (h : Headed l c r) (hnil : r.content = []) : Filled l (gather c r) r := by
  refine ⟨?_, h.steady, h.paddingLen, h.reqId, h.readDone, h.readStatus⟩
  intro type
  have hc : gather c r (gatherOf type) = c (gatherOf type) := by
    unfold gather
    rw [hnil, List.append_nil]
    exact ite_self _
  rw [hc]
  by_cases hsame : gatherOf type = gatherOf r.type
  · obtain ⟨free, hfree, hlen⟩ := h.room
    rw [hnil] at hlen
    obtain ⟨x, rfl⟩ := List.length_eq_one_iff.mp hlen
    refine ⟨x, ?_⟩
    rw [buff_eq, hsame, ← buff_eq]
    exact hfree
  · exact h.others type hsame

/-- The content of a record is read. -/
theorem fcContent_filled (h : Headed l c r) (htype : r.type ≠ RIM_CLI_END_REQ)
    (hd : Answer.delivered l.sock = r.content ++ rest) (hne : r.content ≠ [])
    (hfit : (c (gatherOf r.type)).length + r.content.length < 2 ^ 31) :
    ∃ l', l.fcContent r.type = some (l', false) ∧ Filled l' (gather c r) r ∧ Answer.delivered l'.sock = rest := by
  obtain ⟨sock, hread, hrest, hs⟩ := rimReadSocket_eq h.steady hd hne
  obtain ⟨free, hfree, hlen⟩ := h.room
  have hcopy := memcpy_append (c (gatherOf r.type)) (show r.content.length ≤ free.length by omega)
  obtain ⟨x, hx⟩ : ∃ x, free.drop r.content.length = [x] := by
    apply List.length_eq_one_iff.mp
    rw [List.length_drop]
    omega
  rw [hx] at hcopy
  have hbuff : ({ l with sock } : FcLocal).buff r.type =
      ⟨c (gatherOf r.type) ++ free, (c (gatherOf r.type)).length⟩ := hfree
  have hsum : addInt (c (gatherOf r.type)).length r.content.length =
      some ((c (gatherOf r.type)).length + r.content.length) := if_pos hfit
  have hok : ¬ (!true) = true := by decide
  rw [← h.msgRemain] at hread
  unfold fcContent
  simp only [hread, bind, Option.bind, hbuff, hcopy, if_neg hok, if_neg htype, buff_setBuff_self, setBuff_setBuff, hsum]
  obtain ⟨hsock, -, -, -, hpadding, hreq, hdone, hstatus, -⟩ := setBuff_frame { l with sock } r.type
    ⟨c (gatherOf r.type) ++ r.content ++ [x], (c (gatherOf r.type)).length + r.content.length⟩
  refine ⟨_, rfl, ⟨?_, ?_, hpadding.trans h.paddingLen, hreq.trans h.reqId, hdone.trans h.readDone,
    hstatus.trans h.readStatus⟩, ?_⟩
  · intro type
    show ∃ y, (setBuff _ r.type _).buff type = _
    rw [buff_setBuff]
    unfold gather
    by_cases hsame : gatherOf type = gatherOf r.type
    · rw [if_pos hsame, if_pos hsame, hsame, List.length_append]
      exact ⟨x, rfl⟩
    · rw [if_neg hsame, if_neg hsame]
      exact h.others type hsame
  · show Answer.Steady (setBuff _ r.type _).sock
    rw [hsock]
    exact hs
  · show Answer.delivered (setBuff _ r.type _).sock = rest
    rw [hsock]
    exact hrest

theorem fcPadding_eq {padding : Bytes} (hs : Answer.Steady l.sock) (hlen : l.paddingLen = padding.length)
    (hd : Answer.delivered l.sock = padding ++ rest) :
    ∃ sock, l.fcPadding = some ({ l with sock, paddingLen := 0, doneHeader := false }, false) ∧
      Answer.delivered sock = rest ∧ Answer.Steady sock := by
  unfold fcPadding
  by_cases hpad : padding = []
  · rw [hpad, List.length_nil] at hlen
    have hzero : ¬ l.paddingLen > 0 := by omega
    rw [if_neg hzero, ← hlen]
    rw [hpad, List.nil_append] at hd
    exact ⟨l.sock, rfl, hd, hs⟩
  · have hpos : l.paddingLen > 0 := by
      rw [hlen]
      exact List.length_pos_iff.mpr hpad
    obtain ⟨sock, hread, hrest, hs'⟩ := rimReadSocket_eq hs hd hpad
    rw [← hlen] at hread
    have hok : ¬ (!true) = true := by decide
    simp only [if_pos hpos, hread, bind, Option.bind, if_neg hok]
    exact ⟨sock, rfl, hrest, hs'⟩

/-- After its padding a record is gathered. -/
theorem fcPadding_gathered (h : Filled l c r) (hd : Answer.delivered l.sock = r.padding ++ rest) :
    ∃ l', l.fcPadding = some (l', false) ∧ Gathered l' c ∧ Answer.delivered l'.sock = rest := by
  obtain ⟨sock, hpad, hrest, hs⟩ := fcPadding_eq h.steady h.paddingLen hd
  exact ⟨_, hpad, ⟨h.buffs, hs, rfl, h.reqId, h.readDone, h.readStatus⟩, hrest⟩

theorem fcRecord_gathered (h : Headed l c r) (hend : r.type ≠ RIM_CLI_END_REQ)
    (hunk : r.type ≠ RIM_CLI_UNK_TYPE) (hd : Answer.delivered l.sock = r.content ++ (r.padding ++ rest))
    (hfit : (c (gatherOf r.type)).length + r.content.length < 2 ^ 31) :
    ∃ l', l.fcRecord r.header = some (l', false) ∧ Gathered l' (gather c r) ∧ Answer.delivered l'.sock = rest := by
  have htype : r.header.type = r.type := rfl
  have hgo : ¬ (false = true) := Bool.false_ne_true
  unfold fcRecord
  by_cases hnil : r.content = []
  · have hzero : ¬ l.msgRemain > 0 := by
      rw [h.msgRemain, hnil]
      exact Nat.lt_irrefl 0
    rw [hnil, List.nil_append] at hd
    obtain ⟨l', hpad, hl', hrest⟩ := fcPadding_gathered (h.filled hnil) hd
    simp only [if_neg hzero, bind, Option.bind, if_neg hgo, htype, if_neg hunk]
    exact ⟨l', hpad, hl', hrest⟩
  · have hpos : l.msgRemain > 0 := by
      rw [h.msgRemain]
      exact List.length_pos_iff.mpr hnil
    obtain ⟨m, hcont, hm, hmd⟩ := fcContent_filled h hend hd hnil hfit
    obtain ⟨l', hpad, hl', hrest⟩ := fcPadding_gathered hm hmd
    simp only [if_pos hpos, htype, hcont, bind, Option.bind, if_neg hgo, if_neg hunk]
    exact ⟨l', hpad, hl', hrest⟩

/-! ## The end of the reply -/

/-- The record that ends a reply: the status of the application, most significant byte
first, the one of the protocol, and three bytes that are reserved. -/
structure EndsReply (r : FcRecord) (b3 b2 b1 b0 : UInt8) : Prop where
  type : r.type = RIM_CLI_END_REQ
  content : ∃ f2 f1 f0, r.content = [b3, b2, b1, b0, RIM_CLI_REQ_DONE, f2, f1, f0]

structure Complete (l : FcLocal) (out err : Bytes) (status : Int) : Prop where
  readDone : l.readDone = true
  readStatus : l.readStatus = .okay
  data : l.data = ⟨out ++ [0], out.length⟩
  error : l.error = ⟨err ++ [0], err.length⟩
  reqStatus : l.reqStatus = status

variable {b3 b2 b1 b0 : UInt8}

/-- A block whose content ends it is ended with a null. -/
theorem poke_end (content : Bytes) (x : UInt8) :
    poke (content ++ [x]) content.length 0 = some (content ++ [0]) := poke_middle content x [] 0

/-- The end of the reply is taken from the bytes that were read into `other`. -/
theorem endRequest_complete {out err oth : Bytes} {x y z f2 f1 f0 : UInt8}
    (hdata : l.data = ⟨out ++ [x], out.length⟩) (herror : l.error = ⟨err ++ [y], err.length⟩)
    (hother : l.other = ⟨oth ++ [b3, b2, b1, b0, RIM_CLI_REQ_DONE, f2, f1, f0] ++ [z], oth.length⟩) :
    l.endRequest 8 = some ({ l with
      data := ⟨out ++ [0], out.length⟩, error := ⟨err ++ [0], err.length⟩, readDone := true,
      reqStatus := intOf b3 b2 b1 b0 }, false) := by
  have hat : ∀ k : Nat, l.other.block[l.other.len + k]? =
      ([b3, b2, b1, b0, RIM_CLI_REQ_DONE, f2, f1, f0] ++ [z])[k]? := by
    intro k
    rw [hother, List.append_assoc, List.getElem?_append_right (Nat.le_add_right _ _), Nat.add_sub_cancel_left]
  have h0 : l.other.block[l.other.len]? = some b3 := hat 0
  have h1 : l.other.block[l.other.len + 1]? = some b2 := hat 1
  have h2 : l.other.block[l.other.len + 2]? = some b1 := hat 2
  have h3 : l.other.block[l.other.len + 3]? = some b0 := hat 3
  have h4 : l.other.block[l.other.len + 4]? = some RIM_CLI_REQ_DONE := hat 4
  have hcnt : ¬ (8 : Nat) ≠ 8 := not_not.mpr rfl
  have hstatus : ¬ RIM_CLI_REQ_DONE ≠ RIM_CLI_REQ_DONE := not_not.mpr rfl
  unfold endRequest
  simp only [hdata, herror, poke_end, bind, Option.bind, if_neg hcnt, h0, h1, h2, h3, h4, if_neg hstatus]

/-- What comes after the last header is read. -/
theorem fcRecord_complete (h : Headed l c r) (hr : EndsReply r b3 b2 b1 b0)
    (hd : Answer.delivered l.sock = r.content ++ (r.padding ++ rest)) :
    ∃ l', l.fcRecord r.header = some (l', false) ∧ Complete l' (c .data) (c .error) (intOf b3 b2 b1 b0) := by
  obtain ⟨f2, f1, f0, hcontent⟩ := hr.content
  have hg : gatherOf r.type = .other := by
    rw [hr.type]
    rfl
  have hne : r.content ≠ [] := by
    rw [hcontent]
    exact List.cons_ne_nil _ _
  have hlen8 : r.content.length = 8 := by
    rw [hcontent]
    rfl
  obtain ⟨sock, hread, hrest, hs⟩ := rimReadSocket_eq h.steady hd hne
  rw [← h.msgRemain] at hread
  obtain ⟨free, hfree, hlen⟩ := h.room
  rw [hg] at hfree
  have hcopy := memcpy_append (c .other) (show r.content.length ≤ free.length by omega)
  obtain ⟨z, hz⟩ : ∃ z, free.drop r.content.length = [z] := by
    apply List.length_eq_one_iff.mp
    rw [List.length_drop]
    omega
  rw [hz] at hcopy
  obtain ⟨x, hx⟩ := h.others RIM_CLI_STDOUT (by rw [hg]; decide)
  obtain ⟨y, hy⟩ := h.others RIM_CLI_STDERR (by rw [hg]; decide)
  have hdata : l.data = ⟨c .data ++ [x], (c .data).length⟩ := hx
  have herror : l.error = ⟨c .error ++ [y], (c .error).length⟩ := hy
  have hbuff : ({ l with sock } : FcLocal).buff r.type = ⟨c .other ++ free, (c .other).length⟩ := hfree
  have hset : ∀ b, ({ l with sock } : FcLocal).setBuff r.type b = { l with sock, other := b } := by
    intro b
    rw [setBuff_eq, hg]
  have hpos : l.msgRemain > 0 := by
    rw [h.msgRemain, hlen8]
    decide
  have hok : ¬ (!true) = true := by decide
  have hgo : ¬ (false = true) := Bool.false_ne_true
  have htype : r.header.type = r.type := rfl
  have hunk : r.type ≠ RIM_CLI_UNK_TYPE := by
    rw [hr.type]
    decide
  have hother : ({ l with sock, other := ⟨c .other ++ r.content ++ [z], (c .other).length⟩ } : FcLocal).other =
      ⟨c .other ++ [b3, b2, b1, b0, RIM_CLI_REQ_DONE, f2, f1, f0] ++ [z], (c .other).length⟩ := by
    rw [hcontent]
  have hlast := endRequest_complete
    (l := { l with sock, other := ⟨c .other ++ r.content ++ [z], (c .other).length⟩ }) hdata herror hother
  generalize intOf b3 b2 b1 b0 = status at hlast ⊢
  have hcontentDone : l.fcContent r.type = some ({ l with
      sock, data := ⟨c .data ++ [0], (c .data).length⟩, error := ⟨c .error ++ [0], (c .error).length⟩,
      other := ⟨c .other ++ r.content ++ [z], (c .other).length⟩, readDone := true,
      reqStatus := status, msgRemain := 0 }, false) := by
    unfold fcContent
    simp only [hread, bind, Option.bind, hbuff, hcopy, hset, if_neg hok, if_pos hr.type, hlen8, hlast, if_neg hgo]
  obtain ⟨sock', hpad, -, -⟩ := fcPadding_eq (l := { l with
      sock, data := ⟨c .data ++ [0], (c .data).length⟩, error := ⟨c .error ++ [0], (c .error).length⟩,
      other := ⟨c .other ++ r.content ++ [z], (c .other).length⟩, readDone := true,
      reqStatus := status, msgRemain := 0 }) hs h.paddingLen hrest
  unfold fcRecord
  simp only [if_pos hpos, htype, hcontentDone, bind, Option.bind, if_neg hgo, if_neg hunk]
  refine ⟨_, hpad, ?_⟩
  exact ⟨rfl, h.readStatus, rfl, rfl, rfl⟩

/-! ## Replies -/

section

variable {mem : Nat → Bool} (garbage : Nat → UInt8)

/-- Two rounds read a record: one its header, one what comes after it. -/
theorem fcServerReadLoop_record (hmem : ∀ n, mem n = true) (h : Gathered l c)
    (hend : r.type ≠ RIM_CLI_END_REQ) (hunk : r.type ≠ RIM_CLI_UNK_TYPE)
    (hd : Answer.delivered l.sock = r.encode ++ rest)
    (hroom : gatherOf r.type = .other → (c .other).length + r.content.length + 1 < 2 ^ 31)
    (hfit : (c (gatherOf r.type)).length + r.content.length < 2 ^ 31) (fuel : Nat) :
    ∃ l', fcServerReadLoop mem garbage (fuel + 2) l = fcServerReadLoop mem garbage fuel l' ∧
      Gathered l' (gather c r) ∧ Answer.delivered l'.sock = rest := by
  rw [FcRecord.encode, List.append_assoc, List.append_assoc] at hd
  obtain ⟨m, hheader, hm, hmd⟩ := fcHeader_headed hmem garbage h hd hroom
  obtain ⟨l', hrecord, hl', hrest⟩ := fcRecord_gathered hm hend hunk hmd hfit
  have hfirst : l.fcRound mem garbage = some (m, false) := by
    have hnot : ¬ l.doneHeader = true := by
      rw [h.doneHeader]
      exact Bool.false_ne_true
    unfold fcRound
    simp only [if_neg hnot, hheader, bind, Option.bind, hm.readDone, Bool.or_self]
  have hnext : m.fcRound mem garbage = some (l', false) := by
    unfold fcRound
    simp only [if_pos hm.doneHeader, hm.header, hrecord, bind, Option.bind, hl'.readDone, Bool.or_self]
  refine ⟨l', ?_, hl', hrest⟩
  have hgo : ¬ (false = true) := Bool.false_ne_true
  rw [fcServerReadLoop, hfirst]
  simp only [bind, Option.bind, if_neg hgo]
  rw [fcServerReadLoop, hnext]
  simp only [bind, Option.bind, if_neg hgo]

/-- Two rounds read the end of the reply. -/
theorem fcServerReadLoop_end (hmem : ∀ n, mem n = true) (h : Gathered l c) (hr : EndsReply r b3 b2 b1 b0)
    (hd : Answer.delivered l.sock = r.encode ++ rest) (hroom : (c .other).length + 9 < 2 ^ 31)
    (fuel : Nat) :
    ∃ l', fcServerReadLoop mem garbage (fuel + 2) l = some l' ∧
      Complete l' (c .data) (c .error) (intOf b3 b2 b1 b0) := by
  have hlen8 : r.content.length = 8 := by
    obtain ⟨f2, f1, f0, hcontent⟩ := hr.content
    rw [hcontent]
    rfl
  rw [FcRecord.encode, List.append_assoc, List.append_assoc] at hd
  obtain ⟨m, hheader, hm, hmd⟩ := fcHeader_headed hmem garbage h hd (by
    intro _
    rw [hlen8]
    exact hroom)
  obtain ⟨l', hrecord, hl'⟩ := fcRecord_complete hm hr hmd
  have hfirst : l.fcRound mem garbage = some (m, false) := by
    have hnot : ¬ l.doneHeader = true := by
      rw [h.doneHeader]
      exact Bool.false_ne_true
    unfold fcRound
    simp only [if_neg hnot, hheader, bind, Option.bind, hm.readDone, Bool.or_self]
  have hnext : m.fcRound mem garbage = some (l', true) := by
    unfold fcRound
    simp only [if_pos hm.doneHeader, hm.header, hrecord, bind, Option.bind, hl'.readDone, Bool.or_true]
  refine ⟨l', ?_, hl'⟩
  have hgo : ¬ (false = true) := Bool.false_ne_true
  rw [fcServerReadLoop, hfirst]
  simp only [bind, Option.bind, if_neg hgo]
  rw [fcServerReadLoop, hnext]
  simp only [bind, Option.bind, if_true]

/-- How long what is gathered may get: the sums that `fc_server_read` makes of it and of
the end of the reply fit in an `int`. -/
def gatherMax : Gather → Nat
  | .data => 2 ^ 31
  | .error => 2 ^ 31
  | .other => 2 ^ 31 - 9

theorem contents_cons (r : FcRecord) (rs : List FcRecord) (c : Gather → Bytes) (g : Gather) :
    gather c r g ++ contents rs g = c g ++ contents (r :: rs) g := by
  unfold gather contents
  by_cases hg : g = gatherOf r.type
  · have hpos : (fun r : FcRecord => decide (gatherOf r.type = g)) r = true := decide_eq_true hg.symm
    rw [if_pos hg, List.filter_cons, if_pos hpos, List.flatMap_cons, List.append_assoc]
  · have hneg : ¬ (fun r : FcRecord => decide (gatherOf r.type = g)) r = true := by
      intro heq
      exact hg (of_decide_eq_true heq).symm
    rw [if_neg hg, List.filter_cons, if_neg hneg]

/-- All records are read, and then the end of the reply. -/
theorem fcServerReadLoop_complete (hmem : ∀ n, mem n = true) (rs : List FcRecord)
    (hrs : ∀ r ∈ rs, r.type ≠ RIM_CLI_END_REQ ∧ r.type ≠ RIM_CLI_UNK_TYPE) {e : FcRecord}
    (he : EndsReply e b3 b2 b1 b0) (h : Gathered l c)
    (hd : Answer.delivered l.sock = rs.flatMap FcRecord.encode ++ (e.encode ++ rest))
    (hmax : ∀ g, (c g ++ contents rs g).length < gatherMax g) {fuel : Nat}
    (hfuel : 2 * rs.length + 2 ≤ fuel) :
    ∃ l', fcServerReadLoop mem garbage fuel l = some l' ∧
      Complete l' (c .data ++ contents rs .data) (c .error ++ contents rs .error) (intOf b3 b2 b1 b0) := by
  induction rs generalizing l c fuel with
  | nil =>
    obtain ⟨fuel, rfl⟩ : ∃ f, fuel = f + 2 := ⟨fuel - 2, by omega⟩
    have hroom := hmax .other
    rw [List.length_append] at hroom
    have hlast := fcServerReadLoop_end garbage hmem h he hd (by
      simp only [gatherMax] at hroom
      omega) fuel
    have hdata : c .data ++ contents [] .data = c .data := List.append_nil _
    have herror : c .error ++ contents [] .error = c .error := List.append_nil _
    rw [hdata, herror]
    exact hlast
  | cons r rs ih =>
    obtain ⟨⟨hend, hunk⟩, hrs⟩ := List.forall_mem_cons.mp hrs
    rw [List.length_cons] at hfuel
    obtain ⟨fuel, rfl⟩ : ∃ f, fuel = f + 2 := ⟨fuel - 2, by omega⟩
    rw [List.flatMap_cons, List.append_assoc] at hd
    have hmax' : ∀ g, (gather c r g ++ contents rs g).length < gatherMax g := by
      intro g
      rw [contents_cons]
      exact hmax g
    have hself := hmax' (gatherOf r.type)
    have hadd : gather c r (gatherOf r.type) = c (gatherOf r.type) ++ r.content := if_pos rfl
    rw [hadd, List.length_append, List.length_append] at hself
    have hroom : gatherOf r.type = .other → (c .other).length + r.content.length + 1 < 2 ^ 31 := by
      intro hother
      rw [hother] at hself
      simp only [gatherMax] at hself
      omega
    have hfit : (c (gatherOf r.type)).length + r.content.length < 2 ^ 31 := by
      have hle : gatherMax (gatherOf r.type) ≤ 2 ^ 31 := by
        cases gatherOf r.type <;> decide
      omega
    obtain ⟨m, hgo, hm, hmd⟩ := fcServerReadLoop_record garbage hmem h hend hunk hd hroom hfit fuel
    have hfuel' : 2 * rs.length + 2 ≤ fuel := by omega
    obtain ⟨l', hl, hcomplete⟩ := ih hrs hm hmd hmax' hfuel'
    rw [contents_cons, contents_cons] at hcomplete
    exact ⟨l', hgo.trans hl, hcomplete⟩

/-- Every record takes bytes of the stream. -/
theorem length_le_encode (rs : List FcRecord) : rs.length ≤ (rs.flatMap FcRecord.encode).length := by
  induction rs with
  | nil => exact Nat.zero_le _
  | cons r rs ih =>
    have h8 : (headerBytes r.header).length = 8 := rfl
    rw [List.flatMap_cons, List.length_append, FcRecord.encode, List.length_append, h8, List.length_cons]
    omega

/-- A reply is put together, however it is framed and however it arrives: its `stdout`
and its `stderr` records with a null after each, and the status of the application. The
end of the reply says that the request was completed, no record is of an unknown type,
and lengths fit in an `int`. -/
theorem fcServerRead_complete (hmem : ∀ n, mem n = true) {rs : List FcRecord} {e : FcRecord}
    (hrs : ∀ r ∈ rs, r.type ≠ RIM_CLI_END_REQ ∧ r.type ≠ RIM_CLI_UNK_TYPE)
    (he : EndsReply e b3 b2 b1 b0) {sock : List (Answer UInt8)} (hs : Answer.Steady sock)
    (hd : Answer.delivered sock = rs.flatMap FcRecord.encode ++ (e.encode ++ rest))
    (hdata : (contents rs .data).length < 2 ^ 31) (herror : (contents rs .error).length < 2 ^ 31)
    (hother : (contents rs .other).length + 9 < 2 ^ 31) :
    ∃ l, fcServerRead mem garbage { sock } = some l ∧ l.readStatus = .okay ∧
      l.data = ⟨contents rs .data ++ [0], (contents rs .data).length⟩ ∧
      l.error = ⟨contents rs .error ++ [0], (contents rs .error).length⟩ ∧
      l.reqStatus = intOf b3 b2 b1 b0 := by
  have hstart : Gathered { sock } (fun _ => []) := by
    refine ⟨?_, hs, rfl, rfl, rfl, rfl⟩
    intro type
    refine ⟨0, ?_⟩
    rw [buff_eq]
    cases gatherOf type <;> rfl
  have hmax : ∀ g, (([] : Bytes) ++ contents rs g).length < gatherMax g := by
    intro g
    rw [List.nil_append]
    cases g with
    | data => exact hdata
    | error => exact herror
    | other =>
      show (contents rs .other).length < 2 ^ 31 - 9
      omega
  have hfuel : 2 * rs.length + 2 ≤ 2 * (Answer.delivered sock).length + 2 := by
    have hle := length_le_encode rs
    rw [hd, List.length_append]
    omega
  obtain ⟨l, hl, hc⟩ := fcServerReadLoop_complete garbage hmem rs hrs he hstart hd hmax hfuel
  simp only [List.nil_append] at hc
  exact ⟨l, hl, hc.readStatus, hc.data, hc.error, hc.reqStatus⟩

/-- Output and an empty error record, in pieces that do not fit the records. -/
theorem fcServerRead_complete_pieces :
    ∃ l, fcServerRead (fun _ => true) (fun _ => 255)
        { sock := [.piece [1, 6, 0], .interrupted, .piece [1, 0, 2, 1, 0, 104], .piece [105, 9, 1, 7, 0, 1, 0, 0, 0, 0, 1],
          .piece [3, 0, 1, 0, 8, 0, 0, 255, 255, 255, 254, 0, 0, 0, 0]] } = some l ∧
      l.readStatus = .okay ∧ l.data = ⟨ascii "hi" ++ [0], 2⟩ ∧ l.error = ⟨[0], 0⟩ ∧ l.reqStatus = -2 := by
  have hrs : ∀ r ∈ [(⟨6, ascii "hi", [9], 0, by decide, by decide⟩ : FcRecord),
      ⟨7, [], [], 0, by decide, by decide⟩], r.type ≠ RIM_CLI_END_REQ ∧ r.type ≠ RIM_CLI_UNK_TYPE := by
    intro r hr
    simp only [List.mem_cons, List.not_mem_nil, or_false] at hr
    obtain rfl | rfl := hr <;> decide
  have he : EndsReply ⟨3, [255, 255, 255, 254, 0, 0, 0, 0], [], 0, by decide, by decide⟩ 255 255 255 254 :=
    ⟨rfl, 0, 0, 0, rfl⟩
  have hs : Answer.Steady [.piece [1, 6, 0], .interrupted, .piece [1, 0, 2, 1, 0, 104],
      .piece [105, 9, 1, 7, 0, 1, 0, 0, 0, 0, 1], .piece [3, 0, 1, 0, 8, 0, 0, 255, 255, 255, 254, 0, 0, 0, (0 : UInt8)]] := by
    unfold Answer.Steady
    decide
  have hd : Answer.delivered [.piece [1, 6, 0], .interrupted, .piece [1, 0, 2, 1, 0, 104],
      .piece [105, 9, 1, 7, 0, 1, 0, 0, 0, 0, 1], .piece [3, 0, 1, 0, 8, 0, 0, 255, 255, 255, 254, 0, 0, 0, (0 : UInt8)]] =
      [(⟨6, ascii "hi", [9], 0, by decide, by decide⟩ : FcRecord),
        ⟨7, [], [], 0, by decide, by decide⟩].flatMap FcRecord.encode ++
      (FcRecord.encode ⟨3, [255, 255, 255, 254, 0, 0, 0, 0], [], 0, by decide, by decide⟩ ++ []) := by decide
  obtain ⟨l, hl, hokay, hdata, herror, hstatus⟩ := fcServerRead_complete (fun _ => 255) (fun _ => rfl) hrs he hs hd
    (by decide) (by decide) (by decide)
  exact ⟨l, hl, hokay, hdata.trans (by decide), herror.trans (by decide), hstatus.trans (by decide)⟩

/-- A record of an unknown type ends the reading, and so does an end of the reply that
says that the request was not completed. -/
theorem fcServerRead_refuses :
    (fcServerRead (fun _ => true) (fun _ => 255)
      { sock := [.piece [1, 11, 0, 1, 0, 0, 0, 0, 1, 3, 0, 1, 0, 8, 0, 0, 0, 0, 0, 0, 0, 0, 0, 0]] }).map
        FcLocal.readStatus = some .errUnk ∧
    (fcServerRead (fun _ => true) (fun _ => 255)
      { sock := [.piece [1, 3, 0, 1, 0, 8, 0, 0, 0, 0, 0, 0, 2, 0, 0, 0]] }).map
        FcLocal.readStatus = some .errSrv := by
  decide

end

end FcLocal

end RimStone
