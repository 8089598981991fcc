import RimStone.Laws.Message.Parse

/-!
# One round of a read

`Reading` is a message whose bytes from `msg->curr` on were not read yet. A round of the
loop in `rim_read_msg` takes an item from their front, or stays where it is with an
error: the bytes it nulled by then leave no `=` before the first null, so that every
read after finds the same error.
-/

namespace RimStone

open RimStone.Lib

namespace RimMsg

/-- `rest` is still to be read, and `pre` was. -/
structure Reading (msg : RimMsg) (pre rest : Bytes) : Prop where
  data : msg.data = some (pre ++ (rest ++ [0]))
  curr : msg.curr = pre.length
  len : msg.len = pre.length + rest.length
  dataLen : msg.dataLen = msg.len
  mode : msg.mode = .read

theorem reading_rimNewMsgFrom (bytes : Bytes) : Reading (rimNewMsgFrom bytes) [] bytes :=
  ⟨rfl, rfl, (Nat.zero_add _).symm, rfl, rfl⟩

variable {msg : RimMsg} {pre rest k hdr v tail : Bytes} {c : UInt8}

theorem Reading.block (h : Reading msg pre rest) : msg.block = pre ++ (rest ++ [0]) := by
  rw [RimMsg.block, h.data, Option.getD_some]

theorem Reading.left (h : Reading msg pre rest) : (msg.len : Int) - msg.curr = rest.length := by
  rw [h.len, h.curr]
  omega

theorem Reading.curr_toNat (h : Reading msg pre rest) : msg.curr.toNat = pre.length := by
  rw [h.curr, Int.toNat_natCast]

/-- The bytes change, as many as there are. -/
theorem Reading.rewrite {rest' : Bytes} (h : Reading msg pre rest) (hlen : rest'.length = rest.length) :
    Reading { msg with data := some (pre ++ (rest' ++ [0])) } pre rest' := by
  refine ⟨rfl, h.curr, ?_, h.dataLen, h.mode⟩
  rw [hlen]
  exact h.len

/-! ## Items -/

def itemDone (k hdr v : Bytes) : Bytes := keyText k ++ 0 :: (hdr ++ (v ++ [0]))

theorem length_itemDone (k v : Bytes) (hhdr : hdr.length = 16) :
    (itemDone k hdr v).length = k.length + 17 + v.length + 1 := by
  simp only [itemDone, List.length_append, List.length_cons, length_keyText, hhdr, List.length_nil]
  omega

/-- An item that the loop takes: its key `k`, its header, its value, and what is left,
`tail`, with the null that ends the message. -/
structure Item (rest k hdr v tail : Bytes) (c : UInt8) : Prop where
  text : rest ++ [0] = k ++ 61 :: (hdr ++ (v ++ c :: tail))
  key : CleanKey k
  header : hdr.length = 16
  valueLen : itemLen hdr = v.length
  small : v.length < 2 ^ 63
  sep : c = 10 ∨ c = 0

theorem Item.length (h : Item rest k hdr v tail c) : rest.length = k.length + 17 + v.length + tail.length := by
  have hl := congrArg List.length h.text
  simp only [List.length_append, List.length_cons, List.length_nil, h.header] at hl
  omega

/-- The item is split off at its header. -/
theorem Item.split (h : Item rest k hdr v tail c) :
    ∃ body, rest = k ++ 61 :: (hdr ++ body) ∧ body ++ [0] = v ++ c :: tail := by
  refine ⟨(v ++ c :: tail).dropLast, ?_, ?_⟩
  · have hd := congrArg List.dropLast h.text
    rw [List.dropLast_concat] at hd
    rw [hd, List.dropLast_append_of_ne_nil (List.cons_ne_nil _ _),
      List.dropLast_cons_of_ne_nil (by simp), List.dropLast_append_of_ne_nil (by simp)]
  · have hlast : (v ++ c :: tail).getLast? = some 0 := by
      have hg := congrArg List.getLast? h.text
      rw [List.getLast?_concat, List.getLast?_append_of_ne_nil _ (List.cons_ne_nil _ _),
        List.getLast?_cons_of_ne_nil (by simp), List.getLast?_append_of_ne_nil _ (by simp)] at hg
      exact hg.symm
    exact List.dropLast_append_getLast? 0 hlast

/-- `rim_parse_item` takes the item. -/
theorem rimParseItem_item (h : Item rest k hdr v tail c) (pre : Bytes) :
    rimParseItem (pre ++ (rest ++ [0])) pre.length rest.length =
      some (pre ++ (itemDone k hdr v ++ tail),
        .ok ⟨pre.length + (front isspace k).length, (trim isspace k).length, pre.length + k.length + 17,
          v.length, ((pre ++ itemDone k hdr v).length : Nat)⟩) := by
  obtain ⟨body, hrest, hbody⟩ := h.split
  have hsep : ¬ (c ≠ 10 ∧ c ≠ 0) := by
    intro hne
    cases h.sep with
    | inl hc => exact hne.1 hc
    | inr hc => exact hne.2 hc
  have hval := parseValue_value h.header h.valueLen h.small hbody (pre ++ (keyText k ++ [0]))
    (pre.length + (front isspace k).length) (trim isspace k).length
  have hP : (pre ++ (keyText k ++ [0])).length = pre.length + k.length + 1 := by
    simp only [List.length_append, length_keyText, List.length_singleton]
    omega
  have hnext : (pre ++ itemDone k hdr v).length = pre.length + k.length + 1 + 16 + v.length + 1 := by
    rw [List.length_append, length_itemDone k v h.header]
    omega
  rw [if_neg hsep, hP] at hval
  rw [hrest, rimParseItem_key h.key (hdr ++ body) pre, hnext]
  simp only [itemDone, List.append_assoc, List.cons_append, List.nil_append]
    at hval ⊢
  exact hval

/-! ## Rounds -/

/-- The header of a value of `n` bytes that was handed out. -/
def constHeader (n : Nat) : Bytes :=
  List.replicate 8 255 ++ ((digits 256 8 (((n : Int) + 1) % 2 ^ 64).toNat).map UInt8.ofNat).reverse

@[simp] theorem length_constHeader (n : Nat) : (constHeader n).length = 16 := by
  simp [constHeader]

def passed (msg : RimMsg) (pre item tail : Bytes) : RimMsg :=
  { msg with data := some (pre ++ (item ++ tail)), curr := ((pre ++ item).length : Nat) }

def MsgOut.passed (out : MsgOut) (key : Bool) (k : Bytes) (next : Nat) : MsgOut :=
  { out with key := if key then some k else out.key, currs := out.currs ++ [(next : Int)] }

def MsgOut.handed (out : MsgOut) (value : Bool) (v : Nat × Int) : MsgOut :=
  { out with value := if value then some v else out.value }

/-- The key is a string in the message. -/
theorem drop_key (k hdr v tail pre : Bytes) :
    ∃ x, (pre ++ (itemDone k hdr v ++ tail)).drop (pre.length + (front isspace k).length) =
      trim isspace k ++ 0 :: x := by
  have hdrop : (pre ++ (itemDone k hdr v ++ tail)).drop (pre.length + (front isspace k).length) =
      trim isspace k ++ (List.replicate (back isspace k).length 0 ++ 0 :: (hdr ++ (v ++ 0 :: tail))) := by
    rw [← List.length_append]
    simp only [itemDone, keyText, List.append_assoc, List.cons_append, List.nil_append]
    rw [← List.append_assoc pre, List.drop_left]
  rw [hdrop]
  cases (back isspace k).length with
  | zero => exact ⟨_, rfl⟩
  | succ n => exact ⟨List.replicate n 0 ++ 0 :: (hdr ++ (v ++ 0 :: tail)), by
      rw [List.replicate_succ, List.cons_append]⟩

/-- A value is given the header of a string. -/
theorem rimMemAddConst_item (hhdr : hdr.length = 16) (k v tail pre : Bytes) :
    rimMemAddConst (pre ++ (itemDone k hdr v ++ tail)) (pre.length + k.length + 17 - RIM_ALIGN)
        ((v.length : Int) + 1) =
      some (pre ++ (itemDone k (constHeader v.length) v ++ tail)) := by
  have hsplit : ∀ hdr : Bytes, pre ++ (itemDone k hdr v ++ tail) =
      (pre ++ (keyText k ++ [0])) ++ (hdr ++ (v ++ 0 :: tail)) := by
    intro hdr
    simp only [itemDone, List.append_assoc, List.cons_append, List.nil_append]
  have hplace : pre.length + k.length + 17 - RIM_ALIGN = (pre ++ (keyText k ++ [0])).length := by
    simp only [RIM_ALIGN, List.length_append, length_keyText, List.length_singleton]
    omega
  have hsame : (constHeader v.length).length = hdr.length := by rw [length_constHeader, hhdr]
  rw [hplace, hsplit hdr, hsplit (constHeader v.length)]
  exact memcpy_middle _ _ hsame

theorem comment_ne_zero : ∀ x ∈ ascii "comment", x ≠ 0 := by simp [ascii]

theorem CleanKey.trim_ne_zero (hk : CleanKey k) : ∀ x ∈ trim isspace k, x ≠ 0 := by
  intro x hx
  exact (hk x (mem_of_mem_trim hx)).2

/-- A round over an item: a comment is passed over, anything else is handed out. -/
theorem rimReadLoop_item (h : Reading msg pre rest) (hi : Item rest k hdr v tail c) (key value : Bool)
    (fuel : Nat) (out : MsgOut) :
    rimReadLoop key value (fuel + 1) msg out =
      if trim isspace k = ascii "comment" then
        rimReadLoop key value fuel (msg.passed pre (itemDone k hdr v) tail)
          (out.passed key (trim isspace k) (pre ++ itemDone k hdr v).length)
      else
        some (msg.passed pre (itemDone k (if value then constHeader v.length else hdr) v) tail,
          (out.passed key (trim isspace k) (pre ++ itemDone k hdr v).length).handed value
            (pre.length + k.length + 17, v.length)) := by
  obtain ⟨x, hx⟩ := drop_key k hdr v tail pre
  have hcurr : ¬ msg.curr < 0 := by
    rw [h.curr]
    omega
  have hcmp := strcmp_terminated hi.key.trim_ne_zero comment_ne_zero x
  rw [rimReadLoop, if_neg hcurr, h.block, h.curr_toNat, h.left, rimParseItem_item hi pre]
  simp only [bind, Option.bind, hx, List.take_left]
  by_cases hcomment : trim isspace k = ascii "comment"
  · rw [if_pos (hcmp.mpr hcomment), if_pos hcomment]
    cases key <;> rfl
  · rw [if_neg (mt hcmp.mp hcomment), if_neg hcomment]
    cases value with
    | false => cases key <;> rfl
    | true =>
      rw [if_pos rfl, rimMemAddConst_item hi.header k v tail pre]
      have hhdr : (itemDone k (constHeader v.length) v).length = (itemDone k hdr v).length := by
        rw [length_itemDone k v hi.header, length_itemDone k v (length_constHeader _)]
      simp only [if_true, passed, List.length_append, hhdr]
      cases key <;> rfl

/-- A round that finds an error ends the read. -/
theorem rimReadLoop_error {st : MsgStatus} {data : Bytes} (h : Reading msg pre rest)
    (hparse : rimParseItem (pre ++ (rest ++ [0])) pre.length rest.length = some (data, .error st))
    (key value : Bool) (fuel : Nat) (out : MsgOut) :
    rimReadLoop key value (fuel + 1) msg out = some ({ msg with data := some data }, { out with st := some st }) := by
  have hcurr : ¬ msg.curr < 0 := by
    rw [h.curr]
    omega
  rw [rimReadLoop, if_neg hcurr, h.block, h.curr_toNat, h.left, hparse]
  rfl

theorem Reading.passed {rest' : Bytes} (h : Reading msg pre rest) (hi : Item rest k hdr v (rest' ++ [0]) c)
    {hdr' : Bytes} (hhdr : hdr'.length = 16) :
    Reading (msg.passed pre (itemDone k hdr' v) (rest' ++ [0])) (pre ++ itemDone k hdr' v) rest' := by
  refine ⟨?_, rfl, ?_, h.dataLen, h.mode⟩
  · rw [List.append_assoc]
    rfl
  · have hl := hi.length
    rw [List.length_append, List.length_singleton] at hl
    show msg.len = _
    rw [h.len, List.length_append, length_itemDone k v hhdr]
    omega

end RimMsg

end RimStone
