import RimStone.Laws.Message.Read

/-!
# Reads of an untrusted message

A message may be any bytes. Two kinds of items take `rim_read_msg` out of it: one whose
length has its highest bit set, which counts back from the value, and a comment whose
value ends where the message does, after which the loop goes on past the null.
`soundItems` says of a message that the reads come to no such item. Then every read and
write is inside the message, whatever was read before, `msg->curr` only moves on, and a
value that was handed out lies in the message.
-/

namespace RimStone

open RimStone.Lib

namespace RimMsg

/-! ## Sound messages -/

/-- The bytes a search for `=` passes over. -/
def beforeEq (x : UInt8) : Bool := x ≠ 61 && x ≠ 0

/-- The item at the front: its key, its header, and what is after the header. -/
def splitItem (rest : Bytes) : Option (Bytes × Bytes × Bytes) :=
  match rest.dropWhile beforeEq with
  | 61 :: body =>
    if body.length < RIM_ALIGN then none
    else some (rest.takeWhile beforeEq, body.take RIM_ALIGN, body.drop RIM_ALIGN)
  | _ => none

/-- No item that is read has a length of `2^63` or more, and no comment ends where the
message does. -/
def soundItems : Nat → Bytes → Bool
  | 0, _ => false
  | fuel + 1, rest =>
    match splitItem rest with
    | none => true
    | some (k, hdr, body) =>
      if itemLen hdr < 2 ^ 63 then
        if body.length < itemLen hdr then true
        else
          match body.drop (itemLen hdr) with
          | [] => trim isspace k ≠ ascii "comment"
          | c :: rest => if c = 10 ∨ c = 0 then soundItems fuel rest else true
      else false

def soundMsg (bytes : Bytes) : Bool := soundItems (bytes.length + 1) bytes

variable {msg : RimMsg} {pre rest k hdr body : Bytes}

theorem cleanKey_takeWhile (rest : Bytes) : CleanKey (rest.takeWhile beforeEq) := by
  intro x hx
  have h := List.mem_takeWhile_imp hx
  simpa [beforeEq] using h

/-- What there is where no item is found. -/
theorem splitItem_none (h : splitItem rest = none) :
    (∃ k tail, CleanKey k ∧ rest ++ [0] = k ++ 0 :: tail) ∨
      ∃ k body, CleanKey k ∧ rest = k ++ 61 :: body ∧ body.length < 16 := by
  have hk := cleanKey_takeWhile rest
  have happ : rest.takeWhile beforeEq ++ rest.dropWhile beforeEq = rest := List.takeWhile_append_dropWhile
  unfold splitItem at h
  cases hd : rest.dropWhile beforeEq with
  | nil =>
    rw [hd, List.append_nil] at happ
    refine Or.inl ⟨rest, [], ?_, rfl⟩
    rw [happ] at hk
    exact hk
  | cons x body =>
    have hne : rest.dropWhile beforeEq ≠ [] := by
      rw [hd]
      exact List.cons_ne_nil _ _
    have hx := List.head_dropWhile_not beforeEq hne
    simp only [hd, List.head_cons] at hx
    rw [hd] at h happ
    by_cases heq : x = 61
    · subst heq
      refine Or.inr ⟨_, body, hk, happ.symm, ?_⟩
      by_contra hlong
      have hlong : ¬ body.length < RIM_ALIGN := hlong
      simp only [if_neg hlong] at h
      cases h
    · have hzero : x = 0 := by simpa [beforeEq, heq] using hx
      subst hzero
      refine Or.inl ⟨_, body ++ [0], hk, ?_⟩
      conv_lhs => rw [← happ]
      rw [List.append_assoc]
      rfl

theorem splitItem_some (h : splitItem rest = some (k, hdr, body)) :
    CleanKey k ∧ hdr.length = 16 ∧ rest = k ++ 61 :: (hdr ++ body) := by
  have hk := cleanKey_takeWhile rest
  have happ : rest.takeWhile beforeEq ++ rest.dropWhile beforeEq = rest := List.takeWhile_append_dropWhile
  unfold splitItem at h
  split at h
  next b hd =>
    rw [hd] at happ
    by_cases hlong : b.length < RIM_ALIGN
    · rw [if_pos hlong] at h
      cases h
    · rw [if_neg hlong] at h
      have hparts := Option.some.inj h
      simp only [Prod.mk.injEq] at hparts
      obtain ⟨rfl, rfl, rfl⟩ := hparts
      refine ⟨hk, ?_, ?_⟩
      · rw [List.length_take]
        exact Nat.min_eq_left (Nat.le_of_not_lt hlong)
      · rw [List.take_append_drop]
        exact happ.symm
  next => cases h

/-- Where the `=` was nulled, no item is found any more. -/
theorem splitItem_keyText (hk : CleanKey k) (x : Bytes) : splitItem (keyText k ++ 0 :: x) = none := by
  have hclean : ∀ y ∈ keyText k, y ≠ 61 := by
    intro y hy
    simp only [keyText, List.mem_append] at hy
    obtain hy | hy | hy := hy
    · have hmem : y ∈ k := by
        rw [← front_trim_back isspace k]
        exact List.mem_append_left _ hy
      exact (hk y hmem).1
    · exact (hk y (mem_of_mem_trim hy)).1
    · rw [List.eq_of_mem_replicate hy]
      decide
  have hdrop : ∀ t : Bytes, (∀ y ∈ t, y ≠ 61) →
      ∃ z, (t ++ 0 :: x).dropWhile beforeEq = 0 :: z := by
    intro t ht
    induction t with
    | nil => exact ⟨x, rfl⟩
    | cons y t ih =>
      obtain ⟨hy, ht⟩ := List.forall_mem_cons.mp ht
      by_cases hzero : y = 0
      · subst hzero
        exact ⟨t ++ 0 :: x, rfl⟩
      · rw [List.cons_append, List.dropWhile_cons_of_pos (by simp [beforeEq, hy, hzero])]
        exact ih ht
  obtain ⟨z, hz⟩ := hdrop _ hclean
  unfold splitItem
  rw [hz]
  rfl

theorem soundItems_of_none (h : splitItem rest = none) : soundItems 1 rest = true := by
  rw [soundItems, h]

/-! ## What a read does -/

/-- `msg->curr` moves on from `a` to `b` by way of `cs`. -/
structure Forward (a b : Int) (cs : List Int) : Prop where
  sorted : cs.Pairwise (· < ·)
  between : ∀ c ∈ cs, a < c ∧ c ≤ b
  le : a ≤ b

theorem Forward.nil (a : Int) : Forward a a [] :=
  ⟨List.Pairwise.nil, fun _ h => absurd h List.not_mem_nil, Int.le_refl a⟩

theorem Forward.one {a b : Int} (h : a < b) : Forward a b [b] := by
  refine ⟨List.pairwise_singleton _ _, ?_, Int.le_of_lt h⟩
  intro c hc
  rw [List.mem_singleton.mp hc]
  exact ⟨h, Int.le_refl b⟩

theorem Forward.append {a b d : Int} {cs ds : List Int} (h : Forward a b cs) (h' : Forward b d ds) :
    Forward a d (cs ++ ds) := by
  have hle := h.le
  have hle' := h'.le
  refine ⟨List.pairwise_append.mpr ⟨h.sorted, h'.sorted, ?_⟩, ?_, by omega⟩
  · intro c hc e he
    have hcb := (h.between c hc).2
    have hbe := (h'.between e he).1
    omega
  · intro c hc
    cases List.mem_append.mp hc with
    | inl hc =>
      obtain ⟨hac, hcb⟩ := h.between c hc
      exact ⟨hac, by omega⟩
    | inr hc =>
      obtain ⟨hbc, hcd⟩ := h'.between c hc
      exact ⟨by omega, hcd⟩

/-- Reads of the message stay inside it from here on: it is sound, or it was read to its
end and past the null. -/
def Safe (msg : RimMsg) : Prop :=
  (∃ pre rest fuel, Reading msg pre rest ∧ soundItems fuel rest = true) ∨
    (msg.mode = .read ∧ msg.dataLen = msg.len ∧ msg.curr = msg.len + 1)

theorem Safe.curr_le (h : Safe msg) : msg.curr ≤ msg.len + 1 := by
  obtain ⟨pre, rest, fuel, hr, -⟩ | ⟨-, -, hc⟩ := h
  · rw [hr.curr, hr.len]
    omega
  · omega

theorem Safe.dataLen (h : Safe msg) : msg.dataLen = msg.len := by
  obtain ⟨pre, rest, fuel, hr, -⟩ | ⟨-, hd, -⟩ := h
  · exact hr.dataLen
  · exact hd

theorem Safe.mode (h : Safe msg) : msg.mode = .read := by
  obtain ⟨pre, rest, fuel, hr, -⟩ | ⟨hm, -, -⟩ := h
  · exact hr.mode
  · exact hm

/-- What a read from `msg` gives is inside the message. -/
structure Served (msg : RimMsg) (out : MsgOut) (msg' : RimMsg) (out' : MsgOut) : Prop where
  len : msg'.len = msg.len
  currs : ∃ cs, out'.currs = out.currs ++ cs ∧ Forward msg.curr msg'.curr cs
  value : ∀ p n, out'.value = some (p, n) → out.value = some (p, n) ∨ 0 ≤ n ∧ (p : Int) + n ≤ msg.len
  safe : Safe msg'

theorem served_error {rest' : Bytes} {fuel : Nat} (h : Reading msg pre rest)
    (hlen : rest'.length = rest.length) (hsound : soundItems fuel rest' = true) (out : MsgOut)
    (st : MsgStatus) :
    Served msg out { msg with data := some (pre ++ (rest' ++ [0])) } { out with st := some st } := by
  refine ⟨rfl, ⟨[], by rw [List.append_nil], Forward.nil _⟩, fun p n hv => Or.inl hv, ?_⟩
  exact Or.inl ⟨pre, rest', fuel, h.rewrite hlen, hsound⟩

/-- A read goes on with what an item left. -/
theorem Served.cons {msg₁ msg₂ : RimMsg} {out out₁ out₂ : MsgOut} {c : Int}
    (h : Served msg₁ out₁ msg₂ out₂) (hlen : msg₁.len = msg.len) (hcurr : msg.curr < msg₁.curr)
    (hc : c = msg₁.curr) (hout : out₁.currs = out.currs ++ [c]) (hvalue : out₁.value = out.value) :
    Served msg out msg₂ out₂ := by
  obtain ⟨cs, hcs, hforward⟩ := h.currs
  refine ⟨h.len.trans hlen, ⟨[c] ++ cs, ?_, ?_⟩, ?_, h.safe⟩
  · rw [hcs, hout, List.append_assoc]
  · rw [hc]
    exact (Forward.one hcurr).append hforward
  · rw [← hvalue, ← hlen]
    exact h.value

/-- An error after the key leaves the `=` nulled. -/
theorem rimParseItem_error (hk : CleanKey k) {st : MsgStatus}
    (h : ∀ P key keyLen, parseValue (P ++ (body ++ [0])) key keyLen P.length body.length =
      some (P ++ (body ++ [0]), .error st)) (pre : Bytes) :
    rimParseItem (pre ++ ((k ++ 61 :: body) ++ [0])) pre.length ((k ++ 61 :: body).length : Nat) =
      some (pre ++ ((keyText k ++ 0 :: body) ++ [0]), .error st) := by
  have hP : (pre ++ (keyText k ++ [0])).length = pre.length + k.length + 1 := by
    simp only [List.length_append, length_keyText, List.length_singleton]
    omega
  have hval := h (pre ++ (keyText k ++ [0])) (pre.length + (front isspace k).length) (trim isspace k).length
  rw [hP] at hval
  rw [rimParseItem_key hk]
  simp only [List.append_assoc, List.cons_append, List.nil_append] at hval ⊢
  exact hval

theorem served_loop_error (hk : CleanKey k) {st : MsgStatus} (h : Reading msg pre (k ++ 61 :: body))
    (hparse : ∀ P key keyLen, parseValue (P ++ (body ++ [0])) key keyLen P.length body.length =
      some (P ++ (body ++ [0]), .error st)) (key value : Bool) (fuel : Nat) (out : MsgOut) :
    ∃ msg' out', rimReadLoop key value (fuel + 1) msg out = some (msg', out') ∧ Served msg out msg' out' := by
  have hlen : (keyText k ++ 0 :: body).length = (k ++ 61 :: body).length := by
    simp only [List.length_append, List.length_cons, length_keyText]
  exact ⟨_, _, rimReadLoop_error h (rimParseItem_error hk hparse pre) key value fuel out,
    served_error h hlen (soundItems_of_none (splitItem_keyText hk body)) out st⟩

/-- An item that is no comment is handed out. -/
theorem served_handed {v tail : Bytes} {c : UInt8} (h : Reading msg pre rest)
    (hi : Item rest k hdr v tail c) (hcomment : trim isspace k ≠ ascii "comment") (key value : Bool)
    (fuel : Nat) (out : MsgOut)
    (hsafe : ∀ hdr' : Bytes, hdr'.length = 16 → Safe (msg.passed pre (itemDone k hdr' v) tail)) :
    ∃ msg' out', rimReadLoop key value (fuel + 1) msg out = some (msg', out') ∧ Served msg out msg' out' := by
  have hlen := hi.length
  have hhdr : (if value then constHeader v.length else hdr).length = 16 := by
    cases value
    · exact hi.header
    · exact length_constHeader _
  have hdone := length_itemDone k v hi.header
  have hdone' := length_itemDone k v hhdr
  have hread := rimReadLoop_item h hi key value fuel out
  rw [if_neg hcomment] at hread
  refine ⟨_, _, hread, rfl, ⟨[((pre ++ itemDone k hdr v).length : Nat)], rfl, ?_⟩, ?_, hsafe _ hhdr⟩
  · have hnext : (pre ++ itemDone k (if value then constHeader v.length else hdr) v).length =
        (pre ++ itemDone k hdr v).length := by
      rw [List.length_append, List.length_append, hdone, hdone']
    show Forward msg.curr (((pre ++ itemDone k (if value then constHeader v.length else hdr) v).length : Nat) : Int) _
    rw [hnext]
    apply Forward.one
    rw [h.curr, List.length_append, hdone]
    omega
  · intro p n hv
    cases value with
    | false => exact Or.inl hv
    | true =>
      have hv : (pre.length + k.length + 17, (v.length : Int)) = (p, n) := Option.some.inj hv
      simp only [Prod.mk.injEq] at hv
      obtain ⟨rfl, rfl⟩ := hv
      rw [h.len]
      exact Or.inr ⟨by omega, by omega⟩

/-- Reads of a sound message end, inside it. -/
theorem served_loop (key value : Bool) {n : Nat} (h : Reading msg pre rest)
    (hsound : soundItems n rest = true) {fuel : Nat} (hfuel : rest.length < fuel) (out : MsgOut) :
    ∃ msg' out', rimReadLoop key value fuel msg out = some (msg', out') ∧ Served msg out msg' out' := by
  induction n generalizing msg pre rest fuel out with
  | zero => cases hsound
  | succ n ih =>
    obtain ⟨fuel, rfl⟩ : ∃ f, fuel = f + 1 := ⟨fuel - 1, by omega⟩
    cases hsplit : splitItem rest with
    | none =>
      obtain ⟨k, tail, hk, htext⟩ | ⟨k, body, hk, rfl, hshort⟩ := splitItem_none hsplit
      · exact ⟨_, _, rimReadLoop_error h (rimParseItem_noEq hk htext pre) key value fuel out,
          served_error h rfl hsound out _⟩
      · exact served_loop_error hk h (fun P => parseValue_short hshort P [0]) key value fuel out
    | some item =>
      obtain ⟨k, hdr, body⟩ := item
      obtain ⟨hk, hhdr, rfl⟩ := splitItem_some hsplit
      simp only [soundItems, hsplit] at hsound
      by_cases hsmall : itemLen hdr < 2 ^ 63
      · rw [if_pos hsmall] at hsound
        by_cases hlong : body.length < itemLen hdr
        · exact served_loop_error hk h (parseValue_long hhdr hsmall hlong) key value fuel out
        · rw [if_neg hlong] at hsound
          have hvlen : (body.take (itemLen hdr)).length = itemLen hdr := by
            rw [List.length_take]
            exact Nat.min_eq_left (Nat.le_of_not_lt hlong)
          have hbody := List.take_append_drop (itemLen hdr) body
          generalize body.take (itemLen hdr) = v at hvlen hbody
          cases hd : body.drop (itemLen hdr) with
          | nil =>
            -- the value ends where the message does: after it `msg->curr` is past the null
            rw [hd, List.append_nil] at hbody
            rw [hd] at hsound
            subst hbody
            have hi : Item (k ++ 61 :: (hdr ++ v)) k hdr v [] 0 := ⟨by simp, hk, hhdr, hvlen.symm, by omega, Or.inr rfl⟩
            have hl := hi.length
            refine served_handed h hi (by simpa using hsound) key value fuel out ?_
            intro hdr' hhdr'
            refine Or.inr ⟨h.mode, h.dataLen, ?_⟩
            show (((pre ++ itemDone k hdr' v).length : Nat) : Int) = msg.len + 1
            rw [List.length_append, length_itemDone k v hhdr', h.len, hl, List.length_nil]
            omega
          | cons c rest =>
            rw [hd] at hsound hbody
            by_cases hc : c = 10 ∨ c = 0
            · have hi : Item (k ++ 61 :: (hdr ++ body)) k hdr v (rest ++ [0]) c :=
                ⟨by rw [← hbody]; simp, hk, hhdr, hvlen.symm, by omega, hc⟩
              have hl := hi.length
              have htail : (rest ++ [0]).length = rest.length + 1 := List.length_append
              rw [htail] at hl
              simp only [if_pos hc] at hsound
              by_cases hcomment : trim isspace k = ascii "comment"
              · have hread := rimReadLoop_item h hi key value fuel out
                have hlt : rest.length < fuel := by omega
                obtain ⟨msg', out', hloop, hserved⟩ := ih (h.passed hi hhdr) hsound hlt
                  (out.passed key (trim isspace k) (pre ++ itemDone k hdr v).length)
                rw [if_pos hcomment, hloop] at hread
                refine ⟨msg', out', hread, ?_⟩
                refine hserved.cons rfl ?_ rfl rfl rfl
                show msg.curr < (((pre ++ itemDone k hdr v).length : Nat) : Int)
                rw [h.curr, List.length_append, length_itemDone k v hhdr]
                omega
              · refine served_handed h hi hcomment key value fuel out ?_
                intro hdr' hhdr'
                exact Or.inl ⟨_, rest, n, h.passed hi hhdr', hsound⟩
            · have hne : c ≠ 10 ∧ c ≠ 0 := not_or.mp hc
              have htext : body ++ [0] = v ++ c :: (rest ++ [0]) := by
                rw [← hbody]
                simp
              have hparse : ∀ P key keyLen, parseValue (P ++ ((hdr ++ body) ++ [0])) key keyLen P.length
                  ((hdr ++ body).length : Nat) = some (P ++ ((hdr ++ body) ++ [0]), .error .errLength) := by
                intro P key keyLen
                have hval := parseValue_value hhdr hvlen.symm (by omega) htext P key keyLen
                rw [if_pos hne] at hval
                exact hval
              exact served_loop_error hk h hparse key value fuel out
      · rw [if_neg hsmall] at hsound
        cases hsound

theorem served_rimReadMsg (h : Safe msg) (key value : Bool) :
    ∃ msg' out, rimReadMsg key value msg = some (msg', out) ∧ Served msg {} msg' out := by
  have hstay : Served msg {} msg { st := some .errLength } :=
    ⟨rfl, ⟨[], rfl, Forward.nil _⟩, fun _ _ hv => Or.inl hv, h⟩
  have hmode : ¬ msg.mode ≠ .read := not_not.mpr h.mode
  have hlen : ¬ msg.len > msg.dataLen := by
    rw [h.dataLen]
    omega
  unfold rimReadMsg
  simp only [if_neg hmode, if_neg hlen]
  by_cases hend : msg.curr ≥ msg.len
  · rw [if_pos hend]
    exact ⟨_, _, rfl, hstay⟩
  · rw [if_neg hend]
    obtain ⟨pre, rest, n, hr, hsound⟩ | ⟨-, -, hc⟩ := h
    · have hfuel : rest.length < msg.len + 2 := by
        rw [hr.len]
        omega
      exact served_loop key value hr hsound hfuel {}
    · omega

/-- Reads one after the other, each with or without a key and a value. -/
def readRun : List (Bool × Bool) → RimMsg → Option (List MsgOut)
  | [], _ => some []
  | (key, value) :: calls, msg => do
    let (msg, out) ← rimReadMsg key value msg
    let outs ← readRun calls msg
    some (out :: outs)

theorem safe_readRun (calls : List (Bool × Bool)) (h : Safe msg) :
    ∃ outs b, readRun calls msg = some outs ∧ outs.length = calls.length ∧
      Forward msg.curr b (outs.flatMap MsgOut.currs) ∧ b ≤ msg.len + 1 ∧
      ∀ out ∈ outs, ∀ p n, out.value = some (p, n) → 0 ≤ n ∧ (p : Int) + n ≤ msg.len := by
  induction calls generalizing msg with
  | nil => exact ⟨[], msg.curr, rfl, rfl, Forward.nil _, h.curr_le, fun _ ho => absurd ho List.not_mem_nil⟩
  | cons call calls ih =>
    obtain ⟨key, value⟩ := call
    obtain ⟨msg', out, hread, hserved⟩ := served_rimReadMsg h key value
    obtain ⟨outs, b, hrun, hcount, hforward, hb, hvalues⟩ := ih hserved.safe
    obtain ⟨cs, hcs, hfirst⟩ := hserved.currs
    rw [hserved.len] at hb hvalues
    have hcurrs : out.currs = cs := hcs
    refine ⟨out :: outs, b, ?_, ?_, ?_, hb, ?_⟩
    · simp only [readRun, hread, hrun, bind, Option.bind]
    · rw [List.length_cons, hcount, List.length_cons]
    · rw [List.flatMap_cons, hcurrs]
      exact hfirst.append hforward
    · intro o ho p n hv
      cases List.mem_cons.mp ho with
      | inl heq =>
        subst heq
        obtain hnone | hin := hserved.value p n hv
        · cases hnone
        · exact hin
      | inr ho => exact hvalues o ho p n hv

/-- Any number of reads of a sound message stay inside it: every read is defined, and
ends; `msg->curr` only moves forward, past the null at most; values that are handed out
are in the message. -/
theorem readRun_inside (bytes : Bytes) (calls : List (Bool × Bool)) (hsound : soundMsg bytes = true) :
    ∃ outs, readRun calls (rimNewMsgFrom bytes) = some outs ∧ outs.length = calls.length ∧
      ((0 : Int) :: outs.flatMap MsgOut.currs).Pairwise (· < ·) ∧
      (∀ c ∈ outs.flatMap MsgOut.currs, c ≤ bytes.length + 1) ∧
      ∀ out ∈ outs, ∀ p n, out.value = some (p, n) → 0 ≤ n ∧ (p : Int) + n ≤ bytes.length := by
  have hsafe : Safe (rimNewMsgFrom bytes) :=
    Or.inl ⟨[], bytes, bytes.length + 1, reading_rimNewMsgFrom bytes, hsound⟩
  obtain ⟨outs, b, hrun, hcount, hforward, hb, hvalues⟩ := safe_readRun calls hsafe
  refine ⟨outs, hrun, hcount, ?_, ?_, hvalues⟩
  · rw [List.pairwise_cons]
    exact ⟨fun c hc => (hforward.between c hc).1, hforward.sorted⟩
  · intro c hc
    have hcb := (hforward.between c hc).2
    have hb : b ≤ bytes.length + 1 := hb
    omega

/-- A message of an item, a comment and what is no item. -/
theorem readRun_inside_comment :
    soundMsg (ascii "a=" ++ List.replicate 7 0 ++ [1] ++ List.replicate 8 0 ++ ascii "b\n" ++
      ascii "comment=" ++ List.replicate 16 0 ++ ascii "\nx") = true ∧
    ∃ outs, readRun [(true, true), (true, true), (false, false)] (rimNewMsgFrom
      (ascii "a=" ++ List.replicate 7 0 ++ [1] ++ List.replicate 8 0 ++ ascii "b\n" ++
        ascii "comment=" ++ List.replicate 16 0 ++ ascii "\nx")) = some outs ∧ outs.length = 3 := by
  have hsound : soundMsg (ascii "a=" ++ List.replicate 7 0 ++ [1] ++ List.replicate 8 0 ++ ascii "b\n" ++
      ascii "comment=" ++ List.replicate 16 0 ++ ascii "\nx") = true := by decide
  obtain ⟨outs, hrun, hcount, -⟩ := readRun_inside _ [(true, true), (true, true), (false, false)] hsound
  exact ⟨hsound, outs, hrun, hcount⟩

/-- A comment that ends where the message does is read past the null, and a length with
its highest bit set leads before the start of the message. -/
theorem readRun_not_inside :
    readRun [(true, true)] (rimNewMsgFrom (ascii "comment=" ++ List.replicate 16 0)) = none ∧
    readRun [(true, true)] (rimNewMsgFrom (ascii "a=" ++ [128] ++ List.replicate 15 0)) = none := by
  decide

end RimMsg

end RimStone
