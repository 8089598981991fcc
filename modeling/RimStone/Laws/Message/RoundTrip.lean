import RimStone.Laws.Message.Write
import RimStone.Laws.Message.Read

/-!
# Messages read back

The items that `rim_write_msg` wrote are the ones that `rim_read_msg` takes, one by one.
Items with the key `comment` are passed over, and there is one place where that shows: a
comment at the end leaves the loop of a read where no item is left, and it finds that the
format is wrong before the next read finds the end.
-/

namespace RimStone

open RimStone.Lib

namespace RimMsg

/-! ## Items -/

def isComment (p : Bytes × Bytes) : Bool := trim isspace p.1 = ascii "comment"

def named (pairs : List (Bytes × Bytes)) : List (Bytes × Bytes) :=
  (pairs.filter fun p => !isComment p).map fun p => (trim isspace p.1, p.2)

/-- A read of a key and its value: the value is its bytes in the message. -/
def readPair (msg : RimMsg) : Option (RimMsg × Except MsgStatus (Bytes × Bytes)) := do
  let (msg, out) ← rimReadMsg true true msg
  match out.st, out.key, out.value with
  | some st, _, _ => some (msg, .error st)
  | none, some key, some (p, n) => some (msg, .ok (key, (msg.block.drop p).take n.toNat))
  | none, _, _ => none

def readAll : Nat → RimMsg → Option (List (Except MsgStatus (Bytes × Bytes)))
  | 0, _ => some []
  | n + 1, msg => do
    let (msg, r) ← readPair msg
    let rs ← readAll n msg
    some (r :: rs)

/-- What reads are to give: the pairs in order, and then that there is no more. -/
def inOrder (pairs : List (Bytes × Bytes)) (n : Nat) : List (Except MsgStatus (Bytes × Bytes)) :=
  (List.range n).map fun i => ((named pairs)[i]?.map Except.ok).getD (.error .errLength)

variable {msg : RimMsg} {pre : Bytes} {p : Bytes × Bytes} {pairs : List (Bytes × Bytes)}

theorem cleanKey_of_keyChar {k : Bytes} (h : k.all keyChar = true) : CleanKey k := by
  have hchar : ∀ x : UInt8, keyChar x = true → x ≠ 61 ∧ x ≠ 0 := by
    intro x hx
    constructor
    · intro heq
      subst heq
      revert hx
      decide
    · intro heq
      subst heq
      revert hx
      decide
  intro x hx
  exact hchar x (List.all_eq_true.mp h x hx)

/-- The length that is written is the one that is read. -/
theorem itemLen_htobe64 {n : Nat} (h : n < 2 ^ 63) : itemLen (htobe64 n ++ List.replicate 8 0) = n := by
  have htake : (htobe64 n ++ List.replicate 8 0).take 8 = htobe64 n := by
    rw [List.take_append_of_le_length (by rw [length_htobe64]), List.take_of_length_le (by rw [length_htobe64])]
  have hbytes : (htobe64 n).map UInt8.toNat = digits 256 8 n := by
    have hsame : ∀ d ∈ digits 256 8 n, (UInt8.toNat ∘ UInt8.ofNat) d = id d := by
      intro d hd
      exact UInt8.toNat_ofNat_of_lt' (digits_lt (by decide) 8 n d hd)
    rw [htobe64, List.map_map, List.map_congr_left hsame, List.map_id]
  rw [itemLen, htake, hbytes]
  apply number_digits_of_lt
  have hpow : (2 : Nat) ^ 63 < 256 ^ 8 := by decide
  omega

/-- A pair that was written is an item. -/
theorem item_encode (hkey : p.1.all keyChar = true) (hsmall : p.2.length < 2 ^ 63) (pairs : List (Bytes × Bytes)) :
    Item (encode (p :: pairs)) p.1 (htobe64 p.2.length ++ List.replicate 8 0) p.2 (encode pairs ++ [0]) 10 := by
  refine ⟨?_, cleanKey_of_keyChar hkey, ?_, itemLen_htobe64 hsmall, hsmall, Or.inl rfl⟩
  · simp only [encode, List.flatMap_cons, encodeItem, List.append_assoc, List.cons_append, List.nil_append]
  · rw [List.length_append, length_htobe64, List.length_replicate]

/-- The value of an item is in the message. -/
theorem value_itemDone (pre k : Bytes) {hdr v tail : Bytes} (hhdr : hdr.length = 16) :
    ((pre ++ (itemDone k hdr v ++ tail)).drop (pre.length + k.length + 17)).take v.length = v := by
  have hsplit : pre ++ (itemDone k hdr v ++ tail) =
      (pre ++ (keyText k ++ (0 :: hdr))) ++ (v ++ 0 :: tail) := by
    simp only [itemDone, List.append_assoc, List.cons_append, List.nil_append]
  have hplace : pre.length + k.length + 17 = (pre ++ (keyText k ++ (0 :: hdr))).length := by
    simp only [List.length_append, length_keyText, List.length_cons, hhdr]
    omega
  rw [hsplit, hplace, List.drop_left, List.take_left]

/-! ## Reads -/

/-- Where nothing is left, an item is no item. -/
theorem rimReadLoop_end (h : Reading msg pre []) (fuel : Nat) (out : MsgOut) :
    ∃ msg', rimReadLoop true true (fuel + 1) msg out = some (msg', { out with st := some .errFormat }) := by
  have hnone := rimParseItem_noEq (k := []) (fun _ hx => absurd hx List.not_mem_nil)
    (show ([] : Bytes) ++ [0] = [] ++ 0 :: [] from rfl) pre
  exact ⟨_, rimReadLoop_error h hnone true true fuel out⟩

def Writable (pairs : List (Bytes × Bytes)) : Prop :=
  ∀ p ∈ pairs, p.1.all keyChar = true ∧ p.2.length < 2 ^ 63

/-- Comments are passed over. -/
theorem rimReadLoop_comments (hw : Writable pairs) (h : Reading msg pre (encode pairs)) {fuel : Nat}
    (hfuel : pairs.length < fuel) (out : MsgOut) :
    match pairs.dropWhile isComment with
    | [] => ∃ msg' out', rimReadLoop true true fuel msg out = some (msg', out') ∧ out'.st = some .errFormat
    | p :: pairs => ∃ msg' pre' out' i, rimReadLoop true true fuel msg out = some (msg', out') ∧
        out'.st = out.st ∧ out'.key = some (trim isspace p.1) ∧ out'.value = some (i, (p.2.length : Int)) ∧
        (msg'.block.drop i).take p.2.length = p.2 ∧ Reading msg' pre' (encode pairs) := by
  obtain ⟨fuel, rfl⟩ : ∃ f, fuel = f + 1 := ⟨fuel - 1, by omega⟩
  induction pairs generalizing msg pre fuel out with
  | nil =>
    obtain ⟨msg', hend⟩ := rimReadLoop_end h fuel out
    exact ⟨msg', _, hend, rfl⟩
  | cons p pairs ih =>
    obtain ⟨⟨hkey, hsmall⟩, hws⟩ := List.forall_mem_cons.mp hw
    have hi := item_encode hkey hsmall pairs
    have hread := rimReadLoop_item h hi true true fuel out
    by_cases hcomment : trim isspace p.1 = ascii "comment"
    · have hdrop : (p :: pairs).dropWhile isComment = pairs.dropWhile isComment :=
        List.dropWhile_cons_of_pos (decide_eq_true hcomment)
      rw [List.length_cons] at hfuel
      obtain ⟨fuel, rfl⟩ : ∃ f, fuel = f + 1 := ⟨fuel - 1, by omega⟩
      rw [if_pos hcomment] at hread
      rw [hdrop, hread]
      exact ih hws (h.passed hi hi.header) _ fuel (by omega)
    · have hdrop : (p :: pairs).dropWhile isComment = p :: pairs :=
        List.dropWhile_cons_of_neg (by rw [isComment, decide_eq_true_iff]; exact hcomment)
      rw [if_neg hcomment] at hread
      rw [hdrop]
      refine ⟨_, _, _, _, hread, rfl, rfl, rfl, ?_, h.passed hi (length_constHeader _)⟩
      exact value_itemDone pre p.1 (length_constHeader _)

theorem readPair_end (h : Reading msg pre []) : readPair msg = some (msg, .error .errLength) := by
  have hmode : ¬ msg.mode ≠ .read := not_not.mpr h.mode
  have hlen : ¬ msg.len > msg.dataLen := by
    rw [h.dataLen]
    omega
  have hend : msg.curr ≥ msg.len := by
    rw [h.curr, h.len, List.length_nil]
    omega
  unfold readPair rimReadMsg
  simp only [if_neg hmode, if_neg hlen, if_pos hend, bind, Option.bind]

/-- A read of what was written: the next pair that is no comment, or an error. -/
theorem readPair_encode (hw : Writable (p :: pairs)) (h : Reading msg pre (encode (p :: pairs))) :
    match (p :: pairs).dropWhile isComment with
    | [] => ∃ msg', readPair msg = some (msg', .error .errFormat)
    | p :: pairs => ∃ msg' pre', readPair msg = some (msg', .ok (trim isspace p.1, p.2)) ∧
        Reading msg' pre' (encode pairs) := by
  have hmode : ¬ msg.mode ≠ .read := not_not.mpr h.mode
  have hlen : ¬ msg.len > msg.dataLen := by
    rw [h.dataLen]
    omega
  have hitems : ∀ l : List (Bytes × Bytes), l.length ≤ (encode l).length := by
    intro l
    induction l with
    | nil => exact Nat.zero_le _
    | cons q l ih =>
      rw [encode, List.flatMap_cons, List.length_append, length_encodeItem, List.length_cons]
      have ih : l.length ≤ (l.flatMap encodeItem).length := ih
      omega
  have hcount := hitems (p :: pairs)
  rw [List.length_cons] at hcount
  have hmore : ¬ msg.curr ≥ msg.len := by
    rw [h.curr, h.len]
    omega
  have hfuel : (p :: pairs).length < msg.len + 2 := by
    rw [h.len, List.length_cons]
    omega
  have hloop := rimReadLoop_comments hw h hfuel {}
  have hread : rimReadMsg true true msg = rimReadLoop true true (msg.len + 2) msg {} := by
    unfold rimReadMsg
    simp only [if_neg hmode, if_neg hlen, if_neg hmore]
  unfold readPair
  rw [hread]
  cases hd : (p :: pairs).dropWhile isComment with
  | nil =>
    rw [hd] at hloop
    obtain ⟨msg', out', hgo, hst⟩ := hloop
    refine ⟨msg', ?_⟩
    simp only [hgo, hst, bind, Option.bind]
  | cons q qs =>
    rw [hd] at hloop
    obtain ⟨msg', pre', out', i, hgo, hst, hkey, hvalue, hbytes, hr⟩ := hloop
    refine ⟨msg', pre', ?_, hr⟩
    simp only [hgo, hst, hkey, hvalue, hbytes, Int.toNat_natCast, bind, Option.bind]

/-! ## Pairs -/

theorem named_dropWhile (pairs : List (Bytes × Bytes)) : named (pairs.dropWhile isComment) = named pairs := by
  induction pairs with
  | nil => rfl
  | cons p pairs ih =>
    by_cases hp : isComment p = true
    · rw [List.dropWhile_cons_of_pos hp, ih, named, named, List.filter_cons_of_neg (by rw [hp]; decide)]
    · rw [List.dropWhile_cons_of_neg hp]

theorem named_cons (hp : ¬ isComment p = true) (pairs : List (Bytes × Bytes)) :
    named (p :: pairs) = (trim isspace p.1, p.2) :: named pairs := by
  rw [named, List.filter_cons_of_pos (by simpa using hp), List.map_cons]
  rfl

/-- The first pair that is left is no comment. -/
theorem not_isComment_first {q : Bytes × Bytes} {qs : List (Bytes × Bytes)}
    (h : pairs.dropWhile isComment = q :: qs) : ¬ isComment q = true := by
  have hne : pairs.dropWhile isComment ≠ [] := by
    rw [h]
    exact List.cons_ne_nil _ _
  have hhead := List.head_dropWhile_not isComment hne
  simp only [h, List.head_cons] at hhead
  rw [hhead]
  decide

/-- The first that is to be read, and the others. -/
theorem inOrder_succ {q : Bytes × Bytes} {qs : List (Bytes × Bytes)}
    (h : pairs.dropWhile isComment = q :: qs) (n : Nat) :
    inOrder pairs (n + 1) = .ok (trim isspace q.1, q.2) :: inOrder qs n := by
  have hnamed : named pairs = (trim isspace q.1, q.2) :: named qs := by
    rw [← named_dropWhile, h, named_cons (not_isComment_first h)]
  unfold inOrder
  rw [hnamed, List.range_succ_eq_map, List.map_cons, List.map_map]
  rfl

def LastNamed (pairs : List (Bytes × Bytes)) : Prop :=
  ∀ p, pairs.getLast? = some p → trim isspace p.1 ≠ ascii "comment"

/-- Pairs before the first that is read, and this one, say nothing of the last. -/
theorem lastNamed_dropWhile {q : Bytes × Bytes} {qs : List (Bytes × Bytes)}
    (h : pairs.dropWhile isComment = q :: qs) : LastNamed pairs ↔ LastNamed qs := by
  have happ : pairs.takeWhile isComment ++ q :: qs = pairs := by
    rw [← h]
    exact List.takeWhile_append_dropWhile
  have hq : trim isspace q.1 ≠ ascii "comment" := by
    intro heq
    exact not_isComment_first h (decide_eq_true heq)
  have hlast : pairs.getLast? = (q :: qs).getLast? := by
    rw [← happ, List.getLast?_append_of_ne_nil _ (List.cons_ne_nil _ _)]
  unfold LastNamed
  rw [hlast]
  cases qs with
  | nil =>
    refine iff_of_true ?_ (fun _ hp => by cases hp)
    intro p hp
    obtain rfl : q = p := Option.some.inj hp
    exact hq
  | cons r rs => rw [List.getLast?_cons_cons]

theorem not_lastNamed_comments (h : (p :: pairs).dropWhile isComment = []) : ¬ LastNamed (p :: pairs) := by
  intro hlast
  obtain ⟨r, hr⟩ : ∃ r, (p :: pairs).getLast? = some r := ⟨_, List.getLast?_eq_some_getLast (List.cons_ne_nil _ _)⟩
  have hmem : r ∈ p :: pairs := List.mem_of_getLast? hr
  have hcomment : isComment r = true := List.dropWhile_eq_nil_iff.mp h r hmem
  exact hlast r hr (of_decide_eq_true hcomment)

theorem inOrder_comments (h : pairs.dropWhile isComment = []) (n : Nat) :
    inOrder pairs (n + 1) = .error .errLength :: inOrder [] n := by
  have hnamed : named pairs = named [] := by rw [← named_dropWhile, h]
  unfold inOrder
  rw [hnamed, List.range_succ_eq_map, List.map_cons, List.map_map]
  rfl

theorem readAll_succ {msg' : RimMsg} {r : Except MsgStatus (Bytes × Bytes)}
    (h : readPair msg = some (msg', r)) (n : Nat) : readAll (n + 1) msg = (readAll n msg').map (r :: ·) := by
  rw [readAll, h]
  cases hrs : readAll n msg' <;> simp only [hrs, bind, Option.bind, Option.map_none, Option.map_some]

/-- The reads give what was written, if a key to be read comes last. -/
theorem readAll_of_lastNamed (hlast : LastNamed pairs) (hw : Writable pairs)
    (h : Reading msg pre (encode pairs)) (n : Nat) : readAll n msg = some (inOrder pairs n) := by
  induction n generalizing msg pre pairs with
  | zero => rfl
  | succ n ih =>
    cases pairs with
    | nil =>
      rw [readAll_succ (readPair_end h), ih hlast hw h, inOrder_comments rfl]
      rfl
    | cons p pairs =>
      have hread := readPair_encode hw h
      cases hd : (p :: pairs).dropWhile isComment with
      | nil => exact absurd hlast (not_lastNamed_comments hd)
      | cons q qs =>
        rw [hd] at hread
        obtain ⟨msg', pre', hpair, hr⟩ := hread
        have hws : Writable qs := by
          intro r hmem
          apply hw r
          apply (List.dropWhile_sublist isComment).subset
          rw [hd]
          exact List.mem_cons_of_mem _ hmem
        rw [readAll_succ hpair, ih ((lastNamed_dropWhile hd).mp hlast) hws hr, inOrder_succ hd]
        rfl

/-- Only then do they. -/
theorem lastNamed_of_readAll (hw : Writable pairs) (h : Reading msg pre (encode pairs))
    (hall : ∀ n, readAll n msg = some (inOrder pairs n)) : LastNamed pairs := by
  induction hn : pairs.length using Nat.strong_induction_on generalizing msg pre pairs with
  | _ n ih =>
    cases pairs with
    | nil =>
      intro p hp
      cases hp
    | cons p pairs =>
      have hread := readPair_encode hw h
      cases hd : (p :: pairs).dropWhile isComment with
      | nil =>
        rw [hd] at hread
        obtain ⟨msg', hpair⟩ := hread
        have hone := hall 1
        rw [readAll_succ hpair, inOrder_comments hd] at hone
        exact absurd hone (by simp [readAll])
      | cons q qs =>
        rw [hd] at hread
        obtain ⟨msg', pre', hpair, hr⟩ := hread
        have hsub := (List.dropWhile_sublist (l := p :: pairs) isComment)
        rw [hd] at hsub
        have hws : Writable qs := fun r hmem => hw r (hsub.subset (List.mem_cons_of_mem _ hmem))
        have hlen := hsub.length_le
        rw [List.length_cons] at hlen
        refine (lastNamed_dropWhile hd).mpr (ih qs.length (by omega) hws hr ?_ rfl)
        intro n
        have hnext := hall (n + 1)
        rw [readAll_succ hpair, inOrder_succ hd] at hnext
        cases hrs : readAll n msg' with
        | none =>
          rw [hrs] at hnext
          cases hnext
        | some rs =>
          rw [hrs] at hnext
          have htail := Option.some.inj hnext
          rw [List.cons.injEq] at htail
          rw [htail.2]

/-- A message that was written and is read: the pairs come back, those with the key
`comment` apart, and then the end of the message, if and only if the last pair is no
comment. -/
theorem readAll_writeAll (garbage : Nat → UInt8) (pairs : List (Bytes × Bytes))
    (hkeys : ∀ p ∈ pairs, p.1.all keyChar = true) :
    (∃ m, writeAll garbage rimNewMsg pairs = .error (.report "Out of memory" m)) ∨
      ∃ msg, writeAll garbage rimNewMsg pairs = .ok msg ∧
        ((∀ n, readAll n (rimNewMsgFrom (rimGetMsg msg).1) = some (inOrder pairs n)) ↔
          ∀ p, pairs.getLast? = some p → trim isspace p.1 ≠ ascii "comment") := by
  have hnew : Holds rimNewMsg [] := Or.inl ⟨rfl, rfl, rfl⟩
  obtain hfull | ⟨msg, hok, hholds, hsmall⟩ := writeAll_cases hnew garbage hkeys
  · exact Or.inl hfull
  · have hw : Writable pairs := fun p hp => ⟨hkeys p hp, hsmall p hp⟩
    have hget : (rimGetMsg msg).1 = encode pairs := rimGetMsg_eq hholds
    have hr := reading_rimNewMsgFrom (encode pairs)
    refine Or.inr ⟨msg, hok, ?_⟩
    rw [hget]
    exact ⟨lastNamed_of_readAll hw hr, fun hlast => readAll_of_lastNamed hlast hw hr⟩

/-- A comment between two pairs, one of which has white space around its key. -/
theorem readAll_writeAll_comment :
    (∃ m, writeAll (fun _ => 255) rimNewMsg [(ascii " a\t", [0, 61]), (ascii "comment", []), (ascii "b", [])] =
        .error (.report "Out of memory" m)) ∨
      ∃ msg, writeAll (fun _ => 255) rimNewMsg
          [(ascii " a\t", [0, 61]), (ascii "comment", []), (ascii "b", [])] = .ok msg ∧
        ∀ n, readAll n (rimNewMsgFrom (rimGetMsg msg).1) =
          some (inOrder [(ascii " a\t", [0, 61]), (ascii "comment", []), (ascii "b", [])] n) := by
  have hkeys : ∀ p ∈ [(ascii " a\t", ([0, 61] : Bytes)), (ascii "comment", []), (ascii "b", [])],
      p.1.all keyChar = true := by decide
  have hlast : ∀ p, [(ascii " a\t", ([0, 61] : Bytes)), (ascii "comment", []), (ascii "b", [])].getLast? =
      some p → trim isspace p.1 ≠ ascii "comment" := by
    intro p hp
    obtain rfl : (ascii "b", []) = p := Option.some.inj hp
    decide
  obtain hfull | ⟨msg, hok, hiff⟩ := readAll_writeAll (fun _ => 255) _ hkeys
  · exact Or.inl hfull
  · exact Or.inr ⟨msg, hok, hiff.mpr hlast⟩

/-- After a comment at the end the read does not find the end of the message, but an
error of its format. -/
theorem readAll_writeAll_fails :
    (writeAll (fun _ => 255) rimNewMsg [(ascii "comment", [])]).toOption.bind
        (fun msg => readAll 2 (rimNewMsgFrom (rimGetMsg msg).1)) =
      some [.error .errFormat, .error .errLength] ∧
    inOrder [(ascii "comment", [])] 2 = [.error .errLength, .error .errLength] := by
  decide +kernel

end RimMsg

end RimStone
