import RimStone.Laws.Request.Input

/-!
# A query string in a block that was used before

The block of a request is used again for the next one, so there are bytes of an earlier request
after the null of a query string. The decoding loop stays within the string as long as each `%` has
two bytes after it: it takes two and does not look whether one is the null. What it wrote ends with
two nulls, but the loop over names and values takes as many of them as there are `=`, and where
those are more than the strings in the block, it goes on with what an earlier request left.
-/

namespace RimStone

open RimStone.Lib

/-! ## Tokens -/

inductive QueryToken where
  | byte (c : UInt8)
  /-- `%`, and the two bytes after it -/
  | escape (x y : UInt8)
  | amp
  | equal
  deriving DecidableEq, Repr

namespace QueryToken

def source : QueryToken → Bytes
  | byte c => [c]
  | escape x y => [37, x, y]
  | amp => [38]
  | equal => [61]

def passed : QueryToken → Bytes
  | byte c => [if c = 43 then 32 else c]
  | t => t.source

def decoded (isname : Bool) : QueryToken → UInt8
  | byte c => if c = 43 then 32 else if isname ∧ c = 45 then 95 else c
  | escape x y => UInt8.ofInt (rimCharFromHex x * 16 + rimCharFromHex y)
  | amp | equal => 0

def isEscape : QueryToken → Bool
  | escape _ _ => true
  | _ => false

def isNull : QueryToken → Bool
  | escape x y => UInt8.ofInt (rimCharFromHex x * 16 + rimCharFromHex y) = 0
  | _ => false

def nameAfter (isname : Bool) : QueryToken → Bool
  | amp => true
  | equal => false
  | _ => isname

/-- Whether there was an `=` since the last `&`. -/
def equalAfter (hadEqual : Bool) : QueryToken → Bool
  | amp => false
  | equal => true
  | _ => hadEqual

/-- There is no null in it, and a byte is not another token. -/
def Plain : QueryToken → Prop
  | byte c => c ≠ 0 ∧ c ≠ 37 ∧ c ≠ 38 ∧ c ≠ 61
  | escape x y => x ≠ 0 ∧ y ≠ 0
  | _ => True

end QueryToken

/-- The tokens of a string, and the `%` at its end that has less than two bytes after it. -/
def queryTokens : Bytes → List QueryToken × Bytes
  | [] => ([], [])
  | c :: s =>
    if c = 37 then
      match s with
      | x :: y :: s => (.escape x y :: (queryTokens s).1, (queryTokens s).2)
      | s => ([], 37 :: s)
    else ((if c = 38 then .amp else if c = 61 then .equal else .byte c) :: (queryTokens s).1, (queryTokens s).2)

def decodedTokens : Bool → List QueryToken → Bytes
  | _, [] => []
  | isname, t :: ts => t.decoded isname :: decodedTokens (t.nameAfter isname) ts

/-- There is a `&` without an `=` before it. -/
def ampAlone : Bool → List QueryToken → Bool
  | _, [] => false
  | hadEqual, t :: ts => (t = .amp && !hadEqual) || ampAlone (t.equalAfter hadEqual) ts

theorem queryTokens_spec (s : Bytes) :
    s = (queryTokens s).1.flatMap QueryToken.source ++ (queryTokens s).2 ∧
      ((queryTokens s).2 = [] ∨ (queryTokens s).2 = [37] ∨ ∃ x, (queryTokens s).2 = [37, x]) ∧
      (0 ∉ s → ∀ t ∈ (queryTokens s).1, t.Plain) := by
  induction s using queryTokens.induct with
  | case1 => exact ⟨rfl, Or.inl rfl, fun _ _ h => nomatch h⟩
  | case2 x y s ih =>
    obtain ⟨hs, hcut, hplain⟩ := ih
    rw [queryTokens, if_pos rfl]
    refine ⟨?_, hcut, ?_⟩
    · rw [List.flatMap_cons, List.append_assoc, ← hs]
      rfl
    · intro hnull
      simp only [List.mem_cons, not_or] at hnull
      exact List.forall_mem_cons.mpr ⟨⟨Ne.symm hnull.2.1, Ne.symm hnull.2.2.1⟩, hplain hnull.2.2.2⟩
  | case3 s hshort =>
    have hcut : queryTokens (37 :: s) = ([], 37 :: s) := by
      rw [queryTokens.eq_def]
      simp only [if_true]
    rw [hcut]
    refine ⟨rfl, Or.inr ?_, fun _ _ h => nomatch h⟩
    match s, hshort with
    | [], _ => exact Or.inl rfl
    | [x], _ => exact Or.inr ⟨x, rfl⟩
    | x :: y :: t, hshort => exact absurd rfl (hshort x y t)
  | case4 c s hpct ih =>
    obtain ⟨hs, hcut, hplain⟩ := ih
    have htokens : queryTokens (c :: s) =
        ((if c = 38 then .amp else if c = 61 then .equal else .byte c) :: (queryTokens s).1, (queryTokens s).2) := by
      rw [queryTokens.eq_def]
      exact if_neg hpct
    rw [htokens]
    refine ⟨?_, hcut, ?_⟩
    · rw [List.flatMap_cons, List.append_assoc, ← hs]
      split_ifs with hamp heq
      · rw [hamp]
        rfl
      · rw [heq]
        rfl
      · rfl
    · intro hnull
      rw [List.mem_cons, not_or] at hnull
      refine List.forall_mem_cons.mpr ⟨?_, hplain hnull.2⟩
      split_ifs with hamp heq
      · trivial
      · trivial
      · exact ⟨Ne.symm hnull.1, hpct, hamp, heq⟩

/-! ## The block -/

/-- A block of which `read` was passed, `out` written from the front, and `rest` is left. -/
def passedBlock (read out rest : Bytes) : Bytes := out ++ (read.drop out.length ++ rest)

section Block

variable {read out rest : Bytes} {c : UInt8}

theorem passedBlock_get (hle : out.length ≤ read.length) (k : Nat) :
    (passedBlock read out rest)[read.length + k]? = rest[k]? := by
  unfold passedBlock
  rw [← List.append_assoc, List.getElem?_append_right, List.length_append, List.length_drop]
  · congr 1
    omega
  · rw [List.length_append, List.length_drop]
    omega

theorem poke_rest (hle : out.length ≤ read.length) (b : UInt8) :
    poke (passedBlock read out (c :: rest)) read.length b = some (passedBlock read out (b :: rest)) := by
  have hlen : read.length = (out ++ read.drop out.length).length := by
    rw [List.length_append, List.length_drop]
    omega
  unfold passedBlock
  rw [← List.append_assoc, ← List.append_assoc]
  have h := poke_middle (out ++ read.drop out.length) c rest b
  rw [← hlen] at h
  exact h

/-- Bytes are passed, and a byte is written behind them. -/
theorem poke_passed (hle : out.length ≤ read.length) {bs : Bytes} (hbs : bs ≠ []) (b : UInt8) :
    poke (passedBlock read out (bs ++ rest)) out.length b = some (passedBlock (read ++ bs) (out ++ [b]) rest) := by
  have hlt : out.length < (read ++ bs).length := by
    have hpos := List.length_pos_iff.mpr hbs
    rw [List.length_append]
    omega
  unfold passedBlock
  rw [← List.append_assoc (read.drop _), ← List.drop_append_of_le_length hle, List.drop_eq_getElem_cons hlt,
    List.cons_append, poke_middle, List.length_append, List.length_singleton, List.append_assoc]
  rfl

end Block

/-! ## The loop -/

section Loop

variable {read out rest : Bytes} {hadEqual isname : Bool} {num : Nat}

/-- The loop takes a token. -/
theorem decodeLoop_token (fuel : Nat) {t : QueryToken} (ht : t.Plain) (hle : out.length ≤ read.length)
    (hadEqual isname : Bool) (num : Nat) :
    decodeLoop (fuel + 1) (passedBlock read out (t.source ++ rest)) read.length out.length hadEqual isname num =
      if t = .amp ∧ hadEqual = false then
        .error (.report "Malformed URL request, encountered ampersand without prior name=value" [])
      else decodeLoop fuel (passedBlock (read ++ t.passed) (out ++ [t.decoded isname]) rest) (read ++ t.passed).length
        (out ++ [t.decoded isname]).length (t.equalAfter hadEqual) (t.nameAfter isname)
        (num + if t = .equal then 1 else 0) := by
  have hget (c : UInt8) (tail : Bytes) : (passedBlock read out (c :: tail))[read.length]? = some c :=
    passedBlock_get hle 0
  have hout (b : UInt8) : (out ++ [b]).length = out.length + 1 := List.length_append
  have hread (bs : Bytes) : (read ++ bs).length = read.length + bs.length := List.length_append
  cases t with
  | byte c =>
    obtain ⟨hzero, hpct, hamp, heq⟩ := ht
    have hno : ¬ (QueryToken.byte c = .amp ∧ hadEqual = false) := fun h => QueryToken.noConfusion h.1
    have hwrite (c b : UInt8) : poke (passedBlock read out (c :: rest)) out.length b =
        some (passedBlock (read ++ [c]) (out ++ [b]) rest) := poke_passed hle (List.cons_ne_nil c []) b
    rw [if_neg hno]
    rw [decodeLoop, QueryToken.source]
    simp only [List.cons_append, List.nil_append, hget, inContent, bind, Except.bind, if_neg hzero, poke_rest hle, hwrite]
    simp only [QueryToken.passed, QueryToken.decoded, QueryToken.equalAfter, QueryToken.nameAfter, hread, hout,
      List.length_singleton, reduceCtorEq, if_false, Nat.add_zero]
    by_cases hplus : c = 43
    · simp only [if_pos hplus]
      rw [if_neg (fun h => absurd h.2 (by decide)), if_neg (by decide), if_neg (by decide), if_neg (by decide)]
    · simp only [if_neg hplus]
      by_cases hname : isname = true ∧ c = 45
      · rw [if_pos hname, if_pos hname]
      · rw [if_neg hname, if_neg hname, if_neg hpct, if_neg hamp, if_neg heq]
  | escape x y =>
    have hno : ¬ (QueryToken.escape x y = .amp ∧ hadEqual = false) := fun h => QueryToken.noConfusion h.1
    have hget₁ : (passedBlock read out (37 :: x :: y :: rest))[read.length + 1]? = some x := passedBlock_get hle 1
    have hget₂ : (passedBlock read out (37 :: x :: y :: rest))[read.length + 2]? = some y := passedBlock_get hle 2
    have hwrite (b : UInt8) : poke (passedBlock read out (37 :: x :: y :: rest)) out.length b =
        some (passedBlock (read ++ [37, x, y]) (out ++ [b]) rest) := poke_passed hle (List.cons_ne_nil 37 [x, y]) b
    have hname : ¬ (isname = true ∧ (37 : UInt8) = 45) := fun h => absurd h.2 (by decide)
    have hzero : ¬ (37 : UInt8) = 0 := by decide
    have hplus : ¬ (37 : UInt8) = 43 := by decide
    rw [if_neg hno]
    rw [decodeLoop, QueryToken.source]
    simp only [List.cons_append, List.nil_append, hget, inContent, bind, Except.bind, if_neg hzero, if_neg hplus,
      poke_rest hle, if_neg hname, if_true, hget₁, hget₂, hwrite]
    simp only [QueryToken.passed, QueryToken.source, QueryToken.decoded, QueryToken.equalAfter, QueryToken.nameAfter,
      hread, hout, reduceCtorEq, if_false, Nat.add_zero]
    rfl
  | amp =>
    have hwrite : poke (passedBlock read out (38 :: rest)) out.length 0 =
        some (passedBlock (read ++ [38]) (out ++ [0]) rest) := poke_passed hle (List.cons_ne_nil 38 []) 0
    have hname : ¬ (isname = true ∧ (38 : UInt8) = 45) := fun h => absurd h.2 (by decide)
    have hzero : ¬ (38 : UInt8) = 0 := by decide
    have hplus : ¬ (38 : UInt8) = 43 := by decide
    have hpct : ¬ (38 : UInt8) = 37 := by decide
    rw [decodeLoop, QueryToken.source]
    simp only [List.cons_append, List.nil_append, hget, inContent, bind, Except.bind, if_neg hzero, if_neg hplus,
      poke_rest hle, if_neg hname, if_neg hpct, if_true, true_and, hwrite]
    cases hadEqual with
    | false => rfl
    | true =>
      simp only [QueryToken.passed, QueryToken.source, QueryToken.decoded, QueryToken.equalAfter, QueryToken.nameAfter,
        hread, hout, reduceCtorEq, if_true, if_false, Nat.add_zero, List.length_singleton]
  | equal =>
    have hno : ¬ (QueryToken.equal = .amp ∧ hadEqual = false) := fun h => QueryToken.noConfusion h.1
    have hwrite : poke (passedBlock read out (61 :: rest)) out.length 0 =
        some (passedBlock (read ++ [61]) (out ++ [0]) rest) := poke_passed hle (List.cons_ne_nil 61 []) 0
    have hname : ¬ (isname = true ∧ (61 : UInt8) = 45) := fun h => absurd h.2 (by decide)
    have hzero : ¬ (61 : UInt8) = 0 := by decide
    have hplus : ¬ (61 : UInt8) = 43 := by decide
    have hpct : ¬ (61 : UInt8) = 37 := by decide
    have hamp : ¬ (61 : UInt8) = 38 := by decide
    rw [if_neg hno]
    rw [decodeLoop, QueryToken.source]
    simp only [List.cons_append, List.nil_append, hget, inContent, bind, Except.bind, if_neg hzero, if_neg hplus,
      poke_rest hle, if_neg hname, if_neg hpct, if_neg hamp, if_true, hwrite]
    simp only [QueryToken.passed, QueryToken.source, QueryToken.decoded, QueryToken.equalAfter, QueryToken.nameAfter,
      hread, hout, List.length_singleton]

/-- The loop takes tokens, unless a `&` has no `=` before it. -/
theorem decodeLoop_tokens {ts : List QueryToken} (hts : ∀ t ∈ ts, t.Plain) (fuel : Nat) (hle : out.length ≤ read.length)
    (hadEqual isname : Bool) (num : Nat) :
    ∃ hadEqual' isname',
      decodeLoop (ts.length + fuel) (passedBlock read out (ts.flatMap QueryToken.source ++ rest)) read.length out.length
          hadEqual isname num =
        if ampAlone hadEqual ts = true then
          .error (.report "Malformed URL request, encountered ampersand without prior name=value" [])
        else decodeLoop fuel (passedBlock (read ++ ts.flatMap QueryToken.passed) (out ++ decodedTokens isname ts) rest)
          (read ++ ts.flatMap QueryToken.passed).length (out ++ decodedTokens isname ts).length hadEqual' isname'
          (num + ts.count .equal) := by
  induction ts generalizing read out hadEqual isname num with
  | nil =>
    refine ⟨hadEqual, isname, ?_⟩
    simp only [List.flatMap_nil, List.nil_append, List.append_nil, decodedTokens, List.length_nil, Nat.zero_add,
      List.count_nil, Nat.add_zero, ampAlone, Bool.false_eq_true, if_false]
  | cons t ts ih =>
    obtain ⟨ht, hts⟩ := List.forall_mem_cons.mp hts
    have hfuel : (t :: ts).length + fuel = (ts.length + fuel) + 1 := by
      rw [List.length_cons]
      omega
    have hle' : (out ++ [t.decoded isname]).length ≤ (read ++ t.passed).length := by
      have hpos : 0 < t.passed.length := by cases t <;> exact Nat.succ_pos _
      rw [List.length_append, List.length_append, List.length_singleton]
      omega
    obtain ⟨hadEqual', isname', hgo⟩ := ih hts hle' (t.equalAfter hadEqual) (t.nameAfter isname)
      (num + if t = .equal then 1 else 0)
    refine ⟨hadEqual', isname', ?_⟩
    rw [List.flatMap_cons, List.append_assoc, hfuel, decodeLoop_token _ ht hle]
    by_cases halone : t = .amp ∧ hadEqual = false
    · have hany : ampAlone hadEqual (t :: ts) = true := by
        obtain ⟨rfl, rfl⟩ := halone
        rfl
      rw [if_pos halone, if_pos hany]
    · have hany : ampAlone hadEqual (t :: ts) = ampAlone (t.equalAfter hadEqual) ts := by
        have hfalse : (decide (t = .amp) && !hadEqual) = false := by
          simpa using halone
        rw [ampAlone, hfalse, Bool.false_or]
      have hcount : (num + if t = .equal then 1 else 0) + ts.count .equal = num + (t :: ts).count .equal := by
        rw [List.count_cons]
        simp only [beq_iff_eq]
        omega
      rw [if_neg halone, hgo, hany, hcount, List.flatMap_cons, decodedTokens]
      simp only [List.append_assoc, List.cons_append, List.nil_append]

end Loop

/-! ## What is left in the block -/

section Strings

variable {s : Bytes}

/-- What the tokens leave of the string behind what was written. -/
def behind (ts : List QueryToken) : Bytes := (ts.flatMap QueryToken.passed).drop (decodedTokens true ts).length

/-- The strings that are in the block after the decoding loop: those of the decoded text, the empty one of
the second null, and what is behind it of a string with escapes. -/
def queryStrings (ts : List QueryToken) : List Bytes :=
  (decodedTokens true ts).splitOn 0 ++ [] :: if behind ts = [] then [] else [(behind ts).drop 2]

def nullEnded (ws : List Bytes) : Bytes := ws.flatMap (· ++ [0])

theorem nullEnded_splitOn (s : Bytes) : nullEnded (s.splitOn 0) = s ++ [0] := by
  unfold nullEnded
  have hjoin : List.intercalate [0] (s.splitOn 0) = s := List.intercalate_splitOn 0
  conv_rhs => rw [← hjoin]
  have hne := List.splitOn_ne_nil 0 s
  generalize s.splitOn 0 = ws at hne
  induction ws with
  | nil => exact absurd rfl hne
  | cons w ws ih =>
    cases ws with
    | nil => simp
    | cons w' ws =>
      rw [List.flatMap_cons, ih (List.cons_ne_nil _ _), List.intercalate_cons_cons]
      simp only [List.append_assoc]

theorem length_decodedTokens (isname : Bool) (ts : List QueryToken) : (decodedTokens isname ts).length = ts.length := by
  induction ts generalizing isname with
  | nil => rfl
  | cons t ts ih => rw [decodedTokens, List.length_cons, List.length_cons, ih]

/-- An escape is two bytes longer than what is written for it. -/
theorem length_passed (ts : List QueryToken) :
    (ts.flatMap QueryToken.passed).length = ts.length + 2 * ts.countP QueryToken.isEscape := by
  induction ts with
  | nil => rfl
  | cons t ts ih =>
    rw [List.flatMap_cons, List.length_append, ih, List.countP_cons, List.length_cons]
    cases t <;> simp [QueryToken.passed, QueryToken.source, QueryToken.isEscape] <;> omega

theorem length_behind (ts : List QueryToken) : (behind ts).length = 2 * ts.countP QueryToken.isEscape := by
  unfold behind
  rw [List.length_drop, length_passed, length_decodedTokens]
  omega

theorem zero_not_mem_passed {ts : List QueryToken} (hts : ∀ t ∈ ts, t.Plain) : 0 ∉ ts.flatMap QueryToken.passed := by
  rw [List.mem_flatMap]
  rintro ⟨t, ht, hzero⟩
  have hplain := hts t ht
  cases t with
  | byte c =>
    rw [QueryToken.passed, List.mem_singleton] at hzero
    split at hzero
    · exact absurd hzero (by decide)
    · exact hplain.1 hzero.symm
  | escape x y =>
    obtain ⟨hx, hy⟩ := hplain
    simp only [QueryToken.passed, QueryToken.source, List.mem_cons, List.not_mem_nil, or_false] at hzero
    obtain h | h | h := hzero
    · exact absurd h (by decide)
    · exact hx h.symm
    · exact hy h.symm
  | amp => exact absurd hzero (by decide)
  | equal => exact absurd hzero (by decide)

theorem zero_not_mem_queryStrings {ts : List QueryToken} (hts : ∀ t ∈ ts, t.Plain) :
    ∀ w ∈ queryStrings ts, ∀ x ∈ w, x ≠ 0 := by
  intro w hw x hx hzero
  subst hzero
  unfold queryStrings at hw
  rw [List.mem_append, List.mem_cons] at hw
  obtain hw | rfl | hw := hw
  · exact not_mem_of_mem_splitOn 0 _ w hw hx
  · cases hx
  · split at hw
    · cases hw
    · rw [List.mem_singleton] at hw
      subst hw
      exact zero_not_mem_passed hts (List.mem_of_mem_drop (List.mem_of_mem_drop hx))

theorem nullEnded_queryStrings (ts : List QueryToken) :
    nullEnded (queryStrings ts) = decodedTokens true ts ++ 0 :: 0 :: if behind ts = [] then [] else (behind ts).drop 2 ++ [0] := by
  have happ (ws ws' : List Bytes) : nullEnded (ws ++ ws') = nullEnded ws ++ nullEnded ws' := List.flatMap_append
  unfold queryStrings
  rw [happ, nullEnded_splitOn, List.append_assoc, List.singleton_append]
  split
  · rfl
  · simp [nullEnded]

theorem poke_nulls (out gap rest : Bytes) (x : UInt8) (hgap : gap = [] ∨ 2 ≤ gap.length) :
    ∃ b, poke (out ++ (gap ++ 0 :: x :: rest)) out.length 0 = some b ∧
      poke b (out.length + 1) 0 =
        some (out ++ 0 :: 0 :: (if gap = [] then [] else gap.drop 2 ++ [0]) ++ if gap = [] then rest else x :: rest) := by
  have hnext (y z : UInt8) (tail : Bytes) : poke (out ++ 0 :: z :: tail) (out.length + 1) 0 = some (out ++ 0 :: 0 :: tail) := by
    have h := poke_middle (out ++ [0]) z tail 0
    rw [List.length_append, List.length_singleton, List.append_assoc, List.append_assoc] at h
    exact h
  match gap, hgap with
  | [], _ =>
    refine ⟨_, poke_middle out 0 (x :: rest) 0, ?_⟩
    rw [hnext 0 x rest]
    simp
  | y :: z :: gap, _ =>
    refine ⟨_, poke_middle out y (z :: gap ++ 0 :: x :: rest) 0, ?_⟩
    rw [List.cons_append, hnext y z]
    simp
  | [y], hgap =>
    obtain h | h := hgap
    · cases h
    · exact absurd h (by simp)

theorem decodeLoop_null {read out : Bytes} (hle : out.length ≤ read.length) (fuel : Nat) (free : Bytes) (hadEqual isname : Bool)
    (num : Nat) :
    decodeLoop (fuel + 1) (passedBlock read out (0 :: free)) read.length out.length hadEqual isname num =
      .ok (passedBlock read out (0 :: free), out.length, num) := by
  have hget : (passedBlock read out (0 :: free))[read.length]? = some 0 := passedBlock_get hle 0
  rw [decodeLoop]
  simp only [hget, inContent, bind, Except.bind, if_true]

theorem length_le_source (ts : List QueryToken) : ts.length ≤ (ts.flatMap QueryToken.source).length := by
  induction ts with
  | nil => exact Nat.le_refl _
  | cons t ts ih =>
    have hpos : 0 < t.source.length := by cases t <;> exact Nat.succ_pos _
    rw [List.flatMap_cons, List.length_append, List.length_cons]
    omega

/-- The loop takes the tokens of a string, and comes to a cut off `%` or to the null. -/
theorem decodeLoop_query (hnull : 0 ∉ s) (free : Bytes) :
    ∃ hadEqual isname, decodeLoop ((s ++ 0 :: free).length + 1) (s ++ 0 :: free) 0 0 false true 0 =
      if ampAlone false (queryTokens s).1 = true then
        .error (.report "Malformed URL request, encountered ampersand without prior name=value" [])
      else decodeLoop ((s ++ 0 :: free).length - (queryTokens s).1.length + 1)
        (passedBlock ((queryTokens s).1.flatMap QueryToken.passed) (decodedTokens true (queryTokens s).1)
          ((queryTokens s).2 ++ 0 :: free))
        ((queryTokens s).1.flatMap QueryToken.passed).length (decodedTokens true (queryTokens s).1).length hadEqual isname
        ((queryTokens s).1.count .equal) := by
  obtain ⟨hs, -, hplain⟩ := queryTokens_spec s
  replace hplain := hplain hnull
  generalize (queryTokens s).1 = ts at hs hplain
  generalize (queryTokens s).2 = cut at hs
  have hlen := length_le_source ts
  have hlen' := congrArg List.length hs
  rw [List.length_append] at hlen'
  have hfuel : (s ++ 0 :: free).length + 1 = ts.length + ((s ++ 0 :: free).length - ts.length + 1) := by
    rw [List.length_append]
    omega
  have hblock : s ++ 0 :: free = passedBlock [] [] (ts.flatMap QueryToken.source ++ (cut ++ 0 :: free)) := by
    conv_lhs => rw [hs, List.append_assoc]
    rfl
  have hzero : ([] : Bytes).length ≤ ([] : Bytes).length := Nat.le_refl _
  obtain ⟨hadEqual', isname', hloop⟩ := @decodeLoop_tokens [] [] (cut ++ 0 :: free) ts hplain
    ((s ++ 0 :: free).length - ts.length + 1) hzero false true 0
  simp only [List.nil_append, List.length_nil, Nat.zero_add] at hloop
  rw [← hblock, ← hfuel] at hloop
  exact ⟨hadEqual', isname', hloop⟩

theorem decoded_le_passed (ts : List QueryToken) :
    (decodedTokens true ts).length ≤ (ts.flatMap QueryToken.passed).length := by
  rw [length_decodedTokens, length_passed]
  omega

/-- The decoding of a string: where there is no error, its strings are at the front of the block. -/
theorem decodeContent_query (hnull : 0 ∉ s) (hcut : (queryTokens s).2 = []) (x : UInt8) (stale : Bytes) :
    decodeContent (s ++ 0 :: x :: stale) =
      if ampAlone false (queryTokens s).1 = true then
        .error (.report "Malformed URL request, encountered ampersand without prior name=value" [])
      else .ok (nullEnded (queryStrings (queryTokens s).1) ++
        (if behind (queryTokens s).1 = [] then stale else x :: stale), (queryTokens s).1.count .equal) := by
  obtain ⟨hadEqual, isname, hloop⟩ := decodeLoop_query hnull (x :: stale)
  rw [hcut, List.nil_append, decodeLoop_null (decoded_le_passed _)] at hloop
  generalize (queryTokens s).1 = ts at hloop
  unfold decodeContent
  rw [hloop]
  by_cases halone : ampAlone false ts = true
  · rw [if_pos halone, if_pos halone]
    rfl
  · have hgap : behind ts = [] ∨ 2 ≤ (behind ts).length := by
      rw [← List.length_eq_zero_iff, length_behind]
      omega
    obtain ⟨b, hb, hb'⟩ := poke_nulls (decodedTokens true ts) (behind ts) stale x hgap
    rw [if_neg halone, if_neg halone, nullEnded_queryStrings]
    have hpass : passedBlock (ts.flatMap QueryToken.passed) (decodedTokens true ts) (0 :: x :: stale) =
        decodedTokens true ts ++ (behind ts ++ 0 :: x :: stale) := rfl
    simp only [hpass, bind, Except.bind, hb, hb', inContent]

/-- A lone `&` is an error, whatever is behind it. -/
theorem decodeContent_alone (hnull : 0 ∉ s) (halone : ampAlone false (queryTokens s).1 = true) (free : Bytes) :
    decodeContent (s ++ 0 :: free) =
      .error (.report "Malformed URL request, encountered ampersand without prior name=value" []) := by
  obtain ⟨hadEqual, isname, hloop⟩ := decodeLoop_query hnull free
  rw [if_pos halone] at hloop
  rw [decodeContent, hloop]
  rfl

/-- The loop is undefined outside the block. -/
theorem decodeLoop_outside {content : Bytes} {i : Nat} (h : content.length ≤ i) (fuel j : Nat) (hadEqual isname : Bool) (num : Nat) :
    decodeLoop fuel content i j hadEqual isname num = .error .undefined := by
  cases fuel with
  | zero => rfl
  | succ fuel =>
    rw [decodeLoop, List.getElem?_eq_none h]
    rfl

/-- At a `%` with less than two bytes after it, the null is taken as one of them. -/
theorem decodeLoop_pct {read out cut : Bytes} (hcut : cut = [37] ∨ ∃ x, cut = [37, x]) (hle : out.length ≤ read.length)
    (fuel : Nat) (hadEqual isname : Bool) (num : Nat) :
    decodeLoop (fuel + 1) (passedBlock read out (cut ++ [0])) read.length out.length hadEqual isname num =
      .error .undefined := by
  have hget (k : Nat) : (passedBlock read out (cut ++ [0]))[read.length + k]? = (cut ++ [0])[k]? := passedBlock_get hle k
  have hname : ¬ (isname = true ∧ (37 : UInt8) = 45) := fun h => absurd h.2 (by decide)
  have hzero : ¬ (37 : UInt8) = 0 := by decide
  have hplus : ¬ (37 : UInt8) = 43 := by decide
  have hget₀ : (passedBlock read out (cut ++ [0]))[read.length]? = some 37 := by
    refine (hget 0).trans ?_
    obtain rfl | ⟨x, rfl⟩ := hcut <;> rfl
  have hpoke : poke (passedBlock read out (cut ++ [0])) read.length 37 = some (passedBlock read out (cut ++ [0])) := by
    obtain rfl | ⟨x, rfl⟩ := hcut
    · exact poke_rest hle 37
    · exact poke_rest hle 37
  rw [decodeLoop]
  simp only [hget₀, inContent, bind, Except.bind, if_neg hzero, if_neg hplus, hpoke, if_neg hname, if_true, hget]
  obtain rfl | ⟨x, rfl⟩ := hcut
  · rfl
  · have hwrite (b : UInt8) : poke (passedBlock read out ([37, x] ++ [0])) out.length b =
        some (passedBlock (read ++ [37, x, 0]) (out ++ [b]) []) := by
      have h := @poke_passed read out [] hle [37, x, 0] (List.cons_ne_nil 37 [x, 0]) b
      rw [List.append_nil] at h
      exact h
    have hlen (b : UInt8) : (passedBlock (read ++ [37, x, 0]) (out ++ [b]) []).length ≤ read.length + 3 := by
      unfold passedBlock
      simp only [List.length_append, List.length_drop, List.length_cons, List.length_nil]
      omega
    simp only [List.cons_append, List.nil_append, List.getElem?_cons_succ, List.getElem?_cons_zero]
    simp only [List.cons_append, List.nil_append] at hwrite
    simp only [hwrite]
    exact decodeLoop_outside (hlen _) _ _ _ _ _

/-- The loop leaves a string that it takes to a cut off `%`, and no other. -/
theorem decodeLoop_within_iff (hnull : 0 ∉ s) :
    decodeLoop ((s ++ [0]).length + 1) (s ++ [0]) 0 0 false true 0 ≠ .error .undefined ↔
      (ampAlone false (queryTokens s).1 = true ∨ (queryTokens s).2 = []) := by
  obtain ⟨hadEqual, isname, hloop⟩ := decodeLoop_query hnull []
  rw [hloop]
  obtain ⟨-, hcuts, -⟩ := queryTokens_spec s
  by_cases halone : ampAlone false (queryTokens s).1 = true
  · rw [if_pos halone]
    exact iff_of_true (fun h => nomatch h) (Or.inl halone)
  rw [if_neg halone]
  obtain hcut | hcut := hcuts
  · rw [hcut, List.nil_append, decodeLoop_null (decoded_le_passed _)]
    exact iff_of_true (fun h => nomatch h) (Or.inr rfl)
  · have hne : (queryTokens s).2 ≠ [] := by
      obtain h | ⟨x, h⟩ := hcut
      · rw [h]
        exact List.cons_ne_nil _ _
      · rw [h]
        exact List.cons_ne_nil _ _
    rw [decodeLoop_pct hcut (decoded_le_passed _)]
    exact iff_of_false (not_not_intro rfl) (not_or.mpr ⟨halone, hne⟩)

end Strings

/-! ## Names and values -/

section Params

variable {δ : Type} (str2num : Bytes → Option Int) (str2dbl : Bytes → Option δ)

def stringNames : List Bytes → List Bytes
  | [] => []
  | [n] => [n]
  | n :: _ :: ws => n :: stringNames ws

/-- The parameters of strings, as many as are asked for. -/
def setStrings : Nat → List Bytes → List (RimIpar δ) → Except InputFault (List (RimIpar δ))
  | num + 1, n :: v :: ws, pars => do
    let pars ← setPar str2num str2dbl pars n (trim isspace v)
    setStrings num ws pars
  | _, _, pars => .ok pars

/-- Where there are strings enough, the loop takes those. -/
theorem paramLoop_enough {ws : List Bytes} (hws : ∀ w ∈ ws, ∀ x ∈ w, x ≠ 0) {num : Nat} (henough : 2 * num ≤ ws.length)
    (pre stale : Bytes) (pars : List (RimIpar δ)) :
    paramLoop str2num str2dbl num (pre ++ (nullEnded ws ++ stale)) pre.length pars =
      setStrings str2num str2dbl num ws pars := by
  induction num generalizing ws pre pars with
  | zero => rfl
  | succ num ih =>
    match ws, hws, henough with
    | n :: v :: ws, hws, henough =>
      obtain ⟨hn, hws⟩ := List.forall_mem_cons.mp hws
      obtain ⟨hv, hws⟩ := List.forall_mem_cons.mp hws
      obtain ⟨pre', hstep⟩ := paramLoop_pair str2num str2dbl hn hv pre (nullEnded ws ++ stale) num pars
      have hblock : nullEnded (n :: v :: ws) ++ stale = n ++ 0 :: (v ++ 0 :: (nullEnded ws ++ stale)) := by
        simp [nullEnded]
      rw [hblock, hstep, setStrings]
      cases setPar str2num str2dbl pars n (trim isspace v) with
      | error e => rfl
      | ok pars' => exact ih hws (by simp only [List.length_cons] at henough; omega) pre' pars'
    | [], _, henough => exact absurd henough (by simp)
    | [n], _, henough =>
      rw [List.length_singleton] at henough
      omega

/-- A parameter that can be set: there is one with the name, and the first one was not set yet. -/
def Available (pars : List (RimIpar δ)) (n : Bytes) : Prop := ∃ i, rimFindPar pars n = .ok i

theorem rimFindPar_eq_ok {pars : List (RimIpar δ)} {n : Bytes} {i : Nat} :
    rimFindPar pars n = .ok i ↔ ∃ p, (pars.findIdx? fun p => p.name = n) = some i ∧ pars[i]? = some p ∧ p.name = n ∧
      p.set = false := by
  unfold rimFindPar
  cases hfind : pars.findIdx? fun p => p.name = n with
  | none => simp
  | some k =>
    obtain ⟨hk, hname, -⟩ := List.findIdx?_eq_some_iff_getElem.mp hfind
    rw [decide_eq_true_iff] at hname
    have hget := List.getElem?_eq_getElem hk
    simp only [hget]
    constructor
    · intro h
      split at h
      · cases h
      · next hset =>
        obtain rfl := Except.ok.inj h
        exact ⟨_, rfl, hget, hname, Bool.not_eq_true _ ▸ hset⟩
    · rintro ⟨p, hk', hget', -, hset⟩
      obtain rfl := Option.some.inj hk'
      rw [hget, Option.some.injEq] at hget'
      rw [hget', hset]
      rfl

/-- What it is to set a parameter: one that can be set is marked, and the names stay. -/
theorem setPar_eq_ok {pars pars' : List (RimIpar δ)} {n v : Bytes} (h : setPar str2num str2dbl pars n v = .ok pars') :
    ∃ i p', rimFindPar pars n = .ok i ∧ pars' = pars.set i p' ∧ p'.name = n ∧ p'.set = true := by
  unfold setPar at h
  cases hfind : rimFindPar pars n with
  | error e =>
    rw [hfind] at h
    cases h
  | ok i =>
    obtain ⟨p, -, hget, hname, -⟩ := rimFindPar_eq_ok.mp hfind
    rw [hfind] at h
    simp only [bind, Except.bind, hget, inContent] at h
    have hcheck : ∀ q p' : RimIpar δ, rimCheckWebParamType str2num str2dbl n q v = .ok p' → p'.name = q.name ∧ p'.set = true := by
      intro q p' hq
      unfold rimCheckWebParamType at hq
      split at hq
      · obtain rfl := Except.ok.inj hq
        exact ⟨rfl, rfl⟩
      · split at hq
        · obtain rfl := Except.ok.inj hq
          exact ⟨rfl, rfl⟩
        · cases hq
      · split at hq
        · obtain rfl := Except.ok.inj hq
          exact ⟨rfl, rfl⟩
        · cases hq
      · split_ifs at hq
        · obtain rfl := Except.ok.inj hq
          exact ⟨rfl, rfl⟩
        · obtain rfl := Except.ok.inj hq
          exact ⟨rfl, rfl⟩
      · cases hq
    cases hq : rimCheckWebParamType str2num str2dbl n { p with tval := .value v } v with
    | error e =>
      rw [hq] at h
      cases h
    | ok p' =>
      rw [hq] at h
      obtain ⟨hname', hset⟩ := hcheck _ _ hq
      exact ⟨i, p', rfl, (Except.ok.inj h).symm, hname'.trans hname, hset⟩

/-- Setting a parameter takes away its name, and no other. -/
theorem available_set {pars : List (RimIpar δ)} {n : Bytes} {i : Nat} {p' : RimIpar δ} (hfind : rimFindPar pars n = .ok i)
    (hname : p'.name = n) (hset : p'.set = true) (m : Bytes) :
    Available (pars.set i p') m ↔ Available pars m ∧ m ≠ n := by
  obtain ⟨p, hidx, hget, hpname, -⟩ := rimFindPar_eq_ok.mp hfind
  obtain ⟨hi, rfl⟩ := List.getElem?_eq_some_iff.mp hget
  have hnames : (pars.set i p').map RimIpar.name = pars.map RimIpar.name := by
    have hi' : i < (pars.map RimIpar.name).length := by rwa [List.length_map]
    have hgetn : (pars.map RimIpar.name)[i] = n := by rw [List.getElem_map, hpname]
    rw [List.map_set, hname, ← hgetn]
    exact List.set_getElem_self hi'
  have hfirst (ps : List (RimIpar δ)) : (ps.findIdx? fun p => p.name = m) = (ps.map RimIpar.name).findIdx? fun n => n = m := by
    rw [List.findIdx?_map]
    rfl
  unfold Available
  simp only [rimFindPar_eq_ok, hfirst, hnames]
  constructor
  · rintro ⟨k, q, hk, hgetk, hqname, hqset⟩
    by_cases hik : i = k
    · subst hik
      rw [List.getElem?_set_self hi, Option.some.injEq] at hgetk
      rw [← hgetk, hset] at hqset
      cases hqset
    · rw [List.getElem?_set_ne hik] at hgetk
      refine ⟨⟨k, q, hk, hgetk, hqname, hqset⟩, ?_⟩
      rintro rfl
      rw [hfirst] at hidx
      exact hik (Option.some.inj (hidx.symm.trans hk))
  · rintro ⟨⟨k, q, hk, hgetk, hqname, hqset⟩, hne⟩
    have hik : i ≠ k := by
      rintro rfl
      rw [List.getElem?_eq_getElem hi, Option.some.injEq] at hgetk
      rw [← hgetk, hpname] at hqname
      exact hne hqname.symm
    exact ⟨k, q, hk, by rw [List.getElem?_set_ne hik]; exact hgetk, hqname, hqset⟩

/-- The loop ends at a name that cannot be set. -/
theorem paramLoop_unavailable {n : Bytes} (hn : ∀ x ∈ n, x ≠ 0) (pre rest : Bytes) (num : Nat) {pars : List (RimIpar δ)}
    {e : InputFault} (hfind : rimFindPar pars n = .error e) :
    paramLoop str2num str2dbl (num + 1) (pre ++ (n ++ 0 :: rest)) pre.length pars = .error e := by
  have htake : ((pre ++ (n ++ 0 :: rest)).drop pre.length).take n.length = n := by
    rw [List.drop_left, List.take_left]
  rw [paramLoop, strlen_eq pre hn rest]
  simp only [inContent, bind, Except.bind, htake, hfind]

/-- Where a name comes twice, or one that cannot be set, the loop does not get past the strings. -/
theorem paramLoop_twice {ws : List Bytes} (hws : ∀ w ∈ ws, ∀ x ∈ w, x ≠ 0) {num : Nat} (hmore : ws.length < 2 * num)
    {pars : List (RimIpar δ)} (htwice : ¬ (stringNames ws).Nodup ∨ ∃ n ∈ stringNames ws, ¬ Available pars n) :
    ∃ e, ∀ pre stale, paramLoop str2num str2dbl num (pre ++ (nullEnded ws ++ stale)) pre.length pars = .error e := by
  induction ws using stringNames.induct generalizing num pars with
  | case1 =>
    obtain h | ⟨n, hn, -⟩ := htwice
    · exact absurd List.nodup_nil h
    · cases hn
  | case2 n =>
    obtain ⟨num, rfl⟩ := Nat.exists_eq_succ_of_ne_zero (by omega : num ≠ 0)
    obtain h | ⟨m, hm, hno⟩ := htwice
    · exact absurd (by simp [stringNames]) h
    · obtain rfl := List.mem_singleton.mp hm
      cases hfind : rimFindPar pars m with
      | ok i => exact absurd ⟨i, hfind⟩ hno
      | error e =>
        refine ⟨e, fun pre stale => ?_⟩
        have hblock : nullEnded [m] ++ stale = m ++ 0 :: stale := by simp [nullEnded]
        rw [hblock]
        exact paramLoop_unavailable _ _ (hws m (by simp)) _ _ _ hfind
  | case3 n v ws ih =>
    obtain ⟨hn, hws⟩ := List.forall_mem_cons.mp hws
    obtain ⟨hv, hws⟩ := List.forall_mem_cons.mp hws
    obtain ⟨num, rfl⟩ := Nat.exists_eq_succ_of_ne_zero (by omega : num ≠ 0)
    have hblock (stale : Bytes) : nullEnded (n :: v :: ws) ++ stale = n ++ 0 :: (v ++ 0 :: (nullEnded ws ++ stale)) := by
      simp [nullEnded]
    cases hset : setPar str2num str2dbl pars n (trim isspace v) with
    | error e =>
      refine ⟨e, fun pre stale => ?_⟩
      obtain ⟨pre', hstep⟩ := paramLoop_pair str2num str2dbl hn hv pre (nullEnded ws ++ stale) num pars
      rw [hblock, hstep, hset]
      rfl
    | ok pars' =>
      -- the name was set, so the others that cannot be set still cannot, nor can it
      obtain ⟨i, p', hfind, rfl, hname, hmark⟩ := setPar_eq_ok str2num str2dbl hset
      have havail := available_set hfind hname hmark
      have hrest : ¬ (stringNames ws).Nodup ∨ ∃ m ∈ stringNames ws, ¬ Available (pars.set i p') m := by
        simp only [havail]
        obtain h | ⟨m, hm, hno⟩ := htwice
        · rw [stringNames, List.nodup_cons, not_and_or, not_not] at h
          obtain h | h := h
          · exact Or.inr ⟨n, h, fun h => h.2 rfl⟩
          · exact Or.inl h
        · rw [stringNames, List.mem_cons] at hm
          obtain rfl | hm := hm
          · exact absurd ⟨i, hfind⟩ hno
          · exact Or.inr ⟨m, hm, fun h => hno h.1⟩
      have hmore' : ws.length < 2 * num := by
        simp only [List.length_cons] at hmore
        omega
      obtain ⟨e, he⟩ := ih hws hmore' hrest
      refine ⟨e, fun pre stale => ?_⟩
      obtain ⟨pre', hstep⟩ := paramLoop_pair str2num str2dbl hn hv pre (nullEnded ws ++ stale) num pars
      rw [hblock, hstep, hset]
      exact he pre' stale

/-- A string that has no null is read past the block. -/
theorem strlen_none (pre : Bytes) {stale : Bytes} (hstale : 0 ∉ stale) : strlen (pre ++ stale) pre.length = none := by
  have hloop (n : Nat) : strlenLoop stale n = none := by
    induction stale generalizing n with
    | nil => rfl
    | cons c stale ih =>
      rw [List.mem_cons, not_or] at hstale
      rw [strlenLoop, if_neg (Ne.symm hstale.1), ih hstale.2]
  rw [strlen, List.drop_left, hloop]

/-- Where all names can be set, the loop gets to what is behind the strings. -/
theorem paramLoop_past {ws : List Bytes} (hws : ∀ w ∈ ws, ∀ x ∈ w, x ≠ 0) {num : Nat} (hmore : ws.length < 2 * num)
    (hnodup : (stringNames ws).Nodup) {pars : List (RimIpar δ)} (hstring : ∀ p ∈ pars, p.type = .string)
    (havail : ∀ n ∈ stringNames ws, Available pars n) (pre : Bytes) {stale : Bytes} (hstale : 0 ∉ stale) :
    paramLoop str2num str2dbl num (pre ++ (nullEnded ws ++ stale)) pre.length pars = .error .undefined := by
  induction ws using stringNames.induct generalizing num pars pre with
  | case1 =>
    obtain ⟨num, rfl⟩ := Nat.exists_eq_succ_of_ne_zero (by omega : num ≠ 0)
    have hname : strlen (pre ++ (nullEnded [] ++ stale)) pre.length = none := strlen_none pre hstale
    rw [paramLoop, hname]
    rfl
  | case2 n =>
    obtain ⟨num, rfl⟩ := Nat.exists_eq_succ_of_ne_zero (by omega : num ≠ 0)
    have hblock : nullEnded [n] ++ stale = n ++ 0 :: stale := by simp [nullEnded]
    have hname := strlen_eq pre (hws n (by simp)) stale
    have htake : ((pre ++ (n ++ 0 :: stale)).drop pre.length).take n.length = n := by
      rw [List.drop_left, List.take_left]
    have hvalue : strlen (pre ++ (n ++ 0 :: stale)) (pre.length + n.length + 1) = none := by
      have h := strlen_none (pre ++ (n ++ [0])) hstale
      simp only [List.append_assoc, List.length_append, List.singleton_append, List.length_singleton,
        ← Nat.add_assoc] at h
      exact h
    obtain ⟨i, hfind⟩ := havail n (by simp [stringNames])
    rw [hblock, paramLoop]
    simp only [hname, inContent, bind, Except.bind, htake, hfind, hvalue]
  | case3 n v ws ih =>
    obtain ⟨hn, hws⟩ := List.forall_mem_cons.mp hws
    obtain ⟨hv, hws⟩ := List.forall_mem_cons.mp hws
    obtain ⟨num, rfl⟩ := Nat.exists_eq_succ_of_ne_zero (by omega : num ≠ 0)
    rw [stringNames] at hnodup havail
    obtain ⟨hfirst, hnodup⟩ := List.nodup_cons.mp hnodup
    obtain ⟨⟨i, hfind⟩, havail⟩ := List.forall_mem_cons.mp havail
    obtain ⟨p, -, hget, -, -⟩ := rimFindPar_eq_ok.mp hfind
    have htype : p.type = .string := hstring p (List.mem_of_getElem? hget)
    let p' : RimIpar δ := { p with tval := .value (trim isspace v), alloc := false, set := true }
    have hset : setPar str2num str2dbl pars n (trim isspace v) = .ok (pars.set i p') := by
      unfold setPar rimCheckWebParamType
      simp only [hfind, bind, Except.bind, hget, inContent, htype, p']
    have hname : p'.name = n := by
      obtain ⟨q, -, hget', hq, -⟩ := rimFindPar_eq_ok.mp hfind
      rw [hget, Option.some.injEq] at hget'
      rw [← hq, ← hget']
    have hblock : nullEnded (n :: v :: ws) ++ stale = n ++ 0 :: (v ++ 0 :: (nullEnded ws ++ stale)) := by
      simp [nullEnded]
    have hmore' : ws.length < 2 * num := by
      simp only [List.length_cons] at hmore
      omega
    have hstring' : ∀ q ∈ pars.set i p', q.type = .string := by
      intro q hq
      obtain hq | rfl := List.mem_or_eq_of_mem_set hq
      · exact hstring q hq
      · exact htype
    have havail' : ∀ m ∈ stringNames ws, Available (pars.set i p') m := by
      intro m hm
      refine (available_set hfind hname rfl m).mpr ⟨havail m hm, ?_⟩
      rintro rfl
      exact hfirst hm
    obtain ⟨pre', hstep⟩ := paramLoop_pair str2num str2dbl hn hv pre (nullEnded ws ++ stale) num pars
    rw [hblock, hstep, hset]
    exact ih hws hmore' hnodup hstring' havail' pre'

theorem rimFindPar_defined (pars : List (RimIpar δ)) (n : Bytes) : rimFindPar pars n ≠ .error .undefined := by
  unfold rimFindPar
  cases hfind : pars.findIdx? fun p => p.name = n with
  | none => exact fun h => nomatch h
  | some k =>
    obtain ⟨hk, -, -⟩ := List.findIdx?_eq_some_iff_getElem.mp hfind
    simp only [List.getElem?_eq_getElem hk]
    split
    · exact fun h => nomatch h
    · exact fun h => nomatch h

theorem rimCheckWebParamType_defined (n : Bytes) (p : RimIpar δ) (sv : Bytes) :
    rimCheckWebParamType str2num str2dbl n p sv ≠ .error .undefined := by
  unfold rimCheckWebParamType
  split
  · exact fun h => nomatch h
  · split
    · exact fun h => nomatch h
    · exact fun h => nomatch h
  · split
    · exact fun h => nomatch h
    · exact fun h => nomatch h
  · split_ifs
    · exact fun h => nomatch h
    · exact fun h => nomatch h
    · exact fun h => nomatch h
  · exact fun h => nomatch h

theorem setPar_defined (pars : List (RimIpar δ)) (n v : Bytes) : setPar str2num str2dbl pars n v ≠ .error .undefined := by
  intro h
  unfold setPar at h
  cases hfind : rimFindPar pars n with
  | error e =>
    rw [hfind] at h
    rw [Except.error.inj h] at hfind
    exact rimFindPar_defined pars n hfind
  | ok i =>
    obtain ⟨p, -, hget, -, -⟩ := rimFindPar_eq_ok.mp hfind
    rw [hfind] at h
    simp only [bind, Except.bind, hget, inContent] at h
    cases hq : rimCheckWebParamType str2num str2dbl n { p with tval := .value v } v with
    | error e =>
      rw [hq] at h
      rw [Except.error.inj h] at hq
      exact rimCheckWebParamType_defined str2num str2dbl _ _ _ hq
    | ok p' =>
      rw [hq] at h
      cases h

/-- Setting parameters is never undefined. -/
theorem setStrings_defined (num : Nat) (ws : List Bytes) (pars : List (RimIpar δ)) :
    setStrings str2num str2dbl num ws pars ≠ .error .undefined := by
  induction num generalizing ws pars with
  | zero => exact fun h => nomatch h
  | succ num ih =>
    match ws with
    | [] => exact fun h => nomatch h
    | [n] => exact fun h => nomatch h
    | n :: v :: ws =>
      rw [setStrings]
      cases hset : setPar str2num str2dbl pars n (trim isspace v) with
      | error e =>
        intro h
        rw [Except.error.inj h] at hset
        exact setPar_defined str2num str2dbl _ _ _ hset
      | ok pars' => exact ih ws pars'

theorem available_of_mem {pars : List (RimIpar δ)} (hset : ∀ p ∈ pars, p.set = false) {n : Bytes}
    (hn : n ∈ pars.map RimIpar.name) : Available pars n := by
  obtain ⟨p, hp, hname⟩ := List.mem_map.mp hn
  cases hfind : pars.findIdx? fun p => p.name = n with
  | none =>
    have hno := List.findIdx?_eq_none_iff.mp hfind p hp
    rw [decide_eq_false_iff_not] at hno
    exact absurd hname hno
  | some k =>
    obtain ⟨hk, hkname, -⟩ := List.findIdx?_eq_some_iff_getElem.mp hfind
    rw [decide_eq_true_iff] at hkname
    exact ⟨k, rimFindPar_eq_ok.mpr ⟨_, hfind, List.getElem?_eq_getElem hk, hkname, hset _ (List.getElem_mem hk)⟩⟩

end Params

/-! ## The string and what is behind it -/

theorem count_decodedTokens (isname : Bool) {ts : List QueryToken} (hts : ∀ t ∈ ts, t.Plain) :
    (decodedTokens isname ts).count 0 = ts.count .amp + ts.count .equal + ts.countP QueryToken.isNull := by
  induction ts generalizing isname with
  | nil => rfl
  | cons t ts ih =>
    obtain ⟨ht, hts⟩ := List.forall_mem_cons.mp hts
    rw [decodedTokens, List.count_cons, ih _ hts, List.count_cons, List.count_cons, List.countP_cons]
    cases t with
    | byte c =>
      have hne : QueryToken.decoded isname (.byte c) ≠ 0 := by
        simp only [QueryToken.decoded]
        split_ifs
        · decide
        · decide
        · exact ht.1
      simp [hne, QueryToken.isNull]
    | escape x y => simp [QueryToken.decoded, QueryToken.isNull]; omega
    | amp => simp [QueryToken.decoded, QueryToken.isNull]; omega
    | equal => simp [QueryToken.decoded, QueryToken.isNull]; omega

theorem length_of_nullEnded {ws : List Bytes} (hws : ∀ w ∈ ws, 0 ∉ w) : ws.length = (nullEnded ws).count 0 := by
  induction ws with
  | nil => rfl
  | cons w ws ih =>
    obtain ⟨hw, hws⟩ := List.forall_mem_cons.mp hws
    have hcons : nullEnded (w :: ws) = w ++ [0] ++ nullEnded ws := List.flatMap_cons
    rw [hcons, List.count_append, List.count_append, List.count_eq_zero_of_not_mem hw, List.length_cons, ih hws]
    simp [Nat.add_comm]

/-- As many strings as there are separators and encoded nulls, and two more, or three where there
are escapes. -/
theorem length_queryStrings {ts : List QueryToken} (hts : ∀ t ∈ ts, t.Plain) :
    (queryStrings ts).length =
      ts.count .amp + ts.count .equal + ts.countP QueryToken.isNull + 2 + if ts.any QueryToken.isEscape then 1 else 0 := by
  have hsplit : ((decodedTokens true ts).splitOn 0).length = (decodedTokens true ts).count 0 + 1 := by
    rw [length_of_nullEnded (fun w hw => not_mem_of_mem_splitOn 0 _ w hw), nullEnded_splitOn, List.count_append]
    rfl
  have hbehind : behind ts = [] ↔ ¬ ts.any QueryToken.isEscape = true := by
    rw [← List.length_eq_zero_iff, length_behind, List.any_eq_true, not_exists]
    constructor
    · intro h t ht
      exact List.countP_eq_zero.mp (by omega) t ht.1 ht.2
    · intro h
      rw [List.countP_eq_zero.mpr fun t ht hesc => h t ⟨ht, hesc⟩]
  unfold queryStrings
  rw [List.length_append, hsplit, count_decodedTokens true hts, List.length_cons]
  by_cases hesc : ts.any QueryToken.isEscape = true
  · rw [if_pos hesc, if_neg (fun h => hbehind.mp h hesc)]
    rfl
  · rw [if_neg hesc, if_pos (hbehind.mpr hesc)]
    rfl

/-- Where the bytes behind a string do not matter: the decoding loop stays within the string, the two
nulls are set within it or at most one byte behind its null, and whatever the block has there, the
parameters are the same. -/
def KeepsToQuery (s : Bytes) : Prop :=
  decodeLoop ((s ++ [0]).length + 1) (s ++ [0]) 0 0 false true 0 ≠ .error .undefined ∧
    (∀ x, decodeContent (s ++ [0, x]) ≠ .error .undefined) ∧
    ∀ (δ : Type) (str2num : Bytes → Option Int) (str2dbl : Bytes → Option δ) (pars : List (RimIpar δ))
      (stale stale' : Bytes), stale ≠ [] → stale' ≠ [] →
      inputParams str2num str2dbl (s ++ 0 :: stale) pars = inputParams str2num str2dbl (s ++ 0 :: stale') pars

/-- A lone `&` comes before any `%` with less than two bytes after it; or there is no such `%`, and there are
not so many `=` that names and values are taken from behind the strings, unless a name comes twice
before that. -/
def QueryFits (s : Bytes) : Prop :=
  ampAlone false (queryTokens s).1 = true ∨
    (queryTokens s).2 = [] ∧
      ((queryTokens s).1.count .equal ≤ (queryTokens s).1.count .amp + (queryTokens s).1.countP QueryToken.isNull + 2 +
          (if (queryTokens s).1.any QueryToken.isEscape then 1 else 0) ∨
        ¬ (stringNames (queryStrings (queryTokens s).1)).Nodup)

/-- What is behind the strings matters if names and values are taken from there, and all names before
can be set. -/
theorem inputParams_differ {s : Bytes} (hnull : 0 ∉ s) (halone : ¬ ampAlone false (queryTokens s).1 = true)
    (hcut : (queryTokens s).2 = [])
    (hmore : (queryStrings (queryTokens s).1).length < 2 * (queryTokens s).1.count .equal)
    (hnodup : (stringNames (queryStrings (queryTokens s).1)).Nodup) :
    ∃ (pars : List (RimIpar Unit)) (stale stale' : Bytes), stale ≠ [] ∧ stale' ≠ [] ∧
      inputParams (fun _ => none) (fun _ => none) (s ++ 0 :: stale) pars ≠
        inputParams (fun _ => none) (fun _ => none) (s ++ 0 :: stale') pars := by
  obtain ⟨-, -, hplain⟩ := queryTokens_spec s
  replace hplain := hplain hnull
  have hcontent := decodeContent_query hnull hcut
  generalize (queryTokens s).1 = ts at hplain hcontent hmore hnodup halone
  have hws := zero_not_mem_queryStrings hplain
  simp only [if_neg halone] at hcontent
  let pars : List (RimIpar Unit) := (stringNames (queryStrings ts)).map fun n => { name := n }
  have hnew : ∀ p ∈ pars, p.type = .string ∧ p.set = false := by
    intro p hp
    obtain ⟨n, -, rfl⟩ := List.mem_map.mp hp
    exact ⟨rfl, rfl⟩
  have havail : ∀ n ∈ stringNames (queryStrings ts), Available pars n := by
    intro n hn
    refine available_of_mem (fun p hp => (hnew p hp).2) (List.mem_map.mpr ⟨{ name := n }, ?_, rfl⟩)
    exact List.mem_map.mpr ⟨n, hn, rfl⟩
  refine ⟨pars, [1], 0 :: List.replicate (2 * ts.count .equal) 0, List.cons_ne_nil _ _, List.cons_ne_nil _ _, ?_⟩
  have hundef : inputParams (fun _ => none) (fun _ => none) (s ++ 0 :: [1]) pars = .error .undefined := by
    have hstale : 0 ∉ (if behind ts = [] then [] else [(1 : UInt8)]) := by
      split
      · exact List.not_mem_nil
      · decide
    have hloop := paramLoop_past (fun _ => none) (fun _ => none) hws hmore hnodup (fun p hp => (hnew p hp).1) havail []
      hstale
    rw [inputParams, hcontent 1 []]
    exact hloop
  have hdef : inputParams (fun _ => none) (fun _ => none) (s ++ 0 :: 0 :: List.replicate (2 * ts.count .equal) 0) pars ≠
      .error .undefined := by
    have hzeros : ∃ k, 2 * ts.count .equal ≤ k ∧
        (if behind ts = [] then List.replicate (2 * ts.count .equal) (0 : UInt8)
          else 0 :: List.replicate (2 * ts.count .equal) 0) = nullEnded (List.replicate k []) := by
      have hnulls (k : Nat) : nullEnded (List.replicate k []) = List.replicate k 0 := by
        induction k with
        | zero => rfl
        | succ k ih =>
          rw [List.replicate_succ, List.replicate_succ, ← ih]
          rfl
      split
      · exact ⟨_, Nat.le_refl _, (hnulls _).symm⟩
      · exact ⟨_, Nat.le_succ _, (hnulls (2 * ts.count .equal + 1)).symm⟩
    obtain ⟨k, hk, hzeros⟩ := hzeros
    have happ : nullEnded (queryStrings ts) ++ nullEnded (List.replicate k []) =
        nullEnded (queryStrings ts ++ List.replicate k []) := List.flatMap_append.symm
    have hall : ∀ w ∈ queryStrings ts ++ List.replicate k [], ∀ x ∈ w, x ≠ 0 := by
      intro w hw
      obtain hw | hw := List.mem_append.mp hw
      · exact hws w hw
      · rw [List.eq_of_mem_replicate hw]
        exact fun _ h => nomatch h
    have henough : 2 * ts.count .equal ≤ (queryStrings ts ++ List.replicate k []).length := by
      rw [List.length_append, List.length_replicate]
      omega
    have hloop := paramLoop_enough (fun _ => none) (fun _ => (none : Option Unit)) hall henough [] [] pars
    rw [List.append_nil] at hloop
    have hset : inputParams (fun _ => none) (fun _ => none) (s ++ 0 :: 0 :: List.replicate (2 * ts.count .equal) 0) pars =
        setStrings (fun _ => none) (fun _ => none) (ts.count .equal) (queryStrings ts ++ List.replicate k []) pars := by
      rw [inputParams, hcontent 0 _, hzeros, happ]
      exact hloop
    rw [hset]
    exact setStrings_defined _ _ _ _ _
  rw [hundef]
  exact fun h => hdef h.symm

/-- The bytes behind a query string do not matter, in just the case that no `%` is cut off and not too many
`=` are there, or that the code reports an error before. -/
theorem keepsToQuery_iff {s : Bytes} (hnull : 0 ∉ s) : KeepsToQuery s ↔ QueryFits s := by
  obtain ⟨-, -, hplain⟩ := queryTokens_spec s
  replace hplain := hplain hnull
  unfold KeepsToQuery QueryFits
  rw [decodeLoop_within_iff hnull]
  by_cases halone : ampAlone false (queryTokens s).1 = true
  · -- the error comes before anything else
    have hparams (δ : Type) (str2num : Bytes → Option Int) (str2dbl : Bytes → Option δ) (pars : List (RimIpar δ)) (free : Bytes) :
        inputParams str2num str2dbl (s ++ 0 :: free) pars =
          .error (.report "Malformed URL request, encountered ampersand without prior name=value" []) := by
      rw [inputParams, decodeContent_alone hnull halone]
      rfl
    refine iff_of_true ⟨Or.inl halone, ?_, ?_⟩ (Or.inl halone)
    · intro x
      rw [decodeContent_alone hnull halone]
      exact fun h => nomatch h
    · intro δ str2num str2dbl pars stale stale' _ _
      rw [hparams, hparams]
  by_cases hcut : (queryTokens s).2 = []
  · have hcontent := decodeContent_query hnull hcut
    have hws := zero_not_mem_queryStrings hplain
    have hlen := length_queryStrings hplain
    have hdiffer := inputParams_differ hnull halone hcut
    generalize (queryTokens s).1 = ts at halone hcontent hws hlen hdiffer
    simp only [if_neg halone] at hcontent
    have hparams (δ : Type) (str2num : Bytes → Option Int) (str2dbl : Bytes → Option δ) (pars : List (RimIpar δ)) (x : UInt8)
        (stale : Bytes) : inputParams str2num str2dbl (s ++ 0 :: x :: stale) pars =
          paramLoop str2num str2dbl (ts.count .equal)
            (nullEnded (queryStrings ts) ++ if behind ts = [] then stale else x :: stale) 0 pars := by
      rw [inputParams, hcontent]
      rfl
    constructor
    · rintro ⟨-, -, hsame⟩
      refine Or.inr ⟨hcut, ?_⟩
      by_contra hno
      rw [not_or, not_not] at hno
      obtain ⟨pars, stale, stale', hne, hne', hdiff⟩ := hdiffer (by omega) hno.2
      exact hdiff (hsame _ _ _ pars stale stale' hne hne')
    · intro hfits
      refine ⟨Or.inr hcut, ?_, ?_⟩
      · intro x
        rw [hcontent x []]
        exact fun h => nomatch h
      · intro δ str2num str2dbl pars stale stale' hne hne'
        obtain ⟨x, stale, rfl⟩ := List.exists_cons_of_ne_nil hne
        obtain ⟨x', stale', rfl⟩ := List.exists_cons_of_ne_nil hne'
        rw [hparams, hparams]
        by_cases henough : 2 * ts.count .equal ≤ (queryStrings ts).length
        · have hloop (st : Bytes) := paramLoop_enough str2num str2dbl hws henough [] st pars
          simp only [List.nil_append, List.length_nil] at hloop
          rw [hloop, hloop]
        · have htwice : ¬ (stringNames (queryStrings ts)).Nodup := by
            obtain h | ⟨-, h | h⟩ := hfits
            · exact absurd h halone
            · omega
            · exact h
          have hname : ¬ (stringNames (queryStrings ts)).Nodup ∨
              ∃ n ∈ stringNames (queryStrings ts), ¬ Available pars n := Or.inl htwice
          obtain ⟨e, he⟩ := paramLoop_twice str2num str2dbl hws (Nat.lt_of_not_le henough) hname
          have he' (st : Bytes) := he [] st
          simp only [List.nil_append, List.length_nil] at he'
          rw [he', he']
  · exact iff_of_false (fun h => (h.1.resolve_left halone |> hcut)) (fun h => hcut (h.resolve_left halone).1)

/-- `a=%41&b=2` -/
theorem keepsToQuery_escape : KeepsToQuery (ascii "a=%41&b=2") :=
  (keepsToQuery_iff (by decide)).mpr (Or.inr ⟨by decide +kernel, Or.inl (by decide +kernel)⟩)

/-- A `%` at the end takes the null with it. With too many `=`, what an earlier request left becomes
a parameter. -/
theorem not_keepsToQuery :
    ¬ (∀ s : Bytes, 0 ∉ s → KeepsToQuery s) ∧
      inputParams (fun _ => none) (fun _ => (none : Option Unit))
          (ascii "a=b=c=d=e" ++ 0 :: (ascii "&x" ++ 0 :: (ascii "y" ++ [0])))
          [{ name := ascii "a" }, { name := ascii "c" }, { name := ascii "e" }, { name := ascii "x" }] =
        .ok [{ name := ascii "a", set := true, alloc := false, tval := .value (ascii "b") },
          { name := ascii "c", set := true, alloc := false, tval := .value (ascii "d") },
          { name := ascii "e", set := true, alloc := false, tval := .value [] },
          { name := ascii "x", set := true, alloc := false, tval := .value (ascii "y") }] := by
  refine ⟨?_, rfl⟩
  intro h
  have hcut : decodeLoop ((ascii "a=%4" ++ [0]).length + 1) (ascii "a=%4" ++ [0]) 0 0 false true 0 = .error .undefined := rfl
  exact (h (ascii "a=%4") (by decide)).1 hcut

end RimStone
