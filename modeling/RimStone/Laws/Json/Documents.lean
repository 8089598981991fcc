import RimStone.Laws.Json.Step

/-!
# One document after another

What a root call leaves behind is `nulled`. Inside of a document the byte it holds is the
next one to be read: after a number or a literal the call returns, and its caller reads.
Two bytes are left to the next document: the one after a number or a literal that is the
whole value, for a root call has no caller, and the one after a number or a literal that
reaches the end of what is parsed, if the text does not end there.
-/

namespace RimStone

open RimStone.Lib

/-! ## The documents that leave a byte -/

def jsonWhite (c : UInt8) : Bool := jsonToken c = .white

/-- Where a number or a literal at the front of `v` ends. -/
def scalarEnd (v : Bytes) : Option Nat :=
  match jsonToken (v.headD 0) with
  | .number =>
    match rimJsonNum v with
    | .ok (some (_, r)) => some r
    | _ => none
  | .true => if (ascii "true").isPrefixOf v then some 4 else none
  | .false => if (ascii "false").isPrefixOf v then some 5 else none
  | .null => if (ascii "null").isPrefixOf v then some 4 else none
  | _ => none

/-- The whole value is a number or a literal, with a byte directly after it that is no
null. -/
def JsonDoc.bareScalar (d : JsonDoc) : Bool :=
  let k := (d.text.takeWhile jsonWhite).length
  decide (k < d.upTo) &&
    match scalarEnd ((d.text ++ [0]).drop k) with
    | some r => (d.text ++ [0])[k + r]? != some 0
    | none => false

/-- The text is parsed to its end, or what is parsed does not end in a byte that a number
or a literal can have. -/
def JsonDoc.uncut (d : JsonDoc) : Bool :=
  decide (d.upTo = d.vlen) ||
    (decide (d.vlen < 2 ^ 31) && ((d.text.take d.upTo).getLast?.all fun c => !scalarByte c))

def JsonDoc.clean (d : JsonDoc) : Bool := !d.bareScalar && d.uncut

/-! ## What a round keeps -/

/-- The byte that was replaced is one to be read, and the end of the text is as it was. -/
structure Tidy (d : JsonDoc) (st : JsonState) : Prop where
  size : st.val.length = d.vlen + 1
  last : st.val[d.vlen]? = some 0
  within : st.nulled ≠ 0 → st.i < d.upTo
  fine : st.nulled ≠ 0 → st.ec = -1
  unread : d.vlen < 2 ^ 31 → st.ec = -1 → ∀ k, st.i ≤ k → (k = st.i → st.nulled = 0) →
    st.val[k]? = (d.text ++ [0])[k]?

variable {d : JsonDoc} {st st' : JsonState}

theorem Tidy.advance (h : Tidy d st) (hval : st'.val = st.val) (hi : st.i < st'.i) (hn : st'.nulled = 0)
    (hec : st'.ec = st.ec) : Tidy d st' := by
  refine ⟨by rw [hval, h.size], by rw [hval, h.last], fun hne => absurd hn hne, fun hne => absurd hn hne, ?_⟩
  intro hlen he k hk _
  rw [hval]
  exact h.unread hlen (hec ▸ he) k (by omega) (by omega)

theorem Tidy.failed (h : Tidy d st) (hval : st'.val = st.val) (hn : st'.nulled = 0) (hec : st'.ec ≠ -1) :
    Tidy d st' := by
  refine ⟨by rw [hval, h.size], by rw [hval, h.last], fun hne => absurd hn hne, fun hne => absurd hn hne, ?_⟩
  intro _ he
  exact absurd he hec

structure RoundTidy (d : JsonDoc) (e : Expected) (o : Option Expected) (st' : JsonState) : Prop where
  tidy : Tidy d st'
  quiet : ∀ e', o = some e' → st'.nulled ≠ 0 → e'.commaOrEndArray = true ∨ e'.commaOrEndObject = true
  next : e.noValue ≠ none → ∀ e', o = some e' → e'.noValue ≠ none
  last : e.noValue ≠ none → o = none → st'.nulled = 0
  going : ∀ e', o = some e' → st'.ec = -1

theorem RoundTidy.plain {e : Expected} {o : Option Expected} (h : Tidy d st') (hn : st'.nulled = 0)
    (hnext : e.noValue ≠ none → ∀ e', o = some e' → e'.noValue ≠ none)
    (hgoing : ∀ e', o = some e' → st'.ec = -1) : RoundTidy d e o st' :=
  ⟨h, fun _ _ hne => absurd hn hne, hnext, fun _ _ => hn, hgoing⟩

/-- A round that expects something else than a value. -/
theorem RoundTidy.flagged {e e' : Expected} (h : Tidy d st') (hn : st'.nulled = 0) (hec : st'.ec = -1)
    (hflag : e'.noValue ≠ none) : RoundTidy d e (some e') st' := by
  apply RoundTidy.plain h hn _ (fun _ _ => hec)
  intro _ e₁ he₁
  obtain rfl := Option.some.inj he₁
  exact hflag

theorem RoundTidy.ended {e : Expected} (h : Tidy d st') (hn : st'.nulled = 0) : RoundTidy d e none st' :=
  RoundTidy.plain h hn nofun nofun

/-- A round that took a value, and expects a comma or an end after it. -/
theorem RoundTidy.value {e e' : Expected} (h : Tidy d st')
    (hend : e'.commaOrEndArray = true ∨ e'.commaOrEndObject = true) :
    RoundTidy d e (if st'.ec ≠ -1 then none else some e') st' := by
  refine ⟨h, ?_, ?_, ?_, ?_⟩
  · intro e₁ he₁ _
    split_ifs at he₁
    obtain rfl := Option.some.inj he₁
    exact hend
  · intro _ e₁ he₁
    split_ifs at he₁
    obtain rfl := Option.some.inj he₁
    intro hno
    obtain ⟨-, hca, hco, -⟩ := noValue_eq_none.mp hno
    rw [hca, hco] at hend
    simp at hend
  · intro _ hnone
    split_ifs at hnone with hec
    by_contra hne
    exact hec (h.fine hne)
  · intro e₁ he₁
    split_ifs at he₁ with hec
    exact not_not.mp hec

/-- A number or a literal of the text does not reach the end of what is parsed, unless the
text ends there. -/
theorem scalar_within (hcut : d.uncut = true) (h : Tidy d st) (hn : st.nulled = 0) (hec : st.ec = -1)
    (hi : st.i < d.upTo) {n : Nat} (hrun : ScalarRun (st.val.drop st.i) 0 n) {tb : UInt8}
    (htb : st.val[st.i + n]? = some tb) (hne : tb ≠ 0) : st.i + n < d.upTo := by
  have hlt := (List.getElem?_eq_some_iff.mp htb).1
  have hsize := h.size
  rw [JsonDoc.uncut, Bool.or_eq_true, decide_eq_true_eq, Bool.and_eq_true, decide_eq_true_eq] at hcut
  rcases hcut with hwhole | ⟨hlen, hbyte⟩
  · -- the null at the end of the text is not held
    have hend : st.i + n ≠ d.vlen := by
      intro he
      rw [he, h.last] at htb
      exact hne (Option.some.inj htb).symm
    omega
  · by_contra hover
    -- the last byte that is parsed is one of the run
    obtain ⟨c, hc, hscalar⟩ := hrun (d.upTo - 1 - st.i) (Nat.zero_le _) (by omega)
    rw [List.getElem?_drop, h.unread hlen hec _ (by omega) (fun _ => hn)] at hc
    have hpos : st.i + (d.upTo - 1 - st.i) = d.upTo - 1 := by omega
    rw [hpos] at hc
    have hin : d.upTo - 1 < d.text.length := by
      by_contra hout
      obtain ⟨hb, hc'⟩ := List.getElem?_eq_some_iff.mp hc
      rw [List.length_append, List.length_singleton] at hb
      have hlast : d.upTo - 1 = d.text.length := by omega
      have hz : (d.text ++ [0])[d.upTo - 1]? = some 0 := by
        rw [hlast, List.getElem?_append_right (Nat.le_refl _), Nat.sub_self]
        rfl
      rw [hz] at hc
      obtain rfl := Option.some.inj hc
      exact absurd hscalar (by decide)
    rw [List.getElem?_append_left hin] at hc
    have hlast : (d.text.take d.upTo).getLast? = some c := by
      rw [List.getLast?_eq_getElem?, List.length_take, List.getElem?_take_of_lt (by omega)]
      have hmin : min d.upTo d.text.length - 1 = d.upTo - 1 := by omega
      rw [hmin, hc]
    rw [hlast] at hbyte
    simp [hscalar] at hbyte

/-- A number or a literal that is taken. -/
theorem scalar_tidy (hcut : d.uncut = true) (h : Tidy d st) (hn : st.nulled = 0) (hec : st.ec = -1)
    (hi : st.i < d.upTo) {n : Nat} (hone : 1 ≤ n) (hrun : ScalarRun (st.val.drop st.i) 0 n) {tb : UInt8}
    (htb : st.val[st.i + n]? = some tb) (hval : st'.val = st.val.set (st.i + n) 0) (hi' : st'.i = st.i + n)
    (hn' : st'.nulled = tb) (hec' : st'.ec = st.ec) : Tidy d st' := by
  have hlt := (List.getElem?_eq_some_iff.mp htb).1
  have hsize := h.size
  refine ⟨?_, ?_, ?_, ?_, ?_⟩
  · rw [hval, List.length_set, hsize]
  · rw [hval]
    by_cases hk : st.i + n = d.vlen
    · rw [hk, List.getElem?_set_self (by omega)]
    · rw [List.getElem?_set_ne hk, h.last]
  · intro hne
    rw [hi']
    rw [hn'] at hne
    exact scalar_within hcut h hn hec hi hrun htb hne
  · intro _
    rw [hec', hec]
  · intro hlen _ k hk hkn
    rw [hi'] at hk hkn
    have hold := h.unread hlen hec k (by omega) (fun _ => hn)
    rw [hval]
    by_cases hkeq : k = st.i + n
    · have hz := hkn hkeq
      rw [hn'] at hz
      subst hz
      rw [hkeq, List.getElem?_set_self hlt, ← htb, ← hkeq, hold]
    · rw [List.getElem?_set_ne (fun he => hkeq he.symm), hold]

section Round

variable {dec noenum : Bool} {value : JsonState → Except JsonFault JsonState} {e : Expected}
  {o : Option Expected} {st₁ : JsonState}

theorem named_noValue {ca co colon isarr isobj : Bool} :
    Expected.noValue { commaOrEndArray := ca, commaOrEndObject := co, colon, name := true, isarr, isobj } ≠ none := by
  intro hno
  exact absurd (noValue_eq_none.mp hno).2.2.2 (by simp)

/-- Numbers and literals are not taken where a comma or an end is expected. -/
theorem no_value {e : Expected} (h : e.noValue = none) : ¬ (e.commaOrEndArray = true ∨ e.commaOrEndObject = true) := by
  obtain ⟨-, hca, hco, -⟩ := noValue_eq_none.mp h
  rw [hca, hco]
  simp

theorem Tidy.null_mem (h : Tidy d st) (hi : st.i < d.upTo) (hup : d.upTo ≤ d.vlen) : 0 ∈ st.val.drop st.i := by
  apply List.mem_of_getElem? (i := d.vlen - st.i)
  rw [List.getElem?_drop]
  have hpos : st.i + (d.vlen - st.i) = d.vlen := by omega
  rw [hpos, h.last]

/-- The bytes of a number or a literal. -/
theorem ScalarAt.run {token : JsonToken} {n : Nat} (hat : ScalarAt st token n) (hnull : 0 ∈ st.val.drop st.i) :
    1 ≤ n ∧ ScalarRun (st.val.drop st.i) 0 n := by
  obtain ⟨-, rv, hr⟩ | ⟨lit, hlit, hcmp, rfl⟩ := hat
  · exact rimJsonNum_run hr
  · have hlit : lit = ascii "true" ∨ lit = ascii "false" ∨ lit = ascii "null" := by
      obtain ⟨-, rfl⟩ | ⟨-, rfl⟩ | ⟨-, rfl⟩ := hlit
      · exact Or.inl rfl
      · exact Or.inr (Or.inl rfl)
      · exact Or.inr (Or.inr rfl)
    obtain ⟨hone, hzero, hscalar⟩ := literal_scalar hlit
    exact ⟨hone, literal_run hscalar ((strncmp_eq_zero hnull hzero).mp hcmp)⟩

/-- A text that is written before `i`, at a place that a string reaches. -/
theorem Tidy.quoted (h : Tidy d st) (hec : st.ec = -1) (hn : st.nulled = 0) {t : TextEnd} {i : Nat}
    (ht : rimTextToUtf (st.val.drop st.i) true dec false = .ok t) (hi : (i : Int) = st.i + stringLength t + 1)
    (hval : st'.val = quotedText st.val st.i t) (hi' : st'.i = i) (hn' : st'.nulled = 0) : Tidy d st' := by
  obtain ⟨hone, hend, hwindow⟩ := quotedText_window ht
  have hlt := (List.getElem?_eq_some_iff.mp hend).1
  have hsize := h.size
  have hnot : st.i + t.last ≠ d.vlen := by
    intro he
    rw [he, h.last] at hend
    exact absurd (Option.some.inj hend) (by decide)
  refine ⟨?_, ?_, fun hne => absurd hn' hne, fun hne => absurd hn' hne, ?_⟩
  · rw [hval, hwindow.length, hsize]
  · rw [hval, hwindow.same _ (by omega), h.last]
  · intro hlen _ k hk _
    have hlength : stringLength t = t.last := stringLength_eq (by omega)
    rw [hi'] at hk
    rw [hlength] at hi
    rw [hval, hwindow.same k (by omega)]
    exact h.unread hlen hec k (by omega) (fun _ => hn)

/-- What a call for a value keeps, a round keeps. -/
theorem rimJsonStep_tidy (hcut : d.uncut = true) (hi : st.i < d.upTo) (hup : d.upTo ≤ d.vlen) (hec : st.ec = -1)
    (hvalue : ∀ st st', value st = .ok st' → Tidy d st → st.nulled = 0 → st.ec = -1 → Tidy d st')
    (hquiet : st.nulled ≠ 0 → e.commaOrEndArray = true ∨ e.commaOrEndObject = true) (h : Tidy d st)
    (hstep : rimJsonStep dec noenum value e st = .ok (o, st')) : RoundTidy d e o st' := by
  obtain ⟨c, line, last, -, hround⟩ := rimJsonStep_round hstep
  -- a value does not begin where a byte was replaced
  have hopen : e.commaOrEndArray = false → e.commaOrEndObject = false → st.nulled = 0 := by
    intro hca hco
    by_contra hne
    have hend := hquiet hne
    rw [hca, hco] at hend
    simp at hend
  generalize jsonToken c = token at hround
  cases hround with
  | fail i err => exact RoundTidy.ended (h.failed rfl rfl (fail_ne _ err)) rfl
  | call hcall hval =>
    cases callFrom_at hcall with
    | begArray =>
      exact RoundTidy.value (hvalue _ _ hval (h.advance rfl (Nat.lt_succ_self _) rfl rfl) rfl hec) (Or.inl rfl)
    | colon =>
      exact RoundTidy.value (hvalue _ _ hval (h.advance rfl (Nat.lt_succ_self _) rfl rfl) rfl hec) (Or.inr rfl)
    | comma =>
      exact RoundTidy.value (hvalue _ _ hval (h.advance rfl (Nat.lt_succ_self _) rfl rfl) rfl hec) (Or.inl rfl)
  | begObject => exact RoundTidy.flagged (h.advance rfl (Nat.lt_succ_self _) rfl rfl) rfl hec named_noValue
  | endObject => exact RoundTidy.ended (h.advance rfl (Nat.lt_succ_self _) rfl rfl) rfl
  | endArray => exact RoundTidy.ended (h.advance rfl (Nat.lt_succ_self _) rfl rfl) rfl
  | member => exact RoundTidy.flagged (h.advance rfl (Nat.lt_succ_self _) rfl rfl) rfl hec named_noValue
  | white =>
    refine RoundTidy.plain (h.advance rfl (Nat.lt_succ_self _) rfl rfl) rfl ?_ (fun _ _ => hec)
    intro hno e' he'
    obtain rfl := Option.some.inj he'
    exact hno
  | refused hhere =>
    have hn := hopen hhere.2.1 hhere.2.2
    apply RoundTidy.ended _ rfl
    exact ⟨h.size, h.last, nofun, nofun, fun hlen _ k hk _ => h.unread hlen hec k hk (fun _ => hn)⟩
  | name hhere _ ht hi =>
    refine RoundTidy.flagged (h.quoted hec (hopen hhere.2.1 hhere.2.2) ht hi rfl rfl rfl) rfl hec ?_
    intro hno
    exact absurd (noValue_eq_none.mp hno).1 (by simp)
  | string hhere ht hi => exact RoundTidy.ended (h.quoted hec (hopen hhere.2.1 hhere.2.2) ht hi rfl rfl rfl) rfl
  | scalar hno hat htb =>
    obtain ⟨-, hca, hco, -⟩ := noValue_eq_none.mp hno
    have hn := hopen hca hco
    obtain ⟨hone, hrun⟩ := hat.run (h.null_mem hi hup)
    refine ⟨scalar_tidy hcut h hn hec hi hone hrun htb rfl rfl rfl rfl, nofun, ?_, ?_, nofun⟩
    · intro hne
      exact absurd hno hne
    · intro hne
      exact absurd hno hne

end Round

/-! ## A document -/

section Loop

variable {dec noenum : Bool} {loop : Expected → JsonState → Except JsonFault JsonState}

/-- What a loop keeps, a call keeps. -/
theorem rimJsonValue_tidy (hloop : ∀ st st', loop {} st = .ok st' → Tidy d st → st.nulled = 0 → st.ec = -1 → Tidy d st')
    (hvalue : rimJsonValue loop st = .ok st') (h : Tidy d st) (hn : st.nulled = 0) (hec : st.ec = -1) :
    Tidy d st' := by
  -- the depth and the level are of no account
  have hsame : ∀ {st₁ st₂ : JsonState}, Tidy d st₁ → st₂.val = st₁.val → st₂.i = st₁.i → st₂.nulled = st₁.nulled →
      st₂.ec = st₁.ec → Tidy d st₂ := by
    intro st₁ st₂ h₁ hval hi hnull he
    refine ⟨by rw [hval, h₁.size], by rw [hval, h₁.last], ?_, ?_, ?_⟩
    · rw [hnull, hi]
      exact h₁.within
    · rw [hnull, he]
      exact h₁.fine
    · rw [he, hi, hnull, hval]
      exact h₁.unread
  unfold rimJsonValue at hvalue
  dsimp only at hvalue
  split_ifs at hvalue
  · obtain rfl := Except.ok.inj hvalue
    exact h.failed rfl hn (fail_ne _ .RIM_ERR_JSON_DEPTH)
  · obtain rfl := Except.ok.inj hvalue
    exact h.failed rfl hn (fail_ne _ .RIM_ERR_JSON_DEPTH)
  · obtain ⟨st₁, hst₁, hvalue⟩ := bind_eq_ok.mp hvalue
    obtain rfl := Except.ok.inj hvalue
    have h₁ : Tidy d st₁ := by
      refine hloop _ _ hst₁ ?_ hn hec
      exact hsame h rfl rfl rfl rfl
    exact hsame h₁ rfl rfl rfl rfl

theorem rimJsonLoop_tidy (hcut : d.uncut = true) (hup : d.upTo ≤ d.vlen) {fuel : Nat} {e : Expected}
    (hloop : rimJsonLoop dec noenum d.upTo fuel e st = .ok st') (h : Tidy d st) (hec : st.ec = -1)
    (hquiet : st.nulled ≠ 0 → e.commaOrEndArray = true ∨ e.commaOrEndObject = true) :
    Tidy d st' ∧ (e.noValue ≠ none → st'.nulled = 0) := by
  induction fuel generalizing e st st' with
  | zero => cases hloop
  | succ fuel ih =>
    rw [rimJsonLoop] at hloop
    by_cases hi : st.i < d.upTo
    · rw [if_pos hi] at hloop
      obtain ⟨⟨o, st₁⟩, hstep, hloop⟩ := bind_eq_ok.mp hloop
      have hround : RoundTidy d e o st₁ := by
        refine rimJsonStep_tidy hcut hi hup hec ?_ hquiet h hstep
        intro st₂ st₃ hvalue h₂ hn₂ hec₂
        refine rimJsonValue_tidy ?_ hvalue h₂ hn₂ hec₂
        intro st₄ st₅ hinner h₄ hn₄ hec₄
        exact (ih hinner h₄ hec₄ (fun hne => absurd hn₄ hne)).1
      cases o with
      | none =>
        obtain rfl := Except.ok.inj hloop
        exact ⟨hround.tidy, fun hno => hround.last hno rfl⟩
      | some e' =>
        obtain ⟨htidy, hlast⟩ := ih hloop hround.tidy (hround.going e' rfl) (hround.quiet e' rfl)
        exact ⟨htidy, fun hno => hlast (hround.next hno e' rfl)⟩
    · rw [if_neg hi] at hloop
      obtain rfl := Except.ok.inj hloop
      have hn : st.nulled = 0 := by
        by_contra hne
        exact hi (h.within hne)
      exact ⟨⟨h.size, h.last, h.within, h.fine, h.unread⟩, fun _ => hn⟩

/-- The first round of a call, but for white space. -/
inductive StartRound (st : JsonState) : Option Expected → JsonState → Prop where
  | white {c : UInt8} {line last : Nat} (hc : st.val[st.i]? = some c) (hwhite : jsonWhite c = true) :
      StartRound st (some {}) { st with i := st.i + 1, lineEc := line, lastLineEc := last }
  | flagged {e : Expected} {st' : JsonState} (he : e.noValue ≠ none) : StartRound st (some e) st'
  | ended {st' : JsonState} (hn : st'.nulled = 0) : StartRound st none st'
  | scalar {st' : JsonState} {r : Nat} (hr : scalarEnd (st.val.drop st.i) = some r)
      (htb : st.val[st.i + r]? = some st'.nulled) : StartRound st none st'

theorem headD_drop {v : Bytes} {i : Nat} {c : UInt8} (hc : v[i]? = some c) : (v.drop i).headD 0 = c := by
  obtain ⟨hi, rfl⟩ := List.getElem?_eq_some_iff.mp hc
  rw [List.drop_eq_getElem_cons hi]
  rfl

/-- The front of a text at a number or a literal. -/
theorem ScalarAt.scalarEnd {c : UInt8} {n : Nat} (hat : ScalarAt st (jsonToken c) n) (hnull : 0 ∈ st.val.drop st.i)
    (hc : (st.val.drop st.i).headD 0 = c) : scalarEnd (st.val.drop st.i) = some n := by
  unfold RimStone.scalarEnd
  rw [hc]
  generalize jsonToken c = token at hat
  obtain ⟨rfl, rv, hr⟩ | ⟨lit, hlit, hcmp, rfl⟩ := hat
  · rw [hr]
  · obtain ⟨rfl, rfl⟩ | ⟨rfl, rfl⟩ | ⟨rfl, rfl⟩ := hlit
    · exact if_pos (List.isPrefixOf_iff_prefix.mpr ((strncmp_eq_zero hnull (by decide)).mp hcmp))
    · exact if_pos (List.isPrefixOf_iff_prefix.mpr ((strncmp_eq_zero hnull (by decide)).mp hcmp))
    · exact if_pos (List.isPrefixOf_iff_prefix.mpr ((strncmp_eq_zero hnull (by decide)).mp hcmp))

/-- A value begins. -/
theorem rimJsonStep_start {value : JsonState → Except JsonFault JsonState} {o : Option Expected}
    (hn : st.nulled = 0) (hnull : 0 ∈ st.val.drop st.i) (htidy : Tidy d st')
    (hstep : rimJsonStep dec noenum value {} st = .ok (o, st')) : StartRound st o st' := by
  obtain ⟨c, line, last, hchar, hround⟩ := rimJsonStep_round hstep
  have hc : st.val[st.i]? = some c := by
    obtain ⟨⟨-, hne⟩ | ⟨-, hc⟩, -⟩ := jsonChar_eq_ok hchar
    · exact absurd hn hne
    · exact hc
  have hvalue : ∀ {e : Expected}, (e.commaOrEndArray = true ∨ e.commaOrEndObject = true) →
      StartRound st (if st'.ec ≠ -1 then none else some e) st' := by
    intro e he
    by_cases hec : st'.ec = -1
    · rw [if_neg (not_not_intro hec)]
      exact .flagged (fun hno => no_value hno he)
    · rw [if_pos hec]
      apply StartRound.ended
      by_contra hne
      exact hec (htidy.fine hne)
  generalize htoken : jsonToken c = token at hround
  cases hround with
  | fail => exact .ended rfl
  | call hcall =>
    cases callFrom_at hcall with
    | begArray => exact hvalue (Or.inl rfl)
    | colon => exact hvalue (Or.inr rfl)
    | comma => exact hvalue (Or.inl rfl)
  | begObject => exact .flagged named_noValue
  | endObject => exact .ended rfl
  | endArray => exact .ended rfl
  | member hobj => cases hobj
  | white =>
    have hround : StartRound st (some {}) { st with i := st.i + 1, lineEc := line, lastLineEc := last } :=
      .white hc (decide_eq_true htoken)
    rw [hn] at hround
    exact hround
  | refused => exact .ended rfl
  | name _ hname => cases hname
  | string => exact .ended rfl
  | scalar _ hat htb =>
    subst htoken
    exact .scalar (ScalarAt.scalarEnd hat hnull (headD_drop hc)) htb

/-- A call that holds a byte has taken a number or a literal after white space. -/
theorem rimJsonLoop_bare (hcut : d.uncut = true) (hup : d.upTo ≤ d.vlen) {fuel : Nat}
    (hloop : rimJsonLoop dec noenum d.upTo fuel {} st = .ok st') (h : Tidy d st) (hec : st.ec = -1)
    (hn : st.nulled = 0) (hne : st'.nulled ≠ 0) :
    ∃ k, st.i ≤ k ∧ k < d.upTo ∧
      (∀ j, st.i ≤ j → j < k → ∃ c, st.val[j]? = some c ∧ jsonWhite c = true) ∧
      ∃ r, scalarEnd (st.val.drop k) = some r ∧ st.val[k + r]? = some st'.nulled := by
  induction fuel generalizing st with
  | zero => cases hloop
  | succ fuel ih =>
    have hloop' := hloop
    rw [rimJsonLoop] at hloop
    by_cases hi : st.i < d.upTo
    · rw [if_pos hi] at hloop
      obtain ⟨⟨o, st₁⟩, hstep, hloop⟩ := bind_eq_ok.mp hloop
      have hround : RoundTidy d {} o st₁ := by
        refine rimJsonStep_tidy hcut hi hup hec ?_ (fun hne => absurd hn hne) h hstep
        intro st₂ st₃ hvalue h₂ hn₂ hec₂
        refine rimJsonValue_tidy ?_ hvalue h₂ hn₂ hec₂
        intro st₄ st₅ hinner h₄ hn₄ hec₄
        exact (rimJsonLoop_tidy hcut hup hinner h₄ hec₄ (fun hne => absurd hn₄ hne)).1
      have hstart := rimJsonStep_start hn (h.null_mem hi hup) hround.tidy hstep
      cases hstart with
      | @white c line last hc hwhite =>
        obtain ⟨k, hk, hkup, hbefore, r, hr, htb⟩ := ih hloop hround.tidy hec hn
        refine ⟨k, by exact Nat.le_of_succ_le hk, hkup, ?_, r, hr, htb⟩
        intro j hj hjk
        by_cases hji : j = st.i
        · rw [hji]
          exact ⟨c, hc, hwhite⟩
        · exact hbefore j (by show st.i + 1 ≤ j; omega) hjk
      | flagged he =>
        have hquiet := hround.quiet _ rfl
        exact absurd ((rimJsonLoop_tidy hcut hup hloop hround.tidy (hround.going _ rfl) hquiet).2 he) hne
      | ended hz =>
        obtain rfl := Except.ok.inj hloop
        exact absurd hz hne
      | @scalar st₁ r hr htb =>
        obtain rfl := Except.ok.inj hloop
        refine ⟨st.i, Nat.le_refl _, hi, ?_, r, hr, htb⟩
        intro j hj hji
        omega
    · rw [if_neg hi] at hloop
      obtain rfl := Except.ok.inj hloop
      exact absurd hn hne

end Loop

theorem Tidy.start (d : JsonDoc) : Tidy d (d.start 0) := by
  refine ⟨?_, ?_, nofun, nofun, fun _ _ _ _ _ => rfl⟩
  · show (d.text ++ [0]).length = d.text.length + 1
    rw [List.length_append]
    rfl
  · show (d.text ++ [0])[d.text.length]? = some 0
    rw [List.getElem?_append_right (Nat.le_refl _), Nat.sub_self]
    rfl

/-- What a number or a literal begins with is no white space. -/
theorem not_white_of_scalarEnd {v : Bytes} {r : Nat} (h : scalarEnd v = some r) : jsonWhite (v.headD 0) = false := by
  unfold scalarEnd at h
  unfold jsonWhite
  cases htoken : jsonToken (v.headD 0) <;> rw [htoken] at h <;> simp_all

/-- A document that leaves no byte. -/
theorem rimJsonNew_clean (hclean : d.clean = true) {json : RimJson} {n : UInt8}
    (hnew : rimJsonNew 0 d = .ok (json, n)) : n = 0 := by
  rw [JsonDoc.clean, Bool.and_eq_true, Bool.not_eq_true'] at hclean
  obtain ⟨hbare, hcut⟩ := hclean
  unfold rimJsonNew at hnew
  by_cases hup : d.upTo > d.vlen
  · rw [if_pos hup] at hnew
    cases hnew
  rw [if_neg hup] at hnew
  have hup : d.upTo ≤ d.vlen := Nat.le_of_not_lt hup
  obtain ⟨st₁, hvalue, hnew⟩ := bind_eq_ok.mp hnew
  obtain ⟨st₂, hend, hnew⟩ := bind_eq_ok.mp hnew
  obtain ⟨-, rfl⟩ := Prod.mk.inj (Except.ok.inj hnew)
  have hsame : st₂.nulled = st₁.nulled := by
    unfold rimJsonEnd at hend
    obtain ⟨c, -, hend⟩ := bind_eq_ok.mp hend
    obtain rfl := Except.ok.inj hend
    split_ifs <;> rfl
  rw [hsame]
  by_contra hne
  -- the root call is not too deep
  have hroot : rimJsonValue (rimJsonLoop d.dec d.noenum d.upTo (d.upTo + 1)) (d.start 0) =
      (rimJsonLoop d.dec d.noenum d.upTo (d.upTo + 1) {} { d.start 0 with depth := 1, listC := 0 } >>= fun st =>
        .ok st.endj) := rfl
  rw [hroot] at hvalue
  obtain ⟨st, hloop, hvalue⟩ := bind_eq_ok.mp hvalue
  obtain rfl := Except.ok.inj hvalue
  have hstart : Tidy d { d.start 0 with depth := 1, listC := 0 } := by
    have h := Tidy.start d
    exact ⟨h.size, h.last, h.within, h.fine, h.unread⟩
  obtain ⟨k, -, hk, hbefore, r, hr, htb⟩ := rimJsonLoop_bare hcut hup hloop hstart rfl rfl hne
  have hval : (d.start 0).val = d.text ++ [0] := rfl
  have hkt : k < d.text.length := Nat.lt_of_lt_of_le hk hup
  have hlen : (d.text.takeWhile jsonWhite).length = k := by
    have hsplit := List.take_append_drop k d.text
    have hall : ∀ c ∈ d.text.take k, jsonWhite c = true := by
      intro c hc
      obtain ⟨j, hj, rfl⟩ := List.getElem_of_mem hc
      rw [List.length_take] at hj
      obtain ⟨c', hc', hwhite⟩ := hbefore j (Nat.zero_le _) (by omega)
      have hc'' : (d.text ++ [0])[j]? = some c' := hc'
      rw [List.getElem?_append_left (by omega), List.getElem?_eq_getElem (by omega)] at hc''
      rw [List.getElem_take, Option.some.inj hc'']
      exact hwhite
    have hnot := not_white_of_scalarEnd hr
    have hdrop : (d.text ++ [0]).drop k = d.text[k] :: (d.text.drop (k + 1) ++ [0]) := by
      rw [List.drop_append_of_le_length (Nat.le_of_lt hkt), List.drop_eq_getElem_cons hkt, List.cons_append]
    have hhead : (List.drop k { d.start 0 with depth := 1, listC := 0 }.val).headD 0 = d.text[k] := by
      show ((d.text ++ [0]).drop k).headD 0 = d.text[k]
      rw [hdrop]
      rfl
    rw [hhead] at hnot
    rw [← hsplit, List.takeWhile_append_of_pos hall, List.drop_eq_getElem_cons hkt, List.takeWhile_cons, hnot,
      if_neg Bool.false_ne_true, List.append_nil, List.length_take]
    omega
  have hbare' : d.bareScalar = true := by
    unfold JsonDoc.bareScalar
    have hr' : scalarEnd ((d.text ++ [0]).drop k) = some r := hr
    have htb' : (d.text ++ [0])[k + r]? = some st.endj.nulled := htb
    rw [hlen]
    dsimp only
    rw [decide_eq_true hk, hr', Bool.true_and]
    dsimp only
    rw [htb']
    simpa using hne
  rw [hbare'] at hbare
  cases hbare

/-- After documents that leave no byte, a document is parsed as in a process of its own. -/
theorem rimJsonNew_all {docs : List JsonDoc} (hclean : ∀ x ∈ docs, x.clean = true) {jsons : List RimJson}
    {nulled : UInt8} (hall : rimJsonAll 0 docs = .ok (jsons, nulled)) (d : JsonDoc) :
    rimJsonNew nulled d = rimJsonNew 0 d := by
  have hnulled : nulled = 0 := by
    induction docs generalizing jsons with
    | nil =>
      obtain ⟨-, rfl⟩ := Prod.mk.inj (Except.ok.inj hall)
      rfl
    | cons x docs ih =>
      obtain ⟨hx, hdocs⟩ := List.forall_mem_cons.mp hclean
      obtain ⟨⟨json, n⟩, hnew, hall⟩ := bind_eq_ok.mp hall
      obtain rfl := rimJsonNew_clean hx hnew
      obtain ⟨⟨rest, n⟩, hrest, hall⟩ := bind_eq_ok.mp hall
      obtain ⟨-, rfl⟩ := Prod.mk.inj (Except.ok.inj hall)
      exact ih hdocs hrest
  rw [hnulled]

/-- A document in error and one that is a whole object, and then another one. -/
theorem rimJsonNew_all_object :
    ∃ jsons nulled, rimJsonAll 0 [{ text := ascii "\x7b1\x7d" }, { text := ascii "\x7b\"a\":[1,true]\x7d" }] = .ok (jsons, nulled) ∧
      rimJsonNew nulled { text := ascii "\x7b\"b\":2\x7d" } = rimJsonNew 0 { text := ascii "\x7b\"b\":2\x7d" } := by
  have hclean : ∀ x ∈ [({ text := ascii "\x7b1\x7d" } : JsonDoc), { text := ascii "\x7b\"a\":[1,true]\x7d" }],
      x.clean = true := by decide
  exact ⟨_, _, rfl, rimJsonNew_all hclean rfl _⟩

/-- A number with white space after it leaves the white space to the next document. -/
theorem rimJsonNew_not_all :
    ¬ ∀ (docs : List JsonDoc) (jsons : List RimJson) (nulled : UInt8), rimJsonAll 0 docs = .ok (jsons, nulled) →
      ∀ d json json' n n', rimJsonNew nulled d = .ok (json, n) → rimJsonNew 0 d = .ok (json', n') →
        json.code = json'.code := by
  intro h
  have hcode := h [{ text := ascii "1 " }] _ _ rfl { text := ascii "\x7b\"a\":1\x7d" } _ _ _ _ rfl rfl
  exact absurd hcode (by decide)

end RimStone
