import RimStone.Laws.Json.Step

/-!
# The list of levels

`list_c` is one for all calls of `rim_json_new`: a call counts it up when it begins and down at each of
its ends, and an array counts it down where it begins, because it is that of the level before. It comes
out right at the ends that were thought of. It does not where an array is the whole document, as there
is no level before; where `]` ends a call that did not read `[`, which is how an empty array is taken;
where a string is in error, which does not set `ec`; and where the text ends in an array.
-/

namespace RimStone

open RimStone.Lib

/-! ## Rounds and calls -/

def JsonState.token (st : JsonState) : Option JsonToken :=
  match jsonChar st with
  | .ok (c, _) => some (jsonToken c)
  | .error _ => none

/-- The level of the list that a round reads or sets, or the number of levels that `RIM_ADD_JSON` goes
through. -/
def jsonLevelAt (e : Expected) (st : JsonState) : Option Int :=
  match st.token with
  | some .begArray => if e.noValue = none then some (st.listC - 1) else none
  | some .endArray => if e.ArrayEnd then some st.listC else none
  | some .comma => if e.ElementHere then some st.listC else none
  | some .quote => if e.StringHere then some st.listC else none
  | some .number | some .true | some .false | some .null => if e.noValue = none then some st.listC else none
  | _ => none

def jsonCall (e : Expected) (st : JsonState) : Option (Expected × JsonState) :=
  match jsonChar st with
  | .ok (c, st) => callFrom (jsonToken c) e st
  | .error _ => none

structure CountsKept (st st' : JsonState) : Prop where
  depth : st'.depth = st.depth
  ec : st'.ec = st.ec
  length : st'.list.length = st.list.length

/-- The flags of a call that has read `[`, and of one that has read `{`. -/
structure FlagsFit (e : Expected) : Prop where
  arr : e.isarr = true → e.commaOrEndArray = true ∧ e.isobj = false
  obj : e.isobj = true → e.name = true ∨ e.colon = true ∨ e.commaOrEndObject = true

/-- What a round does that makes no call. -/
inductive RoundAlone (dec : Bool) (e : Expected) (st : JsonState) : Option Expected → JsonState → Prop where
  | fail {st' : JsonState} : st'.ec ≠ -1 → st'.list.length = st.list.length → RoundAlone dec e st none st'
  | on {e' : Expected} {st' : JsonState} : CountsKept st st' → st'.listC = st.listC → e'.isarr = e.isarr →
      (FlagsFit e → FlagsFit e') → RoundAlone dec e st (some e') st'
  /-- a value -/
  | value {st' : JsonState} : CountsKept st st' → st'.listC = st.listC - 1 → e.commaOrEndArray = false →
      RoundAlone dec e st none st'
  /-- `]` -/
  | endArray {st' : JsonState} : st.token = some .endArray → e.ArrayEnd → CountsKept st st' → st'.listC = st.listC →
      RoundAlone dec e st none st'
  /-- a string in error -/
  | refused {st' : JsonState} (err : RimUtfErr) : st.token = some .quote → e.StringHere →
      rimTextToUtf (st.val.drop st.i) true dec false = .error (.err err) → CountsKept st st' → st'.listC = st.listC →
      RoundAlone dec e st none st'

variable {dec noenum : Bool} {value value' : JsonState → Except JsonFault JsonState} {e : Expected} {o : Option Expected}
  {st st' : JsonState}

/-- A call, or something else: what a round does. -/
def RoundDoes (dec : Bool) (value : JsonState → Except JsonFault JsonState) (e : Expected) (st : JsonState)
    (call : Option (Expected × JsonState)) (o : Option Expected) (st' : JsonState) : Prop :=
  (∃ e' st₁, call = some (e', st₁) ∧ value st₁ = .ok st' ∧ o = if st'.ec ≠ -1 then none else some e') ∨
    (call = none ∧ RoundAlone dec e st o st')

/-- What a round does. -/
theorem rimJsonStep_does (h : rimJsonStep dec noenum value e st = .ok (o, st')) :
    RoundDoes dec value e st (jsonCall e st) o st' := by
  obtain ⟨c, line, last, hc, hround⟩ := rimJsonStep_round h
  have hcall : jsonCall e st = callFrom (jsonToken c) e (st.taken line last) := by
    unfold jsonCall
    rw [hc]
  have htoken : st.token = some (jsonToken c) := by
    unfold JsonState.token
    rw [hc]
  rw [hcall]
  generalize jsonToken c = t at hround htoken
  cases hround with
  | fail i err hno => exact Or.inr ⟨hno, .fail (fail_ne _ _) rfl⟩
  | call hcall hvalue => exact Or.inl ⟨_, _, hcall, hvalue, rfl⟩
  | begObject hca =>
    refine Or.inr ⟨rfl, .on ⟨rfl, rfl, rfl⟩ rfl rfl fun hfit => ⟨fun harr => ?_, fun _ => Or.inl rfl⟩⟩
    rw [(hfit.arr harr).1] at hca
    cases hca
  | endObject hca => exact Or.inr ⟨rfl, .value ⟨rfl, rfl, rfl⟩ rfl hca⟩
  | endArray hend => exact Or.inr ⟨rfl, .endArray htoken hend ⟨rfl, rfl, setLevel_length _ _⟩ rfl⟩
  | member hobj =>
    have hno : ¬ e.ElementHere := by
      rintro ⟨-, -, hobj', -⟩
      rw [hobj] at hobj'
      cases hobj'
    refine Or.inr ⟨if_neg hno, .on ⟨rfl, rfl, rfl⟩ rfl rfl fun hfit => ⟨fun harr => ?_, fun _ => Or.inl rfl⟩⟩
    rw [(hfit.arr harr).2] at hobj
    cases hobj
  | white => exact Or.inr ⟨rfl, .on ⟨rfl, rfl, rfl⟩ rfl rfl id⟩
  | refused hhere herr => exact Or.inr ⟨rfl, .refused _ htoken hhere herr ⟨rfl, rfl, rfl⟩ rfl⟩
  | name hhere =>
    refine Or.inr ⟨rfl, .on ⟨rfl, rfl, setLevel_length _ _⟩ rfl rfl fun hfit => ⟨fun harr => ?_, fun _ => Or.inr (Or.inl rfl)⟩⟩
    have hca := hhere.2.1
    rw [(hfit.arr harr).1] at hca
    cases hca
  | string hhere => exact Or.inr ⟨rfl, .value ⟨rfl, rfl, rfl⟩ rfl hhere.2.1⟩
  | scalar hno hat =>
    have hcall : callFrom t e (st.taken line last) = none := by
      obtain ⟨rfl, -⟩ | ⟨lit, hlit, -⟩ := hat
      · rfl
      · obtain ⟨rfl, -⟩ | ⟨rfl, -⟩ | ⟨rfl, -⟩ := hlit <;> rfl
    exact Or.inr ⟨hcall, .value ⟨rfl, rfl, rfl⟩ rfl (noValue_eq_none.mp hno).2.1⟩

theorem RoundAlone.length (h : RoundAlone dec e st o st') : st'.list.length = st.list.length := by
  cases h with
  | fail _ hlen => exact hlen
  | on hkept => exact hkept.length
  | value hkept => exact hkept.length
  | endArray _ _ hkept => exact hkept.length
  | refused _ _ _ _ hkept => exact hkept.length

/-- What a round does before a call, and to the flags after it. -/
structure CallsFrom (e : Expected) (st : JsonState) (e' : Expected) (st₁ : JsonState) : Prop where
  kept : CountsKept st st₁
  flags : FlagsFit e → FlagsFit e'
  /-- one level less for an array, which there was none of before -/
  level : (st.token = some .begArray ∧ e.noValue = none ∧ st₁.listC = st.listC - 1 ∧ e'.isarr = true) ∨
    (st₁.listC = st.listC ∧ e'.isarr = e.isarr)

theorem jsonCall_from {e' : Expected} {st₁ : JsonState} (h : jsonCall e st = some (e', st₁)) : CallsFrom e st e' st₁ := by
  unfold jsonCall at h
  split at h
  · next c st₀ hc =>
    obtain ⟨-, line, last, rfl⟩ := jsonChar_eq_ok hc
    have htoken : st.token = some (jsonToken c) := by
      unfold JsonState.token
      rw [hc]
    generalize jsonToken c = t at h htoken
    cases callFrom_at h with
    | begArray hno =>
      obtain ⟨hcolon, hca, hco, hname⟩ := noValue_eq_none.mp hno
      refine ⟨⟨rfl, rfl, setLevel_length _ _⟩, fun hfit => ⟨fun _ => ⟨rfl, ?_⟩, fun hobj => hfit.obj hobj⟩,
        Or.inl ⟨htoken, hno, rfl, rfl⟩⟩
      show e.isobj = false
      rw [← Bool.not_eq_true]
      intro hobj
      obtain h | h | h := hfit.obj hobj
      · rw [hname] at h
        cases h
      · rw [hcolon] at h
        cases h
      · rw [hco] at h
        cases h
    | colon hhere =>
      refine ⟨⟨rfl, rfl, rfl⟩, fun hfit => ⟨fun harr => ?_, fun _ => Or.inr (Or.inr rfl)⟩, Or.inr ⟨rfl, rfl⟩⟩
      have hca := (hfit.arr harr).1
      rw [hhere.1] at hca
      cases hca
    | comma hhere =>
      refine ⟨⟨rfl, rfl, setLevel_length _ _⟩, fun _ => ⟨fun _ => ⟨rfl, hhere.2.2.1⟩, fun hobj => ?_⟩, Or.inr ⟨rfl, rfl⟩⟩
      have hno : e.isobj = true := hobj
      rw [hhere.2.2.1] at hno
      cases hno
  · cases h

/-! ## Calls -/

section Calls

variable {len fuel : Nat}

def JsonState.enter (st : JsonState) : JsonState := { st with depth := st.depth + 1, listC := st.listC + 1 }

/-- A call is too deep, or it is its loop. -/
theorem rimJsonValue_eq (loop : Expected → JsonState → Except JsonFault JsonState) (st : JsonState) :
    rimJsonValue loop st =
      if st.depth + 1 < RIM_JSON_MAX_NESTED ∧ st.listC + 1 < (RIM_JSON_MAX_NESTED : Int) - 1 then
        loop {} st.enter >>= fun st => .ok st.endj
      else if st.depth + 1 < RIM_JSON_MAX_NESTED then .ok (st.enter.fail .RIM_ERR_JSON_DEPTH).endj
      else .ok (JsonState.fail { st with depth := st.depth + 1 } .RIM_ERR_JSON_DEPTH).endj := by
  unfold rimJsonValue
  dsimp only
  by_cases hdepth : st.depth + 1 < RIM_JSON_MAX_NESTED
  · rw [if_neg (Nat.not_le.mpr hdepth)]
    by_cases hlist : st.listC + 1 < (RIM_JSON_MAX_NESTED : Int) - 1
    · rw [if_neg (Int.not_le.mpr hlist), if_pos ⟨hdepth, hlist⟩]
      rfl
    · rw [if_pos (Int.not_lt.mp hlist), if_neg (fun h => hlist h.2), if_pos hdepth]
      rfl
  · rw [if_pos (Nat.not_lt.mp hdepth), if_neg (fun h => hdepth h.1), if_neg hdepth]

/-- A call that ends without an error was not too deep. -/
theorem rimJsonValue_eq_ok {loop : Expected → JsonState → Except JsonFault JsonState} (h : rimJsonValue loop st = .ok st') :
    st'.ec ≠ -1 ∧ st'.list.length = st.list.length ∨
      (st.depth + 1 < RIM_JSON_MAX_NESTED ∧ st.listC + 1 < (RIM_JSON_MAX_NESTED : Int) - 1) ∧
        ∃ s, loop {} st.enter = .ok s ∧ st' = s.endj := by
  rw [rimJsonValue_eq] at h
  split at h
  · next hin =>
    obtain ⟨s, hs, h⟩ := bind_eq_ok.mp h
    exact Or.inr ⟨hin, s, hs, (Except.ok.inj h).symm⟩
  · split at h
    · obtain rfl := Except.ok.inj h
      exact Or.inl ⟨fail_ne st.enter .RIM_ERR_JSON_DEPTH, rfl⟩
    · obtain rfl := Except.ok.inj h
      exact Or.inl ⟨fail_ne st .RIM_ERR_JSON_DEPTH, rfl⟩

/-- No level is added to the list, or taken from it. -/
theorem rimJsonLoop_length (h : rimJsonLoop dec noenum len fuel e st = .ok st') : st'.list.length = st.list.length := by
  induction fuel generalizing e st st' with
  | zero => cases h
  | succ fuel ih =>
    rw [rimJsonLoop] at h
    split at h
    · obtain ⟨⟨o, st₂⟩, hstep, h⟩ := bind_eq_ok.mp h
      have hlen : st₂.list.length = st.list.length := by
        obtain ⟨e', st₁, hcall, hvalue, -⟩ | ⟨-, halone⟩ := rimJsonStep_does hstep
        · rw [← (jsonCall_from hcall).kept.length]
          obtain ⟨-, hlen⟩ | ⟨-, s, hs, rfl⟩ := rimJsonValue_eq_ok hvalue
          · exact hlen
          · have hloop : s.list.length = st₁.enter.list.length := ih hs
            exact hloop
        · exact halone.length
      match o, h with
      | some e', h => exact (ih h).trans hlen
      | none, h =>
        obtain rfl := Except.ok.inj h
        exact hlen
    · obtain rfl := Except.ok.inj h
      rfl

/-- A round is the same where more calls have an end. -/
theorem rimJsonStep_mono (hvalue : ∀ s s', value s = .ok s' → value' s = .ok s')
    (h : rimJsonStep dec noenum value e st = .ok (o, st')) : rimJsonStep dec noenum value' e st = .ok (o, st') := by
  obtain ⟨⟨c, st₀⟩, hc, h⟩ := bind_eq_ok.mp h
  refine bind_eq_ok.mpr ⟨(c, st₀), hc, ?_⟩
  dsimp only at h ⊢
  generalize jsonToken c = t at h
  cases t with
  | begArray =>
    dsimp only [jsonBegArray] at h ⊢
    cases hno : e.noValue with
    | some err =>
      rw [hno] at h
      exact h
    | none =>
      rw [hno] at h
      obtain ⟨st₁, hst₁, h⟩ := bind_eq_ok.mp h
      obtain ⟨st₂, hst₂, h⟩ := bind_eq_ok.mp h
      exact bind_eq_ok.mpr ⟨st₁, hst₁, bind_eq_ok.mpr ⟨st₂, hvalue _ _ hst₂, h⟩⟩
  | colon =>
    dsimp only [jsonColon] at h ⊢
    split at h
    · exact h
    · obtain ⟨st₂, hst₂, h⟩ := bind_eq_ok.mp h
      exact bind_eq_ok.mpr ⟨st₂, hvalue _ _ hst₂, h⟩
  | comma =>
    dsimp only [jsonComma] at h ⊢
    split at h
    · exact h
    · split at h
      · next hobj =>
        rw [if_pos hobj]
        exact h
      · next hobj =>
        rw [if_neg hobj]
        split at h
        · next harr =>
          obtain ⟨st₁, hst₁, h⟩ := bind_eq_ok.mp h
          obtain ⟨st₂, hst₂, h⟩ := bind_eq_ok.mp h
          rw [if_pos harr]
          exact bind_eq_ok.mpr ⟨st₁, hst₁, bind_eq_ok.mpr ⟨st₂, hvalue _ _ hst₂, h⟩⟩
        · next harr =>
          rw [if_neg harr]
          exact h
  | _ => exact h

theorem rimJsonLoop_mono (h : rimJsonLoop dec noenum len fuel e st = .ok st') {fuel' : Nat} (hle : fuel ≤ fuel') :
    rimJsonLoop dec noenum len fuel' e st = .ok st' := by
  induction fuel generalizing fuel' e st st' with
  | zero => cases h
  | succ fuel ih =>
    obtain ⟨fuel', rfl⟩ : ∃ k, fuel' = k + 1 := ⟨fuel' - 1, by omega⟩
    rw [rimJsonLoop] at h ⊢
    split at h
    · next hlt =>
      rw [if_pos hlt]
      obtain ⟨⟨o, st₂⟩, hstep, h⟩ := bind_eq_ok.mp h
      have hvalue : ∀ s s', rimJsonValue (rimJsonLoop dec noenum len fuel) s = .ok s' →
          rimJsonValue (rimJsonLoop dec noenum len fuel') s = .ok s' := by
        intro s s' hs
        rw [rimJsonValue_eq] at hs ⊢
        split at hs
        · next hin =>
          obtain ⟨s₁, hs₁, hs⟩ := bind_eq_ok.mp hs
          rw [if_pos hin]
          exact bind_eq_ok.mpr ⟨s₁, ih hs₁ (by omega), hs⟩
        · next hout =>
          rw [if_neg hout]
          exact hs
      refine bind_eq_ok.mpr ⟨(o, st₂), rimJsonStep_mono hvalue hstep, ?_⟩
      match o, h with
      | some e', h => exact ih h (by omega)
      | none, h => exact h
    · next hend =>
      rw [if_neg hend]
      exact h

end Calls

/-! ## Rounds that are reached -/

variable {d : JsonDoc} {nulled : UInt8} {c : Option JsonState}

/-- The calls of a document, with what `fuel` there is. -/
def JsonDoc.call (d : JsonDoc) (fuel : Nat) : JsonState → Except JsonFault JsonState :=
  rimJsonValue (rimJsonLoop d.dec d.noenum d.upTo fuel)

/-- The rounds of a root call and of the calls in it. `c` is how a call was made: the variables before
it, and none for the root call. -/
inductive JsonReached (d : JsonDoc) (nulled : UInt8) : Option JsonState → Expected → JsonState → Prop where
  | root : d.upTo ≤ d.vlen → JsonReached d nulled none {} (d.start nulled).enter
  | next {c : Option JsonState} {e e' : Expected} {st st' : JsonState} (fuel : Nat) : JsonReached d nulled c e st →
      st.i < d.upTo → rimJsonStep d.dec d.noenum (d.call fuel) e st = .ok (some e', st') → JsonReached d nulled c e' st'
  | call {c : Option JsonState} {e e' : Expected} {st st₁ : JsonState} : JsonReached d nulled c e st → st.i < d.upTo →
      jsonCall e st = some (e', st₁) → st₁.depth + 1 < RIM_JSON_MAX_NESTED →
      st₁.listC + 1 < (RIM_JSON_MAX_NESTED : Int) - 1 → JsonReached d nulled (some st₁) {} st₁.enter

/-- The calls come back with the counts that they had, and no level outside of the list is used. -/
def NestsWithin (d : JsonDoc) (nulled : UInt8) : Prop :=
  ∀ c e st, JsonReached d nulled c e st → st.i < d.upTo →
    (∀ k ∈ jsonLevelAt e st, 0 ≤ k ∧ k ≤ (RIM_JSON_MAX_NESTED : Int) - 1) ∧
    ∀ e' st₁, jsonCall e st = some (e', st₁) → ∀ fuel st₂, d.call fuel st₁ = .ok st₂ → st₂.ec = -1 →
      st₂.listC = st₁.listC ∧ st₂.depth = st₁.depth

/-- No array is the whole document; and no call but that one ends with a `]` that it did not begin, with a
string in error, or with the text in an array. -/
def NestsPlainly (d : JsonDoc) (nulled : UInt8) : Prop :=
  ∀ c e st, JsonReached d nulled c e st →
    (st.i < d.upTo → st.token = some .begArray → e.noValue = none → 0 < st.listC) ∧
    (c ≠ none →
      (st.i < d.upTo → st.token = some .endArray → e.ArrayEnd → e.isarr = true) ∧
      (st.i < d.upTo → st.token = some .quote → e.StringHere →
        ∀ err, rimTextToUtf (st.val.drop st.i) true d.dec false ≠ .error (.err err)) ∧
      (d.upTo ≤ st.i → e.isarr = false))

def levelBefore (c : Option JsonState) : Int := c.elim (-1) JsonState.listC

def depthBefore (c : Option JsonState) : Nat := c.elim 0 JsonState.depth

/-- What holds in every round of a call as long as the calls in it come back with their counts. -/
structure InCall (c : Option JsonState) (e : Expected) (st : JsonState) : Prop where
  flags : FlagsFit e
  level : st.listC = if e.isarr then levelBefore c else levelBefore c + 1
  depth : st.depth = depthBefore c + 1
  ec : st.ec = -1
  length : st.list.length = RIM_JSON_MAX_NESTED
  pos : 0 ≤ st.listC
  lt : st.listC < (RIM_JSON_MAX_NESTED : Int) - 1

def ComesBack (value : JsonState → Except JsonFault JsonState) (st₁ : JsonState) : Prop :=
  ∀ st₂, value st₁ = .ok st₂ → st₂.ec = -1 → st₂.listC = st₁.listC ∧ st₂.depth = st₁.depth

theorem InCall.root (d : JsonDoc) (nulled : UInt8) : InCall none {} (d.start nulled).enter :=
  ⟨⟨(fun h => nomatch h), (fun h => nomatch h)⟩, rfl, rfl, rfl, List.length_replicate, Int.le_refl 0,
    Int.lt_of_lt_of_le Int.zero_lt_one (by decide)⟩

/-- The flags before `[` are those of no array. -/
theorem InCall.not_isarr (hin : InCall c e st) (hca : e.commaOrEndArray = false) : e.isarr = false := by
  rw [← Bool.not_eq_true]
  intro harr
  rw [(hin.flags.arr harr).1] at hca
  cases hca

/-- A round that goes on stays in its call. -/
theorem InCall.step {e' : Expected} (hin : InCall c e st)
    (hbeg : st.token = some .begArray → e.noValue = none → 0 < st.listC)
    (hback : ∀ e' st₁, jsonCall e st = some (e', st₁) → ComesBack value st₁)
    (hlen : ∀ s s', value s = .ok s' → s'.list.length = s.list.length)
    (h : rimJsonStep dec noenum value e st = .ok (some e', st')) : InCall c e' st' := by
  have hlevel := hin.level
  have hpos := hin.pos
  have hlt := hin.lt
  obtain ⟨e'', st₁, hcall, hvalue, ho⟩ | ⟨-, halone⟩ := rimJsonStep_does h
  · by_cases hec : st'.ec ≠ -1
    · rw [if_pos hec] at ho
      cases ho
    · rw [if_neg hec] at ho
      obtain rfl := Option.some.inj ho
      rw [not_not] at hec
      have hfrom := jsonCall_from hcall
      obtain ⟨hlist, hdepth⟩ := hback _ _ hcall _ hvalue hec
      have hlength := (hlen _ _ hvalue).trans (hfrom.kept.length.trans hin.length)
      have hdepth := hdepth.trans (hfrom.kept.depth.trans hin.depth)
      obtain ⟨htoken, hno, hdown, harr⟩ | ⟨hsame, harr⟩ := hfrom.level
      · have hnot := hin.not_isarr (noValue_eq_none.mp hno).2.1
        have hfirst := hbeg htoken hno
        rw [hnot, if_neg Bool.false_ne_true] at hlevel
        refine ⟨hfrom.flags hin.flags, ?_, hdepth, hec, hlength, by omega, by omega⟩
        rw [harr, if_pos rfl]
        omega
      · refine ⟨hfrom.flags hin.flags, ?_, hdepth, hec, hlength, by omega, by omega⟩
        rw [harr, ← hlevel]
        exact hlist.trans hsame
  · cases halone with
    | on hkept hsame harr hflags =>
      refine ⟨hflags hin.flags, ?_, hkept.depth.trans hin.depth, hkept.ec.trans hin.ec,
        hkept.length.trans hin.length, by omega, by omega⟩
      rw [harr, ← hlevel]
      exact hsame

theorem InCall.enter {e' : Expected} {st₁ : JsonState} (hin : InCall c e st)
    (hbeg : st.token = some .begArray → e.noValue = none → 0 < st.listC) (hcall : jsonCall e st = some (e', st₁))
    (hlist : st₁.listC + 1 < (RIM_JSON_MAX_NESTED : Int) - 1) : InCall (some st₁) {} st₁.enter := by
  have hfrom := jsonCall_from hcall
  have hpos : 0 ≤ st₁.listC := by
    have hpos := hin.pos
    obtain ⟨htoken, hno, hdown, -⟩ | ⟨hsame, -⟩ := hfrom.level
    · have hfirst := hbeg htoken hno
      omega
    · omega
  refine ⟨⟨(fun h => nomatch h), (fun h => nomatch h)⟩, rfl, rfl, hfrom.kept.ec.trans hin.ec,
    hfrom.kept.length.trans hin.length, ?_, hlist⟩
  show 0 ≤ st₁.listC + 1
  omega

theorem JsonDoc.call_length {fuel : Nat} (s s' : JsonState) (h : d.call fuel s = .ok s') : s'.list.length = s.list.length := by
  obtain ⟨-, hlen⟩ | ⟨-, s₁, hs₁, rfl⟩ := rimJsonValue_eq_ok h
  · exact hlen
  · have hloop : s₁.list.length = s.enter.list.length := rimJsonLoop_length hs₁
    exact hloop

/-- A call comes back, where its rounds are plain. -/
theorem loop_back (hplain : NestsPlainly d nulled) {fuel : Nat} {st₀ : JsonState} (hreached : JsonReached d nulled (some st₀) e st)
    (hin : InCall (some st₀) e st) (h : rimJsonLoop d.dec d.noenum d.upTo fuel e st = .ok st') (hec : st'.ec = -1) :
    st'.listC = st₀.listC ∧ st'.depth = st₀.depth + 1 := by
  induction fuel generalizing st₀ e st st' with
  | zero => cases h
  | succ fuel ih =>
    obtain ⟨hbeg, hends⟩ := hplain _ _ _ hreached
    obtain ⟨hendArray, hrefused, hendText⟩ := hends (fun h => nomatch h)
    have hlevel : st.listC = if e.isarr then st₀.listC else st₀.listC + 1 := hin.level
    have hdepth : st.depth = st₀.depth + 1 := hin.depth
    rw [rimJsonLoop] at h
    split at h
    · next hlt =>
      obtain ⟨⟨o, st₂⟩, hstep, h⟩ := bind_eq_ok.mp h
      -- the calls in this one come back
      have hback : ∀ e' st₁, jsonCall e st = some (e', st₁) → ComesBack (d.call fuel) st₁ := by
        intro e' st₁ hcall s hs hsec
        obtain ⟨hno, -⟩ | ⟨⟨hdeep, hlist⟩, s₁, hs₁, rfl⟩ := rimJsonValue_eq_ok hs
        · exact absurd hsec hno
        · have hcalled : JsonReached d nulled (some st₁) {} st₁.enter := .call hreached hlt hcall hdeep hlist
          have hback := ih hcalled (hin.enter (hbeg hlt) hcall hlist) hs₁ hsec
          refine ⟨hback.1, ?_⟩
          show s₁.depth - 1 = st₁.depth
          omega
      match o, hstep, h with
      | some e', hstep, h =>
        exact ih (.next fuel hreached hlt hstep) (hin.step (hbeg hlt) hback JsonDoc.call_length hstep) h hec
      | none, hstep, h =>
        obtain rfl := Except.ok.inj h
        obtain ⟨e', st₁, -, -, ho⟩ | ⟨-, halone⟩ := rimJsonStep_does hstep
        · rw [if_neg (not_not_intro hec)] at ho
          cases ho
        · cases halone with
          | fail hno => exact absurd hec hno
          | value hkept hdown hca =>
            rw [hin.not_isarr hca, if_neg Bool.false_ne_true] at hlevel
            exact ⟨by omega, hkept.depth.trans hdepth⟩
          | endArray htoken hend hkept hsame =>
            rw [hendArray hlt htoken hend, if_pos rfl] at hlevel
            exact ⟨hsame.trans hlevel, hkept.depth.trans hdepth⟩
          | refused err htoken hhere herr => exact absurd herr (hrefused hlt htoken hhere err)
    · next hend =>
      obtain rfl := Except.ok.inj h
      rw [hendText (Nat.not_lt.mp hend), if_neg Bool.false_ne_true] at hlevel
      refine ⟨?_, hdepth⟩
      show st.listC - 1 = st₀.listC
      omega

/-- In every round what holds in a call holds, if arrays begin at a level and calls come back. -/
theorem reached_inCall
    (hbeg : ∀ c e st, JsonReached d nulled c e st → st.i < d.upTo → st.token = some .begArray → e.noValue = none → 0 < st.listC)
    (hback : ∀ c e st, JsonReached d nulled c e st → InCall c e st → st.i < d.upTo →
      ∀ e' st₁, jsonCall e st = some (e', st₁) → ∀ fuel, ComesBack (d.call fuel) st₁)
    (hreached : JsonReached d nulled c e st) : InCall c e st := by
  induction hreached with
  | root => exact InCall.root d nulled
  | next fuel hreached hlt hstep ih =>
    exact ih.step (hbeg _ _ _ hreached hlt) (fun _ _ hcall => hback _ _ _ hreached ih hlt _ _ hcall fuel)
      JsonDoc.call_length hstep
  | call hreached hlt hcall _ hlist ih => exact ih.enter (hbeg _ _ _ hreached hlt) hcall hlist

/-- The call of a round was made in another one, and the rest of its loop is what it comes to. -/
theorem JsonReached.called {st₀ : JsonState} (h : JsonReached d nulled (some st₀) e st) :
    (∃ c' e' st' e'', JsonReached d nulled c' e' st' ∧ st'.i < d.upTo ∧ jsonCall e' st' = some (e'', st₀)) ∧
      (st₀.depth + 1 < RIM_JSON_MAX_NESTED ∧ st₀.listC + 1 < (RIM_JSON_MAX_NESTED : Int) - 1) ∧
      ∀ fuel s, rimJsonLoop d.dec d.noenum d.upTo fuel e st = .ok s →
        ∃ fuel', rimJsonLoop d.dec d.noenum d.upTo fuel' {} st₀.enter = .ok s := by
  generalize hc : some st₀ = c at h
  induction h with
  | root => cases hc
  | @next c e e' st st' fuel₀ _ hlt hstep ih =>
    obtain ⟨hmade, hguard, hgoes⟩ := ih hc
    refine ⟨hmade, hguard, fun fuel s hs => hgoes (max fuel₀ fuel + 1) s ?_⟩
    rw [rimJsonLoop, if_pos hlt]
    refine bind_eq_ok.mpr ⟨(some e', st'), rimJsonStep_mono ?_ hstep, rimJsonLoop_mono hs (Nat.le_max_right _ _)⟩
    intro s s' hvalue
    rw [JsonDoc.call, rimJsonValue_eq] at hvalue
    rw [rimJsonValue_eq]
    split at hvalue
    · next hin =>
      obtain ⟨s₁, hs₁, hvalue⟩ := bind_eq_ok.mp hvalue
      rw [if_pos hin]
      exact bind_eq_ok.mpr ⟨s₁, rimJsonLoop_mono hs₁ (Nat.le_max_left _ _), hvalue⟩
    · next hout =>
      rw [if_neg hout]
      exact hvalue
  | call hreached hlt hcall hdeep hlist =>
    obtain rfl := Option.some.inj hc
    exact ⟨⟨_, _, _, _, hreached, hlt, hcall⟩, ⟨hdeep, hlist⟩, fun fuel s hs => ⟨fuel, hs⟩⟩

/-- Where calls come back, so does the loop of one from any of its rounds. -/
theorem NestsWithin.back {fuel : Nat} {st₀ : JsonState} (hwithin : NestsWithin d nulled)
    (hreached : JsonReached d nulled (some st₀) e st) (h : rimJsonLoop d.dec d.noenum d.upTo fuel e st = .ok st')
    (hec : st'.ec = -1) : st'.listC = st₀.listC := by
  obtain ⟨⟨c', e', s, e'', hmade, hlt, hcall⟩, hguard, hgoes⟩ := hreached.called
  obtain ⟨fuel', hloop⟩ := hgoes _ _ h
  have hvalue : d.call fuel' st₀ = .ok st'.endj := by
    rw [JsonDoc.call, rimJsonValue_eq, if_pos hguard]
    exact bind_eq_ok.mpr ⟨_, hloop, rfl⟩
  exact ((hwithin _ _ _ hmade hlt).2 _ _ hcall _ _ hvalue hec).1

/-- A byte that has a token can be taken. -/
theorem jsonChar_of_token {t : JsonToken} (h : st.token = some t) :
    ∃ c line last, jsonChar st = .ok (c, st.taken line last) ∧ jsonToken c = t := by
  unfold JsonState.token at h
  split at h
  · next c st₀ hc =>
    obtain ⟨-, line, last, rfl⟩ := jsonChar_eq_ok hc
    exact ⟨c, line, last, hc, Option.some.inj h⟩
  · cases h

/-- A round at `]`. -/
theorem rimJsonStep_endArray (htoken : st.token = some .endArray) (hend : e.ArrayEnd) (hpos : 0 ≤ st.listC)
    (hlt : st.listC < (st.list.length : Int)) :
    ∃ s, rimJsonStep dec noenum value e st = .ok (none, s) ∧ s.listC = st.listC ∧ s.ec = st.ec := by
  obtain ⟨c, line, last, hc, htok⟩ := jsonChar_of_token htoken
  have hflags : flagErr [(e.colon, .RIM_ERR_JSON_COLON_EXPECTED),
      (e.commaOrEndObject, .RIM_ERR_JSON_COMMA_END_OBJECT_EXPECTED), (e.name, .RIM_ERR_JSON_NAME_EXPECTED)] = none := by
    obtain ⟨hcolon, hco, hname⟩ := hend
    exact flagErr_eq_none.mpr (by simp [hcolon, hco, hname])
  have hin : st.listC.toNat < st.list.length := by omega
  have hlevel : (st.taken line last).level = .ok st.list[st.listC.toNat] :=
    level_eq_ok.mpr ⟨hpos, List.getElem?_eq_getElem hin⟩
  have hround : jsonEndArray e (st.taken line last) = .ok (none,
      { (st.taken line last).setLevel { st.list[st.listC.toNat] with index := -1 } with i := st.i + 1 }) := by
    unfold jsonEndArray
    rw [hflags]
    exact bind_eq_ok.mpr ⟨_, hlevel, rfl⟩
  have hstep : rimJsonStep dec noenum value e st = jsonEndArray e (st.taken line last) := by
    simp only [rimJsonStep, hc, bind, Except.bind, htok]
  exact ⟨_, hstep.trans hround, rfl, rfl⟩

theorem rimJsonStep_refused {err : RimUtfErr} (htoken : st.token = some .quote) (hhere : e.StringHere)
    (herr : rimTextToUtf (st.val.drop st.i) true dec false = .error (.err err)) :
    ∃ s, rimJsonStep dec noenum value e st = .ok (none, s) ∧ s.listC = st.listC ∧ s.ec = st.ec := by
  obtain ⟨c, line, last, hc, htok⟩ := jsonChar_of_token htoken
  have hflags : flagErr [(e.colon, .RIM_ERR_JSON_COLON_EXPECTED), (e.commaOrEndArray, .RIM_ERR_JSON_COMMA_END_ARRAY_EXPECTED),
      (e.commaOrEndObject, .RIM_ERR_JSON_COMMA_END_OBJECT_EXPECTED)] = none := by
    obtain ⟨hcolon, hca, hco⟩ := hhere
    exact flagErr_eq_none.mpr (by simp [hcolon, hca, hco])
  have herr' : rimTextToUtf ((st.taken line last).val.drop (st.taken line last).i) true dec false = .error (.err err) := herr
  have hround : jsonQuote dec noenum e (st.taken line last) =
      .ok (none, { st.taken line last with errm := some (.utf err) }) := by
    unfold jsonQuote
    rw [hflags, herr']
  have hstep : rimJsonStep dec noenum value e st = jsonQuote dec noenum e (st.taken line last) := by
    simp only [rimJsonStep, hc, bind, Except.bind, htok]
  exact ⟨_, hstep.trans hround, rfl, rfl⟩

/-- The levels that a round uses. -/
theorem InCall.levelAt (hin : InCall c e st) (hbeg : st.token = some .begArray → e.noValue = none → 0 < st.listC) :
    ∀ k ∈ jsonLevelAt e st, 0 ≤ k ∧ k ≤ (RIM_JSON_MAX_NESTED : Int) - 1 := by
  have hpos := hin.pos
  have hlt := hin.lt
  have hhere : ∀ k ∈ (some st.listC : Option Int), 0 ≤ k ∧ k ≤ (RIM_JSON_MAX_NESTED : Int) - 1 := by
    intro k hk
    obtain rfl := Option.some.inj hk
    omega
  have hif (p : Prop) [Decidable p] : ∀ k ∈ (if p then some st.listC else none : Option Int),
      0 ≤ k ∧ k ≤ (RIM_JSON_MAX_NESTED : Int) - 1 := by
    split
    · exact hhere
    · exact fun k hk => nomatch hk
  unfold jsonLevelAt
  split
  · next htoken =>
    split
    · next hno =>
      have hfirst := hbeg htoken hno
      intro k hk
      obtain rfl := Option.some.inj hk
      omega
    · exact fun k hk => nomatch hk
  · exact hif _
  · exact hif _
  · exact hif _
  · exact hif _
  · exact hif _
  · exact hif _
  · exact hif _
  · exact fun k hk => nomatch hk

/-- The counts of a document are right in just the case that its calls end as they were meant to. -/
theorem nestsWithin_iff (d : JsonDoc) (nulled : UInt8) : NestsWithin d nulled ↔ NestsPlainly d nulled := by
  constructor
  · intro hwithin
    have hbeg : ∀ c e st, JsonReached d nulled c e st → st.i < d.upTo → st.token = some .begArray → e.noValue = none →
        0 < st.listC := by
      intro c e st hreached hlt htoken hno
      have hat : jsonLevelAt e st = some (st.listC - 1) := by
        unfold jsonLevelAt
        rw [htoken]
        exact if_pos hno
      have hpos := ((hwithin _ _ _ hreached hlt).1 _ hat).1
      omega
    intro c e st hreached
    have hin : InCall c e st := by
      refine reached_inCall hbeg ?_ hreached
      intro c e st hreached _ hlt e' st₁ hcall fuel
      exact (hwithin _ _ _ hreached hlt).2 _ _ hcall fuel
    refine ⟨hbeg _ _ _ hreached, fun hne => ?_⟩
    obtain ⟨st₀, rfl⟩ := Option.ne_none_iff_exists'.mp hne
    have hlevel : st.listC = if e.isarr then st₀.listC else st₀.listC + 1 := hin.level
    -- a call that ends in this round has one level more or less than before it
    have hends : st.i < d.upTo → ∀ s, rimJsonStep d.dec d.noenum (d.call 0) e st = .ok (none, s) → s.listC = st.listC →
        s.ec = st.ec → st.listC = st₀.listC := by
      intro hlt s hstep hsame hec
      have hloop : rimJsonLoop d.dec d.noenum d.upTo 1 e st = .ok s := by
        rw [rimJsonLoop, if_pos hlt]
        exact bind_eq_ok.mpr ⟨_, hstep, rfl⟩
      exact hsame.symm.trans (hwithin.back hreached hloop (hec.trans hin.ec))
    refine ⟨?_, ?_, ?_⟩
    · intro hlt htoken hend
      by_contra harr
      have hlist : st.listC < (st.list.length : Int) := by
        have hmax := hin.lt
        rw [hin.length]
        omega
      obtain ⟨s, hstep, hsame, hec⟩ := rimJsonStep_endArray htoken hend hin.pos hlist
      have hback := hends hlt s hstep hsame hec
      rw [if_neg harr] at hlevel
      omega
    · intro hlt htoken hhere err herr
      have hnot := hin.not_isarr hhere.2.1
      obtain ⟨s, hstep, hsame, hec⟩ := rimJsonStep_refused htoken hhere herr
      have hback := hends hlt s hstep hsame hec
      rw [hnot, if_neg Bool.false_ne_true] at hlevel
      omega
    · intro hend
      rw [← Bool.not_eq_true]
      intro harr
      have hloop : rimJsonLoop d.dec d.noenum d.upTo 1 e st = .ok { st with listC := st.listC - 1 } := by
        rw [rimJsonLoop, if_neg (Nat.not_lt.mpr hend)]
      have hback : st.listC - 1 = st₀.listC := hwithin.back hreached hloop hin.ec
      rw [if_pos harr] at hlevel
      omega
  · intro hplain
    have hbeg : ∀ c e st, JsonReached d nulled c e st → st.i < d.upTo → st.token = some .begArray → e.noValue = none →
        0 < st.listC := fun c e st hreached => (hplain _ _ _ hreached).1
    have hback : ∀ c e st, JsonReached d nulled c e st → InCall c e st → st.i < d.upTo →
        ∀ e' st₁, jsonCall e st = some (e', st₁) → ∀ fuel, ComesBack (d.call fuel) st₁ := by
      intro c e st hreached hin hlt e' st₁ hcall fuel s hs hsec
      obtain ⟨hno, -⟩ | ⟨⟨hdeep, hlist⟩, s₁, hs₁, rfl⟩ := rimJsonValue_eq_ok hs
      · exact absurd hsec hno
      · have hcalled : JsonReached d nulled (some st₁) {} st₁.enter := .call hreached hlt hcall hdeep hlist
        have hback := loop_back hplain hcalled (hin.enter (hbeg _ _ _ hreached hlt) hcall hlist) hs₁ hsec
        refine ⟨hback.1, ?_⟩
        show s₁.depth - 1 = st₁.depth
        omega
    intro c e st hreached hlt
    have hin := reached_inCall hbeg hback hreached
    exact ⟨hin.levelAt (hbeg _ _ _ hreached hlt), fun e' st₁ hcall fuel => hback _ _ _ hreached hin hlt _ _ hcall fuel⟩

/-- An array that is the whole document is that of level -1. -/
theorem not_nestsWithin :
    ¬ (∀ (d : JsonDoc) (nulled : UInt8), NestsWithin d nulled) ∧
      rimJsonNew 0 { text := ascii "[1]" } = .error .undefined := by
  refine ⟨?_, by decide⟩
  intro h
  have hroot : JsonReached { text := ascii "[1]" } 0 none {} (JsonDoc.start { text := ascii "[1]" } 0).enter :=
    .root (by decide)
  have hat : jsonLevelAt {} (JsonDoc.start { text := ascii "[1]" } 0).enter = some (-1) := by decide
  have hpos := ((h _ 0 _ _ _ hroot (by decide)).1 _ hat).1
  exact absurd hpos (by decide)

end RimStone
