import RimStone.Laws.Json.Scalar

/-!
# One round of the parser

What each part of a round does, by what it changes: a flag that is set is an error, a byte
is taken once, a node is added at the end.
-/

namespace RimStone

open RimStone.Lib

@[simp] theorem flagErr_nil : flagErr [] = none := rfl

@[simp] theorem flagErr_cons (b : Bool) (err : RimJsonErr) (flags : List (Bool × RimJsonErr)) :
    flagErr ((b, err) :: flags) = if b then some err else flagErr flags := by
  cases b <;> simp [flagErr]

theorem flagErr_eq_none {flags : List (Bool × RimJsonErr)} : flagErr flags = none ↔ ∀ x ∈ flags, x.1 = false := by
  induction flags with
  | nil => simp
  | cons x flags ih =>
    obtain ⟨b, err⟩ := x
    cases b <;> simp [ih]

/-- A value can begin where no flag is set. -/
theorem noValue_eq_none {e : Expected} :
    e.noValue = none ↔ e.colon = false ∧ e.commaOrEndArray = false ∧ e.commaOrEndObject = false ∧ e.name = false := by
  unfold Expected.noValue
  simp only [flagErr_cons, flagErr_nil]
  cases e.colon <;> cases e.commaOrEndArray <;> cases e.commaOrEndObject <;> cases e.name <;> simp

theorem fail_ne (st : JsonState) (err : RimJsonErr) : (st.fail err).ec ≠ -1 := by
  show (st.i : Int) ≠ -1
  omega

/-- A byte is taken: the one that was replaced with a null, or the next one of the text. -/
theorem jsonChar_eq_ok {st st' : JsonState} {c : UInt8} (h : jsonChar st = .ok (c, st')) :
    (c = st.nulled ∧ st.nulled ≠ 0 ∨ st.nulled = 0 ∧ st.val[st.i]? = some c) ∧
      ∃ line last, st' = { st with nulled := 0, lineEc := line, lastLineEc := last } := by
  unfold jsonChar at h
  by_cases hn : st.nulled = 0
  · rw [if_neg (not_not_intro hn)] at h
    obtain ⟨a, ha, h⟩ := bind_eq_ok.mp h
    obtain ⟨rfl, rfl⟩ := Prod.mk.inj (Except.ok.inj h)
    refine ⟨Or.inr ⟨hn, inText_eq_ok.mp ha⟩, ?_⟩
    by_cases hline : a = 10
    · exact ⟨st.lineEc + 1, st.i, by rw [if_pos hline]⟩
    · exact ⟨st.lineEc, st.lastLineEc, by rw [if_neg hline]⟩
  · rw [if_pos hn] at h
    obtain ⟨a, ha, h⟩ := bind_eq_ok.mp h
    obtain rfl := Except.ok.inj ha
    obtain ⟨rfl, rfl⟩ := Prod.mk.inj (Except.ok.inj h)
    refine ⟨Or.inl ⟨rfl, hn⟩, ?_⟩
    by_cases hline : st.nulled = 10
    · exact ⟨st.lineEc + 1, st.i, by rw [if_pos hline]⟩
    · exact ⟨st.lineEc, st.lastLineEc, by rw [if_neg hline]⟩

theorem level_eq_ok {st : JsonState} {l : JsonNode} :
    st.level = .ok l ↔ 0 ≤ st.listC ∧ st.list[st.listC.toNat]? = some l := by
  unfold JsonState.level
  by_cases h : 0 ≤ st.listC
  · rw [if_pos h, inText_eq_ok]
    simp [h]
  · rw [if_neg h]
    simp [h]

theorem nextIndex_eq_ok {st st' : JsonState} :
    st.nextIndex = .ok st' ↔ ∃ l, st.level = .ok l ∧ st' = st.setLevel { l with index := l.index + 1 } := by
  unfold JsonState.nextIndex
  rw [bind_eq_ok]
  apply exists_congr
  intro l
  rw [Except.ok.injEq, eq_comm (b := st')]

theorem rimAddJson_eq_ok {noenum : Bool} {type : JsonType} {str : Nat} {st st' : JsonState} :
    rimAddJson noenum type str st = .ok st' ↔
      ∃ name, rimJsonFullname st noenum = .ok name ∧ st' = { st with nodes := st.nodes ++ [{ name, type, str }] } := by
  unfold rimAddJson
  rw [bind_eq_ok]
  apply exists_congr
  intro name
  rw [Except.ok.injEq, eq_comm (b := st')]

/-- A number or a literal ends. -/
theorem jsonScalar_eq_ok {noenum : Bool} {type : JsonType} {n : Nat} {st st' : JsonState} {o : Option Expected} :
    jsonScalar noenum type n st = .ok (o, st') ↔
      ∃ tb name, st.val[st.i + n]? = some tb ∧
        rimJsonFullname { st with val := st.val.set (st.i + n) 0, nulled := tb } noenum = .ok name ∧
        o = none ∧ st' = { st with
          val := st.val.set (st.i + n) 0
          nulled := tb
          i := st.i + n
          listC := st.listC - 1
          nodes := st.nodes ++ [{ name, type, str := st.i }] } := by
  constructor
  · intro h
    obtain ⟨tb, htb, h⟩ := bind_eq_ok.mp h
    obtain ⟨val, hval, h⟩ := bind_eq_ok.mp h
    obtain ⟨-, rfl⟩ := poke_eq_some.mp (inText_eq_ok.mp hval)
    obtain ⟨st₁, hst₁, h⟩ := bind_eq_ok.mp h
    obtain ⟨name, hname, rfl⟩ := rimAddJson_eq_ok.mp hst₁
    obtain ⟨rfl, rfl⟩ := Prod.mk.inj (Except.ok.inj h)
    exact ⟨tb, name, inText_eq_ok.mp htb, hname, rfl, rfl⟩
  · intro h
    obtain ⟨tb, name, htb, hname, rfl, rfl⟩ := h
    have hlt := (List.getElem?_eq_some_iff.mp htb).1
    unfold jsonScalar
    rw [bind_eq_ok]
    refine ⟨tb, inText_eq_ok.mpr htb, bind_eq_ok.mpr ⟨_, inText_eq_ok.mpr (poke_eq hlt 0), ?_⟩⟩
    rw [bind_eq_ok]
    exact ⟨_, rimAddJson_eq_ok.mpr ⟨name, hname, rfl⟩, rfl⟩

/-- The text with a null for the quote that ends a string. -/
def quotedText (val : Bytes) (i : Nat) (t : TextEnd) : Bytes := (val.take i ++ t.val).set (i + t.last) 0

/-- A string is written between its quotes, and over the second one. -/
theorem quotedText_window {val : Bytes} {i : Nat} {dec : Bool} {t : TextEnd}
    (h : rimTextToUtf (val.drop i) true dec false = .ok t) :
    1 ≤ t.last ∧ val[i + t.last]? = some 34 ∧ Window val (quotedText val i t) (i + 1) (i + t.last + 1) := by
  obtain ⟨hone, hend, hwrote⟩ := rimTextToUtf_quoted h
  rw [List.getElem?_drop] at hend
  have hlt := (List.getElem?_eq_some_iff.mp hend).1
  have htake : (val.take i).length = i := List.length_take_of_le (by omega)
  refine ⟨hone, hend, ?_⟩
  have hall := hwrote.append_left (a := val.take i)
  rw [List.take_append_drop, htake] at hall
  exact (hall.mono (Nat.le_refl _) (Nat.le_succ _)).trans (Window.set _ (by omega) (by omega) 0)

theorem stringLength_eq {t : TextEnd} (h : t.last < 2 ^ 31) : stringLength t = t.last := by
  unfold stringLength
  apply Int.bmod_eq_of_le_mul_two <;> omega

theorem jsonQuote_flagged (dec noenum : Bool) {e : Expected} (st : JsonState)
    (h : ¬ (e.colon = false ∧ e.commaOrEndArray = false ∧ e.commaOrEndObject = false)) :
    ∃ err, jsonQuote dec noenum e st = .ok (none, st.fail err) := by
  unfold jsonQuote
  simp only [flagErr_cons, flagErr_nil]
  cases hcolon : e.colon with
  | true => exact ⟨_, rfl⟩
  | false =>
    cases hca : e.commaOrEndArray with
    | true => exact ⟨_, rfl⟩
    | false =>
      cases hco : e.commaOrEndObject with
      | true => exact ⟨_, rfl⟩
      | false => exact absurd ⟨hcolon, hca, hco⟩ h

/-- A string is in error, or is a name, or is a value. -/
theorem jsonQuote_eq_ok {dec noenum : Bool} {e : Expected} {st st' : JsonState} {o : Option Expected}
    (hcolon : e.colon = false) (hca : e.commaOrEndArray = false) (hco : e.commaOrEndObject = false)
    (h : jsonQuote dec noenum e st = .ok (o, st')) :
    (∃ err, rimTextToUtf (st.val.drop st.i) true dec false = .error (.err err) ∧ o = none ∧
        st' = { st with errm := some (.utf err) }) ∨
      ∃ t i, rimTextToUtf (st.val.drop st.i) true dec false = .ok t ∧ ((i : Nat) : Int) = st.i + stringLength t + 1 ∧
        ((e.name = true ∧ ∃ l, st.level = .ok l ∧ o = some { colon := true, isarr := e.isarr, isobj := e.isobj } ∧
            st' = JsonState.setLevel
              { st with val := quotedText st.val st.i t, i }
              { l with name := some (st.i + 1), nameLen := stringLength t - 1 }) ∨
          (e.name = false ∧ ∃ name, rimJsonFullname { st with val := quotedText st.val st.i t } noenum = .ok name ∧
            o = none ∧ st' = { st with
              val := quotedText st.val st.i t
              i := i
              listC := st.listC - 1
              nodes := st.nodes ++ [{ name, type := .string, str := st.i + 1 }] })) := by
  unfold jsonQuote at h
  simp only [flagErr_cons, flagErr_nil, hcolon, hca, hco, Bool.false_eq_true, if_false] at h
  cases ht : rimTextToUtf (st.val.drop st.i) true dec false with
  | error err =>
    rw [ht] at h
    cases err with
    | undefined => cases h
    | err err =>
      obtain ⟨rfl, rfl⟩ := Prod.mk.inj (Except.ok.inj h)
      exact Or.inl ⟨err, rfl, rfl, rfl⟩
  | ok t =>
    rw [ht] at h
    obtain ⟨val, hval, h⟩ := bind_eq_ok.mp h
    obtain ⟨-, rfl⟩ := poke_eq_some.mp (inText_eq_ok.mp hval)
    by_cases hneg : (st.i : Int) + stringLength t + 1 < 0
    · rw [if_pos hneg] at h
      cases h
    rw [if_neg hneg] at h
    obtain ⟨i, hi⟩ := Int.eq_ofNat_of_zero_le (Int.not_lt.mp hneg)
    refine Or.inr ⟨t, i, rfl, hi.symm, ?_⟩
    rw [hi, Int.toNat_natCast] at h
    cases hname : e.name with
    | true =>
      rw [hname, if_pos rfl] at h
      obtain ⟨l, hl, h⟩ := bind_eq_ok.mp h
      obtain ⟨rfl, rfl⟩ := Prod.mk.inj (Except.ok.inj h)
      exact Or.inl ⟨rfl, l, hl, rfl, rfl⟩
    | false =>
      rw [hname, if_neg Bool.false_ne_true] at h
      obtain ⟨st₁, hst₁, h⟩ := bind_eq_ok.mp h
      obtain ⟨name, hn, rfl⟩ := rimAddJson_eq_ok.mp hst₁
      obtain ⟨rfl, rfl⟩ := Prod.mk.inj (Except.ok.inj h)
      exact Or.inr ⟨rfl, name, hn, rfl, rfl⟩

/-! ## What a round does -/

/-- `]` can come here. -/
def Expected.ArrayEnd (e : Expected) : Prop := e.colon = false ∧ e.commaOrEndObject = false ∧ e.name = false

def Expected.StringHere (e : Expected) : Prop := e.colon = false ∧ e.commaOrEndArray = false ∧ e.commaOrEndObject = false

/-- A value can come after `:` here. -/
def Expected.ColonHere (e : Expected) : Prop := e.commaOrEndArray = false ∧ e.commaOrEndObject = false ∧ e.name = false

def Expected.ElementHere (e : Expected) : Prop := e.colon = false ∧ e.name = false ∧ e.isobj = false ∧ e.isarr = true

instance : DecidablePred Expected.ArrayEnd := fun _ => inferInstanceAs (Decidable (_ ∧ _))
instance : DecidablePred Expected.StringHere := fun _ => inferInstanceAs (Decidable (_ ∧ _))
instance : DecidablePred Expected.ColonHere := fun _ => inferInstanceAs (Decidable (_ ∧ _))
instance : DecidablePred Expected.ElementHere := fun _ => inferInstanceAs (Decidable (_ ∧ _))

/-- The call at a token: the flags after it, and the variables before it. -/
def callFrom (token : JsonToken) (e : Expected) (st : JsonState) : Option (Expected × JsonState) :=
  match token with
  | .begArray =>
    if e.noValue = none then
      match JsonState.nextIndex { st with i := st.i + 1, listC := st.listC - 1 } with
      | .ok st => some ({ e with isarr := true, commaOrEndArray := true }, st)
      | .error _ => none
    else none
  | .colon =>
    if e.ColonHere then some ({ e with colon := false, commaOrEndObject := true }, { st with i := st.i + 1 }) else none
  | .comma =>
    if e.ElementHere then
      match JsonState.nextIndex { st with i := st.i + 1 } with
      | .ok st => some ({ e with commaOrEndArray := true, commaOrEndObject := false }, st)
      | .error _ => none
    else none
  | _ => none

theorem setLevel_length (st : JsonState) (l : JsonNode) : (st.setLevel l).list.length = st.list.length :=
  List.length_set

def JsonState.taken (st : JsonState) (line last : Nat) : JsonState := { st with nulled := 0, lineEc := line, lastLineEc := last }


inductive CallAt (e : Expected) (st : JsonState) : JsonToken → Expected → JsonState → Prop where
  | begArray {l : JsonNode} (hno : e.noValue = none) :
      CallAt e st .begArray { e with isarr := true, commaOrEndArray := true }
        (JsonState.setLevel { st with i := st.i + 1, listC := st.listC - 1 } l)
  | colon (hhere : e.ColonHere) :
      CallAt e st .colon { e with colon := false, commaOrEndObject := true } { st with i := st.i + 1 }
  | comma {l : JsonNode} (hhere : e.ElementHere) :
      CallAt e st .comma { e with commaOrEndArray := true, commaOrEndObject := false }
        (JsonState.setLevel { st with i := st.i + 1 } l)

theorem callFrom_at {token : JsonToken} {e e' : Expected} {st st₁ : JsonState}
    (h : callFrom token e st = some (e', st₁)) : CallAt e st token e' st₁ := by
  unfold callFrom at h
  split at h
  · split at h
    · next hno =>
      split at h
      · next st₂ hnext =>
        obtain ⟨rfl, rfl⟩ := Prod.mk.inj (Option.some.inj h)
        obtain ⟨l, -, rfl⟩ := nextIndex_eq_ok.mp hnext
        exact .begArray hno
      · cases h
    · cases h
  · split at h
    · next hhere =>
      obtain ⟨rfl, rfl⟩ := Prod.mk.inj (Option.some.inj h)
      exact .colon hhere
    · cases h
  · split at h
    · next hhere =>
      split at h
      · next st₂ hnext =>
        obtain ⟨rfl, rfl⟩ := Prod.mk.inj (Option.some.inj h)
        obtain ⟨l, -, rfl⟩ := nextIndex_eq_ok.mp hnext
        exact .comma hhere
      · cases h
    · cases h
  · cases h

def LiteralAt (token : JsonToken) (lit : Bytes) : Prop :=
  token = .true ∧ lit = ascii "true" ∨ token = .false ∧ lit = ascii "false" ∨ token = .null ∧ lit = ascii "null"

/-- A number or a literal of `n` bytes at a token. -/
def ScalarAt (st : JsonState) (token : JsonToken) (n : Nat) : Prop :=
  (token = .number ∧ ∃ rv, rimJsonNum (st.val.drop st.i) = .ok (some (rv, n))) ∨
    ∃ lit, LiteralAt token lit ∧ strncmp lit.length (st.val.drop st.i) lit = 0 ∧ n = lit.length

/-- What a round does when a byte has been taken. -/
inductive TokenRound (dec noenum : Bool) (value : JsonState → Except JsonFault JsonState) (e : Expected) (st : JsonState) :
    JsonToken → Option Expected → JsonState → Prop where
  | fail {token : JsonToken} (i : Nat) (err : RimJsonErr) (hno : callFrom token e st = none) :
      TokenRound dec noenum value e st token none (JsonState.fail { st with i } err)
  | call {token : JsonToken} {e' : Expected} {st₁ st' : JsonState} (hcall : callFrom token e st = some (e', st₁))
      (hvalue : value st₁ = .ok st') :
      TokenRound dec noenum value e st token (if st'.ec ≠ -1 then none else some e') st'
  | begObject (hca : e.commaOrEndArray = false) :
      TokenRound dec noenum value e st .begObject (some { e with name := true, isobj := true }) { st with i := st.i + 1 }
  | endObject (hca : e.commaOrEndArray = false) :
      TokenRound dec noenum value e st .endObject none { st with listC := st.listC - 1, i := st.i + 1 }
  | endArray {l : JsonNode} (hend : e.ArrayEnd) :
      TokenRound dec noenum value e st .endArray none { st.setLevel l with i := st.i + 1 }
  | member (hobj : e.isobj = true) :
      TokenRound dec noenum value e st .comma
        (some { e with commaOrEndArray := false, commaOrEndObject := false, name := true }) { st with i := st.i + 1 }
  | white : TokenRound dec noenum value e st .white (some e) { st with i := st.i + 1 }
  | refused {err : RimUtfErr} (hhere : e.StringHere)
      (herr : rimTextToUtf (st.val.drop st.i) true dec false = .error (.err err)) :
      TokenRound dec noenum value e st .quote none { st with errm := some (.utf err) }
  | name {t : TextEnd} {i : Nat} {l : JsonNode} (hhere : e.StringHere) (hname : e.name = true)
      (ht : rimTextToUtf (st.val.drop st.i) true dec false = .ok t) (hi : (i : Int) = st.i + stringLength t + 1) :
      TokenRound dec noenum value e st .quote (some { colon := true, isarr := e.isarr, isobj := e.isobj })
        (JsonState.setLevel { st with val := quotedText st.val st.i t, i } l)
  | string {t : TextEnd} {i : Nat} {node : RimJsonn} (hhere : e.StringHere)
      (ht : rimTextToUtf (st.val.drop st.i) true dec false = .ok t) (hi : (i : Int) = st.i + stringLength t + 1) :
      TokenRound dec noenum value e st .quote none
        { st with val := quotedText st.val st.i t, i, listC := st.listC - 1, nodes := st.nodes ++ [node] }
  | scalar {token : JsonToken} {n : Nat} {tb : UInt8} {node : RimJsonn} (hno : e.noValue = none)
      (hat : ScalarAt st token n) (htb : st.val[st.i + n]? = some tb) :
      TokenRound dec noenum value e st token none
        { st with
          val := st.val.set (st.i + n) 0
          nulled := tb
          i := st.i + n
          listC := st.listC - 1
          nodes := st.nodes ++ [node] }

section

variable {dec noenum : Bool} {value : JsonState → Except JsonFault JsonState} {e : Expected} {o : Option Expected}
  {st st' : JsonState}

theorem TokenRound.flagged {token : JsonToken} {err : RimJsonErr} (hno : callFrom token e st = none)
    (h : (Except.ok (none, st.fail err) : JsonStep) = .ok (o, st')) :
    TokenRound dec noenum value e st token o st' := by
  obtain ⟨rfl, rfl⟩ := Prod.mk.inj (Except.ok.inj h)
  exact .fail st.i err hno

theorem jsonBegObject_round (h : jsonBegObject e st = .ok (o, st')) :
    TokenRound dec noenum value e st .begObject o st' := by
  unfold jsonBegObject at h
  split at h
  · exact .flagged rfl h
  · next hflag =>
    have hflags := flagErr_eq_none.mp hflag
    simp only [List.forall_mem_cons] at hflags
    obtain ⟨rfl, rfl⟩ := Prod.mk.inj (Except.ok.inj h)
    exact .begObject hflags.2.2.1

theorem jsonEndObject_round (h : jsonEndObject e st = .ok (o, st')) :
    TokenRound dec noenum value e st .endObject o st' := by
  unfold jsonEndObject at h
  split at h
  · exact .flagged rfl h
  · next hflag =>
    have hflags := flagErr_eq_none.mp hflag
    simp only [List.forall_mem_cons] at hflags
    obtain ⟨rfl, rfl⟩ := Prod.mk.inj (Except.ok.inj h)
    exact .endObject hflags.2.1

theorem jsonBegArray_round (h : jsonBegArray value e st = .ok (o, st')) :
    TokenRound dec noenum value e st .begArray o st' := by
  unfold jsonBegArray at h
  cases hno : e.noValue with
  | some err =>
    rw [hno] at h
    exact .flagged (if_neg (by simp [hno])) h
  | none =>
    rw [hno] at h
    obtain ⟨st₁, hst₁, h⟩ := bind_eq_ok.mp h
    obtain ⟨st₂, hst₂, h⟩ := bind_eq_ok.mp h
    obtain ⟨rfl, rfl⟩ := Prod.mk.inj (Except.ok.inj h)
    refine .call ?_ hst₂
    unfold callFrom
    dsimp only
    rw [if_pos hno, hst₁]

theorem jsonEndArray_round (h : jsonEndArray e st = .ok (o, st')) :
    TokenRound dec noenum value e st .endArray o st' := by
  unfold jsonEndArray at h
  split at h
  · exact .flagged rfl h
  · next hflag =>
    have hend : e.ArrayEnd := by
      unfold Expected.ArrayEnd
      simpa using flagErr_eq_none.mp hflag
    obtain ⟨l, -, h⟩ := bind_eq_ok.mp h
    obtain ⟨rfl, rfl⟩ := Prod.mk.inj (Except.ok.inj h)
    exact .endArray hend

theorem jsonColon_round (h : jsonColon value e st = .ok (o, st')) : TokenRound dec noenum value e st .colon o st' := by
  unfold jsonColon at h
  split at h
  · next err hflag =>
    have hno : ¬ e.ColonHere := by
      rintro ⟨hca, hco, hname⟩
      rw [flagErr_eq_none.mpr (by simp [hca, hco, hname])] at hflag
      cases hflag
    exact .flagged (if_neg hno) h
  · next hflag =>
    have hhere : e.ColonHere := by
      unfold Expected.ColonHere
      simpa using flagErr_eq_none.mp hflag
    obtain ⟨st₂, hst₂, h⟩ := bind_eq_ok.mp h
    obtain ⟨rfl, rfl⟩ := Prod.mk.inj (Except.ok.inj h)
    exact .call (if_pos hhere) hst₂

theorem jsonComma_round (h : jsonComma value e st = .ok (o, st')) : TokenRound dec noenum value e st .comma o st' := by
  unfold jsonComma at h
  split at h
  · next err hflag =>
    have hno : ¬ e.ElementHere := by
      rintro ⟨hcolon, hname, -⟩
      rw [flagErr_eq_none.mpr (by simp [hcolon, hname])] at hflag
      cases hflag
    exact .flagged (if_neg hno) h
  · next hflag =>
    have hflags : e.colon = false ∧ e.name = false := by simpa using flagErr_eq_none.mp hflag
    dsimp only at h
    split at h
    · next hobj =>
      obtain ⟨rfl, rfl⟩ := Prod.mk.inj (Except.ok.inj h)
      exact .member hobj
    · next hobj =>
      rw [Bool.not_eq_true] at hobj
      split at h
      · next harr =>
        obtain ⟨st₁, hst₁, h⟩ := bind_eq_ok.mp h
        obtain ⟨st₂, hst₂, h⟩ := bind_eq_ok.mp h
        obtain ⟨rfl, rfl⟩ := Prod.mk.inj (Except.ok.inj h)
        have hhere : e.ElementHere := ⟨hflags.1, hflags.2, hobj, harr⟩
        refine .call ?_ hst₂
        unfold callFrom
        dsimp only
        rw [if_pos hhere, hst₁]
      · next harr =>
        have hno : ¬ e.ElementHere := fun hhere => harr hhere.2.2.2
        obtain ⟨rfl, rfl⟩ := Prod.mk.inj (Except.ok.inj h)
        exact .fail (st.i + 1) .RIM_ERR_JSON_UNRECOGNIZED (if_neg hno)

theorem jsonQuote_round (h : jsonQuote dec noenum e st = .ok (o, st')) :
    TokenRound dec noenum value e st .quote o st' := by
  by_cases hhere : e.StringHere
  · have ⟨hcolon, hca, hco⟩ := hhere
    obtain ⟨err, herr, rfl, rfl⟩ | ⟨t, i, ht, hi, hname | hvalue⟩ := jsonQuote_eq_ok hcolon hca hco h
    · exact .refused hhere herr
    · obtain ⟨hname, l, -, rfl, rfl⟩ := hname
      exact .name hhere hname ht hi
    · obtain ⟨-, name, -, rfl, rfl⟩ := hvalue
      exact .string hhere ht hi
  · obtain ⟨err, herr⟩ := jsonQuote_flagged dec noenum st hhere
    exact .flagged rfl (herr.symm.trans h)

theorem jsonNumber_round (h : jsonNumber noenum e st = .ok (o, st')) :
    TokenRound dec noenum value e st .number o st' := by
  unfold jsonNumber at h
  split at h
  · exact .flagged rfl h
  · next hno =>
    obtain ⟨r, hr, h⟩ := bind_eq_ok.mp h
    cases r with
    | none => exact .flagged rfl h
    | some r =>
      obtain ⟨rv, r⟩ := r
      obtain ⟨tb, name, htb, -, rfl, rfl⟩ := jsonScalar_eq_ok.mp h
      exact .scalar hno (Or.inl ⟨rfl, rv, hr⟩) htb

theorem jsonLiteral_round {token : JsonToken} {lit : Bytes} {type : JsonType} (hlit : LiteralAt token lit)
    (h : jsonLiteral noenum lit type e st = .ok (o, st')) : TokenRound dec noenum value e st token o st' := by
  have hcall : callFrom token e st = none := by
    obtain ⟨rfl, -⟩ | ⟨rfl, -⟩ | ⟨rfl, -⟩ := hlit <;> rfl
  unfold jsonLiteral at h
  split at h
  · exact .flagged hcall h
  · next hno =>
    split at h
    · exact .flagged hcall h
    · next hcmp =>
      obtain ⟨tb, name, htb, -, rfl, rfl⟩ := jsonScalar_eq_ok.mp h
      exact .scalar hno (Or.inr ⟨lit, hlit, not_not.mp hcmp, rfl⟩) htb

/-- What a round does, after the byte it takes. -/
theorem rimJsonStep_round (h : rimJsonStep dec noenum value e st = .ok (o, st')) :
    ∃ c line last, jsonChar st = .ok (c, st.taken line last) ∧
      TokenRound dec noenum value e (st.taken line last) (jsonToken c) o st' := by
  unfold rimJsonStep at h
  obtain ⟨⟨c, st₁⟩, hc, h⟩ := bind_eq_ok.mp h
  obtain ⟨-, line, last, rfl⟩ := jsonChar_eq_ok hc
  refine ⟨c, line, last, hc, ?_⟩
  dsimp only at h
  generalize jsonToken c = token at h
  cases token with
  | begObject => exact jsonBegObject_round h
  | endObject => exact jsonEndObject_round h
  | begArray => exact jsonBegArray_round h
  | endArray => exact jsonEndArray_round h
  | colon => exact jsonColon_round h
  | comma => exact jsonComma_round h
  | white =>
    obtain ⟨rfl, rfl⟩ := Prod.mk.inj (Except.ok.inj h)
    exact .white
  | quote => exact jsonQuote_round h
  | number => exact jsonNumber_round h
  | true => exact jsonLiteral_round (Or.inl ⟨rfl, rfl⟩) h
  | false => exact jsonLiteral_round (Or.inr (Or.inl ⟨rfl, rfl⟩)) h
  | null => exact jsonLiteral_round (Or.inr (Or.inr ⟨rfl, rfl⟩)) h
  | unknown => exact .flagged rfl h

end

end RimStone
