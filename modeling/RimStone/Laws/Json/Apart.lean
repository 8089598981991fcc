import RimStone.Laws.Json.Cut
import RimStone.Laws.Json.Reading

/-!
# Where a token is read differently

A token that is read differently in a part of a document and in the whole is the last one that is parsed. One run of
the parser has read it and is at the end of the part; the other is in error, or has found another value. This comes up
through the calls to the answer, as there is nothing left to parse for the one, and the other is in error, or comes to
the quote again that it has not read.
-/

namespace RimStone

open RimStone.Lib

/-- A run that has read what there was, where it comes to an end at all. -/
def Passes (len : Nat) (x : Except JsonFault JsonState) : Prop := ∀ st, x = .ok st → st.ec = -1 ∧ len ≤ st.i

/-- A run that is in error, or comes to the quote of a string that it has refused. -/
def Refuses (len : Nat) (x : Except JsonFault JsonState) : Prop :=
  ∃ st, x = .ok st ∧ 0 ∈ st.val.drop st.i ∧ (st.ec ≠ -1 ∨ st.nulled = 0 ∧ st.i < len ∧ st.val[st.i]? = some 34)

/-- A run that has read what there was, and found some leaves. -/
def Finds (len : Nat) (leaves : List JsonLeaf) (x : Except JsonFault JsonState) : Prop :=
  ∃ st, x = .ok st ∧ 0 ∈ st.val.drop st.i ∧ st.ec = -1 ∧ len ≤ st.i ∧ st.leaves = leaves

inductive Apart (len : Nat) (x y : Except JsonFault JsonState) : Prop
  | first : Passes len x → Refuses len y → Apart len x y
  | second : Refuses len x → Passes len y → Apart len x y
  | leaves {ls lp : List JsonLeaf} : Finds len ls x → Finds len lp y → ls ≠ lp → Apart len x y

/-! ## After a call -/

section

variable {dec noenum : Bool} {len fuel : Nat} {e e' : Expected} {st st₁ : JsonState} {x y : Except JsonFault JsonState}

def afterRound (dec noenum : Bool) (len fuel : Nat) : JsonStep → Except JsonFault JsonState
  | .error err => .error err
  | .ok (some e, st) => rimJsonLoop dec noenum len fuel e st
  | .ok (none, st) => .ok st

theorem rimJsonLoop_succ (hi : st.i < len) :
    rimJsonLoop dec noenum len (fuel + 1) e st =
      afterRound dec noenum len fuel (rimJsonStep dec noenum (rimJsonValue (rimJsonLoop dec noenum len fuel)) e st) := by
  rw [rimJsonLoop, if_pos hi]
  cases rimJsonStep dec noenum (rimJsonValue (rimJsonLoop dec noenum len fuel)) e st with
  | error err => rfl
  | ok x =>
    obtain ⟨o, st'⟩ := x
    cases o with
    | none => rfl
    | some e' => rfl

/-- What is done after the loop of a call in a round. -/
def afterCall (dec noenum : Bool) (len fuel : Nat) (e : Expected) (x : Except JsonFault JsonState) : Except JsonFault JsonState :=
  x >>= fun st => if st.ec ≠ -1 then .ok st.endj else rimJsonLoop dec noenum len fuel e st.endj

/-- A round that makes a call is that call. -/
theorem rimJsonStep_call {value : JsonState → Except JsonFault JsonState} (hcall : jsonCall e st = some (e', st₁)) :
    rimJsonStep dec noenum value e st =
      value st₁ >>= fun st => .ok (if st.ec ≠ -1 then none else some e', st) := by
  unfold jsonCall at hcall
  split at hcall
  · next c st₀ hc =>
    simp only [rimJsonStep, hc, bind, Except.bind]
    generalize jsonToken c = t at hcall
    unfold callFrom at hcall
    split at hcall
    · split at hcall
      · next hno =>
        split at hcall
        · next st₂ hnext =>
          obtain ⟨rfl, rfl⟩ := Prod.mk.inj (Option.some.inj hcall)
          simp only [jsonBegArray, hno, hnext, bind, Except.bind]
        · cases hcall
      · cases hcall
    · split at hcall
      · next hhere =>
        obtain ⟨rfl, rfl⟩ := Prod.mk.inj (Option.some.inj hcall)
        obtain ⟨hca, hco, hname⟩ := hhere
        simp only [jsonColon, hca, hco, hname, flagErr_cons, flagErr_nil, Bool.false_eq_true, if_false, bind, Except.bind]
      · cases hcall
    · split at hcall
      · next hhere =>
        split at hcall
        · next st₂ hnext =>
          obtain ⟨rfl, rfl⟩ := Prod.mk.inj (Option.some.inj hcall)
          obtain ⟨hcolon, hname, hobj, harr⟩ := hhere
          simp only [jsonComma, hcolon, hname, hobj, harr, flagErr_cons, flagErr_nil, Bool.false_eq_true, if_false, if_true,
            hnext, bind, Except.bind]
        · cases hcall
      · cases hcall
    · cases hcall
  · cases hcall

theorem rimJsonLoop_call (hi : st.i < len) (hcall : jsonCall e st = some (e', st₁))
    (hdepth : st₁.depth + 1 < RIM_JSON_MAX_NESTED) (hlevel : st₁.listC + 1 < (RIM_JSON_MAX_NESTED : Int) - 1) :
    rimJsonLoop dec noenum len (fuel + 1) e st =
      afterCall dec noenum len fuel e' (rimJsonLoop dec noenum len fuel {} st₁.enter) := by
  rw [rimJsonLoop_succ hi, rimJsonStep_call hcall, rimJsonValue_eq, if_pos ⟨hdepth, hlevel⟩]
  unfold afterCall
  cases rimJsonLoop dec noenum len fuel {} st₁.enter with
  | error err => rfl
  | ok s =>
    show afterRound dec noenum len fuel (.ok (if s.ec ≠ -1 then none else some e', s.endj)) =
      if s.ec ≠ -1 then .ok s.endj else rimJsonLoop dec noenum len fuel e' s.endj
    by_cases hec : s.ec ≠ -1
    · rw [if_pos hec, if_pos hec]
      rfl
    · rw [if_neg hec, if_neg hec]
      rfl

/-- Before a call a byte is taken, and after it a comma or an end is expected. -/
theorem jsonCall_quiet (hcall : jsonCall e st = some (e', st₁)) :
    st₁.nulled = 0 ∧ (e'.commaOrEndArray = true ∨ e'.commaOrEndObject = true) := by
  unfold jsonCall at hcall
  split at hcall
  · next c st₀ hc =>
    obtain ⟨-, line, last, rfl⟩ := jsonChar_eq_ok hc
    generalize jsonToken c = t at hcall
    cases callFrom_at hcall with
    | begArray => exact ⟨rfl, .inl rfl⟩
    | colon => exact ⟨rfl, .inr rfl⟩
    | comma => exact ⟨rfl, .inl rfl⟩
  · cases hcall

/-- There is nothing to do for a loop at the end. -/
theorem rimJsonLoop_end (hi : len ≤ st.i) : rimJsonLoop dec noenum len (fuel + 1) e st = .ok { st with listC := st.listC - 1 } := by
  rw [rimJsonLoop, if_neg (Nat.not_lt.mpr hi)]

theorem passes_loop (hec : st.ec = -1) (hi : len ≤ st.i) : Passes len (rimJsonLoop dec noenum len fuel e st) := by
  intro st' h
  cases fuel with
  | zero => cases h
  | succ fuel =>
    rw [rimJsonLoop_end hi] at h
    obtain rfl := Except.ok.inj h
    exact ⟨hec, hi⟩

theorem Passes.after (h : Passes len x) : Passes len (afterCall dec noenum len fuel e x) := by
  unfold afterCall
  cases x with
  | error err =>
    intro st hst
    cases hst
  | ok st =>
    obtain ⟨hec, hi⟩ := h st rfl
    show Passes len (if st.ec ≠ -1 then .ok st.endj else rimJsonLoop dec noenum len fuel e st.endj)
    rw [if_neg (not_not_intro hec)]
    exact passes_loop hec hi

theorem Finds.after {leaves : List JsonLeaf} (h : Finds len leaves x) (hfuel : fuel ≠ 0) :
    Finds len leaves (afterCall dec noenum len fuel e x) := by
  obtain ⟨st, rfl, hnull, hec, hi, hleaves⟩ := h
  obtain ⟨fuel, rfl⟩ := Nat.exists_eq_succ_of_ne_zero hfuel
  refine ⟨{ st.endj with listC := st.listC - 1 }, ?_, hnull, hec, hi, hleaves⟩
  show (if st.ec ≠ -1 then .ok st.endj else rimJsonLoop dec noenum len (fuel + 1) e st.endj) = _
  rw [if_neg (not_not_intro hec)]
  exact rimJsonLoop_end hi

/-- A quote where a comma or an end is expected. -/
theorem rimJsonStep_quote_flagged {value : JsonState → Except JsonFault JsonState} (hn : st.nulled = 0)
    (hc : st.val[st.i]? = some 34) (hflags : e.commaOrEndArray = true ∨ e.commaOrEndObject = true) :
    ∃ st', rimJsonStep dec noenum value e st = .ok (none, st') ∧ st'.ec ≠ -1 ∧ st'.val = st.val ∧ st'.i = st.i := by
  have hchar : jsonChar st = .ok (34, st.taken st.lineEc st.lastLineEc) := by
    have hbyte : (if st.nulled ≠ 0 then .ok st.nulled else inText st.val[st.i]?) = Except.ok (34 : UInt8) := by
      rw [if_neg (not_not_intro hn), hc]
      rfl
    exact jsonChar_taken hbyte
  obtain ⟨err, herr⟩ := @jsonQuote_flagged dec noenum e (st.taken st.lineEc st.lastLineEc) fun hhere => by
    obtain ⟨-, hca, hco⟩ := hhere
    obtain hflag | hflag := hflags
    · rw [hca] at hflag
      cases hflag
    · rw [hco] at hflag
      cases hflag
  have hstep : rimJsonStep dec noenum value e st = jsonQuote dec noenum e (st.taken st.lineEc st.lastLineEc) := by
    simp only [rimJsonStep, hchar, bind, Except.bind]
    rfl
  exact ⟨_, hstep.trans herr, fail_ne _ _, rfl, rfl⟩

theorem Refuses.after (h : Refuses len x) (hfuel : fuel ≠ 0) (hflags : e.commaOrEndArray = true ∨ e.commaOrEndObject = true) :
    Refuses len (afterCall dec noenum len fuel e x) := by
  obtain ⟨st, rfl, hnull, hwhy⟩ := h
  obtain ⟨fuel, rfl⟩ := Nat.exists_eq_succ_of_ne_zero hfuel
  show Refuses len (if st.ec ≠ -1 then .ok st.endj else rimJsonLoop dec noenum len (fuel + 1) e st.endj)
  by_cases hec : st.ec ≠ -1
  · rw [if_pos hec]
    exact ⟨_, rfl, hnull, .inl hec⟩
  · rw [if_neg hec]
    obtain ⟨hn, hi, hc⟩ := hwhy.resolve_left hec
    obtain ⟨st', hstep, hec', hval, hi'⟩ := @rimJsonStep_quote_flagged dec noenum e st.endj
      (rimJsonValue (rimJsonLoop dec noenum len fuel)) hn hc hflags
    refine ⟨st', ?_, ?_, .inl hec'⟩
    · have hloop := @rimJsonLoop_succ dec noenum len fuel e st.endj hi
      rw [hloop, hstep]
      rfl
    · rw [hval, hi']
      exact hnull

theorem Apart.after (h : Apart len x y) (hfuel : fuel ≠ 0) (hflags : e.commaOrEndArray = true ∨ e.commaOrEndObject = true) :
    Apart len (afterCall dec noenum len fuel e x) (afterCall dec noenum len fuel e y) := by
  cases h with
  | first hx hy => exact .first hx.after (hy.after hfuel hflags)
  | second hx hy => exact .second (hx.after hfuel hflags) hy.after
  | leaves hx hy hne => exact .leaves (hx.after hfuel) (hy.after hfuel) hne

/-- There is a loop that comes to an end. -/
theorem Apart.fuel_ne {s p : JsonState} (h : Apart len (rimJsonLoop dec noenum len fuel e s) (rimJsonLoop dec noenum len fuel e p)) :
    fuel ≠ 0 := by
  rintro rfl
  cases h with
  | first _ hy =>
    obtain ⟨st, hst, -⟩ := hy
    cases hst
  | second hx _ =>
    obtain ⟨st, hst, -⟩ := hx
    cases hst
  | leaves hx _ _ =>
    obtain ⟨st, hst, -⟩ := hx
    cases hst

end

/-! ## At a token -/

section

variable {dec noenum : Bool} {len fuel : Nat} {tail : Bytes} {s p : JsonState} {e : Expected}

/-- A scalar that ends at the end of the part, or behind it. -/
theorem jsonScalar_passes {st : JsonState} {type : JsonType} {n : Nat} (hec : st.ec = -1) (hn : len ≤ st.i + n) :
    Passes len (afterRound dec noenum len fuel (jsonScalar noenum type n st)) := by
  intro st' h
  cases hscalar : jsonScalar noenum type n st with
  | error err =>
    rw [hscalar] at h
    cases h
  | ok x =>
    obtain ⟨o, st₁⟩ := x
    obtain ⟨tb, name, -, -, rfl, rfl⟩ := jsonScalar_eq_ok.mp hscalar
    rw [hscalar] at h
    obtain rfl := Except.ok.inj h
    exact ⟨hec, hn⟩

theorem fail_refuses {st : JsonState} (hnull : 0 ∈ st.val.drop st.i) (err : RimJsonErr) :
    Refuses len (afterRound dec noenum len fuel (.ok (none, st.fail err))) := ⟨_, rfl, hnull, .inl (fail_ne _ _)⟩

/-- The value of a scalar is its bytes. -/
theorem scalar_value {v : Bytes} {i n : Nat} (hrun : ScalarRun (v.drop i) 0 n) (hlt : n < (v.drop i).length) :
    (cstr ((v.set (i + n) 0).drop i)).length = n := by
  have hset : (v.set (i + n) 0).drop i = (v.drop i).set n 0 := by
    rw [List.drop_set, if_neg (by omega), Nat.add_sub_cancel_left]
  have hnull : ((v.drop i).set n 0)[n]? = some 0 := List.getElem?_set_self hlt
  have hzero : ∀ c ∈ (v.drop i).take n, c ≠ 0 := fun c hc he => hrun.zero_notMem (he ▸ hc)
  rw [hset, cstr_eq_take hnull, List.take_set_of_le (Nat.le_refl n), cstr_eq_self hzero, List.length_take]
  omega

theorem jsonScalar_finds {st : JsonState} {type : JsonType} {n : Nat} (hec : st.ec = -1) (hn : len ≤ st.i + n)
    (hrun : ScalarRun (st.val.drop st.i) 0 n) (hlt : n < (st.val.drop st.i).length)
    (hnames : NamesWithin len st.list) (hv : len ≤ st.val.length) (hgiven : NamesGiven st) :
    ∃ leaves name value, Finds len leaves (afterRound dec noenum len fuel (jsonScalar noenum type n st)) ∧
      leaves.getLast? = some { name, type, value } ∧ value.length = n := by
  rw [List.length_drop] at hlt
  have hin : st.i + n < st.val.length := by omega
  obtain ⟨name, hname⟩ : ∃ name,
      rimJsonFullname { st with val := st.val.set (st.i + n) 0, nulled := st.val[st.i + n] } noenum = .ok name := by
    refine (@rimJsonFullname_isOk noenum len { st with val := st.val.set (st.i + n) 0, nulled := st.val[st.i + n] } hnames ?_).mpr hgiven
    rw [List.length_set]
    exact hv
  rw [jsonScalar_eq (List.getElem?_eq_getElem hin), hname]
  refine ⟨_, name, cstr ((st.val.set (st.i + n) 0).drop st.i), ⟨_, rfl, ?_, hec, hn, rfl⟩, ?_, ?_⟩
  · refine List.mem_of_getElem? (i := 0) ?_
    rw [List.getElem?_drop]
    exact List.getElem?_set_self hin
  · show (List.map _ (st.nodes ++ [RimJsonn.mk name type st.i])).getLast? = _
    rw [List.map_append, List.map_singleton, List.getLast?_concat]
  · exact scalar_value hrun (by rw [List.length_drop]; exact hlt)

theorem jsonNumber_none {st : JsonState} (hno : e.noValue = none) (h : rimJsonNum (st.val.drop st.i) = .ok none) :
    jsonNumber noenum e st = .ok (none, st.fail .RIM_ERR_JSON_NUMBER) := by
  simp only [jsonNumber, hno, h, bind, Except.bind]

theorem jsonNumber_some {st : JsonState} {rv : Bool} {r : Nat} (hno : e.noValue = none)
    (h : rimJsonNum (st.val.drop st.i) = .ok (some (rv, r))) :
    jsonNumber noenum e st = jsonScalar noenum (if rv then .real else .number) r st := by
  simp only [jsonNumber, hno, h, bind, Except.bind]

/-- A number of the whole text that is not that of the front goes to the end of it. -/
theorem number_to_end {w a b : Bytes} {rv : Bool} {r : Nat} (h : rimJsonNum (w ++ a) = .ok (some (rv, r)))
    (hdiff : rimJsonNum (w ++ b) ≠ rimJsonNum (w ++ a)) : w.length ≤ r := by
  by_contra hlt
  exact hdiff ((rimJsonNum_front h (Nat.lt_of_not_le hlt) b).trans h.symm)

theorem jsonNumber_apart (h : Alike len tail s p) (hi : p.i < len) (hec : p.ec = -1) (hnull : 0 ∈ tail)
    (hno : e.noValue = none)
    (hdiff : ¬ ((rimJsonNum (p.val.drop p.i) = .ok none ↔ rimJsonNum (s.val.drop s.i) = .ok none) ∧
      (NamesGiven p → rimJsonNum (p.val.drop p.i) = rimJsonNum (s.val.drop s.i)))) :
    Apart len (afterRound dec noenum len fuel (jsonNumber noenum e s)) (afterRound dec noenum len fuel (jsonNumber noenum e p)) := by
  obtain ⟨w, hw, hpv, hsv⟩ := h.split hi
  obtain ⟨hsn, hpn⟩ := h.ends_null
  have hsec : s.ec = -1 := h.ec_eq.trans hec
  have hieq := h.i_eq
  obtain ⟨op, hop⟩ := rimJsonNum_defined (show 0 ∈ p.val.drop p.i by rw [hpv]; simp)
  obtain ⟨os, hos⟩ := rimJsonNum_defined (show 0 ∈ s.val.drop s.i by rw [hsv]; simp [hnull])
  have hne : rimJsonNum (p.val.drop p.i) ≠ rimJsonNum (s.val.drop s.i) := by
    intro heq
    refine hdiff ⟨?_, fun _ => heq⟩
    rw [heq]
  -- the number goes to the end of the front, where there is one
  have htop : ∀ rv r, op = some (rv, r) → w.length ≤ r := by
    intro rv r heq
    rw [heq, hpv] at hop
    refine @number_to_end w [0] tail rv r hop ?_
    rw [← hpv, ← hsv]
    exact hne.symm
  have htos : ∀ rv r, os = some (rv, r) → w.length ≤ r := by
    intro rv r heq
    rw [heq, hsv] at hos
    refine @number_to_end w tail [0] rv r hos ?_
    rw [← hpv, ← hsv]
    exact hne
  cases op with
  | none =>
    rw [jsonNumber_none hno hop]
    cases os with
    | none => exact absurd (hop.trans hos.symm) hne
    | some os =>
      obtain ⟨rv, r⟩ := os
      have hend := htos rv r rfl
      rw [jsonNumber_some hno hos]
      exact .first (jsonScalar_passes hsec (by omega)) (fail_refuses hpn _)
  | some op =>
    obtain ⟨rv, r⟩ := op
    have hend := htop rv r rfl
    rw [jsonNumber_some hno hop]
    cases os with
    | none =>
      rw [jsonNumber_none hno hos]
      exact .second (fail_refuses hsn _) (jsonScalar_passes hec (by omega))
    | some os =>
      obtain ⟨rv', r'⟩ := os
      have hend' := htos rv' r' rfl
      rw [jsonNumber_some hno hos]
      have hgiven : NamesGiven p := by
        by_contra hnot
        refine hdiff ⟨?_, fun hgiven => absurd hgiven hnot⟩
        rw [hop, hos]
        simp
      have hgiven' : NamesGiven s := by
        unfold NamesGiven at hgiven ⊢
        rw [h.list_eq, h.listC_eq]
        exact hgiven
      have hrun := (rimJsonNum_run hop).2
      have hrun' := (rimJsonNum_run hos).2
      obtain ⟨lp, name, value, hfinds, hlast, hvalue⟩ := @jsonScalar_finds dec noenum len fuel p
        (if rv then .real else .number) r hec (by omega) hrun (hrun.lt_of_null hpn) h.names (by rw [h.size]; omega) hgiven
      obtain ⟨ls, name', value', hfinds', hlast', hvalue'⟩ := @jsonScalar_finds dec noenum len fuel s
        (if rv' then .real else .number) r' hsec (by omega) hrun' (hrun'.lt_of_null hsn) (by rw [h.list_eq]; exact h.names)
        (Nat.le_of_lt h.room) hgiven'
      refine .leaves hfinds' hfinds fun heq => hne ?_
      rw [heq, hlast] at hlast'
      obtain ⟨-, htype, hsame⟩ := JsonLeaf.mk.inj (Option.some.inj hlast')
      have hr : r = r' := by rw [← hvalue, ← hvalue', hsame]
      have hrv : rv = rv' := by
        cases rv <;> cases rv' <;> first | rfl | cases htype
      rw [hop, hos, hr, hrv]

theorem jsonLiteral_apart (h : Alike len tail s p) (hi : p.i < len) (hec : p.ec = -1) (hno : e.noValue = none) {lit : Bytes} (hlit : 0 ∉ lit) (type : JsonType)
    (hdiff : ¬ LiteralAlike lit (p.val.drop p.i) (s.val.drop s.i)) :
    Apart len (afterRound dec noenum len fuel (jsonLiteral noenum lit type e s))
      (afterRound dec noenum len fuel (jsonLiteral noenum lit type e p)) := by
  obtain ⟨w, hw, hpv, hsv⟩ := h.split hi
  obtain ⟨hsn, hpn⟩ := h.ends_null
  have hieq := h.i_eq
  unfold LiteralAlike at hdiff
  rw [strncmp_eq_zero hpn hlit, strncmp_eq_zero hsn hlit] at hdiff
  -- a literal of the front is one of the text
  have hfront : ∀ x : Bytes, lit.length ≤ w.length → lit <+: w ++ x → lit <+: w := by
    intro x hle hpre
    exact List.prefix_of_prefix_length_le hpre (List.prefix_append w x) hle
  have hp : ¬ lit <+: p.val.drop p.i := by
    intro hpre
    have hmatch := (strncmp_eq_zero hpn hlit).mpr hpre
    rw [hpv] at hmatch hpre
    have hin := hfront _ (literal_le hlit hmatch) hpre
    refine hdiff ⟨fun _ => ?_, fun _ => ?_⟩
    · rw [hsv]
      exact hin.trans (List.prefix_append _ _)
    · rw [hpv]
      exact hpre
  have hs : lit <+: s.val.drop s.i := by
    by_contra hnot
    exact hdiff ⟨fun hpre => absurd hpre hp, fun hpre => absurd hpre hnot⟩
  have hend : w.length < lit.length := by
    by_contra hle
    rw [hsv] at hs
    rw [hpv] at hp
    exact hp ((hfront _ (Nat.le_of_not_lt hle) hs).trans (List.prefix_append _ _))
  have hrefused : jsonLiteral noenum lit type e p = .ok (none, p.fail .RIM_ERR_JSON_UNKNOWN) := by
    unfold jsonLiteral
    rw [hno]
    exact if_pos fun hmatch => hp ((strncmp_eq_zero hpn hlit).mp hmatch)
  have hread : jsonLiteral noenum lit type e s = jsonScalar noenum type lit.length s := by
    unfold jsonLiteral
    rw [hno]
    exact if_neg (not_not_intro ((strncmp_eq_zero hsn hlit).mpr hs))
  rw [hrefused, hread]
  exact .first (jsonScalar_passes (h.ec_eq.trans hec) (by omega)) (fail_refuses hpn _)

/-- A string that is not closed in the front. -/
theorem jsonQuote_apart (h : Alike len tail s p) (hi : p.i < len) (hec : p.ec = -1) (hnull : 0 ∈ tail)
    (hsize : len + tail.length ≤ 2 ^ 31) (hhere : e.StringHere) (hn : p.nulled = 0) (hc : p.val[p.i]? = some 34)
    (hdiff : ¬ ((∃ t, rimTextToUtf (p.val.drop p.i) true dec false = .ok t) ↔
      ∃ t, rimTextToUtf (s.val.drop s.i) true dec false = .ok t)) :
    Apart len (afterRound dec noenum len fuel (jsonQuote dec noenum e s)) (afterRound dec noenum len fuel (jsonQuote dec noenum e p)) := by
  obtain ⟨w, hw, hpv, hsv⟩ := h.split hi
  obtain ⟨-, hpn⟩ := h.ends_null
  have hieq := h.i_eq
  have hpos : 0 < w.length := by omega
  have hdefined : rimTextToUtf (p.val.drop p.i) true dec false ≠ .error .undefined := by
    refine rimTextToUtf_defined dec ?_
    rw [hpv, List.drop_append_of_le_length hpos]
    simp
  -- a string of the front is one of the text
  have hfront : ∀ {x y : Bytes} {t : TextEnd}, y ≠ [] → rimTextToUtf (w ++ x) true dec false = .ok t → t.last < w.length →
      ∃ t, rimTextToUtf (w ++ y) true dec false = .ok t := by
    intro x y t hy ht hlast
    obtain ⟨w', -, -, hall⟩ := rimTextToUtf_front ht hlast
    exact ⟨_, hall y hy⟩
  cases htp : rimTextToUtf (p.val.drop p.i) true dec false with
  | ok tp =>
    refine absurd ⟨fun _ => ?_, fun _ => ⟨tp, htp⟩⟩ hdiff
    rw [hpv] at htp
    rw [hsv]
    refine hfront (List.ne_nil_of_mem hnull) htp ?_
    obtain ⟨-, hend, -⟩ := rimTextToUtf_quoted htp
    by_contra hge
    rw [List.getElem?_append_right (by omega)] at hend
    have hmem := List.mem_of_getElem? hend
    rw [List.mem_singleton] at hmem
    cases hmem
  | error xp =>
    have hnone : ¬ ∃ t, rimTextToUtf (p.val.drop p.i) true dec false = .ok t := by
      intro hex
      obtain ⟨t, ht⟩ := hex
      rw [htp] at ht
      cases ht
    obtain ⟨ts, hts⟩ : ∃ t, rimTextToUtf (s.val.drop s.i) true dec false = .ok t := by
      by_contra hnot
      exact hdiff ⟨fun hp => absurd hp hnone, fun hs => absurd hs hnot⟩
    have hlast : w.length ≤ ts.last := by
      by_contra hlt
      rw [hsv] at hts
      obtain ⟨t, ht⟩ := hfront (y := [0]) (by simp) hts (Nat.lt_of_not_le hlt)
      rw [← hpv] at ht
      exact hnone ⟨t, ht⟩
    -- an `int` holds the length of the string
    have hlen : stringLength ts = ts.last := by
      refine stringLength_eq ?_
      obtain ⟨-, hend, -⟩ := rimTextToUtf_quoted hts
      have hlt := (List.getElem?_eq_some_iff.mp hend).1
      rw [hsv, List.length_append] at hlt
      omega
    cases xp with
    | undefined => exact absurd htp hdefined
    | err ep =>
      rw [jsonQuote_refused hhere htp, jsonQuote_string hhere hts, hlen]
      refine .first ?_ ⟨_, rfl, hpn, .inr ⟨hn, hi, hc⟩⟩
      have hsec : s.ec = -1 := h.ec_eq.trans hec
      have hend : len ≤ ((s.i : Int) + ts.last + 1).toNat := by omega
      intro st hst
      rw [if_neg (by omega)] at hst
      cases hname : e.name with
      | true =>
        rw [hname, if_pos rfl] at hst
        cases hl : s.level with
        | error err =>
          rw [hl] at hst
          cases hst
        | ok l =>
          rw [hl] at hst
          exact @passes_loop dec noenum len fuel _
            { s.setLevel { l with name := some (s.i + 1), nameLen := ts.last - 1 } with
              val := quotedText s.val s.i ts, i := ((s.i : Int) + ts.last + 1).toNat } hsec hend st hst
      | false =>
        rw [hname, if_neg Bool.false_ne_true] at hst
        cases hfull : rimJsonFullname { s with val := quotedText s.val s.i ts } noenum with
        | error err =>
          rw [hfull] at hst
          cases hst
        | ok name =>
          rw [hfull] at hst
          obtain rfl := Except.ok.inj hst
          exact ⟨hsec, hend⟩

/-- A token that is read differently. -/
theorem rimJsonStep_apart {value : JsonState → Except JsonFault JsonState} (h : Alike len tail s p) (hi : p.i < len)
    (hec : p.ec = -1) (hnull : 0 ∈ tail) (hsize : len + tail.length ≤ 2 ^ 31)
    (hquiet : p.nulled ≠ 0 → e.commaOrEndArray = true ∨ e.commaOrEndObject = true)
    (hdiff : ¬ ReadsAlike dec e p (p.val.drop p.i) (s.val.drop s.i)) :
    Apart len (afterRound dec noenum len fuel (rimJsonStep dec noenum value e s))
      (afterRound dec noenum len fuel (rimJsonStep dec noenum value e p)) := by
  obtain ⟨c, line, last, hs, hp, h⟩ := h.char hi
  have htoken : p.token = some (jsonToken c) := by
    unfold JsonState.token
    rw [hp]
  unfold ReadsAlike at hdiff
  rw [htoken] at hdiff
  simp only [rimJsonStep, hs, hp, bind, Except.bind]
  cases htok : jsonToken c with
  | quote =>
    rw [htok] at hdiff
    obtain ⟨hhere, hdiff⟩ := Classical.not_imp.mp hdiff
    refine jsonQuote_apart h hi hec hnull hsize hhere rfl ?_ hdiff
    obtain ⟨⟨-, hn⟩ | ⟨-, hc⟩, -⟩ := jsonChar_eq_ok hp
    · obtain ⟨-, hca, hco⟩ := hhere
      obtain hflag | hflag := hquiet hn
      · rw [hca] at hflag
        cases hflag
      · rw [hco] at hflag
        cases hflag
    · rw [jsonToken_eq_quote htok] at hc
      exact hc
  | number =>
    rw [htok] at hdiff
    obtain ⟨hno, hdiff⟩ := Classical.not_imp.mp hdiff
    exact jsonNumber_apart h hi hec hnull hno hdiff
  | true =>
    rw [htok] at hdiff
    obtain ⟨hno, hdiff⟩ := Classical.not_imp.mp hdiff
    exact jsonLiteral_apart h hi hec hno (by decide) .bool hdiff
  | false =>
    rw [htok] at hdiff
    obtain ⟨hno, hdiff⟩ := Classical.not_imp.mp hdiff
    exact jsonLiteral_apart h hi hec hno (by decide) .bool hdiff
  | null =>
    rw [htok] at hdiff
    obtain ⟨hno, hdiff⟩ := Classical.not_imp.mp hdiff
    exact jsonLiteral_apart h hi hec hno (by decide) .null hdiff
  | _ =>
    rw [htok] at hdiff
    exact absurd trivial hdiff

/-- A byte that was replaced with a null is there to be read only where a comma or an end is expected. -/
theorem rimJsonStep_quiet {value : JsonState → Except JsonFault JsonState} {e' : Expected} {st st' : JsonState}
    (h : rimJsonStep dec noenum value e st = .ok (some e', st')) :
    st'.nulled ≠ 0 → e'.commaOrEndArray = true ∨ e'.commaOrEndObject = true := by
  obtain ⟨c, line, last, -, hround⟩ := rimJsonStep_round h
  generalize jsonToken c = token at hround
  generalize ho : some e' = o at hround
  cases hround with
  | call hcall =>
    intro _
    split at ho
    · cases ho
    · obtain rfl := Option.some.inj ho
      cases callFrom_at hcall with
      | begArray => exact .inl rfl
      | colon => exact .inr rfl
      | comma => exact .inl rfl
  | begObject => exact fun hn => absurd rfl hn
  | member => exact fun hn => absurd rfl hn
  | white => exact fun hn => absurd rfl hn
  | name => exact fun hn => absurd rfl hn
  | fail => cases ho
  | endObject => cases ho
  | endArray => cases ho
  | refused => cases ho
  | string => cases ho
  | scalar => cases ho

end

/-! ## Runs -/

section

variable {dec noenum : Bool} {len fuel : Nat} {tail : Bytes} {s p : JsonState} {e : Expected}

/-- Where some token is read differently, the runs come apart. -/
theorem rimJsonLoop_apart (hnull : 0 ∈ tail) (hsize : len + tail.length ≤ 2 ^ 31)
    (hdiff : ¬ RoundsAlike dec noenum len tail fuel e p) (h : Alike len tail s p) (hec : p.ec = -1)
    (hquiet : p.nulled ≠ 0 → e.commaOrEndArray = true ∨ e.commaOrEndObject = true) :
    Apart len (rimJsonLoop dec noenum len fuel e s) (rimJsonLoop dec noenum len fuel e p) := by
  induction fuel generalizing e s p with
  | zero => exact absurd trivial hdiff
  | succ fuel ih =>
    obtain ⟨hi, hdiff⟩ := Classical.not_imp.mp hdiff
    have hsi : s.i < len := by
      rw [h.i_eq]
      exact hi
    have hsv := (h.rest hi).1
    by_cases hread : ReadsAlike dec e p (p.val.drop p.i) ((p.val.take len ++ tail).drop p.i)
    · by_cases hcalls : ∀ e' st₁, jsonCall e p = some (e', st₁) → st₁.depth + 1 < RIM_JSON_MAX_NESTED →
          st₁.listC + 1 < (RIM_JSON_MAX_NESTED : Int) - 1 → RoundsAlike dec noenum len tail fuel {} st₁.enter
      · -- the runs are alike in this round, and come apart in one after it
        have hnext := not_and.mp (not_and.mp hdiff hread) hcalls
        simp only [not_forall] at hnext
        obtain ⟨e', p', hp, hnext⟩ := hnext
        have hstep : RoundAlike len tail (rimJsonStep dec noenum (rimJsonValue (rimJsonLoop dec noenum len fuel)) e s)
            (rimJsonStep dec noenum (rimJsonValue (rimJsonLoop dec noenum len fuel)) e p) := by
          refine rimJsonStep_alike h hi hec hnull ?_ ?_
          · rw [hsv, h.i_eq]
            exact hread
          · apply valuesAlike_of_loop
            intro e₁ s₁ p₁ hcall hdepth hlevel h₁
            exact rimJsonLoop_alike hnull (hcalls e₁ p₁ hcall hdepth hlevel) h₁.enter ((jsonCall_from hcall).kept.ec.trans hec)
        obtain ⟨⟨o, s'⟩, hs, hsame, h'⟩ := hstep.of_ok hp
        obtain rfl : o = some e' := hsame
        rw [rimJsonLoop_succ hi, rimJsonLoop_succ hsi, hs, hp]
        exact ih hnext h' (rimJsonStep_ec hec hp) (rimJsonStep_quiet hp)
      · -- they come apart in a call of this round
        simp only [not_forall] at hcalls
        obtain ⟨e', p₁, hcall, hdepth, hlevel, hcalls⟩ := hcalls
        obtain ⟨s₁, hcall', h₁⟩ := jsonCall_alike h hi hcall
        obtain ⟨hn, hflags⟩ := jsonCall_quiet hcall
        have hinner := ih hcalls h₁.enter ((jsonCall_from hcall).kept.ec.trans hec) fun hne => absurd hn hne
        rw [rimJsonLoop_call hi hcall hdepth hlevel, rimJsonLoop_call hsi hcall' (by rw [h₁.depth_eq]; exact hdepth)
          (by rw [h₁.listC_eq]; exact hlevel)]
        exact hinner.after hinner.fuel_ne hflags
    · rw [rimJsonLoop_succ hi, rimJsonLoop_succ hsi]
      refine rimJsonStep_apart h hi hec hnull hsize hquiet ?_
      rw [hsv, h.i_eq]
      exact hread

end

/-! ## Answers -/

def rootAnswer (len : Nat) (x : Except JsonFault JsonState) : Except JsonFault (RimJson × UInt8) :=
  x >>= fun st => rimJsonEnd len st.endj >>= fun st =>
    .ok ({ code := st.ec, errc := st.ec - st.lastLineEc, errl := st.lineEc, errm := st.errm, nodes := st.nodes,
           data := st.val }, st.nulled)

section

variable {len : Nat} {x y : Except JsonFault JsonState}

theorem Passes.answer (h : Passes len x) {r : RimJson × UInt8} (hr : rootAnswer len x = .ok r) : r.1.code = -1 := by
  unfold rootAnswer at hr
  obtain ⟨st, hst, hr⟩ := bind_eq_ok.mp hr
  obtain ⟨hec, hi⟩ := h st hst
  obtain ⟨st', hend, hr⟩ := bind_eq_ok.mp hr
  obtain ⟨c, -, hend⟩ := bind_eq_ok.mp hend
  have hpast : ¬ (st.ec = -1 ∧ st.i + ((st.val.drop st.i).takeWhile isspace).length < len) := by
    rintro ⟨-, hlt⟩
    omega
  obtain rfl := Except.ok.inj hr
  obtain rfl := Except.ok.inj hend
  show JsonState.ec (if _ then _ else _) = -1
  split
  · next hmore => exact absurd hmore hpast
  · exact hec

theorem Refuses.answer (h : Refuses len x) : ∃ r, rootAnswer len x = .ok r ∧ r.1.code ≠ -1 := by
  obtain ⟨st, rfl, hnull, hwhy⟩ := h
  obtain ⟨i, hi, hend⟩ := @rimJsonEnd_ends st.endj len hnull
  refine ⟨_, bind_eq_ok.mpr ⟨st, rfl, bind_eq_ok.mpr ⟨_, hend, rfl⟩⟩, ?_⟩
  by_cases hec : st.ec = -1
  · -- the quote is no white space
    obtain ⟨-, hlt, hc⟩ := hwhy.resolve_left (not_not_intro hec)
    have hwhite : (st.val.drop st.i).takeWhile isspace = [] := by
      obtain ⟨hin, hget⟩ := List.getElem?_eq_some_iff.mp hc
      rw [List.drop_eq_getElem_cons hin, hget]
      rfl
    have hi' : i = st.i := by
      rw [hi]
      show st.i + ((st.val.drop st.i).takeWhile isspace).length = st.i
      rw [hwhite]
      rfl
    show JsonState.ec (if st.ec = -1 ∧ i < len then _ else _) ≠ -1
    rw [if_pos ⟨hec, by omega⟩]
    exact fail_ne _ _
  · show JsonState.ec (if st.ec = -1 ∧ i < len then _ else _) ≠ -1
    rw [if_neg fun hand => hec hand.1]
    exact hec

theorem Finds.answer {leaves : List JsonLeaf} (h : Finds len leaves x) :
    ∃ r, rootAnswer len x = .ok r ∧ r.1.leaves = leaves := by
  obtain ⟨st, rfl, hnull, -, -, rfl⟩ := h
  obtain ⟨i, -, hend⟩ := @rimJsonEnd_ends st.endj len hnull
  refine ⟨_, bind_eq_ok.mpr ⟨st, rfl, bind_eq_ok.mpr ⟨_, hend, rfl⟩⟩, ?_⟩
  split
  · rfl
  · rfl

theorem Apart.answer (h : Apart len x y) :
    ¬ Alongside (fun a b : RimJson × UInt8 => SameAnswer a.1 b.1) (rootAnswer len x) (rootAnswer len y) := by
  intro halong
  cases h with
  | first hx hy =>
    obtain ⟨b, hb, hcode⟩ := hy.answer
    obtain ⟨a, ha, hsame⟩ := halong.of_ok hb
    exact hcode (hsame.code.symm.trans (hx.answer ha))
  | second hx hy =>
    obtain ⟨a, ha, hcode⟩ := hx.answer
    rw [ha] at halong
    cases hb : rootAnswer len y with
    | error err =>
      have herr := halong.of_error hb
      cases herr
    | ok b =>
      obtain ⟨a', ha', hsame⟩ := halong.of_ok hb
      obtain rfl := Except.ok.inj ha'
      exact hcode (hsame.code.trans (hy.answer hb))
  | leaves hx hy hne =>
    obtain ⟨a, ha, hls⟩ := hx.answer
    obtain ⟨b, hb, hlp⟩ := hy.answer
    obtain ⟨a', ha', hsame⟩ := halong.of_ok hb
    rw [ha] at ha'
    obtain rfl := Except.ok.inj ha'
    exact hne (hls.symm.trans (hsame.leaves.trans hlp))

end

/-- The part of a document that is parsed is parsed as if it were alone, where its tokens are read as if it were; and, in
a document that an `int` can count the bytes of and that follows no byte of another one, nowhere else. -/
theorem rimJsonNew_alone_iff {d : JsonDoc} {nulled : UInt8} (h : d.upTo ≤ d.vlen) :
    (ReadsAlone d nulled → ParsesAlone d nulled) ∧
      (d.vlen < 2 ^ 31 → nulled = 0 → ParsesAlone d nulled → ReadsAlone d nulled) := by
  refine ⟨ReadsAlone.parses h, fun hlen hn hparses => ?_⟩
  by_contra hreads
  have hsize : d.upTo + d.behind.length ≤ 2 ^ 31 := by
    have hup := h
    unfold JsonDoc.vlen at hlen hup
    rw [JsonDoc.behind, List.length_append, List.length_drop, List.length_singleton]
    omega
  have hapart := rimJsonLoop_apart (behind_null d) hsize hreads (start_alike h) rfl fun hne => absurd hn hne
  unfold ParsesAlone at hparses
  rw [rimJsonNew_eq h, rimJsonNew_cut h] at hparses
  exact hapart.answer hparses

/-- A literal that ends where the part does, with white space behind it. -/
theorem rimJsonNew_alone_true : ParsesAlone { text := ascii "true ,", len := some 4 } 0 := by
  have hreads : ReadsAlone { text := ascii "true ,", len := some 4 } 0 := by
    intro _
    refine ⟨fun _ => ?_, fun e' st₁ hcall => ?_, fun e' st' hstep => ?_⟩
    · show LiteralAlike (ascii "true") (ascii "true" ++ [0]) (ascii "true ," ++ [0])
      unfold LiteralAlike
      decide
    · cases hcall
    · cases hstep
  exact (rimJsonNew_alone_iff (by decide)).1 hreads

theorem rimJsonNew_not_alone :
    ¬ ∀ (d : JsonDoc) (nulled : UInt8), d.upTo ≤ d.vlen → ParsesAlone d nulled := by
  intro h
  obtain ⟨b, hb, hsame⟩ := (h { text := ascii "123", len := some 2 } 0 (by decide)).of_ok rfl
  obtain rfl := Except.ok.inj hb
  exact absurd hsame.leaves (by decide)

end RimStone
