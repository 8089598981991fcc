import RimStone.Lib.Run
import RimStone.Request.Params

/-!
# Parameters do not cross requests

What a request gives is a function of the request alone: what its parameters are is known from its
URL and from what `set-param` did since. The table holds that for the parameters that are set, and
what it holds for the others is not read. The one thing that comes from earlier requests is the
type of a parameter, which a URL is checked against. It is the one that was compiled, unless a
process-scope string was the last thing that the parameter was set to.
-/

namespace RimStone

open RimStone.Lib

variable {n : Nat} {δ : Type} {decl : Fin n → SprmDecl} {str2num : Bytes → Int × Bool} {str2dbl : Bytes → δ × Bool}

/-! ## What a request gives -/

/-- What is known of the parameters: what `get-param` is to give, for those that are set. -/
abbrev Known (n : Nat) (δ : Type) := Fin n → Option (ParamAnswer δ)

def paramOf (decl : Fin n → SprmDecl) (name : Bytes) : Option (Fin n) :=
  (List.finRange n).find? fun i => (decl i).name = name

/-- A text as a value of a type. -/
def convert (str2num : Bytes → Int × Bool) (str2dbl : Bytes → δ × Bool) (name text : Bytes) :
    RimType → Except InputFault (ParamAnswer δ)
  | .string => .ok (.copy text)
  | .number =>
    if (str2num text).2 then .ok (.number (str2num text).1)
    else .error (.report "Parameter [%s] is a number, but input data [%s] is not a number" [name, text])
  | .double =>
    if (str2dbl text).2 then .ok (.double (str2dbl text).1)
    else .error (.report "Parameter [%s] is a double, but input data [%s] is not a double" [name, text])
  | .bool =>
    if text = ascii "true" then .ok (.bool true)
    else if text = ascii "false" then .ok (.bool false)
    else .error (.report "Parameter [%s] is a boolean, but input data [%s] is not a boolean" [name, text])
  | .stringStatic | .object _ =>
    .error (.report "Parameter [%s] is not of string type, but request URL tries to set its value to a string" [name])

/-- A name and a text of the URL: the name is that of a parameter that was not named before. -/
def knowPair (decl : Fin n → SprmDecl) (str2num : Bytes → Int × Bool) (str2dbl : Bytes → δ × Bool) (known : Known n δ)
    (name text : Bytes) : Except InputFault (Known n δ) :=
  match paramOf decl name with
  | none => .error (.report "Parameter [%s] was set by the request URL, but is never used by the application" [name])
  | some i =>
    if (known i).isSome then .error (.report "Parameter [%s] was set more than once by the request URL" [name])
    else do
      let v ← convert str2num str2dbl name text (decl i).type
      .ok (Function.update known i (some v))

def lookup (decl : Fin n → SprmDecl) (known : Known n δ) (i : Fin n) (defval : Option (ParamAnswer δ)) (format : String) :
    Except InputFault (ParamAnswer δ) :=
  match (known i).or defval with
  | some v => .ok v
  | none => .error (.report format [(decl i).name])

/-- What a `set-param` or `get-param` is to do. -/
def knowOp (decl : Fin n → SprmDecl) (known : Known n δ) : ParamOp n δ → Except InputFault (Known n δ × Option (ParamAnswer δ))
  | .setNumber i x => .ok (Function.update known i (some (.number x)), none)
  | .setDouble i d => .ok (Function.update known i (some (.double d)), none)
  | .setBool i b => .ok (Function.update known i (some (.bool b)), none)
  | .setInput i val _ => .ok (Function.update known i (some (.pointer val)), none)
  | .getNumber i defval => do
    let v ← lookup decl known i (defval.map .number) "Trying to obtain value of parameter [%s] that was not set"
    .ok (known, some v)
  | .getDouble i defval => do
    let v ← lookup decl known i (defval.map .double) "Trying to obtain value of parameter [%s] that was not set"
    .ok (known, some v)
  | .getBool i defval => do
    let v ← lookup decl known i (defval.map .bool) "Trying to obtain value of parameter [%s] that was not set"
    .ok (known, some v)
  | .getInput i type defval => do
    let v ← lookup decl known i (if type = .string then defval.map .pointer else none)
      "Trying to get the value of parameter [%s], but it was not set"
    .ok (known, some v)

def knowOps (decl : Fin n → SprmDecl) (known : Known n δ) : List (ParamOp n δ) → ParamResponse δ
  | [] => ⟨[], none⟩
  | op :: ops =>
    match knowOp decl known op with
    | .error e => ⟨[], some e⟩
    | .ok (known, answer) =>
      let resp := knowOps decl known ops
      { resp with answers := answer.toList ++ resp.answers }

def responseOf (decl : Fin n → SprmDecl) (str2num : Bytes → Int × Bool) (str2dbl : Bytes → δ × Bool)
    (req : ParamRequest n δ) : ParamResponse δ :=
  match req.pairs.foldlM (fun known p => knowPair decl str2num str2dbl known p.1 (req.buffer p.2)) (fun _ => none) with
  | .error e => ⟨[], some e⟩
  | .ok known =>
    match req.fault with
    | some e => ⟨[], some e⟩
    | none => knowOps decl known req.ops

/-! ## What the table holds -/

/-- The table is the compiled one, where strings may have become process-scope ones. -/
structure Declares (decl : Fin n → SprmDecl) (st : SprmState n δ) : Prop where
  name : ∀ i, (st.par i).name = (decl i).name
  type : ∀ i, (st.par i).type = (decl i).type ∨ (decl i).type = .string ∧ (st.par i).type = .stringStatic

/-- A parameter that is set holds what is known of it. -/
inductive Holds (buffer : Nat → Bytes) (type : RimType) (p : SprmPar δ) : ParamAnswer δ → Prop
  | number {x : Int} : type = .number → p.tval = .numval x → Holds buffer type p (.number x)
  | double {d : δ} : type = .double → p.tval = .dblval d → Holds buffer type p (.double d)
  | bool {b : Bool} : type = .bool → p.tval = .logic b → Holds buffer type p (.bool b)
  /-- A string of the URL that was not asked for. -/
  | input {place : Nat} : type = .string → p.tval = .value (.input place) → p.alloc = false →
      Holds buffer type p (.copy (buffer place))
  | copy {text : Bytes} : type = .string → p.tval = .value (.copy text) → p.alloc = true → Holds buffer type p (.copy text)
  | given {val : Nat} : (type = .string ∨ (∃ code, type = .object code) ∧ val ≠ 0) → p.tval = .value (.given val) →
      p.alloc = true → Holds buffer type p (.pointer val)

structure Tells (decl : Fin n → SprmDecl) (st : SprmState n δ) (known : Known n δ) : Prop where
  declares : Declares decl st
  unset : ∀ i, (st.par i).set = (known i).isSome
  holds : ∀ i v, known i = some v → Holds st.buffer (decl i).type (st.par i) v

variable {st st' : SprmState n δ} {known : Known n δ} {p : SprmPar δ} {name : Bytes} {i : Fin n} {v : ParamAnswer δ}

theorem Declares.update (h : Declares decl st) (hname : p.name = (st.par i).name)
    (htype : p.type = (decl i).type ∨ (decl i).type = .string ∧ p.type = .stringStatic) : Declares decl (st.update i p) := by
  constructor
  · intro j
    show (Function.update st.par i p j).name = _
    by_cases hij : j = i
    · subst hij
      rw [Function.update_self, hname]
      exact h.name j
    · rw [Function.update_of_ne hij]
      exact h.name j
  · intro j
    show (Function.update st.par i p j).type = _ ∨ _ ∧ (Function.update st.par i p j).type = _
    by_cases hij : j = i
    · subst hij
      rw [Function.update_self]
      exact htype
    · rw [Function.update_of_ne hij]
      exact h.type j

theorem Tells.update (h : Tells decl st known) (hdecl : Declares decl (st.update i p)) (hset : p.set = true)
    (hv : Holds st.buffer (decl i).type p v) : Tells decl (st.update i p) (Function.update known i (some v)) := by
  refine ⟨hdecl, fun j => ?_, fun j w hw => ?_⟩
  · show (Function.update st.par i p j).set = _
    by_cases hij : j = i
    · subst hij
      rw [Function.update_self, Function.update_self]
      exact hset
    · rw [Function.update_of_ne hij, Function.update_of_ne hij]
      exact h.unset j
  · show Holds st.buffer _ (Function.update st.par i p j) w
    by_cases hij : j = i
    · subst hij
      rw [Function.update_self] at hw ⊢
      obtain rfl := Option.some.inj hw
      exact hv
    · rw [Function.update_of_ne hij] at hw ⊢
      exact h.holds j w hw

theorem Declares.paramhash (h : Declares decl st) : st.rimParamhash name = paramOf decl name := by
  unfold SprmState.rimParamhash paramOf
  simp only [h.name]

/-! ## The URL -/

/-- What the check of a string of the URL makes of a parameter, where `x` is what the string is as a
value of its type. -/
structure Checked (buffer : Nat → Bytes) (p : SprmPar δ) (res : SprmPar δ × Option InputFault)
    (x : Except InputFault (ParamAnswer δ)) : Prop where
  name : res.1.name = p.name
  type : res.1.type = p.type
  error : ∀ e, x = .error e → res.2 = some e
  ok : ∀ v, x = .ok v → res.2 = none ∧ res.1.set = true ∧ Holds buffer p.type res.1 v

theorem checked_error {buffer : Nat → Bytes} {q : SprmPar δ} {e : InputFault} (hname : q.name = p.name) (htype : q.type = p.type) :
    Checked buffer p (q, some e) (.error e) :=
  ⟨hname, htype, fun _ he => congrArg some (Except.error.inj he), nofun⟩

theorem checked_ok {buffer : Nat → Bytes} {q : SprmPar δ} (hname : q.name = p.name) (htype : q.type = p.type)
    (hset : q.set = true) (hv : Holds buffer p.type q v) : Checked buffer p (q, none) (.ok v) := by
  refine ⟨hname, htype, nofun, fun w hw => ?_⟩
  obtain rfl := Except.ok.inj hw
  exact ⟨rfl, hset, hv⟩

/-- The check of a string of the URL, which is at a place of the input buffer. -/
theorem rimCheckWebParamType_checked {buffer : Nat → Bytes} {place : Nat} (hval : p.tval = .value (.input place)) :
    Checked buffer p (SprmState.rimCheckWebParamType str2num str2dbl name p (buffer place))
      (convert str2num str2dbl name (buffer place) p.type) := by
  obtain ⟨pname, type, set, tval, alloc⟩ := p
  obtain rfl : tval = .value (.input place) := hval
  unfold SprmState.rimCheckWebParamType convert
  cases type with
  | string => exact checked_ok rfl rfl rfl (.input rfl rfl rfl)
  | number =>
    dsimp only
    by_cases hok : (str2num (buffer place)).2 = true
    · rw [if_pos hok, if_pos hok]
      exact checked_ok rfl rfl rfl (.number rfl rfl)
    · rw [if_neg hok, if_neg hok]
      exact checked_error rfl rfl
  | double =>
    dsimp only
    by_cases hok : (str2dbl (buffer place)).2 = true
    · rw [if_pos hok, if_pos hok]
      exact checked_ok rfl rfl rfl (.double rfl rfl)
    · rw [if_neg hok, if_neg hok]
      exact checked_error rfl rfl
  | bool =>
    dsimp only
    by_cases htrue : buffer place = ascii "true"
    · rw [if_pos htrue, if_pos htrue]
      exact checked_ok rfl rfl rfl (.bool rfl rfl)
    · rw [if_neg htrue, if_neg htrue]
      by_cases hfalse : buffer place = ascii "false"
      · rw [if_pos hfalse, if_pos hfalse]
        exact checked_ok rfl rfl rfl (.bool rfl rfl)
      · rw [if_neg hfalse, if_neg hfalse]
        exact checked_error rfl rfl
  | stringStatic | object => exact checked_error rfl rfl

/-- What a part of a request makes of the table, where `x` is what is to be known. -/
def Agrees (decl : Fin n → SprmDecl) (st' : SprmState n δ) (fault : Option InputFault) (x : Except InputFault (Known n δ)) : Prop :=
  Declares decl st' ∧
    match x with
    | .error e => fault = some e
    | .ok known => fault = none ∧ Tells decl st' known

theorem setPair_agrees {place : Nat} (h : Tells decl st known)
    (hstatic : ∀ i, paramOf decl name = some i → (st.par i).type ≠ .stringStatic) :
    Agrees decl (st.setPair str2num str2dbl name place).1 (st.setPair str2num str2dbl name place).2
      (knowPair decl str2num str2dbl known name (st.buffer place)) := by
  unfold SprmState.setPair SprmState.rimFindPar knowPair
  rw [h.declares.paramhash]
  cases hfind : paramOf decl name with
  | none => exact ⟨h.declares, rfl⟩
  | some i =>
    dsimp only
    rw [h.unset i]
    by_cases hset : (known i).isSome = true
    · rw [if_pos hset, if_pos hset]
      exact ⟨h.declares, rfl⟩
    · rw [if_neg hset, if_neg hset]
      have htype : (st.par i).type = (decl i).type := (h.declares.type i).resolve_right fun hr => hstatic i hfind hr.2
      have hcheck : Checked st.buffer { st.par i with tval := .value (.input place) }
          (SprmState.rimCheckWebParamType str2num str2dbl name { st.par i with tval := .value (.input place) } (st.buffer place))
          (convert str2num str2dbl name (st.buffer place) (st.par i).type) := rimCheckWebParamType_checked rfl
      have hdecl := h.declares.update hcheck.name (.inl (hcheck.type.trans htype))
      refine ⟨hdecl, ?_⟩
      rw [← htype]
      cases hconv : convert str2num str2dbl name (st.buffer place) (st.par i).type with
      | error e => exact hcheck.error e hconv
      | ok v =>
        obtain ⟨hfault, hset, hv⟩ := hcheck.ok v hconv
        exact ⟨hfault, h.update hdecl hset (htype ▸ hv)⟩

/-- Names and values leave the types and the input buffer as they are. -/
theorem setPair_type {place : Nat} (i : Fin n) : ((st.setPair str2num str2dbl name place).1.par i).type = (st.par i).type := by
  unfold SprmState.setPair
  cases st.rimFindPar name with
  | error e => rfl
  | ok j =>
    have hcheck : Checked st.buffer { st.par j with tval := .value (.input place) }
        (SprmState.rimCheckWebParamType str2num str2dbl name { st.par j with tval := .value (.input place) } (st.buffer place))
        _ := rimCheckWebParamType_checked rfl
    show (Function.update st.par j _ i).type = _
    by_cases hij : i = j
    · subst hij
      rw [Function.update_self]
      exact hcheck.type
    · rw [Function.update_of_ne hij]

theorem setPair_buffer {place : Nat} : (st.setPair str2num str2dbl name place).1.buffer = st.buffer := by
  unfold SprmState.setPair
  cases st.rimFindPar name with
  | error e => rfl
  | ok j => rfl

/-- The URL names no parameter that was left with a process-scope string. -/
def NotStatic (decl : Fin n → SprmDecl) (st : SprmState n δ) (pairs : List (Bytes × Nat)) : Prop :=
  ∀ pair ∈ pairs, ∀ i, paramOf decl pair.1 = some i → (st.par i).type ≠ .stringStatic

theorem setPairs_agrees {pairs : List (Bytes × Nat)} (h : Tells decl st known) (hstatic : NotStatic decl st pairs) :
    Agrees decl (st.setPairs str2num str2dbl pairs).1 (st.setPairs str2num str2dbl pairs).2
      (pairs.foldlM (fun known p => knowPair decl str2num str2dbl known p.1 (st.buffer p.2)) known) := by
  induction pairs generalizing st known with
  | nil => exact ⟨h.declares, rfl, h⟩
  | cons pair pairs ih =>
    obtain ⟨name, place⟩ := pair
    obtain ⟨hfirst, hrest⟩ := List.forall_mem_cons.mp hstatic
    have hpair : Agrees decl (st.setPair str2num str2dbl name place).1 _ _ := setPair_agrees h hfirst
    have htype : ∀ i, ((st.setPair str2num str2dbl name place).1.par i).type = (st.par i).type := setPair_type
    have hbuffer : (st.setPair str2num str2dbl name place).1.buffer = st.buffer := setPair_buffer
    rw [List.foldlM_cons, SprmState.setPairs]
    generalize st.setPair str2num str2dbl name place = res at hpair htype hbuffer
    obtain ⟨st', fault⟩ := res
    obtain ⟨hdecl, hpair⟩ := hpair
    cases hknow : knowPair decl str2num str2dbl known name (st.buffer place) with
    | error e =>
      rw [hknow] at hpair
      obtain rfl : fault = some e := hpair
      exact ⟨hdecl, rfl⟩
    | ok known' =>
      rw [hknow] at hpair
      obtain ⟨hfault, htells⟩ := hpair
      obtain rfl : fault = none := hfault
      have hstatic' : NotStatic decl st' pairs := by
        intro pair hmem i hi
        rw [htype i]
        exact hrest pair hmem i hi
      have hnext := ih htells hstatic'
      rw [show st'.buffer = st.buffer from hbuffer] at hnext
      exact hnext

/-! ## The handlers -/

def WellTyped (decl : Fin n → SprmDecl) : ParamOp n δ → Prop
  | .setNumber i _ | .getNumber i _ => (decl i).type = .number
  | .setDouble i _ | .getDouble i _ => (decl i).type = .double
  | .setBool i _ | .getBool i _ => (decl i).type = .bool
  | .setInput i _ type =>
    (decl i).type = .string ∧ type.isString = true ∨ ∃ code, (decl i).type = .object code ∧ type = .object code
  | .getInput i type _ => type = (decl i).type ∧ (type = .string ∨ ∃ code, type = .object code)

def NotNull : ParamOp n δ → Prop
  | .setInput _ val type => type.isString = true ∨ val ≠ 0
  | _ => True

theorem getPlain_eq {α : Type} {member : SprmValue δ → Option α} {answer : α → ParamAnswer δ} {defval : Option α}
    (h : Tells decl st known) (hmember : ∀ v, Holds st.buffer (decl i).type (st.par i) v →
      ∃ x, v = answer x ∧ member (st.par i).tval = some x) :
    (SprmState.getPlain (st.par i) member defval).map answer =
      lookup decl known i (defval.map answer) "Trying to obtain value of parameter [%s] that was not set" := by
  unfold SprmState.getPlain lookup
  rw [h.unset i]
  cases hknown : known i with
  | none =>
    cases defval with
    | none =>
      rw [h.declares.name i]
      rfl
    | some x => rfl
  | some v =>
    obtain ⟨x, rfl, hx⟩ := hmember v (h.holds i v hknown)
    rw [hx]
    rfl

/-- What an operation makes of the table, where `x` is what it is to do. -/
def OpAgrees (decl : Fin n → SprmDecl) (res : Except InputFault (SprmState n δ × Option (ParamAnswer δ))) :
    Except InputFault (Known n δ × Option (ParamAnswer δ)) → Prop
  | .error e => res = .error e
  | .ok (known, answer) => ∃ st, res = .ok (st, answer) ∧ Tells decl st known

theorem Tells.keep (h : Tells decl st known) (hdecl : Declares decl (st.update i p)) (hset : p.set = true)
    (hknown : known i = some v) (hv : Holds st.buffer (decl i).type p v) : Tells decl (st.update i p) known := by
  have hsame : Function.update known i (some v) = known := by rw [← hknown, Function.update_eq_self]
  rw [← hsame]
  exact h.update hdecl hset hv

theorem getString_agrees {val : SprmPointer} (h : Tells decl st known) (htype : (decl i).type = .string)
    (hknown : known i = some v) (hval : (st.par i).tval = .value val) :
    ∃ st', st.getString i val = .ok (st', v) ∧ Tells decl st' known := by
  have hset : (st.par i).set = true := by
    rw [h.unset i, hknown]
    rfl
  have hv := h.holds i v hknown
  rw [htype] at hv
  unfold SprmState.getString
  cases hv with
  | number htype | double htype | bool htype => cases htype
  | input _ hinput halloc =>
    obtain rfl := SprmValue.value.inj (hval.symm.trans hinput)
    rw [halloc]
    exact ⟨_, rfl, h.keep (h.declares.update rfl (h.declares.type i)) hset hknown (.copy htype rfl rfl)⟩
  | copy _ hcopy halloc =>
    obtain rfl := SprmValue.value.inj (hval.symm.trans hcopy)
    rw [halloc]
    exact ⟨st, rfl, h⟩
  | given _ hgiven halloc =>
    obtain rfl := SprmValue.value.inj (hval.symm.trans hgiven)
    rw [halloc]
    exact ⟨st, rfl, h⟩

theorem getObject_eq {val : SprmPointer} {code : Nat} (h : Tells decl st known) (htype : (decl i).type = .object code)
    (hknown : known i = some v) (hval : (st.par i).tval = .value val) : st.getObject i val = .ok (st, v) := by
  have hv := h.holds i v hknown
  rw [htype] at hv
  cases hv with
  | number htype | double htype | bool htype | input htype | copy htype => cases htype
  | given hnull hgiven =>
    obtain rfl := SprmValue.value.inj (hval.symm.trans hgiven)
    obtain htype | ⟨-, hnull⟩ := hnull
    · cases htype
    · unfold SprmState.getObject
      rw [if_neg fun hzero => hnull (SprmPointer.given.inj hzero)]
      rfl

theorem rimGetInputParam_agrees {type : RimType} {defval : Option Nat} (h : Tells decl st known)
    (htype : type = (decl i).type ∧ (type = .string ∨ ∃ code, type = .object code)) :
    OpAgrees decl (st.exec (.getInput i type defval)) (knowOp decl known (.getInput i type defval)) := by
  obtain ⟨hdecl, hkind⟩ := htype
  show OpAgrees decl (st.rimGetInputParam i type defval >>= fun r => .ok (r.1, some r.2))
    (lookup decl known i _ _ >>= fun v => .ok (known, some v))
  unfold SprmState.rimGetInputParam lookup
  rw [h.unset i]
  cases hknown : known i with
  | none =>
    by_cases hstring : type = .string
    · subst hstring
      cases defval with
      | none => exact congrArg (fun name => Except.error (InputFault.report _ [name])) (h.declares.name i)
      | some val => exact ⟨st, rfl, h⟩
    · rw [if_neg hstring]
      show OpAgrees decl (SprmState.getUnset (st.par i) type defval >>= _ >>= _) _
      unfold SprmState.getUnset
      rw [if_pos hstring]
      exact congrArg (fun name => Except.error (InputFault.report _ [name])) (h.declares.name i)
  | some v =>
    obtain ⟨val, hval⟩ : ∃ val, (st.par i).tval = .value val := by
      have hv := h.holds i v hknown
      rw [← hdecl] at hv
      cases hv with
      | number htype | double htype | bool htype => obtain rfl | ⟨code, rfl⟩ := hkind <;> cases htype
      | input _ hval | copy _ hval | given _ hval => exact ⟨_, hval⟩
    rw [hval]
    obtain rfl | ⟨code, rfl⟩ := hkind
    · obtain ⟨st', hget, htells⟩ := getString_agrees h hdecl.symm hknown hval
      refine ⟨st', ?_, htells⟩
      show (st.getString i val >>= _) = _
      rw [hget]
      rfl
    · refine ⟨st, ?_, h⟩
      show (st.getObject i val >>= _) = _
      rw [getObject_eq h hdecl.symm hknown hval]
      rfl

theorem getPlain_agrees {α : Type} {member : SprmValue δ → Option α} {answer : α → ParamAnswer δ} {defval : Option α}
    (h : Tells decl st known) (hmember : ∀ v, Holds st.buffer (decl i).type (st.par i) v →
      ∃ x, v = answer x ∧ member (st.par i).tval = some x) :
    OpAgrees decl (SprmState.getPlain (st.par i) member defval >>= fun x => .ok (st, some (answer x)))
      (lookup decl known i (defval.map answer) "Trying to obtain value of parameter [%s] that was not set" >>=
        fun v => .ok (known, some v)) := by
  rw [← getPlain_eq h hmember]
  cases SprmState.getPlain (st.par i) member defval with
  | error e => exact rfl
  | ok x => exact ⟨st, rfl, h⟩

theorem exec_agrees {op : ParamOp n δ} (h : Tells decl st known) (htype : WellTyped decl op) (hnull : NotNull op) :
    OpAgrees decl (st.exec op) (knowOp decl known op) := by
  cases op with
  | setNumber i x =>
    exact ⟨_, rfl, h.update (h.declares.update rfl (h.declares.type i)) rfl (.number htype rfl)⟩
  | setDouble i d =>
    exact ⟨_, rfl, h.update (h.declares.update rfl (h.declares.type i)) rfl (.double htype rfl)⟩
  | setBool i b =>
    exact ⟨_, rfl, h.update (h.declares.update rfl (h.declares.type i)) rfl (.bool htype rfl)⟩
  | setInput i val type =>
    have hhold : ∀ q : SprmPar δ, (decl i).type = .string ∨ (∃ code, (decl i).type = .object code) ∧ val ≠ 0 →
        q.tval = .value (.given val) → q.alloc = true → Holds st.buffer (decl i).type q (.pointer val) :=
      fun q hkind hval halloc => .given hkind hval halloc
    obtain ⟨hstring, htype⟩ | ⟨code, hobject, rfl⟩ := htype
    · have hstatic : type = (decl i).type ∨ (decl i).type = .string ∧ type = .stringStatic := by
        cases type with
        | string => exact .inl hstring.symm
        | stringStatic => exact .inr ⟨hstring, rfl⟩
        | number | double | bool | object => cases htype
      exact ⟨_, rfl, h.update (h.declares.update rfl hstatic) rfl (hhold _ (.inl hstring) rfl rfl)⟩
    · have hval : val ≠ 0 := hnull.resolve_left Bool.false_ne_true
      exact ⟨_, rfl, h.update (h.declares.update rfl (.inl hobject.symm)) rfl (hhold _ (.inr ⟨⟨code, hobject⟩, hval⟩) rfl rfl)⟩
  | getNumber i defval =>
    refine getPlain_agrees h fun v hv => ?_
    rw [show (decl i).type = .number from htype] at hv
    cases hv with
    | number _ hval => exact ⟨_, rfl, by rw [hval]; rfl⟩
    | double htype | bool htype | input htype | copy htype => cases htype
    | given hkind => obtain htype | ⟨⟨code, htype⟩, -⟩ := hkind <;> cases htype
  | getDouble i defval =>
    refine getPlain_agrees h fun v hv => ?_
    rw [show (decl i).type = .double from htype] at hv
    cases hv with
    | double _ hval => exact ⟨_, rfl, by rw [hval]; rfl⟩
    | number htype | bool htype | input htype | copy htype => cases htype
    | given hkind => obtain htype | ⟨⟨code, htype⟩, -⟩ := hkind <;> cases htype
  | getBool i defval =>
    refine getPlain_agrees h fun v hv => ?_
    rw [show (decl i).type = .bool from htype] at hv
    cases hv with
    | bool _ hval => exact ⟨_, rfl, by rw [hval]; rfl⟩
    | number htype | double htype | input htype | copy htype => cases htype
    | given hkind => obtain htype | ⟨⟨code, htype⟩, -⟩ := hkind <;> cases htype
  | getInput i type defval => exact rimGetInputParam_agrees h htype

theorem execAll_eq {ops : List (ParamOp n δ)} (h : Tells decl st known) (htype : ∀ op ∈ ops, WellTyped decl op)
    (hnull : ∀ op ∈ ops, NotNull op) :
    Declares decl (st.execAll ops).1 ∧ (st.execAll ops).2 = knowOps decl known ops := by
  induction ops generalizing st known with
  | nil => exact ⟨h.declares, rfl⟩
  | cons op ops ih =>
    obtain ⟨hop, htypes⟩ := List.forall_mem_cons.mp htype
    obtain ⟨hopNull, hnulls⟩ := List.forall_mem_cons.mp hnull
    have hstep := exec_agrees h hop hopNull
    rw [SprmState.execAll, knowOps]
    cases hknow : knowOp decl known op with
    | error e =>
      rw [hknow] at hstep
      rw [show st.exec op = .error e from hstep]
      exact ⟨h.declares, rfl⟩
    | ok res =>
      obtain ⟨known', answer⟩ := res
      rw [hknow] at hstep
      obtain ⟨st', hexec, htells⟩ := hstep
      obtain ⟨hdecl, hresp⟩ := ih htells htypes hnulls
      rw [hexec]
      exact ⟨hdecl, congrArg (fun r : ParamResponse δ => { r with answers := answer.toList ++ r.answers }) hresp⟩

/-! ## Requests -/

def ParamStep (decl : Fin n → SprmDecl) (str2num : Bytes → Int × Bool) (str2dbl : Bytes → δ × Bool) (st : SprmState n δ)
    (ev : ParamRequest n δ × ParamResponse δ) (st' : SprmState n δ) : Prop :=
  (∀ op ∈ ev.1.ops, WellTyped decl op) ∧ st.request str2num str2dbl ev.1 = (st', ev.2)

/-- The URL names no parameter that was left with a process-scope string, and objects that are set
are there. -/
def ParamGuard (decl : Fin n → SprmDecl) (st : SprmState n δ) (ev : ParamRequest n δ × ParamResponse δ) : Prop :=
  NotStatic decl st ev.1.pairs ∧ ∀ op ∈ ev.1.ops, NotNull op

/-- One request gives what it is to give, whatever the table holds, and leaves the table as it was
compiled. -/
theorem request_eq {req : ParamRequest n δ} (h : Declares decl st) (htype : ∀ op ∈ req.ops, WellTyped decl op)
    (hstatic : NotStatic decl st req.pairs) (hnull : ∀ op ∈ req.ops, NotNull op) :
    Declares decl (st.request str2num str2dbl req).1 ∧
      (st.request str2num str2dbl req).2 = responseOf decl str2num str2dbl req := by
  have hclear : Tells decl { par := fun i => { st.par i with set := false }, buffer := req.buffer } (fun _ => none : Known n δ) :=
    ⟨⟨h.name, h.type⟩, fun _ => rfl, nofun⟩
  have hpairs : Agrees decl _ _ (req.pairs.foldlM (fun known p => knowPair decl str2num str2dbl known p.1 (req.buffer p.2))
      (fun _ => none : Known n δ)) := setPairs_agrees hclear hstatic
  unfold SprmState.request SprmState.rimGetInput responseOf
  dsimp only
  generalize SprmState.setPairs str2num str2dbl _ req.pairs = res at hpairs ⊢
  obtain ⟨st', fault⟩ := res
  obtain ⟨hdecl, hpairs⟩ := hpairs
  generalize req.pairs.foldlM (fun known p => knowPair decl str2num str2dbl known p.1 (req.buffer p.2))
    (fun _ => none : Known n δ) = x at hpairs ⊢
  cases x with
  | error e =>
    obtain rfl : fault = some e := hpairs
    exact ⟨hdecl, rfl⟩
  | ok known =>
    obtain ⟨hfault, htells⟩ := hpairs
    obtain rfl : fault = none := hfault
    cases req.fault with
    | some e => exact ⟨hdecl, rfl⟩
    | none => exact execAll_eq htells htype hnull

theorem step_isolated {ev : ParamRequest n δ × ParamResponse δ} (h : Declares decl st) (hguard : ParamGuard decl st ev)
    (hstep : ParamStep decl str2num str2dbl st ev st') :
    Declares decl st' ∧ ev.2 = responseOf decl str2num str2dbl ev.1 := by
  obtain ⟨hstatic, hnull⟩ := hguard
  obtain ⟨htype, hreq⟩ := hstep
  have hone : Declares decl (st.request str2num str2dbl ev.1).1 ∧
      (st.request str2num str2dbl ev.1).2 = responseOf decl str2num str2dbl ev.1 := request_eq h htype hstatic hnull
  rw [hreq] at hone
  exact hone

def oneString : Fin 1 → SprmDecl := fun _ => ⟨ascii "s", .string, RimType.noConfusion⟩

/-- The table of an application as it is compiled. -/
def compiledTable (decl : Fin n → SprmDecl) : SprmState n δ where
  par := fun i => { name := (decl i).name, type := (decl i).type }
  buffer := fun _ => []

theorem compiledTable_declares : Declares decl (compiledTable decl : SprmState n δ) := ⟨fun _ => rfl, fun _ => .inl rfl⟩

/-- The conversions of an application without numbers. -/
def noNumber : Bytes → Int × Bool := fun _ => (0, false)

def noDouble : Bytes → Unit × Bool := fun _ => ((), false)

/-- A request with `s=a` that asks for `s` and sets it. -/
def askAndSet : ParamRequest 1 Unit :=
  ⟨fun _ => ascii "a", [(ascii "s", 0)], none, [.getInput 0 .string none, .setInput 0 7 .string]⟩

/-- A request without a query string that asks for `s` with a default. -/
def askAgain : ParamRequest 1 Unit := ⟨fun _ => [], [], none, [.getInput 0 .string (some 9)]⟩

end RimStone
