import RimStone.Json.Reading
import RimStone.Laws.Json.Nesting
import RimStone.Laws.Json.ScalarFront

/-!
# The parser on the front of a text

Two runs of the parser: one on a text of which the first bytes are parsed, and one on these bytes alone. `Alike` is
what holds between their variables: the text that is parsed is the same, and all that was made of it. The loop does
not read beyond it, but the scanning of a string, a number or a literal may, and `ReadsAlike` is that this makes no
difference; then a round keeps the two runs alike.
-/

namespace RimStone

open RimStone.Lib

def JsonState.leaves (st : JsonState) : List JsonLeaf :=
  st.nodes.map fun n => { name := n.name, type := n.type, value := cstr (st.val.drop n.str) }

def JsonState.bare (st : JsonState) : JsonState := { st with val := [], nulled := 0, errm := none }

def NamesWithin (len : Nat) (list : List JsonNode) : Prop :=
  ∀ l ∈ list, ∀ n ∈ l.name, n + l.nameLen.toNat ≤ len

/-- A run on a text `s` of which `len` bytes are parsed, with `tail` behind them, and a run on these bytes alone. -/
structure Alike (len : Nat) (tail : Bytes) (s p : JsonState) : Prop where
  same : s.bare = p.bare
  /-- the message, where there is an error -/
  message : p.ec ≠ -1 → s.errm = p.errm
  size : p.val.length = len + 1
  last : p.val[len]? = some 0
  front : s.val.take len = p.val.take len
  /-- what is behind is as it was, as long as something is left to be parsed -/
  rest : p.i < len → s.val = p.val.take len ++ tail ∧ s.nulled = p.nulled
  names : NamesWithin len p.list
  within : p.i ≤ len
  ends : 0 ∈ s.val.drop len
  /-- the values end in the front, or right behind it -/
  shut : ∀ n ∈ p.nodes, ∃ k, n.str ≤ k ∧ k ≤ len ∧ p.val[k]? = some 0 ∧ s.val[k]? = some 0

variable {v : Bytes} {k : Nat} {st : JsonState}

theorem cstr_eq_take (h : v[k]? = some 0) : cstr v = cstr (v.take k) := by
  induction v generalizing k with
  | nil => cases h
  | cons c v ih =>
    cases k with
    | zero =>
      obtain rfl := Option.some.inj h
      rw [cstr_cons, if_pos rfl]
      rfl
    | succ k => rw [List.take_succ_cons, cstr_cons, cstr_cons, ih h]

/-- A byte is taken from the variable or from the text. -/
theorem jsonChar_taken {c : UInt8} (hc : (if st.nulled ≠ 0 then .ok st.nulled else inText st.val[st.i]?) = Except.ok c) :
    jsonChar st = .ok (c, st.taken (if c = 10 then st.lineEc + 1 else st.lineEc)
      (if c = 10 then st.i else st.lastLineEc)) := by
  unfold jsonChar
  by_cases hn : st.nulled = 0
  · rw [if_neg (not_not_intro hn)] at hc ⊢
    rw [hc]
    by_cases hline : c = 10
    · simp only [bind, Except.bind, if_pos hline, JsonState.taken]
    · simp only [bind, Except.bind, if_neg hline, JsonState.taken]
  · rw [if_pos hn] at hc ⊢
    obtain rfl := Except.ok.inj hc
    by_cases hline : st.nulled = 10
    · simp only [bind, Except.bind, if_pos hline, JsonState.taken]
    · simp only [bind, Except.bind, if_neg hline, JsonState.taken]

namespace Alike

variable {len : Nat} {tail : Bytes} {s p s' p' : JsonState}

theorem i_eq (h : Alike len tail s p) : s.i = p.i := (congrArg JsonState.i h.same :)

theorem list_eq (h : Alike len tail s p) : s.list = p.list := (congrArg JsonState.list h.same :)

theorem listC_eq (h : Alike len tail s p) : s.listC = p.listC := (congrArg JsonState.listC h.same :)

theorem nodes_eq (h : Alike len tail s p) : s.nodes = p.nodes := (congrArg JsonState.nodes h.same :)

theorem ec_eq (h : Alike len tail s p) : s.ec = p.ec := (congrArg JsonState.ec h.same :)

theorem depth_eq (h : Alike len tail s p) : s.depth = p.depth := (congrArg JsonState.depth h.same :)

theorem level_eq (h : Alike len tail s p) : s.level = p.level := by
  unfold JsonState.level
  rw [h.list_eq, h.listC_eq]

theorem room (h : Alike len tail s p) : len < s.val.length := by
  have hpos := List.length_pos_of_mem h.ends
  rw [List.length_drop] at hpos
  omega

theorem keep (h : Alike len tail s p) (hsame : s'.bare = p'.bare) (hval : s'.val = s.val ∧ p'.val = p.val)
    (hnulled : s.nulled = p.nulled → s'.nulled = p'.nulled) (hi : p'.i ≤ len ∧ (p'.i < len → p.i < len))
      (hnodes : p'.nodes = p.nodes)
    (hnames : NamesWithin len p'.list) (hmessage : p'.ec ≠ -1 → s'.errm = p'.errm) : Alike len tail s' p' := by
  obtain ⟨hsv, hpv⟩ := hval
  refine ⟨hsame, hmessage, ?_, ?_, ?_, fun hlt => ?_, hnames, hi.1, ?_, ?_⟩
  · rw [hpv]
    exact h.size
  · rw [hpv]
    exact h.last
  · rw [hsv, hpv]
    exact h.front
  · obtain ⟨hrest, hsame⟩ := h.rest (hi.2 hlt)
    rw [hsv, hpv]
    exact ⟨hrest, hnulled hsame⟩
  · rw [hsv]
    exact h.ends
  · rw [hnodes, hsv, hpv]
    exact h.shut

theorem fail (h : Alike len tail s p) (err : RimJsonErr) : Alike len tail (s.fail err) (p.fail err) :=
  h.keep (congrArg (fun b : JsonState => { b with ec := b.i }) h.same) ⟨rfl, rfl⟩ id ⟨h.within, id⟩ rfl h.names
    fun _ => rfl

theorem move (h : Alike len tail s p) (hi : p.i < len) : Alike len tail { s with i := s.i + 1 } { p with i := p.i + 1 } :=
  h.keep (congrArg (fun b : JsonState => { b with i := b.i + 1 }) h.same) ⟨rfl, rfl⟩ id ⟨hi,
    Nat.lt_of_succ_lt⟩ rfl h.names
    h.message

theorem listC (h : Alike len tail s p) (d : Int) :
    Alike len tail { s with listC := s.listC + d } { p with listC := p.listC + d } :=
  h.keep (congrArg (fun b : JsonState => { b with listC := b.listC + d }) h.same) ⟨rfl, rfl⟩ id ⟨h.within, id⟩ rfl
    h.names h.message

theorem setIndex (h : Alike len tail s p) {l : JsonNode} (hl : p.level = .ok l) (a : Int) :
    Alike len tail (s.setLevel { l with index := a }) (p.setLevel { l with index := a }) := by
  have hmem : l ∈ p.list := List.mem_of_getElem? (level_eq_ok.mp hl).2
  refine h.keep (congrArg (fun b : JsonState => b.setLevel { l with index := a }) h.same) ⟨rfl, rfl⟩ id ⟨h.within, id⟩
    rfl (fun x hx => ?_) h.message
  obtain hx | rfl := List.mem_or_eq_of_mem_set hx
  · exact h.names x hx
  · exact h.names l hmem

theorem nextIndex (h : Alike len tail s p) : Alongside (Alike len tail) s.nextIndex p.nextIndex := by
  unfold JsonState.nextIndex
  rw [h.level_eq]
  cases hl : p.level with
  | error e => exact .error e
  | ok l => exact .ok (h.setIndex hl _)

theorem enter (h : Alike len tail s p) : Alike len tail s.enter p.enter :=
  h.keep (congrArg JsonState.enter h.same) ⟨rfl, rfl⟩ id ⟨h.within, id⟩ rfl h.names h.message

theorem endj (h : Alike len tail s p) : Alike len tail s.endj p.endj :=
  h.keep (congrArg JsonState.endj h.same) ⟨rfl, rfl⟩ id ⟨h.within, id⟩ rfl h.names h.message

theorem get (h : Alike len tail s p) (hk : k < len) : s.val[k]? = p.val[k]? := by
  rw [← List.getElem?_take_of_lt hk, h.front, List.getElem?_take_of_lt hk]

theorem leaves_eq (h : Alike len tail s p) : s.leaves = p.leaves := by
  unfold JsonState.leaves
  rw [h.nodes_eq]
  apply List.map_congr_left
  intro n hn
  have hvalue : cstr (s.val.drop n.str) = cstr (p.val.drop n.str) := by
    obtain ⟨k, hk, hlen, hp, hs⟩ := h.shut n hn
    obtain ⟨m, rfl⟩ := Nat.exists_eq_add_of_le hk
    rw [← List.getElem?_drop] at hp hs
    have hsplit : ∀ v : Bytes, (v.drop n.str).take m = ((v.take len).drop n.str).take m := by
      intro v
      rw [List.drop_take, List.take_take, Nat.min_eq_left (by omega)]
    rw [cstr_eq_take hs, cstr_eq_take hp, hsplit s.val, h.front, ← hsplit p.val]
  rw [hvalue]

theorem char (h : Alike len tail s p) (hi : p.i < len) : ∃ c line last, jsonChar s = .ok (c, s.taken line last) ∧
    jsonChar p = .ok (c, p.taken line last) ∧ Alike len tail (s.taken line last) (p.taken line last) := by
  obtain ⟨hval, hnulled⟩ := h.rest hi
  have hlt : p.i < p.val.length := by
    rw [h.size]
    omega
  -- the same byte, from the variable or the text
  obtain ⟨c, hp, hs⟩ : ∃ c, (if p.nulled ≠ 0 then .ok p.nulled else inText p.val[p.i]?) = Except.ok c ∧
      (if s.nulled ≠ 0 then .ok s.nulled else inText s.val[s.i]?) = Except.ok c := by
    rw [hnulled, h.i_eq, h.get hi, List.getElem?_eq_getElem hlt]
    split
    · exact ⟨_, rfl, rfl⟩
    · exact ⟨_, rfl, rfl⟩
  have hkept : ∀ line last, Alike len tail (s.taken line last) (p.taken line last) := fun line last =>
    h.keep (congrArg (fun b : JsonState => b.taken line last) h.same) ⟨rfl, rfl⟩ (fun _ => rfl) ⟨h.within, id⟩ rfl h.names
      h.message
  have hline : s.lineEc = p.lineEc := by
    have heq := congrArg JsonState.lineEc h.same
    exact heq
  have hlast : s.lastLineEc = p.lastLineEc := by
    have heq := congrArg JsonState.lastLineEc h.same
    exact heq
  have htaken := jsonChar_taken hs
  rw [hline, hlast, h.i_eq] at htaken
  exact ⟨c, _, _, htaken, jsonChar_taken hp, hkept _ _⟩

end Alike

/-- The same flags, and variables that are alike. -/
def RoundAlike (len : Nat) (tail : Bytes) : JsonStep → JsonStep → Prop :=
  Alongside fun x y => x.1 = y.1 ∧ Alike len tail x.2 y.2

/-- Calls of values that are alike come to what is alike. -/
def ValuesAlike (len : Nat) (tail : Bytes) (call : Option (Expected × JsonState))
    (values valuep : JsonState → Except JsonFault JsonState) : Prop :=
  ∀ e₁ s₁ p₁, call = some (e₁, p₁) → Alike len tail s₁ p₁ → Alongside (Alike len tail) (values s₁) (valuep p₁)

section Tokens

variable {dec noenum : Bool} {len : Nat} {tail : Bytes} {s p : JsonState} {e : Expected}
  {values valuep : JsonState → Except JsonFault JsonState}

theorem Alike.flagged (h : Alike len tail s p) (err : RimJsonErr) :
    RoundAlike len tail (.ok (none, s.fail err)) (.ok (none, p.fail err)) := .ok ⟨rfl, h.fail err⟩

theorem Alike.called {s₁ p₁ : JsonState} (e' : Expected) (hvalue : Alongside (Alike len tail) (values s₁) (valuep p₁)) :
    RoundAlike len tail (values s₁ >>= fun st => .ok (if st.ec ≠ -1 then none else some e', st))
      (valuep p₁ >>= fun st => .ok (if st.ec ≠ -1 then none else some e', st)) := by
  refine hvalue.bind fun s₂ p₂ h₂ => .ok ⟨?_, h₂⟩
  rw [h₂.ec_eq]

theorem jsonBegObject_alike (h : Alike len tail s p) (hi : p.i < len) : RoundAlike len tail (jsonBegObject e s)
    (jsonBegObject e p) := by
  unfold jsonBegObject
  split
  · exact h.flagged _
  · exact .ok ⟨rfl, h.move hi⟩

theorem jsonEndObject_alike (h : Alike len tail s p) (hi : p.i < len) : RoundAlike len tail (jsonEndObject e s)
    (jsonEndObject e p) := by
  unfold jsonEndObject
  split
  · exact h.flagged _
  · exact .ok ⟨rfl, (h.move hi).listC (-1)⟩

theorem jsonEndArray_alike (h : Alike len tail s p) (hi : p.i < len) :
    RoundAlike len tail (jsonEndArray e s) (jsonEndArray e p) := by
  unfold jsonEndArray
  split
  · exact h.flagged _
  · rw [h.level_eq]
    cases hl : p.level with
    | error err => exact .error err
    | ok l => exact .ok ⟨rfl, (h.setIndex hl (-1)).move hi⟩

theorem callFrom_begArray {st₁ : JsonState} (hno : e.noValue = none)
    (hnext : JsonState.nextIndex { st with i := st.i + 1, listC := st.listC - 1 } = .ok st₁) :
    callFrom .begArray e st = some ({ e with isarr := true, commaOrEndArray := true }, st₁) := by
  unfold callFrom
  dsimp only
  rw [if_pos hno, hnext]

theorem callFrom_comma {st₁ : JsonState} (hhere : e.ElementHere)
    (hnext : JsonState.nextIndex { st with i := st.i + 1 } = .ok st₁) :
    callFrom .comma e st = some ({ e with commaOrEndArray := true, commaOrEndObject := false }, st₁) := by
  unfold callFrom
  dsimp only
  rw [if_pos hhere, hnext]

theorem jsonBegArray_alike (h : Alike len tail s p) (hi : p.i < len)
    (hvalues : ValuesAlike len tail (callFrom .begArray e p) values valuep) :
    RoundAlike len tail (jsonBegArray values e s) (jsonBegArray valuep e p) := by
  unfold jsonBegArray
  cases hno : e.noValue with
  | some err => exact h.flagged _
  | none =>
    have hnext : Alongside (Alike len tail) (JsonState.nextIndex { s with i := s.i + 1, listC := s.listC - 1 })
        (JsonState.nextIndex { p with i := p.i + 1, listC := p.listC - 1 }) := ((h.move hi).listC (-1)).nextIndex
    cases hp : JsonState.nextIndex { p with i := p.i + 1, listC := p.listC - 1 } with
    | error err =>
      show RoundAlike len tail (JsonState.nextIndex _ >>= _) (Except.error err >>= _)
      rw [hnext.of_error hp]
      exact .error err
    | ok p₁ =>
      obtain ⟨s₁, hs, h₁⟩ := hnext.of_ok hp
      show RoundAlike len tail (JsonState.nextIndex _ >>= _) (Except.ok p₁ >>= _)
      rw [hs]
      exact Alike.called _ (hvalues _ _ _ (callFrom_begArray hno hp) h₁)

theorem jsonColon_alike (h : Alike len tail s p) (hi : p.i < len)
    (hvalues : ValuesAlike len tail (callFrom .colon e p) values valuep) :
    RoundAlike len tail (jsonColon values e s) (jsonColon valuep e p) := by
  unfold jsonColon
  split
  · exact h.flagged _
  · next hflag =>
    have hhere : e.ColonHere := by
      unfold Expected.ColonHere
      simpa using flagErr_eq_none.mp hflag
    exact Alike.called _ (hvalues _ _ _ (if_pos hhere) (h.move hi))

theorem jsonComma_alike (h : Alike len tail s p) (hi : p.i < len)
    (hvalues : ValuesAlike len tail (callFrom .comma e p) values valuep) :
    RoundAlike len tail (jsonComma values e s) (jsonComma valuep e p) := by
  unfold jsonComma
  split
  · exact h.flagged _
  · next hflag =>
    have hflags : e.colon = false ∧ e.name = false := by simpa using flagErr_eq_none.mp hflag
    dsimp only
    split
    · exact .ok ⟨rfl, h.move hi⟩
    · next hobj =>
      split
      · next harr =>
        have hhere : e.ElementHere := ⟨hflags.1, hflags.2, by simpa using hobj, harr⟩
        have hnext := (h.move hi).nextIndex
        cases hp : JsonState.nextIndex { p with i := p.i + 1 } with
        | error err =>
          rw [hnext.of_error hp]
          exact .error err
        | ok p₁ =>
          obtain ⟨s₁, hs, h₁⟩ := hnext.of_ok hp
          rw [hs]
          exact Alike.called _ (hvalues _ _ _ (callFrom_comma hhere hp) h₁)
      · exact (h.move hi).flagged _

/-! ## Names -/

def JsonNode.Named (l : JsonNode) : Prop := l.name ≠ none ∧ 0 ≤ l.nameLen

/-- The levels that `RIM_ADD_JSON` goes through have names. -/
def NamesGiven (st : JsonState) : Prop := st.listC = 0 ∨ ∀ l ∈ st.list.take st.listC.toNat, l.Named

theorem jsonLevelName_front {v' : Bytes} {l : JsonNode} (hl : ∀ n ∈ l.name, n + l.nameLen.toNat ≤ len)
    (hv : len ≤ v.length) (hv' : len ≤ v'.length) (hfront : v.take len = v'.take len) :
    jsonLevelName v noenum l = jsonLevelName v' noenum l := by
  unfold jsonLevelName
  cases hname : l.name with
  | none => rfl
  | some n =>
    have hin := hl n hname
    have hslice : ∀ w : Bytes, (w.drop n).take l.nameLen.toNat = ((w.take len).drop n).take l.nameLen.toNat := by
      intro w
      rw [List.drop_take, List.take_take, Nat.min_eq_left (by omega)]
    have hiff : (0 ≤ l.nameLen ∧ n + l.nameLen.toNat ≤ v.length) ↔ (0 ≤ l.nameLen ∧ n + l.nameLen.toNat ≤ v'.length) := by
      omega
    simp only [inText, bind, Except.bind, hiff]
    rw [hslice v, hslice v', hfront]

variable {f : JsonNode → Except JsonFault Bytes} {ls : List JsonNode} {n : Nat}

theorem mapM_congr_of_mem {g : JsonNode → Except JsonFault Bytes} (h : ∀ l ∈ ls, f l = g l) :
    ls.mapM f = ls.mapM g := by
  induction ls with
  | nil => rfl
  | cons l ls ih =>
    rw [List.mapM_cons, List.mapM_cons, h l List.mem_cons_self, ih fun x hx => h x (List.mem_cons_of_mem _ hx)]

theorem rimJsonFullname_front {st' : JsonState} (hlist : st.list = st'.list) (hlistC : st.listC = st'.listC)
    (hnames : NamesWithin len st'.list) (hv : len ≤ st.val.length) (hv' : len ≤ st'.val.length)
      (hfront : st.val.take len = st'.val.take len) : rimJsonFullname st noenum = rimJsonFullname st' noenum := by
  unfold rimJsonFullname
  rw [hlist, hlistC]
  rw [mapM_congr_of_mem fun l hl => jsonLevelName_front (hnames l (List.mem_of_mem_take hl)) hv hv' hfront]

theorem mapM_isOk : (∃ names, ls.mapM f = .ok names) ↔ ∀ l ∈ ls, ∃ name, f l = .ok name := by
  induction ls with
  | nil => simp [pure, Except.pure]
  | cons l ls ih =>
    rw [List.mapM_cons]
    simp only [bind_eq_ok, List.forall_mem_cons, ← ih]
    constructor
    · intro hex
      obtain ⟨names, name, hname, names', hnames', _⟩ := hex
      exact ⟨⟨name, hname⟩, names', hnames'⟩
    · intro hex
      obtain ⟨⟨name, hname⟩, names, hnames⟩ := hex
      exact ⟨name :: names, name, hname, names, hnames, rfl⟩

theorem mapM_error {err : JsonFault} (h : ls.mapM f = .error err) : ∃ l ∈ ls, f l = .error err := by
  induction ls with
  | nil => cases h
  | cons l ls ih =>
    rw [List.mapM_cons] at h
    cases hl : f l with
    | error err' =>
      rw [hl] at h
      obtain rfl := Except.error.inj h
      exact ⟨l, List.mem_cons_self, hl⟩
    | ok name =>
      rw [hl] at h
      cases hls : ls.mapM f with
      | error err' =>
        rw [hls] at h
        obtain rfl := Except.error.inj h
        obtain ⟨x, hx, hfx⟩ := ih hls
        exact ⟨x, List.mem_cons_of_mem _ hx, hfx⟩
      | ok names =>
        rw [hls] at h
        cases h

theorem rimJsonFullname_error {err : JsonFault} (h : rimJsonFullname st noenum = .error err) : err = .undefined := by
  unfold rimJsonFullname at h
  split at h
  · cases h
  · cases hnames : (st.list.take st.listC.toNat).mapM (jsonLevelName st.val noenum) with
    | ok names =>
      rw [hnames] at h
      cases h
    | error err' =>
      rw [hnames] at h
      obtain rfl := Except.error.inj h
      obtain ⟨l, -, hl⟩ := mapM_error hnames
      unfold jsonLevelName at hl
      cases hname : l.name with
      | none =>
        rw [hname] at hl
        exact (Except.error.inj hl).symm
      | some n =>
        rw [hname] at hl
        simp only [inText, bind, Except.bind] at hl
        split at hl
        · split at hl <;> cases hl
        · exact (Except.error.inj hl).symm

/-- Where the names are in the front, a node has a name if the levels have. -/
theorem rimJsonFullname_isOk {st : JsonState} (hnames : NamesWithin len st.list) (hv : len ≤ st.val.length) :
    (∃ name, rimJsonFullname st noenum = .ok name) ↔ NamesGiven st := by
  unfold rimJsonFullname NamesGiven
  by_cases hzero : st.listC = 0
  · simp [hzero]
  · rw [if_neg hzero, or_iff_right hzero]
    have hlevel : ∀ l ∈ st.list.take st.listC.toNat, (∃ name, jsonLevelName st.val noenum l = .ok name) ↔ l.Named := by
      intro l hl
      have hin := hnames l (List.mem_of_mem_take hl)
      unfold jsonLevelName JsonNode.Named
      cases hname : l.name with
      | none => simp [inText, bind, Except.bind]
      | some n =>
        have hroom := hin n hname
        simp only [inText, bind, Except.bind]
        by_cases hneg : 0 ≤ l.nameLen
        · rw [if_pos ⟨hneg, by omega⟩]
          split <;> simp [hneg]
        · rw [if_neg fun hall => hneg hall.1]
          simp [hneg]
    rw [← forall₂_congr hlevel, ← mapM_isOk]
    constructor
    · intro hex
      obtain ⟨name, h⟩ := hex
      obtain ⟨names, hnames, -⟩ := bind_eq_ok.mp h
      exact ⟨names, hnames⟩
    · intro hex
      obtain ⟨names, h⟩ := hex
      exact ⟨_, bind_eq_ok.mpr ⟨names, h, rfl⟩⟩

/-! ## Numbers and literals -/

theorem jsonScalar_eq {type : JsonType} {tb : UInt8} (htb : st.val[st.i + n]? = some tb) :
    jsonScalar noenum type n st =
      rimJsonFullname { st with val := st.val.set (st.i + n) 0, nulled := tb } noenum >>= fun name =>
        .ok (none, { st with
          val := st.val.set (st.i + n) 0
          nulled := tb
          i := st.i + n
          listC := st.listC - 1
          nodes := st.nodes ++ [{ name, type, str := st.i }] }) := by
  have hlt := (List.getElem?_eq_some_iff.mp htb).1
  unfold jsonScalar
  rw [htb, poke_eq hlt]
  show (rimAddJson noenum type st.i _ >>= _) = _
  unfold rimAddJson
  cases rimJsonFullname { st with val := st.val.set (st.i + n) 0, nulled := tb } noenum with
  | error err => rfl
  | ok name => rfl

theorem set_null (hk : v[k]? = some 0) (j : Nat) : (v.set j 0)[k]? = some 0 := by
  by_cases hj : j = k
  · subst hj
    exact List.getElem?_set_self (List.getElem?_eq_some_iff.mp hk).1
  · rw [List.getElem?_set_ne hj, hk]

/-- A byte of the front, or the one behind it, is replaced with a null. -/
theorem Alike.setNull (h : Alike len tail s p) (hk : k ≤ len) {s' p' : JsonState} (hsame : s'.bare = p'.bare)
    (hs : s'.val = s.val.set k 0) (hp : p'.val = p.val.set k 0) (hi : p.i < len) (hi' : p'.i = k)
      (hnulled : k < len → s'.nulled = p'.nulled) (hnames : NamesWithin len p'.list)
        (hmessage : p'.ec ≠ -1 → s'.errm = p'.errm) (hshut : ∀ n ∈ p'.nodes, n ∈ p.nodes ∨ n.str ≤ k) :
          Alike len tail s' p' := by
  have hkp : k < p.val.length := by
    rw [h.size]
    omega
  have hks : k < s.val.length := Nat.lt_of_le_of_lt hk h.room
  refine ⟨hsame, hmessage, ?_, ?_, ?_, fun hlt => ⟨?_, hnulled (hi' ▸ hlt)⟩, hnames, Nat.le_of_eq hi' |>.trans hk, ?_,
    fun n hn => ?_⟩
  · rw [hp, List.length_set, h.size]
  · rw [hp]
    exact set_null h.last k
  · rw [hs, hp, List.take_set, List.take_set, h.front]
  · have hin : k < (p.val.take len).length := by
      rw [List.length_take, h.size]
      omega
    rw [hs, hp, (h.rest hi).1, List.set_append_left _ _ hin, List.take_set]
  · obtain ⟨j, hj⟩ := List.mem_iff_getElem?.mp h.ends
    rw [List.getElem?_drop] at hj
    rw [hs]
    refine List.mem_of_getElem? (i := j) ?_
    rw [List.getElem?_drop]
    exact set_null hj k
  · rw [hs, hp]
    obtain hold | hnew := hshut n hn
    · obtain ⟨j, hj, hlen, hpj, hsj⟩ := h.shut n hold
      exact ⟨j, hj, hlen, set_null hpj k, set_null hsj k⟩
    · exact ⟨k, hnew, hk, List.getElem?_set_self hkp, List.getElem?_set_self hks⟩

/-- A number or a literal of the front. -/
theorem jsonScalar_alike (h : Alike len tail s p) (hi : p.i < len) (hn : p.i + n ≤ len) (type : JsonType) :
    RoundAlike len tail (jsonScalar noenum type n s) (jsonScalar noenum type n p) := by
  obtain ⟨tbp, htbp⟩ : ∃ tb, p.val[p.i + n]? = some tb := ⟨_, List.getElem?_eq_getElem (by rw [h.size]; omega)⟩
  obtain ⟨tbs, htbs⟩ : ∃ tb, s.val[s.i + n]? = some tb :=
    ⟨_, List.getElem?_eq_getElem (by rw [h.i_eq]; exact Nat.lt_of_le_of_lt hn h.room)⟩
  rw [jsonScalar_eq htbs, jsonScalar_eq htbp]
  have hname : rimJsonFullname { s with val := s.val.set (s.i + n) 0, nulled := tbs } noenum =
      rimJsonFullname { p with val := p.val.set (p.i + n) 0, nulled := tbp } noenum := by
    refine rimJsonFullname_front h.list_eq h.listC_eq h.names ?_ ?_ ?_
    · rw [List.length_set]
      exact Nat.le_of_lt h.room
    · rw [List.length_set, h.size]
      exact Nat.le_succ len
    · rw [List.take_set, List.take_set, h.front, h.i_eq]
  rw [hname]
  cases rimJsonFullname { p with val := p.val.set (p.i + n) 0, nulled := tbp } noenum with
  | error err => exact .error err
  | ok name =>
    refine .ok ⟨rfl, ?_⟩
    refine h.setNull hn ?_ ?_ rfl hi ?_ ?_ h.names h.message ?_
    · exact congrArg (fun b :
      JsonState => { b with i := b.i + n, listC := b.listC - 1, nodes := b.nodes ++ [RimJsonn.mk name type b.i] })
        h.same
    · show s.val.set (s.i + n) 0 = s.val.set (p.i + n) 0
      rw [h.i_eq]
    · rfl
    · intro hlt
      rw [h.i_eq, h.get hlt, htbp] at htbs
      exact (Option.some.inj htbs).symm
    · intro x hx
      obtain hold | hnew := List.mem_append.mp hx
      · exact .inl hold
      · rw [List.mem_singleton.mp hnew]
        exact .inr (Nat.le_add_right _ _)

/-- What is left of the front, with what is behind it on both sides. -/
theorem Alike.split (h : Alike len tail s p) (hi : p.i < len) :
    ∃ w, w.length = len - p.i ∧ p.val.drop p.i = w ++ [0] ∧ s.val.drop s.i = w ++ tail := by
  have hlen : (p.val.take len).length = len := by
    rw [List.length_take, h.size]
    omega
  have hend : p.val.drop len = [0] := by
    have hlt : len < p.val.length := by
      rw [h.size]
      exact Nat.lt_succ_self len
    have hget := List.getElem?_eq_getElem hlt
    rw [h.last] at hget
    rw [List.drop_eq_getElem_cons hlt, List.drop_eq_nil_iff.mpr (Nat.le_of_eq h.size), ← Option.some.inj hget]
  refine ⟨(p.val.take len).drop p.i, ?_, ?_, ?_⟩
  · rw [List.length_drop, hlen]
  · conv_lhs => rw [← List.take_append_drop len p.val, hend]
    exact List.drop_append_of_le_length (by omega)
  · rw [(h.rest hi).1, h.i_eq]
    exact List.drop_append_of_le_length (by omega)

/-- Bytes that are no nulls end before a null. -/
theorem ScalarRun.lt_of_null {r : Nat} (h : ScalarRun v 0 r) (hnull : 0 ∈ v) : r < v.length := by
  obtain ⟨k, hk⟩ := List.mem_iff_getElem?.mp hnull
  have hlt := (List.getElem?_eq_some_iff.mp hk).1
  by_contra hle
  obtain ⟨c, hc, hscalar⟩ := h k (Nat.zero_le k) (by omega)
  rw [hk] at hc
  obtain rfl := Option.some.inj hc
  cases hscalar

/-- A number or a literal that is read with only a null behind the front ends in the front. -/
theorem ScalarRun.le_front {w : Bytes} {r : Nat} (h : ScalarRun (w ++ [0]) 0 r) : r ≤ w.length := by
  have hlt := h.lt_of_null (by simp)
  rw [List.length_append, List.length_singleton] at hlt
  omega

/-- A node without a name is undefined. -/
theorem jsonScalar_unnamed {type : JsonType} (hnames : NamesWithin len st.list) (hv : len ≤ st.val.length)
    (hn : st.i + n < st.val.length) (hgiven : ¬ NamesGiven st) :
    jsonScalar noenum type n st = .error .undefined := by
  rw [jsonScalar_eq (List.getElem?_eq_getElem hn)]
  have hiff := @rimJsonFullname_isOk noenum len { st with val := st.val.set (st.i + n) 0, nulled :=
    st.val[st.i + n] } hnames
    (by rw [List.length_set]; exact hv)
  cases hname : rimJsonFullname { st with val := st.val.set (st.i + n) 0, nulled := st.val[st.i + n] } noenum with
  | ok name => exact absurd (hiff.mp ⟨name, hname⟩) hgiven
  | error err =>
    rw [rimJsonFullname_error hname]
    rfl

end Tokens

/-! ## What is scanned -/

/-- A literal is at the front of both texts, or of none. -/
def LiteralAlike (lit v v' : Bytes) : Prop := strncmp lit.length v lit = 0 ↔ strncmp lit.length v' lit = 0

/-- The token that a round takes is read alike at the front of two texts. -/
def ReadsAlike (dec : Bool) (e : Expected) (st : JsonState) (v v' : Bytes) : Prop :=
  match st.token with
  | some .quote =>
    e.StringHere → ((∃ t, rimTextToUtf v true dec false = .ok t) ↔ ∃ t, rimTextToUtf v' true dec false = .ok t)
  | some .number =>
    -- where the node has no name, it does not matter which number it is
    e.noValue = none → (rimJsonNum v = .ok none ↔ rimJsonNum v' = .ok none) ∧
      (NamesGiven st → rimJsonNum v = rimJsonNum v')
  | some .true => e.noValue = none → LiteralAlike (ascii "true") v v'
  | some .false => e.noValue = none → LiteralAlike (ascii "false") v v'
  | some .null => e.noValue = none → LiteralAlike (ascii "null") v v'
  | _ => True

section Scans

variable {dec noenum : Bool} {len : Nat} {tail : Bytes} {s p : JsonState} {e : Expected}

theorem jsonNumber_alike (h : Alike len tail s p) (hi : p.i < len) (hnull : 0 ∈ tail)
    (hread : e.noValue = none → (rimJsonNum (p.val.drop p.i) = .ok none ↔ rimJsonNum (s.val.drop s.i) = .ok none) ∧
      (NamesGiven p → rimJsonNum (p.val.drop p.i) = rimJsonNum (s.val.drop s.i))) :
    RoundAlike len tail (jsonNumber noenum e s) (jsonNumber noenum e p) := by
  unfold jsonNumber
  cases hno : e.noValue with
  | some err => exact h.flagged _
  | none =>
    obtain ⟨hnone, hsame⟩ := hread hno
    obtain ⟨w, hw, hpv, hsv⟩ := h.split hi
    obtain ⟨op, hop⟩ := rimJsonNum_defined (show 0 ∈ p.val.drop p.i by rw [hpv]; simp)
    obtain ⟨os, hos⟩ := rimJsonNum_defined (show 0 ∈ s.val.drop s.i by rw [hsv]; simp [hnull])
    show RoundAlike len tail (rimJsonNum (s.val.drop s.i) >>= _) (rimJsonNum (p.val.drop p.i) >>= _)
    rw [hop, hos] at hnone
    cases op with
    | none =>
      obtain rfl := Except.ok.inj (hnone.mp rfl)
      rw [hop, hos]
      exact h.flagged _
    | some op =>
      cases os with
      | none => cases hnone.mpr rfl
      | some os =>
        have hrun := (rimJsonNum_run hop).2
        rw [hpv] at hrun
        have hle := hrun.le_front
        by_cases hgiven : NamesGiven p
        · have heq := hsame hgiven
          rw [hop, hos] at heq
          obtain rfl := Option.some.inj (Except.ok.inj heq)
          rw [hop, hos]
          exact jsonScalar_alike h hi (by omega) _
        · have hrun' := (rimJsonNum_run hos).2.lt_of_null (show 0 ∈ s.val.drop s.i by rw [hsv]; simp [hnull])
          rw [List.length_drop] at hrun'
          have hgiven' : ¬ NamesGiven s := by
            unfold NamesGiven at hgiven ⊢
            rw [h.list_eq, h.listC_eq]
            exact hgiven
          rw [hop, hos]
          show RoundAlike len tail (jsonScalar noenum _ os.2 s) (jsonScalar noenum _ op.2 p)
          rw [jsonScalar_unnamed (by rw [h.list_eq]; exact h.names) (Nat.le_of_lt h.room) (by omega) hgiven',
            jsonScalar_unnamed h.names (by rw [h.size]; omega) (by rw [h.size]; omega) hgiven]
          exact .error _

/-- A literal at the front of what is left. -/
theorem literal_le {w lit : Bytes} (hlit : 0 ∉ lit) (h : strncmp lit.length (w ++ [0]) lit = 0) :
    lit.length ≤ w.length := by
  obtain ⟨x, hx⟩ := (strncmp_eq_zero (by simp) hlit).mp h
  have hlen := congrArg List.length hx
  rw [List.length_append, List.length_append, List.length_singleton] at hlen
  by_contra hgt
  obtain rfl := List.length_eq_zero_iff.mp (show x.length = 0 by omega)
  rw [List.append_nil] at hx
  rw [hx] at hlit
  simp at hlit

theorem jsonLiteral_alike (h : Alike len tail s p) (hi : p.i < len) {lit : Bytes} (hlit : 0 ∉ lit) (type : JsonType)
    (hread : e.noValue = none → LiteralAlike lit (p.val.drop p.i) (s.val.drop s.i)) :
    RoundAlike len tail (jsonLiteral noenum lit type e s) (jsonLiteral noenum lit type e p) := by
  unfold jsonLiteral
  cases hno : e.noValue with
  | some err => exact h.flagged _
  | none =>
    have hsame := hread hno
    unfold LiteralAlike at hsame
    dsimp only
    by_cases hmatch : strncmp lit.length (p.val.drop p.i) lit = 0
    · rw [if_neg (not_not_intro (hsame.mp hmatch)), if_neg (not_not_intro hmatch)]
      obtain ⟨w, hw, hpv, -⟩ := h.split hi
      rw [hpv] at hmatch
      have hle := literal_le hlit hmatch
      exact jsonScalar_alike h hi (by omega) type
    · rw [if_pos (fun hs => hmatch (hsame.mpr hs)), if_pos hmatch]
      exact h.flagged _

/-- A string that is read. -/
theorem jsonQuote_string {t : TextEnd} (hhere : e.StringHere) (ht : rimTextToUtf (st.val.drop st.i) true dec false =
    .ok t) :
    jsonQuote dec noenum e st =
      if (st.i : Int) + stringLength t + 1 < 0 then .error .undefined
      else if e.name then
        st.level >>= fun l => .ok (some { e with name := false, colon := true },
          { st.setLevel { l with name := some (st.i + 1), nameLen := stringLength t - 1 } with
            val := quotedText st.val st.i t, i := ((st.i : Int) + stringLength t + 1).toNat })
      else
        rimJsonFullname { st with val := quotedText st.val st.i t } noenum >>= fun name => .ok (none, { st with
          val := quotedText st.val st.i t
          i := ((st.i : Int) + stringLength t + 1).toNat
          listC := st.listC - 1
          nodes := st.nodes ++ [{ name, type := .string, str := st.i + 1 }] }) := by
  obtain ⟨hcolon, hca, hco⟩ := hhere
  obtain ⟨-, hend, hwrote⟩ := rimTextToUtf_quoted ht
  have hlt : st.i + t.last < (st.val.take st.i ++ t.val).length := by
    have hin := (List.getElem?_eq_some_iff.mp hend).1
    rw [List.length_drop] at hin
    rw [List.length_append, List.length_take, hwrote.length, List.length_drop]
    omega
  unfold jsonQuote quotedText
  simp only [flagErr_cons, flagErr_nil, hcolon, hca, hco, Bool.false_eq_true, if_false, ht, poke_eq hlt, inText, bind,
    Except.bind]
  generalize stringLength t = l
  by_cases hneg : (st.i : Int) + l + 1 < 0
  · rw [if_pos hneg, if_pos hneg]
  · rw [if_neg hneg, if_neg hneg]
    cases hname : e.name with
    | true => rfl
    | false =>
      rw [if_neg Bool.false_ne_true, if_neg Bool.false_ne_true]
      unfold rimAddJson
      cases rimJsonFullname { st with val := (st.val.take st.i ++ t.val).set (st.i + t.last) 0 } noenum with
      | error err => rfl
      | ok name => rfl

theorem jsonQuote_refused {err : RimUtfErr} (hhere : e.StringHere)
    (ht : rimTextToUtf (st.val.drop st.i) true dec false = .error (.err err)) :
    jsonQuote dec noenum e st = .ok (none, { st with errm := some (.utf err) }) := by
  obtain ⟨hcolon, hca, hco⟩ := hhere
  unfold jsonQuote
  simp only [flagErr_cons, flagErr_nil, hcolon, hca, hco, Bool.false_eq_true, if_false, ht]

/-- A string of the front is written between its quotes, on both sides. -/
theorem Alike.setText (h : Alike len tail s p) (hi : p.i < len) (hnull : 0 ∈ tail) {w w' : Bytes} {tp : TextEnd}
    (hw : w.length = len - p.i) (hpv : p.val.drop p.i = w ++ [0])
    (ht : rimTextToUtf (w ++ [0]) true dec false = .ok tp) (hlast : tp.last < w.length) (hw' : w'.length = w.length)
    (hval : tp.val = w' ++ [0]) {s' p' : JsonState} (hsame : s'.bare = p'.bare)
    (hs : s'.val = quotedText s.val s.i { tp with val := w' ++ tail }) (hp : p'.val = quotedText p.val p.i tp)
    (hnulled : s'.nulled = p'.nulled) (hnames : NamesWithin len p'.list) (hmessage : p'.ec ≠ -1 → s'.errm = p'.errm)
    (hin : p'.i ≤ len) (hshut : ∀ n ∈ p'.nodes, n ∈ p.nodes ∨ n.str ≤ p.i + tp.last) : Alike len tail s' p' := by
  have htake : (p.val.take p.i).length = p.i := by
    rw [List.length_take, h.size]
    omega
  have hsame_take : s.val.take s.i = p.val.take p.i := by
    rw [h.i_eq]
    apply List.ext_getElem?
    intro k
    by_cases hk : k < p.i
    · rw [List.getElem?_take_of_lt hk, List.getElem?_take_of_lt hk, h.get (by omega)]
    · rw [List.getElem?_take_eq_none (by omega), List.getElem?_take_eq_none (by omega)]
  -- the new front
  obtain ⟨H, hH⟩ : ∃ H, H = (p.val.take p.i ++ w').set (p.i + tp.last) 0 := ⟨_, rfl⟩
  have hlen : H.length = len := by
    rw [hH, List.length_set, List.length_append, htake]
    omega
  have hlt : p.i + tp.last < (p.val.take p.i ++ w').length := by
    rw [List.length_append, htake]
    omega
  have hp' : p'.val = H ++ [0] := by
    rw [hp, quotedText, hval, ← List.append_assoc, List.set_append_left _ _ hlt, hH]
  have hs' : s'.val = H ++ tail := by
    rw [hs, quotedText, hsame_take, h.i_eq, ← List.append_assoc, List.set_append_left _ _ hlt, hH]
  have hmark : H[p.i + tp.last]? = some 0 := by
    rw [hH]
    exact List.getElem?_set_self hlt
  have hnulls : ∀ k < len, p.val[k]? = some 0 → H[k]? = some 0 := by
    intro k hk hzero
    rw [hH]
    apply set_null
    by_cases hki : k < p.i
    · rw [List.getElem?_append_left (by omega), List.getElem?_take_of_lt hki, hzero]
    · obtain ⟨j, rfl⟩ := Nat.exists_eq_add_of_le (Nat.le_of_not_lt hki)
      rw [← List.getElem?_drop, hpv] at hzero
      have hstays := rimTextToUtf_nulls ht hzero
      rw [hval, List.getElem?_append_left (by omega)] at hstays
      rw [List.getElem?_append_right (by omega), htake, Nat.add_sub_cancel_left, hstays]
  have hfront : p'.val.take len = H := by
    rw [hp', ← hlen, List.take_left]
  refine ⟨hsame, hmessage, ?_, ?_, ?_, fun _ => ⟨?_, hnulled⟩, hnames, hin, ?_, fun n hn => ?_⟩
  · rw [hp', List.length_append, hlen, List.length_singleton]
  · rw [hp', List.getElem?_append_right (Nat.le_of_eq hlen), hlen, Nat.sub_self]
    rfl
  · rw [hfront, hs', ← hlen, List.take_left]
  · rw [hfront, hs']
  · rw [hs', ← hlen, List.drop_left]
    exact hnull
  · rw [hp', hs']
    obtain hold | hnew := hshut n hn
    · obtain ⟨k, hk, hle, hpk, hsk⟩ := h.shut n hold
      obtain hk' | rfl := Nat.lt_or_eq_of_le hle
      · have hzero := hnulls k hk' hpk
        refine ⟨k, hk, hle, ?_, ?_⟩
        · rw [List.getElem?_append_left (by omega), hzero]
        · rw [List.getElem?_append_left (by omega), hzero]
      · refine ⟨k, hk, hle, ?_, ?_⟩
        · rw [List.getElem?_append_right (by omega), hlen, Nat.sub_self]
          rfl
        · rw [(h.rest hi).1, List.getElem?_append_right (by rw [List.length_take, h.size]; omega)] at hsk
          rw [List.getElem?_append_right (by omega), hlen, ← hsk, List.length_take, h.size, Nat.min_eq_left (by omega)]
    · refine ⟨_, hnew, by omega, ?_, ?_⟩
      · rw [List.getElem?_append_left (by omega), hmark]
      · rw [List.getElem?_append_left (by omega), hmark]

/-- The length of a string, which is an `int`, is not more than it is. -/
theorem stringLength_le (t : TextEnd) : stringLength t ≤ t.last := by
  have hmod := Nat.mod_le t.last (2 ^ 32)
  unfold stringLength
  rw [Int.bmod_def]
  split <;> omega

theorem NamesWithin.set {list : List JsonNode} (h : NamesWithin len list) {l : JsonNode} {i : Nat} {t : TextEnd} (k : Nat)
    (hin : i + t.last < len) :
      NamesWithin len (list.set k { l with name := some (i + 1), nameLen := stringLength t - 1 }) := by
  intro x hx n hn
  obtain hx | rfl := List.mem_or_eq_of_mem_set hx
  · exact h x hx n hn
  · obtain rfl := Option.some.inj hn
    have hle := stringLength_le t
    show i + 1 + (stringLength t - 1).toNat ≤ len
    omega

theorem jsonQuote_alike (h : Alike len tail s p) (hi : p.i < len) (hec : p.ec = -1) (hnull : 0 ∈ tail)
    (hread : e.StringHere → ((∃ t, rimTextToUtf (p.val.drop p.i) true dec false = .ok t) ↔
      ∃ t, rimTextToUtf (s.val.drop s.i) true dec false = .ok t)) :
    RoundAlike len tail (jsonQuote dec noenum e s) (jsonQuote dec noenum e p) := by
  by_cases hhere : e.StringHere
  · have hboth := hread hhere
    obtain ⟨w, hw, hpv, hsv⟩ := h.split hi
    have hpos : 0 < w.length := by omega
    have hpn : 0 ∈ (p.val.drop p.i).drop 1 := by
      rw [hpv, List.drop_append_of_le_length hpos]
      simp
    have hsn : 0 ∈ (s.val.drop s.i).drop 1 := by
      rw [hsv, List.drop_append_of_le_length hpos]
      simp [hnull]
    cases htp : rimTextToUtf (p.val.drop p.i) true dec false with
    | error xp =>
      -- both are refused, and the messages do not count before there is an error
      cases hts : rimTextToUtf (s.val.drop s.i) true dec false with
      | ok ts =>
        obtain ⟨t, ht⟩ := hboth.mpr ⟨ts, hts⟩
        rw [htp] at ht
        cases ht
      | error xs =>
        cases xp with
        | undefined => exact absurd htp (rimTextToUtf_defined dec hpn)
        | err ep =>
          cases xs with
          | undefined => exact absurd hts (rimTextToUtf_defined dec hsn)
          | err es =>
            rw [jsonQuote_refused hhere htp, jsonQuote_refused hhere hts]
            exact .ok ⟨rfl, h.keep h.same ⟨rfl, rfl⟩ id ⟨h.within, id⟩ rfl h.names fun hne => absurd hec hne⟩
    | ok tp =>
      have htp' := htp
      rw [hpv] at htp'
      obtain ⟨hone, hend, -⟩ := rimTextToUtf_quoted htp'
      have hlast : tp.last < w.length := by
        by_contra hge
        rw [List.getElem?_append_right (by omega)] at hend
        have hmem := List.mem_of_getElem? hend
        rw [List.mem_singleton] at hmem
        cases hmem
      obtain ⟨w', hw', hval, hfront⟩ := rimTextToUtf_front htp' hlast
      have htail : tail ≠ [] := List.ne_nil_of_mem hnull
      have hts : rimTextToUtf (s.val.drop s.i) true dec false = .ok { tp with val := w' ++ tail } := by
        rw [hsv]
        exact hfront tail htail
      have hset : ∀ {s' p' : JsonState}, s'.bare = p'.bare →
          s'.val = quotedText s.val s.i { tp with val := w' ++ tail } → p'.val = quotedText p.val p.i tp →
          s'.nulled = p'.nulled → NamesWithin len p'.list → (p'.ec ≠ -1 → s'.errm = p'.errm) →
          p'.i ≤ len → (∀ n ∈ p'.nodes, n ∈ p.nodes ∨ n.str ≤ p.i + tp.last) → Alike len tail s' p' :=
        h.setText hi hnull hw hpv htp' hlast hw' hval
      rw [jsonQuote_string hhere hts, jsonQuote_string hhere htp]
      have hsame_end : stringLength { tp with val := w' ++ tail } = stringLength tp := rfl
      rw [hsame_end, h.i_eq]
      obtain ⟨lstr, hlstr⟩ : ∃ lstr, lstr = stringLength tp := ⟨_, rfl⟩
      rw [← hlstr]
      by_cases hneg : (p.i : Int) + lstr + 1 < 0
      · rw [if_pos hneg, if_pos hneg]
        exact .error _
      · rw [if_neg hneg, if_neg hneg]
        have hnulled := (h.rest hi).2
        have hin : p.i + tp.last < len := by omega
        have hafter : ((p.i : Int) + lstr + 1).toNat ≤ len := by
          have hle := stringLength_le tp
          omega
        have hval' : quotedText s.val s.i { tp with val := w' ++ tail } =
            quotedText s.val p.i { tp with val := w' ++ tail } := by
          rw [h.i_eq]
        cases hname : e.name with
        | true =>
          rw [if_pos rfl, if_pos rfl, h.level_eq]
          cases hl : p.level with
          | error err => exact .error err
          | ok l =>
            refine .ok ⟨rfl, hset ?_ hval'.symm rfl hnulled ?_ h.message hafter fun n hn => .inl hn⟩
            · exact congrArg (fun b :
              JsonState => { b.setLevel { l with name := some (p.i + 1), nameLen := lstr - 1 } with
                i := ((p.i : Int) + lstr + 1).toNat }) h.same
            · rw [hlstr]
              exact h.names.set _ hin
        | false =>
          rw [if_neg Bool.false_ne_true, if_neg Bool.false_ne_true]
          have hfull :
              rimJsonFullname { s with val := quotedText s.val p.i { tp with val := w' ++ tail }, i := p.i } noenum =
              rimJsonFullname { p with val := quotedText p.val p.i tp } noenum := by
            have hkept : Alike len tail { s with val := quotedText s.val s.i { tp with val := w' ++ tail } }
                { p with val := quotedText p.val p.i tp } :=
              hset h.same rfl rfl hnulled h.names h.message h.within fun n hn => .inl hn
            rw [← hval']
            refine rimJsonFullname_front h.list_eq h.listC_eq h.names (Nat.le_of_lt hkept.room) ?_ hkept.front
            rw [hkept.size]
            exact Nat.le_succ len
          rw [hfull]
          cases rimJsonFullname { p with val := quotedText p.val p.i tp } noenum with
          | error err => exact .error err
          | ok name =>
            refine .ok ⟨rfl, hset ?_ hval'.symm rfl hnulled h.names h.message hafter fun n hn => ?_⟩
            · exact congrArg (fun b : JsonState => { b with
                i := ((p.i : Int) + lstr + 1).toNat
                listC := b.listC - 1
                nodes := b.nodes ++ [RimJsonn.mk name .string (p.i + 1)] }) h.same
            · obtain hold | hnew := List.mem_append.mp hn
              · exact .inl hold
              · rw [List.mem_singleton.mp hnew]
                exact .inr (Nat.add_le_add_left hone p.i)
  · unfold jsonQuote
    split
    · exact h.flagged _
    · next hflag =>
      refine absurd ?_ hhere
      unfold Expected.StringHere
      simpa using flagErr_eq_none.mp hflag

end Scans

/-! ## Rounds -/

section Rounds

variable {dec noenum : Bool} {len : Nat} {tail : Bytes} {s p p₁ : JsonState} {e e' : Expected}
  {value : JsonState → Except JsonFault JsonState}

/-- A round keeps the two runs alike where its token is read alike, and where a call in it does. -/
theorem rimJsonStep_alike (h : Alike len tail s p) (hi : p.i < len) (hec : p.ec = -1) (hnull : 0 ∈ tail)
    (hread : ReadsAlike dec e p (p.val.drop p.i) (s.val.drop s.i))
    (hvalues : ValuesAlike len tail (jsonCall e p) value value) :
    RoundAlike len tail (rimJsonStep dec noenum value e s) (rimJsonStep dec noenum value e p) := by
  obtain ⟨c, line, last, hs, hp, h⟩ := h.char hi
  have htoken : p.token = some (jsonToken c) := by
    unfold JsonState.token
    rw [hp]
  have hcall : jsonCall e p = callFrom (jsonToken c) e (p.taken line last) := by
    unfold jsonCall
    rw [hp]
  rw [hcall] at hvalues
  unfold ReadsAlike at hread
  rw [htoken] at hread
  simp only [rimJsonStep, hs, hp, bind, Except.bind]
  cases htok : jsonToken c with
  | begObject => exact jsonBegObject_alike h hi
  | endObject => exact jsonEndObject_alike h hi
  | begArray =>
    rw [htok] at hvalues
    exact jsonBegArray_alike h hi hvalues
  | endArray => exact jsonEndArray_alike h hi
  | colon =>
    rw [htok] at hvalues
    exact jsonColon_alike h hi hvalues
  | comma =>
    rw [htok] at hvalues
    exact jsonComma_alike h hi hvalues
  | white => exact .ok ⟨rfl, h.move hi⟩
  | quote =>
    rw [htok] at hread
    exact jsonQuote_alike h hi hec hnull hread
  | number =>
    rw [htok] at hread
    exact jsonNumber_alike h hi hnull hread
  | true =>
    rw [htok] at hread
    exact jsonLiteral_alike h hi (by decide) .bool hread
  | false =>
    rw [htok] at hread
    exact jsonLiteral_alike h hi (by decide) .bool hread
  | null =>
    rw [htok] at hread
    exact jsonLiteral_alike h hi (by decide) .null hread
  | unknown => exact h.flagged _

/-- A call is made on both sides. -/
theorem jsonCall_alike (h : Alike len tail s p) (hi : p.i < len) (hcall : jsonCall e p = some (e', p₁)) :
    ∃ s₁, jsonCall e s = some (e', s₁) ∧ Alike len tail s₁ p₁ := by
  obtain ⟨c, line, last, hs, hp, h⟩ := h.char hi
  unfold jsonCall at hcall ⊢
  rw [hp] at hcall
  rw [hs]
  dsimp only at hcall ⊢
  generalize jsonToken c = t at hcall ⊢
  unfold callFrom at hcall
  split at hcall
  · split at hcall
    · next hno =>
      split at hcall
      · next st₁ hnext =>
        obtain ⟨rfl, rfl⟩ := Prod.mk.inj (Option.some.inj hcall)
        obtain ⟨s₁, hs₁, h₁⟩ := ((h.move hi).listC (-1)).nextIndex.of_ok hnext
        exact ⟨s₁, callFrom_begArray hno hs₁, h₁⟩
      · cases hcall
    · cases hcall
  · split at hcall
    · next hhere =>
      obtain ⟨rfl, rfl⟩ := Prod.mk.inj (Option.some.inj hcall)
      exact ⟨_, if_pos hhere, h.move hi⟩
    · cases hcall
  · split at hcall
    · next hhere =>
      split at hcall
      · next st₁ hnext =>
        obtain ⟨rfl, rfl⟩ := Prod.mk.inj (Option.some.inj hcall)
        obtain ⟨s₁, hs₁, h₁⟩ := (h.move hi).nextIndex.of_ok hnext
        exact ⟨s₁, callFrom_comma hhere hs₁, h₁⟩
      · cases hcall
    · cases hcall
  · cases hcall

end Rounds

/-! ## Calls -/

section Calls

variable {dec noenum : Bool} {len : Nat} {tail : Bytes} {s p : JsonState} {e : Expected}

/-- A value is taken alike where its loop is. -/
theorem rimJsonValue_alike {loop : Expected → JsonState → Except JsonFault JsonState} (h : Alike len tail s p)
    (hloop : p.depth + 1 < RIM_JSON_MAX_NESTED → p.listC + 1 < (RIM_JSON_MAX_NESTED : Int) - 1 →
      Alongside (Alike len tail) (loop {} s.enter) (loop {} p.enter)) :
    Alongside (Alike len tail) (rimJsonValue loop s) (rimJsonValue loop p) := by
  rw [rimJsonValue_eq, rimJsonValue_eq]
  have hguard : s.depth + 1 < RIM_JSON_MAX_NESTED ∧ s.listC + 1 < (RIM_JSON_MAX_NESTED : Int) - 1 ↔
      p.depth + 1 < RIM_JSON_MAX_NESTED ∧ p.listC + 1 < (RIM_JSON_MAX_NESTED : Int) - 1 := by
    rw [h.depth_eq, h.listC_eq]
  by_cases hin : p.depth + 1 < RIM_JSON_MAX_NESTED ∧ p.listC + 1 < (RIM_JSON_MAX_NESTED : Int) - 1
  · rw [if_pos (hguard.mpr hin), if_pos hin]
    exact (hloop hin.1 hin.2).bind fun s' p' h' => .ok h'.endj
  · rw [if_neg (fun h => hin (hguard.mp h)), if_neg hin]
    by_cases hdepth : p.depth + 1 < RIM_JSON_MAX_NESTED
    · rw [if_pos hdepth, if_pos (by rw [h.depth_eq]; exact hdepth)]
      exact .ok (h.enter.fail _).endj
    · rw [if_neg hdepth, if_neg (by rw [h.depth_eq]; exact hdepth)]
      have hdeep : Alike len tail { s with depth := s.depth + 1 } { p with depth := p.depth + 1 } :=
        h.keep (congrArg (fun b : JsonState => { b with depth := b.depth + 1 }) h.same) ⟨rfl, rfl⟩ id ⟨h.within,
          id⟩ rfl h.names
          h.message
      exact .ok (hdeep.fail _).endj

/-- The rounds of a call on the front of a text, with the calls in it: where one begins, the token is read alike with
`tail` behind the front. -/
def RoundsAlike (dec noenum : Bool) (len : Nat) (tail : Bytes) : Nat → Expected → JsonState → Prop
  | 0, _, _ => True
  | fuel + 1, e, st => st.i < len →
    ReadsAlike dec e st (st.val.drop st.i) ((st.val.take len ++ tail).drop st.i) ∧
    (∀ e' st₁, jsonCall e st = some (e', st₁) → st₁.depth + 1 < RIM_JSON_MAX_NESTED →
      st₁.listC + 1 < (RIM_JSON_MAX_NESTED : Int) - 1 → RoundsAlike dec noenum len tail fuel {} st₁.enter) ∧
    ∀ e' st', rimJsonStep dec noenum (rimJsonValue (rimJsonLoop dec noenum len fuel)) e st = .ok (some e', st') →
      RoundsAlike dec noenum len tail fuel e' st'

/-- A round that goes on is in no error. -/
theorem rimJsonStep_ec {value : JsonState → Except JsonFault JsonState} {st' : JsonState} {e' : Expected}
    (hec : st.ec = -1) (h : rimJsonStep dec noenum value e st = .ok (some e', st')) : st'.ec = -1 := by
  obtain ⟨e'', st₁, -, -, ho⟩ | ⟨-, halone⟩ := rimJsonStep_does h
  · by_contra hne
    rw [if_pos hne] at ho
    cases ho
  · cases halone with
    | on hkept => exact hkept.ec.trans hec

/-- The calls of a round keep the runs alike, where their loops do. -/
theorem valuesAlike_of_loop {call : Option (Expected × JsonState)}
    {loop : Expected → JsonState → Except JsonFault JsonState}
    (hloop : ∀ e' s₁ p₁, call = some (e', p₁) → p₁.depth + 1 < RIM_JSON_MAX_NESTED →
      p₁.listC + 1 < (RIM_JSON_MAX_NESTED : Int) - 1 → Alike len tail s₁ p₁ →
      Alongside (Alike len tail) (loop {} s₁.enter) (loop {} p₁.enter)) :
    ValuesAlike len tail call (rimJsonValue loop) (rimJsonValue loop) := by
  intro e₁ s₁ p₁ hcall h₁
  exact rimJsonValue_alike h₁ fun hdepth hlevel => hloop e₁ s₁ p₁ hcall hdepth hlevel h₁

/-- The two runs stay alike, where every token is read alike. -/
theorem rimJsonLoop_alike {fuel : Nat} (hnull : 0 ∈ tail) (hrounds : RoundsAlike dec noenum len tail fuel e p)
    (h : Alike len tail s p) (hec : p.ec = -1) :
    Alongside (Alike len tail) (rimJsonLoop dec noenum len fuel e s) (rimJsonLoop dec noenum len fuel e p) := by
  induction fuel generalizing e s p with
  | zero => exact .error _
  | succ fuel ih =>
    rw [rimJsonLoop, rimJsonLoop]
    have hin : s.i < len ↔ p.i < len := by rw [h.i_eq]
    by_cases hi : p.i < len
    · rw [if_pos (hin.mpr hi), if_pos hi]
      obtain ⟨hread, hcalls, hnext⟩ := hrounds hi
      have hsv := (h.rest hi).1
      have hread' : ReadsAlike dec e p (p.val.drop p.i) (s.val.drop s.i) := by
        rw [hsv, h.i_eq]
        exact hread
      have hvalues : ValuesAlike len tail (jsonCall e p) (rimJsonValue (rimJsonLoop dec noenum len fuel))
          (rimJsonValue (rimJsonLoop dec noenum len fuel)) := by
        apply valuesAlike_of_loop
        intro e' s₁ p₁ hcall hdepth hlevel h₁
        exact ih (hcalls e' p₁ hcall hdepth hlevel) h₁.enter ((jsonCall_from hcall).kept.ec.trans hec)
      have hstep : RoundAlike len tail (rimJsonStep dec noenum (rimJsonValue (rimJsonLoop dec noenum len fuel)) e s)
          (rimJsonStep dec noenum (rimJsonValue (rimJsonLoop dec noenum len fuel)) e p) :=
        rimJsonStep_alike h hi hec hnull hread' hvalues
      cases hp : rimJsonStep dec noenum (rimJsonValue (rimJsonLoop dec noenum len fuel)) e p with
      | error err =>
        rw [hstep.of_error hp]
        exact .error err
      | ok x =>
        obtain ⟨y, hs, hsame, h'⟩ := hstep.of_ok hp
        obtain ⟨o, p'⟩ := x
        obtain ⟨o', s'⟩ := y
        obtain rfl : o' = o := hsame
        rw [hs]
        cases o' with
        | none => exact .ok h'
        | some e' => exact ih (hnext e' p' hp) h' (rimJsonStep_ec hec hp)
    · rw [if_neg (fun h => hi (hin.mp h)), if_neg hi]
      exact .ok (h.listC (-1))

end Calls

end RimStone
