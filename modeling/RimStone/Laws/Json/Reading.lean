import RimStone.Json.Reading
import RimStone.Laws.Json.Step
import Mathlib.Data.List.Forall2

/-!
# The parser reads as the reader does

`Sim` relates the variables of the parser to a reader. What the parser has passed is not
written again: a round writes behind the byte at which it begins. So the names and the
values, which are places in the text, keep the bytes that the reader has.

A round of the parser does what `readStep` says, and has an error or no result where it
says nothing; from this, a call of the parser is what `Reads` derives. A string in error
alone is no error at once. Its call returns, and it is read again by the caller, which
expects no string.
-/

namespace RimStone

open RimStone.Lib

/-! ## The relation -/

/-- The bytes up to `i` are the same. -/
def SameTo (val val' : Bytes) (i : Nat) : Prop := val'.length = val.length ∧ ∀ k, k ≤ i → val'[k]? = val[k]?

theorem SameTo.refl (val : Bytes) (i : Nat) : SameTo val val i := ⟨rfl, fun _ _ => rfl⟩

variable {val val' : Bytes} {i i' : Nat}

theorem SameTo.slice {p n : Nat} (h : SameTo val val' i) (hp : p + n ≤ i + 1) :
    (val'.drop p).take n = (val.drop p).take n := by
  apply List.ext_getElem?
  intro k
  by_cases hk : k < n
  · rw [List.getElem?_take_of_lt hk, List.getElem?_take_of_lt hk, List.getElem?_drop, List.getElem?_drop,
      h.2 _ (by omega)]
  · rw [List.getElem?_eq_none (by rw [List.length_take]; omega),
      List.getElem?_eq_none (by rw [List.length_take]; omega)]

/-- The name of a level, a place in the text before `i`. -/
def NameSim (val : Bytes) (i : Nat) (nameLen : Int) : Option Nat → Option Bytes → Prop
  | none, none => True
  | some p, some s => nameLen = s.length ∧ p + s.length ≤ i ∧ (val.drop p).take s.length = s
  | _, _ => False

def LevelSim (val : Bytes) (i : Nat) (l : JsonNode) (a : JsonLevel) : Prop :=
  l.index = a.index ∧ NameSim val i l.nameLen l.name a.name

/-- A node and a leaf: the value ends with a null at `i` at the latest. -/
def LeafSim (val : Bytes) (i : Nat) (n : RimJsonn) (a : JsonLeaf) : Prop :=
  n.name = a.name ∧ n.type = a.type ∧ 0 ∉ a.value ∧ n.str + a.value.length ≤ i ∧
    (val.drop n.str).take (a.value.length + 1) = a.value ++ [0]

theorem NameSim.keep {n : Int} {p : Option Nat} {s : Option Bytes} (h : NameSim val i n p s)
    (hsame : SameTo val val' i) (hi : i ≤ i') : NameSim val' i' n p s := by
  cases p with
  | none => cases s <;> exact h
  | some p =>
    cases s with
    | none => exact h
    | some s =>
      obtain ⟨hn, hp, hs⟩ := h
      exact ⟨hn, by omega, by rw [hsame.slice (by omega), hs]⟩

theorem LevelSim.keep {l : JsonNode} {a : JsonLevel} (h : LevelSim val i l a) (hsame : SameTo val val' i)
    (hi : i ≤ i') : LevelSim val' i' l a :=
  ⟨h.1, h.2.keep hsame hi⟩

theorem LeafSim.keep {n : RimJsonn} {a : JsonLeaf} (h : LeafSim val i n a) (hsame : SameTo val val' i) (hi : i ≤ i') :
    LeafSim val' i' n a := by
  obtain ⟨hname, htype, hzero, hend, hval⟩ := h
  exact ⟨hname, htype, hzero, by omega, by rw [hsame.slice (by omega), hval]⟩

/-- The text that is left, with the byte that was replaced. -/
def JsonState.rest (st : JsonState) : Bytes :=
  if st.nulled ≠ 0 then st.nulled :: st.val.drop (st.i + 1) else st.val.drop st.i

/-- The variables of the parser and a reader at the text `v`. -/
structure Sim (st : JsonState) (d : Nat) (r : Reader) (v : Bytes) : Prop where
  rest : st.rest = v
  size : st.i + v.length = st.val.length
  last : v.getLast? = some 0
  short : st.val.length ≤ 2 ^ 31
  fine : st.ec = -1
  listC : st.listC = r.listC
  depth : st.depth = d
  levels : List.Forall₂ (LevelSim st.val st.i) st.list r.list
  leaves : List.Forall₂ (LeafSim st.val st.i) st.nodes r.leaves

variable {st st' st₁ : JsonState} {d : Nat} {r r' : Reader} {v v' t : Bytes} {c : UInt8}

theorem Sim.ne_nil (h : Sim st d r v) : v ≠ [] := by
  intro hv
  have hlast := h.last
  rw [hv] at hlast
  cases hlast

/-- A reader at more than the end of the text. -/
theorem Sim.lt_iff (h : Sim st d r v) {len : Nat} (hlen : len + 1 = st.val.length) : st.i < len ↔ v ≠ [0] := by
  have hsize := h.size
  have hne := h.ne_nil
  constructor
  · intro hi hv
    rw [hv, List.length_singleton] at hsize
    omega
  · intro hv
    cases v with
    | nil => exact absurd rfl hne
    | cons a v =>
      cases v with
      | nil =>
        have hlast := h.last
        simp only [List.getLast?_singleton, Option.some.injEq] at hlast
        rw [hlast] at hv
        exact absurd rfl hv
      | cons b v =>
        simp only [List.length_cons] at hsize
        omega

/-- The next byte is the first of the text that is left. -/
theorem Sim.jsonChar (h : Sim st d r (c :: t)) :
    ∃ line last, RimStone.jsonChar st = .ok (c, { st with nulled := 0, lineEc := line, lastLineEc := last }) := by
  have hrest := h.rest
  unfold JsonState.rest at hrest
  by_cases hn : st.nulled = 0
  · rw [if_neg (not_not_intro hn)] at hrest
    have hc : st.val[st.i]? = some c := by
      rw [← Nat.add_zero st.i, ← List.getElem?_drop, hrest]
      rfl
    unfold RimStone.jsonChar
    rw [if_neg (not_not_intro hn), hc]
    by_cases hline : c = 10
    · exact ⟨st.lineEc + 1, st.i, by simp [inText, bind, Except.bind, hline]⟩
    · exact ⟨st.lineEc, st.lastLineEc, by simp [inText, bind, Except.bind, hline]⟩
  · rw [if_pos hn] at hrest
    obtain ⟨hc, -⟩ := List.cons.inj hrest
    unfold RimStone.jsonChar
    rw [if_pos hn, hc]
    by_cases hline : c = 10
    · exact ⟨st.lineEc + 1, st.i, by simp [bind, Except.bind, hline]⟩
    · exact ⟨st.lineEc, st.lastLineEc, by simp [bind, Except.bind, hline]⟩

theorem Sim.drop_succ (h : Sim st d r (c :: t)) : st.val.drop (st.i + 1) = t := by
  have hrest := h.rest
  unfold JsonState.rest at hrest
  by_cases hn : st.nulled = 0
  · rw [if_neg (not_not_intro hn)] at hrest
    rw [← List.drop_drop, hrest]
    rfl
  · rw [if_pos hn] at hrest
    exact (List.cons.inj hrest).2

/-- The text that is left, where no byte of it was replaced. -/
theorem Sim.drop (h : Sim st d r v) (hn : st.nulled = 0) : st.val.drop st.i = v := by
  have hrest := h.rest
  unfold JsonState.rest at hrest
  rw [if_neg (not_not_intro hn)] at hrest
  exact hrest

/-- The text has its end after every byte that is none. -/
theorem Sim.last_tail (h : Sim st d r (c :: t)) (hc : c ≠ 0) : t.getLast? = some 0 := by
  have hlast := h.last
  cases t with
  | nil =>
    simp only [List.getLast?_singleton, Option.some.injEq] at hlast
    exact absurd hlast hc
  | cons a t => rwa [List.getLast?_cons_cons] at hlast

/-! ## Lookups -/

/-- A lookup of the parser finds what the reader finds, and is undefined where the reader finds nothing. -/
def LooksUp {α β : Type} (R : α → β → Prop) : Option α → Except JsonFault β → Prop
  | some a, x => ∃ b, x = .ok b ∧ R a b
  | none, x => x = .error .undefined

section LooksUp

variable {α α' β β' : Type} {R : α → β → Prop}

theorem LooksUp.bind {S : α' → β' → Prop} {o : Option α} {x : Except JsonFault β} {f : α → Option α'}
    {g : β → Except JsonFault β'} (h : LooksUp R o x) (hf : ∀ a b, R a b → LooksUp S (f a) (g b)) :
    LooksUp S (o >>= f) (x >>= g) := by
  cases o with
  | none =>
    obtain rfl : x = .error .undefined := h
    rfl
  | some a =>
    obtain ⟨b, rfl, hab⟩ := h
    exact hf a b hab

variable {l : List β} {l' : List α}

theorem looksUp_getElem? (h : List.Forall₂ (fun b a => R a b) l l') (i : Nat) : LooksUp R l'[i]? (inText l[i]?) := by
  induction h generalizing i with
  | nil => rfl
  | @cons b a l l' hab hrest ih =>
    cases i with
    | zero => exact ⟨b, rfl, hab⟩
    | succ i => exact ih i

theorem forall₂_set (h : List.Forall₂ (fun b a => R a b) l l') (i : Nat) {b : β} {a : α} (hab : R a b) :
    List.Forall₂ (fun b a => R a b) (l.set i b) (l'.set i a) := by
  induction h generalizing i with
  | nil => exact .nil
  | cons hxy hrest ih =>
    cases i with
    | zero => exact .cons hab hrest
    | succ i => exact .cons hxy (ih i)

end LooksUp

theorem level_sim (hlist : List.Forall₂ (LevelSim val i) st.list r.list) (hc : st.listC = r.listC) :
    LooksUp (fun a l => LevelSim val i l a) r.level st.level := by
  unfold Reader.level JsonState.level
  rw [hc]
  by_cases hpos : 0 ≤ r.listC
  · rw [if_pos hpos, if_pos hpos]
    exact looksUp_getElem? hlist _
  · rw [if_neg hpos, if_neg hpos]
    rfl

theorem jsonLevelName_sim (hi : i ≤ val.length) {l : JsonNode} {a : JsonLevel} (h : LevelSim val i l a) (noenum : Bool) :
    LooksUp Eq (a.text noenum) (jsonLevelName val noenum l) := by
  obtain ⟨lname, nameLen, lindex⟩ := l
  obtain ⟨aname, index⟩ := a
  obtain ⟨rfl, hname⟩ := h
  cases lname with
  | none =>
    cases aname with
    | none => rfl
    | some s => exact hname.elim
  | some p =>
    cases aname with
    | none => exact hname.elim
    | some s =>
      obtain ⟨rfl, hp, hs⟩ := hname
      have hbound : 0 ≤ (s.length : Int) ∧ p + s.length ≤ val.length := by omega
      simp only [jsonLevelName, inText, bind, Except.bind, Int.toNat_natCast, if_pos hbound, hs]
      by_cases henum : noenum = false ∧ lindex ≠ -1
      · exact ⟨_, if_pos henum, if_pos henum⟩
      · exact ⟨_, if_neg henum, if_neg henum⟩

theorem mapM_level_sim (hi : i ≤ val.length) {l : List JsonNode} {a : List JsonLevel}
    (h : List.Forall₂ (LevelSim val i) l a) (noenum : Bool) :
    LooksUp Eq (a.mapM (JsonLevel.text noenum)) (l.mapM (jsonLevelName val noenum)) := by
  induction h with
  | nil => exact ⟨_, rfl, rfl⟩
  | cons hab hrest ih =>
    rw [List.mapM_cons, List.mapM_cons]
    refine (jsonLevelName_sim hi hab noenum).bind ?_
    rintro s _ rfl
    refine ih.bind ?_
    rintro ss _ rfl
    exact ⟨_, rfl, rfl⟩

theorem rimJsonFullname_sim (hi : st.i ≤ st.val.length)
    (hlist : List.Forall₂ (LevelSim st.val st.i) st.list r.list) (hc : st.listC = r.listC) (noenum : Bool) :
    LooksUp Eq (r.leafName noenum) (rimJsonFullname st noenum) := by
  unfold Reader.leafName rimJsonFullname
  rw [hc]
  by_cases hz : r.listC = 0
  · rw [if_pos hz, if_pos hz]
    exact ⟨_, rfl, rfl⟩
  · rw [if_neg hz, if_neg hz]
    refine (mapM_level_sim hi (List.forall₂_take r.listC.toNat hlist) noenum).bind ?_
    rintro names _ rfl
    exact ⟨_, rfl, rfl⟩

theorem nextIndex_sim (hlist : List.Forall₂ (LevelSim val i) st.list r.list) (hc : st.listC = r.listC) :
    LooksUp (fun r' st' => ∃ list, st' = { st with list } ∧ List.Forall₂ (LevelSim val i) list r'.list ∧
      r' = { r with list := r'.list }) r.nextIndex st.nextIndex := by
  refine (level_sim hlist hc).bind fun a l hsim => ⟨_, rfl, _, rfl, ?_, rfl⟩
  rw [hc]
  exact forall₂_set hlist _ ⟨by rw [hsim.1], hsim.2⟩

theorem addLeaf_sim (hi : st.i ≤ st.val.length) (hlist : List.Forall₂ (LevelSim st.val st.i) st.list r.list)
    (hc : st.listC = r.listC) (noenum : Bool) (type : JsonType) (str : Nat) (value : Bytes) :
    LooksUp (fun r' st' => ∃ name, r' = { r with listC := r.listC - 1, leaves := r.leaves ++ [{ name, type, value }] } ∧
      st' = { st with nodes := st.nodes ++ [{ name, type, str }] }) (r.addLeaf noenum type value)
      (rimAddJson noenum type str st) := by
  refine (rimJsonFullname_sim hi hlist hc noenum).bind ?_
  rintro name _ rfl
  exact ⟨_, rfl, name, rfl, rfl⟩

/-! ## A round -/

/-- A string in error: the parser is before its quote. -/
def Stuck (st : JsonState) : Prop :=
  st.ec = -1 ∧ st.nulled = 0 ∧ st.val[st.i]? = some 34 ∧ st.i + 1 < st.val.length

def Further (st st' : JsonState) : Prop := st.i < st'.i ∧ st'.val.length = st.val.length

/-- A round of the parser does what the reader does. -/
def StepSim (run : (JsonState → Except JsonFault JsonState) → JsonStep) (st : JsonState) (d : Nat) :
    Option ReadAct → Prop
  | some (.move e' r' v') =>
    ∃ st', (∀ value, run value = .ok (some e', st')) ∧ Sim st' d r' v' ∧ st'.nulled = 0 ∧ Further st st'
  | some (.stop r' v' b) =>
    ∃ st', (∀ value, run value = .ok (none, st')) ∧ Sim st' d r' v' ∧ Further st st' ∧
      (b = false → st'.nulled = 0) ∧ (b = true → st'.val[st'.i]? = some 0)
  | some (.call r' v' e') =>
    ∃ st₁, Sim st₁ d r' v' ∧ st₁.nulled = 0 ∧ Further st st₁ ∧
      ∀ value, run value = (value st₁ >>= fun st => .ok (if st.ec ≠ -1 then none else some e', st))
  | none =>
    ∀ value o st', run value = .ok (o, st') →
      o = none ∧ (st'.ec ≠ -1 ∨ Stuck st' ∧ st'.val.length = st.val.length)

/-- Where the parser is in error, the reader does nothing. -/
theorem StepSim.error {run : (JsonState → Except JsonFault JsonState) → JsonStep}
    (h : ∀ value, ∃ err, run value = .ok (none, st₁.fail err)) : StepSim run st d none := by
  intro value o st' hrun
  obtain ⟨err, herr⟩ := h value
  rw [herr] at hrun
  obtain ⟨rfl, rfl⟩ := Prod.mk.inj (Except.ok.inj hrun)
  refine ⟨rfl, Or.inl ?_⟩
  show (st₁.i : Int) ≠ -1
  omega

/-- Where the parser is undefined, the reader does nothing. -/
theorem StepSim.undefined {run : (JsonState → Except JsonFault JsonState) → JsonStep}
    (h : ∀ value, run value = .error .undefined) : StepSim run st d none := by
  intro value o st' hrun
  rw [h value] at hrun
  cases hrun

/-- Where a flag is set, there is an error. -/
theorem StepSim.flags {run : (JsonState → Except JsonFault JsonState) → JsonStep} {o : Option RimJsonErr} {P : Prop}
    [Decidable P] {act : Option ReadAct} (hP : P ↔ o = none)
    (herr : ∀ err, o = some err → ∀ value, ∃ err, run value = .ok (none, st₁.fail err))
    (hgo : o = none → StepSim run st d act) : StepSim run st d (if P then act else none) := by
  cases o with
  | some err =>
    rw [if_neg (fun h => Option.some_ne_none _ (hP.mp h))]
    exact StepSim.error (herr err rfl)
  | none =>
    rw [if_pos (hP.mpr rfl)]
    exact hgo rfl

theorem StepSim.bind {α β : Type} {R : α → β → Prop} {o : Option α} {x : Except JsonFault β}
    {f : α → Option ReadAct} {g : β → (JsonState → Except JsonFault JsonState) → JsonStep} (h : LooksUp R o x)
    (hf : ∀ a b, R a b → StepSim (g b) st d (f a)) : StepSim (fun value => x >>= fun b => g b value) st d (o >>= f) := by
  cases o with
  | none =>
    obtain rfl : x = .error .undefined := h
    exact StepSim.undefined fun _ => rfl
  | some a =>
    obtain ⟨b, rfl, hab⟩ := h
    exact hf a b hab

theorem Sim.next (h : Sim st d r (c :: t)) (hc : c ≠ 0) (hval : st'.val = st.val) (hi : st'.i = st.i + 1)
    (hn : st'.nulled = 0) (hec : st'.ec = st.ec) (hdepth : st'.depth = st.depth) (hnodes : st'.nodes = st.nodes)
    (hleaves : r'.leaves = r.leaves) (hlistC : st'.listC = r'.listC)
    (hlist : List.Forall₂ (LevelSim st.val st.i) st'.list r'.list) : Sim st' d r' t := by
  have hsize := h.size
  rw [List.length_cons] at hsize
  have hle : st.i ≤ st.i + 1 := Nat.le_succ _
  refine ⟨?_, ?_, h.last_tail hc, ?_, ?_, hlistC, ?_, ?_, ?_⟩
  · unfold JsonState.rest
    rw [if_neg (not_not_intro hn), hval, hi, h.drop_succ]
  · rw [hval, hi]
    omega
  · rw [hval]
    exact h.short
  · rw [hec, h.fine]
  · rw [hdepth, h.depth]
  · rw [hval, hi]
    exact hlist.imp fun _ _ hl => hl.keep (SameTo.refl _ _) hle
  · rw [hval, hi, hnodes, hleaves]
    exact h.leaves.imp fun _ _ hl => hl.keep (SameTo.refl _ _) hle

theorem Further.next (h : st'.i = st.i + 1) (hval : st'.val = st.val) : Further st st' :=
  ⟨by omega, by rw [hval]⟩

section Tokens

variable {dec noenum : Bool} {e : Expected} {line last : Nat}

theorem begObject_sim (h : Sim st d r (c :: t)) (hc : c ≠ 0) :
    StepSim (fun _ => jsonBegObject e { st with nulled := 0, lineEc := line, lastLineEc := last }) st d
      (if e.noValue = none then some (.move { e with name := true, isobj := true } r t) else none) := by
  unfold jsonBegObject
  generalize ho : flagErr _ = o
  refine StepSim.flags (o := o) (noValue_eq_none.trans (by simp [← ho, flagErr_eq_none, -flagErr_cons]; tauto))
    (fun err herr _ => ⟨err, by rw [herr]⟩) ?_
  rintro rfl
  refine ⟨_, fun _ => rfl, ?_, rfl, Further.next rfl rfl⟩
  exact h.next hc rfl rfl rfl rfl rfl rfl rfl h.listC h.levels

theorem endObject_sim (h : Sim st d r (c :: t)) (hc : c ≠ 0) :
    StepSim (fun _ => jsonEndObject e { st with nulled := 0, lineEc := line, lastLineEc := last }) st d
      (if e.colon = false ∧ e.commaOrEndArray = false ∧ e.name = false then
        some (.stop { r with listC := r.listC - 1 } t false)
      else none) := by
  unfold jsonEndObject
  generalize ho : flagErr _ = o
  refine StepSim.flags (o := o) (by simp [← ho, flagErr_eq_none, -flagErr_cons]) (fun err herr _ => ⟨err, by rw [herr]⟩) ?_
  rintro rfl
  refine ⟨_, fun _ => rfl, ?_, Further.next rfl rfl, fun _ => rfl, nofun⟩
  exact h.next hc rfl rfl rfl rfl rfl rfl rfl (by show st.listC - 1 = r.listC - 1; rw [h.listC]) h.levels

/-- The next element of an array is called for. -/
theorem element_sim (h : Sim st d r (c :: t)) (hc : c ≠ 0) {r₁ : Reader} {e' : Expected} (hval : st₁.val = st.val)
    (hi : st₁.i = st.i + 1) (hn : st₁.nulled = 0) (hec : st₁.ec = st.ec) (hdepth : st₁.depth = st.depth)
    (hnodes : st₁.nodes = st.nodes) (hleaves : r₁.leaves = r.leaves) (hlistC : st₁.listC = r₁.listC)
    (hlist : List.Forall₂ (LevelSim st.val st.i) st₁.list r₁.list) :
    StepSim (fun value => st₁.nextIndex >>= fun st => value st >>= fun st =>
      .ok (if st.ec ≠ -1 then none else some e', st)) st d (r₁.nextIndex >>= fun r => some (.call r t e')) := by
  refine StepSim.bind (nextIndex_sim hlist hlistC) ?_
  rintro r' _ ⟨list, rfl, hsim, hr'⟩
  refine ⟨{ st₁ with list }, ?_, hn, Further.next hi hval, fun _ => rfl⟩
  refine h.next hc hval hi hn hec hdepth hnodes ?_ ?_ hsim
  · rw [hr']
    exact hleaves
  · rw [hr']
    exact hlistC

theorem begArray_sim (h : Sim st d r (c :: t)) (hc : c ≠ 0) :
    StepSim (fun value => jsonBegArray value e { st with nulled := 0, lineEc := line, lastLineEc := last }) st d
      (if e.noValue = none then do
        let r ← Reader.nextIndex { r with listC := r.listC - 1 }
        some (.call r t { e with isarr := true, commaOrEndArray := true })
      else none) := by
  unfold jsonBegArray
  generalize ho : e.noValue = o
  refine StepSim.flags (o := o) Iff.rfl (fun err herr _ => ⟨err, by rw [herr]⟩) ?_
  rintro rfl
  exact element_sim h hc rfl rfl rfl rfl rfl rfl rfl (by show st.listC - 1 = r.listC - 1; rw [h.listC]) h.levels

theorem endArray_sim (h : Sim st d r (c :: t)) (hc : c ≠ 0) :
    StepSim (fun _ => jsonEndArray e { st with nulled := 0, lineEc := line, lastLineEc := last }) st d
      (if e.colon = false ∧ e.commaOrEndObject = false ∧ e.name = false then do
        let l ← r.level
        some (.stop (r.setLevel { l with index := -1 }) t false)
      else none) := by
  unfold jsonEndArray
  generalize ho : flagErr _ = o
  refine StepSim.flags (o := o) (by simp [← ho, flagErr_eq_none, -flagErr_cons]) (fun err herr _ => ⟨err, by rw [herr]⟩) ?_
  rintro rfl
  refine StepSim.bind (level_sim h.levels h.listC) fun a l hsim => ?_
  refine ⟨_, fun _ => rfl, ?_, Further.next rfl rfl, fun _ => rfl, nofun⟩
  refine h.next hc rfl rfl rfl rfl rfl rfl rfl h.listC ?_
  show List.Forall₂ _ (st.list.set st.listC.toNat _) (r.list.set r.listC.toNat _)
  rw [h.listC]
  exact forall₂_set h.levels _ ⟨rfl, hsim.2⟩

theorem colon_sim (h : Sim st d r (c :: t)) (hc : c ≠ 0) :
    StepSim (fun value => jsonColon value e { st with nulled := 0, lineEc := line, lastLineEc := last }) st d
      (if e.commaOrEndArray = false ∧ e.commaOrEndObject = false ∧ e.name = false then
        some (.call r t { e with colon := false, commaOrEndObject := true })
      else none) := by
  unfold jsonColon
  generalize ho : flagErr _ = o
  refine StepSim.flags (o := o) (by simp [← ho, flagErr_eq_none, -flagErr_cons]) (fun err herr _ => ⟨err, by rw [herr]⟩) ?_
  rintro rfl
  refine ⟨{ st with i := st.i + 1, nulled := 0, lineEc := line, lastLineEc := last }, ?_, rfl,
    Further.next rfl rfl, fun _ => rfl⟩
  exact h.next hc rfl rfl rfl rfl rfl rfl rfl h.listC h.levels

theorem comma_sim (h : Sim st d r (c :: t)) (hc : c ≠ 0) :
    StepSim (fun value => jsonComma value e { st with nulled := 0, lineEc := line, lastLineEc := last }) st d
      (if e.colon = false ∧ e.name = false then
        if e.isobj then
          some (.move { e with commaOrEndArray := false, commaOrEndObject := false, name := true } r t)
        else if e.isarr then do
          let r ← r.nextIndex
          some (.call r t { e with commaOrEndArray := true, commaOrEndObject := false })
        else none
      else none) := by
  unfold jsonComma
  generalize ho : flagErr _ = o
  refine StepSim.flags (o := o) (by simp [← ho, flagErr_eq_none, -flagErr_cons]) (fun err herr _ => ⟨err, by rw [herr]⟩) ?_
  rintro rfl
  dsimp only
  cases hobj : e.isobj with
  | true =>
    refine ⟨_, fun _ => rfl, ?_, rfl, Further.next rfl rfl⟩
    exact h.next hc rfl rfl rfl rfl rfl rfl rfl h.listC h.levels
  | false =>
    cases harr : e.isarr with
    | true => exact element_sim h hc rfl rfl rfl rfl rfl rfl rfl h.listC h.levels
    | false => exact StepSim.error fun _ => ⟨_, rfl⟩

/-! ## Strings and scalars -/

theorem cstr_take (s x : Bytes) : (s ++ 0 :: x).take ((cstr s).length + 1) = cstr s ++ [0] := by
  induction s with
  | nil => rfl
  | cons a s ih =>
    rw [cstr_cons]
    by_cases ha : a = 0
    · rw [if_pos ha, ha]
      rfl
    · rw [if_neg ha, List.length_cons, List.cons_append, List.take_succ_cons, ih, List.cons_append]

theorem cstr_append_null {s : Bytes} (h : 0 ∉ s) (x : Bytes) : cstr (s ++ 0 :: x) = s := by
  unfold cstr
  rw [List.takeWhile_append_of_pos]
  · simp
  · intro c hc
    have hne : c ≠ 0 := fun he => h (he ▸ hc)
    simpa using hne

theorem zero_notMem_cstr (s : Bytes) : 0 ∉ cstr s := by
  intro h
  have hne := List.mem_takeWhile_imp h
  simp at hne

theorem cstr_length_le (s : Bytes) : (cstr s).length ≤ s.length := (List.takeWhile_prefix _).length_le

/-- What a string leaves between its quotes, and the null after it. -/
theorem quotedText_drop {dec : Bool} {te : TextEnd} (h : rimTextToUtf (val.drop i) true dec false = .ok te) :
    (quotedText val i te).drop (i + 1) = (te.val.drop 1).take (te.last - 1) ++ 0 :: val.drop (i + te.last + 1) := by
  obtain ⟨hone, hend, hwrote⟩ := rimTextToUtf_quoted h
  have hlt := (List.getElem?_eq_some_iff.mp hend).1
  have hvlen := hwrote.length
  rw [List.length_drop] at hlt hvlen
  have htake : (val.take i).length = i := List.length_take_of_le (by omega)
  have hafter : te.val.drop (te.last + 1) = val.drop (i + te.last + 1) := by
    rw [hwrote.drop (Nat.le_succ _), List.drop_drop, Nat.add_assoc]
  have hpre : (val.take i ++ te.val).drop (i + 1) = te.val.drop 1 := by
    have hnil : (val.take i).drop (i + 1) = [] := List.drop_eq_nil_of_le (by omega)
    rw [List.drop_append, hnil, htake, Nat.add_sub_cancel_left, List.nil_append]
  have hpos : i + te.last - (i + 1) = te.last - 1 := by omega
  have hin : te.last - 1 < (te.val.drop 1).length := by
    rw [List.length_drop]
    omega
  have hlast : te.last - 1 + 1 = te.last := by omega
  unfold quotedText
  rw [List.drop_set, if_neg (by omega), hpre, hpos, List.set_eq_take_append_cons_drop, if_pos hin, hlast,
    List.drop_drop, Nat.add_comm 1, hafter]

/-- Where bytes of the text that are not its end are taken, its end is left. -/
theorem getLast?_drop {v : Bytes} {n : Nat} (hlast : v.getLast? = some 0) (hn : n < v.length) :
    (v.drop n).getLast? = some 0 := by
  rw [List.getLast?_drop, if_neg (by omega), hlast]

/-- The variables after a string. -/
theorem Sim.quoted (h : Sim st d r v) (hn : st.nulled = 0) {te : TextEnd}
    (hte : rimTextToUtf v true dec false = .ok te) (hval : st'.val = quotedText st.val st.i te)
    (hi : st'.i = st.i + te.last + 1) (hn' : st'.nulled = 0) (hec : st'.ec = st.ec) (hdepth : st'.depth = st.depth)
    (hlistC : st'.listC = r'.listC)
    (hlist : List.Forall₂ (LevelSim st'.val st'.i) st'.list r'.list)
    (hleaves : List.Forall₂ (LeafSim st'.val st'.i) st'.nodes r'.leaves) : Sim st' d r' (v.drop (te.last + 1)) := by
  have hdrop := h.drop hn
  rw [← hdrop] at hte
  obtain ⟨hone, hend, hwindow⟩ := quotedText_window hte
  have hlt := (List.getElem?_eq_some_iff.mp hend).1
  have hsize := h.size
  -- the quote is not the end
  have hnot : te.last + 1 < v.length := by
    have hne : te.last ≠ v.length - 1 := by
      intro he
      have hlast := h.last
      rw [List.getLast?_eq_getElem?, ← he, ← hdrop, List.getElem?_drop, hend] at hlast
      exact absurd (Option.some.inj hlast) (by decide)
    omega
  refine ⟨?_, ?_, getLast?_drop h.last hnot, ?_, ?_, hlistC, ?_, hlist, hleaves⟩
  · unfold JsonState.rest
    rw [if_neg (not_not_intro hn'), hval, hi, hwindow.drop (Nat.le_refl _), ← hdrop, List.drop_drop, Nat.add_assoc]
  · rw [hval, hwindow.length, hi, List.length_drop]
    omega
  · rw [hval, hwindow.length]
    exact h.short
  · rw [hec, h.fine]
  · rw [hdepth, h.depth]

theorem quote_sim (h : Sim st d r (34 :: t))
    (hquiet : st.nulled ≠ 0 → e.commaOrEndArray = true ∨ e.commaOrEndObject = true) :
    StepSim (fun _ => jsonQuote dec noenum e { st with nulled := 0, lineEc := line, lastLineEc := last }) st d
      (if e.colon = false ∧ e.commaOrEndArray = false ∧ e.commaOrEndObject = false then do
        let (s, n) ← readString dec (34 :: t)
        if e.name then do
          let l ← r.level
          some (.move { colon := true, isarr := e.isarr, isobj := e.isobj } (r.setLevel { l with name := some s })
            ((34 :: t).drop n))
        else do
          let r ← r.addLeaf noenum .string (cstr s)
          some (.stop r ((34 :: t).drop n) false)
      else none) := by
  by_cases hflags : e.colon = false ∧ e.commaOrEndArray = false ∧ e.commaOrEndObject = false
  swap
  · rw [if_neg hflags]
    exact StepSim.error fun _ => jsonQuote_flagged dec noenum _ hflags
  rw [if_pos hflags]
  obtain ⟨hcolon, hca, hco⟩ := hflags
  have hn : st.nulled = 0 := by
    by_contra hne
    have hend := hquiet hne
    rw [hca, hco] at hend
    simp at hend
  have hdrop := h.drop hn
  have hsize := h.size
  have hshort := h.short
  let st₁ : JsonState := { st with nulled := 0, lineEc := line, lastLineEc := last }
  have hdrop₁ : st₁.val.drop st₁.i = 34 :: t := hdrop
  unfold jsonQuote readString
  simp only [flagErr_cons, flagErr_nil, hcolon, hca, hco, Bool.false_eq_true, if_false]
  rw [hdrop]
  cases hte : rimTextToUtf (34 :: t) true dec false with
  | error err =>
    cases err with
    | undefined => exact StepSim.undefined fun _ => rfl
    | err err =>
      intro value o st' hrun
      obtain ⟨rfl, rfl⟩ := Prod.mk.inj (Except.ok.inj hrun)
      refine ⟨rfl, Or.inr ⟨⟨h.fine, rfl, ?_, ?_⟩, rfl⟩⟩
      · show st.val[st.i]? = some 34
        rw [← Nat.add_zero st.i, ← List.getElem?_drop, hdrop]
        rfl
      · show st.i + 1 < st.val.length
        have ht := h.last_tail (by decide)
        cases t with
        | nil => cases ht
        | cons a t =>
          simp only [List.length_cons] at hsize
          omega
  | ok te =>
    have hte₁ := hte
    rw [← hdrop] at hte₁
    obtain ⟨hone, hend, hwindow⟩ := quotedText_window hte₁
    have hlt := (List.getElem?_eq_some_iff.mp hend).1
    have hlen : stringLength te = te.last := stringLength_eq (by omega)
    have htake : (st.val.take st.i).length = st.i := List.length_take_of_le (by omega)
    have hpoke : poke (st.val.take st.i ++ te.val) (st.i + te.last) 0 = some (quotedText st.val st.i te) := by
      apply poke_eq
      have hwl := (rimTextToUtf_quoted hte).2.2.length
      rw [List.length_append, htake, hwl]
      omega
    have hpos : ¬ ((st.i : Int) + te.last + 1 < 0) := by omega
    have hnat : ((st.i : Int) + te.last + 1).toNat = st.i + te.last + 1 := by omega
    have hin : ∀ {α β : Type} (a : α) (f : α → Except JsonFault β), (inText (some a) >>= f) = f a := fun _ _ => rfl
    have hbind : ∀ {α β : Type} (a : α) (f : α → Option β), (some a >>= f) = f a := fun _ _ => rfl
    simp only [hpoke, hin, hbind, hlen, if_neg hpos, hnat]
    let s := (te.val.drop 1).take (te.last - 1)
    have hs : (quotedText st.val st.i te).drop (st.i + 1) = s ++ 0 :: st.val.drop (st.i + te.last + 1) :=
      quotedText_drop hte₁
    have hslen : s.length = te.last - 1 := by
      have hwl := (rimTextToUtf_quoted hte).2.2.length
      rw [List.length_cons] at hwl hsize
      rw [List.length_take, List.length_drop, hwl]
      omega
    have hsame : SameTo st.val (quotedText st.val st.i te) st.i :=
      ⟨hwindow.length, fun k hk => hwindow.same k (by omega)⟩
    have hmore : st.i ≤ st.i + te.last + 1 := by omega
    have hlevels := h.levels.imp fun _ _ hl => hl.keep hsame hmore
    have hleaves := h.leaves.imp fun _ _ hl => hl.keep hsame hmore
    have hfurther : st.i < st.i + te.last + 1 := by omega
    cases hname : e.name with
    | true =>
      have hlevel : LooksUp _ r.level { st₁ with val := quotedText st.val st.i te }.level := level_sim h.levels h.listC
      refine StepSim.bind hlevel fun a l hsim => ?_
      refine ⟨_, fun _ => rfl, ?_, rfl, hfurther, hwindow.length⟩
      refine h.quoted hn hte rfl rfl rfl rfl rfl h.listC ?_ hleaves
      show List.Forall₂ _ (st.list.set st.listC.toNat _) (r.list.set r.listC.toNat _)
      rw [h.listC]
      apply forall₂_set hlevels
      refine ⟨hsim.1, ?_, ?_, ?_⟩
      · show (te.last : Int) - 1 = s.length
        omega
      · show st.i + 1 + s.length ≤ st.i + te.last + 1
        omega
      · show ((quotedText st.val st.i te).drop (st.i + 1)).take s.length = s
        rw [hs, List.take_left]
    | false =>
      let st₂ : JsonState := { st₁ with val := quotedText st.val st.i te }
      have hi₂ : st₂.i ≤ st₂.val.length := by
        show st.i ≤ (quotedText st.val st.i te).length
        rw [hwindow.length]
        omega
      have hlist₂ := h.levels.imp fun _ _ hl => hl.keep hsame (Nat.le_refl _)
      refine StepSim.bind (addLeaf_sim hi₂ hlist₂ h.listC noenum .string (st.i + 1) (cstr s)) ?_
      rintro _ _ ⟨name, rfl, rfl⟩
      refine ⟨_, fun _ => rfl, ?_, ⟨hfurther, hwindow.length⟩, fun _ => rfl, nofun⟩
      refine h.quoted hn hte rfl rfl rfl rfl rfl ?_ hlevels ?_
      · show st.listC - 1 = r.listC - 1
        rw [h.listC]
      · apply List.rel_append hleaves
        refine .cons ⟨rfl, rfl, zero_notMem_cstr s, ?_, ?_⟩ .nil
        · show st.i + 1 + (cstr s).length ≤ st.i + te.last + 1
          have hle := cstr_length_le s
          omega
        · show ((quotedText st.val st.i te).drop (st.i + 1)).take ((cstr s).length + 1) = cstr s ++ [0]
          rw [hs, cstr_take]

/-- Bytes of a number or a literal are no nulls. -/
theorem ScalarRun.zero_notMem {v : Bytes} {n : Nat} (h : ScalarRun v 0 n) : 0 ∉ v.take n := by
  intro hmem
  obtain ⟨k, hk, hget⟩ := List.getElem_of_mem hmem
  rw [List.length_take] at hk
  obtain ⟨c, hc, hscalar⟩ := h k (Nat.zero_le _) (by omega)
  rw [List.getElem_take] at hget
  rw [List.getElem?_eq_getElem (by omega), hget] at hc
  obtain rfl := Option.some.inj hc
  exact absurd hscalar (by decide)

theorem ScalarRun.lt_length {v : Bytes} {n : Nat} (h : ScalarRun v 0 n) (hlast : v.getLast? = some 0) :
    n < v.length := by
  by_contra hover
  have hne : v ≠ [] := by
    rintro rfl
    cases hlast
  have hpos := List.length_pos_iff.mpr hne
  obtain ⟨c, hc, hscalar⟩ := h (v.length - 1) (Nat.zero_le _) (by omega)
  rw [List.getLast?_eq_getElem?, hc] at hlast
  obtain rfl := Option.some.inj hlast
  exact absurd hscalar (by decide)

theorem scalar_sim (h : Sim st d r v) (hn : st.nulled = 0) {type : JsonType} {n : Nat} (hone : 1 ≤ n)
    (hrun : ScalarRun v 0 n) :
    StepSim (fun _ => jsonScalar noenum type n { st with nulled := 0, lineEc := line, lastLineEc := last }) st d
      (do
        let r ← r.addLeaf noenum type (v.take n)
        some (.stop r (v.drop n) true)) := by
  have hdrop := h.drop hn
  have hsize := h.size
  have hlt := hrun.lt_length h.last
  obtain ⟨tb, htb⟩ : ∃ tb, v[n]? = some tb := ⟨v[n], List.getElem?_eq_getElem hlt⟩
  have htb' : st.val[st.i + n]? = some tb := by
    rw [← List.getElem?_drop, hdrop, htb]
  have hsame : SameTo st.val (st.val.set (st.i + n) 0) st.i :=
    ⟨List.length_set, fun k hk => List.getElem?_set_ne (by omega)⟩
  let st₂ : JsonState := { st with val := st.val.set (st.i + n) 0, nulled := tb, lineEc := line, lastLineEc := last }
  have hi₂ : st₂.i ≤ st₂.val.length := by
    show st.i ≤ (st.val.set (st.i + n) 0).length
    rw [List.length_set]
    omega
  have hlist₂ : List.Forall₂ (LevelSim st₂.val st₂.i) st₂.list r.list :=
    h.levels.imp fun _ _ hl => hl.keep hsame (Nat.le_refl _)
  have hread : (fun _ : JsonState → Except JsonFault JsonState =>
      jsonScalar noenum type n { st with nulled := 0, lineEc := line, lastLineEc := last }) = fun _ =>
      rimAddJson noenum type st.i st₂ >>= fun st => .ok (none, { st with i := st.i + n, listC := st.listC - 1 }) := by
    unfold jsonScalar
    rw [htb', poke_eq (List.getElem?_eq_some_iff.mp htb').1]
    rfl
  rw [hread]
  refine StepSim.bind (addLeaf_sim hi₂ hlist₂ h.listC noenum type st.i (v.take n)) ?_
  · rintro _ _ ⟨name, rfl, rfl⟩
    refine ⟨_, fun _ => rfl, ?_, ?_, nofun, ?_⟩
    · have hzero := hrun.zero_notMem
      have hset : (st.val.set (st.i + n) 0).drop st.i = v.set n 0 := by
        rw [List.drop_set, if_neg (by omega), hdrop, Nat.add_sub_cancel_left]
      have hafter : st.val.drop (st.i + n) = v.drop n := by
        rw [← hdrop, List.drop_drop]
      have hmore : st.i ≤ st.i + n := Nat.le_add_right _ _
      refine ⟨?_, ?_, getLast?_drop h.last hlt, ?_, h.fine, ?_, h.depth, ?_, ?_⟩
      · unfold JsonState.rest
        dsimp only
        have hget : v.drop n = tb :: v.drop (n + 1) := by
          obtain ⟨hb, rfl⟩ := List.getElem?_eq_some_iff.mp htb
          exact List.drop_eq_getElem_cons hb
        have htail : (st.val.set (st.i + n) 0).drop (st.i + n + 1) = v.drop (n + 1) := by
          rw [List.drop_set_of_lt (Nat.lt_succ_self _), ← hdrop, List.drop_drop]
          rfl
        by_cases hz : tb = 0
        · rw [if_neg (not_not_intro hz), List.drop_set, if_neg (Nat.lt_irrefl _), Nat.sub_self, hafter, hget, hz]
          rfl
        · rw [if_pos hz, htail, hget]
      · show st.i + n + (v.drop n).length = (st.val.set (st.i + n) 0).length
        rw [List.length_drop, List.length_set]
        omega
      · show (st.val.set (st.i + n) 0).length ≤ 2 ^ 31
        rw [List.length_set]
        exact h.short
      · show st.listC - 1 = r.listC - 1
        rw [h.listC]
      · exact h.levels.imp fun _ _ hl => hl.keep hsame hmore
      · apply List.rel_append (h.leaves.imp fun _ _ hl => hl.keep hsame hmore)
        have htake : (v.take n).length = n := List.length_take_of_le (Nat.le_of_lt hlt)
        refine .cons ⟨rfl, rfl, hzero, ?_, ?_⟩ .nil
        · show st.i + (v.take n).length ≤ st.i + n
          rw [htake]
        · show ((st.val.set (st.i + n) 0).drop st.i).take ((v.take n).length + 1) = v.take n ++ [0]
          rw [hset, htake, List.set_eq_take_append_cons_drop, if_pos hlt, List.take_append,
            List.take_of_length_le (by omega), htake, Nat.add_sub_cancel_left]
          rfl
    · exact ⟨by show st.i < st.i + n; omega, List.length_set⟩
    · intro _
      show (st.val.set (st.i + n) 0)[st.i + n]? = some 0
      rw [List.getElem?_set_self (by omega)]

theorem noValue_nulled (hquiet : st.nulled ≠ 0 → e.commaOrEndArray = true ∨ e.commaOrEndObject = true)
    (hno : e.noValue = none) : st.nulled = 0 := by
  obtain ⟨-, hca, hco, -⟩ := noValue_eq_none.mp hno
  by_contra hne
  have hend := hquiet hne
  rw [hca, hco] at hend
  simp at hend

theorem number_sim (h : Sim st d r (c :: t)) (hc : jsonToken c = .number)
    (hquiet : st.nulled ≠ 0 → e.commaOrEndArray = true ∨ e.commaOrEndObject = true) :
    StepSim (fun _ => jsonNumber noenum e { st with nulled := 0, lineEc := line, lastLineEc := last }) st d
      (if e.noValue = none then do
        let (type, n) ← readScalar (c :: t)
        let r ← r.addLeaf noenum type ((c :: t).take n)
        some (.stop r ((c :: t).drop n) true)
      else none) := by
  unfold jsonNumber
  generalize ho : e.noValue = o
  refine StepSim.flags (o := o) Iff.rfl (fun err herr _ => ⟨err, by rw [herr]⟩) ?_
  rintro rfl
  have hn := noValue_nulled hquiet ho
  have hdrop := h.drop hn
  unfold readScalar
  rw [List.headD_cons, hc, hdrop]
  dsimp only [jsonLiteralOf]
  cases hnum : rimJsonNum (c :: t) with
  | error err =>
    intro value o st' hrun
    obtain ⟨x, hx, -⟩ := bind_eq_ok.mp hrun
    cases hx
  | ok o =>
    cases o with
    | none => exact StepSim.error fun _ => ⟨_, rfl⟩
    | some x =>
      obtain ⟨rv, n⟩ := x
      obtain ⟨hone, hrun⟩ := rimJsonNum_run hnum
      exact scalar_sim h hn hone hrun

theorem literal_sim (h : Sim st d r (c :: t)) {lit : Bytes} {type : JsonType}
    (hc : jsonLiteralOf (jsonToken c) = some (lit, type)) (hone : 1 ≤ lit.length) (hzero : 0 ∉ lit)
    (hscalar : ∀ x ∈ lit, scalarByte x = true)
    (hquiet : st.nulled ≠ 0 → e.commaOrEndArray = true ∨ e.commaOrEndObject = true) :
    StepSim (fun _ => jsonLiteral noenum lit type e { st with nulled := 0, lineEc := line, lastLineEc := last }) st d
      (if e.noValue = none then do
        let (type, n) ← readScalar (c :: t)
        let r ← r.addLeaf noenum type ((c :: t).take n)
        some (.stop r ((c :: t).drop n) true)
      else none) := by
  unfold jsonLiteral
  generalize ho : e.noValue = o
  refine StepSim.flags (o := o) Iff.rfl (fun err herr _ => ⟨err, by rw [herr]⟩) ?_
  rintro rfl
  have hn := noValue_nulled hquiet ho
  have hdrop := h.drop hn
  have hnull : 0 ∈ c :: t := List.mem_of_getLast? h.last
  have hread : readScalar (c :: t) = if lit.isPrefixOf (c :: t) then some (type, lit.length) else none := by
    unfold readScalar
    rw [List.headD_cons, hc]
  rw [hread]
  dsimp only
  rw [hdrop]
  by_cases hfront : lit <+: c :: t
  · rw [if_pos (List.isPrefixOf_iff_prefix.mpr hfront),
      if_neg (not_not_intro ((strncmp_eq_zero hnull hzero).mpr hfront))]
    exact scalar_sim h hn hone (literal_run hscalar hfront)
  · rw [if_neg (fun hp => hfront (List.isPrefixOf_iff_prefix.mp hp)),
      if_pos (fun hz => hfront ((strncmp_eq_zero hnull hzero).mp hz))]
    exact StepSim.error fun _ => ⟨_, rfl⟩

theorem jsonToken_eq_quote {c : UInt8} (h : jsonToken c = .quote) : c = 34 := by
  have hall : ∀ n, n < 256 → jsonToken (UInt8.ofNat n) = .quote → UInt8.ofNat n = 34 := by decide +kernel
  have hc := hall c.toNat c.toNat_lt
  rw [UInt8.ofNat_toNat] at hc
  exact hc h

/-- A round. -/
theorem rimJsonStep_sim (dec noenum : Bool) (h : Sim st d r (c :: t))
    (hquiet : st.nulled ≠ 0 → e.commaOrEndArray = true ∨ e.commaOrEndObject = true) :
    StepSim (fun value => rimJsonStep dec noenum value e st) st d (readStep dec noenum e r (c :: t)) := by
  obtain ⟨line, last, hchar⟩ := h.jsonChar
  unfold rimJsonStep readStep
  rw [hchar, List.headD_cons, List.tail_cons]
  have hc : jsonToken c ≠ .unknown → c ≠ 0 := by
    rintro htoken rfl
    exact htoken (by decide)
  have hbind : ∀ {α β : Type} (a : α) (f : α → Except JsonFault β), (Except.ok a >>= f) = f a := fun _ _ => rfl
  simp only [hbind]
  cases htoken : jsonToken c with
  | begObject => exact begObject_sim h (hc (by rw [htoken]; decide))
  | endObject => exact endObject_sim h (hc (by rw [htoken]; decide))
  | begArray => exact begArray_sim h (hc (by rw [htoken]; decide))
  | endArray => exact endArray_sim h (hc (by rw [htoken]; decide))
  | colon => exact colon_sim h (hc (by rw [htoken]; decide))
  | comma => exact comma_sim h (hc (by rw [htoken]; decide))
  | white =>
    refine ⟨{ st with i := st.i + 1, nulled := 0, lineEc := line, lastLineEc := last }, ?_, ?_, rfl,
      Further.next rfl rfl⟩
    · intro value
      rfl
    · exact h.next (hc (by rw [htoken]; decide)) rfl rfl rfl rfl rfl rfl rfl h.listC h.levels
  | quote =>
    obtain rfl := jsonToken_eq_quote htoken
    dsimp only
    exact quote_sim h hquiet
  | number =>
    dsimp only
    exact number_sim h htoken hquiet
  | true =>
    dsimp only
    obtain ⟨hone, hzero, hscalar⟩ := literal_scalar (.inl rfl)
    exact literal_sim h (by rw [htoken]; rfl) hone hzero hscalar hquiet
  | false =>
    dsimp only
    obtain ⟨hone, hzero, hscalar⟩ := literal_scalar (.inr (.inl rfl))
    exact literal_sim h (by rw [htoken]; rfl) hone hzero hscalar hquiet
  | null =>
    dsimp only
    obtain ⟨hone, hzero, hscalar⟩ := literal_scalar (.inr (.inr rfl))
    exact literal_sim h (by rw [htoken]; rfl) hone hzero hscalar hquiet
  | unknown =>
    apply StepSim.error
    intro value
    exact ⟨.RIM_ERR_JSON_UNRECOGNIZED, rfl⟩

end Tokens

/-! ## A call -/

section Calls

variable {dec noenum : Bool} {e e' : Expected} {len fuel : Nat}

/-- After a value a comma or an end is expected. -/
theorem readStep_call {v v₁ : Bytes} {r r₁ : Reader} (h : readStep dec noenum e r v = some (.call r₁ v₁ e')) :
    e'.commaOrEndArray = true ∨ e'.commaOrEndObject = true := by
  unfold readStep at h
  cases htoken : jsonToken (v.headD 0) <;> rw [htoken] at h <;> dsimp only at h
  case begArray =>
    split_ifs at h
    obtain ⟨r₂, -, h⟩ := Option.bind_eq_some_iff.mp h
    injection h with h
    injection h with _ _ he
    exact Or.inl (by rw [← he])
  case colon =>
    split_ifs at h
    injection h with h
    injection h with _ _ he
    exact Or.inr (by rw [← he])
  case comma =>
    split_ifs at h
    · cases h
    · obtain ⟨r₂, -, h⟩ := Option.bind_eq_some_iff.mp h
      injection h with h
      injection h with _ _ he
      exact Or.inl (by rw [← he])
  case quote =>
    split_ifs at h
    · obtain ⟨s, -, h⟩ := Option.bind_eq_some_iff.mp h
      obtain ⟨l, -, h⟩ := Option.bind_eq_some_iff.mp h
      cases h
    · obtain ⟨s, -, h⟩ := Option.bind_eq_some_iff.mp h
      obtain ⟨r₂, -, h⟩ := Option.bind_eq_some_iff.mp h
      cases h
  case endArray =>
    split_ifs at h
    obtain ⟨l, -, h⟩ := Option.bind_eq_some_iff.mp h
    cases h
  case begObject | endObject =>
    split_ifs at h
    cases h
  case white | unknown => cases h
  case number | true | false | null =>
    split_ifs at h
    obtain ⟨⟨type, n⟩, -, h⟩ := Option.bind_eq_some_iff.mp h
    obtain ⟨r₂, -, h⟩ := Option.bind_eq_some_iff.mp h
    cases h

/-- A string in error is an error where no string is expected. -/
theorem stuck_loop (hlen : len + 1 = st.val.length) (hstuck : Stuck st)
    (hend : e.commaOrEndArray = true ∨ e.commaOrEndObject = true)
    (hloop : rimJsonLoop dec noenum len fuel e st = .ok st') : st'.ec ≠ -1 := by
  obtain ⟨-, hn, hquote, hin⟩ := hstuck
  cases fuel with
  | zero => cases hloop
  | succ fuel =>
    rw [rimJsonLoop, if_pos (by omega)] at hloop
    obtain ⟨⟨o, st₁⟩, hstep, hloop⟩ := bind_eq_ok.mp hloop
    unfold rimJsonStep at hstep
    obtain ⟨⟨c, st₂⟩, hchar, hstep⟩ := bind_eq_ok.mp hstep
    obtain ⟨hc, line, last, rfl⟩ := jsonChar_eq_ok hchar
    obtain rfl : c = 34 := by
      rcases hc with ⟨-, hne⟩ | ⟨-, hc⟩
      · exact absurd hn hne
      · exact Option.some.inj (hc.symm.trans hquote)
    have hflags : ¬ (e.colon = false ∧ e.commaOrEndArray = false ∧ e.commaOrEndObject = false) := by
      rintro ⟨-, hca, hco⟩
      rw [hca, hco] at hend
      simp at hend
    obtain ⟨err, herr⟩ := jsonQuote_flagged dec noenum { st with nulled := 0, lineEc := line, lastLineEc := last } hflags
    have htoken : jsonToken 34 = .quote := by decide
    dsimp only at hstep
    rw [htoken] at hstep
    dsimp only at hstep
    rw [herr] at hstep
    obtain ⟨rfl, rfl⟩ := Prod.mk.inj (Except.ok.inj hstep)
    obtain rfl := Except.ok.inj hloop
    show (st.i : Int) ≠ -1
    omega

/-- What a call leaves, where it is not in error. -/
structure Left (st st' : JsonState) (d : Nat) (r' : Reader) (v' : Bytes) (b : Bool) : Prop where
  sim : Sim st' d r' v'
  length : st'.val.length = st.val.length
  on : st.i ≤ st'.i
  plain : b = false → st'.nulled = 0
  scalar : b = true → st'.val[st'.i]? = some 0

theorem Left.called {st₀ st₁ : JsonState} {b : Bool} (h : Left st₁.endj st' d r' v' b)
    (hlength : st₁.val.length = st₀.val.length) (hon : st₀.i ≤ st₁.i) : Left st₀ st' d r' v' b :=
  ⟨h.sim, h.length.trans hlength, Nat.le_trans hon h.on, h.plain, h.scalar⟩

theorem Left.after {b : Bool} (h : Left st₁ st' d r' v' b) (hfurther : Further st st₁) : Left st st' d r' v' b :=
  ⟨h.sim, h.length.trans hfurther.2, Nat.le_trans (Nat.le_of_lt hfurther.1) h.on, h.plain, h.scalar⟩

theorem Sim.endj (h : Sim st (d + 1) r v) : Sim st.endj d r v := by
  refine ⟨h.rest, h.size, h.last, h.short, h.fine, h.listC, ?_, h.levels, h.leaves⟩
  show st.depth - 1 = d
  rw [h.depth]
  rfl

theorem Sim.eof (h : Sim st d r [0]) :
    Left st { st with listC := st.listC - 1 } d { r with listC := r.listC - 1 } [0] false := by
  refine ⟨⟨h.rest, h.size, h.last, h.short, h.fine, ?_, h.depth, h.levels, h.leaves⟩, rfl, Nat.le_refl _, ?_, nofun⟩
  · show st.listC - 1 = r.listC - 1
    rw [h.listC]
  · intro _
    have hrest := h.rest
    unfold JsonState.rest at hrest
    by_contra hne
    rw [if_pos hne] at hrest
    exact hne (List.cons.inj hrest).1

theorem Sim.enter (h : Sim st d r v) :
    Sim { st with depth := st.depth + 1, listC := st.listC + 1 } (d + 1) { r with listC := r.listC + 1 } v := by
  refine ⟨h.rest, h.size, h.last, h.short, h.fine, ?_, ?_, h.levels, h.leaves⟩
  · show st.listC + 1 = r.listC + 1
    rw [h.listC]
  · show st.depth + 1 = d + 1
    rw [h.depth]

/-- Nothing is done at the end of the text. -/
theorem ne_end {v : Bytes} {r : Reader} {act : ReadAct} (h : readStep dec noenum e r v = some act) : v ≠ [0] := by
  rintro rfl
  cases h

theorem Sim.length_lt {d' : Nat} (h : Sim st d r v) (h' : Sim st' d' r' v') (hfurther : Further st st') :
    v'.length < v.length := by
  have hsize := h.size
  have hsize' := h'.size
  obtain ⟨hi, hlength⟩ := hfurther
  omega

/-- A call of the parser that returns is in error, or at once before a string in error, or
read what the reader reads. -/
theorem rimJsonLoop_sound (h : Sim st d r v) (hlen : len + 1 = st.val.length)
    (hquiet : st.nulled ≠ 0 → e.commaOrEndArray = true ∨ e.commaOrEndObject = true)
    (hloop : rimJsonLoop dec noenum len fuel e st = .ok st') :
    st'.ec ≠ -1 ∨ (Stuck st' ∧ st'.val.length = st.val.length) ∨
      ∃ r' v' b, Left st st' d r' v' b ∧ Reads dec noenum d e r v r' v' b := by
  induction fuel generalizing e st st' d r v with
  | zero => cases hloop
  | succ fuel ih =>
    by_cases hv : v = [0]
    · -- the end of the text
      have hi : ¬ st.i < len := fun hi => (h.lt_iff hlen).mp hi hv
      rw [rimJsonLoop, if_neg hi] at hloop
      obtain rfl := Except.ok.inj hloop
      subst hv
      exact Or.inr (Or.inr ⟨_, [0], false, h.eof, .eof⟩)
    · rw [rimJsonLoop, if_pos ((h.lt_iff hlen).mpr hv)] at hloop
      obtain ⟨⟨o, st₁⟩, hstep, hloop⟩ := bind_eq_ok.mp hloop
      obtain ⟨c, t, rfl⟩ := List.exists_cons_of_ne_nil h.ne_nil
      have hsim := rimJsonStep_sim dec noenum h hquiet
      cases hact : readStep dec noenum e r (c :: t) with
      | none =>
        rw [hact] at hsim
        obtain ⟨rfl, hcase⟩ := hsim _ _ _ hstep
        obtain rfl := Except.ok.inj hloop
        rcases hcase with hec | hstuck
        · exact Or.inl hec
        · exact Or.inr (Or.inl hstuck)
      | some act =>
        rw [hact] at hsim
        cases act with
        | move e₁ r₁ v₁ =>
          obtain ⟨st₂, hrun, h₂, hn₂, hfurther⟩ := hsim
          obtain ⟨rfl, rfl⟩ := Prod.mk.inj (Except.ok.inj ((hrun _).symm.trans hstep))
          rcases ih h₂ (hlen.trans hfurther.2.symm) (fun hne => absurd hn₂ hne) hloop with
            hec | ⟨hstuck, hl⟩ | ⟨r', v', b, hleft, hreads⟩
          · exact Or.inl hec
          · exact Or.inr (Or.inl ⟨hstuck, hl.trans hfurther.2⟩)
          · exact Or.inr (Or.inr ⟨r', v', b, hleft.after hfurther, .move hact hreads⟩)
        | stop r₁ v₁ b =>
          obtain ⟨st₂, hrun, h₂, hfurther, hplain, hscalar⟩ := hsim
          obtain ⟨rfl, rfl⟩ := Prod.mk.inj (Except.ok.inj ((hrun _).symm.trans hstep))
          obtain rfl := Except.ok.inj hloop
          exact Or.inr (Or.inr ⟨r₁, v₁, b, ⟨h₂, hfurther.2, Nat.le_of_lt hfurther.1, hplain, hscalar⟩, .stop hact⟩)
        | call r₁ v₁ e₁ =>
          obtain ⟨st₂, h₂, hn₂, hfurther, hrun⟩ := hsim
          obtain ⟨st₃, hvalue, hstep⟩ := bind_eq_ok.mp ((hrun _).symm.trans hstep)
          obtain ⟨rfl, rfl⟩ := Prod.mk.inj (Except.ok.inj hstep)
          have hend := readStep_call hact
          have hlen₂ := hlen.trans hfurther.2.symm
          unfold rimJsonValue at hvalue
          dsimp only at hvalue
          by_cases hec : st₃.ec = -1
          swap
          · rw [if_pos hec] at hloop
            obtain rfl := Except.ok.inj hloop
            exact Or.inl hec
          rw [if_neg (not_not_intro hec)] at hloop
          have hnofail : ∀ {x : JsonState}, (Except.ok (x.fail .RIM_ERR_JSON_DEPTH).endj :
              Except JsonFault JsonState) ≠ .ok st₃ := by
            intro x hx
            obtain rfl := Except.ok.inj hx
            have hx : (x.i : Int) = -1 := hec
            omega
          split_ifs at hvalue with hdepth hlevel
          · exact absurd hvalue hnofail
          · exact absurd hvalue hnofail
          obtain ⟨st₄, hinner, hvalue⟩ := bind_eq_ok.mp hvalue
          obtain rfl := Except.ok.inj hvalue
          have henter := h₂.enter
          rcases ih henter hlen₂ (fun hne => absurd hn₂ hne) hinner with
            hec₄ | ⟨hstuck, hl⟩ | ⟨r₂, v₂, b₂, hleft, hreads⟩
          · exact absurd hec hec₄
          · refine Or.inl (stuck_loop ?_ ?_ hend hloop)
            · exact hlen₂.trans hl.symm
            · exact hstuck
          · have hlen₄ : len + 1 = st₄.endj.val.length := hlen₂.trans hleft.length.symm
            rcases ih hleft.sim.endj hlen₄ (fun _ => hend) hloop with
              hec₅ | ⟨hstuck, hl⟩ | ⟨r', v', b, hleft', hreads'⟩
            · exact Or.inl hec₅
            · exact Or.inr (Or.inl ⟨hstuck, hl.trans (hleft.length.trans hfurther.2)⟩)
            · refine Or.inr (Or.inr ⟨r', v', b, ?_, ?_⟩)
              · exact (hleft'.called hleft.length hleft.on).after hfurther
              · refine .call hact ?_ ?_ hreads hreads'
                · rw [← h₂.depth]
                  exact Nat.lt_of_not_le hdepth
                · rw [← h₂.listC]
                  exact Int.lt_of_not_ge hlevel

/-- What the reader reads, the parser reads, with a round for every byte. -/
theorem rimJsonLoop_complete {b : Bool} {r' : Reader} {v' : Bytes} (hreads : Reads dec noenum d e r v r' v' b)
    (h : Sim st d r v) (hlen : len + 1 = st.val.length)
    (hquiet : st.nulled ≠ 0 → e.commaOrEndArray = true ∨ e.commaOrEndObject = true) (hfuel : v.length ≤ fuel) :
    ∃ st', rimJsonLoop dec noenum len fuel e st = .ok st' ∧ Left st st' d r' v' b := by
  induction hreads generalizing st fuel with
  | @eof d e r =>
    obtain ⟨fuel, rfl⟩ := Nat.exists_eq_succ_of_ne_zero (Nat.ne_of_gt hfuel)
    have hi : ¬ st.i < len := fun hi => (h.lt_iff hlen).mp hi rfl
    exact ⟨_, by rw [rimJsonLoop, if_neg hi], h.eof⟩
  | @move d e e₁ r r₁ r' v v₁ v' b hact _ ih =>
    obtain ⟨c, t, rfl⟩ := List.exists_cons_of_ne_nil h.ne_nil
    obtain ⟨fuel, rfl⟩ := Nat.exists_eq_succ_of_ne_zero (Nat.ne_of_gt (Nat.lt_of_lt_of_le (Nat.succ_pos _) hfuel))
    have hsim := rimJsonStep_sim dec noenum h hquiet
    rw [hact] at hsim
    obtain ⟨st₂, hrun, h₂, hn₂, hfurther⟩ := hsim
    have hi := (h.lt_iff hlen).mpr (ne_end hact)
    obtain ⟨st', hloop, hleft⟩ := ih h₂ (hlen.trans hfurther.2.symm) (fun hne => absurd hn₂ hne)
      (Nat.le_of_lt_succ (Nat.lt_of_lt_of_le (h.length_lt h₂ hfurther) hfuel))
    refine ⟨st', ?_, hleft.after hfurther⟩
    rw [rimJsonLoop, if_pos hi]
    exact bind_eq_ok.mpr ⟨_, hrun _, hloop⟩
  | @stop d e r r' v v' b hact =>
    obtain ⟨c, t, rfl⟩ := List.exists_cons_of_ne_nil h.ne_nil
    obtain ⟨fuel, rfl⟩ := Nat.exists_eq_succ_of_ne_zero (Nat.ne_of_gt (Nat.lt_of_lt_of_le (Nat.succ_pos _) hfuel))
    have hsim := rimJsonStep_sim dec noenum h hquiet
    rw [hact] at hsim
    obtain ⟨st₂, hrun, h₂, hfurther, hplain, hscalar⟩ := hsim
    have hi := (h.lt_iff hlen).mpr (ne_end hact)
    refine ⟨st₂, ?_, h₂, hfurther.2, Nat.le_of_lt hfurther.1, hplain, hscalar⟩
    rw [rimJsonLoop, if_pos hi]
    exact bind_eq_ok.mpr ⟨_, hrun _, rfl⟩
  | @call d e e₁ r r₁ r₂ r' v v₁ v₂ v' b b₂ hact hdepth hlevel _ _ ihvalue ihrest =>
    obtain ⟨c, t, rfl⟩ := List.exists_cons_of_ne_nil h.ne_nil
    obtain ⟨fuel, rfl⟩ := Nat.exists_eq_succ_of_ne_zero (Nat.ne_of_gt (Nat.lt_of_lt_of_le (Nat.succ_pos _) hfuel))
    have hsim := rimJsonStep_sim dec noenum h hquiet
    rw [hact] at hsim
    obtain ⟨st₂, h₂, hn₂, hfurther, hrun⟩ := hsim
    have hi := (h.lt_iff hlen).mpr (ne_end hact)
    have hlen₂ := hlen.trans hfurther.2.symm
    have hless := h.length_lt h₂ hfurther
    obtain ⟨st₃, hinner, hleft⟩ := ihvalue h₂.enter hlen₂ (fun hne => absurd hn₂ hne)
      (Nat.le_of_lt_succ (Nat.lt_of_lt_of_le hless hfuel))
    have hlen₃ : len + 1 = st₃.endj.val.length := hlen₂.trans hleft.length.symm
    have hless₃ : v₂.length ≤ v₁.length := by
      have hsize₂ := h₂.size
      have hsize₃ := hleft.sim.size
      have hlength := hleft.length
      have hon := hleft.on
      dsimp only at hlength hon
      omega
    have hfuel₂ : v₂.length ≤ fuel := Nat.le_trans hless₃ (Nat.le_of_lt_succ (Nat.lt_of_lt_of_le hless hfuel))
    obtain ⟨st', hloop, hleft'⟩ := ihrest hleft.sim.endj hlen₃ (fun _ => readStep_call hact) hfuel₂
    refine ⟨st', ?_, (hleft'.called hleft.length hleft.on).after hfurther⟩
    rw [rimJsonLoop, if_pos hi]
    have hvalue : rimJsonValue (rimJsonLoop dec noenum len fuel) st₂ = .ok st₃.endj := by
      unfold rimJsonValue
      dsimp only
      rw [if_neg (by rw [h₂.depth]; omega), if_neg (by rw [h₂.listC]; omega)]
      exact bind_eq_ok.mpr ⟨_, hinner, rfl⟩
    refine bind_eq_ok.mpr ⟨(some e₁, st₃.endj), ?_, hloop⟩
    refine (hrun _).trans (bind_eq_ok.mpr ⟨_, hvalue, ?_⟩)
    rw [if_neg (not_not_intro hleft.sim.endj.fine)]

end Calls

end RimStone
