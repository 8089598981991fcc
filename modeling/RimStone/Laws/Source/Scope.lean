import RimStone.Lib.Blocks
import RimStone.Lib.Run
import RimStone.Laws.Source.Braces
import RimStone.Laws.Source.Output

/-!
# Variables are visible in their blocks

What the hash of variables holds is read as a store of nested blocks (`ScopeState.store`): the level and the number of
closed blocks stand in a decorated name, from which they can be told as long as nothing of it is cut off. `find_var` and
`add_var` use buffers of different size, so that a name whose decorated form has 200 characters or more is never found
again. Where every new variable has a shorter one, and every line is read as C reads it, the store represents the blocks
that the code opens, closes and declares variables in, and `find_var` finds what is visible.
-/

namespace RimStone

open RimStone.Lib RimStone.Lib.CLine

/-! ## Decorated names -/

namespace ScopeState

/-- Where a byte is first, a text is cut in one way. -/
theorem cut_unique {c : UInt8} {x y s t : Bytes} (hx : c ∉ x) (hy : c ∉ y) (h : x ++ c :: s = y ++ c :: t) :
    x = y ∧ s = t := by
  induction x generalizing y with
  | nil =>
    cases y with
    | nil => exact ⟨rfl, (List.cons.inj h).2⟩
    | cons d y => exact absurd (List.mem_cons.mpr (.inl (List.cons.inj h).1)) hy
  | cons a x ih =>
    cases y with
    | nil => exact absurd (List.mem_cons.mpr (.inl (List.cons.inj h).1.symm)) hx
    | cons d y =>
      obtain ⟨rfl, hrest⟩ := List.cons.inj h
      obtain ⟨rfl, rfl⟩ := ih (fun hmem => hx (List.mem_cons_of_mem _ hmem))
        (fun hmem => hy (List.mem_cons_of_mem _ hmem)) hrest
      exact ⟨rfl, rfl⟩

/-- A number is read back from its digits. -/
theorem repr_inj {m n : Nat} (h : ascii (Nat.repr m) = ascii (Nat.repr n)) : m = n := by
  have hback : ∀ k : Nat, (ascii (Nat.repr k)).map (fun c => Char.ofNat c.toNat) = Nat.toDigits 10 k := by
    intro k
    unfold ascii
    rw [List.map_map, Nat.toList_repr]
    refine (List.map_congr_left fun d hd => ?_).trans (List.map_id _)
    have hdigit : d.isDigit = true := Nat.isDigit_of_mem_toDigits (by decide) (by decide) hd
    have hle : d.toNat ≤ 57 := by
      simp only [Char.isDigit, Bool.and_eq_true, decide_eq_true_eq, UInt32.le_iff_toNat_le] at hdigit
      exact hdigit.2
    have hval : (UInt8.ofNat d.toNat).toNat = d.toNat := by
      rw [UInt8.toNat_ofNat']
      omega
    show Char.ofNat (UInt8.ofNat d.toNat).toNat = d
    rw [hval, Char.ofNat_toNat]
  have hdigits : Nat.toDigits 10 m = Nat.toDigits 10 n := by rw [← hback, ← hback, h]
  rw [← @Nat.ofDigitChars_ten_toDigits m, ← @Nat.ofDigitChars_ten_toDigits n, hdigits]

/-- A decorated name has one level, one resurrection and one name. -/
theorem decorated_inj {lev lev' r r' : Nat} {name name' : Bytes} (h : decorated lev r name = decorated lev' r' name') :
    lev = lev' ∧ r = r' ∧ name = name' := by
  obtain ⟨hlev, hrest⟩ := cut_unique (not_mem_repr (by decide) lev) (not_mem_repr (by decide) lev') h
  obtain ⟨hr, hname⟩ := cut_unique (not_mem_repr (by decide) r) (not_mem_repr (by decide) r') hrest
  exact ⟨repr_inj hlev, repr_inj hr, hname⟩

/-- What `find_var` looks for tells the decorated name, if that is short. -/
theorem decname_inj {lev lev' r r' : Nat} {name name' : Bytes} (hfits : (decorated lev r name).length < RIM_MAX_DECNAME)
    (h : decname (RIM_MAX_DECNAME + 1) lev' r' name' = decorated lev r name) : lev' = lev ∧ r' = r ∧ name' = name := by
  have hlen := congrArg List.length h
  rw [decname, List.length_take, Nat.add_sub_cancel] at hlen
  have hwhole : decname (RIM_MAX_DECNAME + 1) lev' r' name' = decorated lev' r' name' :=
    List.take_of_length_le (by rw [Nat.add_sub_cancel]; omega)
  rw [hwhole] at h
  exact decorated_inj h

/-- A short decorated name is not cut off. -/
theorem decname_eq {size lev r : Nat} {name : Bytes} (h : (decorated lev r name).length < size) :
    decname size lev r name = decorated lev r name :=
  List.take_of_length_le (by omega)

theorem decorated_append (lev r : Nat) (name rest : Bytes) :
    decorated lev r (name ++ rest) = decorated lev r name ++ rest := by
  simp [decorated]

/-- What `add_var` cuts off a name of its own is not what `find_var` looks for with this name. -/
theorem decname_ne {lev lev' r r' : Nat} {name : Bytes} (hlong : RIM_MAX_DECNAME ≤ (decorated lev r name).length) :
    decname (RIM_MAX_DECNAME + 1) lev' r' name ≠ decname RIM_MAX_DECNAME lev r name := by
  intro heq
  have hmax : 0 < RIM_MAX_DECNAME := by decide
  have hlen := congrArg List.length heq
  rw [decname, decname, List.length_take, List.length_take, Nat.add_sub_cancel] at hlen
  have hwhole : decname (RIM_MAX_DECNAME + 1) lev' r' name = decorated lev' r' name := decname_eq (by omega)
  rw [hwhole, decname] at heq
  have hjoin : decorated lev' r' (name ++ (decorated lev r name).drop (RIM_MAX_DECNAME - 1)) = decorated lev r name := by
    rw [decorated_append, heq, List.take_append_drop]
  obtain ⟨-, -, hname⟩ := decorated_inj hjoin
  have hrest := congrArg List.length hname
  rw [List.length_append, List.length_drop] at hrest
  omega

/-! ## The store -/

def store (s : ScopeState) : Blocks.Store Bytes DefType :=
  fun lev r name => (s.varh.lookup (decname (RIM_MAX_DECNAME + 1) lev r name)).map RimVar.type

/-- The hash represents what is declared in the open blocks, with names that are not cut off. -/
structure Tracks (s : ScopeState) (σ : Blocks.Scopes Bytes DefType) : Prop where
  level : σ.length = s.level + 1
  bound : s.level < RIM_MAX_CODE_LEVEL
  short : ∀ key v, s.varh.lookup key = some v → key.length < RIM_MAX_DECNAME
  represents : Blocks.Represents s.store s.resurr σ

/-- Of the state, only what variables are used is different. -/
structure Marked (s s' : ScopeState) : Prop where
  same : s' = { s with varh := s'.varh }
  varh : ∀ key, (s'.varh.lookup key).map (fun v => { v with used := true }) =
    (s.varh.lookup key).map fun v => { v with used := true }

variable {s s' : ScopeState} {σ σ' : Blocks.Scopes Bytes DefType} {name : Bytes}

theorem Marked.refl (s : ScopeState) : Marked s s := ⟨rfl, fun _ => rfl⟩

theorem Marked.type (h : Marked s s') (key : Bytes) :
    (s'.varh.lookup key).map RimVar.type = (s.varh.lookup key).map RimVar.type := by
  have hsame := congrArg (Option.map RimVar.type) (h.varh key)
  rw [Option.map_map, Option.map_map] at hsame
  exact hsame

theorem Marked.store (h : Marked s s') : s'.store = s.store := by
  funext lev r name
  exact h.type _

theorem Marked.tracks (h : Marked s s') (ht : Tracks s σ) : Tracks s' σ where
  level := by
    rw [h.same]
    exact ht.level
  bound := by
    rw [h.same]
    exact ht.bound
  short := by
    intro key v hkey
    have hsome : (s.varh.lookup key).map RimVar.type = some v.type := by rw [← h.type, hkey, Option.map_some]
    obtain ⟨w, hw, -⟩ := Option.map_eq_some_iff.mp hsome
    exact ht.short key w hw
  represents := by
    rw [h.store, h.same]
    exact ht.represents

theorem resurrAt_eq {lev : Nat} (h : lev ≤ RIM_MAX_CODE_LEVEL) : s.resurrAt lev = .ok (s.resurr lev) := if_pos h

/-- The loop searches the hash from a level out, and marks what it finds. -/
theorem findVarLoop_eq (name : Bytes) {lev : Nat} (h : lev ≤ RIM_MAX_CODE_LEVEL + 1) :
    ∃ s' found, s.findVarLoop name lev = .ok (s', found) ∧
      found.map VarFound.type = Blocks.search s.store s.resurr name lev ∧ Marked s s' := by
  induction lev with
  | zero => exact ⟨s, none, rfl, rfl, .refl s⟩
  | succ lev ih =>
    obtain ⟨key, hkey⟩ : ∃ key, key = decname (RIM_MAX_DECNAME + 1) lev (s.resurr lev) name := ⟨_, rfl⟩
    have hstore : s.store lev (s.resurr lev) name = (s.varh.lookup key).map RimVar.type := by rw [hkey, store]
    rw [findVarLoop, resurrAt_eq (Nat.le_of_succ_le_succ h), Blocks.search, hstore]
    dsimp only [bind, Except.bind]
    rw [← hkey]
    cases hv : s.varh.lookup key with
    | none =>
      obtain ⟨s', found, hok, htype, hmarked⟩ := ih (Nat.le_of_succ_le h)
      exact ⟨s', found, hok, htype, hmarked⟩
    | some v =>
      refine ⟨_, _, rfl, rfl, rfl, fun key' => ?_⟩
      dsimp only
      by_cases heq : key' = key
      · subst heq
        rw [AList.lookup_insert, hv]
        rfl
      · rw [AList.lookup_insert_ne heq]

/-- A name without white space, as that of every variable is. -/
def PlainName (name : Bytes) : Prop := ∀ c ∈ name, c ≠ 0 ∧ isspace c = false

theorem PlainName.trimmed (h : PlainName name) : (name.dropWhile isspace).rdropWhile isspace = name := by
  have hfront : name.dropWhile isspace = name := by
    refine List.dropWhile_eq_self_iff.mpr fun hl => ?_
    rw [(h _ (List.getElem_mem hl)).2]
    exact Bool.false_ne_true
  rw [hfront]
  refine List.rdropWhile_eq_self_iff.mpr fun hl => ?_
  rw [(h _ (List.getLast_mem hl)).2]
  exact Bool.false_ne_true

/-- `find_var` finds what is visible. -/
theorem Tracks.findVar (h : Tracks s σ) (hname : PlainName name) :
    ∃ s' found, s.findVar name = .ok (s', found) ∧ found.map VarFound.type = Blocks.visible σ name ∧ Marked s s' := by
  have hbound : s.level + 1 ≤ RIM_MAX_CODE_LEVEL + 1 := Nat.succ_le_succ (Nat.le_of_lt h.bound)
  obtain ⟨s', found, hok, htype, hmarked⟩ := findVarLoop_eq (s := s) name hbound
  refine ⟨s', found, ?_, ?_, hmarked⟩
  · unfold ScopeState.findVar
    rw [hname.trimmed]
    exact hok
  · rw [htype, ← h.level]
    exact Blocks.search_eq h.represents.held name

/-- The types of which the one is accepted where the other is declared. -/
def Compatible (type type' : DefType) : Prop :=
  cmpType type type' = true ∧ ¬ (type = .string ∧ type' = .stringstatic) ∧ ¬ (type = .stringstatic ∧ type' = .string)

section AddVar

variable {lnum : Nat} {var realname : Bytes} {type t : DefType} {watched existed : Bool}

/-- A name that is visible is not declared again, and its type is checked. -/
theorem Tracks.addVar_visible (h : Tracks s σ) (hname : PlainName var) (hvisible : Blocks.visible σ var = some t) :
    (Compatible type t → ∃ s', s.addVar lnum var type realname watched = .ok (s', true) ∧ Marked s s') ∧
      (¬ Compatible type t → ∃ e, s.addVar lnum var type realname watched = .error e) := by
  obtain ⟨s', found, hok, htype, hmarked⟩ := h.findVar hname
  rw [hvisible] at htype
  obtain ⟨v, rfl, hv⟩ := Option.map_eq_some_iff.mp htype
  have hadd : s.addVar lnum var type realname watched =
      if !cmpType type t then .error (.defined v.rname t v.line type)
      else if (type == .string && t == .stringstatic) || (type == .stringstatic && t == .string) then
        .error (.processScope v.rname)
      else .ok (s', true) := by
    unfold ScopeState.addVar
    rw [hok, ← hv]
    rfl
  rw [hadd]
  constructor
  · rintro ⟨hcmp, hstring, hstatic⟩
    refine ⟨s', ?_, hmarked⟩
    rw [hcmp, Bool.not_true, if_neg Bool.false_ne_true, if_neg]
    simp only [Bool.or_eq_true, Bool.and_eq_true, beq_iff_eq]
    rintro (hboth | hboth)
    · exact hstring hboth
    · exact hstatic hboth
  · intro hnot
    split_ifs with hcmp hstatic
    · exact ⟨_, rfl⟩
    · exact ⟨_, rfl⟩
    · refine absurd ⟨by simpa using hcmp, fun hboth => ?_, fun hboth => ?_⟩ hnot
      · exact hstatic (by simp [hboth.1, hboth.2])
      · exact hstatic (by simp [hboth.1, hboth.2])

/-- A name that is not visible is declared, unless it is reserved. -/
theorem Tracks.addVar_new (h : Tracks s σ) (hname : PlainName var) (hvisible : Blocks.visible σ var = none) (lnum : Nat)
    (type : DefType) (realname : Bytes) (watched : Bool) :
    ∃ s₁ key, Marked s s₁ ∧ key = decname RIM_MAX_DECNAME s.level (s.resurr s.level) var ∧
      s.addVar lnum var type realname watched = if var ∈ reservedNames then .error (.reserved var)
        else .ok ({ s₁ with varh := s₁.varh.insert key ⟨key, realname, type, lnum, !watched⟩ }, false) := by
  obtain ⟨s₁, found, hok, htype, hmarked⟩ := h.findVar hname
  rw [hvisible] at htype
  obtain rfl := Option.map_eq_none_iff.mp htype
  refine ⟨s₁, _, hmarked, rfl, ?_⟩
  have hlevel : s₁.level = s.level := by rw [hmarked.same]
  have hresurr : s₁.resurr = s.resurr := by rw [hmarked.same]
  have hat : s₁.resurrAt s₁.level = .ok (s.resurr s.level) := by
    rw [resurrAt_eq, hresurr, hlevel]
    rw [hlevel]
    exact Nat.le_of_lt h.bound
  unfold ScopeState.addVar
  rw [hok]
  dsimp only [bind, Except.bind]
  rw [hat, hlevel]

def declared (σ : Blocks.Scopes Bytes DefType) (var : Bytes) (type : DefType) : Blocks.Scopes Bytes DefType :=
  if Blocks.visible σ var = none then Blocks.declare var type σ else σ

/-- `add_var` declares what is not visible yet. -/
theorem Tracks.addVar (h : Tracks s σ) (hname : PlainName var)
    (hfits : Blocks.visible σ var = none → (decorated s.level (s.resurr s.level) var).length < RIM_MAX_DECNAME)
    (hok : s.addVar lnum var type realname watched = .ok (s', existed)) :
    Tracks s' (declared σ var type) ∧ s'.out = s.out ∧ s'.lineBeg = s.lineBeg := by
  unfold declared
  cases hvisible : Blocks.visible σ var with
  | some t =>
    rw [if_neg (Option.some_ne_none t)]
    by_cases hc : Compatible type t
    · obtain ⟨s₁, hadd, hmarked⟩ := (h.addVar_visible hname hvisible).1 hc
      cases hadd.symm.trans hok
      refine ⟨hmarked.tracks h, ?_, ?_⟩ <;> rw [hmarked.same]
    · obtain ⟨e, hadd⟩ := (h.addVar_visible hname hvisible).2 hc
      cases hadd.symm.trans hok
  | none =>
    rw [if_pos rfl]
    obtain ⟨s₁, key, hmarked, rfl, hadd⟩ := h.addVar_new hname hvisible lnum type realname watched
    have hshort := hfits hvisible
    rw [hadd] at hok
    split_ifs at hok
    cases hok
    have ht := hmarked.tracks h
    have hlevel : s₁.level = s.level := by rw [hmarked.same]
    have hresurr : s₁.resurr = s.resurr := by rw [hmarked.same]
    obtain ⟨block, rest, rfl⟩ := List.exists_cons_of_length_eq_add_one h.level
    have hrest : rest.length = s.level := Nat.succ.inj h.level
    have hsame : s₁.out = s.out ∧ s₁.lineBeg = s.lineBeg := by
      constructor <;> rw [hmarked.same]
    rw [decname_eq hshort]
    refine ⟨⟨ht.level, ht.bound, fun key v hkey => ?_, ht.represents.declare fun lev r m => ?_⟩, hsame⟩
    · by_cases heq : key = decorated s.level (s.resurr s.level) var
      · rw [heq]
        exact hshort
      · rw [AList.lookup_insert_ne heq] at hkey
        exact ht.short key v hkey
    · rw [hrest, hresurr]
      unfold ScopeState.store
      dsimp only
      split_ifs with hall
      · obtain ⟨rfl, rfl, rfl⟩ := hall
        rw [decname_eq (Nat.lt_succ_of_lt hshort), AList.lookup_insert]
        rfl
      · have hne : decname (RIM_MAX_DECNAME + 1) lev r m ≠ decorated s.level (s.resurr s.level) var :=
          fun heq => hall (decname_inj hshort heq)
        rw [AList.lookup_insert_ne hne]

/-- A new variable with a longer name is not found. -/
theorem Tracks.addVar_long (h : Tracks s σ) (hname : PlainName var) (hvisible : Blocks.visible σ var = none)
    (hreserved : var ∉ reservedNames) (hlong : RIM_MAX_DECNAME ≤ (decorated s.level (s.resurr s.level) var).length)
    (lnum : Nat) (type : DefType) (realname : Bytes) (watched : Bool) :
    ∃ s', s.addVar lnum var type realname watched = .ok (s', false) ∧
      ∀ s'' found, s'.findVar var = .ok (s'', found) → found = none := by
  obtain ⟨s₁, key, hmarked, hkey, hadd⟩ := h.addVar_new hname hvisible lnum type realname watched
  rw [if_neg hreserved] at hadd
  obtain ⟨v, hv⟩ : ∃ v, v = RimVar.mk key realname type lnum (!watched) := ⟨_, rfl⟩
  obtain ⟨t, ht⟩ : ∃ t, t = { s₁ with varh := s₁.varh.insert key v } := ⟨_, rfl⟩
  rw [← hv, ← ht] at hadd
  refine ⟨t, hadd, fun s'' found hfind => ?_⟩
  have hlevel : t.level = s.level := by rw [ht, hmarked.same]
  have hresurr : t.resurr = s.resurr := by rw [ht, hmarked.same]
  have hstore : ∀ lev r, t.store lev r var = s.store lev r var := by
    intro lev r
    have hne : decname (RIM_MAX_DECNAME + 1) lev r var ≠ key := by
      rw [hkey]
      exact decname_ne hlong
    rw [← hmarked.store, ht]
    unfold ScopeState.store
    dsimp only
    rw [AList.lookup_insert_ne hne]
  have hbound : s.level + 1 ≤ RIM_MAX_CODE_LEVEL + 1 := Nat.succ_le_succ (Nat.le_of_lt h.bound)
  obtain ⟨s₂, found₂, hok, htype, -⟩ := findVarLoop_eq (s := t) var hbound
  unfold ScopeState.findVar at hfind
  rw [hname.trimmed, hlevel, hok] at hfind
  cases hfind
  rw [hresurr, Blocks.search_congr hstore, ← h.level, Blocks.search_eq h.represents.held, hvisible] at htype
  exact Option.map_eq_none_iff.mp htype

end AddVar

/-! ## Blocks -/

/-- What a brace does to the blocks, where they are not nested too deep and no more are closed than opened. -/
def blockBrace (σ : Blocks.Scopes Bytes DefType) : Brace → Option (Blocks.Scopes Bytes DefType)
  | .left => if σ.length < RIM_MAX_CODE_LEVEL then some (Blocks.enter σ) else none
  | .right => Blocks.leave σ

/-- A brace opens or closes a block. -/
theorem Tracks.brace (h : Tracks s σ) {b : Brace} (hσ : blockBrace σ b = some σ') :
    ∃ s', s.brace b = .ok s' ∧ Tracks s' σ' ∧ s'.out = s.out ∧ s'.lineBeg = s.lineBeg := by
  have hlevel := h.level
  cases b with
  | left =>
    unfold blockBrace at hσ
    split_ifs at hσ with hdeep
    obtain rfl := Option.some.inj hσ
    refine ⟨s.up, rfl, ⟨?_, ?_, h.short, h.represents.enter⟩, rfl, rfl⟩
    · show σ.length + 1 = s.level + 1 + 1
      rw [hlevel]
    · show s.level + 1 < RIM_MAX_CODE_LEVEL
      omega
  | right =>
    obtain ⟨block, rest, rfl⟩ := List.exists_cons_of_length_eq_add_one hlevel
    have hrest : rest.length = s.level := Nat.succ.inj hlevel
    cases rest with
    | nil => cases hσ
    | cons outer rest =>
      obtain rfl := Option.some.inj hσ
      have hdown : s.down =
          .ok { s with resurr := Function.update s.resurr s.level (s.resurr s.level + 1), level := s.level - 1 } := by
        unfold ScopeState.down
        rw [resurrAt_eq (Nat.le_of_lt h.bound)]
        rfl
      refine ⟨_, hdown, ⟨?_, ?_, h.short, ?_⟩, rfl, rfl⟩
      · rw [hrest]
        rw [List.length_cons] at hrest
        show s.level = s.level - 1 + 1
        omega
      · exact Nat.lt_of_le_of_lt (Nat.sub_le _ _) h.bound
      · have hleave := h.represents.leave
        rw [hrest] at hleave
        exact hleave

theorem Tracks.braces {bs : List Brace} (h : Tracks s σ) (hσ : bs.foldlM blockBrace σ = some σ') :
    ∃ s', bs.foldlM ScopeState.brace s = .ok s' ∧ Tracks s' σ' ∧ s'.out = s.out ∧ s'.lineBeg = s.lineBeg := by
  induction bs generalizing s σ with
  | nil =>
    obtain rfl := Option.some.inj hσ
    exact ⟨s, rfl, h, rfl, rfl⟩
  | cons b bs ih =>
    rw [List.foldlM_cons] at hσ
    obtain ⟨σ₁, hb, hrest⟩ := Option.bind_eq_some_iff.mp hσ
    obtain ⟨s₁, hok, ht, hout, hbeg⟩ := h.brace hb
    obtain ⟨s₂, hok₂, ht₂, hout₂, hbeg₂⟩ := ih ht hrest
    refine ⟨s₂, ?_, ht₂, hout₂.trans hout, hbeg₂.trans hbeg⟩
    rw [List.foldlM_cons, hok]
    exact hok₂

/-- What is checked of a text whose braces nest. -/
theorem Tracks.checkLevel {t : Bytes} (h : Tracks s σ) (ht : Readable t)
    (hσ : (lineBraces t).foldlM blockBrace σ = some σ') :
    ∃ s', ScopeState.checkLevel t s = .ok s' ∧ Tracks s' σ' ∧ s'.out = s.out ∧ s'.lineBeg = s.lineBeg := by
  rw [checkLevel_eq ht]
  exact h.braces hσ

theorem Tracks.out {o : Oline} {n : Nat} (h : Tracks s σ) : Tracks { s with out := o, lineBeg := n } σ :=
  ⟨h.level, h.bound, h.short, h.represents⟩

/-! ## Directives -/

/-- A text without braces that is read to the end as code, whatever is behind it. -/
structure Braceless (x : CMode) (prev : Option UInt8) (d : Bytes) : Prop where
  noComment : NoComment x d
  read : readFrom x d = .code
  braces : CLine.braces x d = []
  plain : ∀ t, AsRead .code (some 10) t → AsRead x prev (d ++ t)

variable {x : CMode} {prev : Option UInt8} {c : UInt8} {d e t : Bytes}

theorem Braceless.nil : Braceless .code (some 10) [] := ⟨trivial, rfl, rfl, fun _ h => h⟩

/-- A character that is no brace and begins no comment. -/
theorem Braceless.cons (h : Braceless (x.read c) (some c) d) (hquote : c = 34 → (x.delimits = true ↔ prev ≠ some 92))
    (hbrace : x.inString = true ∨ braceOf c = none ∧ c ≠ 47) : Braceless x prev (c :: d) where
  noComment := by
    refine ⟨?_, h.noComment⟩
    rintro ⟨rfl, hc⟩
    obtain hin | hno := hbrace
    · cases hin
    · exact hno.2 hc
  read := h.read
  braces := by
    rw [CLine.braces, h.braces]
    split_ifs with hcode
    · subst hcode
      obtain hin | hno := hbrace
      · cases hin
      · rw [hno.1]
        rfl
    · rfl
  plain := by
    intro t ht
    refine ⟨hquote, fun hb hin => ?_, fun hc _ hcode => ?_, fun hc _ => ?_, h.plain t ht⟩
    · obtain hyes | hno := hbrace
      · rw [hin] at hyes
        cases hyes
      · exact absurd hno.1 hb
    · subst hcode
      obtain hyes | hno := hbrace
      · cases hyes
      · exact hno.2 hc
    · obtain hyes | hno := hbrace
      · cases x with
        | code => cases hyes
        | string e => rfl
        | constant e => cases hyes
      · exact absurd hc hno.2

/-- Characters of code that are none of the marks. -/
theorem Braceless.code {s : Bytes} (hs : ∀ c ∈ s, c ≠ 34 ∧ c ≠ 39 ∧ c ≠ 47 ∧ braceOf c = none)
    (h : ∀ prev, Braceless .code prev d) : Braceless .code prev (s ++ d) := by
  induction s generalizing prev with
  | nil => exact h prev
  | cons c s ih =>
    obtain ⟨h34, h39, h47, hbrace⟩ := hs c List.mem_cons_self
    have hread : CMode.code.read c = .code := by rw [CMode.read, if_neg h34, if_neg h39]
    refine Braceless.cons ?_ (fun hc => absurd hc h34) (.inr ⟨hbrace, h47⟩)
    rw [hread]
    exact ih fun c hc => hs c (List.mem_cons_of_mem _ hc)

/-- Characters of a string that do not end it. -/
theorem Braceless.string {s : Bytes} (hs : (34 : UInt8) ∉ s) (h : ∀ escaped prev, Braceless (.string escaped) prev d)
    (escaped : Bool) : Braceless (.string escaped) prev (s ++ d) := by
  induction s generalizing prev escaped with
  | nil => exact h escaped prev
  | cons c s ih =>
    obtain ⟨hc, hs⟩ := not_or.mp (fun hmem => hs (List.mem_cons.mpr hmem))
    have hread : ∃ escaped', (CMode.string escaped).read c = .string escaped' := by
      cases escaped with
      | true => exact ⟨false, rfl⟩
      | false =>
        rw [CMode.read, if_neg (Ne.symm hc)]
        split_ifs
        · exact ⟨true, rfl⟩
        · exact ⟨false, rfl⟩
    obtain ⟨escaped', hread⟩ := hread
    refine Braceless.cons ?_ (fun h34 => absurd h34.symm hc) (.inl rfl)
    rw [hread]
    exact ih hs escaped'

theorem Braceless.append (hd : Braceless .code prev d) (he : ∀ prev, Braceless .code prev e) :
    Braceless .code prev (d ++ e) where
  noComment := hd.noComment.append (by
    rw [hd.read]
    exact (he none).noComment)
  read := by rw [readFrom_append, hd.read, (he none).read]
  braces := by rw [braces_append, hd.braces, hd.read, (he none).braces, List.append_nil]
  plain := by
    intro t ht
    rw [List.append_assoc]
    exact hd.plain _ ((he _).plain t ht)

theorem AsRead.start (h : AsRead .code none t) (h39 : prev ≠ some 39) (h92 : prev ≠ some 92) : AsRead .code prev t := by
  cases t with
  | nil => trivial
  | cons c t =>
    obtain ⟨-, hbrace, hrest⟩ := h
    refine ⟨fun _ => ⟨fun _ => h92, fun _ => rfl⟩, fun hb hin => ?_, hrest⟩
    refine ⟨fun hin => ?_, fun hboth => absurd hboth.1 h39⟩
    cases hin

/-- What is behind such a text is read as without it. -/
theorem Braceless.behind (hd : Braceless .code none d) (ht : Readable t) :
    Readable (d ++ t) ∧ lineBraces (d ++ t) = lineBraces t := by
  have hpart : part .code (d ++ t) = d ++ part .code t := by rw [part_append hd.noComment, hd.read]
  constructor
  · unfold Readable
    rw [hpart]
    exact hd.plain _ (AsRead.start ht (by decide) (by decide))
  · unfold lineBraces
    rw [hpart, braces_append, hd.braces, hd.read, List.nil_append]

theorem braceless_break (prev : Option UInt8) : Braceless .code prev [10] :=
  Braceless.cons .nil (fun h => by cases h) (.inr ⟨rfl, by decide⟩)

/-- A directive has no braces. -/
theorem braceless_directive {g : GenFile} (hg : g.Named) (lnum : Nat) (prev : Option UInt8) :
    Braceless .code prev (g.directive lnum ++ [10]) := by
  obtain ⟨p, hp, hquote, -⟩ := hg.path
  have heq : g.directive lnum ++ [10] =
      (ascii "#line " ++ ascii (Nat.repr lnum)) ++ 32 :: 34 :: (47 :: (p ++ [46, 114, 105]) ++ 109 :: 34 :: [10]) := by
    rw [g.directive_eq hp, ascii_rim]
    simp
  have hend : Braceless .code (some 34) [10] := braceless_break _
  rw [heq]
  refine Braceless.code (fun c hc => ?_) fun prev => ?_
  · rcases List.mem_append.mp hc with hc | hc
    · have hline : ∀ c ∈ ([35, 108, 105, 110, 101, 32] : Bytes), c ≠ 34 ∧ c ≠ 39 ∧ c ≠ 47 ∧ braceOf c = none := by
        simp [braceOf]
      rw [ascii_line] at hc
      exact hline c hc
    · have hdigit := isdigit_repr hc
      refine ⟨?_, ?_, ?_, ?_⟩
      · rintro rfl
        cases hdigit
      · rintro rfl
        cases hdigit
      · rintro rfl
        cases hdigit
      · unfold braceOf
        rw [if_neg, if_neg]
        · rintro rfl
          cases hdigit
        · rintro rfl
          cases hdigit
  · refine Braceless.cons (Braceless.cons ?_ (fun _ => ⟨fun _ => by decide, fun _ => rfl⟩) (.inr ⟨rfl, by decide⟩))
      (fun h => by cases h) (.inr ⟨rfl, by decide⟩)
    refine Braceless.string ?_ (fun escaped prev => ?_) false
    · simp [hquote]
    · have hread : (CMode.string escaped).read 109 = .string false := by cases escaped <;> rfl
      refine Braceless.cons ?_ (fun h => by cases h) (.inl rfl)
      rw [hread]
      exact Braceless.cons hend (fun _ => ⟨fun _ => by decide, fun _ => rfl⟩) (.inl rfl)

/-! ## Lines of code -/

/-- The directive in front of a text that `oprintf` writes. -/
def headOf (g : GenFile) (lnum : Nat) (o : Oline) : Bytes :=
  if o.prevLine && g.emitLine lnum && o.canWrite lnum then g.directive lnum ++ [10] else []

theorem oprintf_oline (g : GenFile) (lnum : Nat) (o : Oline) (text : Bytes) :
    (g.oprintf lnum o text).oline = o.oline ++ (headOf g lnum o ++ text) := by
  unfold GenFile.oprintf headOf
  dsimp only
  cases hbegin : o.prevLine && g.emitLine lnum with
  | false => simp
  | true =>
    rw [if_pos rfl]
    cases hcan : o.canWrite lnum with
    | false => simp
    | true => simp

/-- Within a line there is no directive. -/
theorem headOf_oprintf (g : GenFile) (lnum : Nat) (o : Oline) {text : Bytes} (h : (10 : UInt8) ∉ text) :
    headOf g lnum (g.oprintf lnum o text) = [] := by
  have hno : text.contains 10 = false := by simpa using h
  have hprev : ((g.oprintf lnum o text).prevLine && g.emitLine lnum) = false := by
    unfold GenFile.oprintf
    dsimp only
    rw [hno, Bool.or_false]
    cases hbegin : o.prevLine && g.emitLine lnum with
    | false => exact hbegin
    | true =>
      rw [if_pos rfl]
      split_ifs <;> rfl
  unfold headOf
  rw [hprev, Bool.false_and, if_neg Bool.false_ne_true]

/-- A line is written behind its directive. -/
theorem oline_line (g : GenFile) (lnum : Nat) (o : Oline) {pieces : List Bytes} (h : ∀ t ∈ pieces, (10 : UInt8) ∉ t)
    (last : Bytes) : (g.oprintf lnum (pieces.foldl (g.oprintf lnum) o) last).oline =
      o.oline ++ (headOf g lnum o ++ (pieces.flatten ++ last)) := by
  induction pieces generalizing o with
  | nil => exact oprintf_oline g lnum o last
  | cons t pieces ih =>
    obtain ⟨ht, hpieces⟩ := List.forall_mem_cons.mp h
    rw [List.foldl_cons, ih _ hpieces, headOf_oprintf g lnum o ht, oprintf_oline, List.flatten_cons]
    simp only [List.append_assoc, List.nil_append]

/-- The pieces of a line do not change the level. -/
theorem pieces_eq (g : GenFile) (lnum : Nat) {pieces : List Bytes} (h : ∀ t ∈ pieces, (10 : UInt8) ∉ t) (s : ScopeState) :
    pieces.foldlM (ScopeState.oprintf g lnum) s = .ok { s with out := pieces.foldl (g.oprintf lnum) s.out } := by
  induction pieces generalizing s with
  | nil => rfl
  | cons t pieces ih =>
    obtain ⟨ht, hpieces⟩ := List.forall_mem_cons.mp h
    have hpiece : ScopeState.oprintf g lnum s t = .ok { s with out := g.oprintf lnum s.out t } := by
      have hno : t.contains 10 = false := by simpa using ht
      unfold ScopeState.oprintf
      rw [hno]
      rfl
    rw [List.foldlM_cons, hpiece]
    exact ih hpieces _

/-- The lines of code that are written with a call, and in pieces before it. -/
def codeLines (pieces : List Bytes) (row : Bytes) (rows : List Bytes) : List Bytes := (pieces.flatten ++ row) :: rows

/-- Lines that `check_level` reads as C does: the text is readable, and a line in front of another one is code to its
end. -/
structure Clear (ls : List Bytes) : Prop where
  readable : Readable (unlines 10 ls)
  whole : ∀ l ∈ ls.dropLast, Whole l

theorem Clear.lineBraces {ls : List Bytes} (h : Clear ls) (hne : ls ≠ []) :
    CLine.lineBraces (unlines 10 ls) = ls.flatMap CLine.lineBraces := by
  have hall := lineBraces_unlines h.whole (ls.getLast hne)
  rw [List.dropLast_append_getLast hne] at hall
  rw [hall, ← List.flatMap_singleton CLine.lineBraces (ls.getLast hne), ← List.flatMap_append,
    List.dropLast_append_getLast hne]

/-- Lines of code open and close the blocks of their own braces. -/
theorem Tracks.code {g : GenFile} (hg : g.Named) (h : Tracks s σ) (hbeg : s.lineBeg = s.out.oline.length) (lnum : Nat)
    {pieces : List Bytes} (hpieces : ∀ t ∈ pieces, (10 : UInt8) ∉ t) {row : Bytes} {rows : List Bytes}
    (hclear : Clear (codeLines pieces row rows))
    (hσ : ((codeLines pieces row rows).flatMap CLine.lineBraces).foldlM blockBrace σ = some σ') :
    ∃ s', s.exec g (.code lnum pieces row rows) = .ok s' ∧ Tracks s' σ' ∧ s'.lineBeg = s'.out.oline.length := by
  obtain ⟨last, hlast⟩ : ∃ last, last = unlines 10 (row :: rows) := ⟨_, rfl⟩
  have htext : pieces.flatten ++ last = unlines 10 (codeLines pieces row rows) := by
    rw [hlast, codeLines, unlines_cons, unlines_cons, List.append_assoc]
  obtain ⟨out, hout⟩ : ∃ out, out = g.oprintf lnum (pieces.foldl (g.oprintf lnum) s.out) last := ⟨_, rfl⟩
  have hchecked : Readable (out.oline.drop s.lineBeg) ∧
      CLine.lineBraces (out.oline.drop s.lineBeg) = (codeLines pieces row rows).flatMap CLine.lineBraces := by
    rw [hout, oline_line g lnum s.out hpieces, hbeg, List.drop_left, htext, ← hclear.lineBraces (List.cons_ne_nil _ _)]
    unfold headOf
    split_ifs
    · exact (braceless_directive hg lnum none).behind hclear.readable
    · exact ⟨hclear.readable, rfl⟩
  rw [← hchecked.2] at hσ
  obtain ⟨s', hok, ht, hsame, -⟩ := (h.out (o := out) (n := s.lineBeg)).checkLevel hchecked.1 hσ
  refine ⟨{ s' with lineBeg := out.oline.length }, ?_, ht.out, ?_⟩
  · have hbreak : last.contains 10 = true := by
      rw [hlast, unlines_cons]
      simp
    have hexec : s.exec g (.code lnum pieces row rows) =
        pieces.foldlM (ScopeState.oprintf g lnum) s >>= fun s => ScopeState.oprintf g lnum s last := by
      rw [hlast]
      rfl
    rw [hexec, pieces_eq g lnum hpieces]
    dsimp only [bind, Except.bind]
    unfold ScopeState.oprintf
    rw [hbreak, if_pos rfl, ← hout]
    dsimp only
    rw [hok]
    rfl
  · show out.oline.length = s'.out.oline.length
    rw [hsame]

/-- A directive in front of a line of the source opens and closes no block. -/
theorem Tracks.beginLine {g : GenFile} (hg : g.Named) (h : Tracks s σ) (hbeg : s.lineBeg = s.out.oline.length)
    (lnum : Nat) :
    ∃ s', s.beginLine g lnum = .ok s' ∧ Tracks s' σ ∧ s'.lineBeg = s'.out.oline.length := by
  unfold ScopeState.beginLine
  dsimp only
  split_ifs with hwritten
  · have hout : (g.beginLine lnum s.out).oline = s.out.oline ++ ([10] ++ (g.directive lnum ++ [10])) := by
      unfold GenFile.beginLine
      rw [if_pos hwritten]
      simp only [List.append_assoc]
    have hquiet : Braceless .code none ([10] ++ (g.directive lnum ++ [10])) :=
      (braceless_break none).append (braceless_directive hg lnum)
    obtain ⟨hread, hbraces⟩ := hquiet.behind (t := []) trivial
    rw [List.append_nil] at hread hbraces
    have hσ : (lineBraces ([10] ++ (g.directive lnum ++ [10]))).foldlM blockBrace σ = some σ := by
      rw [hbraces]
      rfl
    obtain ⟨s', hok, ht, hsame, -⟩ :=
      (h.out (o := g.beginLine lnum s.out) (n := s.lineBeg)).checkLevel hread hσ
    refine ⟨{ s' with lineBeg := (g.beginLine lnum s.out).oline.length }, ?_, ht.out, ?_⟩
    · rw [hout, hbeg, List.drop_left, ← hbeg, hok]
      rfl
    · show (g.beginLine lnum s.out).oline.length = s'.out.oline.length
      rw [hsame]
  · exact ⟨s, rfl, h, hbeg⟩

end ScopeState

/-! ## Runs -/

namespace ScopeOp

open ScopeState

/-- The texts have no line break but those between the lines, and names no white space. -/
def Legal : ScopeOp → Prop
  | .source _ | .level _ => True
  | .code _ pieces row rows => (∀ t ∈ pieces, (10 : UInt8) ∉ t) ∧ ∀ l ∈ row :: rows, (10 : UInt8) ∉ l
  | .add _ var _ _ _ => PlainName var
  | .find name => PlainName name

/-- Whether it is `add_var`. -/
def adds : ScopeOp → Bool
  | .add _ _ _ _ _ => true
  | _ => false

/-- What is done to the blocks; there is nothing where they are closed more often than opened, or nested too deep. -/
def blocks (σ : Blocks.Scopes Bytes DefType) : ScopeOp → Option (Blocks.Scopes Bytes DefType)
  | .source _ | .find _ => some σ
  | .code _ pieces row rows => ((codeLines pieces row rows).flatMap lineBraces).foldlM blockBrace σ
  | .level text => (lineBraces text).foldlM blockBrace σ
  | .add _ var type _ _ => some (declared σ var type)

/-- Lines are read as C reads them, and the decorated name of a new variable has less than 200 characters. -/
def Guard (st : ScopeState × Blocks.Scopes Bytes DefType) : ScopeOp → Prop
  | .source _ | .find _ => True
  | .code _ pieces row rows => Clear (codeLines pieces row rows)
  | .level text => Readable text
  | .add _ var _ _ _ =>
    Blocks.visible st.2 var = none → (decorated st.1.level (st.1.resurr st.1.level) var).length < RIM_MAX_DECNAME

def Step (g : GenFile) (st : ScopeState × Blocks.Scopes Bytes DefType) (op : ScopeOp)
    (st' : ScopeState × Blocks.Scopes Bytes DefType) : Prop :=
  op.Legal ∧ st.1.exec g op = .ok st'.1 ∧ op.blocks st.2 = some st'.2

end ScopeOp

namespace ScopeState

/-- `find_var` finds a name just if an open block declares it, and with the type of this declaration. `add_var` declares
a name that is not visible, unless it is reserved; of a name that is visible it declares nothing, and it is an error where
the types are not compatible. -/
structure Scoped (s : ScopeState) (σ : Blocks.Scopes Bytes DefType) : Prop where
  find : ∀ name, PlainName name →
    ∃ s' found, s.findVar name = .ok (s', found) ∧ found.map VarFound.type = Blocks.visible σ name
  new : ∀ lnum var type realname watched, PlainName var → Blocks.visible σ var = none → var ∉ reservedNames →
    ∃ s', s.addVar lnum var type realname watched = .ok (s', false)
  same : ∀ lnum var type realname watched t, PlainName var → Blocks.visible σ var = some t → Compatible type t →
    ∃ s', s.addVar lnum var type realname watched = .ok (s', true) ∧ Marked s s'
  different : ∀ lnum var type realname watched t, PlainName var → Blocks.visible σ var = some t → ¬ Compatible type t →
    ∃ e, s.addVar lnum var type realname watched = .error e

theorem Tracks.scoped {s : ScopeState} {σ : Blocks.Scopes Bytes DefType} (h : Tracks s σ) : Scoped s σ where
  find := by
    intro name hname
    obtain ⟨s', found, hok, htype, -⟩ := h.findVar hname
    exact ⟨s', found, hok, htype⟩
  new := by
    intro lnum var type realname watched hname hvisible hreserved
    obtain ⟨s₁, key, -, -, hadd⟩ := h.addVar_new hname hvisible lnum type realname watched
    rw [if_neg hreserved] at hadd
    exact ⟨_, hadd⟩
  same := fun _ _ _ _ _ _ hname hvisible hc => (h.addVar_visible hname hvisible).1 hc
  different := fun _ _ _ _ _ _ hname hvisible hc => (h.addVar_visible hname hvisible).2 hc

/-- Between the lines of the code, the hash represents the blocks. -/
structure Inv (st : ScopeState × Blocks.Scopes Bytes DefType) : Prop where
  tracks : Tracks st.1 st.2
  lineBeg : st.1.lineBeg = st.1.out.oline.length

theorem inv_start : Inv ({}, [[]]) where
  tracks := by
    refine ⟨rfl, by decide, fun key v hkey => ?_, ?_⟩
    · cases hkey
    · have hstore : ScopeState.store {} = fun _ _ _ => none := rfl
      rw [hstore]
      exact Blocks.represents_start
  lineBeg := rfl

variable {g : GenFile} {st st' : ScopeState × Blocks.Scopes Bytes DefType} {op : ScopeOp}

/-- Whatever is not `add_var` is done, and the blocks stay represented. -/
theorem Inv.exec {σ' : Blocks.Scopes Bytes DefType} (hg : g.Named) (h : Inv st) (hlegal : op.Legal) (hguard : op.Guard st)
    (hσ : op.blocks st.2 = some σ') (hadds : op.adds = false) : ∃ s', st.1.exec g op = .ok s' ∧ Inv (s', σ') := by
  obtain ⟨s, σ⟩ := st
  have ht : Tracks s σ := h.tracks
  have hbeg : s.lineBeg = s.out.oline.length := h.lineBeg
  cases op with
  | source lnum =>
    obtain ⟨s', hok, ht', hbeg'⟩ := ht.beginLine hg hbeg lnum
    obtain rfl := Option.some.inj hσ
    exact ⟨s', hok, ht', hbeg'⟩
  | code lnum pieces row rows =>
    obtain ⟨s', hok, ht', hbeg'⟩ := ht.code hg hbeg lnum hlegal.1 hguard hσ
    exact ⟨s', hok, ht', hbeg'⟩
  | level text =>
    obtain ⟨s', hok, ht', hout, hbeg'⟩ := ht.checkLevel hguard hσ
    refine ⟨s', hok, ht', ?_⟩
    dsimp only
    rw [hbeg', hout, hbeg]
  | add lnum var type realname watched => cases hadds
  | find name =>
    obtain ⟨s', found, hok, -, hmarked⟩ := ht.findVar hlegal
    obtain rfl := Option.some.inj hσ
    refine ⟨s', ?_, hmarked.tracks ht, ?_⟩
    · have hexec : s.exec g (.find name) = (s.findVar name).map (·.1) := rfl
      rw [hexec, hok]
      rfl
    · dsimp only
      rw [hmarked.same]
      exact hbeg

theorem exec_add {s s' : ScopeState} {lnum : Nat} {var realname : Bytes} {type : DefType} {watched : Bool}
    (h : s.exec g (.add lnum var type realname watched) = .ok s') :
    ∃ existed, s.addVar lnum var type realname watched = .ok (s', existed) := by
  have hmap : (s.addVar lnum var type realname watched).map (·.1) = .ok s' := h
  cases hadd : s.addVar lnum var type realname watched with
  | error e =>
    rw [hadd] at hmap
    cases hmap
  | ok added =>
    rw [hadd] at hmap
    cases hmap
    exact ⟨added.2, rfl⟩

theorem Inv.step (hg : g.Named) (h : Inv st) (hguard : op.Guard st) (hstep : op.Step g st st') : Inv st' := by
  obtain ⟨hlegal, hexec, hσ⟩ := hstep
  cases hadds : op.adds with
  | false =>
    obtain ⟨s', hok, hinv⟩ := h.exec hg hlegal hguard hσ hadds
    obtain rfl := Except.ok.inj (hok.symm.trans hexec)
    exact hinv
  | true =>
    obtain ⟨s, σ⟩ := st
    obtain ⟨s', σ'⟩ := st'
    cases op with
    | add lnum var type realname watched =>
      obtain rfl := Option.some.inj hσ
      obtain ⟨existed, hadd⟩ := exec_add hexec
      obtain ⟨ht, hout, hbeg⟩ := h.tracks.addVar hlegal hguard hadd
      refine ⟨ht, ?_⟩
      dsimp only
      rw [hbeg, hout, h.lineBeg]
    | source _ => cases hadds
    | code _ _ _ _ => cases hadds
    | level _ => cases hadds
    | find _ => cases hadds

/-- As long as lines are read as C reads them and the decorated names of variables have less than 200 characters, the
variables follow the blocks, and only `add_var` stops. -/
theorem guarded_run_scoped (hg : g.Named) {ops : List ScopeOp} {s : ScopeState} {σ : Blocks.Scopes Bytes DefType}
    (hrun : GuardedRun (ScopeOp.Step g) ScopeOp.Guard ({}, [[]]) ops (s, σ)) :
    Scoped s σ ∧ ∀ (op : ScopeOp) σ', op.Legal → op.Guard (s, σ) → op.blocks σ = some σ' → op.adds = false →
      ∃ s', s.exec g op = .ok s' := by
  have hinv : Inv (s, σ) := hrun.invariant (fun hst hguard hstep => hst.step hg hguard hstep) inv_start
  refine ⟨hinv.tracks.scoped, fun op σ' hlegal hguard hσ hadds => ?_⟩
  obtain ⟨s', hok, -⟩ := hinv.exec hg hlegal hguard hσ hadds
  exact ⟨s', hok⟩

def noLines : GenFile := ⟨true, 47 :: ascii ".rim", []⟩

theorem noLines_named : noLines.Named where
  path := ⟨[], rfl, by simp, by simp⟩
  base := ⟨by simp [noLines], by simp [noLines]⟩

/-- A variable is declared, and a block opens. -/
theorem guarded_run_scoped_block : ∃ s, GuardedRun (ScopeOp.Step noLines) ScopeOp.Guard ({}, [[]])
    [.add 1 [120] .number [] false, .code 2 [] [123] []] (s, [[], [([120], .number)]]) ∧
      Scoped s [[], [([120], .number)]] := by
  have hplain : PlainName [120] := by
    intro c hc
    obtain rfl := List.mem_singleton.mp hc
    decide
  have hreserved : [120] ∉ reservedNames := by simp [reservedNames, ascii]
  obtain ⟨s₁, hadd⟩ := inv_start.tracks.scoped.new 1 [120] .number [] false hplain rfl hreserved
  have hshort : ScopeOp.Guard ({}, [[]]) (.add 1 [120] .number [] false) := by
    intro _
    decide
  have hdeclares : ScopeOp.Step noLines ({}, [[]]) (.add 1 [120] .number [] false) (s₁, [[([120], .number)]]) := by
    refine ⟨hplain, ?_, rfl⟩
    have hexec : ScopeState.exec noLines {} (.add 1 [120] .number [] false) =
        (ScopeState.addVar {} 1 [120] .number [] false).map (·.1) := rfl
    dsimp only
    rw [hexec, hadd]
    rfl
  have hinv := inv_start.step noLines_named hshort hdeclares
  have hclear : Clear (codeLines [] [123] []) := by
    refine ⟨?_, fun l hl => by cases hl⟩
    show AsRead .code none [123, 10]
    simp [AsRead, CMode.read, CMode.inConstant]
  have hlegal : ScopeOp.Legal (.code 2 [] [123] []) := ⟨by simp, by simp⟩
  have hblocks : (ScopeOp.code 2 [] [123] []).blocks [[([120], .number)]] = some [[], [([120], .number)]] := rfl
  obtain ⟨s₂, hok, -⟩ := hinv.exec noLines_named hlegal hclear hblocks rfl
  have hrun : GuardedRun (ScopeOp.Step noLines) ScopeOp.Guard ({}, [[]])
      [.add 1 [120] .number [] false, .code 2 [] [123] []] (s₂, [[], [([120], .number)]]) :=
    .cons hshort hdeclares (.cons hclear ⟨hlegal, hok, hblocks⟩ (.nil _))
  exact ⟨s₂, hrun, (guarded_run_scoped noLines_named hrun).1⟩

theorem length_reserved : ∀ name ∈ reservedNames, name.length ≤ 9 := by
  simp [reservedNames, ascii]

/-- A name that has 200 letters, with its level and its resurrection before it, is not found. -/
theorem not_run_scoped : ¬ ∀ (g : GenFile) ops s σ, g.Named →
    Run (ScopeOp.Step g) ({}, [[]]) ops (s, σ) → Scoped s σ := by
  intro h
  obtain ⟨name, hname⟩ : ∃ name : Bytes, name = List.replicate 200 120 := ⟨_, rfl⟩
  have hlen : name.length = 200 := by rw [hname, List.length_replicate]
  have hplain : PlainName name := by
    intro c hc
    rw [hname] at hc
    obtain rfl := List.eq_of_mem_replicate hc
    decide
  have hvisible : Blocks.visible [[]] name = (none : Option DefType) := rfl
  have hreserved : name ∉ reservedNames := by
    intro hmem
    have hle := length_reserved name hmem
    omega
  have hlong : RIM_MAX_DECNAME ≤ (decorated 0 0 name).length := by
    unfold decorated RIM_MAX_DECNAME
    simp only [List.length_append, List.length_cons]
    omega
  obtain ⟨s, hadd, hlost⟩ := inv_start.tracks.addVar_long hplain hvisible hreserved hlong 1 .number [] false
  have hstep : ScopeOp.Step noLines ({}, [[]]) (.add 1 name .number [] false) (s, declared [[]] name .number) := by
    refine ⟨hplain, ?_, rfl⟩
    have hexec : ScopeState.exec noLines {} (.add 1 name .number [] false) =
        (ScopeState.addVar {} 1 name .number [] false).map (·.1) := rfl
    dsimp only
    rw [hexec, hadd]
    rfl
  have hscoped := h noLines [.add 1 name .number [] false] s _ noLines_named (.cons trivial hstep (.nil _))
  obtain ⟨s', found, hfind, htype⟩ := hscoped.find name hplain
  have hnone := hlost s' found hfind
  have hsome : Blocks.visible (declared [[]] name .number) name = some DefType.number := by
    rw [declared, if_pos hvisible, Blocks.visible_declare, if_pos rfl]
  rw [hnone, hsome] at htype
  cases htype

end ScopeState

end RimStone
