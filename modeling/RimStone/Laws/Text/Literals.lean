import RimStone.Laws.Text.Strings

/-!
# A literal denotes its text

A literal is an array that a variable can have as its value, and statements that change a
string change it. So a literal denotes its text in runs in which no statement changes one: to
write what is there is no change. In the same runs what `new-string` makes is a block that was
no variable's before. For a small constant length this is an array too, and holds only for the
first time.
-/

namespace RimStone

open RimStone.Lib StrBlock

/-! ## Statements that change nothing -/

theorem setLength_const {text : Bytes} (h : text.length < 2 ^ 47) :
    (const text).setLength text.length = .ok (const text) := by
  unfold StrBlock.setLength
  rw [if_pos (Or.inl (Int.natCast_nonneg _)), toRimNum_eq (by omega) (by omega)]
  unfold const
  rw [pokeAt_middle]
  rfl

/-- A byte that is set to what it was, or is not in the string. -/
theorem setByte_const {text : Bytes} {ind : Int} {c : UInt8}
    (h : 0 ≤ ind → ind < text.length → peekAt text ind = some c) {b : StrBlock}
    (hset : (const text).setByte ind c = .ok b) : b = const text := by
  unfold StrBlock.setByte at hset
  rw [checkIndex_eq (const_holds text)] at hset
  by_cases hind : 0 ≤ ind ∧ ind < text.length
  · obtain ⟨a, x, d, rfl, rfl⟩ := exists_middle hind.1 hind.2
    have hx := h hind.1 hind.2
    unfold peekAt at hx
    rw [if_pos hind.1, Int.toNat_natCast, getElem?_middle] at hx
    obtain rfl := Option.some.inj hx
    have hbytes : (const (a ++ x :: d)).bytes = a ++ x :: (d ++ [0]) := by
      unfold const
      rw [List.append_assoc, List.cons_append]
    rw [if_pos hind, hbytes, pokeAt_middle, ← hbytes] at hset
    exact (Except.ok.inj hset).symm
  · rw [if_neg hind] at hset
    cases hset

/-- A string that begins and ends with no white space is trimmed. -/
theorem rimTrim_const {text : Bytes} (h : trim isspace text = text) {b : StrBlock}
    (htrim : (const text).rimTrim = .ok b) : b = const text := by
  obtain ⟨b', rest', heq, hholds, hlen⟩ := rimTrim_holds (const_holds text)
  rw [heq] at htrim
  obtain rfl := Except.ok.inj htrim
  rw [h] at hholds
  rw [hholds.length, (const_holds text).length] at hlen
  have hnil : rest' = [] := List.eq_nil_of_length_eq_zero (by rw [List.length_nil] at hlen; omega)
  subst hnil
  cases b' with
  | mk bytes len =>
    obtain ⟨hbytes, hhead⟩ := hholds
    unfold const
    simp only at hbytes hhead
    rw [hbytes, hhead]

/-- A computation about which nothing is known. -/
theorem yields_any {ε α : Type} (x : Except ε α) : Yields (fun _ => True) (fun _ => True) x := by
  cases x <;> trivial

abbrev IfOk {α : Type} (P : α → Prop) (x : Except WriteFault α) : Prop := Yields (fun _ => True) P x

theorem IfOk.intro {α : Type} {P : α → Prop} {x : Except WriteFault α} (h : ∀ a, x = .ok a → P a) : IfOk P x := by
  cases x with
  | ok a => exact h a rfl
  | error fault => trivial

namespace StrOp

/-- The array that a statement makes its variable's. -/
def site : StrOp → Option Nat
  | .newArray _ n => some n
  | _ => none

end StrOp

/-- The arrays that `new-string` gave in a run. -/
def newSites (evs : List (Heap × StrOp)) : List Nat := evs.flatMap fun ev => ev.2.site.toList

namespace StrSys

variable {heap : Heap} (prog : StrProg) {s s' : StrSys} {sites : List Nat}

def Held (sites : List Nat) (next : Nat) : StrPtr → Prop
  | .array n => n ∈ sites
  | .mem i => i < next
  | _ => True

/-- Literals are as they were compiled, and so are the arrays that were not yet given. -/
structure Denotes (sites : List Nat) (s : StrSys) : Prop where
  literal : ∀ n, s.mem (.literal n) = const (prog.literal n)
  array : ∀ n, n ∉ sites → s.mem (.array n) = const (List.replicate (prog.newLen n) 32)
  held : ∀ v, Held sites s.next (s.vars v)

variable {prog}

theorem Held.mono {next next' : Nat} (h : next ≤ next') {p : StrPtr} (hp : Held sites next p) : Held sites next' p := by
  cases p with
  | mem i => exact Nat.lt_of_lt_of_le hp h
  | empty | literal | array => exact hp

theorem Denotes.assign (h : Denotes prog sites s) (str : Nat) {p : StrPtr} (hp : Held sites s.next p) :
    Denotes prog sites (s.assign str p) := by
  refine ⟨h.literal, h.array, fun v => ?_⟩
  show Held sites s.next (Function.update s.vars str p v)
  rw [Function.update_apply]
  split
  · exact hp
  · exact h.held v

theorem Denotes.endRequest (h : Denotes prog sites s) : Denotes prog sites (s.endRequest prog) := by
  refine ⟨h.literal, h.array, fun v => ?_⟩
  show Held sites s.next (if prog.process v then s.vars v else .empty)
  split
  · exact h.held v
  · trivial

theorem Denotes.alloc (h : Denotes prog sites s) (b : StrBlock) : Denotes prog sites (s.alloc b) := by
  refine ⟨fun n => ?_, fun n hn => ?_, fun v => (h.held v).mono (Nat.le_succ _)⟩
  · rw [alloc_mem, if_neg StrPtr.noConfusion]
    exact h.literal n
  · rw [alloc_mem, if_neg StrPtr.noConfusion]
    exact h.array n hn

/-- A string is changed that is no literal, or the literal is not another one. -/
theorem Denotes.write (h : Denotes prog sites s) {p : StrPtr} {b : StrBlock} (hp : Held sites s.next p)
    (hb : ∀ n, p = .literal n → b = const (prog.literal n)) : Denotes prog sites (s.write p b) := by
  refine ⟨fun n => ?_, fun n hn => ?_, h.held⟩
  · rw [write_mem]
    split
    · rename_i hq
      exact hb n hq.symm
    · exact h.literal n
  · rw [write_mem, if_neg ?_]
    · exact h.array n hn
    · rintro rfl
      exact hn hp

theorem make_denotes (h : Denotes prog sites s) (x : Except WriteFault StrBlock) :
    IfOk (fun r => Denotes prog sites r.1 ∧ Held sites r.1.next r.2 ∧ r.2 = .mem s.next) (s.make x) :=
  (yields_any x).bind fun b _ => ⟨h.alloc b, Nat.lt_succ_self _, rfl⟩

theorem makeIn_denotes (h : Denotes prog sites s) (str : Nat) (x : Except WriteFault StrBlock) :
    IfOk (Denotes prog sites) (s.makeIn str x) :=
  (make_denotes h x).bind fun _ hr => hr.1.assign str hr.2.1

theorem change_denotes (h : Denotes prog sites s) {p : StrPtr} {f : StrBlock → Except WriteFault StrBlock}
    (hp : Held sites s.next p)
    (hf : ∀ n b, p = .literal n → f (const (prog.literal n)) = .ok b → b = const (prog.literal n)) :
    IfOk (Denotes prog sites) (s.change p f) := by
  have hx : IfOk (fun b => ∀ n, p = .literal n → b = const (prog.literal n)) (f (s.mem p)) := by
    refine IfOk.intro fun b hb n hn => ?_
    subst hn
    rw [h.literal n] at hb
    exact hf n b rfl hb
  exact hx.bind fun b hb => h.write hp hb

theorem Denotes.term_held (h : Denotes prog sites s) (t : StrTerm) : Held sites s.next (s.term t) := by
  cases t with
  | var v => exact h.held v
  | literal n => trivial

/-- The value of an expression is a string that is there, or a new one. -/
theorem eval_denotes (h : Denotes prog sites s) (e : List StrPart) :
    IfOk (fun r => Denotes prog sites r.1 ∧ Held sites r.1.next r.2 ∧
      ∀ n, r.2 = .literal n → ∃ t, e = [.whole t] ∧ s.term t = .literal n) (s.eval heap e) := by
  have hmake : ∀ x : Except WriteFault StrBlock, IfOk (fun r => Denotes prog sites r.1 ∧ Held sites r.1.next r.2 ∧
      ∀ n, r.2 = .literal n → ∃ t, e = [.whole t] ∧ s.term t = .literal n) (s.make x) := by
    intro x
    refine (make_denotes h x).mono fun r hr => ⟨hr.1, hr.2.1, fun n hn => ?_⟩
    rw [hr.2.2] at hn
    cases hn
  cases e with
  | nil => exact ⟨h, trivial, nofun⟩
  | cons p e =>
    cases e with
    | cons q e =>
      cases p with
      | whole t => exact hmake _
      | sub t beg len => exact hmake _
    | nil =>
      cases p with
      | sub t beg len => exact hmake _
      | whole t => exact ⟨h, h.term_held t, fun n hn => ⟨t, rfl, hn⟩⟩

variable (prog)

/-- A literal is not changed: its length is set to what it is, a byte to what it is, and it is
trimmed where there is nothing to trim. -/
def Leaves (s : StrSys) : StrOp → Prop
  | .setLength str len => ∀ n, s.vars str = .literal n → len.toInt = (prog.literal n).length
  | .setByte str ind num => ∀ n, s.vars str = .literal n → 0 ≤ ind.toInt → ind.toInt < (prog.literal n).length →
      peekAt (prog.literal n) ind.toInt = some num.toUInt64.toUInt8
  | .trimString e => ∀ t n, e = [.whole t] → s.term t = .literal n → trim isspace (prog.literal n) = prog.literal n
  | _ => True

/-- The condition on a statement: it changes no literal, and stays inside of the strings. -/
def Keeps (s : StrSys) (ev : Heap × StrOp) : Prop :=
  s.Leaves prog ev.2 ∧ s.exec ev.1 prog ev.2 ≠ .error .outside

variable {prog}

theorem Denotes.newSites (h : Denotes prog sites s) (n : Nat) : Denotes prog (sites ++ [n]) s := by
  refine ⟨h.literal, fun m hm => h.array m fun hin => hm (List.mem_append_left _ hin), fun v => ?_⟩
  have hv := h.held v
  cases hp : s.vars v with
  | array m =>
    rw [hp] at hv
    exact List.mem_append_left _ hv
  | mem i =>
    rw [hp] at hv
    exact hv
  | empty | literal => trivial

/-- Every statement under the condition leaves the literals as they are. -/
theorem exec_denotes (h : Denotes prog sites s) {op : StrOp} (hop : s.Leaves prog op) :
    IfOk (Denotes prog (sites ++ op.site.toList)) (s.exec heap prog op) := by
  have hkeep : op.site = none → ∀ {x : Except WriteFault StrSys}, IfOk (Denotes prog sites) x →
      IfOk (Denotes prog (sites ++ op.site.toList)) x := by
    intro hnone x hx
    rw [hnone, Option.toList_none, List.append_nil]
    exact hx
  cases op with
  | newArray str n =>
    have h' : Denotes prog (sites ++ [n]) (s.assign str (.array n)) :=
      (h.newSites n).assign str (List.mem_append_right _ (List.mem_singleton_self n))
    exact change_denotes h' (List.mem_append_right _ (List.mem_singleton_self n)) nofun
  | setString str e =>
    refine hkeep rfl ?_
    exact (eval_denotes h e).bind fun r hr => hr.1.assign str hr.2.1
  | setLength str len =>
    refine hkeep rfl ?_
    refine change_denotes (f := fun b => b.setLength len.toInt) h (h.held str) fun n b hn hb => ?_
    simp only [hop n hn, setLength_const (prog.literal_lt n)] at hb
    exact (Except.ok.inj hb).symm
  | setByte str ind num =>
    refine hkeep rfl ?_
    exact change_denotes (f := fun b => b.setByte ind.toInt num.toUInt64.toUInt8) h (h.held str)
      fun n b hn hb => setByte_const (hop n hn) hb
  | getByte str ind =>
    refine hkeep rfl ?_
    exact (yields_any _).bind fun _ _ => h
  | newString str len =>
    refine hkeep rfl ?_
    exact makeIn_denotes h str _
  | trimString e =>
    refine hkeep rfl ?_
    refine (eval_denotes h e).bind fun r hr => change_denotes hr.1 hr.2.1 fun n b hn hb => ?_
    obtain ⟨t, he, ht⟩ := hr.2.2 n hn
    exact rimTrim_const (hop t n he ht) hb
  | copyString e dst swith len =>
    refine hkeep rfl ?_
    exact (eval_denotes h e).bind fun r hr => makeIn_denotes hr.1 dst _
  | done =>
    refine hkeep rfl ?_
    exact h.endRequest

/-! ## Runs -/

theorem newSites_concat (evs : List (Heap × StrOp)) (ev : Heap × StrOp) :
    RimStone.newSites (evs ++ [ev]) = RimStone.newSites evs ++ ev.2.site.toList := by
  unfold RimStone.newSites
  rw [List.flatMap_append, List.flatMap_singleton]

theorem step_denotes (h : Denotes prog sites s) {ev : Heap × StrOp} (hev : s.Keeps prog ev)
    (hstep : s.Step prog ev s') : Denotes prog (sites ++ ev.2.site.toList) s' := by
  cases hstep with
  | done hexec => exact (exec_denotes h hev.1).of_ok hexec
  | outside _ hexec => exact absurd hexec hev.2
  | reported _ _ =>
    cases hsite : StrOp.site _ with
    | none =>
      rw [Option.toList_none, List.append_nil]
      exact h.endRequest
    | some n => exact (h.newSites n).endRequest

theorem init_denotes : Denotes prog [] (init prog) := ⟨fun _ => rfl, fun _ _ => rfl, fun _ => trivial⟩

theorem run_keeps {evs : List (Heap × StrOp)} (hrun : GuardedRun (Step prog) (Keeps prog) (init prog) evs s) :
    Denotes prog (RimStone.newSites evs) s := by
  refine hrun.history (P := fun s evs => Denotes prog (RimStone.newSites evs) s) ?_ init_denotes
  intro s s' ev evs h hev hstep
  rw [newSites_concat]
  exact step_denotes h hev hstep

theorem make_next (s : StrSys) (x : Except WriteFault StrBlock) : IfOk (fun r => s.next ≤ r.1.next) (s.make x) :=
  (yields_any x).bind fun _ _ => Nat.le_succ _

theorem eval_next (s : StrSys) (e : List StrPart) : IfOk (fun r => s.next ≤ r.1.next) (s.eval heap e) := by
  cases e with
  | nil => exact Nat.le_refl _
  | cons p e =>
    cases e with
    | cons q e => cases p <;> exact make_next s _
    | nil =>
      cases p with
      | whole t => exact Nat.le_refl _
      | sub t beg len => exact make_next s _

theorem makeIn_next (s : StrSys) (str : Nat) (x : Except WriteFault StrBlock) :
    IfOk (fun s' => s.next ≤ s'.next) (s.makeIn str x) := (make_next s x).bind fun _ hr => hr

theorem change_next (s : StrSys) (p : StrPtr) (f : StrBlock → Except WriteFault StrBlock) :
    IfOk (fun s' => s.next ≤ s'.next) (s.change p f) := (yields_any _).bind fun _ _ => Nat.le_refl _

theorem exec_next (s : StrSys) (op : StrOp) : IfOk (fun s' => s.next ≤ s'.next) (s.exec heap prog op) := by
  cases op with
  | setString str e => exact (eval_next s e).bind fun _ hr => hr
  | setLength str len => exact change_next s (s.vars str) fun b => b.setLength len.toInt
  | setByte str ind num => exact change_next s (s.vars str) fun b => b.setByte ind.toInt num.toUInt64.toUInt8
  | newArray str n => exact change_next (s.assign str (.array n)) _ _
  | getByte str ind => exact (yields_any _).bind fun _ _ => Nat.le_refl _
  | newString str len => exact makeIn_next s str _
  | trimString e => exact (eval_next s e).bind fun r hr => (change_next r.1 _ _).mono fun _ h => Nat.le_trans hr h
  | copyString e dst swith len =>
    exact (eval_next s e).bind fun r hr => (makeIn_next r.1 _ _).mono fun _ h => Nat.le_trans hr h
  | done => exact Nat.le_refl _

theorem step_next {ev : Heap × StrOp} (hev : s.Keeps prog ev) (hstep : s.Step prog ev s') : s.next ≤ s'.next := by
  cases hstep with
  | done hexec => exact (exec_next s _).of_ok hexec
  | reported _ _ => exact Nat.le_refl _
  | outside _ hexec => exact absurd hexec hev.2

/-- A string that is in no variable of a state, and no literal, has the length that is
asked for. -/
structure New (s : StrSys) (str : Nat) (len : Int) (s' : StrSys) : Prop where
  length : (s'.string str).rimMemGetLen = len
  vars : ∀ v, s.vars v ≠ s'.vars str
  literal : ∀ n, s'.vars str ≠ .literal n
  empty : s'.vars str ≠ .empty

/-- The first time that a `new-string` with a small constant length is done. -/
theorem newArray_new (h : Denotes prog sites s) {str n : Nat} (hn : n ∉ sites)
    (hexec : s.exec heap prog (.newArray str n) = .ok s') :
    s'.vars str = .array n ∧ (s'.string str).rimMemGetLen = prog.newLen n := by
  have hmem : (s.assign str (.array n)).mem (.array n) = const (List.replicate (prog.newLen n) 32) := h.array n hn
  have hpos : 0 < (const (List.replicate (prog.newLen n) 32)).bytes.length := by
    rw [(const_holds _).length]
    omega
  change (s.assign str (.array n)).change (.array n) StrBlock.setEmpty = .ok s' at hexec
  unfold change at hexec
  rw [hmem, setEmpty_eq hpos] at hexec
  obtain rfl := Except.ok.inj hexec
  have hvar : ((s.assign str (.array n)).write (.array n)
      { const (List.replicate (prog.newLen n) 32) with
        bytes := (const (List.replicate (prog.newLen n) 32)).bytes.set 0 0 }).vars str = .array n :=
    Function.update_self _ _ _
  refine ⟨hvar, ?_⟩
  unfold string
  rw [hvar, write_mem, if_pos rfl]
  show (const (List.replicate (prog.newLen n) 32)).rimMemGetLen = _
  rw [(const_holds _).getLen, List.length_replicate]

/-- What `new-string` makes of memory has the length that is asked for. -/
theorem newBlock_getLen {len : Int64} {b : StrBlock} (h : newBlock heap len.toInt = .ok b) :
    b.rimMemGetLen = len.toInt := by
  have hlow := len.le_toInt
  have hhigh := len.toInt_lt
  unfold newBlock rimRealloc at h
  cases hgives : heap.gives (requested (toRimNum (len.toInt + 1))) with
  | false =>
    rw [hgives] at h
    cases h
  | true =>
    obtain ⟨-, hbound⟩ := heap.bound _ hgives
    rw [hgives, if_pos rfl] at h
    by_cases hhead : requested (toRimNum (len.toInt + 1)) < sizeofHead
    · rw [if_pos hhead] at h
      cases h
    · rw [if_neg hhead] at h
      have hset : StrBlock.setEmpty ⟨reblock heap [] (requested (toRimNum (len.toInt + 1)) - sizeofHead).toNat,
        requested (toRimNum (len.toInt + 1)) - sizeofHead⟩ = .ok b := h
      by_cases hzero : (requested (toRimNum (len.toInt + 1)) - sizeofHead).toNat = 0
      · rw [hzero] at hset
        cases hset
      · rw [setEmpty_eq (by show 0 < (reblock heap [] _).length; rw [length_reblock]; omega)] at hset
        obtain rfl := Except.ok.inj hset
        show requested (toRimNum (len.toInt + 1)) - sizeofHead - 1 = _
        unfold requested toRimNum sizeofHead at *
        omega

/-- A `new-string` with any other length. -/
theorem newString_new {str : Nat} {len : Int64} (hexec : s.exec heap prog (.newString str len) = .ok s') :
    s'.vars str = .mem s.next ∧ (s'.string str).rimMemGetLen = len.toInt := by
  change s.makeIn str (newBlock heap len.toInt) = .ok s' at hexec
  cases hb : newBlock heap len.toInt with
  | error fault =>
    rw [hb] at hexec
    cases hexec
  | ok b =>
    rw [hb] at hexec
    obtain rfl := Except.ok.inj hexec
    have hvar : ((s.alloc b).assign str (.mem s.next)).vars str = .mem s.next := Function.update_self _ _ _
    refine ⟨hvar, ?_⟩
    unfold string
    rw [hvar]
    show ((s.alloc b).mem (.mem s.next)).rimMemGetLen = _
    rw [alloc_mem, if_pos rfl]
    exact newBlock_getLen hb

/-- In every run whose statements meet the condition, a literal has the bytes and the length
that were compiled, and `new-string` makes a string of the length that is asked for, which no
variable has had; one with a small constant length does so when it is done for the first
time. -/
theorem run_denotes {evs₁ evs₂ : List (Heap × StrOp)} {s₁ s₂ : StrSys}
    (h₁ : GuardedRun (Step prog) (Keeps prog) (init prog) evs₁ s₁)
    (h₂ : GuardedRun (Step prog) (Keeps prog) s₁ evs₂ s₂) :
    (∀ heap n, ∃ p, s₂.eval heap [.whole (.literal n)] = .ok (s₂, p) ∧ s₂.mem p = const (prog.literal n)) ∧
    (∀ heap str n s', n ∉ RimStone.newSites (evs₁ ++ evs₂) → s₂.exec heap prog (.newArray str n) = .ok s' →
      New s₁ str (prog.newLen n) s') ∧
    ∀ heap str len s', s₂.exec heap prog (.newString str len) = .ok s' → New s₁ str len.toInt s' := by
  have hs₁ := run_keeps h₁
  have hs₂ := run_keeps (h₁.append h₂)
  have hnext : s₁.next ≤ s₂.next :=
    h₂.invariant (P := fun s => s₁.next ≤ s.next) (fun h hev hstep => Nat.le_trans h (step_next hev hstep)) (Nat.le_refl _)
  refine ⟨fun heap n => ⟨.literal n, rfl, hs₂.literal n⟩, ?_, ?_⟩
  · intro heap str n s' hn hexec
    obtain ⟨hvar, hlen⟩ := newArray_new hs₂ hn hexec
    refine ⟨hlen, fun v hv => ?_, fun m hm => ?_, fun hempty => ?_⟩
    · -- an array that a variable had was given in the run
      have hheld := hs₁.held v
      rw [hv, hvar] at hheld
      refine hn ?_
      unfold RimStone.newSites
      rw [List.flatMap_append]
      exact List.mem_append_left _ hheld
    · rw [hvar] at hm
      cases hm
    · rw [hvar] at hempty
      cases hempty
  · intro heap str len s' hexec
    obtain ⟨hvar, hlen⟩ := newString_new hexec
    refine ⟨hlen, fun v hv => ?_, fun n hn => ?_, fun hempty => ?_⟩
    · have hheld := hs₁.held v
      rw [hv, hvar] at hheld
      exact absurd hnext (Nat.not_le_of_lt hheld)
    · rw [hvar] at hn
      cases hn
    · rw [hvar] at hempty
      cases hempty

/-- A literal is assigned, and its first byte is set to what it is. -/
theorem run_denotes_byte : ∃ s, (∀ n, s.mem (.literal n) = const [97, 98]) ∧
    ∀ s', s.exec plenty oneLiteral (.newArray 1 0) = .ok s' → New s 1 2 s' := by
  have hrun : GuardedRun (Step oneLiteral) (Keeps oneLiteral) (init oneLiteral)
      [(plenty, .setString 0 [.whole (.literal 0)]), (plenty, .setByte 0 0 97)] _ :=
    .cons ⟨trivial, nofun⟩ (.done rfl) (.cons ⟨fun _ _ _ _ => rfl, nofun⟩ (.done rfl) (.nil _))
  obtain ⟨hlit, hnew, -⟩ := run_denotes hrun (.nil _)
  refine ⟨_, fun n => ?_, fun s' => hnew plenty 1 0 s' (by decide)⟩
  obtain ⟨p, heval, hp⟩ := hlit plenty n
  obtain rfl := congrArg Prod.snd (Except.ok.inj heval)
  exact hp

/-- A literal is assigned, and a byte of it is set. -/
theorem run_not_denotes : ¬ ∀ (prog : StrProg) (evs : List (Heap × StrOp)) (s : StrSys),
    Run (Step prog) (init prog) evs s → ∀ n, s.mem (.literal n) = const (prog.literal n) := by
  intro h
  have hlit := h oneLiteral [(plenty, .setString 0 [.whole (.literal 0)]), (plenty, .setByte 0 0 65)] _
    (.cons trivial (.done rfl) (.cons trivial (.done rfl) (.nil _))) 0
  cases hlit

end StrSys

end RimStone
