import RimStone.Manager.Workers
import RimStone.Lib.Run
import RimStone.Lib.Yields

/-!
# How many workers there are

`plist` has as many slots as there may be workers, so there are never more, and what is to be shown
is that no index leaves it, that a new worker's id is not in a slot already, that there are enough
workers left where one is stopped because there are too many, and that one is added where they are
too few. An id is in a slot already if its worker died unseen and the id is given again; too few are
left if some die between being counted and the stop; and none is added where only one more would
fit, since `totprocess () < num_process - 1` is asked there.
-/

namespace RimStone

open RimStone.Lib

/-! ## The options -/

namespace MrimOpts

variable {o o' : MrimOpts}

structure Read (o : MrimOpts) : Prop where
  min : 0 ≤ o.numToStartMin
  unset : o.minmaxset = false → o.numworkset = false → o.numToStartMin = 5 ∧ o.maxproc = 0
  work : o.minmaxset = false → o.numworkset = true → o.maxproc = o.numToStartMin ∧ 1 ≤ o.maxproc

structure Accepted (o : MrimOpts) : Prop where
  min : 0 ≤ o.numToStartMin
  max : o.numToStartMin ≤ o.maxproc
  room : o.adapt = true → o.numToStartMin < o.maxproc

theorem Read.next (h : Read o) (a : MrimOpt) : Yields (fun _ => True) Read (o.read a) := by
  cases a with
  | minWorker n =>
    refine .check trivial fun hn => .ok ⟨?_, fun hu => (nomatch hu), fun hu => (nomatch hu)⟩
    show 0 ≤ n
    omega
  | maxWorker n => exact .ok ⟨h.min, fun hu => (nomatch hu), fun hu => (nomatch hu)⟩
  | doNotRestart => exact .ok ⟨h.min, h.unset, h.work⟩
  | noReload => exact .ok ⟨h.min, h.unset, h.work⟩
  | spike t => exact .check trivial fun _ => .ok ⟨h.min, h.unset, h.work⟩
  | adaptive => exact .ok ⟨h.min, h.unset, h.work⟩
  | sleep ms => exact .check trivial fun _ => .ok ⟨h.min, h.unset, h.work⟩
  | workers n =>
    refine .check trivial fun hn => ?_
    have hpos : 1 ≤ n := by omega
    exact .ok ⟨by show 0 ≤ n; omega, fun _ hw => (nomatch hw), fun _ _ => ⟨rfl, hpos⟩⟩

theorem Read.check (h : Read o) : Yields (fun _ => True) Accepted o.check := by
  unfold MrimOpts.check
  refine .check trivial fun hminmax => .check trivial fun hboth => .check trivial fun _ => ?_
  refine .check trivial fun hmax => .check trivial fun hroom => ?_
  have hmin := h.min
  have hunset := h.unset
  have hwork := h.work
  simp only [defaultMax] at hmax hroom ⊢
  cases hmm : o.minmaxset with
  | true =>
    have hlt := Int.lt_of_not_ge fun hle => hroom ⟨hmm, hle⟩
    exact .ok ⟨hmin, Int.le_of_lt hlt, fun _ => hlt⟩
  | false =>
    cases hnw : o.numworkset with
    | false =>
      obtain ⟨hfive, hzero⟩ := hunset hmm hnw
      simp only [hzero, hfive, Bool.not_false, Bool.or_true, ne_eq, not_true_eq_false, if_false, if_true]
      exact .ok ⟨by simp, by simp, fun _ => by simp⟩
    | true =>
      obtain ⟨heq, hone⟩ := hwork hmm hnw
      have hne : o.maxproc ≠ 0 := by omega
      rw [hnw] at hboth
      simp only [Bool.not_true, Bool.or_false, and_true] at hboth
      have hadapt : o.adapt = false := Bool.eq_false_iff.mpr hboth
      refine .ok ⟨hmin, ?_, fun ha => ?_⟩
      · rw [if_pos hne]
        exact Int.le_of_eq heq.symm
      · simp only [hadapt, Bool.not_true, Bool.or_false] at ha
        cases ha

theorem parse_accepted {args : List MrimOpt} (h : parse args = .ok o) : Accepted o := by
  have hread : Yields (fun _ => True) Read (args.foldlM read {}) :=
    Yields.foldlM (fun a _ o ho => ho.next a) ⟨by decide, fun _ _ => ⟨rfl, rfl⟩, fun _ hw => (nomatch hw)⟩
  exact (hread.bind fun o ho => ho.check).of_ok h

end MrimOpts

/-! ## What there is to see -/

/-- Whether workers are stopped after what is seen. -/
def stoppedBy : Bool → MrimNote → Bool
  | _, .received (.ask .stop) => true
  | _, .received (.ask .start) => false
  | _, .received (.ask .restart) => false
  | stopped, _ => stopped

def stoppedAfter (log : List MrimNote) : Bool := log.foldl stoppedBy false

/-- No worker is started while workers are stopped. -/
def ObeysStop (log : List MrimNote) : Prop :=
  ∀ pre suf slot pid plist, log = pre ++ .started slot pid plist :: suf → stoppedAfter pre = false

def SlotsDistinct (plist : List Int) : Prop :=
  ∀ (i j : Nat) (p : Int), plist[i]? = some p → plist[j]? = some p → p ≠ -1 → i = j

theorem stoppedAfter_concat (log : List MrimNote) (note : MrimNote) :
    stoppedAfter (log ++ [note]) = stoppedBy (stoppedAfter log) note := by
  unfold stoppedAfter
  rw [List.foldl_append]
  rfl

theorem ObeysStop.concat {log : List MrimNote} (h : ObeysStop log) {note : MrimNote}
    (hnote : ∀ slot pid plist, note = .started slot pid plist → stoppedAfter log = false) :
    ObeysStop (log ++ [note]) := by
  intro pre suf slot pid plist heq
  cases List.eq_nil_or_concat suf with
  | inl hsuf =>
    subst hsuf
    obtain ⟨rfl, hlast⟩ := List.append_inj' heq rfl
    exact hnote slot pid plist (List.cons.inj hlast).1
  | inr hsuf =>
    obtain ⟨suf', last, rfl⟩ := hsuf
    rw [List.concat_eq_append, ← List.cons_append, ← List.append_assoc] at heq
    exact h pre suf' slot pid plist (List.append_inj' heq rfl).1

theorem SlotsDistinct.replicate (n : Nat) : SlotsDistinct (List.replicate n (-1)) := by
  intro i j p hi _ hp
  rw [List.getElem?_replicate] at hi
  split at hi
  · exact absurd (Option.some.inj hi).symm hp
  · cases hi

/-- What is put into a slot is not in another, or is no process. -/
theorem SlotsDistinct.set {plist : List Int} (h : SlotsDistinct plist) {k : Nat} {q : Int} (hq : q = -1 ∨ q ∉ plist) :
    SlotsDistinct (plist.set k q) := by
  have hother : ∀ (j : Nat) (p : Int), k ≠ j → p = q → plist[j]? = some p → p = -1 := by
    intro j p _ hpq hj
    cases hq with
    | inl hq => exact hpq.trans hq
    | inr hq => exact absurd (List.mem_of_getElem? (hpq ▸ hj)) hq
  intro i j p hi hj hp
  rw [List.getElem?_set] at hi hj
  split at hi
  next hki =>
    split at hj
    next hkj => exact hki.symm.trans hkj
    next hkj =>
      split at hi
      · exact absurd (hother j p hkj (Option.some.inj hi).symm hj) hp
      · cases hi
  next hki =>
    split at hj
    next hkj =>
      split at hj
      · exact absurd (hother i p hki (Option.some.inj hj).symm hi) hp
      · cases hj
    next hkj => exact h i j p hi hj hp

namespace Mrim

variable {host : MrimHost} {o : MrimOpts} {m m' m'' : Mrim} {i n tot : Nat} {p : Int}

/-! ## What every call keeps -/

structure Sound (o : MrimOpts) (m : Mrim) : Prop where
  slots : m.plist.length = o.maxproc.toNat
  distinct : SlotsDistinct m.plist
  started : ∀ slot pid plist, .started slot pid plist ∈ m.log → SlotsDistinct plist
  workers : ∀ p ∈ m.alive, 1 < p
  downsized : ∀ k : Nat, .downsized k ∈ m.log → o.numToStartMin ≤ k
  obeys : ObeysStop m.log

structure Kept (o : MrimOpts) (m m' : Mrim) : Prop where
  sound : Sound o m'
  stopped : stoppedAfter m'.log = stoppedAfter m.log
  tempNoRestart : m'.tempNoRestart = m.tempNoRestart
  shrinking : m'.shrinking = m.shrinking

theorem Kept.trans (h : Kept o m m') (h' : Kept o m' m'') : Kept o m m'' :=
  ⟨h'.sound, h'.stopped.trans h.stopped, h'.tempNoRestart.trans h.tempNoRestart, h'.shrinking.trans h.shrinking⟩

theorem Sound.kept (h : Sound o m) : Kept o m m := ⟨h, rfl, rfl, rfl⟩

theorem Sound.tick (h : Sound o m) (host : MrimHost) : Kept o m (m.tick host) :=
  ⟨⟨h.slots, h.distinct, h.started, fun p hp => h.workers p (List.mem_filter.mp hp).1, h.downsized, h.obeys⟩, rfl, rfl, rfl⟩

theorem Sound.clear (h : Sound o m) (i : Nat) : Kept o m { m with plist := m.plist.set i (-1) } :=
  ⟨⟨by rw [List.length_set]; exact h.slots, h.distinct.set (.inl rfl), h.started, h.workers, h.downsized, h.obeys⟩,
    rfl, rfl, rfl⟩

theorem Sound.count (h : Sound o m) (p : Int) : Kept o m (m.count p) :=
  ⟨⟨h.slots, h.distinct, h.started, h.workers, h.downsized, h.obeys⟩, rfl, rfl, rfl⟩

theorem slot_eq (hi : i < m.plist.length) : m.slot i = .ok (m.plist[i]) := by
  unfold slot
  rw [List.getElem?_eq_getElem hi]
  rfl

theorem setSlot_eq (hi : i < m.plist.length) (p : Int) : m.setSlot i p = .ok { m with plist := m.plist.set i p } := by
  unfold setSlot
  rw [if_pos hi]

/-! ## One call -/

/-- Connections stay pending, starts succeed and nothing else happens. -/
structure Pending (host : MrimHost) : Prop where
  connected : ∀ m, host.conn m = true
  steady : ∀ m, host.died m = []
  starts : ∀ m, host.canStart m = true
  forks : ∀ m, ∃ p, host.forked m = some p
  unmodified : ∀ m, host.modified m = false
  quiet : ∀ m, host.command m = none

def FreshIds (host : MrimHost) : Prop := ∀ m p, host.forked m = some p → p ∉ m.plist

def Steady (host : MrimHost) (shrinking : Bool) : Prop :=
  ∀ m, m.shrinking = shrinking → ∀ p ∈ host.died m, p ∉ m.counted

def Ends (host : MrimHost) (e : MrimEnd) : Prop := e = .exited ∧ ¬ Pending host

/-- There are so many more workers, if nothing else happens. -/
def Grows (host : MrimHost) (k : Nat) (m m' : Mrim) : Prop := Pending host → m.live + k ≤ m'.live

theorem Pending.steady_all (h : Pending host) (shrinking : Bool) : Steady host shrinking := by
  intro m _ p hp
  rw [h.steady m] at hp
  cases hp

theorem Grows.trans {k l : Nat} (h : Grows host k m m') (h' : Grows host l m' m'') : Grows host (k + l) m m'' := by
  intro hpend
  have hk := h hpend
  have hl := h' hpend
  omega

theorem live_tick (h : Pending host) : (m.tick host).live = m.live := by
  have halive : (m.tick host).alive = m.alive := by
    show m.alive.filter (· ∉ host.died m) = m.alive
    rw [h.steady m]
    exact List.filter_eq_self.mpr fun p _ => decide_eq_true (List.not_mem_nil)
  unfold live
  rw [halive]
  rfl

theorem Sound.neg_one_notMem (h : Sound o m) : (-1 : Int) ∉ m.alive := fun hmem => by
  have := h.workers _ hmem
  omega

theorem Sound.live_clear (h : Sound o m) (hi : i < m.plist.length) :
    live { m with plist := m.plist.set i (-1) } = m.live - if m.plist[i] ∈ m.alive then 1 else 0 := by
  unfold live
  rw [List.countP_set hi]
  simp only [h.neg_one_notMem, decide_false, Bool.false_eq_true, if_false, Nat.add_zero, decide_eq_true_eq]

theorem Sound.whatisprocess_eq (h : Sound o m) : (m.whatisprocess host p).2 = -1 ↔ p ∉ (m.tick host).alive := by
  show (if p ∈ (m.tick host).alive then (if host.changed (m.tick host) then -p else p) else -1) = -1 ↔ _
  by_cases hp : p ∈ (m.tick host).alive
  · have hpos := (h.tick host).sound.workers p hp
    rw [if_pos hp]
    refine ⟨fun heq => ?_, fun hn => absurd hp hn⟩
    split at heq <;> omega
  · rw [if_neg hp]
    exact ⟨fun _ => hp, fun _ => rfl⟩

/-- `whatisprocess` gives one of three answers. -/
theorem whatisprocess_answer (p : Int) :
    ¬ ((m.whatisprocess host p).2 ≠ p ∧ (m.whatisprocess host p).2 ≠ -p ∧ (m.whatisprocess host p).2 ≠ -1) := by
  unfold whatisprocess
  rintro ⟨hp, hneg, hone⟩
  dsimp only at hp hneg hone
  split at hp
  next hmem =>
    rw [if_pos hmem] at hneg
    split at hp
    next hch => exact hneg (if_pos hch)
    next => exact hp rfl
  next hmem => exact hone (if_neg hmem)

theorem Sound.forkChild (h : Sound o m) (hi : i < m.plist.length) (hfresh : FreshIds host)
    (hrun : stoppedAfter m.log = false) :
    Yields (Ends host) (fun m' => Kept o m m' ∧ (m.plist[i] = -1 → m.live + 1 ≤ m'.live)) (m.forkChild host i) := by
  unfold Mrim.forkChild
  cases hf : host.forked m with
  | none =>
    refine ⟨rfl, fun hpend => ?_⟩
    obtain ⟨p, hp⟩ := hpend.forks m
    rw [hf] at hp
    cases hp
  | some p =>
    obtain ⟨hpos, hnew⟩ := host.forked_new m p hf
    have hdist : SlotsDistinct (m.plist.set i p) := h.distinct.set (.inr (hfresh m p hf))
    dsimp only
    rw [setSlot_eq (m := { m with alive := p :: m.alive }) hi]
    refine .ok ⟨⟨⟨?_, hdist, ?_, ?_, ?_, ?_⟩, ?_, rfl, rfl⟩, ?_⟩
    · show (m.plist.set i p).length = _
      rw [List.length_set]
      exact h.slots
    · intro slot pid plist hmem
      cases List.mem_append.mp hmem with
      | inl hold => exact h.started slot pid plist hold
      | inr hlast =>
        cases List.mem_singleton.mp hlast
        exact hdist
    · intro q hq
      cases List.mem_cons.mp hq with
      | inl hq => exact hq ▸ hpos
      | inr hq => exact h.workers q hq
    · intro k hmem
      cases List.mem_append.mp hmem with
      | inl hold => exact h.downsized k hold
      | inr hlast => cases List.mem_singleton.mp hlast
    · exact h.obeys.concat fun _ _ _ _ => hrun
    · exact stoppedAfter_concat m.log _
    · intro hfree
      show m.live + 1 ≤ (m.plist.set i p).countP (· ∈ p :: m.alive)
      have hmono : m.plist.countP (· ∈ m.alive) ≤ m.plist.countP (· ∈ p :: m.alive) :=
        List.countP_mono_left fun q _ hq => decide_eq_true (List.mem_cons_of_mem p (of_decide_eq_true hq))
      have hnone : (-1 : Int) ∉ p :: m.alive := by
        intro hmem
        cases List.mem_cons.mp hmem with
        | inl heq => omega
        | inr hmem => exact h.neg_one_notMem hmem
      rw [List.countP_set hi, hfree]
      simp only [hnone, decide_false, Bool.false_eq_true, if_false, Nat.sub_zero, List.mem_cons_self, decide_true, if_true]
      exact Nat.add_le_add_right hmono 1

theorem Sound.startChild (h : Sound o m) (hi : i < m.plist.length) (hfresh : FreshIds host)
    (hrun : stoppedAfter m.log = false) :
    Yields (Ends host) (fun m' => Kept o m m' ∧ (m.plist[i] = -1 → Grows host 1 m m')) (m.startChild host i) := by
  have htick := h.tick host
  unfold Mrim.startChild
  dsimp only
  split
  next =>
    refine (htick.sound.forkChild hi hfresh hrun).mono fun m' hm => ⟨htick.trans hm.1, fun hfree hpend => ?_⟩
    rw [← live_tick hpend]
    exact hm.2 hfree
  next hno => exact .ok ⟨htick, fun _ hpend => absurd (hpend.starts _) hno⟩

/-! ## `totprocess` -/

structure Looked (host : MrimHost) (o : MrimOpts) (m m' : Mrim) : Prop where
  kept : Kept o m m'
  live : Pending host → m'.live = m.live
  free : ∀ j : Nat, m.plist[j]? = some (-1) → m'.plist[j]? = some (-1)

/-- The slots before `i` that are not free are of `tot` workers, all counted. -/
structure Counts (i tot : Nat) (m : Mrim) : Prop where
  running : ∀ p ∈ m.plist.take i, p ≠ -1 → p ∈ m.counted ∧ p ∈ m.alive
  total : tot = (m.plist.take i).countP (· ≠ -1)

theorem Looked.trans (h : Looked host o m m') (h' : Looked host o m' m'') : Looked host o m m'' :=
  ⟨h.kept.trans h'.kept, fun hp => (h'.live hp).trans (h.live hp), fun j hj => h'.free j (h.free j hj)⟩

theorem Sound.looked (h : Sound o m) : Looked host o m m := ⟨h.kept, fun _ => rfl, fun _ hj => hj⟩

theorem Sound.looked_tick (h : Sound o m) (host : MrimHost) : Looked host o m (m.tick host) :=
  ⟨h.tick host, live_tick, fun _ hj => hj⟩

/-- A slot is cleared whose worker is dead. -/
theorem Sound.looked_clear (h : Sound o m) (host : MrimHost) (hi : i < m.plist.length) (hdead : m.plist[i] ∉ m.alive) :
    Looked host o m { m with plist := m.plist.set i (-1) } := by
  refine ⟨h.clear i, fun _ => ?_, fun j hj => ?_⟩
  · rw [h.live_clear hi, if_neg hdead, Nat.sub_zero]
  · show (m.plist.set i (-1))[j]? = some (-1)
    rw [List.getElem?_set]
    split
    next => rfl
    next => exact hj

theorem Sound.looked_count (h : Sound o m) (host : MrimHost) (p : Int) : Looked host o m (m.count p) :=
  ⟨h.count p, fun _ => rfl, fun _ hj => hj⟩

theorem Counts.start (m : Mrim) : Counts 0 0 m := by
  refine ⟨fun p hp => ?_, ?_⟩
  · rw [List.take_zero] at hp
    cases hp
  · rw [List.take_zero]
    rfl

theorem Counts.tick (h : Counts i tot m) (hst : Steady host m.shrinking) : Counts i tot (m.tick host) := by
  refine ⟨fun p hp hne => ?_, h.total⟩
  obtain ⟨hcounted, halive⟩ := h.running p hp hne
  refine ⟨hcounted, List.mem_filter.mpr ⟨halive, decide_eq_true fun hdied => ?_⟩⟩
  exact hst m rfl p hdied hcounted

theorem Counts.skip (h : Counts i tot m) (hi : i < m.plist.length) (hfree : m.plist[i] = -1) : Counts (i + 1) tot m := by
  have htake : m.plist.take (i + 1) = m.plist.take i ++ [-1] := by
    rw [List.take_succ_eq_append_getElem hi, hfree]
  refine ⟨fun p hp hne => ?_, ?_⟩
  · rw [htake] at hp
    cases List.mem_append.mp hp with
    | inl hp => exact h.running p hp hne
    | inr hp => exact absurd (List.mem_singleton.mp hp) hne
  · rw [htake, List.countP_append, ← h.total]
    rfl

theorem Counts.clear (h : Counts i tot m) (hi : i < m.plist.length) :
    Counts (i + 1) tot { m with plist := m.plist.set i (-1) } := by
  have hset : Counts i tot { m with plist := m.plist.set i (-1) } := by
    refine ⟨fun p hp hne => h.running p ?_ hne, ?_⟩
    · rw [List.take_set_of_le (Nat.le_refl i)] at hp
      exact hp
    · rw [List.take_set_of_le (Nat.le_refl i)]
      exact h.total
  refine hset.skip ?_ ?_
  · show i < (m.plist.set i (-1)).length
    rw [List.length_set]
    exact hi
  · exact List.getElem_set_self _

theorem Counts.count (h : Counts i tot m) (hi : i < m.plist.length) (hne : m.plist[i] ≠ -1)
    (halive : m.plist[i] ∈ m.alive) : Counts (i + 1) (tot + 1) (m.count m.plist[i]) := by
  have htake : m.plist.take (i + 1) = m.plist.take i ++ [m.plist[i]] := List.take_succ_eq_append_getElem hi
  refine ⟨fun p hp hp1 => ?_, ?_⟩
  · rw [show (m.count m.plist[i]).plist = m.plist from rfl, htake] at hp
    cases List.mem_append.mp hp with
    | inl hp =>
      obtain ⟨hcounted, hrunning⟩ := h.running p hp hp1
      exact ⟨List.mem_cons_of_mem _ hcounted, hrunning⟩
    | inr hp =>
      cases List.mem_singleton.mp hp
      exact ⟨List.mem_cons_self, halive⟩
  · rw [show (m.count m.plist[i]).plist = m.plist from rfl, htake, List.countP_append, ← h.total]
    simp only [List.countP_singleton, decide_eq_true_eq, if_pos hne]

/-- All that are counted in all slots are alive. -/
theorem Counts.live (h : Counts m.plist.length tot m) (hs : Sound o m) : m.live = tot := by
  obtain ⟨hrunning, htotal⟩ := h
  rw [List.take_length] at hrunning htotal
  rw [htotal]
  refine List.countP_congr fun p hp => ?_
  simp only [decide_eq_true_eq]
  exact ⟨fun hmem heq => hs.neg_one_notMem (heq ▸ hmem), fun hne => (hrunning p hp hne).2⟩

/-- There is a free slot if not so many are counted. -/
theorem Counts.free (h : Counts i tot m) (hlt : tot < (m.plist.take i).length) : ∃ j : Nat, m.plist[j]? = some (-1) := by
  have hmem : (-1 : Int) ∈ m.plist.take i := by
    refine Decidable.byContradiction fun hno => ?_
    have hall : (m.plist.take i).countP (· ≠ -1) = (m.plist.take i).length :=
      List.countP_eq_length.mpr fun p hp => decide_eq_true fun heq => hno (heq ▸ hp)
    rw [← h.total] at hall
    omega
  exact List.mem_iff_getElem?.mp (List.mem_of_mem_take hmem)

theorem Sound.totprocessLoop (n : Nat) : ∀ {i tot : Nat} {m : Mrim}, Sound o m → i + n = o.maxproc.toNat →
    Yields (Ends host)
      (fun r => Looked host o m r.1 ∧ (Steady host m.shrinking → Counts i tot m → Counts o.maxproc.toNat r.2 r.1))
      (totprocessLoop host n i tot m) := by
  induction n with
  | zero =>
    intro i tot m h hin
    exact .ok ⟨h.looked, fun _ hc => hin ▸ hc⟩
  | succ n ih =>
    intro i tot m h hin
    have hi : i < m.plist.length := by
      rw [h.slots]
      omega
    have hnext : i + 1 + n = o.maxproc.toNat := by omega
    have htick := h.looked_tick host
    unfold Mrim.totprocessLoop
    rw [slot_eq hi]
    show Yields _ _ (if m.plist[i] = -1 then _ else _)
    split
    next hfree =>
      refine (ih h hnext).mono fun r hr => ⟨hr.1, fun hst hc => hr.2 hst (hc.skip hi hfree)⟩
    next hne =>
      split
      next hdead =>
        have hclear := htick.kept.sound.looked_clear host hi (h.whatisprocess_eq.mp hdead)
        rw [show (m.whatisprocess host m.plist[i]).1 = m.tick host from rfl, setSlot_eq (m := m.tick host) hi]
        refine (ih hclear.kept.sound hnext).mono fun r hr => ⟨(htick.trans hclear).trans hr.1, fun hst hc => ?_⟩
        exact hr.2 hst ((hc.tick hst).clear hi)
      next hrun =>
        have halive : m.plist[i] ∈ (m.tick host).alive := by
          by_cases hmem : m.plist[i] ∈ (m.tick host).alive
          · exact hmem
          · exact absurd (h.whatisprocess_eq.mpr hmem) hrun
        have hcount := htick.kept.sound.looked_count host m.plist[i]
        refine (ih hcount.kept.sound hnext).mono fun r hr => ⟨(htick.trans hcount).trans hr.1, fun hst hc => ?_⟩
        exact hr.2 hst ((hc.tick hst).count hi hne halive)

theorem Sound.totprocess (h : Sound o m) : Yields (Ends host)
      (fun r => Looked host o m r.1 ∧ (Steady host m.shrinking → Counts o.maxproc.toNat r.2 r.1))
      (m.totprocess host o) := by
  have hreset : Looked host o m { m with counted := [] } :=
    ⟨⟨⟨h.slots, h.distinct, h.started, h.workers, h.downsized, h.obeys⟩, rfl, rfl, rfl⟩, fun _ => rfl, fun _ hj => hj⟩
  refine (hreset.kept.sound.totprocessLoop o.maxproc.toNat (Nat.zero_add _)).mono fun r hr => ?_
  exact ⟨hreset.trans hr.1, fun hst => hr.2 hst (Counts.start _)⟩

/-! ## `processup` -/

/-- A worker for a free slot, if one is wanted, and then the slots after it. -/
theorem Sound.raise {addone : Bool} (h : Sound o m) (hi : i < m.plist.length) (hfree : m.plist[i] = -1)
    (hfresh : FreshIds host) (hrun : stoppedAfter m.log = false) {next : Nat → Mrim → Except MrimEnd Mrim}
    (hnext : ∀ tot m', Sound o m' → stoppedAfter m'.log = false →
      Yields (Ends host) (fun m'' => Kept o m' m'' ∧ Grows host 0 m' m'') (next tot m')) :
    Yields (Ends host) (fun m' => Kept o m m' ∧ Grows host 0 m m' ∧ (addone = true → Grows host 1 m m'))
      (if isWanted o addone tot then do
        let m ← m.startChild host i
        if addone then return m else next (tot + 1) m
      else next tot m) := by
  split
  next =>
    refine (h.startChild hi hfresh hrun).bind fun m' hm => ?_
    have hgrows : Grows host 1 m m' := hm.2 hfree
    split
    next =>
      exact .ok ⟨hm.1, fun hp => Nat.le_of_succ_le (hgrows hp), fun _ => hgrows⟩
    next hno =>
      refine (hnext _ m' hm.1.sound (hm.1.stopped.trans hrun)).mono fun m'' hm' => ?_
      refine ⟨hm.1.trans hm'.1, fun hp => ?_, fun ha => absurd ha hno⟩
      exact Nat.le_of_succ_le ((hgrows.trans hm'.2) hp)
  next hno =>
    refine (hnext _ m h hrun).mono fun m' hm => ⟨hm.1, hm.2, fun ha => ?_⟩
    refine absurd ?_ hno
    unfold isWanted
    rw [ha, Bool.or_true]

theorem Sound.processupLoop {addone : Bool} (hfresh : FreshIds host) (n : Nat) :
    ∀ {i tot : Nat} {m : Mrim}, Sound o m → stoppedAfter m.log = false → i + n = o.maxproc.toNat → Yields (Ends host)
        (fun m' => Kept o m m' ∧ Grows host 0 m m' ∧
          (addone = true → (∃ j, i ≤ j ∧ m.plist[j]? = some (-1)) → Grows host 1 m m'))
        (processupLoop host o addone n i tot m) := by
  induction n with
  | zero =>
    intro i tot m h _ hin
    refine .ok ⟨h.kept, fun _ => Nat.le_refl _, fun _ hfree => ?_⟩
    obtain ⟨j, hij, hj⟩ := hfree
    have hlt := (List.getElem?_eq_some_iff.mp hj).1
    rw [h.slots] at hlt
    omega
  | succ n ih =>
    intro i tot m h hrun hin
    have hi : i < m.plist.length := by
      rw [h.slots]
      omega
    have hnext : i + 1 + n = o.maxproc.toNat := by omega
    have hrest : ∀ tot m', Sound o m' → stoppedAfter m'.log = false →
        Yields (Ends host) (fun m'' => Kept o m' m'' ∧ Grows host 0 m' m'')
          (Mrim.processupLoop host o addone n (i + 1) tot m') :=
      fun tot m' hs hr => (ih hs hr hnext).mono fun m'' hm => ⟨hm.1, hm.2.1⟩
    have htick := h.looked_tick host
    unfold Mrim.processupLoop
    rw [slot_eq hi]
    show Yields _ _ (if m.plist[i] = -1 then _ else _)
    split
    next hfree =>
      exact (h.raise hi hfree hfresh hrun hrest).mono fun m' hm => ⟨hm.1, hm.2.1, fun ha _ => hm.2.2 ha⟩
    next hne =>
      split
      next hdead =>
        have hclear := htick.trans
          (htick.kept.sound.looked_clear host hi (h.whatisprocess_eq.mp hdead))
        rw [show (m.whatisprocess host m.plist[i]).1 = m.tick host from rfl, setSlot_eq (m := m.tick host) hi]
        have hi' : i < (m.plist.set i (-1)).length := by
          rw [List.length_set]
          exact hi
        refine (hclear.kept.sound.raise hi' (List.getElem_set_self hi') hfresh (hclear.kept.stopped.trans hrun) hrest).mono ?_
        intro m' hm
        refine ⟨hclear.kept.trans hm.1, fun hp => ?_, fun ha _ hp => ?_⟩
        · exact (hclear.live hp).symm ▸ hm.2.1 hp
        · exact (hclear.live hp).symm ▸ hm.2.2 ha hp
      next =>
        refine (ih htick.kept.sound (htick.kept.stopped.trans hrun) hnext).mono fun m' hm => ?_
        refine ⟨htick.kept.trans hm.1, fun hp => ?_, fun ha hfree hp => ?_⟩
        · exact (htick.live hp).symm ▸ hm.2.1 hp
        · obtain ⟨j, hij, hj⟩ := hfree
          have hlt : i + 1 ≤ j := by
            cases Nat.eq_or_lt_of_le hij with
            | inl heq =>
              subst heq
              rw [List.getElem?_eq_getElem hi] at hj
              exact absurd (Option.some.inj hj) hne
            | inr hlt => exact hlt
          exact (htick.live hp).symm ▸ hm.2.2 ha ⟨j, hlt, hj⟩ hp

theorem Sound.processup {addone : Bool} (h : Sound o m) (hfresh : FreshIds host) (hrun : stoppedAfter m.log = false) :
    Yields (Ends host)
      (fun m' => Kept o m m' ∧ Grows host 0 m m' ∧
        (addone = true → (∃ j : Nat, m.plist[j]? = some (-1)) → Grows host 1 m m'))
      (m.processup host o addone) := by
  unfold Mrim.processup
  split
  next =>
    refine h.totprocess.bind fun r hr => ?_
    obtain ⟨hlooked, _⟩ := hr
    refine (hlooked.kept.sound.processupLoop hfresh o.maxproc.toNat (hlooked.kept.stopped.trans hrun) (Nat.zero_add _)).mono ?_
    intro m' hm
    refine ⟨hlooked.kept.trans hm.1, fun hp => ?_, fun ha hfree hp => ?_⟩
    · exact hlooked.live hp ▸ hm.2.1 hp
    · obtain ⟨j, hj⟩ := hfree
      exact hlooked.live hp ▸ hm.2.2 ha ⟨j, Nat.zero_le j, hlooked.free j hj⟩ hp
  next =>
    refine (h.processupLoop hfresh o.maxproc.toNat hrun (Nat.zero_add _)).mono fun m' hm => ⟨hm.1, hm.2.1, ?_⟩
    intro ha hfree
    obtain ⟨j, hj⟩ := hfree
    exact hm.2.2 ha ⟨j, Nat.zero_le j, hj⟩

/-! ## `handlestop` -/

/-- More workers are counted than there have to be. -/
def Over (o : MrimOpts) (m : Mrim) : Prop :=
  ∃ tot, Counts o.maxproc.toNat tot m ∧ o.numToStartMin < (tot : Int)

/-- The one that is stopped is one too many. -/
theorem Sound.downsized_one (h : Sound o m) (hi : i < m.plist.length) (hover : Over o m) :
    Kept o m { m with plist := m.plist.set i (-1), log := m.log ++ [.downsized (live { m with plist := m.plist.set i (-1) })] } := by
  obtain ⟨tot, hcounts, hlt⟩ := hover
  have hlive : m.live = tot := Counts.live (h.slots.symm ▸ hcounts) h
  have hclear := h.clear i
  refine ⟨⟨hclear.sound.slots, hclear.sound.distinct, ?_, h.workers, ?_, ?_⟩, ?_, rfl, rfl⟩
  · intro slot pid plist hmem
    cases List.mem_append.mp hmem with
    | inl hold => exact h.started slot pid plist hold
    | inr hlast => cases List.mem_singleton.mp hlast
  · intro k hmem
    cases List.mem_append.mp hmem with
    | inl hold => exact h.downsized k hold
    | inr hlast =>
      cases List.mem_singleton.mp hlast
      rw [h.live_clear hi]
      split <;> omega
  · exact h.obeys.concat fun _ _ _ hnote => (nomatch hnote)
  · exact stoppedAfter_concat m.log _

theorem Sound.handlestopLoop {one : Bool} (n : Nat) :
    ∀ {i : Nat} {m : Mrim}, Sound o m → i + n = o.maxproc.toNat →
      (one = true → Steady host m.shrinking ∧ Over o m) →
      Yields (Ends host) (Kept o m) (handlestopLoop host one n i m) := by
  induction n with
  | zero =>
    intro i m h _ _
    exact .ok h.kept
  | succ n ih =>
    intro i m h hin hone
    have hi : i < m.plist.length := by
      rw [h.slots]
      omega
    have hnext : i + 1 + n = o.maxproc.toNat := by omega
    have htick := h.tick host
    unfold Mrim.handlestopLoop
    rw [slot_eq hi]
    show Yields _ _ (if m.plist[i] = -1 then _ else _)
    split
    next => exact ih h hnext hone
    next =>
      rw [if_neg (whatisprocess_answer m.plist[i])]
      rw [show (m.whatisprocess host m.plist[i]).1 = m.tick host from rfl, setSlot_eq (m := m.tick host) hi]
      have hclear := htick.trans (htick.sound.clear i)
      show Yields _ _ (if one = true then _ else _)
      split
      next hstop =>
        obtain ⟨hst, tot, hcounts, hlt⟩ := hone hstop
        exact .ok (htick.trans (htick.sound.downsized_one hi ⟨tot, hcounts.tick hst, hlt⟩))
      next hall =>
        exact (ih hclear.sound hnext fun hstop => absurd hstop hall).mono fun m' hm => hclear.trans hm

theorem Sound.handlestop {one : Bool} (h : Sound o m) (hone : one = true → Steady host m.shrinking ∧ Over o m) :
    Yields (Ends host) (Kept o m) (m.handlestop host o one) :=
  h.handlestopLoop o.maxproc.toNat (Nat.zero_add _) hone

theorem Sound.handlestop_all (h : Sound o m) : Yields (Ends host) (Kept o m) (m.handlestop host o false) :=
  h.handlestop fun hone => absurd hone Bool.false_ne_true

/-! ## A round -/

/-- What is asked of the answers of the system in a round: a new id is not in a slot still, no worker
that is counted dies while one is to be stopped, and if only one more worker would fit, then not only
connections are pending. -/
structure RoundGuard (o : MrimOpts) (m : Mrim) (host : MrimHost) : Prop where
  fresh : FreshIds host
  steady : Steady host true
  room : (m.live : Int) + 1 = o.maxproc → ¬ Pending host

theorem Sound.nspike (h : Sound o m) (k : Int) : Kept o m { m with nspike := k } :=
  ⟨⟨h.slots, h.distinct, h.started, h.workers, h.downsized, h.obeys⟩, rfl, rfl, rfl⟩

theorem Sound.grow (h : Sound o m) (hfresh : FreshIds host) (hrun : stoppedAfter m.log = false) : Yields (Ends host)
      (fun m' => Kept o m m' ∧ (o.adapt = true → (m.live : Int) < o.maxproc - 1 → Grows host 1 m m')) (m.grow host o) := by
  have hquiet := h.nspike 0
  have hsecond := hquiet.trans (hquiet.sound.tick host)
  have hthird := hsecond.trans (hsecond.sound.tick host)
  unfold Mrim.grow
  dsimp only [Mrim.connwait]
  split
  next hno =>
    refine .ok ⟨hsecond, fun _ _ hp => ?_⟩
    rw [hp.connected] at hno
    cases hno
  next =>
    split
    next hno =>
      refine .ok ⟨hthird, fun _ _ hp => ?_⟩
      rw [hp.connected] at hno
      cases hno
    next =>
      have hlive : Pending host → live (Mrim.tick host (Mrim.tick host { m with nspike := 0 })) = m.live :=
        fun hp => (live_tick hp).trans (live_tick hp)
      refine hthird.sound.totprocess.bind fun r hr => ?_
      obtain ⟨hlooked, hcounts⟩ := hr
      have hkept := hthird.trans hlooked.kept
      split
      next =>
        refine (hkept.sound.processup hfresh (hkept.stopped.trans hrun)).mono fun m' hm => ⟨hkept.trans hm.1, ?_⟩
        intro _ hlt hp
        have hc := hcounts (hp.steady_all _)
        have htotal : r.1.live = r.2 := Counts.live (hkept.sound.slots.symm ▸ hc) hkept.sound
        have hfree := hc.free (by rw [List.length_take, hkept.sound.slots]; omega)
        have hgrows := hm.2.2 rfl hfree hp
        rw [hlooked.live hp, hlive hp] at hgrows
        exact hgrows
      next hfull =>
        refine .ok ⟨hkept, fun _ hlt hp => ?_⟩
        have hc := hcounts (hp.steady_all _)
        have htotal : r.1.live = r.2 := Counts.live (hkept.sound.slots.symm ▸ hc) hkept.sound
        rw [hlooked.live hp, hlive hp] at htotal
        omega

theorem Sound.downsize (h : Sound o m) (hst : Steady host true) (hshr : m.shrinking = false) :
    Yields (Ends host) (Kept o m) (m.downsize host o) := by
  have hstart : Sound o { m with shrinking := true } := ⟨h.slots, h.distinct, h.started, h.workers, h.downsized, h.obeys⟩
  have hfinish : ∀ m', Kept o { m with shrinking := true } m' →
      Yields (Ends host) (Kept o m) (pure { m' with shrinking := false, nspike := 0 }) := by
    intro m' hm
    obtain ⟨hslots, hdistinct, hstarted, hworkers, hdownsized, hobeys⟩ := hm.sound
    exact .ok ⟨⟨hslots, hdistinct, hstarted, hworkers, hdownsized, hobeys⟩, hm.stopped, hm.tempNoRestart, hshr.symm⟩
  unfold Mrim.downsize
  refine hstart.totprocess.bind fun r hr => ?_
  obtain ⟨m', tot⟩ := r
  obtain ⟨hlooked, hcounts⟩ := hr
  dsimp only at hlooked hcounts ⊢
  split
  next hmany =>
    have hst' : Steady host m'.shrinking := by
      rw [hlooked.kept.shrinking]
      exact hst
    refine (hlooked.kept.sound.handlestop fun _ => ⟨hst', tot, hcounts hst, hmany⟩).bind fun m'' hm => ?_
    exact hfinish m'' (hlooked.kept.trans hm)
  next => exact hfinish m' hlooked.kept

theorem Sound.shrink (h : Sound o m) (hst : Steady host true) (hshr : m.shrinking = false) :
    Yields (Ends host) (Kept o m) (m.shrink host o) := by
  have hsecond := h.tick host
  have hthird := hsecond.trans (hsecond.sound.tick host)
  unfold Mrim.shrink
  dsimp only [Mrim.connwait]
  split
  next => exact .ok hsecond
  next =>
    split
    next => exact .ok hthird
    next =>
      have hspike := hthird.trans (hthird.sound.nspike (m.nspike + 1))
      split
      next => exact (hspike.sound.downsize hst (hspike.shrinking.trans hshr)).mono fun m' hm => hspike.trans hm
      next => exact .ok hspike

theorem Sound.adaptive (h : Sound o m) (hg : RoundGuard o m host) (hrun : stoppedAfter m.log = false)
    (hshr : m.shrinking = false) :
    Yields (Ends host) (fun m' => Kept o m m' ∧ (o.adapt = true → (m.live : Int) < o.maxproc - 1 → Grows host 1 m m'))
      (m.adaptive host o) := by
  have htick := h.tick host
  have hup : ∀ m', (Kept o m m' ∧ (o.adapt = true → (m.live : Int) < o.maxproc - 1 → Grows host 1 m m')) →
      Yields (Ends host)
        (fun m' => Kept o m m' ∧ (o.adapt = true → (m.live : Int) < o.maxproc - 1 → Grows host 1 m m'))
        (m'.processup host o false) := by
    intro m' hm
    refine (hm.1.sound.processup hg.fresh (hm.1.stopped.trans hrun)).mono fun m'' hm' => ?_
    exact ⟨hm.1.trans hm'.1, fun ha hlt => (hm.2 ha hlt).trans hm'.2.1⟩
  unfold Mrim.adaptive
  dsimp only [Mrim.connwait]
  split
  next =>
    refine (htick.sound.grow hg.fresh (htick.stopped.trans hrun)).bind fun m' hm =>
      hup m' ⟨htick.trans hm.1, fun ha hlt hp => ?_⟩
    have hgrows := hm.2 ha
    rw [Grows, live_tick hp] at hgrows
    exact hgrows hlt hp
  next hno =>
    refine (htick.sound.shrink hg.steady (htick.shrinking.trans hshr)).bind fun m' hm =>
      hup m' ⟨htick.trans hm, fun _ _ hp => ?_⟩
    exact absurd (hp.connected _) hno

theorem Sound.restart (h : Sound o m) (hfresh : FreshIds host) (hrun : stoppedAfter m.log = false) :
    Yields (Ends host) (fun m' => Kept o m m' ∧ Grows host 0 m m') (m.restart host o) := by
  have htick := h.tick host
  have hup : ∀ m', (Kept o m m' ∧ Grows host 0 m m') →
      Yields (Ends host) (fun m' => Kept o m m' ∧ Grows host 0 m m') (m'.processup host o false) := by
    intro m' hm
    refine (hm.1.sound.processup hfresh (hm.1.stopped.trans hrun)).mono fun m'' hm' => ?_
    exact ⟨hm.1.trans hm'.1, hm.2.trans hm'.2.1⟩
  unfold Mrim.restart
  dsimp only
  split
  next hmod =>
    refine htick.sound.handlestop_all.bind fun m' hm =>
      hup m' ⟨htick.trans hm, fun hp => ?_⟩
    rw [hp.unmodified, Bool.and_false] at hmod
    cases hmod
  next => exact hup _ ⟨htick, fun hp => Nat.le_of_eq (live_tick hp).symm⟩

/-! ## Rounds -/

structure Ready (o : MrimOpts) (m : Mrim) : Prop where
  sound : Sound o m
  stopped : stoppedAfter m.log = m.tempNoRestart
  shrinking : m.shrinking = false

theorem Kept.ready (hk : Kept o m m') (h : Ready o m) : Ready o m' :=
  ⟨hk.sound, hk.stopped.trans (h.stopped.trans hk.tempNoRestart.symm), hk.shrinking.trans h.shrinking⟩

theorem Sound.received (h : Sound o m) (comm : MrimCommand) : Sound o { m with log := m.log ++ [.received comm] } := by
  refine ⟨h.slots, h.distinct, fun slot pid plist hmem => ?_, h.workers, fun k hmem => ?_, ?_⟩
  · cases List.mem_append.mp hmem with
    | inl hold => exact h.started slot pid plist hold
    | inr hlast => cases List.mem_singleton.mp hlast
  · cases List.mem_append.mp hmem with
    | inl hold => exact h.downsized k hold
    | inr hlast => cases List.mem_singleton.mp hlast
  · exact h.obeys.concat fun _ _ _ hnote => (nomatch hnote)

theorem Sound.tempNoRestart (h : Sound o m) (b : Bool) : Sound o { m with tempNoRestart := b } :=
  ⟨h.slots, h.distinct, h.started, h.workers, h.downsized, h.obeys⟩

/-- A command leaves workers stopped if it says so. -/
theorem Ready.handleCommand (h : Ready o m) (hfresh : FreshIds host) (hp : ¬ Pending host) (comm : MrimCommand) :
    Yields (Ends host) (Ready o) (Mrim.handleCommand host o { m with log := m.log ++ [.received comm] } comm) := by
  have hs := h.sound.received comm
  have hafter : stoppedAfter (m.log ++ [.received comm]) = stoppedBy (stoppedAfter m.log) (.received comm) :=
    stoppedAfter_concat m.log _
  cases comm with
  | ask comm =>
    cases comm with
    | start =>
      exact ((hs.tempNoRestart false).processup hfresh hafter).mono fun m' hm =>
        ⟨hm.1.sound, (hm.1.stopped.trans hafter).trans hm.1.tempNoRestart.symm, hm.1.shrinking.trans h.shrinking⟩
    | stop =>
      refine hs.handlestop_all.bind fun m' hm => .ok ⟨hm.sound.tempNoRestart true, hm.stopped.trans hafter, ?_⟩
      exact hm.shrinking.trans h.shrinking
    | restart =>
      refine (hs.tempNoRestart false).handlestop_all.bind fun m' hm => ?_
      refine (hm.sound.processup hfresh (hm.stopped.trans hafter)).mono fun m'' hm' => ?_
      have hk := hm.trans hm'.1
      exact ⟨hk.sound, (hk.stopped.trans hafter).trans hk.tempNoRestart.symm, hk.shrinking.trans h.shrinking⟩
    | status => exact .ok ⟨hs, hafter.trans h.stopped, h.shrinking⟩
  | quit => exact hs.handlestop_all.bind fun m' _ => .error ⟨rfl, hp⟩
  | other => exact .ok ⟨hs, hafter.trans h.stopped, h.shrinking⟩

theorem Ready.checkshm (h : Ready o m) (hfresh : FreshIds host) :
    Yields (Ends host) (fun m' => Ready o m' ∧ Grows host 0 m m') (m.checkshm host o) := by
  have htick := (h.sound.tick host).ready h
  unfold Mrim.checkshm
  dsimp only
  split
  next => exact .ok ⟨htick, fun hp => Nat.le_of_eq (live_tick hp).symm⟩
  next comm hcomm =>
    have hp : ¬ Pending host := by
      intro hp
      rw [hp.quiet] at hcomm
      cases hcomm
    exact (htick.handleCommand hfresh hp comm).mono fun m' hm => ⟨hm, fun hpend => absurd hpend hp⟩

/-- The manager is to start one more worker if only connections are pending. -/
def Growing (o : MrimOpts) (m : Mrim) : Prop :=
  o.adapt = true ∧ m.tempNoRestart = false ∧ (m.live : Int) < o.maxproc

/-- What a round of the manager leaves. -/
theorem Ready.iteration (h : Ready o m) (hg : RoundGuard o m host) :
    Yields (Ends host) (fun m' => Ready o m' ∧ (Growing o m → Grows host 1 m m')) (m.iteration host o) := by
  have hlast : ∀ m', Ready o m' → (Growing o m → Grows host 1 m m') →
      Yields (Ends host) (fun m' => Ready o m' ∧ (Growing o m → Grows host 1 m m')) (m'.checkshm host o) :=
    fun m' hr hgrows => (hr.checkshm hg.fresh).mono fun m'' hm => ⟨hm.1, fun hgr => (hgrows hgr).trans hm.2⟩
  have hnext : ∀ m', Kept o m m' → (Growing o m → Grows host 1 m m') →
      Yields (Ends host) (fun m' => Ready o m' ∧ (Growing o m → Grows host 1 m m'))
        (if !(m'.tempNoRestart || o.dnr) then do (← m'.restart host o).checkshm host o else m'.checkshm host o) := by
    intro m' hk hgrows
    have hready := hk.ready h
    split
    next hrestart =>
      have htemp : m'.tempNoRestart = false := by
        rw [Bool.not_or, Bool.and_eq_true, Bool.not_eq_true'] at hrestart
        exact hrestart.1
      refine (hk.sound.restart hg.fresh (hready.stopped.trans htemp)).bind fun m'' hm => ?_
      exact hlast m'' (hm.1.ready hready) fun hgr => (hgrows hgr).trans hm.2
    next => exact hlast m' hready hgrows
  unfold Mrim.iteration
  split
  next hadapt =>
    rw [Bool.and_eq_true, Bool.not_eq_true'] at hadapt
    obtain ⟨hadapt, htemp⟩ := hadapt
    refine (h.sound.adaptive hg (h.stopped.trans htemp) h.shrinking).bind fun m' hm => hnext m' hm.1 fun hgr => ?_
    -- where only one more worker would fit, something else happens too
    by_cases hone : (m.live : Int) + 1 = o.maxproc
    · exact fun hp => absurd hp (hg.room hone)
    · obtain ⟨_, _, hlt⟩ := hgr
      exact hm.2 hadapt (by omega)
  next hno =>
    refine hnext m h.sound.kept fun hgr => absurd ?_ hno
    rw [hgr.1, hgr.2.1]
    rfl

theorem Sound.startLoop (hfresh : FreshIds host) (n : Nat) :
    ∀ {i : Nat} {m : Mrim}, Sound o m → stoppedAfter m.log = false → i + n ≤ o.maxproc.toNat →
      Yields (Ends host) (Kept o m) (startLoop host n i m) := by
  induction n with
  | zero =>
    intro i m h _ _
    exact .ok h.kept
  | succ n ih =>
    intro i m h hrun hin
    have hi : i < m.plist.length := by
      rw [h.slots]
      omega
    refine (h.startChild hi hfresh hrun).bind fun m' hm => ?_
    exact (ih hm.1.sound (hm.1.stopped.trans hrun) (by omega)).mono fun m'' hm' => hm.1.trans hm'

theorem start_ready (ho : o.Accepted) (hfresh : FreshIds host) : Yields (Ends host) (Ready o) (start host o) := by
  have hsound : Sound o { plist := List.replicate o.maxproc.toNat (-1) } := by
    refine ⟨List.length_replicate, .replicate _, fun _ _ _ hmem => (nomatch hmem), fun _ hp => (nomatch hp),
      fun _ hmem => (nomatch hmem), fun pre suf slot pid plist heq => ?_⟩
    cases (List.append_eq_nil_iff.mp heq.symm).2
  have hmax := ho.max
  refine (hsound.startLoop hfresh o.numToStartMin.toNat rfl (by omega)).mono fun m hm => ?_
  exact ⟨hm.sound, hm.stopped.trans hm.tempNoRestart.symm, hm.shrinking⟩

end Mrim

/-! ## Runs -/

structure Bounded (o : MrimOpts) (m : Mrim) : Prop where
  distinct : SlotsDistinct m.plist
  /-- and so it was when a worker was started -/
  started : ∀ slot pid plist, .started slot pid plist ∈ m.log → SlotsDistinct plist
  occupied : (m.plist.countP (· ≠ -1) : Int) ≤ o.maxproc
  downsized : ∀ k : Nat, .downsized k ∈ m.log → o.numToStartMin ≤ k
  obeys : ObeysStop m.log

/-- A run of rounds, each with its answers of the system. -/
abbrev Rounds (o : MrimOpts) : Mrim → List MrimHost → Mrim → Prop :=
  GuardedRun (fun m host m' => Mrim.iteration host o m = .ok m') (Mrim.RoundGuard o)

theorem Mrim.Sound.bounded {o : MrimOpts} {m : Mrim} (h : m.Sound o) (ho : 0 ≤ o.maxproc) : Bounded o m := by
  refine ⟨h.distinct, h.started, ?_, h.downsized, h.obeys⟩
  have hle := List.countP_le_length (p := fun p : Int => decide (p ≠ -1)) (l := m.plist)
  rw [h.slots] at hle
  omega

/-- Where every round meets its guard, no index leaves the slots, the bounds are kept, and one more
worker is started where only connections are pending and fewer than the maximum are alive. -/
theorem workers_bounded {args : List MrimOpt} {o : MrimOpts} (ho : MrimOpts.parse args = .ok o)
    {host : MrimHost} (hfresh : Mrim.FreshIds host) :
    Mrim.start host o ≠ .error .outside ∧
      ∀ m₀, Mrim.start host o = .ok m₀ → ∀ hosts m, Rounds o m₀ hosts m →
        Bounded o m ∧
          ∀ host', Mrim.RoundGuard o m host' →
            Mrim.iteration host' o m ≠ .error .outside ∧
              (o.adapt = true → m.tempNoRestart = false → Mrim.Pending host' → (m.live : Int) < o.maxproc →
                ∃ m', Mrim.iteration host' o m = .ok m' ∧ m.live < m'.live) := by
  have hacc := MrimOpts.parse_accepted ho
  have hmax : 0 ≤ o.maxproc := Int.le_trans hacc.min hacc.max
  have hstart := Mrim.start_ready hacc hfresh
  refine ⟨fun herr => ?_, fun m₀ hm₀ hosts m hrun => ?_⟩
  · cases (hstart.of_error herr).1
  · have hready : Mrim.Ready o m :=
      hrun.invariant (fun hr hg hstep => ((hr.iteration hg).of_ok hstep).1) (hstart.of_ok hm₀)
    refine ⟨hready.sound.bounded hmax, fun host' hg => ⟨fun herr => ?_, fun ha ht hp hlt => ?_⟩⟩
    · cases ((hready.iteration hg).of_error herr).1
    · cases hstep : Mrim.iteration host' o m with
      | ok m' => exact ⟨m', rfl, ((hready.iteration hg).of_ok hstep).2 ⟨ha, ht, hlt⟩ hp⟩
      | error e => exact absurd hp ((hready.iteration hg).of_error hstep).2

/-! ## Connections that stay pending -/

def idAbove (ids : List Int) : Int := ids.foldr max 1 + 1

theorem one_lt_idAbove (ids : List Int) : 1 < idAbove ids := by
  unfold idAbove
  induction ids with
  | nil => decide
  | cons id ids ih =>
    rw [List.foldr_cons]
    omega

theorem lt_idAbove {ids : List Int} {p : Int} (h : p ∈ ids) : p < idAbove ids := by
  unfold idAbove
  induction ids with
  | nil => cases h
  | cons id ids ih =>
    rw [List.foldr_cons]
    cases List.mem_cons.mp h with
    | inl heq => omega
    | inr hmem =>
      have := ih hmem
      omega

/-- Connections are pending all the time, and every start succeeds. -/
def busyHost : MrimHost where
  died _ := []
  changed _ := false
  conn _ := true
  canStart _ := true
  forked m := some (idAbove (m.plist ++ m.alive))
  modified _ := false
  command _ := none
  forked_new := by
    intro m p hp
    obtain rfl := Option.some.inj hp
    exact ⟨one_lt_idAbove _, fun hmem => Int.lt_irrefl _ (lt_idAbove (List.mem_append_right m.plist hmem))⟩

theorem busyHost_pending : Mrim.Pending busyHost :=
  ⟨fun _ => rfl, fun _ => rfl, fun _ => rfl, fun _ => ⟨_, rfl⟩, fun _ => rfl, fun _ => rfl⟩

theorem busyHost_fresh : Mrim.FreshIds busyHost := by
  intro m p hp hmem
  obtain rfl := Option.some.inj hp
  exact Int.lt_irrefl _ (lt_idAbove (List.mem_append_left m.alive hmem))

/-- `--min-worker 0 --max-worker 3` -/
def threeAtMost : MrimOpts := { numToStartMin := 0, maxproc := 3, adapt := true, minmaxset := true }

def noWorkers : Mrim := { plist := [-1, -1, -1] }

/-- The manager after a round with connections pending. -/
def oneWorker : Mrim :=
  { plist := [2, -1, -1], alive := [2], counted := [2], calls := 10, log := [.started 0 2 [2, -1, -1]] }

def twoWorkers : Mrim :=
  { plist := [2, 3, -1], alive := [3, 2], counted := [3, 2], calls := 27,
    log := [.started 0 2 [2, -1, -1], .started 1 3 [2, 3, -1]] }

theorem busyHost_guard {m : Mrim} (h : (m.live : Int) + 1 ≠ threeAtMost.maxproc) : Mrim.RoundGuard threeAtMost m busyHost :=
  ⟨busyHost_fresh, busyHost_pending.steady_all true, fun hone => absurd hone h⟩

theorem workers_bounded_three :
    Bounded threeAtMost oneWorker ∧
      ∃ m, Mrim.iteration busyHost threeAtMost oneWorker = .ok m ∧ oneWorker.live < m.live := by
  have hargs : MrimOpts.parse [.minWorker 0, .maxWorker 3] = .ok threeAtMost := by rfl
  have hstart : Mrim.start busyHost threeAtMost = .ok noWorkers := by rfl
  have hrun : Rounds threeAtMost noWorkers [busyHost] oneWorker :=
    .cons (busyHost_guard (by decide)) (by rfl) (.nil oneWorker)
  obtain ⟨hbounded, hround⟩ := (workers_bounded hargs busyHost_fresh).2 noWorkers hstart [busyHost] oneWorker hrun
  exact ⟨hbounded, (hround busyHost (busyHost_guard (by decide))).2 rfl rfl busyHost_pending (by decide)⟩

/-- With two of three workers and only connections pending, no worker is started any more. -/
theorem workers_short_of_three :
    MrimOpts.parse [.minWorker 0, .maxWorker 3] = .ok threeAtMost ∧
      Mrim.start busyHost threeAtMost = .ok noWorkers ∧
      Mrim.iteration busyHost threeAtMost noWorkers = .ok oneWorker ∧
      Mrim.iteration busyHost threeAtMost oneWorker = .ok twoWorkers ∧
      Mrim.Pending busyHost ∧ Mrim.FreshIds busyHost ∧
      twoWorkers.tempNoRestart = false ∧ (twoWorkers.live : Int) < threeAtMost.maxproc ∧
      (Mrim.iteration busyHost threeAtMost twoWorkers).toOption.map Mrim.live = some twoWorkers.live :=
  ⟨by rfl, by rfl, by rfl, by rfl, busyHost_pending, busyHost_fresh, by rfl, by decide, by decide⟩

end RimStone
