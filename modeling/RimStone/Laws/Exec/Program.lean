import Mathlib.Algebra.BigOperators.Group.List.Basic
import Mathlib.Algebra.Ring.Nat
import RimStone.Exec.Program
import RimStone.Lib.Run

/-!
# When the parent and the child block each other

A state in which neither can go on is told by three pipes: the input is full while the parent
has more to write, or the output is empty while the parent reads it, and the child is at a
write to a pipe that nobody reads. So there is no such state exactly if what the child writes
fits into the pipes for as long as the parent does something else: error output must fit as a
whole if the output is captured too, and all output up to where the child has read so much
that the rest of the input fits. Steps come to an end, so where this fails a blocked state is
reached by the steps that give the child as little of its input as possible.
-/

namespace RimStone

open RimStone.Lib Relation

namespace ChildOp

def bytes (st : Stream) : ChildOp → Nat
  | .write st' n => if st' = st then n else 0
  | .read _ => 0

@[simp] theorem bytes_read (st : Stream) (n : Nat) : (ChildOp.read n).bytes st = 0 := rfl

@[simp] theorem bytes_write (st st' : Stream) (n : Nat) : (ChildOp.write st' n).bytes st = if st' = st then n else 0 := rfl

def gets : ChildOp → Nat
  | .read n => if n = 0 then 0 else 1
  | .write _ _ => 0

def weight : ChildOp → Nat
  | .read _ => 1
  | .write _ n => 2 * n + 1

end ChildOp

def written (st : Stream) (ops : List ChildOp) : Nat := (ops.map (ChildOp.bytes st)).sum

def reads (ops : List ChildOp) : Nat := (ops.map ChildOp.gets).sum

variable {st : Stream} {op : ChildOp} {ops ops' pre suf : List ChildOp} {n k : Nat}

@[simp] theorem written_nil : written st [] = 0 := rfl

@[simp] theorem written_cons : written st (op :: ops) = op.bytes st + written st ops := by
  unfold written
  rw [List.map_cons, List.sum_cons]

@[simp] theorem written_append : written st (ops ++ ops') = written st ops + written st ops' := by
  unfold written
  rw [List.map_append, List.sum_append]

@[simp] theorem reads_cons : reads (op :: ops) = op.gets + reads ops := by
  unfold reads
  rw [List.map_cons, List.sum_cons]

@[simp] theorem reads_append : reads (ops ++ ops') = reads ops + reads ops' := by
  unfold reads
  rw [List.map_append, List.sum_append]

namespace ExecProgram

variable {c : ExecProgram} {s s' : ExecState}

/-- What the child writes fits into the pipes until the parent reads them. -/
structure Fits (c : ExecProgram) (ops : List ChildOp) : Prop where
  /-- Error output is read after the end of output. -/
  err : c.captured .out = true → c.captured .err = true → written .err ops ≤ c.cap .err
  /-- No stream is read before all input is written. -/
  inp : ∀ len, c.inp = some len → ∀ pre st n suf, ops = pre ++ .write st n :: suf → c.captured st = true →
    c.cap st < written st pre + n → len ≤ c.capIn + reads pre

/-! ## Steps come to an end -/

def parentWeight : ExecParent → Nat
  | .write left => 2 * left + 4
  | .read .out => 3
  | .read .err => 2
  | .wait => 1
  | .returned | .failed => 0

/-- Bytes that are still to be moved, twice if they are not yet in a pipe. -/
def weight (s : ExecState) : Nat :=
  parentWeight s.parent + (s.child.map ChildOp.weight).sum + (if s.exited then 0 else 1) + s.inPipe + s.pipe .out + s.pipe .err

theorem step_weight (h : c.Step s s') : weight s' < weight s := by
  have hsum : ∀ (op : ChildOp) ops, ((op :: ops).map ChildOp.weight).sum = op.weight + (ops.map ChildOp.weight).sum :=
    fun op ops => by rw [List.map_cons, List.sum_cons]
  have hpipe : ∀ (pipe : Stream → Nat) st x, Function.update pipe st x .out + Function.update pipe st x .err + pipe st =
      pipe .out + pipe .err + x := by
    intro pipe st x
    cases st <;> simp <;> omega
  have hnext : ∀ st : Stream, parentWeight st.next < parentWeight (.read st) := by
    intro st
    cases st <;> decide
  cases h with
  | write hp _ hk hle _ =>
    simp only [weight, hp, parentWeight]
    omega
  | epipe hp _ _ =>
    simp only [weight, hp, parentWeight]
    omega
  | written hp =>
    simp only [weight, hp, parentWeight]
    omega
  | @skip st hp _ =>
    have hlt := hnext st
    simp only [weight, hp]
    omega
  | @read st k hp _ hk hle =>
    have hsame := hpipe s.pipe st (s.pipe st - k)
    simp only [weight]
    omega
  | @eof st hp _ _ _ =>
    have hlt := hnext st
    simp only [weight, hp]
    omega
  | wait hp _ =>
    simp only [weight, hp, parentWeight]
    omega
  | childRead _ hc hk _ hle =>
    simp only [weight, hc, hsum, ChildOp.weight]
    omega
  | childReadEnd _ hc _ =>
    simp only [weight, hc, hsum, ChildOp.weight]
    omega
  | @childWrite st n k ops _ hc _ hk hle _ =>
    have hsame := hpipe s.pipe st (s.pipe st + k)
    simp only [weight, hc, hsum, ChildOp.weight]
    omega
  | childWritten _ hc _ =>
    simp only [weight, hc, hsum, ChildOp.weight]
    omega
  | childExit he hc =>
    simp [weight, he]

/-! ## Where both block -/

/-- A state in which neither process has a step, and the parent is not done. -/
def Blocked (c : ExecProgram) (s : ExecState) : Prop := ¬ s.parent.Ended ∧ ∀ s', ¬ c.Step s s'

/-- The child is at a write to a full pipe, and the parent at something else. -/
theorem Blocked.cases (h : c.Blocked s) : s.exited = false ∧
    (∃ st n ops, s.child = .write st n :: ops ∧ 0 < n ∧ c.captured st = true ∧ c.cap st ≤ s.pipe st) ∧
    ((∃ left, s.parent = .write left ∧ 0 < left ∧ c.capIn ≤ s.inPipe) ∨
      (∃ st, s.parent = .read st ∧ c.captured st = true ∧ s.pipe st = 0) ∨ s.parent = .wait) := by
  obtain ⟨hended, hstep⟩ := h
  have hrunning : s.exited = false := by
    cases he : s.exited with
    | false => rfl
    | true =>
      cases hp : s.parent with
      | write left =>
        by_cases hleft : left = 0
        · subst hleft
          exact absurd (Step.written hp) (hstep _)
        · exact absurd (Step.epipe hp (Nat.pos_of_ne_zero hleft) he) (hstep _)
      | read st =>
        cases hcap : c.captured st with
        | false => exact absurd (Step.skip hp hcap) (hstep _)
        | true =>
          by_cases hzero : s.pipe st = 0
          · exact absurd (Step.eof hp hcap hzero he) (hstep _)
          · exact absurd (Step.read hp hcap (Nat.pos_of_ne_zero hzero) (Nat.le_refl _)) (hstep _)
      | wait => exact absurd (Step.wait hp he) (hstep _)
      | returned | failed =>
        rw [hp] at hended
        exact absurd trivial hended
  have hparent : (∃ left, s.parent = .write left ∧ 0 < left ∧ c.capIn ≤ s.inPipe) ∨
      (∃ st, s.parent = .read st ∧ c.captured st = true ∧ s.pipe st = 0) ∨ s.parent = .wait := by
    cases hp : s.parent with
    | write left =>
      left
      refine ⟨left, rfl, ?_, ?_⟩
      · refine Nat.pos_of_ne_zero fun hleft => ?_
        subst hleft
        exact hstep _ (.written hp)
      · refine Nat.le_of_not_lt fun hroom => ?_
        by_cases hleft : left = 0
        · subst hleft
          exact hstep _ (.written hp)
        · exact hstep _ (.write (k := 1) hp hrunning Nat.one_pos (Nat.pos_of_ne_zero hleft) hroom)
    | read st =>
      right
      left
      cases hcap : c.captured st with
      | false => exact absurd (Step.skip hp hcap) (hstep _)
      | true =>
        refine ⟨st, rfl, hcap, ?_⟩
        by_cases hzero : s.pipe st = 0
        · exact hzero
        · exact absurd (Step.read hp hcap (Nat.pos_of_ne_zero hzero) (Nat.le_refl _)) (hstep _)
    | wait => exact Or.inr (Or.inr rfl)
    | returned | failed =>
      rw [hp] at hended
      exact absurd trivial hended
  refine ⟨hrunning, ?_, hparent⟩
  cases hc : s.child with
  | nil => exact absurd (Step.childExit hrunning hc) (hstep _)
  | cons op ops =>
    cases op with
    | read n =>
      -- a read goes on: there is input, or its end
      exfalso
      by_cases hn : n = 0
      · exact hstep _ (.childReadEnd hrunning hc (Or.inl hn))
      · by_cases hzero : s.inPipe = 0
        · refine hstep _ (.childReadEnd hrunning hc (Or.inr ⟨hzero, fun left hp => ?_⟩))
          have hpos := c.capIn_pos
          obtain ⟨left', -, -, hfull⟩ | ⟨st, hp', -⟩ | hp' := hparent
          · omega
          · rw [hp'] at hp
            cases hp
          · rw [hp'] at hp
            cases hp
        · exact hstep _ (.childRead (k := 1) hrunning hc Nat.one_pos (by omega) (by omega))
    | write st n =>
      refine ⟨st, n, ops, rfl, ?_, ?_, ?_⟩
      · exact Nat.pos_of_ne_zero fun hn => hstep _ (.childWritten hrunning hc (Or.inl hn))
      · cases hcap : c.captured st with
        | false => exact absurd (Step.childWritten hrunning hc (Or.inr hcap)) (hstep _)
        | true => rfl
      · refine Nat.le_of_not_lt fun hroom => ?_
        by_cases hn : n = 0
        · exact hstep _ (.childWritten hrunning hc (Or.inl hn))
        · cases hcap : c.captured st with
          | false => exact hstep _ (.childWritten hrunning hc (Or.inr hcap))
          | true => exact hstep _ (.childWrite (k := 1) hrunning hc hcap Nat.one_pos (by omega) hroom)

/-! ## What is in the pipes -/

def Unread : Stream → ExecParent → Prop
  | .out, p => ∃ left, p = .write left
  | .err, p => (∃ left, p = .write left) ∨ p = .read .out

/-- What is left of a child's operations: the last ones, the first of them perhaps in part. -/
def Left (ops ops' : List ChildOp) : Prop :=
  (∃ pre, ops = pre ++ ops') ∨ ∃ pre st n k suf, ops = pre ++ .write st n :: suf ∧ ops' = .write st k :: suf

/-- The child gave and took as its operations say. -/
structure Tracks (c : ExecProgram) (ops : List ChildOp) (s : ExecState) : Prop where
  left : Left ops s.child
  /-- A captured stream ends when the child exits. -/
  outEnd : c.captured .out = true → s.parent = .read .err ∨ s.parent = .wait → s.exited = true
  errEnd : c.captured .err = true → s.parent = .wait → s.exited = true
  /-- Nothing was taken from a pipe that was not read. -/
  given : ∀ st, c.captured st = true → Unread st s.parent → s.pipe st + written st s.child = written st ops
  /-- The rest of the input is to be written. -/
  taken : ∀ left, s.parent = .write left → ∃ len, c.inp = some len ∧ reads ops + left + s.inPipe ≤ reads s.child + len

theorem start_tracks (c : ExecProgram) (ops : List ChildOp) : Tracks c ops (c.start ops) := by
  have hparent : (c.start ops).parent = .read .out ∨ ∃ len, c.inp = some len ∧ (c.start ops).parent = .write len := by
    unfold start
    cases c.inp with
    | none => exact Or.inl rfl
    | some len => exact Or.inr ⟨len, rfl, rfl⟩
  refine ⟨Or.inl ⟨[], rfl⟩, fun _ hp => ?_, fun _ hp => ?_, fun st _ _ => Nat.zero_add _, fun left hp => ?_⟩
  · obtain h | ⟨len, -, h⟩ := hparent <;> simp [h] at hp
  · obtain h | ⟨len, -, h⟩ := hparent <;> simp [h] at hp
  · obtain h | ⟨len, hlen, h⟩ := hparent
    · rw [h] at hp
      cases hp
    · rw [h] at hp
      obtain rfl := ExecParent.write.inj hp
      exact ⟨len, hlen, Nat.le_refl _⟩

theorem Left.tail {op : ChildOp} (h : Left ops (op :: ops')) : Left ops ops' := by
  obtain ⟨pre, rfl⟩ | ⟨pre, st, n, k, suf, rfl, hop⟩ := h
  · exact Or.inl ⟨pre ++ [op], by rw [List.append_assoc, List.singleton_append]⟩
  · obtain ⟨-, rfl⟩ := List.cons.inj hop
    exact Or.inl ⟨pre ++ [.write st n], by rw [List.append_assoc, List.singleton_append]⟩

theorem Left.part (h : Left ops (.write st n :: ops')) (k : Nat) : Left ops (.write st k :: ops') := by
  obtain ⟨pre, rfl⟩ | ⟨pre, st', m, k', suf, rfl, hop⟩ := h
  · exact Or.inr ⟨pre, st, n, k, ops', rfl, rfl⟩
  · obtain ⟨hhead, rfl⟩ := List.cons.inj hop
    obtain ⟨rfl, -⟩ := ChildOp.write.inj hhead
    exact Or.inr ⟨pre, st, m, k, ops', rfl, rfl⟩

/-- A write that is begun is one of the operations. -/
theorem Left.write (h : Left ops (.write st k :: suf)) : ∃ pre n, ops = pre ++ .write st n :: suf := by
  obtain ⟨pre, rfl⟩ | ⟨pre, st', n, k', suf', rfl, hop⟩ := h
  · exact ⟨pre, k, rfl⟩
  · obtain ⟨hhead, rfl⟩ := List.cons.inj hop
    obtain ⟨rfl, -⟩ := ChildOp.write.inj hhead
    exact ⟨pre, n, rfl⟩

/-- A stream that is unread after a step of the parent was so before. -/
theorem step_unread (hstep : c.Step s s') (hun : Unread st s'.parent) : Unread st s.parent := by
  cases hstep with
  | write hp _ _ _ _ => cases st <;> simp [Unread, hp]
  | written hp => cases st <;> simp [Unread, hp] at hun ⊢
  | epipe _ _ _ | wait _ _ => cases st <;> simp [Unread] at hun
  | @skip st' _ _ => cases st <;> cases st' <;> simp [Unread, Stream.next] at hun
  | @eof st' _ _ _ _ => cases st <;> cases st' <;> simp [Unread, Stream.next] at hun
  | read _ _ _ _ | childRead _ _ _ _ _ | childReadEnd _ _ _ | childWrite _ _ _ _ _ _ | childWritten _ _ _
  | childExit _ _ => exact hun

/-- A write that is done, or not captured, gives a captured stream nothing more. -/
theorem bytes_of_written {st' : Stream} (hcap : c.captured st = true) (hn : n = 0 ∨ c.captured st' = false) :
    (ChildOp.write st' n).bytes st = 0 := by
  rw [ChildOp.bytes_write]
  by_cases hst : st' = st
  · subst hst
    rw [if_pos rfl]
    exact hn.resolve_right (by rw [hcap]; exact Bool.noConfusion)
  · rw [if_neg hst]

theorem step_given (hgiven : ∀ st, c.captured st = true → Unread st s.parent →
    s.pipe st + written st s.child = written st ops) (hstep : c.Step s s') (hcap : c.captured st = true)
    (hun : Unread st s'.parent) : s'.pipe st + written st s'.child = written st ops := by
  have hbefore := hgiven st hcap (step_unread hstep hun)
  cases hstep with
  | write _ _ _ _ _ | epipe _ _ _ | written _ | skip _ _ | eof _ _ _ _ | wait _ _ | childExit _ _ => exact hbefore
  | @read st' k hp _ _ _ =>
    -- the stream that is read is another one
    have hne : st ≠ st' := by
      rintro rfl
      cases st <;> simp [Unread, hp] at hun
    show Function.update s.pipe st' (s.pipe st' - k) st + _ = _
    rw [Function.update_of_ne hne]
    exact hbefore
  | childRead _ hc _ _ _ | childReadEnd _ hc _ =>
    rw [hc, written_cons] at hbefore
    simpa [ChildOp.bytes] using hbefore
  | @childWrite st' n k suf _ hc _ _ hle _ =>
    rw [hc, written_cons] at hbefore
    show Function.update s.pipe st' (s.pipe st' + k) st + written st (.write st' (n - k) :: suf) = _
    rw [written_cons]
    by_cases hst : st' = st
    · subst hst
      rw [Function.update_self]
      simp only [ChildOp.bytes, if_pos] at hbefore ⊢
      omega
    · rw [Function.update_of_ne (Ne.symm hst)]
      simp only [ChildOp.bytes, if_neg hst] at hbefore ⊢
      exact hbefore
  | @childWritten st' n suf _ hc hn =>
    rw [hc, written_cons] at hbefore
    rw [bytes_of_written hcap hn, Nat.zero_add] at hbefore
    exact hbefore

theorem step_taken {len : Nat} (htaken : ∀ left, s.parent = .write left →
    reads ops + left + s.inPipe ≤ reads s.child + len) (hstep : c.Step s s') {left : Nat}
    (hp' : s'.parent = .write left) : reads ops + left + s'.inPipe ≤ reads s'.child + len := by
  cases hstep with
  | @write left' k hp _ _ hle _ =>
    have hbefore := htaken left' hp
    obtain rfl := ExecParent.write.inj hp'
    show reads ops + (left' - k) + (s.inPipe + k) ≤ reads s.child + len
    omega
  | epipe _ _ _ | written _ | wait _ _ => cases hp'
  | @skip st' _ _ => cases st' <;> cases hp'
  | @eof st' _ _ _ _ => cases st' <;> cases hp'
  | read _ _ _ _ | childExit _ _ => exact htaken left hp'
  | @childRead n k suf _ hc hk hkn hin =>
    have hbefore := htaken left hp'
    rw [hc, reads_cons, ChildOp.gets, if_neg (by omega)] at hbefore
    show reads ops + left + (s.inPipe - k) ≤ reads suf + len
    omega
  | @childReadEnd n suf _ hc hn =>
    have hbefore := htaken left hp'
    have hn : n = 0 := hn.resolve_right fun h => h.2 left hp'
    rw [hc, reads_cons, ChildOp.gets, if_pos hn, Nat.zero_add] at hbefore
    exact hbefore
  | childWrite _ hc _ _ _ _ | childWritten _ hc _ =>
    have hbefore := htaken left hp'
    rw [hc, reads_cons, ChildOp.gets, Nat.zero_add] at hbefore
    simpa [ChildOp.gets] using hbefore

theorem step_left (hleft : Left ops s.child) (hstep : c.Step s s') : Left ops s'.child := by
  cases hstep with
  | write _ _ _ _ _ | epipe _ _ _ | written _ | skip _ _ | read _ _ _ _ | eof _ _ _ _ | wait _ _ | childExit _ _ =>
    exact hleft
  | childRead _ hc _ _ _ | childReadEnd _ hc _ | childWritten _ hc _ => exact (hc ▸ hleft).tail
  | childWrite _ hc _ _ _ _ => exact (hc ▸ hleft).part _

/-- What the parent writes first, it writes until it reads. -/
theorem step_write (hstep : c.Step s s') {left : Nat} (hp' : s'.parent = .write left) : ∃ left', s.parent = .write left' := by
  cases hstep with
  | write hp _ _ _ _ => exact ⟨_, hp⟩
  | epipe _ _ _ | written _ | wait _ _ => cases hp'
  | @skip st' _ _ => cases st' <;> cases hp'
  | @eof st' _ _ _ _ => cases st' <;> cases hp'
  | read _ _ _ _ | childRead _ _ _ _ _ | childReadEnd _ _ _ | childWrite _ _ _ _ _ _ | childWritten _ _ _
  | childExit _ _ => exact ⟨left, hp'⟩

theorem step_tracks (h : Tracks c ops s) (hstep : c.Step s s') : Tracks c ops s' := by
  refine ⟨step_left h.left hstep, fun hcap hp' => ?_, fun hcap hp' => ?_, fun st hcap hun => step_given h.given hstep hcap hun,
    fun left hp' => ?_⟩
  · cases hstep with
    | write _ _ _ _ _ | epipe _ _ _ | written _ | wait _ _ => simp at hp'
    | @skip st' hp hnot =>
      cases st' with
      | out =>
        rw [hcap] at hnot
        cases hnot
      | err => exact h.outEnd hcap (Or.inl hp)
    | eof _ _ _ he => exact he
    | childExit _ _ => rfl
    | read _ _ _ _ | childRead _ _ _ _ _ | childReadEnd _ _ _ | childWrite _ _ _ _ _ _ | childWritten _ _ _ =>
      exact h.outEnd hcap hp'
  · cases hstep with
    | write _ _ _ _ _ | epipe _ _ _ | written _ | wait _ _ => simp at hp'
    | @skip st' hp hnot =>
      cases st' with
      | out => cases hp'
      | err =>
        rw [hcap] at hnot
        cases hnot
    | eof _ _ _ he => exact he
    | childExit _ _ => rfl
    | read _ _ _ _ | childRead _ _ _ _ _ | childReadEnd _ _ _ | childWrite _ _ _ _ _ _ | childWritten _ _ _ =>
      exact h.errEnd hcap hp'
  · obtain ⟨left', hp⟩ := step_write hstep hp'
    obtain ⟨len, hlen, -⟩ := h.taken left' hp
    refine ⟨len, hlen, step_taken (fun left hp => ?_) hstep hp'⟩
    obtain ⟨len', hlen', hle⟩ := h.taken left hp
    obtain rfl := Option.some.inj (hlen.symm.trans hlen')
    exact hle

/-- Where what the child writes fits, no state is blocked. -/
theorem Tracks.not_blocked (h : Tracks c ops s) (hfits : Fits c ops) : ¬ c.Blocked s := by
  intro hblocked
  obtain ⟨hrunning, ⟨st, n, suf, hc, hn, hcap, hfull⟩, hparent⟩ := hblocked.cases
  have hpos := c.cap_pos st
  obtain ⟨pre, m, hops⟩ := (hc ▸ h.left).write
  obtain ⟨left, hp, hleft, hin⟩ | ⟨st', hp, hcap', hempty⟩ | hp := hparent
  · -- the rest of the input does not fit
    obtain ⟨len, hlen, hle⟩ := h.taken left hp
    have hgiven := h.given st hcap (by cases st <;> simp [Unread, hp])
    rw [hc, hops] at hgiven
    rw [hc, hops] at hle
    simp only [written_cons, written_append, reads_cons, reads_append, ChildOp.bytes, ChildOp.gets, if_pos] at hgiven hle
    have hroom := hfits.inp len hlen pre st m suf hops hcap (by omega)
    omega
  · cases st' with
    | err =>
      cases st with
      | err => omega
      | out =>
        rw [h.outEnd hcap (Or.inl hp)] at hrunning
        cases hrunning
    | out =>
      cases st with
      | out => omega
      | err =>
        have hall := hfits.err hcap' hcap
        have hgiven := h.given .err hcap (Or.inr hp)
        rw [hc, written_cons] at hgiven
        simp only [ChildOp.bytes, if_pos] at hgiven
        omega
  · cases st with
    | out =>
      rw [h.outEnd hcap (Or.inr hp)] at hrunning
      cases hrunning
    | err =>
      rw [h.errEnd hcap hp] at hrunning
      cases hrunning

/-! ## Where what the child writes does not fit -/

/-- A state that is reached, has no step and is not the end is blocked. -/
theorem exists_blocked {step : ExecState → ExecState → Prop} (hsub : ∀ s s', step s s' → c.Step s s')
    (hall : ∀ s s', c.Step s s' → ∃ t, step s t) {P : ExecState → Prop} (hP : ∀ s, P s → ¬ s.parent.Ended)
    (hstep : ∀ s s', P s → step s s' → P s') (hs : P s) : ∃ s', ReflTransGen c.Step s s' ∧ c.Blocked s' := by
  obtain ⟨s', hreach, hs', hfinal⟩ := exists_final_invariant weight (fun s s' h => step_weight (hsub s s' h)) hstep hs
  refine ⟨s', ReflTransGen.mono hsub _ _ hreach, hP s' hs', fun t ht => ?_⟩
  obtain ⟨t', ht'⟩ := hall s' t ht
  exact hfinal t' ht'

/-- The parent does not come to the error output, and the child not to its end. -/
structure ErrStuck (c : ExecProgram) (ops : List ChildOp) (s : ExecState) : Prop where
  tracks : Tracks c ops s
  running : s.exited = false
  unread : Unread .err s.parent
  room : s.pipe .err ≤ c.cap .err

theorem step_errStuck (hout : c.captured .out = true) (herr : c.captured .err = true)
    (hmore : c.cap .err < written .err ops) (h : ErrStuck c ops s) (hstep : c.Step s s') : ErrStuck c ops s' := by
  obtain ⟨htracks, hrunning, hun, hroom⟩ := h
  refine ⟨step_tracks htracks hstep, ?_, ?_, ?_⟩
  · cases hstep with
    | childExit _ hc =>
      -- all is written, and that is more than the pipe holds
      have hgiven := htracks.given .err herr hun
      rw [hc, written_nil] at hgiven
      omega
    | write _ _ _ _ _ | epipe _ _ _ | written _ | skip _ _ | read _ _ _ _ | eof _ _ _ _ | wait _ _ | childRead _ _ _ _ _
    | childReadEnd _ _ _ | childWrite _ _ _ _ _ _ | childWritten _ _ _ => exact hrunning
  · cases hstep with
    | write _ _ _ _ _ => exact Or.inl ⟨_, rfl⟩
    | written _ => exact Or.inr rfl
    | @skip st' hp hnot =>
      cases st' with
      | out =>
        rw [hout] at hnot
        cases hnot
      | err => simp [Unread, hp] at hun
    | epipe _ _ he | eof _ _ _ he | wait _ he =>
      rw [hrunning] at he
      cases he
    | read _ _ _ _ | childRead _ _ _ _ _ | childReadEnd _ _ _ | childWrite _ _ _ _ _ _ | childWritten _ _ _
    | childExit _ _ => exact hun
  · cases hstep with
    | @read st' k _ _ _ _ =>
      show Function.update s.pipe st' (s.pipe st' - k) .err ≤ c.cap .err
      rw [Function.update_apply]
      split
      · rename_i hst
        subst hst
        omega
      · exact hroom
    | @childWrite st' n k _ _ _ _ _ _ hle =>
      show Function.update s.pipe st' (s.pipe st' + k) .err ≤ c.cap .err
      rw [Function.update_apply]
      split
      · rename_i hst
        subst hst
        exact hle
      · exact hroom
    | write _ _ _ _ _ | epipe _ _ _ | written _ | skip _ _ | eof _ _ _ _ | wait _ _ | childRead _ _ _ _ _
    | childReadEnd _ _ _ | childWritten _ _ _ | childExit _ _ => exact hroom

/-- Error output that does not fit, while output is read. -/
theorem blocked_of_err (hout : c.captured .out = true) (herr : c.captured .err = true)
    (hmore : c.cap .err < written .err ops) : ∃ s, ReflTransGen c.Step (c.start ops) s ∧ c.Blocked s := by
  refine exists_blocked (P := ErrStuck c ops) (fun _ _ h => h) (fun s s' h => ⟨s', h⟩) (fun s hs hended => ?_)
    (fun s s' hs hstep => step_errStuck hout herr hmore hs hstep) ?_
  · obtain ⟨left, hp⟩ | hp := hs.unread <;> rw [hp] at hended <;> exact hended
  · refine ⟨start_tracks c ops, rfl, ?_, Nat.zero_le _⟩
    unfold start
    cases c.inp with
    | none => exact Or.inr rfl
    | some len => exact Or.inl ⟨len, rfl⟩

/-- The child reads no more than a byte at a time. -/
def ShortStep (c : ExecProgram) (s s' : ExecState) : Prop := c.Step s s' ∧ s.inPipe ≤ s'.inPipe + 1

theorem exists_shortStep (h : c.Step s s') : ∃ t, c.ShortStep s t := by
  cases h with
  | childRead he hc hk hn hin =>
    refine ⟨_, .childRead (k := 1) he hc Nat.one_pos (by omega) (by omega), ?_⟩
    show s.inPipe ≤ s.inPipe - 1 + 1
    omega
  | write hp he hk hle hroom => exact ⟨_, .write hp he hk hle hroom, by show s.inPipe ≤ s.inPipe + _ + 1; omega⟩
  | epipe hp hl he => exact ⟨_, .epipe hp hl he, Nat.le_succ _⟩
  | written hp => exact ⟨_, .written hp, Nat.le_succ _⟩
  | skip hp hn => exact ⟨_, .skip hp hn, Nat.le_succ _⟩
  | read hp hcap hk hle => exact ⟨_, .read hp hcap hk hle, Nat.le_succ _⟩
  | eof hp hcap hz he => exact ⟨_, .eof hp hcap hz he, Nat.le_succ _⟩
  | wait hp he => exact ⟨_, .wait hp he, Nat.le_succ _⟩
  | childReadEnd he hc hn => exact ⟨_, .childReadEnd he hc hn, Nat.le_succ _⟩
  | childWrite he hc hcap hk hle hroom => exact ⟨_, .childWrite he hc hcap hk hle hroom, Nat.le_succ _⟩
  | childWritten he hc hn => exact ⟨_, .childWritten he hc hn, Nat.le_succ _⟩
  | childExit he hc => exact ⟨_, .childExit he hc, Nat.le_succ _⟩

/-- The parent does not come to the end of the input, and the child not past a write. -/
structure InpStuck (c : ExecProgram) (len : Nat) (pre : List ChildOp) (st : Stream) (n : Nat) (suf : List ChildOp)
    (s : ExecState) : Prop where
  running : s.exited = false
  inRoom : s.inPipe ≤ c.capIn
  room : s.pipe st ≤ c.cap st
  counts : ∃ left pre' m, s.parent = .write left ∧ s.child = pre' ++ .write st m :: suf ∧
    s.pipe st + written st pre' + m = written st pre + n ∧ left + s.inPipe + reads pre = len + reads pre'

theorem step_inpStuck {len : Nat} (hcap : c.captured st = true) (hmore : c.cap st < written st pre + n)
    (hlen : c.capIn + reads pre < len) (h : InpStuck c len pre st n suf s) (hstep : c.ShortStep s s') :
    InpStuck c len pre st n suf s' := by
  obtain ⟨hrunning, hinRoom, hroom, left, pre', m, hp, hc, hgiven, htaken⟩ := h
  obtain ⟨hstep, hshort⟩ := hstep
  cases hstep with
  | @write left' k hp' _ hk hle hfits =>
    obtain rfl := ExecParent.write.inj (hp.symm.trans hp')
    refine ⟨hrunning, hfits, hroom, left - k, pre', m, rfl, hc, hgiven, ?_⟩
    show left - k + (s.inPipe + k) + reads pre = len + reads pre'
    omega
  | epipe _ _ he =>
    rw [hrunning] at he
    cases he
  | written hp' =>
    obtain rfl := ExecParent.write.inj (hp.symm.trans hp')
    omega
  | skip hp' _ | read hp' _ _ _ | eof hp' _ _ _ | wait hp' _ =>
    rw [hp] at hp'
    cases hp'
  | childExit _ hc' =>
    rw [hc] at hc'
    exact absurd hc' (List.append_ne_nil_of_right_ne_nil _ (List.cons_ne_nil _ _))
  | @childRead n' k ops' _ hc' hk hn' hin =>
    have hone : k = 1 := by
      change s.inPipe ≤ s.inPipe - k + 1 at hshort
      omega
    cases pre' with
    | nil =>
      rw [hc] at hc'
      cases hc'
    | cons op pre' =>
      rw [hc] at hc'
      obtain ⟨rfl, rfl⟩ := List.cons.inj hc'
      rw [written_cons, ChildOp.bytes_read, Nat.zero_add] at hgiven
      rw [reads_cons, ChildOp.gets, if_neg (by omega)] at htaken
      refine ⟨hrunning, by show s.inPipe - k ≤ _; omega, hroom, left, pre', m, hp, rfl, hgiven, ?_⟩
      show left + (s.inPipe - k) + reads pre = len + reads pre'
      omega
  | @childReadEnd n' ops' _ hc' hn' =>
    have hzero : n' = 0 := hn'.resolve_right fun h => h.2 left hp
    cases pre' with
    | nil =>
      rw [hc] at hc'
      cases hc'
    | cons op pre' =>
      rw [hc] at hc'
      obtain ⟨rfl, rfl⟩ := List.cons.inj hc'
      rw [written_cons, ChildOp.bytes_read, Nat.zero_add] at hgiven
      rw [reads_cons, ChildOp.gets, if_pos hzero, Nat.zero_add] at htaken
      exact ⟨hrunning, hinRoom, hroom, left, pre', m, hp, rfl, hgiven, htaken⟩
  | @childWrite st' n' k ops' _ hc' _ hk hle hfits =>
    cases pre' with
    | nil =>
      rw [hc] at hc'
      obtain ⟨hhead, rfl⟩ := List.cons.inj hc'
      obtain ⟨rfl, rfl⟩ := ChildOp.write.inj hhead
      refine ⟨hrunning, hinRoom, ?_, left, [], m - k, hp, rfl, ?_, htaken⟩
      · show Function.update s.pipe st (s.pipe st + k) st ≤ c.cap st
        rw [Function.update_self]
        exact hfits
      · show Function.update s.pipe st (s.pipe st + k) st + written st [] + (m - k) = _
        rw [Function.update_self]
        omega
    | cons op pre' =>
      rw [hc] at hc'
      obtain ⟨rfl, rfl⟩ := List.cons.inj hc'
      rw [written_cons, ChildOp.bytes_write] at hgiven
      by_cases hst : st' = st
      · subst hst
        rw [if_pos rfl] at hgiven
        refine ⟨hrunning, hinRoom, ?_, left, .write st' (n' - k) :: pre', m, hp, rfl, ?_, htaken⟩
        · show Function.update s.pipe st' (s.pipe st' + k) st' ≤ c.cap st'
          rw [Function.update_self]
          exact hfits
        · show Function.update s.pipe st' (s.pipe st' + k) st' + written st' (.write st' (n' - k) :: pre') + m = _
          rw [Function.update_self, written_cons, ChildOp.bytes_write, if_pos rfl]
          omega
      · rw [if_neg hst] at hgiven
        have hsame : Function.update s.pipe st' (s.pipe st' + k) st = s.pipe st := Function.update_of_ne (Ne.symm hst) _ _
        refine ⟨hrunning, hinRoom, ?_, left, .write st' (n' - k) :: pre', m, hp, rfl, ?_, htaken⟩
        · show Function.update s.pipe st' (s.pipe st' + k) st ≤ c.cap st
          rw [hsame]
          exact hroom
        · show Function.update s.pipe st' (s.pipe st' + k) st + written st (.write st' (n' - k) :: pre') + m = _
          rw [hsame, written_cons, ChildOp.bytes_write, if_neg hst]
          exact hgiven
  | @childWritten st' n' ops' _ hc' hn' =>
    cases pre' with
    | nil =>
      rw [hc] at hc'
      obtain ⟨hhead, rfl⟩ := List.cons.inj hc'
      obtain ⟨rfl, rfl⟩ := ChildOp.write.inj hhead
      have hzero : m = 0 := hn'.resolve_right (by rw [hcap]; exact Bool.noConfusion)
      rw [written_nil] at hgiven
      omega
    | cons op pre' =>
      rw [hc] at hc'
      obtain ⟨rfl, rfl⟩ := List.cons.inj hc'
      rw [written_cons, bytes_of_written hcap hn', Nat.zero_add] at hgiven
      rw [reads_cons, ChildOp.gets, Nat.zero_add] at htaken
      exact ⟨hrunning, hinRoom, hroom, left, pre', m, hp, rfl, hgiven, htaken⟩

/-- What is written before the input is at its end does not fit. -/
theorem blocked_of_inp {len : Nat} (hinp : c.inp = some len) (hcap : c.captured st = true)
    (hmore : c.cap st < written st pre + n) (hlen : c.capIn + reads pre < len) :
    ∃ s, ReflTransGen c.Step (c.start (pre ++ .write st n :: suf)) s ∧ c.Blocked s := by
  refine exists_blocked (P := InpStuck c len pre st n suf) (fun _ _ h => h.1) (fun s s' h => exists_shortStep h)
    (fun s hs hended => ?_) (fun s s' hs hstep => step_inpStuck hcap hmore hlen hs hstep) ?_
  · obtain ⟨left, -, -, hp, -⟩ := hs.counts
    rw [hp] at hended
    exact hended
  · refine ⟨rfl, Nat.zero_le _, Nat.zero_le _, len, pre, n, ?_, rfl, ?_, rfl⟩
    · unfold start
      rw [hinp]
      rfl
    · show 0 + written st pre + n = _
      omega

/-- The parent and the child block each other in no run exactly if what the child writes fits
into the pipes until the parent reads them. -/
theorem never_blocked_iff (c : ExecProgram) (ops : List ChildOp) :
    (∀ s, ReflTransGen c.Step (c.start ops) s → ¬ s.parent.Ended → ∃ s', c.Step s s') ↔ Fits c ops := by
  constructor
  · intro h
    have hnot : ¬ ∃ s, ReflTransGen c.Step (c.start ops) s ∧ c.Blocked s := by
      rintro ⟨s, hreach, hended, hstep⟩
      obtain ⟨s', hs'⟩ := h s hreach hended
      exact hstep s' hs'
    refine ⟨fun hout herr => ?_, fun len hinp pre st n suf hops hcap hmore => ?_⟩
    · by_contra hmore
      exact hnot (blocked_of_err hout herr (Nat.lt_of_not_le hmore))
    · by_contra hlen
      subst hops
      exact hnot (blocked_of_inp hinp hcap hmore (Nat.lt_of_not_le hlen))
  · intro hfits s hreach hended
    have htracks : Tracks c ops s :=
      reaches_invariant (fun s s' hs hstep => step_tracks hs hstep) hreach (start_tracks c ops)
    by_contra hno
    exact htracks.not_blocked hfits ⟨hended, fun s' hs' => hno ⟨s', hs'⟩⟩

/-- Output and error output are captured, in pipes of 65536 bytes. -/
def bothCaptured : ExecProgram where
  inp := none
  captured _ := true
  capIn := 65536
  cap _ := 65536
  capIn_pos := by decide
  cap_pos _ := by decide

/-- A child that writes 65537 bytes of error output, and nothing else. -/
theorem may_block : ¬ ∀ (c : ExecProgram) (ops : List ChildOp) (s : ExecState),
    ReflTransGen c.Step (c.start ops) s → ¬ s.parent.Ended → ∃ s', c.Step s s' := by
  intro h
  have hmore : bothCaptured.cap .err < written .err [.write .err 65537] := by decide
  obtain ⟨s, hreach, hended, hstep⟩ := blocked_of_err rfl rfl hmore
  obtain ⟨s', hs'⟩ := h bothCaptured [.write .err 65537] s hreach hended
  exact hstep s' hs'

end ExecProgram

end RimStone
