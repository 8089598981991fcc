import Mathlib.Algebra.Group.Pi.Lemmas
import RimStone.Laws.Memory.Counts
import RimStone.Lib.Run

/-!
# References to process-scoped memory

The places that hold a block change with each call: one more where `rim_mem_add_ref` returns, one less
with `rim_mem_dec_process`, and none where the reference is reported to be one too many. The count is
that of the places as long as no reference is added to a block that has `RIM_MAX_REF` of them. It is
raised before it is compared, and the field has no room for what is one more: it wraps to a negative
number, which `rim_mem_dec_process` does not lower and which is not zero, so that the block is
process-scoped forever.
-/

namespace RimStone

open Mem Lib

/-- What happens to references: calls on any blocks, and ends of requests. -/
inductive RefOp where
  /-- `rim_mem_add_ref (s, RIM_MEM_PROCESS)` -/
  | add (s : Addr)
  /-- `rim_mem_dec_process (s)` -/
  | dec (s : Addr)
  /-- the request ends -/
  | done

def RefOp.call : RefOp → MemOp
  | .add s => .addRef s true
  | .dec s => .decProcess s
  | .done => .done

/-- How many places hold each block after a call, where `held` did before it. -/
def RefOp.holders (m : Mem) (held : Addr → ℕ) : RefOp → Addr → ℕ
  | .add s =>
    match m.rimMemAddRef s true with
    | .ok _ => held + Pi.single s 1
    | .error _ => held
  | .dec s => Function.update held s (held s - 1)
  | .done => held

/-- One call, with the places before and after it. A reported error ends the request, and the
process goes on. -/
def RefStep (st : Mem × (Addr → ℕ)) (op : RefOp) (st' : Mem × (Addr → ℕ)) : Prop :=
  st.1.Step op.call st'.1 ∧ st'.2 = op.holders st.1 st.2

/-- No reference is added to a block that has as many as there can be. -/
def RefOp.Room (st : Mem × (Addr → ℕ)) : RefOp → Prop
  | .add s => ∀ status, status.process = true → ¬ st.1.Holds s status RIM_MAX_REF
  | .dec _ | .done => True

/-- Every count is that of the places, and a block is ordinary from the moment the last of them is gone. -/
structure RefsExact (m : Mem) (held : Addr → ℕ) : Prop where
  process : ∀ s status ref, m.Holds s status ref → status.process = true → ref = held s
  ordinary : ∀ s status ref, m.Holds s status ref → status.process = false → held s = 0
  last : ∀ s status ref, m.Live s → (m.rimMemDecProcess s).Holds s status ref →
    (status.process = false ↔ held s ≤ 1)

section References

variable {m m' : Mem} {held : Addr → ℕ} {s : Addr}

/-- Ordinary memory has no reference to drop. -/
theorem rimMemDecProcess_ordinary (h : m.Inv) {status : MemStatus} {ref : Int} (hh : m.Holds s status ref)
    (hp : status.process = false) : m.rimMemDecProcess s = m := by
  obtain ⟨free, ord, ht⟩ := h
  obtain ⟨r, hr, hptr, rfl, rfl, hf⟩ := hh
  have hid : m.rimMemGetId s = some r := ht.id_eq hr (by simp) hf hptr
  unfold rimMemDecProcess
  simp only [hid, hp, Bool.false_eq_true, ↓reduceIte]

/-- A removal, of a block that is held or not. -/
theorem Counted.dec (h : Counted m held ∅) (hs : m.Live s) :
    Counted (m.rimMemDecProcess s) (Function.update held s (held s - 1)) ∅ ∧ ¬ (m.rimMemDecProcess s).Idle s := by
  have hnot : s ∉ (∅ : Set Addr) := Set.notMem_empty s
  have hother : ∀ b, b ≠ s → Function.update held s (held s - 1) b = held b :=
    fun b hb => Function.update_of_ne hb _ _
  by_cases hheld : 0 < held s
  · have hself : held s = Function.update held s (held s - 1) s + 1 := by
      rw [Function.update_self]
      omega
    obtain ⟨hcount, -, hidle⟩ := h.decProcess hs hother (Or.inr (Or.inl ⟨hnot, hself⟩)) ∅
    exact ⟨hcount, fun hi => ((hidle s).mp hi).2 rfl⟩
  · have hzero : held s = 0 := by omega
    have hsame : Function.update held s (held s - 1) = held := by
      rw [hzero, ← hzero, Nat.sub_eq_zero_of_le (by omega), ← hzero, Function.update_eq_self]
    rw [hsame]
    obtain hconst | ⟨status, ref, hh⟩ := (live_iff s).mp hs
    · rw [rimMemDecProcess_const hconst]
      refine ⟨h, ?_⟩
      rintro ⟨status, hh, -⟩
      exact absurd hconst (h.table.not_const hh)
    · cases hp : status.process with
      | true =>
        have href := h.exact s status ref hh hp hnot
        have hi : m.Idle s := ⟨status, by rw [← show ref = 0 by omega]; exact hh, hp⟩
        obtain ⟨hcount, -, hidle⟩ := h.dropIdle hi ∅
        exact ⟨hcount, fun hi => ((hidle s).mp hi).2 rfl⟩
      | false =>
        rw [rimMemDecProcess_ordinary h.table hh hp]
        refine ⟨h, ?_⟩
        rintro ⟨status', hh', hp'⟩
        obtain ⟨rfl, -⟩ := h.table.holds_unique hh hh'
        rw [hp] at hp'
        cases hp'

/-- What is counted is exact, and stays so until the last holder is gone. -/
theorem Counted.refsExact (h : Counted m held ∅) : RefsExact m held := by
  have hnot : ∀ b : Addr, b ∉ (∅ : Set Addr) := fun b => Set.notMem_empty b
  refine ⟨fun s status ref hh hp => h.exact s status ref hh hp (hnot s),
    fun s status ref hh hp => h.ordinary s status ref hh hp (hnot s), fun s status ref hs hh => ?_⟩
  obtain ⟨hcount, hidle⟩ := h.dec hs
  constructor
  · intro hp
    have hzero := hcount.ordinary s status ref hh hp (hnot s)
    rw [Function.update_self] at hzero
    omega
  · intro hle
    by_contra hp
    rw [Bool.not_eq_false] at hp
    have href := hcount.exact s status ref hh hp (hnot s)
    rw [Function.update_self] at href
    exact hidle ⟨status, by rw [← show ref = 0 by omega]; exact hh, hp⟩

/-- Every call that adds no reference too many keeps the counts exact. -/
theorem refStep_counted {st st' : Mem × (Addr → ℕ)} {op : RefOp} (h : Counted st.1 st.2 ∅) (hroom : op.Room st)
    (hstep : RefStep st op st') : Counted st'.1 st'.2 ∅ := by
  obtain ⟨m, held⟩ := st
  obtain ⟨m', held'⟩ := st'
  obtain ⟨⟨hlegal, hexec⟩, hheld⟩ := hstep
  dsimp only at hheld hexec hlegal h ⊢
  subst hheld
  cases op with
  | add s =>
    obtain ⟨m₁, hok, -, -⟩ := rimMemAddRef_referred h.table hlegal fun status hh => by
      by_contra hp
      exact hroom status (by simpa using hp) hh
    have hadd : RefOp.holders m held (.add s) = held + Pi.single s 1 := by simp only [RefOp.holders, hok]
    have hexec : Outcome (m.rimMemAddRef s true) m' := hexec
    rw [hok] at hexec
    cases hexec
    rw [hadd]
    exact (h.addRef hlegal hok ∅).1
  | dec s =>
    cases hexec
    exact (h.dec hlegal).1
  | done =>
    obtain ⟨m₁, hok, hcount, -, -⟩ := h.done
    have hexec : Outcome m.rimDone m' := hexec
    rw [hok] at hexec
    cases hexec
    exact hcount

/-- As long as no block is given more references than there can be, every count is exact. -/
theorem guarded_run_refsExact {m m' : Mem} {held held' : Addr → ℕ} {ops : List RefOp} (h : Counted m held ∅)
    (hrun : GuardedRun RefStep RefOp.Room (m, held) ops (m', held')) : RefsExact m' held' :=
  (hrun.invariant (P := fun st => Counted st.1 st.2 ∅) refStep_counted h).refsExact

/-! ## One reference too many -/

/-- The reference that is one too many is reported, and the count is lost. -/
theorem rimMemAddRef_overflow (h : m.Inv) {status : MemStatus} (hh : m.Holds s status RIM_MAX_REF)
    (hp : status.process = true) :
    ∃ message m', m.rimMemAddRef s true = .error (.report message m') ∧ m'.Holds s status (-256) := by
  obtain ⟨free, ord, ht⟩ := h
  obtain ⟨r, hr, hptr, rfl, href, hf⟩ := hh
  have hid : m.rimMemGetId s = some r := ht.id_eq hr (by simp) hf hptr
  have hwrap : bitField9 (RIM_MAX_REF + 1) = -256 := rfl
  have hreport : m.rimMemAddRef s true = .error (.report
      "Too many process-scoped memory references, use constants or make copies instead or consider changing the logic"
      (m.setVm r fun e => { e with ref := -256 })) := by
    unfold rimMemAddRef
    simp only [hid, hp, Bool.not_true, Bool.false_eq_true, ↓reduceIte, href, hwrap]
  refine ⟨_, _, hreport, r, hr, ?_, ?_, ?_, ?_⟩
  all_goals simp [hptr, hf]

theorem refStep_add (hs : m.Live s) (hok : m.rimMemAddRef s true = .ok m') :
    RefStep (m, held) (.add s) (m', held + Pi.single s 1) := by
  refine ⟨⟨hs, ?_⟩, by simp only [RefOp.holders, hok]⟩
  show Outcome (m.rimMemAddRef s true) m'
  rw [hok]
  exact .returned m'

theorem refStep_reported (hs : m.Live s) {message : String} (hreport : m.rimMemAddRef s true = .error (.report message m')) :
    RefStep (m, held) (.add s) (m', held) := by
  refine ⟨⟨hs, ?_⟩, by simp only [RefOp.holders, hreport]⟩
  show Outcome (m.rimMemAddRef s true) m'
  rw [hreport]
  exact .reported message m'

theorem refStep_dec (hs : m.Live s) :
    RefStep (m, held) (.dec s) (m.rimMemDecProcess s, Function.update held s (held s - 1)) := ⟨⟨hs, .returned _⟩, rfl⟩

theorem refStep_done (hok : m.rimDone = .ok m') : RefStep (m, held) .done (m', held) := by
  refine ⟨⟨trivial, ?_⟩, rfl⟩
  show Outcome m.rimDone m'
  rw [hok]
  exact .returned m'

/-- References are added to one block, as many as there can be. -/
theorem run_adds (h : Counted m 0 ∅) (hs : m.Live s) (hid : m.rimMemGetId s ≠ none) {n : ℕ} (hn : n ≤ 255) :
    ∃ m', Run RefStep (m, 0) (List.replicate n (.add s)) (m', Pi.single s n) ∧
      Counted m' (Pi.single s n) ∅ ∧ m'.Live s ∧ m'.rimMemGetId s ≠ none := by
  induction n with
  | zero =>
    rw [Pi.single_zero]
    exact ⟨m, .nil _, h, hs, hid⟩
  | succ n ih =>
    obtain ⟨m₁, hrun, hcount, hlive, hconst⟩ := ih (by omega)
    have hroom : ∀ status, m₁.Holds s status RIM_MAX_REF → status.process = false := by
      intro status hh
      by_contra hp
      have href := hcount.exact s status RIM_MAX_REF hh (by simpa using hp) (Set.notMem_empty s)
      rw [Pi.single_eq_same, show RIM_MAX_REF = 255 from rfl] at href
      omega
    obtain ⟨m₂, hok, -, hchange⟩ := rimMemAddRef_referred hcount.table hlive hroom
    have hnext := (hcount.addRef hlive hok ∅).1
    have hstep : RefStep (m₁, Pi.single s n) (.add s) (m₂, Pi.single s n + Pi.single s 1) := refStep_add hlive hok
    rw [← Pi.single_add] at hnext hstep
    refine ⟨m₂, ?_, hnext, hchange.live hlive, fun hnone => hconst ((hchange.const s).mp hnone)⟩
    rw [List.replicate_succ']
    exact hrun.append (.cons trivial hstep (.nil _))

end References

theorem malloc_counted : ∃ m, ({} : Mem).rimMalloc (some 1) 8 = .ok (1, m) ∧ Counted m 0 ∅ ∧ m.Live 1 ∧
    m.rimMemGetId 1 ≠ none := by
  have hfresh : ({} : Mem).Fresh 1 := fun r hr => absurd hr (Nat.not_lt_zero r)
  have hroom : ({} : Mem).Room := Or.inr (Or.inr (by decide))
  obtain ⟨m, hok, -, hnew⟩ := rimMalloc_allocated inv_init hroom hfresh 8
  have hholds : m.Holds 1 {} 0 := (hnew.holds 1 _ _).mpr (Or.inl ⟨rfl, rfl, rfl⟩)
  obtain ⟨hcount, -, -⟩ := counted_init.malloc hfresh rfl (Set.notMem_empty 1) hok
  exact ⟨m, hok, hcount, hholds.live, hcount.table.not_const hholds⟩

/-- A block gets a holder and loses it, and the request ends. -/
theorem guarded_run_refsExact_held : ∃ m m' held', ({} : Mem).rimMalloc (some 1) 8 = .ok (1, m) ∧
    GuardedRun RefStep RefOp.Room (m, 0) [.add 1, .dec 1, .done] (m', held') ∧ RefsExact m' held' := by
  obtain ⟨m, hok, hcount, hlive, -⟩ := malloc_counted
  have hroom : ∀ status, status.process = true → ¬ m.Holds 1 status RIM_MAX_REF := by
    intro status hp hh
    cases hcount.exact 1 status RIM_MAX_REF hh hp (Set.notMem_empty 1)
  obtain ⟨m₁, hadd, -, hchange⟩ := rimMemAddRef_referred hcount.table hlive fun status hh => by
    by_contra hp
    exact hroom status (by simpa using hp) hh
  have hlive₁ := hchange.live hlive
  obtain ⟨hcount₂, -⟩ := (hcount.addRef hlive hadd ∅).1.dec hlive₁
  obtain ⟨m₃, hdone, -⟩ := hcount₂.done
  have hrun : GuardedRun RefStep RefOp.Room (m, 0) [.add 1, .dec 1, .done] (m₃, _) :=
    .cons hroom (refStep_add hlive hadd) (.cons trivial (refStep_dec hlive₁)
      (.cons trivial (refStep_done hdone) (.nil _)))
  exact ⟨m, m₃, _, hok, hrun, guarded_run_refsExact hcount hrun⟩

/-- After 256 references to one block, one of which was reported, its count is not that of its holders. -/
theorem run_not_refsExact : ∃ m, ({} : Mem).rimMalloc (some 1) 8 = .ok (1, m) ∧ Counted m 0 ∅ ∧
    ∃ m' held', Run RefStep (m, 0) (List.replicate 256 (.add 1)) (m', held') ∧ ¬ RefsExact m' held' := by
  obtain ⟨m, hok, hcount, hlive, hid⟩ := malloc_counted
  obtain ⟨m₁, hrun, hcount₁, hlive₁, hid₁⟩ := run_adds hcount hlive hid (Nat.le_refl 255)
  have hnot : (1 : Addr) ∉ (∅ : Set Addr) := Set.notMem_empty 1
  obtain hconst | ⟨status, ref, hh⟩ := (live_iff 1).mp hlive₁
  · exact absurd hconst hid₁
  · have hp : status.process = true := by
      by_contra hp
      have hzero := hcount₁.ordinary 1 status ref hh (by simpa using hp) hnot
      rw [Pi.single_eq_same] at hzero
      cases hzero
    obtain rfl : ref = RIM_MAX_REF := by
      have href := hcount₁.exact 1 status ref hh hp hnot
      rw [Pi.single_eq_same] at href
      exact href
    obtain ⟨message, m₂, hreport, hh₂⟩ := rimMemAddRef_overflow hcount₁.table hh hp
    refine ⟨m, hok, hcount, m₂, Pi.single 1 255, ?_, fun hexact => ?_⟩
    · rw [List.replicate_succ']
      exact hrun.append (.cons trivial (refStep_reported hlive₁ hreport) (.nil _))
    · have href := hexact.process 1 status (-256) hh₂ hp
      rw [Pi.single_eq_same] at href
      cases href

end RimStone
