import RimStone.Laws.Memory.Release
import RimStone.Memory.Str
import Mathlib.Algebra.Group.Pi.Basic
import Mathlib.Data.Set.Insert

/-!
# Reference counts

The count of a process-scoped block is to be the number of places that hold it.
`Counted m holders` says that it is: `holders a` is how many places hold the block
at `a`, a block nobody holds is ordinary (or was never held, `Mem.Idle`), and
whatever is held is there.

A data structure adds a reference for each place it fills and drops one for each
place it empties; the laws below follow one such call each, with the holders as
they are once the place is filled or empty. A statement that drops one reference
too many is exact in the end only if no place is left to hold the block. Such
blocks are `loose` while the statement runs: their counts are no more than their
holders.
-/

namespace RimStone

open Mem

namespace Mem

/-- A process-scoped block without references: the memory of a data structure, or a
string that nothing held yet. -/
def Idle (m : Mem) (a : Addr) : Prop := ∃ status, m.Holds a status 0 ∧ status.process = true

end Mem

instance (m : Mem) (a : Addr) : Decidable (m.Live a) :=
  inferInstanceAs (Decidable (_ ∨ ∃ r, r < m.vmCurr ∧ _))

instance (m : Mem) (a : Addr) : Decidable (m.Fresh a) :=
  inferInstanceAs (Decidable (∀ r, r < m.vmCurr → _))

/-- Every count is the number of holders, but for the loose blocks. -/
structure Counted (m : Mem) (holders : Addr → ℕ) (loose : Set Addr) : Prop where
  table : m.Inv
  exact : ∀ a status ref, m.Holds a status ref → status.process = true → a ∉ loose →
    ref = holders a
  atMost : ∀ a status ref, m.Holds a status ref → status.process = true → a ∈ loose →
    0 < ref ∧ ref ≤ holders a
  max : ∀ a status ref, m.Holds a status ref → status.process = true → ref ≤ RIM_MAX_REF
  ordinary : ∀ a status ref, m.Holds a status ref → status.process = false → a ∉ loose →
    holders a = 0
  held : ∀ a, 0 < holders a → m.Live a
  there : ∀ a ∈ loose, m.Live a

/-- What every call leaves as it was: the mode, the live pointers, and the constants
and unused addresses but for those that were handed out. -/
structure Mem.Keeps (m m' : Mem) (new : Set Addr) : Prop where
  mode : m'.rimMemProcess = m.rimMemProcess
  live : ∀ b, m.Live b → m'.Live b
  const : ∀ b, b ∉ new → m.rimMemGetId b = none → m'.rimMemGetId b = none
  fresh : ∀ b, b ∉ new → m.Fresh b → m'.Fresh b

theorem Mem.Keeps.refl (m : Mem) (new : Set Addr) : m.Keeps m new :=
  ⟨rfl, fun _ hb => hb, fun _ _ hb => hb, fun _ _ hb => hb⟩

theorem Mem.Keeps.trans {m m' m'' : Mem} {new : Set Addr} (h : m.Keeps m' new)
    (h' : m'.Keeps m'' new) : m.Keeps m'' new :=
  ⟨h'.mode.trans h.mode, fun b hb => h'.live b (h.live b hb),
    fun b hn hb => h'.const b hn (h.const b hn hb),
    fun b hn hb => h'.fresh b hn (h.fresh b hn hb)⟩

theorem Mem.Keeps.mono {m m' : Mem} {new new' : Set Addr} (h : m.Keeps m' new) (hsub : new ⊆ new') : m.Keeps m' new' :=
  ⟨h.mode, h.live, fun b hb => h.const b fun hn => hb (hsub hn),
    fun b hb => h.fresh b fun hn => hb (hsub hn)⟩

section Counted

variable {m m' : Mem} {holders : Addr → ℕ} {loose : Set Addr} {a : Addr}

theorem Counted.setMode (h : Counted m holders loose) (process : Bool) :
    Counted { m with rimMemProcess := process } holders loose := by
  obtain ⟨free, ord, ht⟩ := h.table
  refine ⟨⟨free, ord, ?_⟩, h.exact, h.atMost, h.max, h.ordinary, h.held, h.there⟩
  exact ht.congr rfl rfl rfl (fun _ => rfl) (fun _ => rfl) (fun _ => rfl) (fun _ => rfl) fun _ => rfl

theorem counted_init : Counted {} 0 ∅ := by
  refine ⟨inv_init, ?_, ?_, ?_, ?_, fun a ha => absurd ha (Nat.lt_irrefl 0),
    fun a ha => absurd ha (Set.notMem_empty a)⟩
  all_goals
    rintro a status ref ⟨r, hr, -⟩
    exact absurd hr (Nat.not_lt_zero r)

variable {status : MemStatus} {calls : List MemCall} {p : Addr} {size : Nat}

theorem Mem.Holds.live {ref : Int} (h : m.Holds a status ref) : m.Live a :=
  (live_iff a).mpr (Or.inr ⟨status, ref, h⟩)

theorem Mem.Idle.live (h : m.Idle a) : m.Live a := by
  obtain ⟨status, hh, -⟩ := h
  exact hh.live

theorem Mem.Fresh.not_holds (h : m.Fresh a) {ref : Int} : ¬ m.Holds a status ref := by
  rintro ⟨r, hr, hp, rfl, -, hf⟩
  exact h r hr hf hp

theorem Mem.fresh_of_not_holds (h : ∀ status ref, ¬ m.Holds a status ref) : m.Fresh a :=
  fun r hr hf hp => h (m.vm r).status (m.vm r).ref ⟨r, hr, hp, rfl, rfl, hf⟩

theorem Mem.Fresh.not_idle (h : m.Fresh a) : ¬ m.Idle a := by
  rintro ⟨status, hh, -⟩
  exact h.not_holds hh

theorem Counted.idle_holders (h : Counted m holders loose) (hi : m.Idle a) (hl : a ∉ loose) : holders a = 0 := by
  obtain ⟨status, hh, hp⟩ := hi
  have hzero := h.exact a status 0 hh hp hl
  omega

theorem Counted.not_loose_of_idle (h : Counted m holders loose) (hi : m.Idle a) : a ∉ loose := by
  intro hl
  obtain ⟨status, hh, hp⟩ := hi
  have hpos := (h.atMost a status 0 hh hp hl).1
  omega

/-- A block may be let loose while it is held. -/
theorem Counted.loosen (h : Counted m holders ∅) (hl : ∀ a ∈ loose, 0 < holders a) : Counted m holders loose := by
  have hnot : ∀ a : Addr, a ∉ (∅ : Set Addr) := fun a => Set.notMem_empty a
  refine ⟨h.table, fun a status ref hh hp _ => h.exact a status ref hh hp (hnot a),
    fun a status ref hh hp ha => ?_, h.max,
    fun a status ref hh hp _ => h.ordinary a status ref hh hp (hnot a), h.held,
    fun a ha => h.held a (hl a ha)⟩
  have href := h.exact a status ref hh hp (hnot a)
  have hpos := hl a ha
  omega

/-- When no place holds the loose blocks, they are ordinary: all counts are exact. -/
theorem Counted.tighten (h : Counted m holders loose) (hl : ∀ a ∈ loose, holders a = 0) : Counted m holders ∅ := by
  have hproc : ∀ a status ref, m.Holds a status ref → status.process = true → a ∉ loose := by
    intro a status ref hh hp ha
    obtain ⟨hpos, hle⟩ := h.atMost a status ref hh hp ha
    have hzero := hl a ha
    omega
  refine ⟨h.table, fun a status ref hh hp _ => h.exact a status ref hh hp (hproc a status ref hh hp),
    fun a _ _ _ _ ha => absurd ha (Set.notMem_empty a), h.max, fun a status ref hh hp _ => ?_,
    h.held, fun a ha => absurd ha (Set.notMem_empty a)⟩
  by_cases ha : a ∈ loose
  · exact hl a ha
  · exact h.ordinary a status ref hh hp ha

/-- A call that changes one block leaves the same pointers live. -/
theorem Mem.BlockChange.live {f : MemStatus → Int → MemStatus × Int} (hc : BlockChange m a f m')
    {b : Addr} (hb : m.Live b) : m'.Live b := by
  rw [live_iff] at hb ⊢
  rcases hb with hconst | ⟨status, ref, hh⟩
  · exact Or.inl ((hc.const b).mpr hconst)
  · by_cases hba : b = a
    · subst hba
      exact Or.inr ⟨(f status ref).1, (f status ref).2, (hc.holds _ _ _).mpr (Or.inr ⟨rfl, status, ref, hh, rfl⟩)⟩
    · exact Or.inr ⟨status, ref, (hc.holds _ _ _).mpr (Or.inl ⟨hba, hh⟩)⟩

theorem Mem.BlockChange.keeps {f : MemStatus → Int → MemStatus × Int} (hc : BlockChange m a f m')
    (new : Set Addr) : m.Keeps m' new := by
  refine ⟨hc.mode, fun _ hb => hc.live hb, fun b _ hb => (hc.const b).mpr hb, fun b _ hb => ?_⟩
  refine fresh_of_not_holds fun status ref hh => ?_
  rcases (hc.holds b status ref).mp hh with ⟨-, hh⟩ | ⟨rfl, status₀, ref₀, hh, -⟩
  · exact hb.not_holds hh
  · exact hb.not_holds hh

/-! ## Calls -/

theorem runCalls_cons {c : MemCall} :
    m.runCalls (c :: calls) = .ok m' ↔ ∃ m₁, c.run m = .ok m₁ ∧ m₁.runCalls calls = .ok m' := by
  unfold runCalls
  rw [List.foldlM_cons]
  cases hc : c.run m with
  | error e => simp [bind, Except.bind]
  | ok m₁ => simp [bind, Except.bind]

theorem runCalls_append {calls' : List MemCall} :
    m.runCalls (calls ++ calls') = .ok m' ↔ ∃ m₁, m.runCalls calls = .ok m₁ ∧ m₁.runCalls calls' = .ok m' := by
  unfold runCalls
  rw [List.foldlM_append]
  cases hc : calls.foldlM MemCall.run m with
  | error e => simp [bind, Except.bind]
  | ok m₁ => simp [bind, Except.bind]

/-- A call to drop a reference returns. -/
theorem runCalls_decProcess {s : Addr} :
    m.runCalls (.decProcess s :: calls) = (m.rimMemDecProcess s).runCalls calls := rfl

/-! ## References -/

/-- A reference to a constant is not counted. -/
theorem rimMemAddRef_const (hconst : m.rimMemGetId a = none) (process : Bool) : m.rimMemAddRef a process = .ok m := by
  unfold rimMemAddRef
  rw [hconst]

theorem rimMemDecProcess_const (hconst : m.rimMemGetId a = none) : m.rimMemDecProcess a = m := by
  unfold rimMemDecProcess
  rw [hconst]

/-- A reference that was added was not one too many. -/
theorem addRef_not_max (h : m.Inv) (hok : m.rimMemAddRef a true = .ok m') (hh : m.Holds a status RIM_MAX_REF) :
    status.process = false := by
  obtain ⟨free, ord, ht⟩ := h
  obtain ⟨r, hr, hp, rfl, href, hf⟩ := hh
  have hid : m.rimMemGetId a = some r := ht.id_eq hr (by simp) hf hp
  by_contra hproc
  simp only [Bool.not_eq_false] at hproc
  simp only [rimMemAddRef, hid, hproc, Bool.not_true, Bool.false_eq_true, ↓reduceIte, href] at hok
  cases hok

/-- A place is filled: `rim_mem_add_ref` counts it. -/
theorem Counted.addRef (h : Counted m holders ∅) (ha : m.Live a)
    (hok : m.rimMemAddRef a true = .ok m') (new : Set Addr) :
    Counted m' (holders + Pi.single a 1) ∅ ∧ m.Keeps m' new ∧ ∀ b, m'.Idle b ↔ m.Idle b ∧ b ≠ a := by
  have hnot : ∀ b : Addr, b ∉ (∅ : Set Addr) := fun b => Set.notMem_empty b
  obtain ⟨m₁, hok₁, hinv, hc⟩ := rimMemAddRef_referred h.table ha
    fun status hh => addRef_not_max h.table hok hh
  obtain rfl : m₁ = m' := by
    rw [hok] at hok₁
    exact (Except.ok.inj hok₁).symm
  -- the block as it is now: process-scoped, with one more reference
  have hself : ∀ status ref, m₁.Holds a status ref → status.process = true ∧
      ref = holders a + 1 ∧ ref ≤ RIM_MAX_REF := by
    intro status ref hh
    rcases (hc.holds a status ref).mp hh with ⟨hne, -⟩ | ⟨-, status₀, ref₀, hh₀, hf⟩
    · exact absurd rfl hne
    · unfold referred at hf
      cases hp : status₀.process with
      | false =>
        rw [if_neg (by simp [hp])] at hf
        obtain ⟨rfl, rfl⟩ := Prod.mk.inj hf
        have hzero := h.ordinary a status₀ ref₀ hh₀ hp (hnot a)
        refine ⟨by simp [MemStatus.or], by omega, by decide⟩
      | true =>
        rw [if_pos hp] at hf
        obtain ⟨rfl, rfl⟩ := Prod.mk.inj hf
        have href := h.exact a status₀ ref₀ hh₀ hp (hnot a)
        have hmax := h.max a status₀ ref₀ hh₀ hp
        have hlt : ref₀ ≠ RIM_MAX_REF := by
          rintro rfl
          have := addRef_not_max h.table hok hh₀
          rw [hp] at this
          cases this
        have hlim : RIM_MAX_REF = 255 := rfl
        have hbit : bitField9 (ref₀ + 1) = ref₀ + 1 := by
          unfold bitField9
          rw [Int.bmod_eq_emod]
          split_ifs <;> omega
        rw [hbit]
        exact ⟨hp, by omega, by omega⟩
  have hother : ∀ b status ref, b ≠ a → (m₁.Holds b status ref ↔ m.Holds b status ref) := by
    intro b status ref hb
    rw [hc.holds]
    simp [hb]
  refine ⟨⟨hinv, fun b status ref hh hp _ => ?_, fun b _ _ _ _ hb => absurd hb (hnot b),
    fun b status ref hh hp => ?_, fun b status ref hh hp _ => ?_, fun b hb => ?_,
    fun b hb => absurd hb (hnot b)⟩, hc.keeps new, fun b => ?_⟩
  · by_cases hb : b = a
    · subst hb
      have := (hself status ref hh).2.1
      simpa using this
    · simpa [hb] using h.exact b status ref ((hother b status ref hb).mp hh) hp (hnot b)
  · by_cases hb : b = a
    · subst hb
      exact (hself status ref hh).2.2
    · exact h.max b status ref ((hother b status ref hb).mp hh) hp
  · by_cases hb : b = a
    · subst hb
      have := (hself status ref hh).1
      rw [hp] at this
      cases this
    · simpa [hb] using h.ordinary b status ref ((hother b status ref hb).mp hh) hp (hnot b)
  · by_cases hba : b = a
    · subst hba
      exact hc.live ha
    · refine hc.live (h.held b ?_)
      simpa [hba] using hb
  · constructor
    · rintro ⟨status, hh, hp⟩
      have hb : b ≠ a := by
        rintro rfl
        have := (hself status 0 hh).2.1
        omega
      exact ⟨⟨status, (hother b status 0 hb).mp hh, hp⟩, hb⟩
    · rintro ⟨⟨status, hh, hp⟩, hb⟩
      exact ⟨status, (hother b status 0 hb).mpr hh, hp⟩

/-- What `rim_mem_dec_process` does to the counts, when `holders` are the places that
hold blocks after it: a place of `a` was emptied, or `a` is loose, or idle. -/
theorem Counted.decProcess {before : Addr → ℕ} (h : Counted m before loose) (ha : m.Live a)
    (hother : ∀ b, b ≠ a → holders b = before b)
    (hself : (a ∈ loose ∧ before a ≤ holders a + 1) ∨ (a ∉ loose ∧ before a = holders a + 1) ∨
      (m.Idle a ∧ holders a = 0)) (new : Set Addr) :
    Counted (m.rimMemDecProcess a) holders loose ∧ m.Keeps (m.rimMemDecProcess a) new ∧
      ∀ b, (m.rimMemDecProcess a).Idle b ↔ m.Idle b ∧ b ≠ a := by
  obtain ⟨hinv, hc⟩ := rimMemDecProcess_dropped h.table ha
  have hidle : m.Idle a → ∀ status ref, m.Holds a status ref → ref = 0 := by
    rintro ⟨status₀, hh₀, -⟩ status ref hh
    exact (h.table.holds_unique hh hh₀).2
  -- the block as it is now
  have hnow : ∀ status ref, (m.rimMemDecProcess a).Holds a status ref →
      (status.process = true → 0 < ref ∧ ref ≤ RIM_MAX_REF ∧ (a ∉ loose → ref = holders a) ∧
        ref ≤ holders a) ∧
      (status.process = false → a ∉ loose → holders a = 0) := by
    intro status ref hh
    rcases (hc.holds a status ref).mp hh with ⟨hne, -⟩ | ⟨-, status₀, ref₀, hh₀, hf⟩
    · exact absurd rfl hne
    · have hlim : RIM_MAX_REF = 255 := rfl
      unfold dropped at hf
      cases hp : status₀.process with
      | false =>
        -- ordinary memory is left alone, and nothing held it
        rw [if_neg (by simp [hp])] at hf
        obtain ⟨rfl, rfl⟩ := Prod.mk.inj hf
        refine ⟨fun hproc => Bool.noConfusion (hp.symm.trans hproc), fun _ hl => ?_⟩
        have hzero := h.ordinary a status₀ ref₀ hh₀ hp hl
        rcases hself with ⟨hl', -⟩ | ⟨-, hself⟩ | ⟨-, hself⟩
        · exact absurd hl' hl
        · omega
        · exact hself
      | true =>
        rw [if_pos hp] at hf
        have hmax := h.max a status₀ ref₀ hh₀ hp
        by_cases hpos : ref₀ > 0
        · have hbit : bitField9 (ref₀ - 1) = ref₀ - 1 := by
            unfold bitField9
            rw [Int.bmod_eq_emod]
            split_ifs <;> omega
          have hcount : (a ∉ loose → ref₀ - 1 = holders a) ∧ ref₀ - 1 ≤ holders a := by
            rcases hself with ⟨hl, hle⟩ | ⟨hl, heq⟩ | ⟨hi, -⟩
            · have hle₀ := (h.atMost a status₀ ref₀ hh₀ hp hl).2
              exact ⟨fun hl' => absurd hl hl', by omega⟩
            · have href := h.exact a status₀ ref₀ hh₀ hp hl
              exact ⟨fun _ => by omega, by omega⟩
            · have hzero := hidle hi status₀ ref₀ hh₀
              omega
          simp only [hpos, ↓reduceIte, hbit] at hf
          by_cases hzero : ref₀ - 1 = 0
          · rw [if_pos hzero] at hf
            obtain ⟨rfl, rfl⟩ := Prod.mk.inj hf
            refine ⟨fun hproc => Bool.noConfusion hproc, fun _ hl => ?_⟩
            have := hcount.1 hl
            omega
          · rw [if_neg hzero] at hf
            obtain ⟨rfl, rfl⟩ := Prod.mk.inj hf
            exact ⟨fun _ => ⟨by omega, by omega, hcount⟩,
              fun hproc => Bool.noConfusion (hp.symm.trans hproc)⟩
        · -- the block is idle
          have hzero : ref₀ = 0 ∧ (a ∉ loose → holders a = 0) := by
            rcases hself with ⟨hl, -⟩ | ⟨hl, heq⟩ | ⟨hi, hself⟩
            · have := (h.atMost a status₀ ref₀ hh₀ hp hl).1
              omega
            · have := h.exact a status₀ ref₀ hh₀ hp hl
              omega
            · exact ⟨hidle hi status₀ ref₀ hh₀, fun _ => hself⟩
          rw [if_neg hpos, if_pos hzero.1] at hf
          obtain ⟨rfl, rfl⟩ := Prod.mk.inj hf
          exact ⟨fun hproc => Bool.noConfusion hproc, fun _ => hzero.2⟩
  have hrest : ∀ b status ref, b ≠ a →
      ((m.rimMemDecProcess a).Holds b status ref ↔ m.Holds b status ref) := by
    intro b status ref hb
    rw [hc.holds]
    simp [hb]
  refine ⟨⟨hinv, fun b status ref hh hp hl => ?_, fun b status ref hh hp hl => ?_,
    fun b status ref hh hp => ?_, fun b status ref hh hp hl => ?_, fun b hb => ?_,
    fun b hb => hc.live (h.there b hb)⟩, hc.keeps new, fun b => ?_⟩
  · by_cases hb : b = a
    · subst hb
      exact ((hnow status ref hh).1 hp).2.2.1 hl
    · rw [hother b hb]
      exact h.exact b status ref ((hrest b status ref hb).mp hh) hp hl
  · by_cases hb : b = a
    · subst hb
      obtain ⟨hpos, -, -, hle⟩ := (hnow status ref hh).1 hp
      exact ⟨hpos, hle⟩
    · rw [hother b hb]
      exact h.atMost b status ref ((hrest b status ref hb).mp hh) hp hl
  · by_cases hb : b = a
    · subst hb
      exact ((hnow status ref hh).1 hp).2.1
    · exact h.max b status ref ((hrest b status ref hb).mp hh) hp
  · by_cases hb : b = a
    · subst hb
      exact (hnow status ref hh).2 hp hl
    · rw [hother b hb]
      exact h.ordinary b status ref ((hrest b status ref hb).mp hh) hp hl
  · by_cases hba : b = a
    · subst hba
      exact hc.live ha
    · rw [hother b hba] at hb
      exact hc.live (h.held b hb)
  · constructor
    · rintro ⟨status, hh, hp⟩
      have hb : b ≠ a := by
        rintro rfl
        have := ((hnow status 0 hh).1 hp).1
        omega
      exact ⟨⟨status, (hrest b status 0 hb).mp hh, hp⟩, hb⟩
    · rintro ⟨⟨status, hh, hp⟩, hb⟩
      exact ⟨status, (hrest b status 0 hb).mpr hh, hp⟩

/-- A place is emptied: `rim_mem_dec_process` drops its reference. -/
theorem Counted.dropRef (h : Counted m (holders + Pi.single a 1) loose) (new : Set Addr) :
    Counted (m.rimMemDecProcess a) holders loose ∧ m.Keeps (m.rimMemDecProcess a) new ∧
      ∀ b, (m.rimMemDecProcess a).Idle b ↔ m.Idle b := by
  have hone : (holders + Pi.single a 1 : Addr → ℕ) a = holders a + 1 := by simp
  have hlive : m.Live a := h.held a (by omega)
  have hother : ∀ b, b ≠ a → holders b = (holders + Pi.single a 1 : Addr → ℕ) b := fun b hb => by simp [hb]
  obtain ⟨hcount, hkeep, hidle⟩ := h.decProcess hlive hother
    (by
      by_cases hl : a ∈ loose
      · exact Or.inl ⟨hl, by omega⟩
      · exact Or.inr (Or.inl ⟨hl, hone⟩)) new
  refine ⟨hcount, hkeep, fun b => (hidle b).trans ⟨fun hb => hb.1, fun hb => ⟨hb, ?_⟩⟩⟩
  rintro rfl
  have hzero := h.idle_holders hb (h.not_loose_of_idle hb)
  omega

/-- One reference too many is dropped from a loose block. -/
theorem Counted.dropLoose (h : Counted m holders loose) (ha : a ∈ loose) (new : Set Addr) :
    Counted (m.rimMemDecProcess a) holders loose ∧ m.Keeps (m.rimMemDecProcess a) new ∧
      ∀ b, (m.rimMemDecProcess a).Idle b ↔ m.Idle b := by
  obtain ⟨hcount, hkeep, hidle⟩ := h.decProcess (h.there a ha) (fun _ _ => rfl)
    (Or.inl ⟨ha, Nat.le_succ _⟩) new
  refine ⟨hcount, hkeep, fun b => (hidle b).trans ⟨fun hb => hb.1, fun hb => ⟨hb, ?_⟩⟩⟩
  rintro rfl
  exact h.not_loose_of_idle hb ha

/-- The memory of a structure is given up. -/
theorem Counted.dropIdle (h : Counted m holders loose) (ha : m.Idle a) (new : Set Addr) :
    Counted (m.rimMemDecProcess a) holders loose ∧ m.Keeps (m.rimMemDecProcess a) new ∧
      ∀ b, (m.rimMemDecProcess a).Idle b ↔ m.Idle b ∧ b ≠ a :=
  h.decProcess ha.live (fun _ _ => rfl)
    (Or.inr (Or.inr ⟨ha, h.idle_holders ha (h.not_loose_of_idle ha)⟩)) new

/-- The calls of a statement run in the scope of its structure. -/
theorem Mem.inScope_ok {process : Bool} (h : m.inScope process calls = .ok m') :
    ∃ m₁, Mem.runCalls { m with rimMemProcess := process } calls = .ok m₁ ∧
      m' = { m₁ with rimMemProcess := false } := by
  unfold inScope at h
  cases hrun : Mem.runCalls { m with rimMemProcess := process } calls with
  | error e =>
    simp only [hrun, bind, Except.bind] at h
    cases h
  | ok m₁ =>
    simp only [hrun, bind, Except.bind] at h
    exact ⟨m₁, rfl, (Except.ok.inj h).symm⟩

/-! ## Allocating -/

theorem room_of_malloc {r : Addr × Mem} (hok : m.rimMalloc (some p) size = .ok r) : m.Room := by
  by_contra hroom
  simp only [Room, not_or, not_not, Nat.not_lt] at hroom
  obtain ⟨hfree, hcurr, htot⟩ := hroom
  have htake : ∃ s, m.takeVm = .error (.report "Too many variables in the program" s) := by
    unfold takeVm
    simp only [hfree]
    rw [if_pos hcurr, if_pos htot]
    exact ⟨_, rfl⟩
  obtain ⟨s, hs⟩ := htake
  simp only [rimMalloc, rimAddMem, hs, bind, Except.bind] at hok
  cases hok

/-- A new block: nobody holds it. -/
theorem Counted.malloc {r : Addr × Mem} (h : Counted m holders loose) (hfresh : m.Fresh p) (hzero : holders p = 0)
    (hl : p ∉ loose) (hok : m.rimMalloc (some p) size = .ok r) :
    Counted r.2 holders loose ∧ m.Keeps r.2 {p} ∧ ∀ b, r.2.Idle b ↔ m.Idle b ∨ (b = p ∧ m.rimMemProcess = true) := by
  obtain ⟨m₁, hok₁, hinv, ha⟩ := rimMalloc_allocated h.table (room_of_malloc hok) hfresh size
  obtain rfl : (p, m₁) = r := by
    rw [hok] at hok₁
    exact (Except.ok.inj hok₁).symm
  have hlive : ∀ b, m.Live b → m₁.Live b := by
    intro b hb
    rw [live_iff] at hb ⊢
    by_cases hbp : b = p
    · exact Or.inr ⟨_, _, (ha.holds b _ _).mpr (Or.inl ⟨hbp, rfl, rfl⟩)⟩
    · rcases hb with hconst | ⟨status, ref, hh⟩
      · exact Or.inl ((ha.const b).mpr ⟨hbp, hconst⟩)
      · exact Or.inr ⟨status, ref, (ha.holds b _ _).mpr (Or.inr ⟨hbp, hh⟩)⟩
  refine ⟨⟨hinv, fun b status ref hh hp hlb => ?_, fun b status ref hh hp hlb => ?_,
    fun b status ref hh hp => ?_, fun b status ref hh hp hlb => ?_,
    fun b hb => hlive b (h.held b hb), fun b hb => hlive b (h.there b hb)⟩,
    ⟨ha.mode, hlive, fun b hb hc => (ha.const b).mpr ⟨hb, hc⟩, fun b hb hf => ?_⟩, fun b => ?_⟩
  · rcases (ha.holds b status ref).mp hh with ⟨rfl, -, rfl⟩ | ⟨-, hh⟩
    · omega
    · exact h.exact b status ref hh hp hlb
  · rcases (ha.holds b status ref).mp hh with ⟨rfl, -, -⟩ | ⟨-, hh⟩
    · exact absurd hlb hl
    · exact h.atMost b status ref hh hp hlb
  · rcases (ha.holds b status ref).mp hh with ⟨rfl, -, rfl⟩ | ⟨-, hh⟩
    · decide
    · exact h.max b status ref hh hp
  · rcases (ha.holds b status ref).mp hh with ⟨rfl, -, -⟩ | ⟨-, hh⟩
    · exact hzero
    · exact h.ordinary b status ref hh hp hlb
  · refine fresh_of_not_holds fun status ref hh => ?_
    rcases (ha.holds b status ref).mp hh with ⟨rfl, -, -⟩ | ⟨-, hh⟩
    · exact hb rfl
    · exact hf.not_holds hh
  · constructor
    · rintro ⟨status, hh, hp⟩
      rcases (ha.holds b status 0).mp hh with ⟨rfl, rfl, -⟩ | ⟨-, hh⟩
      · exact Or.inr ⟨rfl, hp⟩
      · exact Or.inl ⟨status, hh, hp⟩
    · rintro (⟨status, hh, hp⟩ | ⟨rfl, hp⟩)
      · refine ⟨status, (ha.holds b status 0).mpr (Or.inr ⟨?_, hh⟩), hp⟩
        rintro rfl
        exact hfresh.not_holds hh
      · exact ⟨_, (ha.holds b _ _).mpr (Or.inl ⟨rfl, rfl, rfl⟩), hp⟩

/-- Memory for a process-scoped structure. -/
theorem Counted.mallocCall (h : Counted m holders loose) (hmode : m.rimMemProcess = true) (hfresh : m.Fresh p)
    (hzero : holders p = 0) (hl : p ∉ loose) (hok : (MemCall.malloc p size).run m = .ok m') :
    Counted m' holders loose ∧ m.Keeps m' {p} ∧ ∀ b, m'.Idle b ↔ m.Idle b ∨ b = p := by
  simp only [MemCall.run] at hok
  cases hr : m.rimMalloc (some p) size with
  | error e =>
    rw [hr] at hok
    cases hok
  | ok r =>
    rw [hr] at hok
    obtain rfl := Except.ok.inj hok
    obtain ⟨hcount, hkeep, hidle⟩ := h.malloc hfresh hzero hl hr
    refine ⟨hcount, hkeep, fun b => ?_⟩
    rw [hidle b, hmode]
    simp

/-- `rim_calloc` is `rim_malloc` of the product. -/
theorem Counted.calloc {nmemb : Nat} (h : Counted m holders loose) (hmode : m.rimMemProcess = true)
    (hfresh : m.Fresh p) (hzero : holders p = 0) (hl : p ∉ loose) (hok : (MemCall.calloc p nmemb size).run m = .ok m') :
    Counted m' holders loose ∧ m.Keeps m' {p} ∧ ∀ b, m'.Idle b ↔ m.Idle b ∨ b = p := by
  exact h.mallocCall hmode hfresh hzero hl hok

/-! ## The end of a request -/

/-- The loop of `rim_done` only releases entries. -/
theorem rimDoneLoop_frame {fuel : Nat} {i : Option Nat} (hok : rimDoneLoop fuel i m = .ok m') :
    m'.vmCurr = m.vmCurr ∧ m'.head = m.head ∧ m'.rimMemProcess = m.rimMemProcess := by
  induction fuel generalizing i m with
  | zero =>
    cases i with
    | none =>
      obtain rfl := Except.ok.inj hok
      exact ⟨rfl, rfl, rfl⟩
    | some i => cases hok
  | succ fuel ih =>
    cases i with
    | none =>
      obtain rfl := Except.ok.inj hok
      exact ⟨rfl, rfl, rfl⟩
    | some i =>
      obtain ⟨hcurr, hhead, hmode⟩ := ih (m := m.rimMemRelease i) hok
      exact ⟨hcurr, hhead, hmode⟩

/-- `rim_done` releases what nothing holds, and keeps what something does. -/
theorem Counted.done (h : Counted m holders ∅) :
    ∃ m', m.rimDone = .ok m' ∧ Counted m' holders ∅ ∧ m'.rimMemProcess = m.rimMemProcess ∧
      ∀ b, m'.Idle b ↔ m.Idle b := by
  have hnot : ∀ b : Addr, b ∉ (∅ : Set Addr) := fun b => Set.notMem_empty b
  obtain ⟨free, ord, ht⟩ := h.table
  obtain ⟨m', hok, hinv, hkeep, hgone⟩ := rimDone_releases ht
  have hframe : m'.vmCurr = m.vmCurr ∧ m'.head = m.head ∧ m'.rimMemProcess = m.rimMemProcess := by
    unfold rimDone at hok
    cases hloop : rimDoneLoop m.vmCurr m.vmFirstOrd m with
    | error e =>
      rw [hloop] at hok
      cases hok
    | ok m₁ =>
      rw [hloop] at hok
      obtain rfl := Except.ok.inj hok
      obtain ⟨hcurr, hhead, hmode⟩ := rimDoneLoop_frame hloop
      exact ⟨hcurr, hhead, hmode⟩
  obtain ⟨hcurr, hhead, hmode⟩ := hframe
  have hholds : ∀ b status ref, m'.Holds b status ref ↔
      m.Holds b status ref ∧ status.process = true := by
    intro b status ref
    constructor
    · rintro ⟨r, hr, hp, rfl, rfl, hf⟩
      have hord : r ∉ ord := by
        intro hm
        rw [(hgone r hm).1] at hp
        cases hp
      have hvm := (hkeep r).resolve_right hord
      rw [hcurr] at hr
      rw [hvm] at hp hf ⊢
      refine ⟨⟨r, hr, hp, rfl, rfl, hf⟩, ?_⟩
      by_contra hproc
      exact hord (ht.mem_ord_of hr hf (by simpa using hproc))
    · rintro ⟨⟨r, hr, hp, rfl, rfl, hf⟩, hproc⟩
      have hord : r ∉ ord := by
        intro hm
        have hno := ((ht.mem_ord r).mp hm).2.2.1
        rw [hproc] at hno
        cases hno
      have hvm := (hkeep r).resolve_right hord
      exact ⟨r, hcurr.symm ▸ hr, hvm ▸ hp, by rw [hvm], by rw [hvm], hf⟩
  refine ⟨m', hok, ⟨hinv, fun b status ref hh hp hl => ?_, fun b _ _ _ _ hb => absurd hb (hnot b),
    fun b status ref hh hp => ?_, fun b status ref hh hp hl => ?_, fun b hb => ?_,
    fun b hb => absurd hb (hnot b)⟩, hmode, fun b => ?_⟩
  · exact h.exact b status ref ((hholds b status ref).mp hh).1 hp hl
  · exact h.max b status ref ((hholds b status ref).mp hh).1 hp
  · have hproc := ((hholds b status ref).mp hh).2
    rw [hp] at hproc
    cases hproc
  · -- what is held is a constant or process-scoped
    rcases (live_iff b).mp (h.held b hb) with hc | ⟨status, ref, hh⟩
    · refine (live_iff b).mpr (Or.inl ?_)
      simpa only [rimMemGetId, hhead] using hc
    · have hproc : status.process = true := by
        by_contra hproc
        have hzero := h.ordinary b status ref hh (by simpa using hproc) (hnot b)
        omega
      exact ((hholds b status ref).mpr ⟨hh, hproc⟩).live
  · constructor
    · rintro ⟨status, hh, hp⟩
      exact ⟨status, ((hholds b status 0).mp hh).1, hp⟩
    · rintro ⟨status, hh, hp⟩
      exact ⟨status, (hholds b status 0).mpr ⟨hh, hp⟩, hp⟩

end Counted

end RimStone
