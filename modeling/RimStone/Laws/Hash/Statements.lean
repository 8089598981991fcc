import RimStone.Laws.Hash.Counts

/-!
# Runs of hash statements

`Laws.Hash.Counts` says what each function of `hash.c` does to the counts of a memory.
Here any number of process-scoped hashes share one memory and statements run on them
in any order. `HashStmt.Guard` is the condition under which the counts stay exact: a
value replaced with an `old-value` clause is a constant, and so are the keys and
values of a hash that is resized.
-/

namespace RimStone

open Mem RimHash RimStone.Lib

namespace HashSys

/-- Well-formed hashes in a memory whose counts are exact. -/
def Exact (others : Addr → ℕ) (s : HashSys) : Prop := owner.Exact others s.mem s.hashes

def IsString (s : HashSys) (a : Addr) : Prop := s.mem.Live a ∧ a ∉ owner.blocks s.hashes

/-- An address the system may answer: nothing is there, nor is it a constant in use. -/
def IsFresh (others : Addr → ℕ) (s : HashSys) (a : Addr) : Prop :=
  s.mem.Fresh a ∧ owner.holders others s.hashes a = 0

end HashSys

def HashStmt.Legal (others : Addr → ℕ) (s : HashSys) : HashStmt → Prop
  | newString p _ => s.IsFresh others p
  | writeHash _ key value _ new => s.IsString key.addr ∧ s.IsString value ∧
      s.IsFresh others new ∧ key.addr ≠ new ∧ value ≠ new
  | resizeHash _ _ answer => Function.Injective answer ∧ ∀ j, s.IsFresh others (answer j)
  | purgeHash _ addr tableAddr => s.IsFresh others addr ∧ s.IsFresh others tableAddr ∧
      addr ≠ tableAddr
  | readHash _ _ _ | endRequest => True

/-- The condition under which a statement leaves the counts exact. A block without
an entry is a constant. -/
def HashStmt.Guard (s : HashSys) : HashStmt → Prop
  | writeHash i key _ oldValue _ => oldValue = true → ∀ h, s.hashes[i]? = some h →
      ∀ p ∈ h.pairs, ckey p = cstr key.bytes → s.mem.rimMemGetId p.2 = none
  | resizeHash i size _ => size < 2 ^ 61 ∧ ∀ h, s.hashes[i]? = some h → ∀ p ∈ h.pairs,
      s.mem.rimMemGetId p.1.addr = none ∧ s.mem.rimMemGetId p.2 = none
  | _ => True

namespace HashSys

def Step (others : Addr → ℕ) (s : HashSys) (stmt : HashStmt) (s' : HashSys) : Prop :=
  stmt.Legal others s ∧ s.exec stmt = .ok s'

section Steps

variable {others : Addr → ℕ} {s s' : HashSys} {A B : List RimHash} {h h' : RimHash} {m m' : Mem}
  {ahead : Set Bytes}

/-- A statement runs an operation on one of the hashes. -/
theorem onHash_ok {i : Nat} {op : HashOp} (hok : s.onHash i op = .ok s') :
    ∃ A h B h' calls out m', s.hashes[i]? = some h ∧ s.hashes = A ++ h :: B ∧
      h.exec op = some (h', calls, out) ∧ s.mem.inScope h.process calls = .ok m' ∧
      s' = ⟨m', A ++ h' :: B⟩ := by
  unfold onHash at hok
  cases hi : s.hashes[i]? with
  | none =>
    rw [hi] at hok
    cases hok
  | some h =>
    rw [hi] at hok
    cases hexec : h.exec op with
    | none =>
      simp only [hexec] at hok
      cases hok
    | some r =>
      obtain ⟨h', calls, out⟩ := r
      simp only [hexec] at hok
      cases hrun : s.mem.inScope h.process calls with
      | error e =>
        simp only [hrun, bind, Except.bind] at hok
        cases hok
      | ok m' =>
        simp only [hrun, bind, Except.bind] at hok
        obtain ⟨A, B, hsplit, hset⟩ := Owner.split_get hi
        refine ⟨A, h, B, h', calls, out, m', rfl, hsplit, hexec, hrun, ?_⟩
        rw [← Except.ok.inj hok, hset]

/-- What a statement on one hash starts from. -/
theorem Exact.ready (he : Exact others ⟨m, A ++ h :: B⟩) : ∃ ahead, Ready (owner.beside others A B) m h ahead := by
  obtain ⟨⟨⟨ahead, ho⟩, hproc⟩, hc, hnd, hidle⟩ := Owner.Exact.focus he
  exact ⟨ahead, ho, hproc, hc, hnd, hidle⟩

theorem IsFresh.focus {a : Addr} (hf : IsFresh others ⟨m, A ++ h :: B⟩ a) :
    m.Fresh a ∧ (owner.beside others A B + h.refs) a = 0 := by
  obtain ⟨hfresh, hzero⟩ := hf
  rw [Owner.holders_focus] at hzero
  exact ⟨hfresh, hzero⟩

theorem IsString.not_own {a : Addr} (hs : IsString ⟨m, A ++ h :: B⟩ a) : a ∉ h.addrs :=
  fun ha => hs.2 (Owner.mem_blocks_focus.mpr (Or.inl ha))

variable {calls : List MemCall} {out : HashOut}

/-- `write-hash` -/
theorem writeHash_exact {key : RimStr} {value new : Addr} {oldValue : Bool} (he : Exact others ⟨m, A ++ h :: B⟩)
    (hkey : IsString ⟨m, A ++ h :: B⟩ key.addr) (hvalue : IsString ⟨m, A ++ h :: B⟩ value)
      (hnew : IsFresh others ⟨m, A ++ h :: B⟩ new) (hkn : key.addr ≠ new) (hvn : value ≠ new)
        (hguard : oldValue = true → ∀ p ∈ h.pairs, ckey p = cstr key.bytes → m.rimMemGetId p.2 = none)
          (hexec : h.exec (.add key value oldValue new) = some (h', calls, out))
            (hrun : m.inScope h.process calls = .ok m') :
    Exact others ⟨m', A ++ h' :: B⟩ ∧ owner.IdleKept m (A ++ h :: B) m' (A ++ h' :: B) := by
  obtain ⟨ahead, hr⟩ := he.ready
  obtain ⟨hfresh, hzero⟩ := hnew.focus
  have hstep : h.Step (.add key value oldValue new, out) h' := ⟨hr.lookup_fresh hfresh, calls, hexec⟩
  have hg : HashOp.Guard h (.add key value oldValue new) := trivial
  have hgood := step_inOrder ⟨ahead, hr.order⟩ hg hstep
  obtain ⟨h₁, ⟨calls₁, out₁⟩, hexec₁, hsame, -, hout⟩ :=
    rimAddHash_inv hr.order.inv key value oldValue (hr.lookup_fresh hfresh)
  obtain ⟨rfl, hrest⟩ := Prod.mk.inj (Option.some.inj (hexec.symm.trans hexec₁))
  obtain ⟨rfl, rfl⟩ := Prod.mk.inj hrest
  have hb := add_becomes hr ⟨hgood, hsame.process.trans hr.process⟩ hout hsame hkey.1 hvalue.1 hkn
    hvn hkey.not_own hvalue.not_own hfresh hzero hguard hrun
  refine Owner.Exact.replace he hb ?_
  rintro b (rfl | rfl)
  · exact hkey.2
  · exact hvalue.2

/-- `read-hash` -/
theorem readHash_exact {key : RimStr} {del : Bool} (he : Exact others ⟨m, A ++ h :: B⟩)
    (hexec : h.exec (.find key del) = some (h', calls, out)) (hrun : m.inScope h.process calls = .ok m') :
    Exact others ⟨m', A ++ h' :: B⟩ ∧ owner.IdleKept m (A ++ h :: B) m' (A ++ h' :: B) := by
  obtain ⟨ahead, hr⟩ := he.ready
  have hstep : h.Step (.find key del, out) h' := ⟨trivial, calls, hexec⟩
  have hg : HashOp.Guard h (.find key del) := trivial
  have hgood := step_inOrder ⟨ahead, hr.order⟩ hg hstep
  obtain ⟨h₁, ⟨calls₁, out₁⟩, hexec₁, hsame, -, hout⟩ := rimFindHash_inv hr.order.inv key del
  obtain ⟨rfl, hrest⟩ := Prod.mk.inj (Option.some.inj (hexec.symm.trans hexec₁))
  obtain ⟨rfl, rfl⟩ := Prod.mk.inj hrest
  have hb := find_becomes hr ⟨hgood, hsame.process.trans hr.process⟩ hout hsame hrun
  exact Owner.Exact.replace he hb fun b hf => hf.elim

/-- `resize-hash` -/
theorem resizeHash_exact {newsize : Int} {answer : Nat → Addr} (he : Exact others ⟨m, A ++ h :: B⟩)
    (hinj : Function.Injective answer) (hnew : ∀ j, IsFresh others ⟨m, A ++ h :: B⟩ (answer j))
      (hsize : newsize < 2 ^ 61) (hconst : ∀ p ∈ h.pairs, m.rimMemGetId p.1.addr = none ∧ m.rimMemGetId p.2 = none)
        (hexec : h.exec (.resize newsize answer) = some (h', calls, out)) (hrun : m.inScope h.process calls = .ok m') :
    Exact others ⟨m', A ++ h' :: B⟩ ∧ owner.IdleKept m (A ++ h :: B) m' (A ++ h' :: B) := by
  obtain ⟨ahead, hr⟩ := he.ready
  have hstep : h.Step (.resize newsize answer, out) h' := ⟨hinj, calls, hexec⟩
  have hg : HashOp.Guard h (.resize newsize answer) := hsize
  have hgood := step_inOrder ⟨ahead, hr.order⟩ hg hstep
  obtain ⟨h₁, ps, es, -, hexec₁, -, -, -, -, -, -, -, hproc, -⟩ := rimResizeHash_keeps hr.order.inv hsize hinj
  obtain ⟨rfl, hrest⟩ := Prod.mk.inj (Option.some.inj (hexec.symm.trans (exec_resize hexec₁)))
  obtain ⟨rfl, -⟩ := Prod.mk.inj hrest
  have hb := resize_becomes hr ⟨hgood, hproc.trans hr.process⟩ hsize hinj hexec₁
    (fun j => (hnew j).focus) hconst hrun
  exact Owner.Exact.replace he hb fun b hf => hf.elim

/-- `purge-hash` -/
theorem purgeHash_exact {addr tableAddr : Addr} (he : Exact others ⟨m, A ++ h :: B⟩)
    (ha : IsFresh others ⟨m, A ++ h :: B⟩ addr) (ht : IsFresh others ⟨m, A ++ h :: B⟩ tableAddr)
      (hne : addr ≠ tableAddr) (hexec : h.exec (.purge addr tableAddr) = some (h', calls, out))
        (hrun : m.inScope h.process calls = .ok m') :
    Exact others ⟨m', A ++ h' :: B⟩ ∧ owner.IdleKept m (A ++ h :: B) m' (A ++ h' :: B) := by
  obtain ⟨ahead, hr⟩ := he.ready
  have hstep : h.Step (.purge addr tableAddr, out) h' := ⟨trivial, calls, hexec⟩
  have hg : HashOp.Guard h (.purge addr tableAddr) := trivial
  have hgood := step_inOrder ⟨ahead, hr.order⟩ hg hstep
  obtain ⟨h₁, es, hexec₁, -, hc⟩ := rimDeleteHash_purges hr.order.inv hr.order.limit addr tableAddr
  obtain ⟨rfl, hrest⟩ := Prod.mk.inj (Option.some.inj (hexec.symm.trans (exec_purge hexec₁)))
  obtain ⟨rfl, -⟩ := Prod.mk.inj hrest
  have hb := purge_becomes hr ⟨hgood, hc.process.trans hr.process⟩ hexec₁ hne ha.1 ht.1 ha.focus.2
    ht.focus.2 hrun
  exact Owner.Exact.replace he hb fun b hf => hf.elim

/-- A guarded statement keeps the counts exact. -/
theorem step_exact {stmt : HashStmt} (he : s.Exact others) (hg : stmt.Guard s) (hs : s.Step others stmt s') :
    s'.Exact others ∧ owner.IdleKept s.mem s.hashes s'.mem s'.hashes := by
  obtain ⟨hlegal, hok⟩ := hs
  cases stmt with
  | newString p size =>
    obtain ⟨hfresh, hzero⟩ := hlegal
    unfold exec at hok
    cases hr : s.mem.rimMalloc (some p) size with
    | error e =>
      simp only [hr, bind, Except.bind] at hok
      cases hok
    | ok r =>
      simp only [hr, bind, Except.bind] at hok
      obtain rfl := Except.ok.inj hok
      obtain ⟨hc, hk, hi⟩ := he.counted.malloc hfresh hzero (Set.notMem_empty p) hr
      refine Owner.Exact.memory he (hk.mode.trans he.mode) hc fun b => (hi b).trans ⟨?_, Or.inl⟩
      rintro (hb | ⟨-, hmode⟩)
      · exact hb
      · rw [he.mode] at hmode
        cases hmode
  | writeHash i key value oldValue new =>
    obtain ⟨hkey, hvalue, hnew, hkn, hvn⟩ := hlegal
    obtain ⟨A, h, B, h', calls, out, m', hi, hhashes, hexec, hrun, rfl⟩ := onHash_ok hok
    obtain ⟨m, hashes⟩ := s
    obtain rfl : hashes = A ++ h :: B := hhashes
    exact writeHash_exact he hkey hvalue hnew hkn hvn (fun hold => hg hold h hi) hexec hrun
  | readHash i key del =>
    obtain ⟨A, h, B, h', calls, out, m', hi, hhashes, hexec, hrun, rfl⟩ := onHash_ok hok
    obtain ⟨m, hashes⟩ := s
    obtain rfl : hashes = A ++ h :: B := hhashes
    exact readHash_exact he hexec hrun
  | resizeHash i size answer =>
    obtain ⟨hinj, hnew⟩ := hlegal
    obtain ⟨hsize, hconst⟩ := hg
    obtain ⟨A, h, B, h', calls, out, m', hi, hhashes, hexec, hrun, rfl⟩ := onHash_ok hok
    obtain ⟨m, hashes⟩ := s
    obtain rfl : hashes = A ++ h :: B := hhashes
    exact resizeHash_exact he hinj hnew hsize (hconst h hi) hexec hrun
  | purgeHash i addr tableAddr =>
    obtain ⟨ha, ht, hne⟩ := hlegal
    obtain ⟨A, h, B, h', calls, out, m', hi, hhashes, hexec, hrun, rfl⟩ := onHash_ok hok
    obtain ⟨m, hashes⟩ := s
    obtain rfl : hashes = A ++ h :: B := hhashes
    exact purgeHash_exact he ha ht hne hexec hrun
  | endRequest =>
    obtain ⟨m', hdone, hc, hmode, hi⟩ := he.counted.done
    simp only [exec, hdone, bind, Except.bind] at hok
    obtain rfl := Except.ok.inj hok
    exact Owner.Exact.memory he (hmode.trans he.mode) hc hi

end Steps

/-! ## A request on one hash -/

instance (s : HashSys) (a : Addr) : Decidable (s.IsString a) :=
  inferInstanceAs (Decidable (_ ∧ _))

instance (others : Addr → ℕ) (s : HashSys) (a : Addr) : Decidable (s.IsFresh others a) :=
  inferInstanceAs (Decidable (_ ∧ _))

def oneHash : HashSys where
  mem := (Mem.inScope {} true [.malloc 1 sizeofHash, .calloc 2 256 sizeofPtr]).toOption.getD {}
  hashes := [{ newHash with process := true }]

theorem oneHash_exact : oneHash.Exact 0 := by
  have hscope : ∃ m, Mem.inScope {} true [.malloc 1 sizeofHash, .calloc 2 256 sizeofPtr] = .ok m := ⟨_, rfl⟩
  obtain ⟨m, hm⟩ := hscope
  have hmem : oneHash.mem = m := by
    unfold oneHash
    rw [hm]
    rfl
  have hfresh : ∀ a, ({} : Mem).Fresh a := fun a r hr => absurd hr (Nat.not_lt_zero r)
  obtain ⟨m₁, hcalls, rfl⟩ := inScope_ok hm
  obtain ⟨hc, -, hi⟩ := newHash_counted (counted_init.setMode true) rfl (by decide) (hfresh 1)
    (hfresh 2) rfl rfl hcalls
  have hblocks : owner.blocks oneHash.hashes = [1, 2] := rfl
  refine ⟨?_, ?_, ?_, by decide, ?_⟩
  · intro h hh
    obtain rfl := List.mem_singleton.mp hh
    have hsize : (0 : Int) < 2 ^ 61 := by decide
    have hnew : rimCreateHash 0 true 1 2 = some ({ newHash with process := true }, _) := rfl
    obtain ⟨ho, -⟩ := create_inOrder hsize hnew
    exact ⟨⟨∅, ho⟩, rfl⟩
  · rw [hmem]
  · have hholders : owner.holders 0 oneHash.hashes = 0 := rfl
    rw [hmem, hholders]
    exact hc.setMode false
  · intro a ha
    rw [hblocks] at ha
    rw [hmem]
    simp only [List.mem_cons, List.not_mem_nil, or_false] at ha
    exact (hi a).mpr (Or.inr ha)

def oneValue : HashSys :=
  ((oneHash.exec (.newString 5 8)).bind fun s =>
    s.exec (.writeHash 0 ⟨100, [97]⟩ 5 false 3)).toOption.getD oneHash

theorem oneValue_fresh (j : Nat) : oneValue.IsFresh 0 (1000 + j) := by
  constructor
  · intro r hr hfree hptr
    have hall : ∀ r, r < oneValue.mem.vmCurr → (oneValue.mem.vm r).ptr.all (· < 1000) = true := by
      decide
    have hsmall := hall r hr
    simp only [hptr, Option.all_some, decide_eq_true_eq] at hsmall
    exact absurd hsmall (Nat.not_lt.mpr (Nat.le_add_right 1000 j))
  · have hholders : owner.holders 0 oneValue.hashes = 0 + (pairRefs (⟨100, [97]⟩, 5) + 0 + 0) := rfl
    have h5 : 1000 + j ≠ 5 := by omega
    have h100 : 1000 + j ≠ 100 := by omega
    rw [hholders]
    simp only [pairRefs, Pi.add_apply, Pi.zero_apply, Pi.single_eq_of_ne h5, Pi.single_eq_of_ne h100, add_zero]

end HashSys

end RimStone
