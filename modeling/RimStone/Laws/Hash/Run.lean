import RimStone.Laws.Hash.Resize
import RimStone.Lib.Run

/-!
# Runs on a hash

A run is a sequence of events, each an operation with what it told the program. An
operation on a hash in order always returns; `HashOp.Guard` leaves out a traversal
that would delete with an item out of date, and a table so long that its bytes do
not fit a `size_t`.
-/

namespace RimStone

open RimStone.Lib

abbrev HashEvent := HashOp × HashOut

def HashOp.Legal (h : RimHash) : HashOp → Prop
  | add _ _ _ new => h.items.lookup new = none
  | resize _ answer => Function.Injective answer
  | _ => True

/-- The condition under which an operation keeps a hash in order. -/
def HashOp.Guard (h : RimHash) : HashOp → Prop
  | next del => del = true → h.NextGuard
  | resize newsize _ => newsize < 2 ^ 61
  | _ => True

namespace RimHash

def Step (h : RimHash) (ev : HashEvent) (h' : RimHash) : Prop :=
  ev.1.Legal h ∧ ∃ calls, h.exec ev.1 = some (h', calls, ev.2)

/-- A hash in order, with what the traversal has not come to. -/
structure InOrder (h : RimHash) (ahead : Set Bytes) : Prop where
  inv : Inv h ahead
  limit : (h.numBuckets : Int) < 2 ^ 61

/-- What an event makes of a hash. -/
inductive Outcome (h : RimHash) (ahead : Set Bytes) (h' : RimHash) : HashEvent → Prop
  | add (key : RimStr) (data : Addr) (oldData : Bool) (new : Addr) (calls : List MemCall)
      (out : HashOut) (hout : AddOutcome h ahead key data oldData new h' (calls, out))
      (hnext : h'.dnext = h.dnext) (hsame : SameHash h h') :
      Outcome h ahead h' (.add key data oldData new, out)
  | find (key : RimStr) (del : Bool) (calls : List MemCall) (out : HashOut)
      (hout : FindOutcome h ahead key del h' (calls, out)) (hnext : h'.dnext = h.dnext)
      (hsame : SameHash h h') : Outcome h ahead h' (.find key del, out)
  | next (del : Bool) (calls : List MemCall) (out : HashOut)
      (hout : NextOutcome h ahead del h' (calls, out)) (hnext : h.dnext ≤ h'.dnext)
      (hsame : SameHash h h') : Outcome h ahead h' (.next del, out)
  | rewind (hitems : h'.items = h.items) (hinv : Inv h' {c | ∃ p ∈ h.pairs, ckey p = c}) :
      Outcome h ahead h' (.rewind, {})
  | resize (newsize : Int) (answer : Nat → Addr) (ahead' : Set Bytes)
      (hpairs : h'.pairs.Perm h.pairs) (hinv : Inv h' ahead') :
      Outcome h ahead h' (.resize newsize answer, {})
  | purge (addr tableAddr : Addr) (hpairs : h'.pairs = []) (hinv : Inv h' ∅) :
      Outcome h ahead h' (.purge addr tableAddr, {})

variable {h h' : RimHash} {ahead : Set Bytes} {op : HashOp} {ev : HashEvent}

theorem exec_resize {newsize : Int} {answer : Nat → Addr} {calls : List MemCall}
    (hexec : h.rimResizeHash newsize answer = some (h', calls)) :
    h.exec (.resize newsize answer) = some (h', calls, {}) := by
  simp only [exec, hexec, bind, Option.bind]

theorem exec_purge {addr tableAddr : Addr} {calls : List MemCall}
    (hexec : h.rimDeleteHash true addr tableAddr = some (some h', calls)) :
    h.exec (.purge addr tableAddr) = some (h', calls, {}) := by
  simp only [exec, hexec, bind, Option.bind]

/-- An operation on a hash in order returns, and leaves it in order. -/
theorem exec_outcome (ho : h.InOrder ahead) (hl : op.Legal h) (hg : op.Guard h) :
    ∃ h' calls out, h.exec op = some (h', calls, out) ∧ Outcome h ahead h' (op, out) ∧
      (h'.numBuckets : Int) < 2 ^ 61 := by
  obtain ⟨hinv, hlimit⟩ := ho
  have hsmall : ∀ {h' : RimHash}, SameHash h h' → (h'.numBuckets : Int) < 2 ^ 61 := by
    intro h' hs
    rw [hs.numBuckets]
    exact hlimit
  cases op with
  | add key data oldData new =>
    obtain ⟨h', ⟨calls, out⟩, hexec, hsame, hnext, hout⟩ := rimAddHash_inv hinv key data oldData hl
    exact ⟨h', calls, out, hexec, .add _ _ _ _ calls out hout hnext hsame, hsmall hsame⟩
  | find key del =>
    obtain ⟨h', ⟨calls, out⟩, hexec, hsame, hnext, hout⟩ := rimFindHash_inv hinv key del
    exact ⟨h', calls, out, hexec, .find _ _ calls out hout hnext hsame, hsmall hsame⟩
  | next del =>
    obtain ⟨h', ⟨calls, out⟩, hexec, hsame, hnext, hout⟩ := rimNextHash_inv hinv del hg
    exact ⟨h', calls, out, hexec, .next _ calls out hout hnext hsame, hsmall hsame⟩
  | rewind =>
    obtain ⟨h', hexec, hsame, hitems, -, hinv'⟩ := rimRewindHash_inv hinv
    refine ⟨h', [], {}, ?_, .rewind hitems hinv', hsmall hsame⟩
    simp only [exec, hexec, bind, Option.bind]
  | resize newsize answer =>
    obtain ⟨h', ps, es, ahead', hexec, -, -, hinv', hpairs, -, -, -, -, hn⟩ := rimResizeHash_keeps hinv hg hl
    refine ⟨h', _, {}, exec_resize hexec, .resize newsize answer ahead' hpairs hinv', ?_⟩
    rw [hn]
    exact bucketsFor_lt hg
  | purge addr tableAddr =>
    obtain ⟨h', es, hexec, -, hc⟩ := rimDeleteHash_purges hinv hlimit addr tableAddr
    refine ⟨h', _, {}, exec_purge hexec, .purge addr tableAddr ?_ hc.inv, ?_⟩
    · unfold pairs HashItems.pairs
      rw [hc.items]
      rfl
    · rw [hc.numBuckets]
      exact bucketsFor_lt hlimit

theorem step_outcome (ho : h.InOrder ahead) (hg : ev.1.Guard h) (hs : h.Step ev h') :
    Outcome h ahead h' ev ∧ (h'.numBuckets : Int) < 2 ^ 61 := by
  obtain ⟨hl, calls, hexec⟩ := hs
  obtain ⟨h₁, calls₁, out₁, hexec₁, hout, hlimit⟩ := exec_outcome ho hl hg
  obtain ⟨rfl, h⟩ := Prod.mk.inj (Option.some.inj (hexec.symm.trans hexec₁))
  obtain ⟨-, heq⟩ := Prod.mk.inj h
  rw [← heq] at hout
  exact ⟨hout, hlimit⟩

/-- After every event there is something ahead, or nothing, but the hash is in order. -/
theorem Outcome.exists_inv (ho : Outcome h ahead h' ev) : ∃ ahead', Inv h' ahead' := by
  cases ho with
  | add _ _ _ _ _ _ hout => cases hout with
    | replaced _ _ _ _ _ _ _ hinv => exact ⟨_, hinv⟩
    | added _ _ _ hinv => exact ⟨_, hinv⟩
  | find _ _ _ _ hout => cases hout with
    | absent _ _ hinv => exact ⟨_, hinv⟩
    | kept _ _ _ _ _ _ hinv => exact ⟨_, hinv⟩
    | removed _ _ _ _ _ _ _ _ hinv => exact ⟨_, hinv⟩
  | next _ _ _ hout => cases hout with
    | done _ _ hinv => exact ⟨_, hinv⟩
    | kept _ _ _ _ _ _ _ hinv => exact ⟨_, hinv⟩
    | removed _ _ _ _ _ _ _ _ _ hinv => exact ⟨_, hinv⟩
  | rewind _ hinv => exact ⟨_, hinv⟩
  | resize _ _ _ _ hinv => exact ⟨_, hinv⟩
  | purge _ _ _ hinv => exact ⟨_, hinv⟩

theorem step_inOrder (ho : ∃ ahead, h.InOrder ahead) (hg : ev.1.Guard h) (hs : h.Step ev h') :
    ∃ ahead', h'.InOrder ahead' := by
  obtain ⟨ahead, ho⟩ := ho
  obtain ⟨hout, hlimit⟩ := step_outcome ho hg hs
  obtain ⟨ahead', hinv⟩ := hout.exists_inv
  exact ⟨ahead', hinv, hlimit⟩

theorem create_inOrder {size : Int} (hsize : size < 2 ^ 61) {process : Bool} {addr tableAddr : Addr}
    {calls : List MemCall} (hc : rimCreateHash size process addr tableAddr = some (h, calls)) :
    h.InOrder ∅ ∧ h.pairs = [] := by
  obtain ⟨h₁, hcreate, hcreated⟩ := rimCreateHash_created hsize process addr tableAddr
  obtain ⟨rfl, -⟩ := Prod.mk.inj (Option.some.inj (hc.symm.trans hcreate))
  refine ⟨⟨hcreated.inv, ?_⟩, ?_⟩
  · rw [hcreated.numBuckets]
    exact bucketsFor_lt hsize
  · unfold pairs HashItems.pairs
    rw [hcreated.items]
    rfl

def newHash : RimHash where
  addr := 1
  tableAddr := 2
  numBuckets := 256
  tableLen := 256
  process := false

end RimHash

end RimStone
