import RimStone.Laws.Hash.Run
import RimStone.Laws.Tree.OrderedMap
import RimStone.Lib.Listing

/-!
# The hash is a finite map

The purpose of a hash: a finite map from keys to values, over all strings. `mapAfter`
is the map after a run, `IsMap` what a hash must answer to be that map.

A hash is that map as long as its keys can be told apart by what `rim_add_hash`
compares, their bytes before the first null (`KeyGuard`): it takes a key for another
one that goes on differently after a null, and writes over its pair.
-/

namespace RimStone

open RimStone.Lib

def HashEvent.apply (m : KeyMap) : HashEvent → KeyMap
  | (.add key data _ _, _) => Function.update m key.bytes (some data)
  | (.find key true, _) => Function.update m key.bytes none
  | (.next true, out) => if out.st = .okay then Function.update m out.key.bytes none else m
  | (.purge _ _, _) => fun _ => none
  | (.find _ false, _) | (.next false, _) | (.rewind, _) | (.resize _ _, _) => m

def HashEvent.mapAfter (trace : List HashEvent) : KeyMap :=
  trace.foldl HashEvent.apply fun _ => none

/-- The key agrees with no other key of the hash up to a null byte. -/
def HashOp.KeyGuard (h : RimHash) : HashOp → Prop
  | add key _ _ _ => ∀ p ∈ h.pairs, cstr p.1.bytes = cstr key.bytes → p.1.bytes = key.bytes
  | _ => True

namespace RimHash

structure IsMap (h : RimHash) (m : KeyMap) : Prop where
  find : ∀ key del, ∃ h' calls, h.rimFindHash key del true = some (h', calls,
    match m key.bytes with
    | some v => { data := v }
    | none => { st := .errExist })
  tot : ∃ ks : List Bytes, ks.Nodup ∧ (∀ k, k ∈ ks ↔ m k ≠ none) ∧ h.tot = ks.length

section Map

variable {h h' : RimHash} {ahead : Set Bytes} {m : KeyMap} {ev : HashEvent}

def Spells (h : RimHash) (m : KeyMap) : Prop := Lib.Lists (fun p => p.1.bytes) Prod.snd h.pairs m

/-- Pairs whose C strings differ have different keys. -/
theorem bytes_ne {l : List (RimStr × Addr)} {p : RimStr × Addr} (hnd : ((p :: l).map ckey).Nodup) :
    ∀ q ∈ l, q.1.bytes ≠ p.1.bytes := by
  intro q hq hk
  have hnot := (List.nodup_cons.mp hnd).1
  exact hnot (List.mem_map.mpr ⟨q, hq, congrArg cstr hk⟩)

theorem Spells.remove (hm : h.Spells m) (hinv : Inv h ahead) {k : RimStr} {d : Addr}
    (hpairs : h.pairs.Perm ((k, d) :: h'.pairs)) :
    h'.Spells (Function.update m k.bytes none) := by
  have hnd := (hpairs.map ckey).nodup_iff.mp hinv.distinct
  exact (hm.perm hpairs).tail (bytes_ne hnd)

theorem Spells.of_items (hm : h.Spells m) (hitems : h'.items = h.items) : h'.Spells m := by
  unfold Spells pairs at hm ⊢
  rw [hitems]
  exact hm

/-- What an event does to the pairs it is to do to the map. -/
theorem Outcome.spells (ho : Outcome h ahead h' ev) (hinv : Inv h ahead)
    (hk : ev.1.KeyGuard h) (hm : h.Spells m) : h'.Spells (ev.apply m) := by
  cases ho with
  | add key data oldData new calls out hout =>
    cases hout with
    | replaced k d rest hkey hpairs hpairs' =>
      have hsame : k.bytes = key.bytes := hk (k, d) (hpairs.mem_iff.mpr (List.mem_cons_self ..)) hkey
      have hnd := (hpairs.map ckey).nodup_iff.mp hinv.distinct
      have hrest := (hm.perm hpairs).tail (bytes_ne hnd)
      have hne : ∀ q ∈ rest, q.1.bytes ≠ key.bytes := by
        intro q hq
        rw [← hsame]
        exact bytes_ne hnd q hq
      have hnew := (hrest.cons (a := (key, data)) hne).perm hpairs'.symm
      simp only [hsame, Function.update_idem] at hnew
      exact hnew
    | added habs hpairs' =>
      have hne : ∀ q ∈ h.pairs, q.1.bytes ≠ key.bytes := fun q hq hb =>
        habs q hq (congrArg cstr hb)
      have hnew := Lib.Lists.cons hm (a := (key, data)) hne
      unfold Spells
      rw [hpairs']
      exact hnew
  | find key del calls out hout =>
    cases hout with
    | absent habs hitems =>
      cases del with
      | false => exact hm.of_items hitems
      | true =>
        have hnone : m key.bytes = none := hm.none_iff.mpr habs
        have hsame : Function.update m key.bytes none = m := by
          rw [← hnone]
          exact Function.update_eq_self _ _
        show h'.Spells (Function.update m key.bytes none)
        rw [hsame]
        exact hm.of_items hitems
    | kept hdel k d hkey hmem hitems =>
      subst hdel
      exact hm.of_items hitems
    | removed hdel k d a hkey hpairs =>
      subst hdel
      have hrest := hm.remove hinv hpairs
      rw [hkey] at hrest
      exact hrest
  | next del calls out hout =>
    cases hout with
    | done hend hitems => cases del <;> exact hm.of_items hitems
    | kept hdel k d hmem hahead hitems =>
      subst hdel
      exact hm.of_items hitems
    | removed hdel k d a hahead hpairs =>
      subst hdel
      exact hm.remove hinv hpairs
  | rewind hitems => exact hm.of_items hitems
  | resize newsize answer ahead' hpairs => exact hm.perm hpairs.symm
  | purge addr tableAddr hpairs =>
    unfold Spells
    rw [hpairs]
    exact lists_nil

/-- A hash whose pairs spell out a map answers as that map. -/
theorem Spells.isMap (hm : h.Spells m) (ho : h.InOrder ahead) : h.IsMap m := by
  refine ⟨fun key del => ?_, h.pairs.map (fun p => p.1.bytes), ?_, fun k => ?_, ?_⟩
  · obtain ⟨h', ⟨calls, out⟩, hexec, -, -, hout⟩ := rimFindHash_inv ho.inv key del
    refine ⟨h', calls, ?_⟩
    rw [hexec]
    cases hout with
    | absent habs =>
      have hnone : m key.bytes = none := hm.none_iff.mpr habs
      rw [hnone]
    | kept hdel k d hkey hmem =>
      have hsome : m key.bytes = some d := (hm _ _).mpr ⟨(k, d), hmem, hkey, rfl⟩
      rw [hsome]
    | removed hdel k d a hkey hpairs =>
      have hmem : (k, d) ∈ h.pairs := hpairs.mem_iff.mpr (List.mem_cons_self ..)
      have hsome : m key.bytes = some d := (hm _ _).mpr ⟨(k, d), hmem, hkey, rfl⟩
      rw [hsome]
  · have hnd := ho.inv.distinct
    refine List.Nodup.of_map cstr ?_
    rw [List.map_map]
    exact hnd
  · rw [Ne, hm.none_iff, List.mem_map]
    push Not
    rfl
  · obtain ⟨b, r, hi, -⟩ := ho.inv
    rw [List.length_map]
    exact hi.tot

end Map

end RimHash

/-! ## A tree with the same pairs -/

/-- What a program stores, in a hash or in a tree, and the memory for it. -/
inductive StoreOp where
  | put (key : RimStr) (data freed node item : Addr)
  | delete (key : RimStr) (freed : Addr)

namespace StoreOp

def apply (m : KeyMap) : StoreOp → KeyMap
  | put key data _ _ _ => Function.update m key.bytes (some data)
  | delete key _ => Function.update m key.bytes none

def onHash : StoreOp → HashOp
  | put key data _ _ item => .add key data false item
  | delete key _ => .find key true

/-- A tree keeps the value of a key that it has. -/
def onTree : StoreOp → List TreeOp
  | put key data freed node _ => [.delete {} key freed, .insert {} key data node]
  | delete key freed => [.delete {} key freed]

def KeyOk (kt : KeyType) : StoreOp → Prop
  | put key _ _ _ _ | delete key _ => kt.Ok key.bytes

end StoreOp

/-- The pairs may be others after it. -/
def HashOp.writes : HashOp → Bool
  | add _ _ _ _ | purge _ _ => true
  | find _ del | next del => del
  | rewind | resize _ _ => false

theorem HashEvent.foldl_apply {trace : List HashEvent} {ops : List StoreOp} (m : KeyMap)
    (h : (trace.map Prod.fst).filter HashOp.writes = ops.map StoreOp.onHash) :
    trace.foldl HashEvent.apply m = ops.foldl StoreOp.apply m := by
  induction trace generalizing ops m with
  | nil =>
    obtain rfl := List.map_eq_nil_iff.mp h.symm
    rfl
  | cons ev trace ih =>
    obtain ⟨op, out⟩ := ev
    rw [List.map_cons] at h
    by_cases hw : op.writes = true
    · rw [List.filter_cons_of_pos hw] at h
      obtain ⟨o, ops, rfl, rfl, hops⟩ := List.map_eq_cons_iff.mp h.symm
      have hsame : HashEvent.apply m (o.onHash, out) = o.apply m := by cases o <;> rfl
      rw [List.foldl_cons, List.foldl_cons, hsame, ih _ hops.symm]
    · rw [List.filter_cons_of_neg hw] at h
      have hsame : HashEvent.apply m (op, out) = m := by
        cases op with
        | add | purge => exact absurd rfl hw
        | find key del | next del =>
          cases del with
          | true => exact absurd rfl hw
          | false => rfl
        | rewind | resize => rfl
      rw [List.foldl_cons, hsame, ih _ h]

theorem TreeOp.foldl_apply (ops : List StoreOp) (m : KeyMap) :
    (ops.flatMap StoreOp.onTree).foldl TreeOp.apply m = ops.foldl StoreOp.apply m := by
  induction ops generalizing m with
  | nil => rfl
  | cons o ops ih =>
    rw [List.flatMap_cons, List.foldl_append, ih, List.foldl_cons]
    cases o with
    | put key data => simp [StoreOp.onTree, StoreOp.apply, TreeOp.apply]
    | delete => rfl

end RimStone
