import RimStone.Laws.Hash.Run
import RimStone.Lib.Listing

/-!
# Traversing a hash while it changes

An element of a hash is known by the C string of its key: no two elements share one,
and writing over an element keeps it. `Traversed h₀ trace h` says what a traversal
from `h₀` is to be, whatever is added and deleted on the way: the table holds what
was there and was added and not deleted; what is returned is in the table when it is
returned, and never returned twice; at the end, everything that was there at the
start was returned, or deleted by key before that.

The key to "never twice" is that the traversal only moves forward: a key that was
returned belongs to the bucket where the traversal stands or to an earlier one, and
an element added there goes in front of it.
-/

namespace RimStone

open RimStone.Lib

/-- The operations that go on during a traversal. -/
def HashOp.Traversing : HashOp → Prop
  | add _ _ _ _ | find _ _ | next _ => True
  | rewind | resize _ _ | purge _ _ => False

abbrev Elements := Bytes → Option (RimStr × Addr)

namespace HashEvent

def change (m : Elements) : HashEvent → Elements
  | (.add key data _ _, _) => Function.update m (cstr key.bytes) (some (key, data))
  | (.find key true, out) => if out.st = .okay then Function.update m (cstr key.bytes) none else m
  | (.next true, out) => if out.st = .okay then Function.update m (cstr out.key.bytes) none else m
  | _ => m

def returns : HashEvent → Option Bytes
  | (.next _, out) => if out.st = .okay then some (cstr out.key.bytes) else none
  | _ => none

def returned (trace : List HashEvent) : List Bytes := trace.filterMap returns

/-- An element was deleted by its key before it was returned. -/
def DeletedFirst (trace : List HashEvent) (c : Bytes) : Prop :=
  ∃ pre key out post, trace = pre ++ (.find key true, out) :: post ∧ out.st = .okay ∧
    cstr key.bytes = c ∧ c ∉ returned pre

end HashEvent

namespace RimHash

def Reachable (h : RimHash) (a : Addr) : Prop :=
  ∃ i < h.numBuckets, ∃ l, Chain h.items.cell (h.table i) l ∧ a ∈ l

def Holds (h : RimHash) (m : Elements) : Prop :=
  ∀ c p, m c = some p ↔ ∃ a e, h.Reachable a ∧ h.items.lookup a = some e ∧
    (e.key, e.data) = p ∧ cstr e.key.bytes = c

/-- The events of a traversal from `h₀`, up to `h`, are as they are to be. -/
structure Traversed (h₀ : RimHash) (trace : List HashEvent) (h : RimHash) : Prop where
  /-- the table holds what was there and added, and not deleted -/
  content : ∀ m, h₀.Holds m → h.Holds (trace.foldl HashEvent.change m)
  total : ∃ as : List Addr, as.Nodup ∧ (∀ a, a ∈ as ↔ h.Reachable a) ∧ h.tot = as.length
  /-- what is returned is there -/
  present : ∀ m, h₀.Holds m → ∀ pre del out post, trace = pre ++ (.next del, out) :: post →
    out.st = .okay →
      pre.foldl HashEvent.change m (cstr out.key.bytes) = some (out.key, out.data)
  once : (HashEvent.returned trace).Nodup
  /-- at the end everything was returned, or deleted by key before -/
  complete : (∀ del h' calls out, h.rimNextHash del = some (h', calls, out) → out.st = .errExist) →
    ∀ a e, h₀.Reachable a → h₀.items.lookup a = some e →
      cstr e.key.bytes ∈ HashEvent.returned trace ∨
        HashEvent.DeletedFirst trace (cstr e.key.bytes)
  /-- no item that was given up is touched -/
  safe : ∀ op : HashOp, op.Traversing → op.Legal h → op.Guard h →
    ∃ h' calls out, h.exec op = some (h', calls, out)

def TraverseStep (h : RimHash) (ev : HashEvent) (h' : RimHash) : Prop :=
  ev.1.Traversing ∧ h.Step ev h'

section Traversal

variable {h h' h₀ : RimHash} {ahead : Set Bytes} {m : Elements} {trace : List HashEvent}
  {ev : HashEvent}

/-- The table leads to the items in memory. -/
theorem Inv.reachable_iff (hinv : Inv h ahead) {a : Addr} : h.Reachable a ↔ a ∈ h.items.keys := by
  obtain ⟨b, r, hi, -⟩ := hinv
  constructor
  · rintro ⟨i, hlt, l, hl, ha⟩
    obtain rfl := Seg.unique hl (hi.chain i hlt)
    obtain ⟨e, he, -⟩ := hi.placed i a ha
    exact AList.mem_keys.mp (AList.lookup_isSome.mp (by rw [he]; rfl))
  · intro ha
    obtain ⟨e, he⟩ := Option.isSome_iff_exists.mp (AList.lookup_isSome.mpr (AList.mem_keys.mpr ha))
    have hin := hi.covers a e he
    exact ⟨_, hi.bucket_lt hin, _, hi.chain _ (hi.bucket_lt hin), hin⟩

theorem Inv.holds_iff (hinv : Inv h ahead) : h.Holds m ↔ Lists ckey id h.pairs m := by
  have hsame : ∀ c p, (∃ a e, h.Reachable a ∧ h.items.lookup a = some e ∧ (e.key, e.data) = p ∧
      cstr e.key.bytes = c) ↔ ∃ q ∈ h.pairs, ckey q = c ∧ id q = p := by
    intro c p
    constructor
    · rintro ⟨a, e, -, he, hp, hc⟩
      exact ⟨(e.key, e.data), mem_pairs.mpr ⟨a, e, he, rfl, rfl⟩, hc, hp⟩
    · rintro ⟨q, hq, hc, hp⟩
      obtain ⟨a, e, he, hk, hd⟩ := mem_pairs.mp hq
      have hmem : a ∈ h.items := AList.lookup_isSome.mp (by rw [he]; rfl)
      refine ⟨a, e, hinv.reachable_iff.mpr (AList.mem_keys.mp hmem), he, ?_, ?_⟩
      · rw [hk, hd]
        exact hp
      · rw [hk]
        exact hc
  unfold Holds Lib.Lists
  simp only [hsame]

structure Progress (m : Elements) (start : Set Bytes) (h : RimHash) (trace : List HashEvent)
    (ahead : Set Bytes) : Prop where
  order : h.InOrder ahead
  content : Lists ckey id h.pairs (trace.foldl HashEvent.change m)
  present : ∀ pre del out post, trace = pre ++ (.next del, out) :: post → out.st = .okay →
    pre.foldl HashEvent.change m (cstr out.key.bytes) = some (out.key, out.data)
  once : (HashEvent.returned trace).Nodup
  behind : ∀ c ∈ HashEvent.returned trace, c ∉ ahead ∧ bucketOf h.numBuckets c ≤ h.dnext
  reached : ∀ c ∈ start, c ∈ HashEvent.returned trace ∨ c ∈ ahead ∨ HashEvent.DeletedFirst trace c

/-- How an event moves the traversal: what is ahead now was ahead, or belongs to a later
bucket; what is not ahead any more was returned, or deleted by key. -/
structure Moves (h : RimHash) (ahead : Set Bytes) (ev : HashEvent) (h' : RimHash)
    (ahead' : Set Bytes) : Prop where
  inv : Inv h' ahead'
  later : h.dnext ≤ h'.dnext
  same : SameHash h h'
  gains : ∀ c ∈ ahead', c ∈ ahead ∨ h.dnext < bucketOf h.numBuckets c
  loses : ∀ c ∈ ahead, c ∈ ahead' ∨ ev.returns = some c ∨
    ∃ key out, ev = (.find key true, out) ∧ out.st = .okay ∧ cstr key.bytes = c
  returns : ∀ c, ev.returns = some c →
    c ∈ ahead ∧ c ∉ ahead' ∧ bucketOf h.numBuckets c = h'.dnext
  present : ∀ del out, ev = (.next del, out) → out.st = .okay → (out.key, out.data) ∈ h.pairs

/-- The pairs after an event are the elements after it. -/
theorem Outcome.lists (ho : Outcome h ahead h' ev) (ht : ev.1.Traversing) (hinv : Inv h ahead)
    (hm : Lists ckey id h.pairs m) : Lists ckey id h'.pairs (ev.change m) := by
  have hitems : h'.items = h.items → Lists ckey id h'.pairs m := by
    intro hi
    unfold pairs at hm ⊢
    rw [hi]
    exact hm
  have hremove : ∀ {k d}, h.pairs.Perm ((k, d) :: h'.pairs) →
      Lists ckey id h'.pairs (Function.update m (cstr k.bytes) none) := by
    intro k d hpairs
    have hnd := (hpairs.map ckey).nodup_iff.mp hinv.distinct
    refine (hm.perm hpairs).tail fun q hq hk => ?_
    exact (List.nodup_cons.mp hnd).1 (List.mem_map.mpr ⟨q, hq, hk⟩)
  cases ho with
  | add key data oldData new calls out hout =>
    cases hout with
    | replaced k d rest hkey hpairs hpairs' =>
      have hnd := (hpairs.map ckey).nodup_iff.mp hinv.distinct
      have hne : ∀ q ∈ rest, ckey q ≠ ckey (k, d) := fun q hq hk =>
        (List.nodup_cons.mp hnd).1 (List.mem_map.mpr ⟨q, hq, hk⟩)
      have hck : ckey (k, d) = ckey (key, data) := hkey
      have hnew := ((hm.perm hpairs).tail hne).cons (a := (key, data)) (hck ▸ hne)
      rw [hck, Function.update_idem] at hnew
      exact hnew.perm hpairs'.symm
    | added habs hpairs' =>
      have hnew := hm.cons (a := (key, data)) habs
      rw [hpairs']
      exact hnew
  | find key del calls out hout =>
    cases hout with
    | absent habs hi => cases del <;> exact hitems hi
    | kept hdel k d hkey hmem hi =>
      subst hdel
      exact hitems hi
    | removed hdel k d a hkey hpairs =>
      subst hdel
      have hrest := hremove hpairs
      rw [hkey] at hrest
      exact hrest
  | next del calls out hout =>
    cases hout with
    | done hend hi => cases del <;> exact hitems hi
    | kept hdel k d hmem hahead hi =>
      subst hdel
      exact hitems hi
    | removed hdel k d a hahead hpairs =>
      subst hdel
      exact hremove hpairs
  | rewind => exact ht.elim
  | resize => exact ht.elim
  | purge => exact ht.elim

theorem Outcome.moves (ho : Outcome h ahead h' ev) (ht : ev.1.Traversing) : ∃ ahead', Moves h ahead ev h' ahead' := by
  cases ho with
  | add key data oldData new calls out hout hnext hsame =>
    cases hout with
    | replaced k d rest hkey hpairs hpairs' haddrs hinv =>
      exact ⟨ahead, hinv, hnext.ge, hsame, fun c hc => Or.inl hc, fun c hc => Or.inl hc,
        fun c hc => (by cases hc), fun del out he => (by cases he)⟩
    | added habs hpairs' haddrs hinv =>
      refine ⟨_, hinv, hnext.ge, hsame, fun c hc => hc.imp id And.right,
        fun c hc => Or.inl (Or.inl hc), fun c hc => (by cases hc), fun del out he => (by cases he)⟩
  | find key del calls out hout hnext hsame =>
    cases hout with
    | absent habs hitems hinv =>
      exact ⟨ahead, hinv, hnext.ge, hsame, fun c hc => Or.inl hc, fun c hc => Or.inl hc,
        fun c hc => (by cases hc), fun del out he => (by cases he)⟩
    | kept hdel k d hkey hmem hitems hinv =>
      exact ⟨ahead, hinv, hnext.ge, hsame, fun c hc => Or.inl hc, fun c hc => Or.inl hc,
        fun c hc => (by cases hc), fun del out he => (by cases he)⟩
    | removed hdel k d a hkey hpairs haddrs hgone hinv =>
      subst hdel
      refine ⟨_, hinv, hnext.ge, hsame, fun c hc => Or.inl hc.1, fun c hc => ?_,
        fun c hc => (by cases hc), fun del out he => (by cases he)⟩
      by_cases hck : c = cstr k.bytes
      · refine Or.inr (Or.inr ⟨key, _, rfl, rfl, ?_⟩)
        rw [hck, hkey]
      · exact Or.inl ⟨hc, hck⟩
  | next del calls out hout hnext hsame =>
    cases hout with
    | done hend hitems hinv =>
      refine ⟨∅, hinv, hnext, hsame, fun c hc => hc.elim, fun c hc => ?_, fun c hc => ?_,
        fun del' out he hst => ?_⟩
      · rw [hend] at hc
        exact hc.elim
      · cases hc
      · cases he
        cases hst
    | kept hdel k d hmem hahead hitems hbucket hinv =>
      refine ⟨_, hinv, hnext, hsame, fun c hc => Or.inl hc.1, fun c hc => ?_, fun c hc => ?_,
        fun del' out he hst => ?_⟩
      · by_cases hck : c = cstr k.bytes
        · exact Or.inr (Or.inl (congrArg some hck.symm))
        · exact Or.inl ⟨hc, hck⟩
      · obtain rfl : cstr k.bytes = c := Option.some.inj hc
        exact ⟨hahead, fun hno => hno.2 rfl, hbucket⟩
      · cases he
        exact hmem
    | removed hdel k d a hahead hpairs haddrs hgone hbucket hinv =>
      refine ⟨_, hinv, hnext, hsame, fun c hc => Or.inl hc.1, fun c hc => ?_, fun c hc => ?_,
        fun del' out he hst => ?_⟩
      · by_cases hck : c = cstr k.bytes
        · exact Or.inr (Or.inl (congrArg some hck.symm))
        · exact Or.inl ⟨hc, hck⟩
      · obtain rfl : cstr k.bytes = c := Option.some.inj hc
        exact ⟨hahead, fun hno => hno.2 rfl, hbucket⟩
      · cases he
        exact hpairs.mem_iff.mpr (List.mem_cons_self ..)
  | rewind => exact ht.elim
  | resize => exact ht.elim
  | purge => exact ht.elim

theorem returned_snoc : HashEvent.returned (trace ++ [ev]) = HashEvent.returned trace ++ ev.returns.toList := by
  unfold HashEvent.returned
  rw [List.filterMap_append]
  cases hr : ev.returns with
  | none => simp [hr]
  | some c => simp [hr]

/-- A deletion by key stays one when more events follow. -/
theorem DeletedFirst.snoc {c : Bytes} (hd : HashEvent.DeletedFirst trace c) :
    HashEvent.DeletedFirst (trace ++ [ev]) c := by
  obtain ⟨pre, key, out, post, rfl, hst, hk, hc⟩ := hd
  refine ⟨pre, key, out, post ++ [ev], ?_, hst, hk, hc⟩
  rw [List.append_assoc, List.cons_append]

/-- A guarded event takes the traversal on. -/
theorem Progress.step {start : Set Bytes} (hp : Progress m start h trace ahead)
    (ht : ev.1.Traversing) (hg : ev.1.Guard h) (hs : h.Step ev h') :
    ∃ ahead', Progress m start h' (trace ++ [ev]) ahead' := by
  obtain ⟨hout, hlimit⟩ := step_outcome hp.order hg hs
  obtain ⟨ahead', hm⟩ := hout.moves ht
  refine ⟨ahead', ⟨hm.inv, hlimit⟩, ?_, ?_, ?_, ?_, ?_⟩
  · rw [List.foldl_append]
    exact hout.lists ht hp.order.inv hp.content
  · intro pre del out post heq hst
    rcases List.eq_nil_or_concat' post with rfl | ⟨post, ev', rfl⟩
    · -- the event itself
      obtain ⟨rfl, hev⟩ := List.append_inj' heq rfl
      have hpair := hm.present del out (List.cons.inj hev).1 hst
      exact (hp.content _ _).mpr ⟨_, hpair, rfl, rfl⟩
    · have heq' : trace ++ [ev] = (pre ++ (.next del, out) :: post) ++ [ev'] := by
        rw [heq, List.append_assoc, List.cons_append]
      obtain ⟨rfl, -⟩ := List.append_inj' heq' rfl
      exact hp.present pre del out post rfl hst
  · rw [returned_snoc, List.nodup_append]
    refine ⟨hp.once, ?_, ?_⟩
    · cases ev.returns <;> simp
    · rintro c hc c' hc' rfl
      exact (hp.behind c hc).1 (hm.returns c (Option.mem_toList.mp hc')).1
  · intro c hc
    rw [hm.same.numBuckets]
    rw [returned_snoc] at hc
    rcases List.mem_append.mp hc with hc | hc
    · obtain ⟨hnot, hle⟩ := hp.behind c hc
      refine ⟨fun hin => ?_, hle.trans hm.later⟩
      rcases hm.gains c hin with hin | hlt
      · exact hnot hin
      · exact absurd hle (Nat.not_le.mpr hlt)
    · obtain ⟨-, hnot, hbucket⟩ := hm.returns c (Option.mem_toList.mp hc)
      exact ⟨hnot, hbucket.le⟩
  · intro c hc
    rw [returned_snoc]
    rcases hp.reached c hc with hr | ha | hd
    · exact Or.inl (List.mem_append_left _ hr)
    · rcases hm.loses c ha with ha | hr | ⟨key, out, rfl, hst, hk⟩
      · exact Or.inr (Or.inl ha)
      · exact Or.inl (List.mem_append_right _ (Option.mem_toList.mpr hr))
      · -- deleted by key, and not returned: it was still ahead
        refine Or.inr (Or.inr ⟨trace, key, out, [], rfl, hst, hk, fun hr => ?_⟩)
        exact (hp.behind c hr).1 ha
    · exact Or.inr (Or.inr (DeletedFirst.snoc hd))

end Traversal

/-- A hash with one element, in bucket 0, at the start of a traversal. -/
theorem rewound_oneKey : ∃ (h h₀ : RimHash) (before : List HashEvent),
    GuardedRun Step (fun h ev => ev.1.Guard h) newHash before h ∧ h.rimRewindHash = some h₀ ∧
    (∃ h', GuardedRun TraverseStep (fun h ev => ev.1.Guard h) h₀
      [(.add ⟨12, [109, 120]⟩ 13 false 4, {}),
        (.next false, { key := ⟨10, [100, 115]⟩, data := 11 })] h') ∧
    ∃ h', Run TraverseStep h₀ [(.add ⟨12, [109, 120]⟩ 13 false 4, {}),
        (.next true, { key := ⟨10, [100, 115]⟩, data := 11 })] h' ∧
      h'.tot = 1 ∧ h'.numBuckets = 256 ∧ ∀ i, i < 256 → h'.table i = none := by
  refine ⟨_, _, [(.add ⟨10, [100, 115]⟩ 11 false 3, {})], .cons trivial ⟨rfl, _, rfl⟩ (.nil _), rfl,
    ⟨_, .cons trivial ⟨trivial, rfl, _, rfl⟩ (.cons (fun hf => by cases hf)
      ⟨trivial, trivial, _, rfl⟩ (.nil _))⟩,
    _, .cons trivial ⟨trivial, rfl, _, rfl⟩ (.cons trivial ⟨trivial, trivial, _, rfl⟩ (.nil _)),
    rfl, rfl, by decide +kernel⟩

end RimHash

end RimStone
