import RimStone.Laws.Hash.Buckets
import Mathlib.Data.Set.Insert

/-!
# The operations of a hash

One theorem for each operation: it returns, keeps the layout, and makes of the pairs
what its outcome says. `Inv h ahead` is the layout together with the C strings of the
keys that the traversal has not come to.

`rim_next_hash` deletes an item that it finds through `dcurr` with the help of `dprev`,
which may be out of date by then; `NextGuard` is that it is not.
-/

namespace RimStone

open RimStone.Lib

namespace RimHash

def bucketOf (size : Nat) (c : Bytes) : Nat := rimComputeHash ⟨0, c⟩ size

theorem bucketOf_cstr (key : RimStr) (size : Nat) : bucketOf size (cstr key.bytes) = rimComputeHash key size :=
  rimComputeHash_congr (cstr_cstr key.bytes) size

def aheadOf (h : RimHash) (b : Nat → List Addr) (r : List Addr) : Set Bytes :=
  {c | ∃ a e, h.items.lookup a = some e ∧ cstr e.key.bytes = c ∧
    (a ∈ r ∨ ∃ j, h.dnext < j ∧ a ∈ b j)}

/-- A hash as its functions keep it, with the keys the traversal has not come to. -/
def Inv (h : RimHash) (ahead : Set Bytes) : Prop :=
  ∃ b r, HashInv h b r ∧ aheadOf h b r = ahead

/-- What no operation but `rim_resize_hash` and `rim_delete_hash` changes. -/
structure SameHash (h h' : RimHash) : Prop where
  numBuckets : h'.numBuckets = h.numBuckets
  addr : h'.addr = h.addr
  tableAddr : h'.tableAddr = h.tableAddr
  process : h'.process = h.process

theorem SameHash.refl (h : RimHash) : SameHash h h := ⟨rfl, rfl, rfl, rfl⟩

/-- The traversal stands where it can delete: at the head of a bucket, or after an
item that is there and leads to the current one. -/
def NextGuard (h : RimHash) : Prop :=
  ∀ a, h.dcurr = some a → match h.dprev with
    | none => h.table h.dnext = some a
    | some p => h.items.cell p = some (some a)

/-- What becomes of a hash when a pair is written. -/
inductive AddOutcome (h : RimHash) (ahead : Set Bytes) (key : RimStr) (data : Addr)
    (oldData : Bool) (new : Addr) (h' : RimHash) : List MemCall × HashOut → Prop
  | replaced (k : RimStr) (d : Addr) (rest : List (RimStr × Addr))
      (hkey : cstr k.bytes = cstr key.bytes) (hpairs : h.pairs.Perm ((k, d) :: rest))
      (hpairs' : h'.pairs.Perm ((key, data) :: rest)) (haddrs : h.items.keys.Perm h'.items.keys)
      (hinv : Inv h' ahead) :
      AddOutcome h ahead key data oldData new h'
        ([.addRef key.addr, .addRef data] ++ (if oldData then [] else [.decProcess d]) ++
          [.decProcess k.addr], if oldData then { data := d, st := .infoExist } else {})
  | added (habs : ∀ p ∈ h.pairs, ckey p ≠ cstr key.bytes)
      (hpairs' : h'.pairs = (key, data) :: h.pairs) (haddrs : h'.items.keys = new :: h.items.keys)
      (hinv : Inv h' {c | c ∈ ahead ∨ (c = cstr key.bytes ∧ h.dnext < bucketOf h.numBuckets c)}) :
      AddOutcome h ahead key data oldData new h'
        ([.malloc new sizeofItem, .addRef key.addr, .addRef data], {})

/-- What becomes of a hash when a key is looked up, or its item deleted. -/
inductive FindOutcome (h : RimHash) (ahead : Set Bytes) (key : RimStr) (del : Bool) (h' : RimHash) :
    List MemCall × HashOut → Prop
  | absent (habs : ∀ p ∈ h.pairs, p.1.bytes ≠ key.bytes) (hitems : h'.items = h.items)
      (hinv : Inv h' ahead) : FindOutcome h ahead key del h' ([], { st := .errExist })
  | kept (hdel : del = false) (k : RimStr) (d : Addr) (hkey : k.bytes = key.bytes)
      (hmem : (k, d) ∈ h.pairs) (hitems : h'.items = h.items) (hinv : Inv h' ahead) :
      FindOutcome h ahead key del h' ([], { data := d })
  | removed (hdel : del = true) (k : RimStr) (d a : Addr) (hkey : k.bytes = key.bytes)
      (hpairs : h.pairs.Perm ((k, d) :: h'.pairs)) (haddrs : h.items.keys.Perm (a :: h'.items.keys))
      (hgone : h'.items.lookup a = none) (hinv : Inv h' {c ∈ ahead | c ≠ cstr k.bytes}) :
      FindOutcome h ahead key del h'
        ([.decProcess k.addr, .decProcess d, .decProcess a], { data := d })

/-- What becomes of a hash when the traversal goes on. -/
inductive NextOutcome (h : RimHash) (ahead : Set Bytes) (del : Bool) (h' : RimHash) :
    List MemCall × HashOut → Prop
  | done (hend : ahead = ∅) (hitems : h'.items = h.items) (hinv : Inv h' ∅) :
      NextOutcome h ahead del h' ([], { st := .errExist })
  | kept (hdel : del = false) (k : RimStr) (d : Addr) (hmem : (k, d) ∈ h.pairs)
      (hahead : cstr k.bytes ∈ ahead) (hitems : h'.items = h.items)
      (hbucket : bucketOf h.numBuckets (cstr k.bytes) = h'.dnext)
      (hinv : Inv h' {c ∈ ahead | c ≠ cstr k.bytes}) :
      NextOutcome h ahead del h' ([], { key := k, data := d })
  | removed (hdel : del = true) (k : RimStr) (d a : Addr) (hahead : cstr k.bytes ∈ ahead)
      (hpairs : h.pairs.Perm ((k, d) :: h'.pairs)) (haddrs : h.items.keys.Perm (a :: h'.items.keys))
      (hgone : h'.items.lookup a = none)
      (hbucket : bucketOf h.numBuckets (cstr k.bytes) = h'.dnext)
      (hinv : Inv h' {c ∈ ahead | c ≠ cstr k.bytes}) :
      NextOutcome h ahead del h' ([.decProcess a], { key := k, data := d })

section Operations

variable {h : RimHash} {b : Nat → List Addr} {r l₁ l₂ : List Addr} {ahead : Set Bytes} {a : Addr}
  {e : HashItem} {i : Nat}

/-- An item of a hash is given up. -/
theorem rimDelHashEntry_inv (hi : HashInv h b r) (hb : b i = l₁ ++ a :: l₂)
    (he : h.items.lookup a = some e) (keydel : Bool) :
    ∃ h', h.rimDelHashEntry a l₁.getLast? (some i) keydel = some (h',
        (if keydel then [.decProcess e.key.addr, .decProcess e.data] else []) ++ [.decProcess a]) ∧
      HashInv h' (Function.update b i (l₁ ++ l₂)) (r.erase a) ∧
      h.pairs.Perm ((e.key, e.data) :: h'.pairs) ∧ h.items.keys.Perm (a :: h'.items.keys) ∧
      h'.items.lookup a = none ∧ h'.dnext = h.dnext ∧ SameHash h h' ∧
      ∀ x, x ≠ a → (h'.items.lookup x).map (·.key) = (h.items.lookup x).map (·.key) := by
  have hlt : i < h.numBuckets := hi.bucket_lt (a := a) (by simp [hb])
  have hchain := hi.chain i hlt
  have hcell := HashItems.cell_of_lookup he
  have hnd := hi.nodup i
  rw [hb] at hchain hnd
  rcases List.eq_nil_or_concat' l₁ with rfl | ⟨l, p, rfl⟩
  · -- the head of the bucket
    rw [List.nil_append] at hchain hnd
    have hal : a ∉ l₂ := (List.nodup_cons.mp hnd).1
    have hhead := Seg.head_eq hchain
    rw [hhead] at hchain
    have hpairs : h.pairs.Perm ((e.key, e.data) :: HashItems.pairs (h.items.erase a)) := HashItems.pairs_erase he
    have hkey : ∀ x, x ≠ a →
        ((h.items.erase a).lookup x).map (·.key) = (h.items.lookup x).map (·.key) :=
      fun x hx => by rw [AList.lookup_erase_ne hx]
    have hchain' : Chain (HashItems.cell (h.items.erase a))
        (Function.update h.table i e.next i) ([] ++ l₂) := by
      rw [Function.update_self, HashItems.cell_erase]
      exact (Seg.tail hchain hcell).update hal
    have hother : ∀ x, x ∉ b i → HashItems.cell (h.items.erase a) x = h.items.cell x := by
      intro x hx
      rw [HashItems.cell_erase, Function.update_of_ne]
      rintro rfl
      exact hx (by simp [hb])
    have hinv := hi.removed hb he hchain' (fun j hj => Function.update_of_ne hj _ _) hother hkey
      (AList.lookup_erase ..) hpairs
    refine ⟨_, ?_, hinv, hpairs, HashItems.keys_erase he, AList.lookup_erase .., rfl, ⟨rfl, rfl, rfl, rfl⟩, hkey⟩
    simp only [rimDelHashEntry, he, bind, Option.bind, List.getLast?_nil, Option.getD_some, hi.tableSet hlt]
    split_ifs <;> rfl
  · -- an item further on, after `p`
    rw [List.append_assoc, List.singleton_append] at hchain hnd
    obtain ⟨hndl, hndr, hdisj⟩ := List.nodup_append.mp hnd
    obtain ⟨hp, hndr⟩ := List.nodup_cons.mp hndr
    have hpa : p ≠ a := fun heq => hp (heq ▸ List.mem_cons_self ..)
    have ha : a ∉ l ++ p :: l₂ := by
      intro hm
      rcases List.mem_append.mp hm with hm | hm
      · exact hdisj a hm a (List.mem_cons_of_mem _ (List.mem_cons_self ..)) rfl
      · rcases List.mem_cons.mp hm with hm | hm
        · exact hpa hm.symm
        · exact (List.nodup_cons.mp hndr).1 hm
    obtain ⟨q, hq, -⟩ := hi.placed i p (by simp [hb])
    have he' : (AList.insert p { q with next := e.next } h.items).lookup a = some e := by
      rw [AList.lookup_insert_ne hpa.symm, he]
    have hpairs : h.pairs.Perm ((e.key, e.data) ::
        HashItems.pairs ((AList.insert p { q with next := e.next } h.items).erase a)) :=
      (HashItems.pairs_relink hq rfl rfl).trans (HashItems.pairs_erase he')
    have hkey : ∀ x, x ≠ a →
        (((AList.insert p { q with next := e.next } h.items).erase a).lookup x).map (·.key) =
          (h.items.lookup x).map (·.key) := by
      intro x hx
      rw [AList.lookup_erase_ne hx]
      by_cases hxp : x = p
      · subst hxp
        rw [AList.lookup_insert, hq]
        rfl
      · rw [AList.lookup_insert_ne hxp]
    have hchain' : Chain (HashItems.cell
        ((AList.insert p { q with next := e.next } h.items).erase a)) (h.table i) (l ++ [p] ++ l₂) := by
      rw [HashItems.cell_erase, HashItems.cell_insert, List.append_assoc, List.singleton_append]
      exact (Seg.unlink hchain hcell).update ha
    have hother : ∀ x, x ∉ b i → HashItems.cell
        ((AList.insert p { q with next := e.next } h.items).erase a) x = h.items.cell x := by
      intro x hx
      have hxa : x ≠ a := fun heq => hx (by simp [hb, heq])
      have hxp : x ≠ p := fun heq => hx (by simp [hb, heq])
      rw [HashItems.cell_erase, HashItems.cell_insert, Function.update_of_ne hxa, Function.update_of_ne hxp]
    have hinv := hi.removed hb he hchain' (fun _ _ => rfl) hother hkey (AList.lookup_erase ..) hpairs
    refine ⟨_, ?_, hinv, hpairs, (HashItems.keys_relink hq).trans (HashItems.keys_erase he'),
      AList.lookup_erase .., rfl, ⟨rfl, rfl, rfl, rfl⟩, hkey⟩
    simp only [rimDelHashEntry, he, bind, Option.bind, List.getLast?_append,
      List.getLast?_singleton, Option.some_or, setItem, hq, Option.map_some]
    split_ifs <;> rfl

/-- Without an item, its key is the only one not ahead any more. -/
theorem aheadOf_removed {h' : RimHash} (hi : HashInv h b r) (hb : b i = l₁ ++ a :: l₂)
    (he : h.items.lookup a = some e) (hgone : h'.items.lookup a = none) (hnext : h'.dnext = h.dnext)
    (hkey : ∀ x, x ≠ a → (h'.items.lookup x).map (·.key) = (h.items.lookup x).map (·.key)) :
    aheadOf h' (Function.update b i (l₁ ++ l₂)) (r.erase a) = {c ∈ aheadOf h b r | c ≠ cstr e.key.bytes} := by
  have hbucket : ∀ x j, x ≠ a → (x ∈ Function.update b i (l₁ ++ l₂) j ↔ x ∈ b j) := by
    intro x j hx
    by_cases hj : j = i
    · subst hj
      simp [hb, hx]
    · rw [Function.update_of_ne hj]
  have hlook : ∀ x k, x ≠ a → ((∃ e', h'.items.lookup x = some e' ∧ e'.key = k) ↔
      ∃ e', h.items.lookup x = some e' ∧ e'.key = k) := by
    intro x k hx
    rw [← Option.map_eq_some_iff, ← Option.map_eq_some_iff, hkey x hx]
  ext c
  constructor
  · rintro ⟨x, e', he', rfl, hx⟩
    have hxa : x ≠ a := by
      rintro rfl
      rw [hgone] at he'
      cases he'
    obtain ⟨e₀, he₀, hk₀⟩ := (hlook x e'.key hxa).mp ⟨e', he', rfl⟩
    refine ⟨⟨x, e₀, he₀, by rw [hk₀], hx.imp List.mem_of_mem_erase ?_⟩, fun hc => hxa ?_⟩
    · rintro ⟨j, hj, hxj⟩
      exact ⟨j, hnext ▸ hj, (hbucket x j hxa).mp hxj⟩
    · refine hi.unique he₀ he ?_
      rw [hk₀]
      exact hc
  · rintro ⟨⟨x, e₀, he₀, rfl, hx⟩, hc⟩
    have hxa : x ≠ a := by
      rintro rfl
      obtain rfl := Option.some.inj (he.symm.trans he₀)
      exact hc rfl
    obtain ⟨e', he', hk'⟩ := (hlook x e₀.key hxa).mpr ⟨e₀, he₀, rfl⟩
    refine ⟨x, e', he', by rw [hk'], hx.imp (List.mem_erase_of_ne hxa).mpr ?_⟩
    rintro ⟨j, hj, hxj⟩
    exact ⟨j, hnext.symm ▸ hj, (hbucket x j hxa).mpr hxj⟩

/-- The layout does not depend on the counters of searches and comparisons. -/
theorem HashInv.withCounters (hi : HashInv h b r) (hits reads : Int) :
    HashInv { h with hits := hits, reads := reads } b r :=
  ⟨hi.size, hi.room, hi.chain, hi.beyond, hi.placed, hi.covers, hi.distinct, hi.tot, hi.cursor, hi.here, hi.current⟩

/-- The item `rim_find_hash` and `rim_add_hash` look for is in the bucket of its key. -/
theorem HashInv.searched (hi : HashInv h b r) {key : RimStr} {same : RimStr → Bool}
    (hsame : ∀ k, same k = true → cstr k.bytes = cstr key.bytes) :
    ∃ res, rimBucketLoop h.items same h.items.keys.length 0 none
        (h.table (rimComputeHash key h.numBuckets)) = some res ∧
      BucketFound h.items same (b (rimComputeHash key h.numBuckets)) none res ∧
      (res.2.2 = none → ∀ p ∈ h.pairs, same p.1 = false) := by
  have hlt := rimComputeHash_lt key hi.size
  obtain ⟨res, hres, hf⟩ : ∃ res, rimBucketLoop h.items same h.items.keys.length 0 none
      (h.table (rimComputeHash key h.numBuckets)) = some res ∧ BucketFound h.items same _ none res :=
    rimBucketLoop_found none 0 (hi.chain _ hlt) (hi.length_le hlt)
  refine ⟨res, hres, hf, fun hnone p hp => ?_⟩
  obtain ⟨x, e, he, hk, -⟩ := mem_pairs.mp hp
  cases hf with
  | found => cases hnone
  | absent reads last habs =>
    by_contra hs
    have hs : same p.1 = true := by simpa using hs
    have hin := hi.covers x e he
    rw [rimComputeHash_congr ((congrArg _ (congrArg _ hk)).trans (hsame p.1 hs))] at hin
    have hno := habs x hin e he
    rw [hk, hs] at hno
    cases hno

/-- `rim_add_hash` -/
theorem rimAddHash_inv (hinv : Inv h ahead) (key : RimStr) (data : Addr) (oldData : Bool)
    {new : Addr} (hnew : h.items.lookup new = none) :
    ∃ h' res, h.rimAddHash key data oldData new = some (h', res) ∧ SameHash h h' ∧
      h'.dnext = h.dnext ∧ AddOutcome h ahead key data oldData new h' res := by
  obtain ⟨b, r, hi, rfl⟩ := hinv
  have hlt := rimComputeHash_lt key hi.size
  have hsame : ∀ k : RimStr, (decide (strcmp key.memory k.memory = 0)) = true ↔
      cstr k.bytes = cstr key.bytes := by
    intro k
    rw [decide_eq_true_iff]
    exact strcmp_eq_zero.trans eq_comm
  obtain ⟨res, hres, hf, habs⟩ := hi.searched fun k => (hsame k).mp
  unfold rimAddHash
  simp only [hi.tableGet hlt, hres, bind, Option.bind]
  cases hf with
  | absent reads last hnone =>
    have habs : ∀ p ∈ h.pairs, ckey p ≠ cstr key.bytes := fun p hp hk => by
      have hno := habs rfl p hp
      rw [(hsame p.1).mpr hk] at hno
      cases hno
    have hi' := hi.added data rfl hnew habs
    have hnotmem : new ∉ h.items := AList.lookup_eq_none.mp hnew
    simp only [rimNewHashItem, hi.tableSet hlt]
    refine ⟨_, _, rfl, ⟨rfl, rfl, rfl, rfl⟩, rfl, .added habs ?_ ?_ ⟨_, _, hi', ?_⟩⟩
    · unfold pairs HashItems.pairs
      rw [AList.entries_insert_of_notMem hnotmem]
      rfl
    · unfold AList.keys
      rw [AList.entries_insert_of_notMem hnotmem]
      rfl
    · ext c
      constructor
      · rintro ⟨x, e, he, rfl, hx⟩
        by_cases hxn : x = new
        · subst hxn
          obtain rfl := Option.some.inj ((AList.lookup_insert h.items).symm.trans he)
          have hno : ∀ j, x ∉ b j := fun j hj => by
            obtain ⟨e', he', -⟩ := hi.placed j x hj
            rw [hnew] at he'
            cases he'
          rcases hx with hx | ⟨j, hj, hx⟩
          · exact absurd (hi.here.subset hx) (hno _)
          · refine Or.inr ⟨rfl, ?_⟩
            rw [bucketOf_cstr]
            by_cases hji : j = rimComputeHash key h.numBuckets
            · exact hji ▸ hj
            · rw [Function.update_of_ne hji] at hx
              exact absurd hx (hno j)
        · have he₀ : h.items.lookup x = some e := (AList.lookup_insert_ne hxn).symm.trans he
          refine Or.inl ⟨x, e, he₀, rfl, hx.imp id ?_⟩
          rintro ⟨j, hj, hx⟩
          refine ⟨j, hj, ?_⟩
          by_cases hji : j = rimComputeHash key h.numBuckets
          · subst hji
            rw [Function.update_self] at hx
            exact (List.mem_cons.mp hx).resolve_left hxn
          · rwa [Function.update_of_ne hji] at hx
      · rintro (⟨x, e, he, rfl, hx⟩ | ⟨rfl, hj⟩)
        · have hxn : x ≠ new := by
            rintro rfl
            rw [hnew] at he
            cases he
          refine ⟨x, e, (AList.lookup_insert_ne hxn).trans he, rfl, hx.imp id ?_⟩
          rintro ⟨j, hj, hx⟩
          refine ⟨j, hj, ?_⟩
          by_cases hji : j = rimComputeHash key h.numBuckets
          · subst hji
            rw [Function.update_self]
            exact List.mem_cons_of_mem _ hx
          · rwa [Function.update_of_ne hji]
        · rw [bucketOf_cstr] at hj
          refine ⟨new, _, AList.lookup_insert _, rfl, Or.inr ⟨_, hj, ?_⟩⟩
          rw [Function.update_self]
          exact List.mem_cons_self ..
  | found reads l₁ l₂ a e hl he hs =>
    have hk := (hsame e.key).mp hs
    have hi' := hi.replaced data he hk
    simp only [he, setItem, Option.map_some]
    refine ⟨_, _, rfl, ⟨rfl, rfl, rfl, rfl⟩, rfl, .replaced e.key e.data _ hk
      (HashItems.pairs_erase he) ?_ ?_ ⟨b, r, hi', ?_⟩⟩
    · unfold pairs
      rw [HashItems.pairs_insert]
    · exact HashItems.keys_relink he
    · ext c
      constructor
      · rintro ⟨x, e', he', rfl, hx⟩
        by_cases hxa : x = a
        · subst hxa
          obtain rfl := Option.some.inj ((AList.lookup_insert h.items).symm.trans he')
          exact ⟨x, e, he, hk, hx⟩
        · exact ⟨x, e', (AList.lookup_insert_ne hxa).symm.trans he', rfl, hx⟩
      · rintro ⟨x, e', he', rfl, hx⟩
        by_cases hxa : x = a
        · subst hxa
          obtain rfl := Option.some.inj (he.symm.trans he')
          exact ⟨x, _, AList.lookup_insert _, hk.symm, hx⟩
        · exact ⟨x, e', (AList.lookup_insert_ne hxa).trans he', rfl, hx⟩

/-- `rim_find_hash` -/
theorem rimFindHash_inv (hinv : Inv h ahead) (key : RimStr) (del : Bool) :
    ∃ h' res, h.rimFindHash key del true = some (h', res) ∧ SameHash h h' ∧
      h'.dnext = h.dnext ∧ FindOutcome h ahead key del h' res := by
  obtain ⟨b, r, hi, rfl⟩ := hinv
  have hlt := rimComputeHash_lt key hi.size
  have hsame : ∀ k : RimStr, rimCmStr key (rimMemGetLen key) k (rimMemGetLen k) = true ↔
      k.bytes = key.bytes := fun k => rimCmStr_iff.trans eq_comm
  obtain ⟨⟨reads, prev, found⟩, hres, hf, habs⟩ := hi.searched fun k hk =>
    congrArg cstr ((hsame k).mp hk)
  have hi₁ := hi.withCounters (h.hits + 1) (h.reads + reads)
  unfold rimFindHash
  have hget : ({ h with hits := h.hits + 1 } : RimHash).tableGet
      (rimComputeHash key h.numBuckets) = some (h.table (rimComputeHash key h.numBuckets)) :=
    hi.tableGet hlt
  simp only [hget, ↓reduceIte, hres, bind, Option.bind]
  cases hf with
  | absent _ _ hnone =>
    refine ⟨_, _, rfl, ⟨rfl, rfl, rfl, rfl⟩, rfl, .absent (fun p hp hk => ?_) rfl ⟨b, r, hi₁, rfl⟩⟩
    have hno := habs rfl p hp
    rw [(hsame p.1).mpr hk] at hno
    cases hno
  | found _ l₁ l₂ a e hl he hs =>
    have hk := (hsame e.key).mp hs
    simp only [he, Option.or_none]
    cases del with
    | false =>
      exact ⟨_, _, rfl, ⟨rfl, rfl, rfl, rfl⟩, rfl,
        .kept rfl e.key e.data hk (mem_pairs.mpr ⟨a, e, he, rfl, rfl⟩) rfl ⟨b, r, hi₁, rfl⟩⟩
    | true =>
      obtain ⟨h', hdel, hi', hpairs, haddrs, hgone, hnext, hsameH, hkeys⟩ := rimDelHashEntry_inv hi₁ hl he true
      simp only [↓reduceIte, hdel]
      refine ⟨h', _, rfl, ⟨hsameH.1, hsameH.2, hsameH.3, hsameH.4⟩, hnext, .removed rfl e.key e.data a hk hpairs haddrs hgone
        ⟨_, _, hi', ?_⟩⟩
      exact aheadOf_removed hi hl he hgone hnext hkeys

theorem aheadOf_congr {h' : RimHash} {r' : List Addr} (hitems : h'.items = h.items)
    (hx : ∀ x, (x ∈ r' ∨ ∃ j, h'.dnext < j ∧ x ∈ b j) ↔ x ∈ r ∨ ∃ j, h.dnext < j ∧ x ∈ b j) :
    aheadOf h' b r' = aheadOf h b r := by
  unfold aheadOf
  simp only [hitems, hx]

/-- At the end of the table nothing is ahead. -/
theorem HashInv.at_end (hi : HashInv h b r) (hend : h.dnext = h.numBuckets) : r = [] ∧ aheadOf h b r = ∅ := by
  have hr : r = [] := by
    have hs := hi.here
    rw [hend, hi.beyond _ (Nat.le_refl _)] at hs
    exact List.suffix_nil.mp hs
  refine ⟨hr, Set.eq_empty_of_forall_notMem ?_⟩
  rintro c ⟨a, e, -, -, ha | ⟨j, hj, ha⟩⟩
  · rw [hr] at ha
    cases ha
  · rw [hi.beyond j (by omega)] at ha
    cases ha

/-- What the first half of `rim_next_hash` leaves: the traversal stands at the next
item, if there is one, and what is ahead is the same. -/
structure NextItem (h : RimHash) (b : Nat → List Addr) (ahead : Set Bytes) (h' : RimHash)
    (p : Option Addr) (r' : List Addr) : Prop where
  inv : HashInv h' b r'
  ahead : aheadOf h' b r' = ahead
  items : h'.items = h.items
  same : SameHash h h'
  later : h.dnext ≤ h'.dnext
  item : p = r'.head?
  last : p = none → h'.dnext = h'.numBuckets

theorem rimNextLoop_item (fuel : Nat) (hi : HashInv h b []) (hfuel : h.dnext + fuel = h.numBuckets) (hpos : 0 < fuel) :
    ∃ h' p r', rimNextLoop fuel h = some (h', p) ∧ NextItem h b (aheadOf h b []) h' p r' ∧
      h'.dprev = h.dprev ∧ ∀ a, p = some a → h'.table h'.dnext = some a := by
  induction fuel generalizing h with
  | zero => cases hpos
  | succ fuel ih =>
    unfold rimNextLoop
    by_cases hend : h.dnext + 1 = h.numBuckets
    · -- this was the last bucket
      have hi' : HashInv { h with dnext := h.dnext + 1 } b [] :=
        ⟨hi.size, hi.room, hi.chain, hi.beyond, hi.placed, hi.covers, hi.distinct, hi.tot,
          Nat.le_of_eq hend, List.nil_suffix, hi.current⟩
      have hahead : aheadOf { h with dnext := h.dnext + 1 } b [] = aheadOf h b [] := by
        refine aheadOf_congr rfl fun x => or_congr_right ⟨?_, ?_⟩
        · rintro ⟨j, hj, hx⟩
          exact ⟨j, Nat.lt_of_succ_lt hj, hx⟩
        · rintro ⟨j, hj, hx⟩
          have hlt := hi.bucket_lt hx
          omega
      refine ⟨_, none, [], ?_, ⟨hi', hahead, rfl, ⟨rfl, rfl, rfl, rfl⟩, Nat.le_succ _, rfl,
        fun _ => hend⟩, rfl, fun a ha => by cases ha⟩
      simp [hend]
    · have hlt : h.dnext + 1 < h.numBuckets := by omega
      have hc := hi.chain _ hlt
      have hhead := Seg.head_eq hc
      have hi' : HashInv { h with dnext := h.dnext + 1, dcurr := h.table (h.dnext + 1) } b
          (b (h.dnext + 1)) :=
        ⟨hi.size, hi.room, hi.chain, hi.beyond, hi.placed, hi.covers, hi.distinct, hi.tot,
          Nat.le_of_lt hlt, List.suffix_rfl, hhead⟩
      have hahead : aheadOf { h with dnext := h.dnext + 1, dcurr := h.table (h.dnext + 1) } b
          (b (h.dnext + 1)) = aheadOf h b [] := by
        refine aheadOf_congr rfl fun x => ?_
        constructor
        · rintro (hx | ⟨j, hj, hx⟩)
          · exact Or.inr ⟨_, Nat.lt_succ_self _, hx⟩
          · exact Or.inr ⟨j, Nat.lt_of_succ_lt hj, hx⟩
        · rintro (hx | ⟨j, hj, hx⟩)
          · cases hx
          · by_cases hjd : j = h.dnext + 1
            · exact Or.inl (hjd ▸ hx)
            · refine Or.inr ⟨j, ?_, hx⟩
              show h.dnext + 1 < j
              omega
      have hget : ({ h with dnext := h.dnext + 1 } : RimHash).tableGet (h.dnext + 1) =
          some (h.table (h.dnext + 1)) := hi.tableGet hlt
      simp only [hend, ↓reduceIte, hget, bind, Option.bind]
      cases htab : h.table (h.dnext + 1) with
      | some a =>
        rw [htab] at hi' hahead
        refine ⟨_, some a, b (h.dnext + 1), by simp, ⟨hi', hahead, rfl, ⟨rfl, rfl, rfl, rfl⟩,
          Nat.le_succ _, hhead.symm.trans htab |>.symm, fun h => by cases h⟩, rfl, fun x hx => ?_⟩
        exact htab.trans hx
      | none =>
        rw [htab] at hi' hahead
        have hnil : b (h.dnext + 1) = [] := (Seg.eq_nil_iff hc).mpr htab
        rw [hnil] at hi' hahead
        have hlen : h.dnext + 1 + fuel = h.numBuckets := by omega
        obtain ⟨h', p, r', hloop, hitem, hprev, hfirst⟩ := ih hi' hlen (by omega)
        rw [hahead] at hitem
        refine ⟨h', p, r', by simpa using hloop, ⟨hitem.inv, hitem.ahead, hitem.items,
          ⟨hitem.same.1, hitem.same.2, hitem.same.3, hitem.same.4⟩, ?_, hitem.item, hitem.last⟩,
          hprev, hfirst⟩
        have hle : h.dnext + 1 ≤ h'.dnext := hitem.later
        omega

/-- In its bucket an item stands after the one that leads to it. -/
theorem HashInv.standing (hi : HashInv h b r) (ha : a ∈ b i)
    (hstand : match h.dprev with
      | none => h.table i = some a
      | some p => h.items.cell p = some (some a)) :
    ∃ l₁ l₂, b i = l₁ ++ a :: l₂ ∧ h.dprev = l₁.getLast? := by
  have hlt := hi.bucket_lt ha
  cases hprev : h.dprev with
  | none =>
    rw [hprev] at hstand
    have hhead := Seg.head_eq (hi.chain i hlt)
    rw [hstand] at hhead
    obtain ⟨l, hl⟩ := List.head?_eq_some_iff.mp hhead.symm
    exact ⟨[], l, hl, rfl⟩
  | some p =>
    rw [hprev] at hstand
    -- the item before is in the table, and in the same bucket
    have hp : ∃ q, h.items.lookup p = some q := by
      unfold HashItems.cell at hstand
      obtain ⟨q, hq, -⟩ := Option.map_eq_some_iff.mp hstand
      exact ⟨q, hq⟩
    obtain ⟨q, hq⟩ := hp
    have hin := hi.covers p q hq
    obtain ⟨l₁, l₂, hl⟩ := Seg.split_next (hi.chain _ (hi.bucket_lt hin)) hin hstand
    obtain ⟨e, he, hk⟩ := hi.placed i a ha
    have hbucket : rimComputeHash q.key h.numBuckets = i := by
      refine Eq.trans ?_ hk
      exact (hi.bucket_eq (by simp [hl]) he).symm
    rw [hbucket] at hl
    exact ⟨l₁ ++ [p], l₂, by simp [hl], by simp⟩

/-- The first half of `rim_next_hash` -/
theorem rimNextItem_item (hi : HashInv h b r) :
    ∃ h' p r', h.rimNextItem = some (h', p) ∧ NextItem h b (aheadOf h b r) h' p r' ∧
      ∀ a, p = some a → NextGuard h → match h'.dprev with
        | none => h'.table h'.dnext = some a
        | some q => h'.items.cell q = some (some a) := by
  unfold rimNextItem
  by_cases hend : h.dnext = h.numBuckets
  · obtain ⟨hr, -⟩ := hi.at_end hend
    rw [if_pos hend]
    refine ⟨h, none, r, rfl, ⟨hi, rfl, rfl, .refl h, Nat.le_refl _, by rw [hr]; rfl, fun _ => hend⟩,
      fun a ha => by cases ha⟩
  · rw [if_neg hend]
    by_cases hcurr : h.dcurr = none
    · rw [if_pos hcurr]
      have hr : r = [] := by
        have hhead := hi.current
        rw [hcurr] at hhead
        exact List.head?_eq_none_iff.mp hhead.symm
      subst hr
      have hi' : HashInv { h with dprev := none } b [] :=
        ⟨hi.size, hi.room, hi.chain, hi.beyond, hi.placed, hi.covers, hi.distinct, hi.tot,
          hi.cursor, hi.here, hi.current⟩
      have hle := hi.cursor
      have hfuel : h.dnext + (h.numBuckets - h.dnext) = h.numBuckets := by omega
      obtain ⟨h', p, r', hloop, hitem, hprev, hfirst⟩ := rimNextLoop_item _ hi' hfuel (by omega)
      refine ⟨h', p, r', hloop, ⟨hitem.inv, hitem.ahead, hitem.items,
        ⟨hitem.same.1, hitem.same.2, hitem.same.3, hitem.same.4⟩, hitem.later, hitem.item,
        hitem.last⟩, fun a ha _ => ?_⟩
      have hnone : h'.dprev = none := hprev
      rw [hnone]
      exact hfirst a ha
    · rw [if_neg hcurr]
      exact ⟨h, h.dcurr, r, rfl, ⟨hi, rfl, rfl, .refl h, Nat.le_refl _, hi.current,
        fun hp => absurd hp hcurr⟩, fun a ha hg => hg a ha⟩

/-- `rim_next_hash` -/
theorem rimNextHash_inv (hinv : Inv h ahead) (del : Bool) (hg : del = true → NextGuard h) :
    ∃ h' res, h.rimNextHash del = some (h', res) ∧ SameHash h h' ∧ h.dnext ≤ h'.dnext ∧
      NextOutcome h ahead del h' res := by
  obtain ⟨b, r, hi, rfl⟩ := hinv
  obtain ⟨h₁, p, r₁, hnext, hitem, hstand⟩ := rimNextItem_item hi
  have hi₁ := hitem.inv
  unfold rimNextHash
  simp only [hnext, bind, Option.bind]
  cases hr : r₁ with
  | nil =>
    -- the end of the table
    have hp : p = none := by
      rw [hitem.item, hr]
      rfl
    subst hp
    have hempty := (hi₁.at_end (hitem.last rfl)).2
    refine ⟨h₁, _, rfl, hitem.same, hitem.later, .done (hitem.ahead.symm.trans hempty) hitem.items ⟨b, r₁, hi₁, hempty⟩⟩
  | cons a l =>
    have hp : p = some a := by
      rw [hitem.item, hr]
      rfl
    subst hp
    have hin : a ∈ b h₁.dnext := hi₁.here.subset (by simp [hr])
    obtain ⟨e, he, hbucket⟩ := hi₁.placed _ a hin
    have hmem : (e.key, e.data) ∈ h.pairs := by
      refine mem_pairs.mpr ⟨a, e, ?_, rfl, rfl⟩
      rw [← hitem.items]
      exact he
    have hahead : cstr e.key.bytes ∈ aheadOf h b r := by
      rw [← hitem.ahead]
      exact ⟨a, e, he, rfl, Or.inl (by simp [hr])⟩
    have hbucket' : bucketOf h.numBuckets (cstr e.key.bytes) = h₁.dnext := by
      rw [bucketOf_cstr, ← hitem.same.numBuckets]
      exact hbucket
    simp only [he]
    cases del with
    | true =>
      obtain ⟨l₁, l₂, hl, hprev⟩ := hi₁.standing hin (hstand a rfl (hg rfl))
      obtain ⟨h', hdel, hi', hpairs, haddrs, hgone, hnext', hsame, hkeys⟩ := rimDelHashEntry_inv hi₁ hl he false
      simp only [↓reduceIte, hprev, hdel]
      have hpairs₁ : h.pairs = h₁.pairs := by
        unfold pairs
        rw [hitem.items]
      refine ⟨h', _, rfl, ⟨hsame.1.trans hitem.same.1, hsame.2.trans hitem.same.2,
        hsame.3.trans hitem.same.3, hsame.4.trans hitem.same.4⟩, hnext'.symm ▸ hitem.later,
        .removed rfl e.key e.data a hahead (hpairs₁ ▸ hpairs) (hitem.items ▸ haddrs) hgone
          (hbucket'.trans hnext'.symm) ⟨_, _, hi', ?_⟩⟩
      rw [aheadOf_removed hi₁ hl he hgone hnext' hkeys, hitem.ahead]
    | false =>
      have hchain := hi₁.here_chain
      rw [hr] at hchain
      obtain ⟨-, n, hn, hrest⟩ := seg_cons.mp hchain
      have hcurr : e.next = l.head? := by
        rw [HashItems.cell_of_lookup he] at hn
        rw [Option.some.inj hn]
        exact Seg.head_eq hrest
      have hsuffix : l <:+ b h₁.dnext := by
        refine List.IsSuffix.trans (List.suffix_cons a l) ?_
        rw [← hr]
        exact hi₁.here
      have hnd : (a :: l).Nodup := (hr ▸ hi₁.here).sublist.nodup (hi₁.nodup _)
      refine ⟨_, _, rfl, ⟨hitem.same.1, hitem.same.2, hitem.same.3, hitem.same.4⟩, hitem.later,
        .kept rfl e.key e.data hmem hahead hitem.items hbucket' ⟨b, l, ⟨hi₁.size, hi₁.room,
          hi₁.chain, hi₁.beyond, hi₁.placed, hi₁.covers, hi₁.distinct, hi₁.tot, hi₁.cursor,
          hsuffix, hcurr⟩, ?_⟩⟩
      rw [← hitem.ahead]
      ext c
      constructor
      · rintro ⟨x, e', he', rfl, hx⟩
        have hxa : x ≠ a := by
          rintro rfl
          rcases hx with hx | ⟨j, hj, hx⟩
          · exact (List.nodup_cons.mp hnd).1 hx
          · have hjb := (hi₁.bucket_eq hx he).symm.trans (hi₁.bucket_eq hin he)
            exact absurd hjb (Nat.ne_of_gt hj)
        refine ⟨⟨x, e', he', rfl, hx.imp (fun hm => ?_) id⟩, fun hc => hxa (hi₁.unique he' he hc)⟩
        rw [hr]
        exact List.mem_cons_of_mem _ hm
      · rintro ⟨⟨x, e', he', rfl, hx⟩, hc⟩
        have hxa : x ≠ a := by
          rintro rfl
          obtain rfl := Option.some.inj (he.symm.trans he')
          exact hc rfl
        refine ⟨x, e', he', rfl, hx.imp (fun hm => ?_) id⟩
        rw [hr] at hm
        exact (List.mem_cons.mp hm).resolve_left hxa

/-- `rim_rewind_hash`: everything is ahead. -/
theorem rimRewindHash_inv (hinv : Inv h ahead) :
    ∃ h', h.rimRewindHash = some h' ∧ SameHash h h' ∧ h'.items = h.items ∧
      h'.dnext = 0 ∧ Inv h' {c | ∃ p ∈ h.pairs, ckey p = c} := by
  obtain ⟨b, r, hi, -⟩ := hinv
  have hhead := Seg.head_eq (hi.chain 0 hi.size)
  unfold rimRewindHash
  simp only [hi.tableGet hi.size, bind, Option.bind]
  refine ⟨_, rfl, ⟨rfl, rfl, rfl, rfl⟩, rfl, rfl, b, b 0, ⟨hi.size, hi.room, hi.chain, hi.beyond,
    hi.placed, hi.covers, hi.distinct, hi.tot, Nat.zero_le _, List.suffix_rfl, hhead⟩, ?_⟩
  ext c
  constructor
  · rintro ⟨a, e, he, rfl, -⟩
    exact ⟨(e.key, e.data), mem_pairs.mpr ⟨a, e, he, rfl, rfl⟩, rfl⟩
  · rintro ⟨p, hp, rfl⟩
    obtain ⟨a, e, he, hk, -⟩ := mem_pairs.mp hp
    have hin := hi.covers a e he
    refine ⟨a, e, he, by rw [hk]; rfl, ?_⟩
    by_cases hzero : rimComputeHash e.key h.numBuckets = 0
    · exact Or.inl (hzero ▸ hin)
    · exact Or.inr ⟨_, Nat.pos_of_ne_zero hzero, hin⟩

end Operations

end RimHash

end RimStone
