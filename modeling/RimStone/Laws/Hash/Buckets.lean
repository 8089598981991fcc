import RimStone.Laws.Hash.Key
import RimStone.Lib.Chain
import Mathlib.Data.List.Perm.Subperm

/-!
# The buckets of a hash

`HashInv h b r` says how the items of a hash lie in its table: bucket `i` is the
chain `b i`, every item is in the bucket of its key, no two items have keys with the
same C string, and `r` is what is left of the bucket where the traversal stands.

What a hash holds is a list of pairs, in any order (`pairs`); the laws of the
operations say what becomes of it.
-/

namespace RimStone

open RimStone.Lib

abbrev HashEntry := Sigma fun _ : Addr => HashItem

namespace HashItems

variable {items : HashItems} {a : Addr} {e : HashItem}

theorem cell_of_lookup (he : items.lookup a = some e) : items.cell a = some e.next := by
  unfold cell
  rw [he]
  rfl

theorem cell_insert : cell (AList.insert a e items) = Function.update items.cell a (some e.next) := by
  funext x
  by_cases hx : x = a
  · subst hx
    simp [cell]
  · simp [cell, hx]

theorem cell_erase : cell (items.erase a) = Function.update items.cell a none := by
  funext x
  by_cases hx : x = a
  · subst hx
    simp [cell]
  · simp [cell, hx]

/-- An item in memory stands among the others. -/
theorem perm_erase (he : items.lookup a = some e) : items.entries.Perm (⟨a, e⟩ :: (items.erase a).entries) := by
  have hmem : a ∈ items.entries.keys := AList.mem_keys.mp (AList.lookup_isSome.mp (by rw [he]; rfl))
  obtain ⟨e', l₁, l₂, hl₁, hsplit, herase⟩ := List.exists_of_kerase hmem
  have he' : e' = e := by
    have hin : (⟨a, e'⟩ : Sigma fun _ : Addr => HashItem) ∈ items.entries := by
      rw [hsplit]
      simp
    have hlook : items.lookup a = some e' := AList.mem_lookup_iff.mpr hin
    exact Option.some.inj (hlook.symm.trans he)
  subst he'
  have hrest : (items.erase a).entries = l₁ ++ l₂ := herase
  rw [hrest, hsplit]
  exact List.perm_middle

def pairOf (s : HashEntry) : RimStr × Addr := (s.2.key, s.2.data)

def pairs (items : HashItems) : List (RimStr × Addr) := items.entries.map pairOf

theorem pairs_erase (he : items.lookup a = some e) : items.pairs.Perm ((e.key, e.data) :: pairs (items.erase a)) :=
  (perm_erase he).map pairOf

theorem keys_erase (he : items.lookup a = some e) : items.keys.Perm (a :: (items.erase a).keys) :=
  (perm_erase he).map Sigma.fst

theorem pairs_insert {e' : HashItem} :
    pairs (AList.insert a e' items) = (e'.key, e'.data) :: pairs (items.erase a) := by
  unfold pairs
  rw [AList.entries_insert]
  rfl

theorem pairs_relink {e' : HashItem} (he : items.lookup a = some e) (hk : e'.key = e.key)
    (hd : e'.data = e.data) : items.pairs.Perm (pairs (AList.insert a e' items)) := by
  rw [pairs_insert, hk, hd]
  exact pairs_erase he

theorem keys_relink {e' : HashItem} (he : items.lookup a = some e) :
    items.keys.Perm (AList.insert a e' items).keys := by
  rw [AList.keys_insert, ← AList.keys_erase]
  exact keys_erase he

end HashItems

namespace RimHash

def pairs (h : RimHash) : List (RimStr × Addr) := h.items.pairs

def ckey (p : RimStr × Addr) : Bytes := cstr p.1.bytes

structure HashInv (h : RimHash) (b : Nat → List Addr) (r : List Addr) : Prop where
  size : 0 < h.numBuckets
  room : h.tableLen = h.numBuckets
  chain : ∀ i, i < h.numBuckets → Chain h.items.cell (h.table i) (b i)
  beyond : ∀ i, h.numBuckets ≤ i → b i = []
  placed : ∀ i, ∀ a ∈ b i, ∃ e, h.items.lookup a = some e ∧ rimComputeHash e.key h.numBuckets = i
  covers : ∀ a e, h.items.lookup a = some e → a ∈ b (rimComputeHash e.key h.numBuckets)
  distinct : (h.pairs.map ckey).Nodup
  tot : h.tot = h.pairs.length
  cursor : h.dnext ≤ h.numBuckets
  here : r <:+ b h.dnext
  current : h.dcurr = r.head?

section Inv

variable {h h' : RimHash} {b : Nat → List Addr} {r : List Addr} {a : Addr} {e : HashItem}
  {key : RimStr}

theorem mem_pairs {p : RimStr × Addr} :
    p ∈ h.pairs ↔ ∃ a e, h.items.lookup a = some e ∧ e.key = p.1 ∧ e.data = p.2 := by
  unfold pairs HashItems.pairs HashItems.pairOf
  simp only [List.mem_map, Sigma.exists]
  constructor
  · rintro ⟨a, e, hin, rfl⟩
    exact ⟨a, e, AList.mem_lookup_iff.mpr hin, rfl, rfl⟩
  · rintro ⟨a, e, he, hk, hd⟩
    exact ⟨a, e, AList.mem_lookup_iff.mp he, by rw [hk, hd]⟩

theorem length_pairs : h.pairs.length = h.items.keys.length := by
  unfold pairs HashItems.pairs AList.keys List.keys
  rw [List.length_map, List.length_map]

/-- A C string is the key of one item only. -/
theorem HashInv.unique (hi : HashInv h b r) {a' : Addr} {e' : HashItem}
    (he : h.items.lookup a = some e) (he' : h.items.lookup a' = some e')
    (hk : cstr e.key.bytes = cstr e'.key.bytes) : a = a' := by
  have hnd := hi.distinct
  unfold pairs HashItems.pairs at hnd
  rw [List.map_map] at hnd
  have hinj := List.inj_on_of_nodup_map hnd (AList.mem_lookup_iff.mp he)
    (AList.mem_lookup_iff.mp he') hk
  exact congrArg Sigma.fst hinj

theorem HashInv.bucket_eq (hi : HashInv h b r) {i : Nat} (ha : a ∈ b i)
    (he : h.items.lookup a = some e) : rimComputeHash e.key h.numBuckets = i := by
  obtain ⟨e', he', hk⟩ := hi.placed i a ha
  obtain rfl := Option.some.inj (he.symm.trans he')
  exact hk

theorem HashInv.bucket_lt (hi : HashInv h b r) {i : Nat} (ha : a ∈ b i) : i < h.numBuckets := by
  by_contra hge
  rw [hi.beyond i (Nat.not_lt.mp hge)] at ha
  cases ha

theorem HashInv.tableGet (hi : HashInv h b r) {i : Nat} (hlt : i < h.numBuckets) : h.tableGet i = some (h.table i) := by
  unfold RimHash.tableGet
  rw [hi.room, if_pos hlt]

theorem HashInv.tableSet (hi : HashInv h b r) {i : Nat} (hlt : i < h.numBuckets) (p : Option Addr) :
    h.tableSet i p = some { h with table := Function.update h.table i p } := by
  unfold RimHash.tableSet
  rw [hi.room, if_pos hlt]

/-- The items in memory bound the length of every bucket. -/
theorem HashInv.length_le (hi : HashInv h b r) {i : Nat} (hlt : i < h.numBuckets) :
    (b i).length ≤ h.items.keys.length := by
  refine (List.subperm_of_subset (Seg.nodup (hi.chain i hlt)) fun a ha => ?_).length_le
  obtain ⟨e, he, -⟩ := hi.placed i a ha
  exact AList.mem_keys.mp (AList.lookup_isSome.mp (by rw [he]; rfl))

theorem HashInv.nodup (hi : HashInv h b r) (i : Nat) : (b i).Nodup := by
  by_cases hlt : i < h.numBuckets
  · exact Seg.nodup (hi.chain i hlt)
  · rw [hi.beyond i (Nat.not_lt.mp hlt)]
    exact List.nodup_nil

theorem HashInv.perm_buckets (hi : HashInv h b r) : ((List.range h.numBuckets).flatMap b).Perm h.items.keys := by
  have hnd : ((List.range h.numBuckets).flatMap b).Nodup := by
    rw [List.nodup_flatMap]
    refine ⟨fun i _ => hi.nodup i, List.nodup_range.pairwise_of_forall_ne fun i _ j _ hij => ?_⟩
    rintro a ha ha'
    obtain ⟨e, he, hk⟩ := hi.placed i a ha
    exact hij (hk.symm.trans (hi.bucket_eq ha' he))
  refine (List.perm_ext_iff_of_nodup hnd h.items.keys_nodup).mpr fun a => ⟨fun ha => ?_, fun ha => ?_⟩
  · obtain ⟨i, -, ha⟩ := List.mem_flatMap.mp ha
    obtain ⟨e, he, -⟩ := hi.placed i a ha
    exact AList.mem_keys.mp (AList.lookup_isSome.mp (by rw [he]; rfl))
  · obtain ⟨e, he⟩ := Option.isSome_iff_exists.mp (AList.lookup_isSome.mpr (AList.mem_keys.mpr ha))
    have hin := hi.covers a e he
    exact List.mem_flatMap.mpr ⟨_, List.mem_range.mpr (hi.bucket_lt hin), hin⟩

end Inv

/-! ## Edits of one bucket -/

section Edit

variable {h : RimHash} {b : Nat → List Addr} {r l₁ l₂ : List Addr} {i : Nat} {a : Addr}
  {e : HashItem} {items : HashItems} {table : Nat → Option Addr}

theorem suffix_erase {l : List Addr} (hs : r <:+ l) (hnd : l.Nodup) (a : Addr) : r.erase a <:+ l.erase a := by
  obtain ⟨t, rfl⟩ := hs
  by_cases ha : a ∈ t
  · have har : a ∉ r := fun har => (List.nodup_append.mp hnd).2.2 a ha a har rfl
    rw [List.erase_of_not_mem har, List.erase_append_left _ ha]
    exact List.suffix_append _ _
  · rw [List.erase_append_right _ ha]
    exact List.suffix_append _ _

/-- What is left to be read is a chain from the cursor. -/
theorem HashInv.here_chain (hi : HashInv h b r) : Chain h.items.cell h.dcurr r := by
  rw [hi.current]
  by_cases hlt : h.dnext < h.numBuckets
  · obtain ⟨t, ht⟩ := hi.here
    have hc := hi.chain h.dnext hlt
    rw [← ht] at hc
    exact Seg.drop hc
  · have hnil : r = [] := by
      have hs := hi.here
      rw [hi.beyond h.dnext (Nat.not_lt.mp hlt)] at hs
      exact List.suffix_nil.mp hs
    rw [hnil]
    exact .nil

/-- The layout without an item of bucket `i`, once the bucket is relinked. -/
theorem HashInv.removed (hi : HashInv h b r) (hb : b i = l₁ ++ a :: l₂)
    (he : h.items.lookup a = some e) (hchain : Chain items.cell (table i) (l₁ ++ l₂))
    (htable : ∀ j, j ≠ i → table j = h.table j)
    (hcell : ∀ x, x ∉ b i → items.cell x = h.items.cell x)
    (hkey : ∀ x, x ≠ a → (items.lookup x).map (·.key) = (h.items.lookup x).map (·.key))
    (hgone : items.lookup a = none) (hpairs : h.pairs.Perm ((e.key, e.data) :: items.pairs)) :
    HashInv { h with
        items := items, table := table, tot := h.tot - 1,
        dcurr := if h.dcurr = some a then e.next else h.dcurr }
      (Function.update b i (l₁ ++ l₂)) (r.erase a) := by
  have ha : a ∈ b i := by simp [hb]
  have hlt : i < h.numBuckets := hi.bucket_lt ha
  have hnd := hi.nodup i
  have herase : (b i).erase a = l₁ ++ l₂ := by
    rw [hb] at hnd ⊢
    have hal : a ∉ l₁ := fun hm => (List.nodup_append.mp hnd).2.2 a hm a (List.mem_cons_self ..) rfl
    rw [List.erase_append_right _ hal, List.erase_cons_head]
  -- a bucket loses nothing but the item
  have hmem : ∀ j x, x ∈ Function.update b i (l₁ ++ l₂) j ↔ x ∈ b j ∧ x ≠ a := by
    intro j x
    by_cases hj : j = i
    · subst hj
      rw [Function.update_self, ← herase, hnd.mem_erase_iff]
      exact and_comm
    · rw [Function.update_of_ne hj]
      refine ⟨fun hx => ⟨hx, ?_⟩, fun hx => hx.1⟩
      rintro rfl
      exact hj ((hi.bucket_eq hx he).symm.trans (hi.bucket_eq ha he))
  have hback : ∀ x e', items.lookup x = some e' → x ≠ a ∧
      ∃ e₀, h.items.lookup x = some e₀ ∧ e₀.key = e'.key := by
    intro x e' he'
    have hx : x ≠ a := by
      rintro rfl
      rw [hgone] at he'
      cases he'
    have hk := hkey x hx
    rw [he'] at hk
    obtain ⟨e₀, he₀, hk₀⟩ := Option.map_eq_some_iff.mp hk.symm
    exact ⟨hx, e₀, he₀, hk₀⟩
  refine ⟨hi.size, hi.room, fun j hj => ?_, fun j hj => ?_, fun j x hx => ?_, fun x e' he' => ?_,
    ?_, ?_, hi.cursor, ?_, ?_⟩
  · by_cases hji : j = i
    · subst hji
      rw [Function.update_self]
      exact hchain
    · rw [Function.update_of_ne hji]
      show Chain items.cell (table j) (b j)
      rw [htable j hji]
      refine (hi.chain j hj).congr fun x hx => hcell x fun hxi => hji ?_
      obtain ⟨e', he', hk⟩ := hi.placed j x hx
      exact hk.symm.trans (hi.bucket_eq hxi he')
  · have hji : j ≠ i := by
      rintro rfl
      exact absurd hlt (Nat.not_lt.mpr hj)
    rw [Function.update_of_ne hji]
    exact hi.beyond j hj
  · obtain ⟨hxj, hxa⟩ := (hmem j x).mp hx
    obtain ⟨e₀, he₀, hk₀⟩ := hi.placed j x hxj
    have hk := hkey x hxa
    rw [he₀] at hk
    obtain ⟨e', he', hk'⟩ := Option.map_eq_some_iff.mp hk
    refine ⟨e', he', ?_⟩
    rw [hk']
    exact hk₀
  · obtain ⟨hxa, e₀, he₀, hk₀⟩ := hback x e' he'
    refine (hmem _ x).mpr ⟨?_, hxa⟩
    rw [← hk₀]
    exact hi.covers x e₀ he₀
  · have hnodup := (hpairs.map ckey).nodup_iff.mp hi.distinct
    exact (List.nodup_cons.mp hnodup).2
  · have hlen := hpairs.length_eq
    have htot := hi.tot
    rw [List.length_cons] at hlen
    show h.tot - 1 = (items.pairs.length : Int)
    omega
  · show r.erase a <:+ Function.update b i (l₁ ++ l₂) h.dnext
    by_cases hj : h.dnext = i
    · rw [hj, Function.update_self, ← herase]
      refine suffix_erase ?_ hnd a
      rw [← hj]
      exact hi.here
    · rw [Function.update_of_ne hj, List.erase_of_not_mem]
      · exact hi.here
      · intro har
        exact hj ((hi.bucket_eq (hi.here.subset har) he).symm.trans (hi.bucket_eq ha he))
  · show (if h.dcurr = some a then e.next else h.dcurr) = (r.erase a).head?
    have hc := hi.here_chain
    cases r with
    | nil =>
      rw [seg_nil.mp hc]
      rfl
    | cons x r =>
      obtain ⟨hx, n, hn, hrest⟩ := seg_cons.mp hc
      by_cases hxa : x = a
      · subst hxa
        rw [if_pos hx, List.erase_cons_head, ← Seg.head_eq hrest]
        rw [HashItems.cell_of_lookup he] at hn
        exact Option.some.inj hn
      · have hne : h.dcurr ≠ some a := by
          rw [hx]
          exact fun heq => hxa (Option.some.inj heq)
        rw [if_neg hne, List.erase_cons_tail (by simpa using hxa)]
        exact hx

/-- The layout with a new item at the head of its bucket. -/
theorem HashInv.added (hi : HashInv h b r) {key : RimStr} (data : Addr) {new : Addr}
    (hbucket : rimComputeHash key h.numBuckets = i) (hnew : h.items.lookup new = none)
    (habs : ∀ p ∈ h.pairs, ckey p ≠ cstr key.bytes) :
    HashInv { h with
        items := AList.insert new { key := key, data := data, next := h.table i } h.items,
        table := Function.update h.table i (some new), tot := h.tot + 1 }
      (Function.update b i (new :: b i)) r := by
  have hlt : i < h.numBuckets := hbucket ▸ rimComputeHash_lt key hi.size
  have hnot : ∀ j, new ∉ b j := by
    intro j hj
    obtain ⟨e, he, -⟩ := hi.placed j new hj
    rw [hnew] at he
    cases he
  have hnotmem : new ∉ h.items := AList.lookup_eq_none.mp hnew
  have hpairs : HashItems.pairs (AList.insert new { key := key, data := data, next := h.table i }
      h.items) = (key, data) :: h.pairs := by
    unfold HashItems.pairs
    rw [AList.entries_insert_of_notMem hnotmem]
    rfl
  have hlook : ∀ x e', x ≠ new → ((AList.insert new { key := key, data := data, next := h.table i }
      h.items).lookup x = some e' ↔ h.items.lookup x = some e') := by
    intro x e' hx
    rw [AList.lookup_insert_ne hx]
  refine ⟨hi.size, hi.room, fun j hj => ?_, fun j hj => ?_, fun j x hx => ?_, fun x e' he' => ?_,
    ?_, ?_, hi.cursor, ?_, hi.current⟩
  · show Chain (HashItems.cell _) (Function.update h.table i (some new) j) _
    rw [HashItems.cell_insert]
    have hrest := (hi.chain j hj).update (v := some (h.table i)) (hnot j)
    by_cases hji : j = i
    · subst hji
      rw [Function.update_self, Function.update_self]
      exact .cons (Function.update_self ..) hrest
    · rw [Function.update_of_ne hji, Function.update_of_ne hji]
      exact hrest
  · have hji : j ≠ i := by
      rintro rfl
      exact absurd hlt (Nat.not_lt.mpr hj)
    rw [Function.update_of_ne hji]
    exact hi.beyond j hj
  · by_cases hxn : x = new
    · subst hxn
      refine ⟨_, AList.lookup_insert _, ?_⟩
      by_cases hji : j = i
      · exact hbucket.trans hji.symm
      · rw [Function.update_of_ne hji] at hx
        exact absurd hx (hnot j)
    · have hxj : x ∈ b j := by
        by_cases hji : j = i
        · subst hji
          rw [Function.update_self] at hx
          exact (List.mem_cons.mp hx).resolve_left hxn
        · rwa [Function.update_of_ne hji] at hx
      obtain ⟨e', he', hk⟩ := hi.placed j x hxj
      exact ⟨e', (hlook x e' hxn).mpr he', hk⟩
  · by_cases hxn : x = new
    · subst hxn
      obtain rfl := Option.some.inj ((AList.lookup_insert h.items).symm.trans he')
      show x ∈ Function.update b i (x :: b i) (rimComputeHash key h.numBuckets)
      rw [hbucket, Function.update_self]
      exact List.mem_cons_self ..
    · have hin := hi.covers x e' ((hlook x e' hxn).mp he')
      show x ∈ Function.update b i (new :: b i) (rimComputeHash e'.key h.numBuckets)
      by_cases hji : rimComputeHash e'.key h.numBuckets = i
      · rw [hji, Function.update_self]
        rw [hji] at hin
        exact List.mem_cons_of_mem _ hin
      · rwa [Function.update_of_ne hji]
  · show ((HashItems.pairs _).map ckey).Nodup
    rw [hpairs, List.map_cons, List.nodup_cons]
    refine ⟨fun hm => ?_, hi.distinct⟩
    obtain ⟨p, hp, hk⟩ := List.mem_map.mp hm
    exact habs p hp hk
  · show h.tot + 1 = ((HashItems.pairs _).length : Int)
    rw [hpairs, List.length_cons, hi.tot]
    rfl
  · show r <:+ Function.update b i (new :: b i) h.dnext
    by_cases hj : h.dnext = i
    · rw [hj, Function.update_self]
      refine List.IsSuffix.trans ?_ (List.suffix_cons new (b i))
      rw [← hj]
      exact hi.here
    · rw [Function.update_of_ne hj]
      exact hi.here

/-- The layout with another pair in an item, under a key with the same C string. -/
theorem HashInv.replaced (hi : HashInv h b r) {key : RimStr} (data : Addr)
    (he : h.items.lookup a = some e) (hk : cstr e.key.bytes = cstr key.bytes) :
    HashInv { h with items := AList.insert a { e with key := key, data := data } h.items } b r := by
  have hlook : ∀ x e', (AList.insert a { e with key := key, data := data } h.items).lookup x =
      some e' → ∃ e₀, h.items.lookup x = some e₀ ∧
        rimComputeHash e₀.key h.numBuckets = rimComputeHash e'.key h.numBuckets := by
    intro x e' he'
    by_cases hxa : x = a
    · subst hxa
      obtain rfl := Option.some.inj ((AList.lookup_insert h.items).symm.trans he')
      exact ⟨e, he, rimComputeHash_congr hk _⟩
    · rw [AList.lookup_insert_ne hxa] at he'
      exact ⟨e', he', rfl⟩
  have hcell : HashItems.cell (AList.insert a { e with key := key, data := data } h.items) =
      h.items.cell := by
    rw [HashItems.cell_insert]
    exact Function.update_eq_self_iff.mpr (HashItems.cell_of_lookup he).symm
  have hperm : h.pairs.Perm ((e.key, e.data) :: HashItems.pairs (h.items.erase a)) := HashItems.pairs_erase he
  refine ⟨hi.size, hi.room, fun j hj => ?_, hi.beyond, fun j x hx => ?_, fun x e' he' => ?_,
    ?_, ?_, hi.cursor, hi.here, hi.current⟩
  · show Chain (HashItems.cell _) _ _
    rw [hcell]
    exact hi.chain j hj
  · by_cases hxa : x = a
    · subst hxa
      refine ⟨_, AList.lookup_insert _, ?_⟩
      exact (rimComputeHash_congr hk _).symm.trans (hi.bucket_eq hx he)
    · obtain ⟨e', he', hk'⟩ := hi.placed j x hx
      exact ⟨e', by rw [AList.lookup_insert_ne hxa, he'], hk'⟩
  · obtain ⟨e₀, he₀, hk₀⟩ := hlook x e' he'
    have hin := hi.covers x e₀ he₀
    rw [hk₀] at hin
    exact hin
  · show ((HashItems.pairs _).map ckey).Nodup
    have hnd := (hperm.map ckey).nodup_iff.mp hi.distinct
    have hck : ckey (key, data) = ckey (e.key, e.data) := hk.symm
    rw [HashItems.pairs_insert, List.map_cons, hck]
    exact hnd
  · show h.tot = ((HashItems.pairs _).length : Int)
    rw [HashItems.pairs_insert, hi.tot, hperm.length_eq]
    rfl

end Edit

/-! ## The loop over a bucket -/

/-- What `rimBucketLoop` finds in a chain: no item with the key, or the first one and
the item before it. -/
inductive BucketFound (items : HashItems) (same : RimStr → Bool) (l : List Addr)
    (prev : Option Addr) : Int × Option Addr × Option Addr → Prop
  | absent (reads : Int) (last : Option Addr)
      (hnone : ∀ x ∈ l, ∀ e, items.lookup x = some e → same e.key = false) :
      BucketFound items same l prev (reads, last, none)
  | found (reads : Int) (l₁ l₂ : List Addr) (a : Addr) (e : HashItem) (hl : l = l₁ ++ a :: l₂)
      (he : items.lookup a = some e) (hsame : same e.key = true) :
      BucketFound items same l prev (reads, l₁.getLast?.or prev, some a)

theorem rimBucketLoop_found {items : HashItems} {same : RimStr → Bool} {l : List Addr}
    {p : Option Addr} {fuel : Nat} (prev : Option Addr) (reads : Int) (hc : Chain items.cell p l)
    (hfuel : l.length ≤ fuel) :
    ∃ res, rimBucketLoop items same fuel reads prev p = some res ∧ BucketFound items same l prev res := by
  induction l generalizing p prev fuel reads with
  | nil =>
    obtain rfl := seg_nil.mp hc
    exact ⟨(reads, prev, none), by unfold rimBucketLoop; rfl,
      .absent reads prev fun x hx => absurd hx List.not_mem_nil⟩
  | cons a l ih =>
    obtain ⟨rfl, n, hn, hrest⟩ := seg_cons.mp hc
    cases fuel with
    | zero => cases hfuel
    | succ fuel =>
      unfold HashItems.cell at hn
      cases he : items.lookup a with
      | none =>
        rw [he] at hn
        cases hn
      | some e =>
        rw [he] at hn
        obtain rfl : e.next = n := Option.some.inj hn
        by_cases hs : same e.key = true
        · refine ⟨(reads + 1, prev, some a), ?_, .found (reads + 1) [] l a e rfl he hs⟩
          simp [rimBucketLoop, he, hs]
        · obtain ⟨res, hres, hf⟩ := ih (some a) (reads + 1) hrest (Nat.le_of_succ_le_succ hfuel)
          refine ⟨res, by simp [rimBucketLoop, he, hs, hres], ?_⟩
          cases hf with
          | absent reads' last hnone =>
            refine .absent reads' last fun x hx e' he' => ?_
            rcases List.mem_cons.mp hx with rfl | hx
            · obtain rfl := Option.some.inj (he.symm.trans he')
              simpa using hs
            · exact hnone x hx e' he'
          | found reads' l₁ l₂ a' e' hl he' hs' =>
            have hlast : l₁.getLast?.or (some a) = (a :: l₁).getLast?.or prev := by
              cases l₁ <;> simp [List.getLast?_cons]
            rw [hlast]
            exact .found reads' (a :: l₁) l₂ a' e' (by rw [hl]; rfl) he' hs'

end RimHash

end RimStone
