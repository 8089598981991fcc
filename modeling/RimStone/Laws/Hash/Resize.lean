import RimStone.Laws.Hash.Operations

/-!
# Purging and resizing a hash

`rim_delete_hash` gives up every item once, bucket by bucket. `rim_resize_hash`
traverses the old hash and adds what it reads to a new one. The pairs of the old
hash split into those that were added and those still ahead; since their C strings
differ, each is added as a new item.
-/

namespace RimStone

open RimStone.Lib

namespace RimHash

def itemCalls (del : Bool) (s : HashEntry) : List MemCall :=
  (if del then [.decProcess s.2.key.addr, .decProcess s.2.data] else []) ++ [.decProcess s.1]

/-- What adding pairs to a hash asks of the memory, when all are new. -/
def addCalls (answer : Nat → Addr) : Nat → List (RimStr × Addr) → List MemCall
  | _, [] => []
  | i, p :: ps =>
    [.malloc (answer i) sizeofItem, .addRef p.1.addr, .addRef p.2] ++ addCalls answer (i + 1) ps

section Create

/-- How many buckets a hash of the asked size has. -/
def bucketsFor (size : Int) : Nat := if size < 256 then 256 else size.toNat

structure Created (size : Int) (process : Bool) (addr tableAddr : Addr) (h : RimHash) : Prop where
  inv : Inv h ∅
  items : h.items = ∅
  numBuckets : h.numBuckets = bucketsFor size
  addr : h.addr = addr
  tableAddr : h.tableAddr = tableAddr
  process : h.process = process

theorem rimCreateHash_created {size : Int} (hsize : size < 2 ^ 61) (process : Bool) (addr tableAddr : Addr) :
    ∃ h, rimCreateHash size process addr tableAddr = some (h,
        [.malloc addr sizeofHash, .calloc tableAddr (bucketsFor size) sizeofPtr]) ∧
      Created size process addr tableAddr h := by
  have hpos : 0 < bucketsFor size := by
    unfold bucketsFor
    split_ifs <;> omega
  have hroom : bucketsFor size * sizeofPtr % 2 ^ 64 / sizeofPtr = bucketsFor size := by
    have hlt : bucketsFor size < 2 ^ 61 := by
      unfold bucketsFor
      split_ifs <;> omega
    have hptr : sizeofPtr = 8 := rfl
    rw [hptr]
    omega
  unfold rimCreateHash rimRewindHash tableGet
  rw [← bucketsFor]
  simp only [hroom, hpos, ↓reduceIte, bind, Option.bind]
  refine ⟨_, rfl, ⟨⟨fun _ => [], [], ⟨hpos, rfl, fun _ _ => .nil, fun _ _ => rfl,
    fun _ _ ha => absurd ha List.not_mem_nil, ?_, List.nodup_nil, rfl, Nat.zero_le _,
    List.nil_suffix, rfl⟩, ?_⟩, rfl, rfl, rfl, rfl, rfl⟩⟩
  · intro a e he
    cases he
  · refine Set.eq_empty_of_forall_notMem ?_
    rintro c ⟨a, e, he, -⟩
    cases he

theorem bucketsFor_lt {size : Int} (hsize : size < 2 ^ 61) : (bucketsFor size : Int) < 2 ^ 61 := by
  unfold bucketsFor
  split_ifs <;> omega

end Create

section Delete

variable {h : RimHash} {b : Nat → List Addr} {r : List Addr} {ahead : Set Bytes}

theorem rimDeleteBucket_calls {items : HashItems} {l : List Addr} {p : Option Addr} {fuel : Nat}
    (del : Bool) (hc : Chain items.cell p l) (hfuel : l.length ≤ fuel) :
    ∃ es : List HashEntry, rimDeleteBucket items del fuel p = some (es.flatMap (itemCalls del)) ∧
      es.map Sigma.fst = l ∧ ∀ s ∈ es, s ∈ items.entries := by
  induction l generalizing p fuel with
  | nil =>
    obtain rfl := seg_nil.mp hc
    exact ⟨[], by unfold rimDeleteBucket; rfl, rfl, fun s hs => absurd hs List.not_mem_nil⟩
  | cons a l ih =>
    obtain ⟨rfl, n, hn, hrest⟩ := seg_cons.mp hc
    cases fuel with
    | zero => cases hfuel
    | succ fuel =>
      obtain ⟨e, he, rfl⟩ := Option.map_eq_some_iff.mp hn
      obtain ⟨es, hes, hl, hmem⟩ := ih hrest (Nat.le_of_succ_le_succ hfuel)
      refine ⟨⟨a, e⟩ :: es, ?_, by rw [List.map_cons, hl], fun s hs => ?_⟩
      · simp [rimDeleteBucket, he, hes, itemCalls]
      · rcases List.mem_cons.mp hs with rfl | hs
        · exact AList.mem_lookup_iff.mp he
        · exact hmem s hs

/-- The loop of `rim_delete_hash` over some of the buckets. -/
theorem rimDeleteItems_calls (hi : HashInv h b r) (del : Bool) {is : List Nat} (his : ∀ i ∈ is, i < h.numBuckets) :
    ∃ (css : List (List MemCall)) (es : List HashEntry), (is.mapM fun i => do
        let hnext ← h.tableGet i
        rimDeleteBucket h.items del h.items.keys.length hnext) = some css ∧
      css.flatten = es.flatMap (itemCalls del) ∧ es.map Sigma.fst = is.flatMap b ∧
      ∀ s ∈ es, s ∈ h.items.entries := by
  induction is with
  | nil => exact ⟨[], [], rfl, rfl, rfl, fun s hs => absurd hs List.not_mem_nil⟩
  | cons i is ih =>
    have hlt := his i (List.mem_cons_self ..)
    obtain ⟨css, es, hcss, hflat, hfst, hmem⟩ := ih fun j hj => his j (List.mem_cons_of_mem _ hj)
    obtain ⟨es₁, hes₁, hfst₁, hmem₁⟩ := rimDeleteBucket_calls del (hi.chain i hlt) (hi.length_le hlt)
    refine ⟨es₁.flatMap (itemCalls del) :: css, es₁ ++ es, ?_, ?_, ?_, fun s hs => ?_⟩
    · rw [List.mapM_cons, hi.tableGet hlt, hcss]
      simp [hes₁]
    · rw [List.flatten_cons, List.flatMap_append, hflat]
    · rw [List.map_append, hfst₁, hfst, List.flatMap_cons]
    · exact (List.mem_append.mp hs).elim (hmem₁ s) (hmem s)

theorem rimDeleteHash_calls (hinv : Inv h ahead) (del : Bool) :
    ∃ (css : List (List MemCall)) (es : List HashEntry), ((List.range h.numBuckets).mapM fun i => do
        let hnext ← h.tableGet i
        rimDeleteBucket h.items del h.items.keys.length hnext) = some css ∧
      css.flatten = es.flatMap (itemCalls del) ∧ es.Perm h.items.entries := by
  obtain ⟨b, r, hi, -⟩ := hinv
  obtain ⟨css, es, hcss, hflat, hfst, hmem⟩ :=
    rimDeleteItems_calls hi del fun i (hlt : i ∈ List.range h.numBuckets) => List.mem_range.mp hlt
  refine ⟨css, es, hcss, hflat, ?_⟩
  have hkeys : (es.map Sigma.fst).Perm h.items.keys := by
    rw [hfst]
    exact hi.perm_buckets
  have hnd : (es.map Sigma.fst).Nodup := hkeys.nodup_iff.mpr h.items.keys_nodup
  refine (List.perm_ext_iff_of_nodup hnd.of_map h.items.nodupKeys.nodup).mpr fun s => ⟨hmem s, fun hs => ?_⟩
  obtain ⟨a, e⟩ := s
  have hlook : h.items.lookup a = some e := AList.mem_lookup_iff.mpr hs
  have ha : a ∈ es.map Sigma.fst := hkeys.mem_iff.mpr (AList.mem_keys.mp (AList.lookup_isSome.mp (by rw [hlook]; rfl)))
  obtain ⟨⟨a', e'⟩, hs', rfl⟩ := List.mem_map.mp ha
  have hlook' : h.items.lookup a' = some e' := AList.mem_lookup_iff.mpr (hmem _ hs')
  obtain rfl := Option.some.inj (hlook.symm.trans hlook')
  exact hs'

/-- `rim_delete_hash` with `del`: the hash is empty again. -/
theorem rimDeleteHash_purges (hinv : Inv h ahead) (hsize : (h.numBuckets : Int) < 2 ^ 61) (addr tableAddr : Addr) :
    ∃ (h' : RimHash) (es : List HashEntry), h.rimDeleteHash true addr tableAddr = some (some h',
        es.flatMap (itemCalls true) ++ [.decProcess h.tableAddr, .decProcess h.addr] ++
          [.malloc addr sizeofHash, .calloc tableAddr (bucketsFor h.numBuckets) sizeofPtr]) ∧
      es.Perm h.items.entries ∧ Created h.numBuckets h.process addr tableAddr h' := by
  obtain ⟨css, es, hcss, hflat, hperm⟩ := rimDeleteHash_calls hinv true
  obtain ⟨new, hnew, hc⟩ := rimCreateHash_created hsize h.process addr tableAddr
  unfold rimDeleteHash
  simp only [bind, Option.bind] at hcss ⊢
  simp only [hcss, ↓reduceIte, hnew, hflat]
  refine ⟨_, es, rfl, hperm, ?_, hc.items, hc.numBuckets, hc.addr, hc.tableAddr, rfl⟩
  obtain ⟨b, r, hi, hahead⟩ := hc.inv
  refine ⟨b, r, ?_, hahead⟩
  exact ⟨hi.size, hi.room, hi.chain, hi.beyond, hi.placed, hi.covers, hi.distinct, hi.tot,
    hi.cursor, hi.here, hi.current⟩

end Delete

section Resize

variable {h nh : RimHash} {ahead ahead' : Set Bytes} {answer : Nat → Addr}

theorem Inv.distinct (hinv : Inv h ahead) : (h.pairs.map ckey).Nodup := by
  obtain ⟨b, r, hi, -⟩ := hinv
  exact hi.distinct

/-- The loop of `rim_resize_hash`, where `vs` are the pairs that were added and `todo`
those ahead. -/
theorem rimResizeLoop_adds {fuel i : Nat} {vs todo : List (RimStr × Addr)}
    (hinv : Inv h ahead) (hinv' : Inv nh ahead') (hsplit : h.pairs.Perm (vs ++ todo))
    (hadded : nh.pairs.Perm vs) (hahead : ∀ c, c ∈ ahead ↔ ∃ p ∈ todo, ckey p = c)
    (hfuel : todo.length < fuel) (hinj : Function.Injective answer)
    (hfresh : ∀ j, i ≤ j → nh.items.lookup (answer j) = none) :
    ∃ h' nh' ps ahead'', rimResizeLoop answer fuel i h nh = some (h', nh', addCalls answer i ps) ∧
      ps.Perm todo ∧ Inv h' ∅ ∧ h'.items = h.items ∧ SameHash h h' ∧ Inv nh' ahead'' ∧
      SameHash nh nh' ∧ nh'.pairs.Perm (ps ++ vs) ∧
      nh'.items.keys.Perm ((List.range' i ps.length).map answer ++ nh.items.keys) := by
  induction fuel generalizing h nh ahead ahead' i vs todo with
  | zero => cases hfuel
  | succ fuel ih =>
    obtain ⟨h₁, res, hnext, hsame, -, hout⟩ := rimNextHash_inv hinv false fun hf => by cases hf
    unfold rimResizeLoop
    cases hout with
    | removed hdel => cases hdel
    | done hend hitems hinv₁ =>
      -- nothing was ahead
      have htodo : todo = [] := by
        refine List.eq_nil_iff_forall_not_mem.mpr fun p hp => ?_
        have hin := (hahead (ckey p)).mpr ⟨p, hp, rfl⟩
        rw [hend] at hin
        exact hin
      subst htodo
      simp only [hnext, bind, Option.bind, ↓reduceIte]
      exact ⟨h₁, nh, [], ahead', rfl, .nil, hinv₁, hitems, hsame, hinv', .refl nh, by simpa using hadded, by simp⟩
    | kept hdel k d hmem hk hitems hbucket hinv₁ =>
      have hnd := (hsplit.map ckey).nodup_iff.mp hinv.distinct
      have hpair : (k, d) ∈ todo := by
        obtain ⟨p, hp, hpk⟩ := (hahead _).mp hk
        have hpin : p ∈ h.pairs := hsplit.mem_iff.mpr (List.mem_append_right _ hp)
        obtain rfl := List.inj_on_of_nodup_map hinv.distinct hpin hmem hpk
        exact hp
      obtain ⟨t₁, t₂, rfl⟩ := List.append_of_mem hpair
      have hmid : (t₁ ++ (k, d) :: t₂).Perm ((k, d) :: (t₁ ++ t₂)) := List.perm_middle
      have hsplit' : h.pairs.Perm (((k, d) :: vs) ++ (t₁ ++ t₂)) :=
        (hsplit.trans (hmid.append_left vs)).trans List.perm_middle
      have hnd' := (hsplit'.map ckey).nodup_iff.mp hinv.distinct
      rw [List.cons_append, List.map_cons, List.nodup_cons] at hnd'
      -- its key is not in the new hash
      obtain ⟨nh₁, res₁, hadd, hsame₁, -, hout₁⟩ := rimAddHash_inv hinv' k d false (hfresh i (Nat.le_refl i))
      cases hout₁ with
      | replaced k' d' rest hk' hpairs =>
        have hin : (k', d') ∈ vs := hadded.mem_iff.mp (hpairs.mem_iff.mpr (List.mem_cons_self ..))
        refine absurd ?_ hnd'.1
        exact List.mem_map.mpr ⟨(k', d'), List.mem_append_left _ hin, hk'⟩
      | added habs hpairs' haddrs hinv₂ =>
        have hpairs₁ : h₁.pairs = h.pairs := by
          unfold pairs
          rw [hitems]
        have hahead' : ∀ c, c ∈ {c ∈ ahead | c ≠ cstr k.bytes} ↔
            ∃ p ∈ t₁ ++ t₂, ckey p = c := by
          intro c
          rw [Set.mem_ofPred_eq, hahead]
          constructor
          · rintro ⟨⟨p, hp, rfl⟩, hc⟩
            rcases List.mem_cons.mp (hmid.mem_iff.mp hp) with rfl | hp
            · exact absurd rfl hc
            · exact ⟨p, hp, rfl⟩
          · rintro ⟨p, hp, rfl⟩
            refine ⟨⟨p, hmid.mem_iff.mpr (List.mem_cons_of_mem _ hp), rfl⟩, fun hc => hnd'.1 ?_⟩
            exact List.mem_map.mpr ⟨p, List.mem_append_right _ hp, hc⟩
        have hfuel' : (t₁ ++ t₂).length < fuel := by
          simp only [List.length_append, List.length_cons] at hfuel ⊢
          omega
        have hfresh' : ∀ j, i + 1 ≤ j → nh₁.items.lookup (answer j) = none := by
          intro j hj
          have hold := AList.lookup_eq_none.mp (hfresh j (by omega))
          refine AList.lookup_eq_none.mpr fun hm => ?_
          rw [AList.mem_keys, haddrs] at hm
          rcases List.mem_cons.mp hm with hm | hm
          · have hij := hinj hm
            omega
          · exact hold (AList.mem_keys.mpr hm)
        obtain ⟨h', nh', ps, ahead'', hloop, hps, hinv₃, hitems₃, hsame₃, hinv₄, hsame₄, hpairs₄,
          hkeys₄⟩ := ih hinv₁ hinv₂ (hpairs₁ ▸ hsplit') (hpairs' ▸ hadded.cons (k, d)) hahead'
            hfuel' hfresh'
        simp only [hnext, bind, Option.bind, hadd, hloop]
        refine ⟨h', nh', (k, d) :: ps, ahead'', rfl, (hps.cons (k, d)).trans hmid.symm, hinv₃,
          hitems₃.trans hitems, ?_, hinv₄, ?_, hpairs₄.trans List.perm_middle, ?_⟩
        · exact ⟨hsame₃.1.trans hsame.1, hsame₃.2.trans hsame.2, hsame₃.3.trans hsame.3, hsame₃.4.trans hsame.4⟩
        · exact ⟨hsame₄.1.trans hsame₁.1, hsame₄.2.trans hsame₁.2, hsame₄.3.trans hsame₁.3, hsame₄.4.trans hsame₁.4⟩
        · rw [haddrs] at hkeys₄
          rw [List.length_cons, List.range'_succ, List.map_cons]
          exact hkeys₄.trans List.perm_middle

/-- `rim_resize_hash`: another hash with the same pairs. -/
theorem rimResizeHash_keeps (hinv : Inv h ahead) {newsize : Int} (hsize : newsize < 2 ^ 61)
    (hinj : Function.Injective answer) :
    ∃ (h' : RimHash) (ps : List (RimStr × Addr)) (es : List HashEntry) (ahead' : Set Bytes),
      h.rimResizeHash newsize answer = some (h',
        [.malloc (answer 0) sizeofHash, .calloc (answer 1) (bucketsFor newsize) sizeofPtr] ++
          addCalls answer 2 ps ++
          (es.flatMap (itemCalls false) ++ [.decProcess h.tableAddr, .decProcess h.addr])) ∧
      ps.Perm h.pairs ∧ es.Perm h.items.entries ∧ Inv h' ahead' ∧ h'.pairs.Perm h.pairs ∧
      h'.items.keys.Perm ((List.range' 2 ps.length).map answer) ∧ h'.addr = answer 0 ∧
      h'.tableAddr = answer 1 ∧ h'.process = h.process ∧ h'.numBuckets = bucketsFor newsize := by
  obtain ⟨nh, hcreate, hc⟩ := rimCreateHash_created hsize h.process (answer 0) (answer 1)
  obtain ⟨h₁, hrewind, hsame₁, hitems₁, -, hinv₁⟩ := rimRewindHash_inv hinv
  have hpairs₁ : h₁.pairs = h.pairs := by
    unfold pairs
    rw [hitems₁]
  have hempty : nh.pairs = [] := by
    unfold pairs HashItems.pairs
    rw [hc.items]
    rfl
  have hsplit : h₁.pairs.Perm ([] ++ h.pairs) := by
    rw [hpairs₁]
    exact .refl _
  have hadded : nh.pairs.Perm [] := by
    rw [hempty]
  have hfresh : ∀ j, 2 ≤ j → nh.items.lookup (answer j) = none := by
    intro j _
    rw [hc.items]
    exact AList.lookup_empty _
  have hlen : h.pairs.length < h₁.items.keys.length + 1 := by
    rw [← hpairs₁, length_pairs]
    exact Nat.lt_succ_self _
  obtain ⟨h₂, nh', ps, ahead', hloop, hps, hinv₂, hitems₂, hsame₂, hinv', hsame', hpairs', hkeys'⟩ :=
    rimResizeLoop_adds hinv₁ hc.inv hsplit hadded (fun c => Iff.rfl) hlen hinj hfresh
  obtain ⟨css, es, hcss, hflat, hes⟩ := rimDeleteHash_calls hinv₂ false
  have hdel : h₂.rimDeleteHash false (answer 0) (answer 1) = some (none,
      es.flatMap (itemCalls false) ++ [.decProcess h.tableAddr, .decProcess h.addr]) := by
    unfold rimDeleteHash
    simp only [bind, Option.bind] at hcss ⊢
    simp only [hcss, hflat, hsame₂.tableAddr, hsame₂.addr, hsame₁.tableAddr, hsame₁.addr]
    rfl
  unfold rimResizeHash
  simp only [hcreate, hrewind, hloop, hdel, bind, Option.bind]
  refine ⟨_, ps, es, ahead', rfl, hps, by rw [← hitems₁, ← hitems₂]; exact hes, ?_, ?_, ?_,
    hsame'.addr.trans hc.addr, hsame'.tableAddr.trans hc.tableAddr,
    hsame'.process.trans hc.process, hsame'.numBuckets.trans hc.numBuckets⟩
  · obtain ⟨b, r, hi, hah⟩ := hinv'
    exact ⟨b, r, hi.withCounters h₂.hits h₂.reads, hah⟩
  · show nh'.pairs.Perm h.pairs
    rw [List.append_nil] at hpairs'
    exact hpairs'.trans hps
  · show nh'.items.keys.Perm _
    rw [hc.items] at hkeys'
    simpa using hkeys'

end Resize

end RimHash

end RimStone
