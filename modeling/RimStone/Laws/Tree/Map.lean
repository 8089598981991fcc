import RimStone.Laws.Tree.Search
import RimStone.Lib.Listing
import RimStone.Lib.Run

/-!
# The tree is a sorted map

The purpose of a tree: a finite map from keys to data, with the keys in order.
`KeyMap` is such a map, `TreeOp.apply` is what an insertion and a deletion do to
it, and `Represents` relates a tree to the map its nodes spell out. Over any run
the invariant holds (`run_inv`); if the keys of the run are of the tree's type, so
does the order, and the tree represents the map of the pairs inserted and not
deleted (`run_represents`).
-/

namespace RimStone

open TreeNode RimStone.Lib

/-- An operation on a tree, with the addresses `calloc` would answer in it. -/
inductive TreeOp where
  | insert (lcurs : RimTreeCursor) (key : RimStr) (data fresh : Addr)
  | delete (lcurs : RimTreeCursor) (key : RimStr) (fresh : Addr)

namespace TreeOp

def run (t : RimTree) : TreeOp → RimTree × TreeSt
  | insert lcurs key data fresh => t.rimTreeInsertF lcurs key (-1) data fresh
  | delete lcurs key fresh => t.rimTreeDeleteF lcurs key fresh

def apply (m : KeyMap) : TreeOp → KeyMap
  | insert _ key data _ =>
    if m key.bytes = none then Function.update m key.bytes (some data) else m
  | delete _ key _ => Function.update m key.bytes none

def Legal (t : RimTree) : TreeOp → Prop
  | insert _ _ _ fresh | delete _ _ fresh => t.Fresh fresh

def KeyOk (kt : KeyType) : TreeOp → Prop
  | insert _ key _ _ | delete _ key _ => kt.Ok key.bytes

instance (t : RimTree) : (op : TreeOp) → Decidable (op.Legal t)
  | insert _ _ _ fresh | delete _ _ fresh => inferInstanceAs (Decidable (t.Fresh fresh))

instance (kt : KeyType) : (op : TreeOp) → Decidable (op.KeyOk kt)
  | insert _ key _ _ | delete _ key _ => inferInstanceAs (Decidable (kt.Ok key.bytes))

end TreeOp

/-- The map of the pairs inserted and not deleted. -/
def mapAfter (ops : List TreeOp) : KeyMap := ops.foldl TreeOp.apply fun _ => none

namespace RimTree

def Step (t : RimTree) (op : TreeOp) (t' : RimTree) : Prop :=
  op.Legal t ∧ t' = (op.run t).1

def Represents (t : RimTree) (m : KeyMap) : Prop :=
  ∀ k v, m k = some v ↔ ∃ d ∈ t.nodes, d.key.bytes = k ∧ d.data = v

section Represents

variable {t t' : RimTree} {m : KeyMap}

variable {e : NodeData} {key : RimStr} {fresh : Addr} {st : TreeSt}

/-- Two nodes with one key are one node. -/
theorem Ordered.node_unique (h : t.Ordered) {I J : List NodeData} {d : NodeData} (hin : t.nodes = I ++ e :: J)
    (hd : d ∈ I ++ J) : d.key.bytes ≠ e.key.bytes := by
  have hsort := h.sorted
  rw [hin] at hsort
  obtain ⟨-, hJ, hIJ⟩ := List.pairwise_append.mp hsort
  rcases List.mem_append.mp hd with hd | hd
  · exact rank_ne (hIJ d hd e (List.mem_cons_self ..))
  · exact (rank_ne ((List.pairwise_cons.mp hJ).1 d hd)).symm

theorem Represents.lists (h : t.Represents m) : Lib.Lists (fun d => d.key.bytes) (·.data) t.nodes m := h

theorem Represents.none_iff (h : t.Represents m) {k : Bytes} : m k = none ↔ ∀ d ∈ t.nodes, d.key.bytes ≠ k :=
  h.lists.none_iff

theorem Represents.add (h : t.Represents m) (habs : m e.key.bytes = none) (hp : (e :: t.nodes).Perm t'.nodes) :
    t'.Represents (Function.update m e.key.bytes (some e.data)) := (h.lists.cons (h.none_iff.mp habs)).perm hp

/-- A node that left took its pair with it. -/
theorem Represents.remove (h : t.Represents m) (ho : t.Ordered) {I J K : List NodeData} {gone : Addr}
    (hin : t.nodes = I ++ e :: J) (hin' : t'.nodes = I ++ K) (hrem : Removes e J K gone) :
      t'.Represents (Function.update m e.key.bytes none) := by
  have hleft := (h.lists.perm (by rw [hin]; exact List.perm_middle)).tail fun d hd => ho.node_unique hin hd
  -- the nodes left and those there before hold the same pairs
  have hpairs : (I ++ K).map (fun d => (d.key, d.data)) = (I ++ J).map fun d => (d.key, d.data) := by
    rw [List.map_append, List.map_append, hrem.entries]
  unfold Represents
  rw [hin']
  exact Lib.Lists.of_map (fun p => p.1.bytes) Prod.snd hpairs hleft

theorem InsertOutcome.ordered {data : Addr} (h : InsertOutcome t key data fresh t' st) (ho : t.Ordered)
    (hsame : SameType t t') (hok : t.keyType.Ok key.bytes) : t'.Ordered := by
  unfold Ordered
  rw [hsame.keyType]
  cases h with
  | exist e he hkey hfound hroot hnodes hstatus hcalls =>
    rw [hnodes]
    exact ho
  | first d hroot hnodes hroot' hnodes' hstatus hcalls =>
    rw [hnodes']
    exact ⟨by simpa using hok, List.pairwise_singleton ..⟩
  | leaf I J hroot hnodes hroot' hnodes' hbetween hstatus hcalls =>
    obtain ⟨hI, hJ⟩ := hbetween hok ho
    rw [hnodes']
    refine ⟨fun d hd => ?_, keysSorted_insert (hnodes ▸ ho.sorted) hI hJ⟩
    rcases List.mem_cons.mp (List.perm_middle.mem_iff.mp hd) with rfl | hd
    · exact hok
    · exact ho.ok d (hnodes ▸ hd)

theorem DeleteOutcome.ordered (h : DeleteOutcome t key fresh t' st) (ho : t.Ordered) (hsame : SameType t t') :
    t'.Ordered := by
  unfold Ordered
  rw [hsame.keyType]
  cases h with
  | absent habs hroot hnodes hstatus hcalls =>
    rw [hnodes]
    exact ho
  | removed I e J K gone hroot hnodes hkey hfound hrem hroot' hnodes' hstatus hres hcalls =>
    rw [hnodes']
    refine ⟨fun d hd => ?_, hrem.keysSorted (hnodes ▸ ho.sorted)⟩
    rcases List.mem_append.mp hd with hd | hd
    · exact ho.ok d (by rw [hnodes]; exact List.mem_append_left _ hd)
    · obtain ⟨d', hd', hk, -⟩ := hrem.exists_entry hd
      rw [← hk]
      exact ho.ok d' (by rw [hnodes]; simp [hd'])

/-- The node a comparison found has the key. -/
theorem Ordered.key_eq (ho : t.Ordered) (hok : t.keyType.Ok key.bytes) (he : e ∈ t.nodes)
    (hkey : rimTreeCompare (t.ctx key (-1)) e.key = 0) :
    e.key.bytes = key.bytes :=
  ((rimTreeCompare_eq_zero (ctx_valid hok) (ho.ok e he)).mp hkey).symm

/-- An insertion does to the map what it should, and says whether it did. -/
theorem InsertOutcome.represents {data : Addr} (h : InsertOutcome t key data fresh t' st) (ho : t.Ordered)
    (hok : t.keyType.Ok key.bytes) (hm : t.Represents m) (lcurs : RimTreeCursor) :
    t'.Represents ((TreeOp.insert lcurs key data fresh).apply m) ∧
      st.status = if m key.bytes = none then .okay else .errExist := by
  simp only [TreeOp.apply]
  cases h with
  | exist e he hkey hfound hroot hnodes hstatus hcalls =>
    have hsome : m key.bytes ≠ none := fun hnone =>
      hm.none_iff.mp hnone e he (ho.key_eq hok he hkey)
    rw [if_neg hsome, if_neg hsome]
    refine ⟨fun k v => ?_, hstatus⟩
    rw [hnodes]
    exact hm k v
  | first d hroot hnodes hroot' hnodes' hstatus hcalls =>
    have hnone : m key.bytes = none := hm.none_iff.mpr fun d hd => by rw [hnodes] at hd; cases hd
    rw [if_pos hnone, if_pos hnone]
    exact ⟨Represents.add (e := ⟨d.addr, key, data, true⟩) hm hnone (by simp [hnodes, hnodes']), hstatus⟩
  | leaf I J hroot hnodes hroot' hnodes' hbetween hstatus hcalls =>
    obtain ⟨hI, hJ⟩ := hbetween hok ho
    have hnone : m key.bytes = none := by
      refine hm.none_iff.mpr fun d hd => ?_
      rw [hnodes] at hd
      rcases List.mem_append.mp hd with hd | hd
      · exact rank_ne (hI d hd)
      · exact (rank_ne (hJ d hd)).symm
    rw [if_pos hnone, if_pos hnone]
    refine ⟨Represents.add (e := ⟨fresh, key, data, true⟩) hm hnone ?_, hstatus⟩
    rw [hnodes, hnodes']
    exact List.perm_middle.symm

theorem DeleteOutcome.represents (h : DeleteOutcome t key fresh t' st) (ho : t.Ordered) (hok : t.keyType.Ok key.bytes)
    (hm : t.Represents m) (lcurs : RimTreeCursor) :
    t'.Represents ((TreeOp.delete lcurs key fresh).apply m) ∧
      st.status = if m key.bytes = none then .errExist else .okay := by
  simp only [TreeOp.apply]
  cases h with
  | absent habs hroot hnodes hstatus hcalls =>
    have hnone : m key.bytes = none := hm.none_iff.mpr (habs hok ho)
    rw [if_pos hnone, show Function.update m key.bytes none = m from Function.update_eq_self_iff.mpr hnone.symm]
    refine ⟨fun k v => ?_, hstatus⟩
    rw [hnodes]
    exact hm k v
  | removed I e J K gone hroot hnodes hzero hfound hrem hroot' hnodes' hstatus hres hcalls =>
    have he : e ∈ t.nodes := by simp [hnodes]
    have hkey := ho.key_eq hok he hzero
    have hsome : m key.bytes ≠ none := fun hnone => hm.none_iff.mp hnone e he hkey
    rw [if_neg hsome, ← hkey]
    exact ⟨hm.remove ho hnodes hnodes' hrem, hstatus⟩

/-- One operation keeps the invariant and the type. -/
theorem step_inv {op : TreeOp} (hinv : t.TreeInv) (hs : t.Step op t') : t'.TreeInv ∧ SameType t t' := by
  obtain ⟨hfresh, rfl⟩ := hs
  cases op with
  | insert lcurs key data fresh =>
    obtain ⟨hinv', hsame, -⟩ := rimTreeInsertF_inv key data hinv hfresh lcurs
    exact ⟨hinv', hsame⟩
  | delete lcurs key fresh =>
    obtain ⟨hinv', hsame, -⟩ := rimTreeDeleteF_inv key hinv hfresh.1 lcurs
    exact ⟨hinv', hsame⟩

/-- With a key of the tree's type it keeps the order and the representation. -/
theorem step_represents {op : TreeOp} (hinv : t.TreeInv) (ho : t.Ordered) (hm : t.Represents m)
    (hok : op.KeyOk t.keyType) (hs : t.Step op t') : t'.Ordered ∧ t'.Represents (op.apply m) := by
  obtain ⟨hfresh, rfl⟩ := hs
  cases op with
  | insert lcurs key data fresh =>
    obtain ⟨-, hsame, hout⟩ := rimTreeInsertF_inv key data hinv hfresh lcurs
    exact ⟨hout.ordered ho hsame hok, (hout.represents ho hok hm lcurs).1⟩
  | delete lcurs key fresh =>
    obtain ⟨-, hsame, hout⟩ := rimTreeDeleteF_inv key hinv hfresh.1 lcurs
    exact ⟨hout.ordered ho hsame, (hout.represents ho hok hm lcurs).1⟩

theorem run_inv {ops : List TreeOp} (hrun : Run Step t ops t') (hinv : t.TreeInv) :
    t'.TreeInv ∧ t'.sorted = t.sorted := by
  refine GuardedRun.invariant (P := fun s => s.TreeInv ∧ s.sorted = t.sorted) ?_ hrun ⟨hinv, rfl⟩
  rintro s s' op ⟨hinv, hsorted⟩ - hs
  obtain ⟨hinv', hsame⟩ := step_inv hinv hs
  exact ⟨hinv', hsame.sorted.trans hsorted⟩

theorem run_keyType {ops : List TreeOp} (hrun : Run Step t ops t') (hinv : t.TreeInv) : t'.keyType = t.keyType := by
  refine (GuardedRun.invariant (P := fun s => s.TreeInv ∧ s.keyType = t.keyType) ?_ hrun ⟨hinv, rfl⟩).2
  rintro s s' op ⟨hinv, htype⟩ - hs
  obtain ⟨hinv', hsame⟩ := step_inv hinv hs
  exact ⟨hinv', hsame.keyType.trans htype⟩

/-- A run with keys of the tree's type keeps the order and the representation. -/
theorem run_represents {ops : List TreeOp} (hrun : Run Step t ops t')
    (hok : ∀ op ∈ ops, op.KeyOk t.keyType) (hinv : t.TreeInv) (ho : t.Ordered)
    (hm : t.Represents m) : t'.Ordered ∧ t'.Represents (ops.foldl TreeOp.apply m) := by
  induction hrun generalizing m with
  | nil => exact ⟨ho, hm⟩
  | cons _ hs _ ih =>
    obtain ⟨hinv', hsame⟩ := step_inv hinv hs
    obtain ⟨ho', hm'⟩ := step_represents hinv ho hm (hok _ (List.mem_cons_self ..)) hs
    refine ih (fun op hop => ?_) hinv' ho' hm'
    rw [hsame.keyType]
    exact hok op (List.mem_cons_of_mem _ hop)

end Represents

theorem create_inv (keyType : KeyType) (sorted process : Bool) (tree : Addr) {root : Addr}
    (hroot : root < addrLimit) : (rimTreeCreate keyType sorted process tree root).TreeInv := by
  refine ⟨⟨.zero tree, 0, rfl⟩, Or.inl ⟨.zero root, 0, rfl, rfl, ?_⟩, rfl, ?_, ?_, fun _ => dList_nil⟩
  · exact Function.update_self ..
  · exact List.nodup_singleton root
  · intro d hd
    obtain rfl := List.mem_singleton.mp hd
    exact hroot

/-- A tree without nodes. -/
theorem represents_of_nil {t : RimTree} (hnil : t.nodes = []) : t.Ordered ∧ t.Represents fun _ => none := by
  unfold Ordered Represents
  rw [hnil]
  exact ⟨⟨fun d hd => absurd hd List.not_mem_nil, .nil⟩, lists_nil⟩

theorem create_represents (keyType : KeyType) (sorted process : Bool) (tree root : Addr) :
    (rimTreeCreate keyType sorted process tree root).Ordered ∧
      (rimTreeCreate keyType sorted process tree root).Represents fun _ => none := represents_of_nil rfl

end RimTree

end RimStone
