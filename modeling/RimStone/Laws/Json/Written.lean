import RimStone.Laws.Json.Root
import RimStone.Laws.Text.Utf

/-!
# Documents that a program writes

A program makes a JSON document of objects, within objects, of texts that it encodes with `rim_utf_to_text`. What it
reads of the document is what it wrote: a node for each text, in order, with the names on the way to it
(`Reads.written`). A name is written as it is. One that has an escape is kept with the length that it has in the
document, so there is no claim about such names, and an object without members is none that the parser takes.
-/

namespace RimStone

open RimStone.Lib

mutual

/-- A document: a text, or an object of them. -/
inductive JsonTree where
  | text (s : List Char)
  | object (members : JsonMembers)

/-- The members of an object. -/
inductive JsonMembers where
  | last (name : Bytes) (value : JsonTree)
  | more (name : Bytes) (value : JsonTree) (others : JsonMembers)

end

mutual

def JsonTree.write : JsonTree → Bytes
  | .text s => 34 :: (s.flatMap (charText true) ++ [34])
  | .object members => 123 :: (members.write ++ [125])

def JsonMembers.write : JsonMembers → Bytes
  | .last name value => 34 :: (name ++ 34 :: 58 :: value.write)
  | .more name value others => 34 :: (name ++ 34 :: 58 :: (value.write ++ 44 :: others.write))

end

/-- The normalized name of what is found on a path. -/
def pathName (path : List Bytes) : Bytes :=
  if path = [] then [34, 34] else [46].intercalate (path.map fun name => 34 :: (name ++ [34]))

mutual

/-- The texts, each with the path to it. -/
def JsonTree.leaves (path : List Bytes) : JsonTree → List JsonLeaf
  | .text s => [{ name := pathName path, type := .string, value := utf8 s }]
  | .object members => members.leaves path

def JsonMembers.leaves (path : List Bytes) : JsonMembers → List JsonLeaf
  | .last name value => value.leaves (path ++ [name])
  | .more name value others => value.leaves (path ++ [name]) ++ others.leaves path

end

mutual

def JsonTree.depth : JsonTree → Nat
  | .text _ => 0
  | .object members => members.depth + 1

def JsonMembers.depth : JsonMembers → Nat
  | .last _ value => value.depth
  | .more _ value others => max value.depth others.depth

end

/-- A name that is written as it is. -/
def PlainName (name : Bytes) : Prop := ∀ c ∈ name, c ≠ 34 ∧ c ≠ 92 ∧ c ≠ 0

mutual

/-- What the encoding takes, and the decoding gives back. -/
def JsonTree.Written : JsonTree → Prop
  | .text s => ∀ c ∈ s, c.val.toNat ≠ 0 ∧ c.val.toNat ≠ 0xFEFF
  | .object members => members.Written

def JsonMembers.Written : JsonMembers → Prop
  | .last name value => PlainName name ∧ value.Written
  | .more name value others => PlainName name ∧ value.Written ∧ others.Written

end

/-! ## A string -/

theorem zero_notMem_utf8 {s : List Char} (h : ∀ c ∈ s, c.val.toNat ≠ 0) : 0 ∉ utf8 s := by
  intro hmem
  obtain ⟨c, hc, hzero⟩ := List.mem_flatMap.mp hmem
  have hne := h c hc
  have hbound := (char_bound c).1
  have hz : (0 : UInt8).toNat = 0 := rfl
  unfold String.utf8EncodeChar at hzero
  dsimp only at hzero
  split_ifs at hzero
  all_goals
    simp only [List.mem_cons, List.not_mem_nil, or_false, ← UInt8.toNat_inj, hz, UInt8.toNat_ofNat'] at hzero
    omega

theorem length_le_charText (s : List Char) : s.length ≤ (s.flatMap (charText true)).length := by
  induction s with
  | nil => exact Nat.le_refl _
  | cons c s ih =>
    have hone : 1 ≤ (charText true c).length := by
      unfold charText rimByteText rimUnicodeText
      split_ifs <;> simp
    rw [List.flatMap_cons, List.length_append, List.length_cons]
    omega

/-- A name between quotes. -/
theorem readString_name {name : Bytes} (hname : PlainName name) (rest : Bytes) :
    readString true (34 :: (name ++ 34 :: rest)) = some (name, name.length + 2) := by
  have hloop : ∀ (fuel : Nat) (val out w : Bytes) (i : Nat), PlainName w → w.length < fuel →
      InPlace val out (w ++ 34 :: rest) i i → rimTextLoop fuel val i 0 = .ok (val, i + w.length, 0) := by
    intro fuel
    induction fuel with
    | zero => exact fun _ _ w _ _ hfuel _ => absurd hfuel (Nat.not_lt_zero _)
    | succ fuel ih =>
      intro val out w i hw hfuel h
      cases w with
      | nil =>
        have hget : val[i]? = some 34 := h.get_zero
        simp only [rimTextLoop, hget, inBlock, bind, Except.bind, true_or, if_true]
        rfl
      | cons c w =>
        obtain ⟨⟨hquote, hslash, hnull⟩, hw⟩ := List.forall_mem_cons.mp hw
        have hget : val[i]? = some c := h.get_zero
        rw [List.length_cons] at hfuel
        have hrest := ih val _ w (i + 1) hw (by omega) h.keep
        simp only [rimTextLoop, hget, inBlock, bind, Except.bind, if_neg (not_or.mpr ⟨hquote, hnull⟩), if_neg hslash,
          ne_eq, not_true_eq_false, if_false, hrest, List.length_cons, Nat.add_assoc, Nat.add_comm 1]
  have hstart : InPlace (34 :: (name ++ 34 :: rest)) ([] ++ [34]) (name ++ 34 :: rest) (0 + 1) (0 + 1) :=
    (InPlace.start _).keep
  have hend : (34 :: (name ++ 34 :: rest))[1 + name.length]? = some 34 := by
    rw [Nat.add_comm, List.getElem?_cons_succ, List.getElem?_append_right (Nat.le_refl _), Nat.sub_self]
    rfl
  have hread := hloop ((34 :: (name ++ 34 :: rest)).length + 1) _ _ name 1 hname (by simp; omega) hstart
  have htext : rimTextToUtf (34 :: (name ++ 34 :: rest)) true true false =
      .ok { val := 34 :: (name ++ 34 :: rest), last := 1 + name.length, len := none } := by
    simp only [rimTextToUtf, if_true, hread, bind, Except.bind, ne_eq, not_true_eq_false, if_false, inBlock, hend]
    rfl
  unfold readString
  rw [htext]
  simp only [Option.some.injEq, Prod.mk.injEq]
  refine ⟨?_, by omega⟩
  rw [List.drop_one, List.tail_cons, Nat.add_sub_cancel_left, List.take_left]

/-- A text that was encoded, between quotes. -/
theorem readString_text {s : List Char} (hs : ∀ c ∈ s, c.val.toNat ≠ 0 ∧ c.val.toNat ≠ 0xFEFF) (rest : Bytes) :
    ∃ w, readString true (34 :: (s.flatMap (charText true) ++ 34 :: rest)) =
        some (w, (s.flatMap (charText true)).length + 2) ∧ cstr w = utf8 s := by
  have hfuel : s.length < (34 :: (s.flatMap (charText true) ++ 34 :: rest)).length + 1 := by
    have hle := length_le_charText s
    simp only [List.length_cons, List.length_append]
    omega
  have hstart : InPlace (34 :: (s.flatMap (charText true) ++ 34 :: rest)) ([] ++ [34])
      (s.flatMap (charText true) ++ 34 :: rest) (0 + 1) (0 + 1) := (InPlace.start _).keep
  obtain ⟨val, i, pull, hloop, h, hi, hread⟩ := rimTextLoop_written true (Or.inl rfl) (fun c hc => (hs c hc).1)
    (fun c hc => (hs c hc).2) hfuel hstart (Nat.add_zero _).symm
  have hget : val[i]? = some 34 := h.get_zero
  have hnull := zero_notMem_utf8 fun c hc => (hs c hc).1
  generalize (s.flatMap (charText true)).length = n at hread ⊢
  -- the text, and what is behind it
  have hval : (val.drop 1).take (utf8 s).length = utf8 s := by
    have hw := congrArg (List.drop 1) h.written
    rw [List.drop_take, Nat.zero_add, Nat.add_sub_cancel_left] at hw
    exact hw
  by_cases hp : pull = 0
  · have htext : rimTextToUtf (34 :: (s.flatMap (charText true) ++ 34 :: rest)) true true false =
        .ok { val, last := i, len := none } := by
      simp only [rimTextToUtf, if_true, Nat.zero_add] at hloop ⊢
      simp only [hloop, hp, bind, Except.bind, ne_eq, not_true_eq_false, if_false, inBlock, hget]
      rfl
    have hn : i - 1 = (utf8 s).length := by omega
    refine ⟨(val.drop 1).take (i - 1), ?_, ?_⟩
    · unfold readString
      rw [htext]
      simp only [Option.some.injEq, Prod.mk.injEq, true_and]
      omega
    · rw [hn, hval, cstr_eq_self fun x hx he => hnull (he ▸ hx)]
  · have hlt : i - pull < val.length := by
      have hlt := h.lt
      omega
    have hback : i - pull = 1 + (utf8 s).length := by omega
    have hget' : (val.set (i - pull) 0)[i]? = some 34 := by
      rw [List.getElem?_set_ne (by omega), hget]
    have htext : rimTextToUtf (34 :: (s.flatMap (charText true) ++ 34 :: rest)) true true false =
        .ok { val := val.set (i - pull) 0, last := i, len := none } := by
      simp only [rimTextToUtf, if_true, Nat.zero_add] at hloop ⊢
      simp only [hloop, hp, bind, Except.bind, ne_eq, not_false_eq_true, if_true, inBlock, poke_eq hlt, hget',
        Bool.false_eq_true, and_false, if_false]
      rfl
    refine ⟨((val.set (i - pull) 0).drop 1).take (i - 1), ?_, ?_⟩
    · unfold readString
      rw [htext]
      simp only [Option.some.injEq, Prod.mk.injEq, true_and]
      omega
    · have hsplit : (val.set (i - pull) 0).drop 1 = utf8 s ++ 0 :: val.drop (i - pull + 1) := by
        rw [List.drop_set, if_neg (by omega), hback, Nat.add_sub_cancel_left, List.set_eq_take_append_cons_drop,
          if_pos (by rw [List.length_drop]; omega), hval, List.drop_drop, ← Nat.add_assoc]
      rw [hsplit, List.take_append, List.take_of_length_le (by omega), List.take_cons (by omega), cstr_append_null hnull]

/-! ## A document -/

/-- The reader is at a value, with the names of a path. -/
structure AtPath (r : Reader) (path : List Bytes) : Prop where
  listC : r.listC = path.length
  names : r.list.take path.length = path.map fun name => { name := some name, index := -1 }
  room : path.length < r.list.length
  index : ∀ l ∈ r.list, l.index = -1

variable {dec noenum : Bool} {r : Reader} {path : List Bytes} {d : Nat}

/-- A value was read: the reader is at the level before it, with more leaves. -/
structure ReadOver (r : Reader) (path : List Bytes) (leaves : List JsonLeaf) (r' : Reader) : Prop where
  path : AtPath { r' with listC := r'.listC + 1 } path
  size : r'.list.length = r.list.length
  leaves : r'.leaves = r.leaves ++ leaves

theorem AtPath.leafName (h : AtPath r path) (noenum : Bool) : r.leafName noenum = some (pathName path) := by
  have htext : ∀ path : List Bytes, (path.map fun name => ({ name := some name, index := -1 } : JsonLevel)).mapM
      (JsonLevel.text noenum) = some (path.map fun name => 34 :: (name ++ [34])) := by
    intro path
    induction path with
    | nil => rfl
    | cons name path ih =>
      rw [List.map_cons, List.mapM_cons, ih]
      simp [JsonLevel.text]
  unfold Reader.leafName pathName
  rw [h.listC]
  cases path with
  | nil => rfl
  | cons name path =>
    rw [if_neg (by simp; omega), if_neg (List.cons_ne_nil _ _), Int.toNat_natCast, h.names, htext]
    rfl

/-- A name is given to the level. -/
theorem AtPath.named (h : AtPath r path) (hroom : path.length + 1 < r.list.length) (name : Bytes) :
    ∃ l, r.level = some l ∧
      AtPath { r.setLevel { l with name := some name } with listC := r.listC + 1 } (path ++ [name]) := by
  have hl : r.list[path.length]? = some r.list[path.length] := List.getElem?_eq_getElem h.room
  have hindex := h.index _ (List.getElem_mem h.room)
  generalize r.list[path.length] = l at hl hindex
  have hnat : r.listC.toNat = path.length := by rw [h.listC, Int.toNat_natCast]
  refine ⟨l, ?_, ?_, ?_, ?_, ?_⟩
  · unfold Reader.level
    rw [if_pos (by rw [h.listC]; omega), hnat, hl]
  · simp [h.listC]
  · show (r.list.set r.listC.toNat _).take _ = _
    rw [hnat, List.length_append, List.length_singleton, List.take_set, List.take_add_one, hl, h.names]
    simp [hindex]
  · show _ < (r.list.set r.listC.toNat _).length
    rwa [List.length_set, List.length_append, List.length_singleton]
  · intro x hx
    rcases List.mem_or_eq_of_mem_set hx with hx | rfl
    · exact h.index x hx
    · exact hindex

/-- A text is read as a leaf. -/
theorem reads_text (h : AtPath r path) {s : List Char} (hs : ∀ c ∈ s, c.val.toNat ≠ 0 ∧ c.val.toNat ≠ 0xFEFF) (v : Bytes) :
    ∃ r', Reads true noenum d {} r (34 :: (s.flatMap (charText true) ++ 34 :: v)) r' v false ∧
      ReadOver r path [{ name := pathName path, type := .string, value := utf8 s }] r' := by
  obtain ⟨w, hread, hw⟩ := readString_text hs v
  have hadd : r.addLeaf noenum .string (cstr w) = some { r with
      listC := r.listC - 1, leaves := r.leaves ++ [{ name := pathName path, type := .string, value := utf8 s }] } := by
    unfold Reader.addLeaf
    rw [h.leafName, hw]
    rfl
  refine ⟨{ r with
    listC := r.listC - 1, leaves := r.leaves ++ [{ name := pathName path, type := .string, value := utf8 s }] },
    .stop ?_, ⟨?_, h.names, h.room, h.index⟩, rfl, rfl⟩
  · show (readString true _ >>= fun x => _) = _
    rw [hread]
    show (r.addLeaf noenum .string (cstr w) >>= fun r => _) = _
    rw [hadd]
    show some (ReadAct.stop _ (List.drop (_ + 1) (_ ++ 34 :: v)) false) = _
    rw [← List.drop_drop, List.drop_left]
    rfl
  · show r.listC - 1 + 1 = path.length
    rw [h.listC]
    omega

/-- Back at the level before the last name. -/
theorem AtPath.up {name : Bytes} (h : AtPath { r with listC := r.listC + 1 } (path ++ [name])) : AtPath r path := by
  have hroom := h.room
  have hlistC : r.listC + 1 = ((path ++ [name]).length : Int) := h.listC
  rw [List.length_append, List.length_singleton] at hroom hlistC
  refine ⟨by omega, ?_, Nat.lt_of_succ_lt hroom, h.index⟩
  have hnames := congrArg (List.take path.length) h.names
  rw [List.take_take, Nat.min_eq_left (by simp), List.map_append, List.take_left' (List.length_map _)] at hnames
  exact hnames

/-- What is expected within an object: a name, or what is behind a member. -/
def Expected.atName : Expected := { name := true, isobj := true }

def Expected.behindMember : Expected := { commaOrEndObject := true, isobj := true }

/-- A member is read, with what its value gives. -/
theorem reads_member (h : AtPath r path) (hroom : path.length < 30) (hsize : r.list.length = RIM_JSON_MAX_NESTED)
    (hd : d = path.length + 1) {name v v' : Bytes} (hname : PlainName name) {leaves more : List JsonLeaf}
    (hvalue : ∀ {r : Reader}, AtPath r (path ++ [name]) → r.list.length = RIM_JSON_MAX_NESTED →
      ∃ r', Reads true noenum (d + 1) {} r v r' v' false ∧ ReadOver r (path ++ [name]) leaves r')
    {v'' : Bytes} (hrest : ∀ {r : Reader}, AtPath r path → r.list.length = RIM_JSON_MAX_NESTED →
      ∃ r', Reads true noenum d .behindMember r v' r' v'' false ∧ ReadOver r path more r') :
    ∃ r', Reads true noenum d .atName r (34 :: (name ++ 34 :: 58 :: v)) r' v'' false ∧
      ReadOver r path (leaves ++ more) r' := by
  have hmax : RIM_JSON_MAX_NESTED = 32 := rfl
  obtain ⟨l, hl, hnamed⟩ := h.named (by omega) name
  obtain ⟨r₂, hreads₂, hover₂⟩ := hvalue hnamed (by rw [← hsize]; exact List.length_set)
  have hsize₂ : r₂.list.length = RIM_JSON_MAX_NESTED := by
    rw [hover₂.size, ← hsize]
    exact List.length_set
  obtain ⟨r', hreads, hover⟩ := hrest hover₂.path.up hsize₂
  have hcolon : readStep true noenum { colon := true, isobj := true } (r.setLevel { l with name := some name }) (58 :: v) =
      some (.call (r.setLevel { l with name := some name }) v .behindMember) := rfl
  refine ⟨r', .move ?_ (.call hcolon ?_ ?_ hreads₂ hreads), hover.path, ?_, ?_⟩
  · show (readString true _ >>= fun x => _) = _
    rw [readString_name hname]
    show (r.level >>= fun l => _) = _
    rw [hl]
    show some (ReadAct.move _ _ (List.drop (_ + 1) (_ ++ 34 :: _))) = _
    rw [← List.drop_drop, List.drop_left]
    rfl
  · omega
  · show r.listC + 1 < _
    rw [h.listC]
    omega
  · rw [hover.size, hsize₂, hsize]
  · rw [hover.leaves, hover₂.leaves, List.append_assoc]
    rfl

mutual

/-- What is written is read, and nothing else. -/
theorem reads_tree {r : Reader} {path : List Bytes} {d : Nat} (t : JsonTree) (ht : t.Written) (h : AtPath r path) (hroom : t.depth + path.length ≤ 30)
    (hsize : r.list.length = RIM_JSON_MAX_NESTED) (hd : d = path.length + 1) (v : Bytes) :
    ∃ r', Reads true noenum d {} r (t.write ++ v) r' v false ∧ ReadOver r path (t.leaves path) r' := by
  cases t with
  | text s =>
    have hwrite : (JsonTree.text s).write ++ v = 34 :: (s.flatMap (charText true) ++ 34 :: v) := by
      simp [JsonTree.write]
    rw [hwrite]
    exact reads_text h ht v
  | object members =>
    have hwrite : (JsonTree.object members).write ++ v = 123 :: (members.write ++ 125 :: v) := by
      simp [JsonTree.write]
    obtain ⟨r', hreads, hover⟩ := reads_members members ht h (by simp only [JsonTree.depth] at hroom; omega) hsize hd v
    rw [hwrite]
    exact ⟨r', .move rfl hreads, hover⟩

theorem reads_members {r : Reader} {path : List Bytes} {d : Nat} (members : JsonMembers) (ht : members.Written) (h : AtPath r path)
    (hroom : members.depth + path.length < 30) (hsize : r.list.length = RIM_JSON_MAX_NESTED) (hd : d = path.length + 1)
    (v : Bytes) :
    ∃ r', Reads true noenum d .atName r (members.write ++ 125 :: v) r' v false ∧
      ReadOver r path (members.leaves path) r' := by
  cases members with
  | last name value =>
    obtain ⟨hname, hvalue⟩ := ht
    have hwrite : (JsonMembers.last name value).write ++ 125 :: v =
        34 :: (name ++ 34 :: 58 :: (value.write ++ 125 :: v)) := by
      simp [JsonMembers.write]
    rw [hwrite, JsonMembers.leaves, ← List.append_nil (JsonTree.leaves _ _)]
    apply reads_member h (by omega) hsize hd hname
    · intro r h hsize
      refine reads_tree value hvalue h ?_ hsize (by rw [hd]; simp) _
      simp only [JsonMembers.depth, List.length_append, List.length_singleton] at hroom ⊢
      omega
    · intro r h _
      have hend : readStep true noenum .behindMember r (125 :: v) = some (.stop { r with listC := r.listC - 1 } v false) :=
        rfl
      refine ⟨_, .stop hend, ⟨?_, h.names, h.room, h.index⟩, rfl, (List.append_nil _).symm⟩
      show r.listC - 1 + 1 = path.length
      rw [h.listC]
      omega
  | more name value others =>
    obtain ⟨hname, hvalue, hothers⟩ := ht
    have hwrite : (JsonMembers.more name value others).write ++ 125 :: v =
        34 :: (name ++ 34 :: 58 :: (value.write ++ 44 :: (others.write ++ 125 :: v))) := by
      simp [JsonMembers.write]
    simp only [JsonMembers.depth] at hroom
    rw [hwrite, JsonMembers.leaves]
    apply reads_member h (by omega) hsize hd hname
    · intro r h hsize
      refine reads_tree value hvalue h ?_ hsize (by rw [hd]; simp) _
      rw [List.length_append, List.length_singleton]
      omega
    · intro r h hsize
      obtain ⟨r', hreads, hover⟩ := reads_members others hothers h (by omega) hsize hd v
      have hcomma : readStep true noenum .behindMember r (44 :: (others.write ++ 125 :: v)) =
          some (.move .atName r (others.write ++ 125 :: v)) := rfl
      exact ⟨r', .move hcomma hreads, hover⟩

end

end RimStone
