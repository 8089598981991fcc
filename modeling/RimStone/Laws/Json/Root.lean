import RimStone.Laws.Json.Reading

/-!
# A root call

A document that is parsed to its end gives the leaves that the reader finds, and is
accepted if the reader leaves nothing but white space. Lengths are such that an `int`
holds the length of a string.
-/

namespace RimStone

open RimStone.Lib

variable {doc : JsonDoc}

/-- The root call begins as the reader does. -/
theorem Sim.start (hlen : doc.text.length < 2 ^ 31) :
    Sim { doc.start 0 with depth := 1, listC := 0 } 1 Reader.start (doc.text ++ [0]) := by
  refine ⟨rfl, ?_, ?_, ?_, rfl, rfl, rfl, ?_, .nil⟩
  · show 0 + (doc.text ++ [0]).length = (doc.text ++ [0]).length
    rw [Nat.zero_add]
  · rw [List.getLast?_append]
    rfl
  · show (doc.text ++ [0]).length ≤ 2 ^ 31
    rw [List.length_append, List.length_singleton]
    omega
  · show List.Forall₂ _ (List.replicate _ _) (List.replicate _ _)
    generalize RIM_JSON_MAX_NESTED = n
    induction n with
    | zero => exact .nil
    | succ n ih =>
      rw [List.replicate_succ, List.replicate_succ]
      exact .cons ⟨rfl, trivial⟩ ih

theorem leaves_eq {json : RimJson} {i : Nat} {leaves : List JsonLeaf}
    (h : List.Forall₂ (LeafSim json.data i) json.nodes leaves) : json.leaves = leaves := by
  unfold RimJson.leaves
  generalize json.nodes = nodes at h
  induction h with
  | nil => rfl
  | @cons n a nodes leaves hna _ ih =>
    obtain ⟨hname, htype, hzero, -, hval⟩ := hna
    have hcstr : cstr (json.data.drop n.str) = a.value := by
      have hsplit := List.take_append_drop (a.value.length + 1) (json.data.drop n.str)
      rw [hval, List.append_assoc, List.singleton_append] at hsplit
      rw [← hsplit, cstr_append_null hzero]
    rw [List.map_cons, ih, hname, htype, hcstr]

/-- White space to the end of the text, and no further. -/
theorem ends_iff {v : Bytes} (hlast : v.getLast? = some 0) :
    JsonEnds v false ↔ v.length ≤ (v.takeWhile isspace).length + 1 := by
  have hne : v ≠ [] := by
    rintro rfl
    cases hlast
  have hsplit := List.dropLast_append_getLast hne
  have hz : v.getLast hne = 0 := by
    rw [List.getLast?_eq_getLast_of_ne_nil hne] at hlast
    exact Option.some.inj hlast
  rw [hz] at hsplit
  have hspace : isspace 0 = false := by decide
  constructor
  · intro hends
    obtain ⟨w, hw, rfl⟩ := hends
    rw [List.takeWhile_append_of_pos hw, List.takeWhile_cons, hspace, if_neg Bool.false_ne_true]
    simp
  · intro hlen
    refine ⟨v.dropLast, ?_, hsplit.symm⟩
    have hprefix := List.takeWhile_prefix isspace (l := v)
    have htake : v.takeWhile isspace = v.take (v.takeWhile isspace).length := List.prefix_iff_eq_take.mp hprefix
    have hdrop : v.dropLast = v.take (v.length - 1) := List.dropLast_eq_take
    intro c hc
    rw [hdrop] at hc
    have hmem : c ∈ v.takeWhile isspace := by
      rw [htake]
      exact (List.take_subset_take_left v (by omega)) hc
    exact List.mem_takeWhile_imp hmem

/-- What a call leaves is accepted if it ends there. -/
theorem rimJsonEnd_left {st st' : JsonState} {d : Nat} {r : Reader} {v : Bytes} {b : Bool}
    (h : Left st st' d r v b) {len : Nat} (hlen : len + 1 = st'.val.length) :
    ∃ st₁, rimJsonEnd len st' = .ok st₁ ∧ (st₁.ec = -1 ↔ JsonEnds v b) ∧ st₁.val = st'.val ∧ st₁.nodes = st'.nodes := by
  have hsize := h.sim.size
  have hlast := h.sim.last
  have hpos := List.length_pos_iff.mpr h.sim.ne_nil
  -- how many bytes of white space the end finds, and that it finds the end of them
  obtain ⟨k, hk, hget, hends⟩ : ∃ k, ((st'.val.drop st'.i).takeWhile isspace).length = k ∧
      (∃ c, st'.val[st'.i + k]? = some c) ∧ (JsonEnds v b ↔ len ≤ st'.i + k) := by
    cases hb : b with
    | true =>
      have hz := h.scalar hb
      refine ⟨0, ?_, ⟨0, hz⟩, ?_⟩
      · obtain ⟨hi, hget⟩ := List.getElem?_eq_some_iff.mp hz
        rw [List.drop_eq_getElem_cons hi, hget]
        rfl
      · unfold JsonEnds
        rw [if_pos rfl]
        constructor
        · rintro rfl
          rw [List.length_singleton] at hsize
          omega
        · intro hle
          have hone : v.length = 1 := by omega
          obtain ⟨c, rfl⟩ := List.length_eq_one_iff.mp hone
          simpa using hlast
    | false =>
      have hdrop := h.sim.drop (h.plain hb)
      refine ⟨(v.takeWhile isspace).length, by rw [hdrop], ?_, ?_⟩
      · have hlt : (v.takeWhile isspace).length < v.length := by
          by_contra hover
          have hall : v.takeWhile isspace = v :=
            (List.takeWhile_prefix isspace).eq_of_length (Nat.le_antisymm (List.takeWhile_prefix _).length_le
              (Nat.le_of_not_lt hover))
          have hmem : (0 : UInt8) ∈ v.takeWhile isspace := by
            rw [hall]
            exact List.mem_of_getLast? hlast
          exact absurd (List.mem_takeWhile_imp hmem) (by decide)
        rw [← List.getElem?_drop, hdrop]
        exact ⟨_, List.getElem?_eq_getElem hlt⟩
      · rw [ends_iff hlast]
        omega
  obtain ⟨c, hc⟩ := hget
  have hec := h.sim.fine
  unfold rimJsonEnd
  dsimp only
  rw [hk, hc]
  by_cases hmore : st'.i + k < len
  · refine ⟨JsonState.fail { st' with i := st'.i + k } .RIM_ERR_JSON_SYNTAX, ?_, ?_, rfl, rfl⟩
    · show (Except.ok (if _ then _ else _) : Except JsonFault JsonState) = _
      rw [if_pos ⟨hec, hmore⟩]
    · refine iff_of_false ?_ ?_
      · show ¬ ((st'.i + k : Nat) : Int) = -1
        omega
      · rw [hends]
        omega
  · refine ⟨{ st' with i := st'.i + k }, ?_, ?_, rfl, rfl⟩
    · show (Except.ok (if _ then _ else _) : Except JsonFault JsonState) = _
      rw [if_neg (fun hand => hmore hand.2)]
    · rw [hends]
      exact iff_of_true hec (by omega)

theorem rimJsonNew_whole (hwhole : doc.upTo = doc.vlen) :
    rimJsonNew 0 doc = (do
      let st ← rimJsonLoop doc.dec doc.noenum doc.vlen (doc.vlen + 1) {} { doc.start 0 with depth := 1, listC := 0 }
      let st ← rimJsonEnd doc.vlen st.endj
      .ok ({ code := st.ec, errc := st.ec - st.lastLineEc, errl := st.lineEc, errm := st.errm,
             nodes := st.nodes, data := st.val }, st.nulled)) := by
  unfold rimJsonNew
  rw [hwhole, if_neg (Nat.lt_irrefl _)]
  have hroot : rimJsonValue (rimJsonLoop doc.dec doc.noenum doc.vlen (doc.vlen + 1)) (doc.start 0) =
      (rimJsonLoop doc.dec doc.noenum doc.vlen (doc.vlen + 1) {} { doc.start 0 with depth := 1, listC := 0 } >>=
        fun st => .ok st.endj) := rfl
  rw [hroot, bind_assoc]
  rfl

/-- A document that is accepted was read to its end. -/
theorem rimJsonNew_sound (hlen : doc.text.length < 2 ^ 31) (hwhole : doc.upTo = doc.vlen) {json : RimJson} {n : UInt8}
    (hnew : rimJsonNew 0 doc = .ok (json, n)) (hcode : json.code = -1) :
    ∃ r v b, Reads doc.dec doc.noenum 1 {} Reader.start (doc.text ++ [0]) r v b ∧ JsonEnds v b ∧ json.leaves = r.leaves := by
  rw [rimJsonNew_whole hwhole] at hnew
  obtain ⟨st, hloop, hnew⟩ := bind_eq_ok.mp hnew
  obtain ⟨st₁, hend, hnew⟩ := bind_eq_ok.mp hnew
  obtain ⟨rfl, -⟩ := Prod.mk.inj (Except.ok.inj hnew)
  have hstart := Sim.start hlen
  have hlength : doc.vlen + 1 = (doc.start 0).val.length := by
    show doc.text.length + 1 = (doc.text ++ [0]).length
    rw [List.length_append]
    rfl
  have hec₁ : st₁.ec = -1 := hcode
  -- an error is kept to the end
  have hfirst : st.ec = -1 := by
    by_contra hne
    unfold rimJsonEnd at hend
    obtain ⟨c, -, hend⟩ := bind_eq_ok.mp hend
    dsimp only at hend
    have hne' : ¬ (st.endj.ec = -1 ∧ st.endj.i + ((st.endj.val.drop st.endj.i).takeWhile isspace).length < doc.vlen) :=
      fun hand => hne hand.1
    rw [if_neg hne'] at hend
    obtain rfl := Except.ok.inj hend
    exact hne hec₁
  rcases rimJsonLoop_sound hstart hlength (fun hne => absurd rfl hne) hloop with
    hec | ⟨⟨-, hn, hquote, hin⟩, hl⟩ | ⟨r, v, b, hleft, hreads⟩
  · exact absurd hfirst hec
  · -- before a string in error the document goes on
    unfold rimJsonEnd at hend
    obtain ⟨c, -, hend⟩ := bind_eq_ok.mp hend
    dsimp only at hend
    have hnone : (st.endj.val.drop st.endj.i).takeWhile isspace = [] := by
      obtain ⟨hi, hget⟩ := List.getElem?_eq_some_iff.mp hquote
      show (st.val.drop st.i).takeWhile isspace = []
      rw [List.drop_eq_getElem_cons hi, hget]
      rfl
    rw [hnone] at hend
    have hmore : st.endj.ec = -1 ∧ st.endj.i + ([] : Bytes).length < doc.vlen := by
      refine ⟨hfirst, ?_⟩
      show st.i + 0 < doc.vlen
      have hl' : st.val.length = (doc.start 0).val.length := hl
      omega
    rw [if_pos hmore] at hend
    obtain rfl := Except.ok.inj hend
    have hbad : ((st.i + 0 : Nat) : Int) = -1 := hec₁
    omega
  · have hleft' : Left { doc.start 0 with depth := 1, listC := 0 } st.endj 0 r v b :=
      ⟨hleft.sim.endj, hleft.length, hleft.on, hleft.plain, hleft.scalar⟩
    obtain ⟨st₂, hend₂, hiff, hval, hnodes⟩ := rimJsonEnd_left hleft' (hlength.trans hleft.length.symm)
    obtain rfl := Except.ok.inj (hend₂.symm.trans hend)
    refine ⟨r, v, b, hreads, hiff.mp hec₁, ?_⟩
    apply leaves_eq (i := st.i)
    show List.Forall₂ (LeafSim st₂.val st.i) st₂.nodes r.leaves
    rw [hval, hnodes]
    exact hleft.sim.leaves

/-- A document that the reader reads to its end is accepted. -/
theorem rimJsonNew_complete (hlen : doc.text.length < 2 ^ 31) (hwhole : doc.upTo = doc.vlen) {r : Reader} {v : Bytes}
    {b : Bool} (hreads : Reads doc.dec doc.noenum 1 {} Reader.start (doc.text ++ [0]) r v b) (hends : JsonEnds v b) :
    ∃ json n, rimJsonNew 0 doc = .ok (json, n) ∧ json.code = -1 ∧ json.leaves = r.leaves := by
  have hlength : doc.vlen + 1 = (doc.start 0).val.length := by
    show doc.text.length + 1 = (doc.text ++ [0]).length
    rw [List.length_append]
    rfl
  have hfuel : (doc.text ++ [0]).length ≤ doc.vlen + 1 := Nat.le_of_eq hlength.symm
  obtain ⟨st, hloop, hleft⟩ := rimJsonLoop_complete hreads (Sim.start hlen) hlength (fun hne => absurd rfl hne) hfuel
  have hleft' : Left { doc.start 0 with depth := 1, listC := 0 } st.endj 0 r v b :=
    ⟨hleft.sim.endj, hleft.length, hleft.on, hleft.plain, hleft.scalar⟩
  obtain ⟨st₂, hend₂, hiff, hval, hnodes⟩ := rimJsonEnd_left hleft' (hlength.trans hleft.length.symm)
  have hnew := (rimJsonNew_whole hwhole).trans (bind_eq_ok.mpr ⟨_, hloop, bind_eq_ok.mpr ⟨_, hend₂, rfl⟩⟩)
  refine ⟨_, _, hnew, hiff.mpr hends, ?_⟩
  apply leaves_eq (i := st.i)
  show List.Forall₂ (LeafSim st₂.val st.i) st₂.nodes r.leaves
  rw [hval, hnodes]
  exact hleft.sim.leaves

end RimStone
