import RimStone.Laws.Json.Front

/-!
# A document of which a part is parsed

`rim_json_new` is given how much of a text to parse. The loop does not begin a round beyond that, but what a round
scans, a string, a number or a literal, is the text as it is, so that a token of which the end is cut off is read
whole. Where no token is read differently for what is behind the part, the answer is the one for the part alone. And
only there: a token that is read differently is the last one of it, and one of the answers is in error and the other
is not, or the last values differ.
-/

namespace RimStone

open RimStone.Lib

def JsonDoc.cut (d : JsonDoc) : JsonDoc := { d with text := d.text.take d.upTo, len := none }

def JsonDoc.behind (d : JsonDoc) : Bytes := d.text.drop d.upTo ++ [0]

/-- The same answer: the result, where the error is and what it is, and the nodes with their values. -/
structure SameAnswer (x y : RimJson) : Prop where
  code : x.code = y.code
  errc : x.errc = y.errc
  errl : x.errl = y.errl
  message : y.code ≠ -1 → x.errm = y.errm
  leaves : x.leaves = y.leaves

/-- A part of a document is parsed as if it were alone. -/
def ParsesAlone (d : JsonDoc) (nulled : UInt8) : Prop :=
  Alongside (fun x y => SameAnswer x.1 y.1) (rimJsonNew nulled d) (rimJsonNew nulled d.cut)

/-- The tokens of a part of a document are read as if it were alone. -/
def ReadsAlone (d : JsonDoc) (nulled : UInt8) : Prop :=
  RoundsAlike d.dec d.noenum d.upTo d.behind (d.upTo + 1) {} (d.cut.start nulled).enter

section

variable {d : JsonDoc} {nulled : UInt8}

theorem cut_upTo (h : d.upTo ≤ d.vlen) : d.cut.upTo = d.upTo ∧ d.cut.vlen = d.upTo := by
  have hlen : (d.text.take d.upTo).length = d.upTo := List.length_take_of_le h
  exact ⟨hlen, hlen⟩

theorem behind_null (d : JsonDoc) : 0 ∈ d.behind := List.mem_append_right _ List.mem_cons_self

/-- The root call is its loop, and the end of it. -/
theorem rimJsonNew_eq (h : d.upTo ≤ d.vlen) :
    rimJsonNew nulled d =
      rimJsonLoop d.dec d.noenum d.upTo (d.upTo + 1) {} (d.start nulled).enter >>= fun st =>
        rimJsonEnd d.upTo st.endj >>= fun st =>
          .ok ({ code := st.ec, errc := st.ec - st.lastLineEc, errl := st.lineEc, errm := st.errm,
                 nodes := st.nodes, data := st.val }, st.nulled) := by
  unfold rimJsonNew
  rw [if_neg (Nat.not_lt.mpr h)]
  have hroot : rimJsonValue (rimJsonLoop d.dec d.noenum d.upTo (d.upTo + 1)) (d.start nulled) =
      rimJsonLoop d.dec d.noenum d.upTo (d.upTo + 1) {} (d.start nulled).enter >>= fun st => .ok st.endj := rfl
  rw [hroot, bind_assoc]
  rfl

/-- The part alone, as the loop takes it. -/
theorem rimJsonNew_cut (h : d.upTo ≤ d.vlen) :
    rimJsonNew nulled d.cut =
      rimJsonLoop d.dec d.noenum d.upTo (d.upTo + 1) {} (d.cut.start nulled).enter >>= fun st =>
        rimJsonEnd d.upTo st.endj >>= fun st =>
          .ok ({ code := st.ec, errc := st.ec - st.lastLineEc, errl := st.lineEc, errm := st.errm,
                 nodes := st.nodes, data := st.val }, st.nulled) := by
  obtain ⟨hup, hlen⟩ := cut_upTo h
  rw [rimJsonNew_eq (by rw [hup, hlen]), hup]
  rfl

theorem start_alike (h : d.upTo ≤ d.vlen) :
    Alike d.upTo d.behind (d.start nulled).enter (d.cut.start nulled).enter := by
  have hlen : (d.text.take d.upTo).length = d.upTo := List.length_take_of_le h
  have hs : (d.start nulled).enter.val = d.text.take d.upTo ++ d.behind := by
    show d.text ++ [0] = _
    rw [JsonDoc.behind, ← List.append_assoc, List.take_append_drop]
  have hp : (d.cut.start nulled).enter.val = d.text.take d.upTo ++ [0] := rfl
  have htake : ∀ x : Bytes, (d.text.take d.upTo ++ x).take d.upTo = d.text.take d.upTo := by
    intro x
    exact List.take_left' hlen
  refine ⟨rfl, fun _ => rfl, ?_, ?_, ?_, fun _ => ⟨?_, rfl⟩, ?_, Nat.zero_le _, ?_, ?_⟩
  · rw [hp, List.length_append, hlen, List.length_singleton]
  · rw [hp, List.getElem?_append_right (Nat.le_of_eq hlen), hlen, Nat.sub_self]
    rfl
  · rw [hs, hp, htake, htake]
  · rw [hs, hp, htake]
  · intro l hl n hn
    obtain ⟨-, rfl⟩ := List.mem_replicate.mp hl
    cases hn
  · rw [hs, List.drop_left' hlen]
    exact behind_null d
  · intro n hn
    cases hn

end

/-! ## The end of the document -/

/-- The end of the white space, which a null ends. -/
theorem takeWhile_isspace_lt {v : Bytes} (hnull : 0 ∈ v) : (v.takeWhile isspace).length < v.length := by
  by_contra hover
  have hall : v.takeWhile isspace = v := (List.takeWhile_prefix isspace).eq_of_length
    (Nat.le_antisymm (List.takeWhile_prefix _).length_le (Nat.le_of_not_lt hover))
  rw [← hall] at hnull
  exact absurd (List.mem_takeWhile_imp hnull) (by decide)

/-- White space is read to the end of it. -/
theorem rimJsonEnd_ends {st : JsonState} (len : Nat) (hnull : 0 ∈ st.val.drop st.i) :
    ∃ i, i = st.i + ((st.val.drop st.i).takeWhile isspace).length ∧
      rimJsonEnd len st = .ok (if st.ec = -1 ∧ i < len then JsonState.fail { st with i } .RIM_ERR_JSON_SYNTAX else { st with i }) := by
  refine ⟨_, rfl, ?_⟩
  have hlt := takeWhile_isspace_lt hnull
  rw [List.length_drop] at hlt
  have hget := List.getElem?_eq_getElem (show st.i + ((st.val.drop st.i).takeWhile isspace).length < st.val.length by omega)
  unfold rimJsonEnd
  dsimp only
  rw [hget]
  rfl

structure EndsAlike (x y : JsonState) : Prop where
  ec : x.ec = y.ec
  lineEc : x.lineEc = y.lineEc
  lastLineEc : x.lastLineEc = y.lastLineEc
  message : y.ec ≠ -1 → x.errm = y.errm
  leaves : x.leaves = y.leaves

section

variable {len : Nat} {tail : Bytes} {s p : JsonState}

theorem Alike.ends_null (h : Alike len tail s p) : 0 ∈ s.val.drop s.i ∧ 0 ∈ p.val.drop p.i := by
  have hin := h.within
  constructor
  · obtain ⟨k, hk⟩ := List.mem_iff_getElem?.mp h.ends
    rw [List.getElem?_drop] at hk
    refine List.mem_of_getElem? (i := len - p.i + k) ?_
    rw [List.getElem?_drop, h.i_eq, ← hk]
    congr 1
    omega
  · refine List.mem_of_getElem? (i := len - p.i) ?_
    rw [List.getElem?_drop, ← h.last]
    congr 1
    omega

/-- The white space of the front is skipped alike, as far as it is in the front. -/
theorem Alike.white (h : Alike len tail s p) {i j : Nat} (hi : i = s.i + ((s.val.drop s.i).takeWhile isspace).length)
    (hj : j = p.i + ((p.val.drop p.i).takeWhile isspace).length) : i = j ∨ len ≤ i ∧ len ≤ j := by
  have hin := h.within
  have hieq := h.i_eq
  by_cases hlt : p.i < len
  · obtain ⟨w, hw, hpv, hsv⟩ := h.split hlt
    rw [hpv, List.takeWhile_append] at hj
    rw [hsv, List.takeWhile_append] at hi
    split at hi
    · next hall =>
      rw [if_pos hall, List.length_append] at hj
      rw [List.length_append] at hi
      omega
    · next hnot =>
      rw [if_neg hnot] at hj
      omega
  · omega

theorem Alike.same_ends (h : Alike len tail s p) : Alongside EndsAlike (rimJsonEnd len s) (rimJsonEnd len p) := by
  obtain ⟨hs, hp⟩ := h.ends_null
  obtain ⟨i, hi, hends⟩ := rimJsonEnd_ends len hs
  obtain ⟨j, hj, hendp⟩ := rimJsonEnd_ends len hp
  have hij := h.white hi hj
  have hline : s.lineEc = p.lineEc := by
    have heq := congrArg JsonState.lineEc h.same
    exact heq
  have hlast : s.lastLineEc = p.lastLineEc := by
    have heq := congrArg JsonState.lastLineEc h.same
    exact heq
  have hleaves : s.leaves = p.leaves := h.leaves_eq
  rw [hends, hendp, h.ec_eq]
  by_cases hflag : p.ec = -1 ∧ j < len
  · obtain rfl : i = j := by omega
    rw [if_pos hflag, if_pos hflag]
    exact .ok ⟨rfl, hline, hlast, fun _ => rfl, hleaves⟩
  · rw [if_neg hflag, if_neg (by omega)]
    exact .ok ⟨rfl, hline, hlast, h.message, hleaves⟩

end

/-- Where every token is read as in the part alone, the part is parsed as if it were alone. -/
theorem ReadsAlone.parses {d : JsonDoc} {nulled : UInt8} (h : d.upTo ≤ d.vlen) (hreads : ReadsAlone d nulled) :
    ParsesAlone d nulled := by
  unfold ParsesAlone
  rw [rimJsonNew_eq h, rimJsonNew_cut h]
  refine (rimJsonLoop_alike (behind_null d) hreads (start_alike h) rfl).bind fun s p hsp => ?_
  refine hsp.endj.same_ends.bind fun x y hxy => .ok ⟨hxy.ec, ?_, hxy.lineEc, hxy.message, hxy.leaves⟩
  show x.ec - x.lastLineEc = y.ec - y.lastLineEc
  rw [hxy.ec, hxy.lastLineEc]

end RimStone
