import RimStone.Exec.Program
import RimStone.Laws.Memory.Chars
import RimStone.Lib.Yields

/-!
# The output of a program is collected

However much `read` answers, the block has `tread` bytes behind those that were read, and that is no less than it was
at first (`ChildOutput.Collects`): a short answer sets it to at least that, and a full one leaves it, doubles it, or
makes it a quarter of all, which is more than it was. So what is asked for always fits in front of the last byte, and
that one is there for the null.
-/

namespace RimStone

section Resize

variable (junk : Junk) (b : Bytes) (n : Nat)

@[simp] theorem length_resize : (resize junk b n).length = n := by
  simp [resize]

/-- The bytes that both blocks have stay. -/
theorem take_resize {k : Nat} (hb : k ≤ b.length) (hn : k ≤ n) : (resize junk b n).take k = b.take k := by
  apply List.ext_getElem
  · rw [List.length_take, List.length_take, length_resize]
    omega
  · intro i hi hi'
    rw [List.length_take] at hi'
    have hib : i < b.length := by omega
    simp [resize, List.getElem?_eq_getElem hib]

end Resize

namespace ChildOutput

variable {junk : Junk} {s s' : ChildOutput} {out rd : Bytes}

/-- The bytes `out` were read, and there is room for more. -/
structure Collects (s : ChildOutput) (out : Bytes) : Prop where
  curr : s.curr = out.length
  written : s.outBuf.take s.curr = out
  least : EXEC_BLEN ≤ s.tread
  room : (s.outBuf.length : Int) = s.curr + s.tread

/-- What is asked for ends in front of the last byte of the block. -/
theorem Collects.fits (h : s.Collects out) : 0 < s.request ∧ s.curr + s.request < s.outBuf.length := by
  have hleast := h.least
  have hroom := h.room
  unfold request EXEC_BLEN at *
  omega

theorem start_collects (junk : Junk) : (start junk).Collects [] where
  curr := rfl
  written := List.take_zero
  least := Int.le_refl _
  room := by
    rw [start, length_resize]
    rfl

/-- The room is never made less than it was at first. -/
theorem le_nextTread (h : EXEC_BLEN ≤ s.tread) (rd : Nat) (curr : Nat) : EXEC_BLEN ≤ s.nextTread rd curr := by
  unfold nextTread EXEC_BLEN at *
  have hquarter : ((curr : Int)).tdiv 4 = (curr : Int) / 4 := Int.tdiv_eq_ediv_of_nonneg (Int.natCast_nonneg curr)
  rw [hquarter]
  split
  · -- a short answer
    split <;> omega
  · split
    · omega
    · split <;> omega

/-- The bytes that were answered follow those that were read. -/
theorem receive_eq (h : s.Collects out) (hrd : rd.length ≤ s.request) :
    ∃ b, s.receive rd = some b ∧ b.length = s.outBuf.length ∧ b.take (s.curr + rd.length) = out ++ rd := by
  obtain ⟨hpos, hfits⟩ := h.fits
  have hsplit : s.outBuf = out ++ s.outBuf.drop s.curr := by
    conv_lhs => rw [← List.take_append_drop s.curr s.outBuf, h.written]
  have hfree : rd.length ≤ (s.outBuf.drop s.curr).length := by
    rw [List.length_drop]
    omega
  have hcopy : memcpy s.outBuf s.curr rd = some (out ++ rd ++ (s.outBuf.drop s.curr).drop rd.length) := by
    have happend := memcpy_append out hfree
    rw [← hsplit, ← h.curr] at happend
    exact happend
  refine ⟨out ++ rd ++ (s.outBuf.drop s.curr).drop rd.length, ?_, ?_, ?_⟩
  · unfold receive
    rw [if_pos ⟨by omega, by omega⟩]
    exact hcopy
  · have hlen := congrArg List.length hsplit
    rw [List.length_append] at hlen
    rw [List.length_append, List.length_append, List.length_drop]
    omega
  · rw [h.curr, ← List.length_append, List.take_left]

/-- A round, whatever part of the request is answered. -/
theorem round_collects (junk : Junk) (rd : Bytes) (h : s.Collects out) (hrd : rd.length ≤ s.request) :
    ∃ s', s.round junk rd = some s' ∧ s'.Collects (out ++ rd) := by
  obtain ⟨b, hb, hlen, htake⟩ := receive_eq h hrd
  obtain ⟨-, hfits⟩ := h.fits
  have hpos : (0 : Int) ≤ EXEC_BLEN := by decide
  obtain ⟨curr, hcurr⟩ : ∃ curr, curr = s.curr + rd.length := ⟨_, rfl⟩
  obtain ⟨tread, htread⟩ : ∃ tread, tread = s.nextTread rd.length curr := ⟨_, rfl⟩
  have hnext : EXEC_BLEN ≤ tread := htread ▸ le_nextTread h.least _ _
  have hsize : (((curr : Int) + tread).toNat : Int) = curr + tread := Int.toNat_of_nonneg (by omega)
  refine ⟨{ outBuf := resize junk b (curr + tread).toNat, curr, tread }, ?_, ?_, ?_, hnext, ?_⟩
  · subst hcurr htread
    unfold round
    rw [hb]
    rfl
  · rw [hcurr, List.length_append, h.curr]
  · have hb' : curr ≤ b.length := by omega
    have hsize' : curr ≤ ((curr : Int) + tread).toNat := by omega
    exact (take_resize junk b _ hb' hsize').trans (hcurr ▸ htake)
  · rw [length_resize]
    exact hsize

/-- `read` answers at least one byte each time, and no more than it was asked for. -/
def Delivered (junk : Junk) : ChildOutput → List Bytes → Prop
  | _, [] => True
  | s, rd :: reads =>
    rd ≠ [] ∧ rd.length ≤ s.request ∧ ∀ s', s.round junk rd = some s' → Delivered junk s' reads

theorem Delivered.left {pre post : List Bytes} (h : Delivered junk s (pre ++ post)) : Delivered junk s pre := by
  induction pre generalizing s with
  | nil => trivial
  | cons rd pre ih => exact ⟨h.1, h.2.1, fun s' hs' => ih (h.2.2 s' hs')⟩

theorem loop_collects {reads : List Bytes} (h : s.Collects out) (hreads : Delivered junk s reads) :
    ∃ s', s.loop junk (reads.map some) = .ok s' ∧ s'.Collects (out ++ reads.flatten) := by
  induction reads generalizing s out with
  | nil =>
    refine ⟨s, rfl, ?_⟩
    rw [List.flatten_nil, List.append_nil]
    exact h
  | cons rd reads ih =>
    obtain ⟨hne, hrd, hrest⟩ := hreads
    obtain ⟨s₁, hround, hs₁⟩ := round_collects junk rd h hrd
    obtain ⟨s', hloop, hs'⟩ := ih hs₁ (hrest s₁ hround)
    refine ⟨s', ?_, ?_⟩
    · rw [List.map_cons, loop, if_neg hne, hround]
      exact hloop
    · rw [List.flatten_cons, ← List.append_assoc]
      exact hs'

/-- The null is written behind what was read, and the block ends with it. -/
theorem finish_eq (h : s.Collects out) : s.finish junk = some (out ++ [0], out.length + 1) := by
  obtain ⟨-, hfits⟩ := h.fits
  have hleast := h.least
  have hroom := h.room
  unfold EXEC_BLEN at hleast
  have hlt : s.curr < s.outBuf.length := by omega
  have hblock : resize junk (s.outBuf.set s.curr 0) (s.curr + 1) = out ++ [0] := by
    rw [← List.take_length (l := resize junk _ _), length_resize,
      take_resize junk _ _ (by rw [List.length_set]; omega) (Nat.le_refl _), List.take_add_one, List.take_set,
      List.set_eq_of_length_le (by rw [List.length_take]; omega), h.written, List.getElem?_set_self hlt]
    rfl
  unfold finish
  rw [poke_eq hlt, Option.bind_eq_bind, Option.bind_some, hblock, h.curr]

end ChildOutput

open ChildOutput

variable {junk : Junk}

/-- Whatever parts `read` answers, everything it is asked for fits in front of the last byte of the block, and
`rim_read_child` answers all that was read, a null, and their length. -/
theorem rimReadChild_collects {reads : List Bytes} (h : Delivered junk (ChildOutput.start junk) reads) :
    (∀ pre post, reads = pre ++ post → ∃ s : ChildOutput,
        (ChildOutput.start junk).loop junk (pre.map some) = .ok s ∧ 0 < s.request ∧
          s.curr + s.request < s.outBuf.length) ∧
      rimReadChild junk (reads.map some) = .ok (reads.flatten ++ [0], reads.flatten.length + 1) := by
  constructor
  · rintro pre post rfl
    obtain ⟨s, hloop, hs⟩ := loop_collects (start_collects junk) h.left
    exact ⟨s, hloop, hs.fits⟩
  · obtain ⟨s, hloop, hs⟩ := loop_collects (start_collects junk) h
    rw [rimReadChild, hloop, Lib.ok_bind, finish_eq hs]
    rfl

theorem rimReadChild_collects_two :
    rimReadChild (fun _ _ => 7) ([ascii "ab", ascii "c"].map some) = .ok (ascii "abc" ++ [0], 4) := by
  have hreads : Delivered (fun _ _ => 7) (ChildOutput.start fun _ _ => 7) [ascii "ab", ascii "c"] := ?_
  · exact (rimReadChild_collects hreads).2
  refine ⟨by decide, by decide, fun s' hs' => ⟨by decide, ?_, fun _ _ => trivial⟩⟩
  obtain ⟨s₁, hround, hs₁⟩ := round_collects (fun _ _ => 7) (ascii "ab") (start_collects fun _ _ => 7)
    (by decide)
  obtain rfl := Option.some.inj (hround.symm.trans hs')
  have hfits := hs₁.least
  unfold EXEC_BLEN at hfits
  show ((ascii "c").length : Int) ≤ s₁.tread - 1
  have hone : (ascii "c").length = 1 := rfl
  omega

end RimStone
