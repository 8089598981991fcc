import Mathlib.Data.List.Basic

/-!
# A stream in pieces

A source answers a read with some of the bytes that have arrived, as many as were asked
for at most, or with nothing because the read was interrupted or failed. `Answer.read`
reads once; `Steady` is a source that never fails and has not ended before its last
byte. Whatever the pieces, a read of a steady source gives bytes from the front of its
stream and leaves the rest of it.

The other way round, a sink takes some of the bytes it is offered. `Taken.write` offers
them until all were taken or the sink fails: what was taken is the front of them.
-/

namespace RimStone.Lib

inductive Answer (α : Type*) where
  /-- Bytes that have arrived; none if the stream has ended. -/
  | piece (b : List α)
  /-- The read is to be made again. -/
  | interrupted
  /-- The read failed. -/
  | failed
  deriving DecidableEq, Repr

namespace Answer

variable {α : Type*} {s : List (Answer α)} {n : Nat}

def bytes : Answer α → List α
  | piece b => b
  | interrupted => []
  | failed => []

def delivered (s : List (Answer α)) : List α := s.flatMap bytes

/-- One read of `n` bytes at most, and the source after it. -/
def read (n : Nat) : List (Answer α) → Answer α × List (Answer α)
  | [] => (piece [], [])
  | piece b :: s => if b.length ≤ n then (piece b, s) else (piece (b.take n), piece (b.drop n) :: s)
  | interrupted :: s => (interrupted, s)
  | failed :: s => (failed, s)

def Steady (s : List (Answer α)) : Prop := ∀ a ∈ s, a ≠ failed ∧ a ≠ piece []

theorem Steady.tail {a : Answer α} (h : Steady (a :: s)) : Steady s := by
  intro x hx
  exact h x (List.mem_cons_of_mem _ hx)

@[simp] theorem delivered_nil : delivered ([] : List (Answer α)) = [] := rfl

@[simp] theorem delivered_cons (a : Answer α) (s : List (Answer α)) :
    delivered (a :: s) = a.bytes ++ delivered s := rfl

/-- A read of a steady source is interrupted, or gives the front of the stream. -/
theorem read_steady (h : Steady s) (hn : 0 < n) (hs : delivered s ≠ []) :
    (∃ s', read n s = (interrupted, s') ∧ delivered s' = delivered s ∧ Steady s' ∧ s'.length < s.length) ∨
      ∃ b s', read n s = (piece b, s') ∧ b ≠ [] ∧ b.length ≤ n ∧ delivered s = b ++ delivered s' ∧
        Steady s' ∧ (s'.length < s.length ∨ b.length = n) := by
  cases s with
  | nil => exact absurd delivered_nil hs
  | cons a s =>
    cases a with
    | interrupted => exact Or.inl ⟨s, rfl, rfl, h.tail, Nat.lt_succ_self _⟩
    | failed => exact absurd rfl (h _ List.mem_cons_self).1
    | piece b =>
      have hb : b ≠ [] := by
        intro hb
        apply (h _ List.mem_cons_self).2
        rw [hb]
      apply Or.inr
      by_cases hlen : b.length ≤ n
      · refine ⟨b, s, if_pos hlen, hb, hlen, rfl, h.tail, Or.inl (Nat.lt_succ_self _)⟩
      · have htake : (b.take n).length = n := by
          rw [List.length_take]
          omega
        refine ⟨b.take n, piece (b.drop n) :: s, if_neg hlen, ?_, by omega, ?_, ?_, Or.inr htake⟩
        · intro hnil
          rw [hnil, List.length_nil] at htake
          omega
        · simp only [delivered_cons, bytes]
          rw [← List.append_assoc, List.take_append_drop]
        · intro x hx
          cases List.mem_cons.mp hx with
          | inl heq =>
            subst heq
            constructor
            · intro hf
              cases hf
            · intro hp
              have hz := congrArg List.length (Answer.piece.inj hp)
              rw [List.length_drop, List.length_nil] at hz
              omega
          | inr hx => exact h.tail x hx

end Answer

inductive Taken where
  /-- It takes `n` of them, or all if there are no more. -/
  | took (n : Nat)
  /-- It is to be offered them again. -/
  | interrupted
  /-- The write failed. -/
  | failed
  deriving DecidableEq, Repr

namespace Taken

variable {α : Type*}

/-- All of `b` to the sink: the sink after it, what it took, and whether that is all. A
sink that has no more answers takes everything. -/
def write (b : List α) : List Taken → List Taken × List α × Bool
  | [] => ([], b, true)
  | interrupted :: s => write b s
  | failed :: s => (s, [], false)
  | took n :: s =>
    if b.length ≤ n then (s, b, true)
    else
      let (s', rest, all) := write (b.drop n) s
      (s', b.take n ++ rest, all)

/-- What was taken is the front of what was offered. If it is not all, the sink
failed. -/
theorem write_spec (b : List α) (s : List Taken) :
    (write b s).1 <:+ s ∧ (write b s).2.1 <+: b ∧ ((write b s).2.2 = true → (write b s).2.1 = b) ∧
      ((write b s).2.2 = false → failed ∈ s) := by
  induction s generalizing b with
  | nil => exact ⟨List.suffix_rfl, List.prefix_rfl, fun _ => rfl, nofun⟩
  | cons a s ih =>
    cases a with
    | interrupted =>
      obtain ⟨hsuf, hpre, hall, hfail⟩ := ih b
      exact ⟨hsuf.trans (List.suffix_cons _ _), hpre, hall, fun h => List.mem_cons_of_mem _ (hfail h)⟩
    | failed => exact ⟨List.suffix_cons _ _, List.nil_prefix, nofun, fun _ => List.mem_cons_self⟩
    | took n =>
      rw [write]
      by_cases hn : b.length ≤ n
      · rw [if_pos hn]
        exact ⟨List.suffix_cons _ _, List.prefix_rfl, fun _ => rfl, nofun⟩
      · rw [if_neg hn]
        obtain ⟨hsuf, hpre, hall, hfail⟩ := ih (b.drop n)
        refine ⟨hsuf.trans (List.suffix_cons _ _), ?_, ?_, fun h => List.mem_cons_of_mem _ (hfail h)⟩
        · have hfront := List.prefix_append_right_inj (b.take n) |>.mpr hpre
          rw [List.take_append_drop] at hfront
          exact hfront
        · intro h
          show b.take n ++ (write (b.drop n) s).2.1 = b
          rw [hall h, List.take_append_drop]

end Taken

end RimStone.Lib
