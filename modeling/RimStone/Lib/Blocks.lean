import Mathlib.Logic.Function.Basic
import Mathlib.Tactic.SplitIfs

/-!
# Names in nested blocks

Blocks open and close, and names are declared in the innermost open one. A name is visible where an open block declares
it, with the value of the innermost such block.

A store may keep what closed blocks declared, if it can tell them from those that are open: it holds a value under a
name, the level of its block and the number of blocks of this level that were closed before. Nothing is taken from it
when a block closes, only that number goes up. `Represents` says that the store has what the open blocks declare, and
nothing for blocks to come; opening, closing and declaring keep it, and a search from the innermost level out finds
what is visible.
-/

namespace RimStone.Lib.Blocks

universe u v

variable {N : Type u} {V : Type v} [DecidableEq N]

/-- The open blocks, innermost first, with what each one declares. -/
abbrev Scopes (N : Type u) (V : Type v) := List (List (N × V))

def visible (σ : Scopes N V) (n : N) : Option V := σ.findSome? (List.lookup n)

def enter (σ : Scopes N V) : Scopes N V := [] :: σ

/-- The innermost block closes; the outermost one stays open. -/
def leave : Scopes N V → Option (Scopes N V)
  | _ :: block :: σ => some (block :: σ)
  | _ => none

def declare (n : N) (v : V) : Scopes N V → Scopes N V
  | block :: σ => ((n, v) :: block) :: σ
  | [] => []

/-- What is held under a level, a number of closed blocks and a name. -/
abbrev Store (N : Type u) (V : Type v) := Nat → Nat → N → Option V

/-- The search from the level below `lev` out. -/
def search (store : Store N V) (closed : Nat → Nat) (n : N) : Nat → Option V
  | 0 => none
  | lev + 1 => (store lev (closed lev) n).or (search store closed n lev)

def Held (store : Store N V) (closed : Nat → Nat) : Scopes N V → Prop
  | [] => True
  | block :: σ => (∀ n, store σ.length (closed σ.length) n = block.lookup n) ∧ Held store closed σ

/-- The store has what the open blocks declare, and nothing for the blocks to come. -/
structure Represents (store : Store N V) (closed : Nat → Nat) (σ : Scopes N V) : Prop where
  held : Held store closed σ
  fresh : ∀ lev r n, closed lev < r ∨ closed lev = r ∧ σ.length ≤ lev → store lev r n = none

variable {store store' : Store N V} {closed closed' : Nat → Nat} {σ : Scopes N V} {block : List (N × V)} {n : N} {v : V}

theorem lookup_cons_ite (m : N) : ((n, v) :: block).lookup m = if m = n then some v else block.lookup m := by
  rw [List.lookup_cons]
  split_ifs with h
  · subst h
    rw [beq_self_eq_true]
  · rw [beq_eq_false_iff_ne.mpr h]

theorem visible_declare (m : N) :
    visible (declare n v (block :: σ)) m = if m = n then some v else visible (block :: σ) m := by
  simp only [visible, declare, List.findSome?_cons, lookup_cons_ite]
  split_ifs <;> rfl

theorem search_eq (h : Held store closed σ) (n : N) : search store closed n σ.length = visible σ n := by
  induction σ with
  | nil => rfl
  | cons block σ ih =>
    obtain ⟨hblock, hrest⟩ := h
    have hhead := hblock n
    simp only [List.length_cons, search, visible, List.findSome?_cons, hhead, ih hrest]
    cases block.lookup n <;> rfl

omit [DecidableEq N] in
theorem search_congr (h : ∀ lev r, store' lev r n = store lev r n) (lev : Nat) :
    search store' closed n lev = search store closed n lev := by
  induction lev with
  | zero => rfl
  | succ lev ih => rw [search, search, h, ih]

/-- What is held depends only on the levels of the open blocks. -/
theorem Held.congr (h : Held store closed σ) (hstore : ∀ lev < σ.length, ∀ r n, store' lev r n = store lev r n)
    (hclosed : ∀ lev < σ.length, closed' lev = closed lev) : Held store' closed' σ := by
  induction σ with
  | nil => trivial
  | cons block σ ih =>
    obtain ⟨hblock, hrest⟩ := h
    have hlast : σ.length < (block :: σ).length := Nat.lt_succ_self _
    refine ⟨fun n => ?_, ih hrest (fun lev hlev => hstore lev (Nat.lt_succ_of_lt hlev)) fun lev hlev =>
      hclosed lev (Nat.lt_succ_of_lt hlev)⟩
    rw [hclosed _ hlast, hstore _ hlast]
    exact hblock n

theorem represents_start : Represents (fun _ _ _ => none) closed ([[]] : Scopes N V) where
  held := ⟨fun _ => rfl, trivial⟩
  fresh := fun _ _ _ _ => rfl

theorem Represents.enter (h : Represents store closed σ) : Represents store closed (enter σ) where
  held := ⟨fun n => h.fresh σ.length _ n (.inr ⟨rfl, Nat.le_refl _⟩), h.held⟩
  fresh := by
    intro lev r n hnext
    refine h.fresh lev r n (hnext.imp_right fun hr => ⟨hr.1, ?_⟩)
    exact Nat.le_of_succ_le hr.2

/-- When a block closes, its names are those of a block that is not open, and the next block of its level has none. -/
theorem Represents.leave (h : Represents store closed (block :: σ)) :
    Represents store (Function.update closed σ.length (closed σ.length + 1)) σ where
  held := by
    refine h.held.2.congr (fun _ _ _ _ => rfl) fun lev hlev => ?_
    rw [Function.update_of_ne (Nat.ne_of_lt hlev)]
  fresh := by
    intro lev r n hnext
    apply h.fresh
    by_cases hlev : lev = σ.length
    · subst hlev
      rw [Function.update_self] at hnext
      left
      omega
    · rw [Function.update_of_ne hlev] at hnext
      refine hnext.imp_right fun hr => ⟨hr.1, ?_⟩
      obtain ⟨-, hle⟩ := hr
      rw [List.length_cons]
      omega

/-- A name is declared where the store gets its value, under the level of the innermost block. -/
theorem Represents.declare (h : Represents store closed (block :: σ))
    (hstore : ∀ lev r m, store' lev r m =
      if lev = σ.length ∧ r = closed σ.length ∧ m = n then some v else store lev r m) :
    Represents store' closed (declare n v (block :: σ)) where
  held := by
    obtain ⟨hblock, hrest⟩ := h.held
    refine ⟨fun m => ?_, hrest.congr (fun lev hlev r m => ?_) fun _ _ => rfl⟩
    · rw [hstore, hblock, lookup_cons_ite]
      simp only [true_and]
    · rw [hstore, if_neg fun hall => Nat.ne_of_lt hlev hall.1]
  fresh := by
    intro lev r m hnext
    have hnot : ¬ (lev = σ.length ∧ r = closed σ.length ∧ m = n) := by
      rintro ⟨rfl, rfl, -⟩
      obtain hlt | ⟨-, hle⟩ := hnext
      · exact Nat.lt_irrefl _ hlt
      · exact Nat.not_succ_le_self _ hle
    rw [hstore, if_neg hnot]
    exact h.fresh lev r m hnext

end RimStone.Lib.Blocks
