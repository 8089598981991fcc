import Mathlib.Order.Bounds.Basic

/-!
# The first place

A search judges one place after another, takes the first that it finds good, and stops where a judgement fails. The
judgements need not be right at all places: `Searches.finds_iff` says at which ones they have to be for the answer
to be the first place that is good.
-/

namespace RimStone.Lib

universe u

variable {ε : Type u} {judge : Nat → Except ε Bool} {p : Nat → Prop} {k : Nat}

/-- The first place with `p`, if there is one. -/
def FirstWhere (p : Nat → Prop) : Option Nat → Prop
  | none => ∀ k, ¬ p k
  | some k => IsLeast {k | p k} k

theorem FirstWhere.zero (h : p 0) : FirstWhere p (some 0) := ⟨h, fun _ _ => Nat.zero_le _⟩

theorem FirstWhere.congr {q : Nat → Prop} {o : Option Nat} (h : FirstWhere p o) (hpq : ∀ k, p k ↔ q k) : FirstWhere q o := by
  cases o with
  | none => exact fun k hk => h k ((hpq k).mpr hk)
  | some m => exact ⟨(hpq m).mp h.1, fun k hk => h.2 ((hpq k).mpr hk)⟩

/-- Places that are counted from a later one. -/
theorem FirstWhere.shift {q : Nat → Prop} {s : Nat} {o : Option Nat} (h : FirstWhere q o) (hle : ∀ k, p k → s ≤ k)
    (hpq : ∀ k, q k ↔ p (s + k)) : FirstWhere p (o.map (s + ·)) := by
  cases o with
  | none =>
    intro k hk
    obtain ⟨j, rfl⟩ := Nat.exists_eq_add_of_le (hle k hk)
    exact h j ((hpq j).mpr hk)
  | some m =>
    refine ⟨(hpq m).mp h.1, fun k hk => ?_⟩
    obtain ⟨j, rfl⟩ := Nat.exists_eq_add_of_le (hle k hk)
    exact Nat.add_le_add_left (h.2 ((hpq j).mpr hk)) s

theorem FirstWhere.succ {o : Option Nat} (hzero : ¬ p 0) (h : FirstWhere (fun k => p (k + 1)) o) :
    FirstWhere p (o.map (· + 1)) := by
  have hshift : FirstWhere p (o.map (1 + ·)) := by
    apply h.shift
    · intro k hk
      exact Nat.one_le_iff_ne_zero.mpr fun hk0 => hzero (hk0 ▸ hk)
    · intro k
      rw [Nat.add_comm]
  simpa only [Nat.add_comm] using hshift

theorem FirstWhere.eq_none {p : Nat → Prop} {o : Option Nat} (h : FirstWhere p o) (hno : ∀ k, ¬ p k) : o = none := by
  cases o with
  | none => rfl
  | some k => exact absurd h.1 (hno k)

theorem FirstWhere.eq_some {p : Nat → Prop} {o : Option Nat} (h : FirstWhere p o) {k : Nat} (hk : IsLeast {k | p k} k) :
    o = some k := by
  cases o with
  | none => exact absurd hk.1 (h k)
  | some m => rw [h.unique hk]

/-- A search that looks at one place after another finds the first that is good. -/
theorem FirstWhere.of_search {α : Type u} (here : List α → Prop) [DecidablePred here] (search : List α → Option Nat)
    (hnil : search [] = if here [] then some 0 else none)
    (hcons : ∀ c s, search (c :: s) = if here (c :: s) then some 0 else (search s).map (· + 1)) (s : List α) :
    FirstWhere (fun k => k ≤ s.length ∧ here (s.drop k)) (search s) := by
  induction s with
  | nil =>
    rw [hnil]
    split_ifs with hhere
    · exact .zero ⟨Nat.le_refl _, hhere⟩
    · rintro k ⟨-, hk⟩
      rw [List.drop_nil] at hk
      exact hhere hk
  | cons c s ih =>
    rw [hcons]
    split_ifs with hhere
    · exact .zero ⟨Nat.zero_le _, hhere⟩
    · apply FirstWhere.succ
      · rintro ⟨-, hzero⟩
        exact hhere hzero
      · apply ih.congr
        intro k
        rw [List.length_cons, List.drop_succ_cons, Nat.succ_le_succ_iff]

def Searches (judge : Nat → Except ε Bool) : Except ε (Option Nat) → Prop
  | .error e => ∃ k, judge k = .error e ∧ ∀ j < k, judge j = .ok false
  | .ok none => ∀ k, judge k = .ok false
  | .ok (some k) => judge k = .ok true ∧ ∀ j < k, judge j = .ok false

def TakenAt (judge : Nat → Except ε Bool) (p : Nat → Prop) (k : Nat) : Prop := judge k = .ok true ∧ p k

/-- A place that is found good if it is, and bad if it is not. -/
def JudgedAt (judge : Nat → Except ε Bool) (p : Nat → Prop) (k : Nat) : Prop :=
  TakenAt judge p k ∨ judge k = .ok false ∧ ¬ p k

/-- All places are judged, up to the first that is taken. -/
def Judged (judge : Nat → Except ε Bool) (p : Nat → Prop) : Prop :=
  ∀ k, JudgedAt judge p k ∨ ∃ j < k, TakenAt judge p j

theorem JudgedAt.taken (h : JudgedAt judge p k) (hk : judge k ≠ .ok false) : TakenAt judge p k :=
  h.resolve_right fun hbad => hk hbad.1

theorem JudgedAt.bad (h : JudgedAt judge p k) (hk : judge k = .ok false) : ¬ p k := by
  obtain ⟨htrue, -⟩ | ⟨-, hp⟩ := h
  · rw [hk] at htrue
    cases htrue
  · exact hp

/-- Where no place before was taken, all of them are judged and bad. -/
theorem Judged.stop (h : Judged judge p) (hbefore : ∀ j < k, judge j = .ok false) : JudgedAt judge p k := by
  refine (h k).resolve_right fun ⟨j, hj, htaken⟩ => ?_
  have hfalse := hbefore j hj
  rw [htaken.1] at hfalse
  cases hfalse

/-- A place that the search reaches is judged if the answer is the first good place. -/
theorem Searches.judgedAt {res : Except ε (Option Nat)} {o : Option Nat} (h : Searches judge res) (hres : res = .ok o)
    (hfirst : FirstWhere p o) (hbefore : ∀ j < k, judge j = .ok false) (hgood : ∀ j < k, ¬ p j) : JudgedAt judge p k := by
  subst hres
  cases o with
  | none => exact .inr ⟨h k, hfirst k⟩
  | some m =>
    obtain ⟨htrue, hpassed⟩ := h
    obtain hlt | rfl | hgt := Nat.lt_trichotomy m k
    · rw [hbefore m hlt] at htrue
      cases htrue
    · exact .inl ⟨htrue, hfirst.1⟩
    · exact .inr ⟨hpassed k hgt, fun hp => Nat.not_le.mpr hgt (hfirst.2 hp)⟩

/-- The answer of a search is the first good place just when all places are judged up to one that is taken. -/
theorem Searches.finds_iff {res : Except ε (Option Nat)} (h : Searches judge res) :
    (∃ o, res = .ok o ∧ FirstWhere p o) ↔ Judged judge p := by
  constructor
  · intro ⟨o, hres, hfirst⟩ k
    by_cases htaken : ∃ j < k, TakenAt judge p j
    · exact .inr htaken
    · left
      -- no place so far is taken, so that all of them are bad, one after another
      have hbad : ∀ j < k, judge j = .ok false ∧ ¬ p j := by
        intro j
        induction j using Nat.strong_induction_on with
        | _ j ih =>
          intro hj
          have hjudged : JudgedAt judge p j :=
            h.judgedAt hres hfirst (fun i hi => (ih i hi (by omega)).1) fun i hi => (ih i hi (by omega)).2
          exact hjudged.resolve_left fun ht => htaken ⟨j, hj, ht⟩
      exact h.judgedAt hres hfirst (fun j hj => (hbad j hj).1) fun j hj => (hbad j hj).2
  · intro hjudged
    cases res with
    | error e =>
      obtain ⟨k, herror, hbefore⟩ := h
      have htaken := (hjudged.stop hbefore).taken (by rw [herror]; simp)
      rw [htaken.1] at herror
      cases herror
    | ok o =>
      refine ⟨o, rfl, ?_⟩
      cases o with
      | none => exact fun k => (hjudged.stop fun j _ => h j).bad (h k)
      | some m =>
        obtain ⟨htrue, hbefore⟩ := h
        have htaken := (hjudged.stop hbefore).taken (by rw [htrue]; simp)
        refine ⟨htaken.2, fun k hk => Nat.not_lt.mp fun hlt => ?_⟩
        exact (hjudged.stop fun j hj => hbefore j (by omega)).bad (hbefore k hlt) hk

end RimStone.Lib
