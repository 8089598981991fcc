import Mathlib.Logic.Relation

/-!
# Runs of a step relation

A system is a step relation `step : σ → ι → σ → Prop`: in state `s`, input `i`
may lead to `s'`. `GuardedRun step guard s is s'` is a run from `s` to `s'`
over the inputs `is` in which every step is taken in a state where `guard`
allows its input. An unguarded run is the guard that allows everything.

The one rule is `GuardedRun.invariant`: what holds at the start and is kept by
every guarded step holds at the end, and so in every state on the way, since a
prefix of a run is a run.
-/

namespace RimStone.Lib

universe u v w x

section Runs

variable {σ : Type u} {ι : Type v}

/-- A run whose every step meets the guard in the state it is taken in. -/
inductive GuardedRun (step : σ → ι → σ → Prop) (guard : σ → ι → Prop) :
    σ → List ι → σ → Prop
  | nil (s : σ) : GuardedRun step guard s [] s
  | cons {s s' s'' : σ} {i : ι} {is : List ι} :
      guard s i → step s i s' → GuardedRun step guard s' is s'' →
      GuardedRun step guard s (i :: is) s''

abbrev Run (step : σ → ι → σ → Prop) : σ → List ι → σ → Prop :=
  GuardedRun step fun _ _ => True

variable {step : σ → ι → σ → Prop} {guard guard' : σ → ι → Prop}

/-- The run rule: what every guarded step keeps, every guarded run keeps. -/
theorem GuardedRun.invariant {P : σ → Prop} (hstep : ∀ {s s' i}, P s → guard s i → step s i s' → P s')
    {s s' : σ} {is : List ι} (hrun : GuardedRun step guard s is s') (hs : P s) : P s' := by
  induction hrun with
  | nil => exact hs
  | cons hg h _ ih => exact ih (hstep hs hg h)

/-- The run rule for a relation to something that is computed along the run. -/
theorem GuardedRun.foldl {γ : Type w} {P : σ → γ → Prop} {f : γ → ι → γ}
    (hstep : ∀ {s s' i g}, P s g → guard s i → step s i s' → P s' (f g i))
    {s s' : σ} {is : List ι} (hrun : GuardedRun step guard s is s') {g : γ} (hs : P s g) :
    P s' (is.foldl f g) := by
  induction hrun generalizing g with
  | nil => exact hs
  | cons hg h _ ih => exact ih (hstep hs hg h)

/-- The run rule for what depends on the steps taken so far. -/
theorem GuardedRun.history {P : σ → List ι → Prop}
    (hstep : ∀ {s s' i is}, P s is → guard s i → step s i s' → P s' (is ++ [i]))
    {s s' : σ} {is : List ι} (hrun : GuardedRun step guard s is s') (hs : P s []) : P s' is := by
  have hjs : ∀ js, P s js → P s' (js ++ is) := by
    clear hs
    induction hrun with
    | nil =>
      intro js hs
      rw [List.append_nil]
      exact hs
    | cons hg h _ ih =>
      intro js hs
      have hnext := ih _ (hstep hs hg h)
      rw [List.append_assoc, List.singleton_append] at hnext
      exact hnext
  exact hjs [] hs

/-- The answers `o` of a list of events are those of `spec`, which is then in `g'`. -/
def Answers {γ : Type w} {ω : Type x} (spec : γ → ι → γ × ω) : γ → List (ι × ω) → γ → Prop
  | g, [], g' => g' = g
  | g, (i, o) :: evs, g' => o = (spec g i).2 ∧ Answers spec (spec g i).1 evs g'

/-- The run rule for a system that answers: where every guarded step answers as `spec` does,
every guarded run does. -/
theorem GuardedRun.answers {γ : Type w} {ω : Type x} {step : σ → ι × ω → σ → Prop} {guard : σ → ι × ω → Prop}
    {spec : γ → ι → γ × ω} {R : σ → γ → Prop}
    (hstep : ∀ {s s' : σ} {ev : ι × ω} {g : γ}, R s g → guard s ev → step s ev s' →
      ev.2 = (spec g ev.1).2 ∧ R s' (spec g ev.1).1)
    {s s' : σ} {evs : List (ι × ω)} (hrun : GuardedRun step guard s evs s') {g : γ} (hs : R s g) :
    ∃ g', Answers spec g evs g' ∧ R s' g' := by
  induction hrun generalizing g with
  | nil => exact ⟨g, rfl, hs⟩
  | cons hg h _ ih =>
    obtain ⟨hout, hnext⟩ := hstep hs hg h
    obtain ⟨g', hans, hlast⟩ := ih hnext
    exact ⟨g', ⟨hout, hans⟩, hlast⟩

/-- From related states, and for the same inputs, the answers look the same, if each one does. -/
theorem Answers.alike {γ : Type w} {ω : Type x} {β : Type w} {spec : γ → ι → γ × ω} {look : ω → β} (rel : γ → γ → Prop)
    (hstep : ∀ {g h i}, rel g h → look (spec g i).2 = look (spec h i).2 ∧ rel (spec g i).1 (spec h i).1)
    {g g' h h' : γ} {evs evs' : List (ι × ω)} (hg : Answers spec g evs g') (hh : Answers spec h evs' h') (hrel : rel g h)
    (hsame : evs'.map (·.1) = evs.map (·.1)) :
    evs'.map (fun ev => look ev.2) = evs.map (fun ev => look ev.2) := by
  induction evs generalizing g h evs' with
  | nil => rw [List.map_eq_nil_iff.mp hsame]
  | cons ev evs ih =>
    obtain ⟨ev', evs', rfl⟩ := List.exists_cons_of_ne_nil (l := evs') (by
      rintro rfl
      cases hsame)
    obtain ⟨hinput, hsame⟩ := List.cons.inj hsame
    dsimp only at hinput
    obtain ⟨hout, hg⟩ := hg
    obtain ⟨hout', hh⟩ := hh
    obtain ⟨hlook, hnext⟩ := hstep (i := ev.1) hrel
    rw [hinput] at hout' hh
    rw [List.map_cons, List.map_cons, ih hg hh hnext hsame, hout, hout', hlook]

theorem GuardedRun.mono (hle : ∀ s i, guard s i → guard' s i)
    {s s' : σ} {is : List ι} (hrun : GuardedRun step guard s is s') :
    GuardedRun step guard' s is s' := by
  induction hrun with
  | nil => exact .nil _
  | cons hg h _ ih => exact .cons (hle _ _ hg) h ih

/-- A simulation by functions: of the states, and of the inputs. -/
theorem GuardedRun.map {τ : Type w} {κ : Type x} {step' : τ → κ → τ → Prop} {guard' : τ → κ → Prop} (f : σ → τ)
    (g : ι → κ) (hstep : ∀ {s s' i}, guard s i → step s i s' → guard' (f s) (g i) ∧ step' (f s) (g i) (f s'))
    {s s' : σ} {is : List ι} (hrun : GuardedRun step guard s is s') :
    GuardedRun step' guard' (f s) (is.map g) (f s') := by
  induction hrun with
  | nil => exact .nil _
  | cons hg h _ ih => exact .cons (hstep hg h).1 (hstep hg h).2 ih

theorem GuardedRun.append {s s' s'' : σ} {is js : List ι}
    (h : GuardedRun step guard s is s') (h' : GuardedRun step guard s' js s'') :
    GuardedRun step guard s (is ++ js) s'' := by
  induction h with
  | nil => exact h'
  | cons hg hs _ ih => exact .cons hg hs (ih h')

/-- The run of a system whose steps are computed, and always lead somewhere. -/
theorem Run.of_foldl (next : σ → ι → σ) (s : σ) (is : List ι) :
    Run (fun s i s' => s' = next s i) s is (is.foldl next s) := by
  induction is generalizing s with
  | nil => exact .nil s
  | cons i is ih => exact .cons trivial rfl (ih (next s i))

/-- A run of a system whose steps are computed. -/
theorem GuardedRun.of_foldlM {next : σ → ι → Option σ} {guard : σ → ι → Prop} {is : List ι} {s s' : σ}
    (h : is.foldlM (fun s i => next s i) s = some s') (hguard : ∀ s i, guard s i) :
    GuardedRun (fun s i s' => next s i = some s') guard s is s' := by
  induction is generalizing s with
  | nil =>
    obtain rfl := Option.some.inj h
    exact .nil _
  | cons i is ih =>
    rw [List.foldlM_cons] at h
    obtain ⟨t, hnext, hrest⟩ := Option.bind_eq_some_iff.mp h
    exact .cons (hguard s i) hnext (ih hrest)

end Runs

/-!
## Systems that come to an end

A step relation whose steps all decrease a measure leads from each state to one that has no
step. To show that a system can block it is enough to keep, in all states, what a blocked state
is told by.
-/

section Final

open Relation

variable {σ : Type*} {step : σ → σ → Prop} {s s' : σ}

/-- What holds at the start and is kept by every step holds wherever the steps lead. -/
theorem reaches_invariant {P : σ → Prop} (hstep : ∀ s s', P s → step s s' → P s')
    (h : ReflTransGen step s s') (hs : P s) : P s' := by
  induction h with
  | refl => exact hs
  | tail _ hlast ih => exact hstep _ _ ih hlast

/-- Steps that decrease a measure lead to a state without a step. -/
theorem exists_final (measure : σ → Nat) (hdec : ∀ s s', step s s' → measure s' < measure s) (s : σ) :
    ∃ s', ReflTransGen step s s' ∧ ∀ t, ¬ step s' t := by
  induction h : measure s using Nat.strongRecOn generalizing s with
  | ind n ih =>
    by_cases hnext : ∃ t, step s t
    · obtain ⟨t, ht⟩ := hnext
      obtain ⟨s', hreach, hfinal⟩ := ih (measure t) (h ▸ hdec s t ht) t rfl
      exact ⟨s', hreach.head ht, hfinal⟩
    · exact ⟨s, .refl, fun t ht => hnext ⟨t, ht⟩⟩

/-- A system whose steps decrease a measure, and keep something until the end. -/
theorem exists_final_invariant {P : σ → Prop} (measure : σ → Nat)
    (hdec : ∀ s s', step s s' → measure s' < measure s) (hstep : ∀ s s', P s → step s s' → P s') (hs : P s) :
    ∃ s', ReflTransGen step s s' ∧ P s' ∧ ∀ t, ¬ step s' t := by
  obtain ⟨s', hreach, hfinal⟩ := exists_final measure hdec s
  exact ⟨s', hreach, reaches_invariant hstep hreach hs, hfinal⟩

end Final

end RimStone.Lib
