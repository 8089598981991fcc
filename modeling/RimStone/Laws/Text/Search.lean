import RimStone.Laws.Text.Replace

/-!
# The search of a whole subject

A pattern says where a match ends that begins at a place of a text, and it may look at the text around the place. The
matcher is given what is left of the subject, as a text of its own: it does not see what is in front. An empty match
leaves the search where it is, and the end of the subject is not searched. So the matches are those of the subject just
where the rest alone has, at each place that the search gets to, the next match of the whole.
-/

namespace RimStone

open RimStone.Lib

/-! ## Patterns -/

/-- Where the match ends that begins at a place of a text. -/
abbrev Pattern := Bytes → Nat → Option Nat

/-- The first match of a text that begins at `k` or behind. -/
def firstFrom (p : Pattern) (t : Bytes) (k : Nat) : Option (Nat × Nat) :=
  (List.range' k (t.length + 1 - k)).findSome? fun i => (p t i).map (i, ·)

/-- Matches end in the text, and not in front of where they begin. -/
def Within (p : Pattern) : Prop := ∀ t i e, p t i = some e → i ≤ e ∧ e ≤ t.length

/-- The matcher finds the leftmost match of a text. -/
structure Leftmost (p : Pattern) (sub : Nat) (exec : Regexec) : Prop where
  subexp {t : Bytes} {subexp : List Regmatch} : exec t = some subexp → Subexp sub t.length subexp
  miss {t : Bytes} : exec t = none → firstFrom p t 0 = none
  hit {t : Bytes} {subexp : List Regmatch} : exec t = some subexp →
    ∃ a b : Nat, firstFrom p t 0 = some (a, b) ∧ subexp[0]? = some ⟨a, b⟩

variable {p : Pattern} {exec : Regexec} {sub : Nat} {single : Bool}

theorem firstFrom_within (hp : Within p) {t : Bytes} {k a b : Nat} (h : firstFrom p t k = some (a, b)) :
    k ≤ a ∧ a ≤ b ∧ b ≤ t.length := by
  obtain ⟨i, hi, hmatch⟩ := List.exists_of_findSome?_eq_some h
  obtain ⟨e, he, hpair⟩ := Option.map_eq_some_iff.mp hmatch
  obtain ⟨rfl, rfl⟩ := Prod.mk.inj hpair
  obtain ⟨hki, -⟩ := List.mem_range'_1.mp hi
  exact ⟨hki, hp t i e he⟩

theorem Leftmost.matcher (hp : Within p) (h : Leftmost p sub exec) : Matcher sub exec where
  subexp := h.subexp
  whole := by
    intro t subexp m hfound hm
    obtain ⟨a, b, hfirst, hzero⟩ := h.hit hfound
    obtain rfl := Option.some.inj (hm.symm.trans hzero)
    obtain ⟨-, hab, hb⟩ := firstFrom_within hp hfirst
    exact ⟨Int.natCast_nonneg a, Int.ofNat_le.mpr hab, Int.ofNat_le.mpr hb⟩

/-! ## The matches of a subject -/

/-- Where the next match is looked for: behind the last, and a byte further where that is empty. -/
def nextFrom (a b : Nat) : Nat := if a = b then b + 1 else b

/-- The matches of the whole subject from `k` on, one behind the other; only the first where there is to be one. -/
inductive Successive (p : Pattern) (single : Bool) (s : Bytes) : Nat → List (Nat × Nat) → Prop
  | done {k : Nat} : firstFrom p s k = none → Successive p single s k []
  | one {k a b : Nat} : firstFrom p s k = some (a, b) → single = true → Successive p single s k [(a, b)]
  | more {k a b : Nat} {ms : List (Nat × Nat)} : firstFrom p s k = some (a, b) → single = false →
      Successive p single s (nextFrom a b) ms → Successive p single s k ((a, b) :: ms)

/-- The matches at which the loop stops, where `look` is what is left of the subject from `r` on. -/
inductive Stops (exec : Regexec) (single : Bool) : Bytes → Nat → List (Nat × Nat) → Prop
  | done {look : Bytes} {r : Nat} : look = [] ∨ exec look = none → Stops exec single look r []
  | one {look : Bytes} {r : Nat} {subexp : List Regmatch} {m : Regmatch} : look ≠ [] → exec look = some subexp →
      subexp[0]? = some m → single = true → Stops exec single look r [(r + m.so.toNat, r + m.eo.toNat)]
  | more {look : Bytes} {r : Nat} {subexp : List Regmatch} {m : Regmatch} {ms : List (Nat × Nat)} : look ≠ [] →
      exec look = some subexp → subexp[0]? = some m → single = false →
      Stops exec single (look.drop m.eo.toNat) (r + m.eo.toNat) ms →
      Stops exec single look r ((r + m.so.toNat, r + m.eo.toNat) :: ms)

/-- A text that is the subject from `k` on, but for what the matches are. -/
inductive Changed (s : Bytes) : Nat → List (Nat × Nat) → Bytes → Prop
  | rest {k : Nat} : Changed s k [] (s.drop k)
  | change {k a b : Nat} {ms : List (Nat × Nat)} {out : Bytes} (x : Bytes) : Changed s b ms out →
      Changed s k ((a, b) :: ms) ((s.drop k).take (a - k) ++ (x ++ out))

/-- `rim_regex` ends and stops at the matches of the subject, whose number it returns, and it changes these and nothing
else. -/
def SearchesAll (p : Pattern) (exec : Regexec) (sub : Nat) (single : Bool) (lookHere : Bytes) : Prop :=
  ∃ ms, Successive p single (cstr lookHere) 0 ms ∧ Stops exec single (cstr lookHere) 0 ms ∧ ∃ fuel,
    rimRegex exec sub lookHere none single fuel = .ok (ms.length, none) ∧
      ∀ template, ∃ out, rimRegex exec sub lookHere (some template) single fuel = .ok (ms.length, some out) ∧
        Changed (cstr lookHere) 0 ms out

/-! ## What the loop comes to -/

/-- With a replacement, the text between the matches is what it was. -/
theorem Stops.replaces {s look : Bytes} {r : Nat} {ms : List (Nat × Nat)} (h : Stops exec single look r ms)
    (hlook : look = s.drop r) (expand : Bytes → List Regmatch → Bytes) :
    ∃ out, Replaces exec expand single look ms.length out ∧ Changed s r ms out := by
  induction h with
  | @done look r hdone =>
    obtain rfl := hlook
    exact ⟨_, .done hdone, .rest⟩
  | @one look r subexp m hnil hfound hm hsingle =>
    obtain rfl := hlook
    refine ⟨_, .one hnil hfound hm hsingle, ?_⟩
    rw [List.drop_drop]
    have hchanged := @Changed.change s r (r + m.so.toNat) (r + m.eo.toNat) [] _ (expand (s.drop r) subexp) .rest
    rwa [Nat.add_sub_cancel_left] at hchanged
  | @more look r subexp m ms hnil hfound hm hsingle _ ih =>
    obtain rfl := hlook
    obtain ⟨out, hreplaces, hchanged⟩ := ih (List.drop_drop)
    refine ⟨_, .more hnil hfound hm hsingle hreplaces, ?_⟩
    have h := @Changed.change s r (r + m.so.toNat) (r + m.eo.toNat) ms _ (expand (s.drop r) subexp) hchanged
    rwa [Nat.add_sub_cancel_left] at h

/-- Without a replacement, the matches are counted. -/
theorem Stops.counts (hexec : Matcher sub exec) {look : Bytes} {k : Nat} {ms : List (Nat × Nat)}
    (h : Stops exec single look k ms) {fuel tot : Nat} (r : RegexRes) (hfuel : ms.length < fuel) :
    ∃ rest, regexLoop exec sub none single fuel look tot r = .ok (tot + ms.length, rest, r) := by
  obtain ⟨fuel, rfl⟩ := Nat.exists_eq_succ_of_ne_zero (Nat.ne_zero_of_lt hfuel)
  have hmatch : ∀ {look subexp m}, exec look = some subexp → subexp[0]? = some m →
      regexMatch sub none look subexp r = .ok (look.drop m.eo.toNat, r) := by
    intro look subexp m hfound hm
    unfold regexMatch
    rw [hm]
    change (lookBehind look m.eo >>= _) = _
    rw [lookBehind_eq (hexec.whole hfound hm)]
    rfl
  induction h generalizing fuel tot with
  | @done look k hdone =>
    refine ⟨look, ?_⟩
    rw [regexLoop]
    rcases hdone with hnil | hnone
    · exact if_pos hnil
    · split
      · rfl
      · rw [hnone]
        rfl
  | @one look k subexp m hnil hfound hm hsingle =>
    refine ⟨look.drop m.eo.toNat, ?_⟩
    rw [regexLoop, if_neg hnil, hfound]
    dsimp only
    rw [hmatch hfound hm, ok_bind]
    exact if_pos hsingle
  | @more look k subexp m ms hnil hfound hm hsingle _ ih =>
    obtain ⟨fuel, rfl⟩ := Nat.exists_eq_succ_of_ne_zero (Nat.ne_zero_of_lt (Nat.lt_of_succ_lt_succ hfuel))
    obtain ⟨rest, hloop⟩ := @ih (tot + 1) fuel (Nat.lt_of_succ_lt_succ hfuel)
    refine ⟨rest, ?_⟩
    rw [regexLoop, if_neg hnil, hfound]
    dsimp only
    rw [hmatch hfound hm, ok_bind]
    dsimp only
    rw [if_neg (by rw [hsingle]; exact Bool.false_ne_true), hloop, List.length_cons, Nat.add_assoc, Nat.add_comm 1]

/-! ## Where the rest alone is enough -/

/-- The first match of the rest from `r` on, as a text of its own; the end is not searched. -/
def alone (p : Pattern) (s : Bytes) (r : Nat) : Option (Nat × Nat) :=
  if s.drop r = [] then none else (firstFrom p (s.drop r) 0).map fun m => (r + m.1, r + m.2)

/-- Where a match ends, the rest alone has the next match of the whole, and so at the beginning; with only one match,
there. -/
inductive KeepsUp (p : Pattern) (single : Bool) (s : Bytes) : Nat → Nat → Prop
  | done {r k : Nat} : alone p s r = none → firstFrom p s k = none → KeepsUp p single s r k
  | one {r k a b : Nat} : alone p s r = some (a, b) → firstFrom p s k = some (a, b) → single = true →
      KeepsUp p single s r k
  | more {r k a b : Nat} : alone p s r = some (a, b) → firstFrom p s k = some (a, b) → single = false →
      KeepsUp p single s b (nextFrom a b) → KeepsUp p single s r k

/-- What the matcher finds in the rest. -/
theorem Leftmost.alone_none (h : Leftmost p sub exec) {s : Bytes} {r : Nat} :
    alone p s r = none ↔ s.drop r = [] ∨ exec (s.drop r) = none := by
  unfold alone
  split
  · next hnil => exact ⟨fun _ => .inl hnil, fun _ => rfl⟩
  · next hnil =>
    rw [Option.map_eq_none_iff]
    constructor
    · intro hnone
      cases hfound : exec (s.drop r) with
      | none => exact .inr rfl
      | some subexp =>
        obtain ⟨a, b, hfirst, -⟩ := h.hit hfound
        rw [hnone] at hfirst
        cases hfirst
    · exact fun hdone => h.miss (hdone.resolve_left hnil)

theorem Leftmost.alone_some (h : Leftmost p sub exec) {s : Bytes} {r : Nat} {a b : Nat} (hseen : alone p s r = some (a, b)) :
    s.drop r ≠ [] ∧ ∃ subexp m, exec (s.drop r) = some subexp ∧ subexp[0]? = some m ∧ a = r + m.so.toNat ∧
      b = r + m.eo.toNat := by
  unfold alone at hseen
  split at hseen
  · cases hseen
  · next hnil =>
    refine ⟨hnil, ?_⟩
    cases hfound : exec (s.drop r) with
    | none =>
      rw [h.miss hfound] at hseen
      cases hseen
    | some subexp =>
      obtain ⟨x, y, hfirst, hm⟩ := h.hit hfound
      rw [hfirst] at hseen
      obtain ⟨rfl, rfl⟩ := Prod.mk.inj (Option.some.inj hseen)
      exact ⟨subexp, _, rfl, hm, rfl, rfl⟩

theorem Leftmost.alone_eq (h : Leftmost p sub exec) {s : Bytes} {r : Nat} {subexp : List Regmatch} {m : Regmatch}
    (hnil : s.drop r ≠ []) (hfound : exec (s.drop r) = some subexp) (hm : subexp[0]? = some m) :
    alone p s r = some (r + m.so.toNat, r + m.eo.toNat) := by
  obtain ⟨a, b, hfirst, hzero⟩ := h.hit hfound
  obtain rfl := Option.some.inj (hm.symm.trans hzero)
  unfold alone
  rw [if_neg hnil, hfirst]
  rfl

/-- The loop stops at the matches of the subject, where it keeps up with them. -/
theorem KeepsUp.stops (hexec : Leftmost p sub exec) {s : Bytes} {r k : Nat} (h : KeepsUp p single s r k) :
    ∃ ms, Successive p single s k ms ∧ Stops exec single (s.drop r) r ms := by
  induction h with
  | done halone hnone => exact ⟨[], .done hnone, .done (hexec.alone_none.mp halone)⟩
  | @one r k a b halone hfirst hsingle =>
    obtain ⟨hnil, subexp, m, hfound, hm, rfl, rfl⟩ := hexec.alone_some halone
    exact ⟨_, .one hfirst hsingle, .one hnil hfound hm hsingle⟩
  | @more r k a b halone hfirst hsingle _ ih =>
    obtain ⟨hnil, subexp, m, hfound, hm, rfl, rfl⟩ := hexec.alone_some halone
    obtain ⟨ms, hms, hstops⟩ := ih
    refine ⟨_, .more hfirst hsingle hms, .more hnil hfound hm hsingle ?_⟩
    rwa [List.drop_drop]

/-- It keeps up with the matches of the subject, where it stops at them. -/
theorem Successive.keepsUp (hexec : Leftmost p sub exec) {s : Bytes} {k : Nat} {ms : List (Nat × Nat)}
    (h : Successive p single s k ms) {r : Nat} (hstops : Stops exec single (s.drop r) r ms) : KeepsUp p single s r k := by
  induction h generalizing r with
  | done hnone =>
    cases hstops with
    | done hdone => exact .done (hexec.alone_none.mpr hdone) hnone
  | one hfirst hsingle =>
    cases hstops with
    | one hnil hfound hm => exact .one (hexec.alone_eq hnil hfound hm) hfirst hsingle
    | more _ _ _ hmore => cases hmore.symm.trans hsingle
  | more hfirst hsingle _ ih =>
    cases hstops with
    | one _ _ _ hone => cases hone.symm.trans hsingle
    | more hnil hfound hm _ hrest =>
      rw [List.drop_drop] at hrest
      exact .more (hexec.alone_eq hnil hfound hm) hfirst hsingle (ih hrest)

/-! ## The whole search -/

/-- The search is that of the subject taken as a whole just where the rest alone is enough. -/
theorem rimRegex_searches_iff (hp : Within p) (hexec : Leftmost p sub exec) (lookHere : Bytes) (single : Bool) :
    SearchesAll p exec sub single lookHere ↔ KeepsUp p single (cstr lookHere) 0 0 := by
  constructor
  · rintro ⟨ms, hms, hstops, -⟩
    exact hms.keepsUp hexec hstops
  · intro hkeeps
    have hmatcher := hexec.matcher hp
    obtain ⟨ms, hms, hstops⟩ := hkeeps.stops hexec
    rw [List.drop_zero] at hstops
    refine ⟨ms, hms, hstops, ms.length + 1, ?_, fun template => ?_⟩
    · obtain ⟨rest, hloop⟩ := @Stops.counts exec sub single hmatcher _ _ _ hstops (ms.length + 1) 0 RegexRes.start
        (Nat.lt_succ_self _)
      unfold rimRegex
      rw [Option.map_none, hloop, ok_bind, Nat.zero_add]
    · obtain ⟨out, hreplaces, hchanged⟩ := @Stops.replaces exec single (cstr lookHere) _ _ _ hstops (List.drop_zero).symm
        fun look subexp => writeRefs sub (subText look subexp) false (cstr template)
      exact ⟨out, rimRegex_writes hmatcher (Nat.lt_succ_self _) hreplaces, hchanged⟩

/-- An empty match where the search is ends no search. -/
theorem regexLoop_never {look : Bytes} {subexp : List Regmatch} {m : Regmatch} (hnil : look ≠ [])
    (hfound : exec look = some subexp) (hm : subexp[0]? = some m) (heo : m.eo = 0) (fuel tot : Nat) (r : RegexRes) :
    regexLoop exec sub none false fuel look tot r = .error .fuel := by
  induction fuel generalizing tot with
  | zero => rfl
  | succ fuel ih =>
    have hmatch : regexMatch sub none look subexp r = .ok (look, r) := by
      unfold regexMatch lookBehind
      rw [hm]
      change (inRegex (if 0 ≤ m.eo ∧ m.eo ≤ look.length then some (look.drop m.eo.toNat) else none) >>= _) = _
      rw [heo, if_pos ⟨Int.le_refl 0, Int.natCast_nonneg _⟩]
      rfl
    rw [regexLoop, if_neg hnil, hfound]
    dsimp only
    rw [hmatch, ok_bind]
    exact ih (tot + 1)

/-- A match depends on what is from its place on, and no match is empty. -/
structure Forward (p : Pattern) : Prop where
  shift (s : Bytes) (r i : Nat) : p (s.drop r) i = (p s (r + i)).map (· - r)
  moves {t : Bytes} {i e : Nat} : p t i = some e → i < e

/-- The rest alone has the match of the whole. -/
theorem Forward.alone_eq (hp : Within p) (h : Forward p) {s : Bytes} {r : Nat} (hr : r ≤ s.length) :
    alone p s r = firstFrom p s r := by
  have hrange : List.range' r (s.length + 1 - r) = (List.range' 0 (s.length + 1 - r)).map (r + ·) := by
    rw [List.map_add_range']
    rfl
  unfold alone
  split
  · next hnil =>
    -- at the end there is room for an empty match only
    have hend : r = s.length := Nat.le_antisymm hr (List.drop_eq_nil_iff.mp hnil)
    cases hfirst : firstFrom p s r with
    | none => rfl
    | some m =>
      obtain ⟨i, hi, hmatch⟩ := List.exists_of_findSome?_eq_some hfirst
      obtain ⟨e, he, -⟩ := Option.map_eq_some_iff.mp hmatch
      have hlt := h.moves he
      have hle := (hp s i e he).2
      have hri := (List.mem_range'_1.mp hi).1
      omega
  · unfold firstFrom
    rw [List.length_drop, Nat.sub_zero, show s.length - r + 1 = s.length + 1 - r by omega, hrange, List.findSome?_map,
      List.map_findSome?]
    congr 1
    ext i : 1
    dsimp only [Function.comp_apply]
    rw [h.shift]
    cases he : p s (r + i) with
    | none => rfl
    | some e =>
      have hlt := h.moves he
      rw [Option.map_some, Option.map_some, Option.map_some, Option.map_some, show r + (e - r) = e by omega]

/-- The search is that of the subject for every pattern that looks forward. -/
theorem Forward.keepsUp (hp : Within p) (h : Forward p) (single : Bool) (n : Nat) {s : Bytes} {r : Nat}
    (hr : r ≤ s.length) (hn : s.length - r ≤ n) : KeepsUp p single s r r := by
  induction n generalizing r with
  | zero =>
    have halone := h.alone_eq hp hr
    have hnil : s.drop r = [] := List.drop_eq_nil_iff.mpr (by omega)
    have hnone : alone p s r = none := if_pos hnil
    exact .done hnone (halone.symm.trans hnone)
  | succ n ih =>
    have halone := h.alone_eq hp hr
    cases hfirst : firstFrom p s r with
    | none => exact .done (halone.trans hfirst) hfirst
    | some m =>
      obtain ⟨a, b⟩ := m
      cases single with
      | true => exact .one (halone.trans hfirst) hfirst rfl
      | false =>
        obtain ⟨i, -, hmatch⟩ := List.exists_of_findSome?_eq_some hfirst
        obtain ⟨e, he, hpair⟩ := Option.map_eq_some_iff.mp hmatch
        obtain ⟨rfl, rfl⟩ := Prod.mk.inj hpair
        obtain ⟨hri, -, hb⟩ := firstFrom_within hp hfirst
        have hlt := h.moves he
        refine .more (halone.trans hfirst) hfirst rfl ?_
        rw [nextFrom, if_neg (Nat.ne_of_lt hlt)]
        exact ih hb (by omega)

/-! ## Some patterns -/

/-- A matcher for a pattern without subexpressions -/
def leftmost (p : Pattern) (t : Bytes) : Option (List Regmatch) := (firstFrom p t 0).map fun m => [⟨m.1, m.2⟩]

theorem leftmost_holds (hp : Within p) : Leftmost p 0 (leftmost p) where
  subexp := by
    intro t subexp h
    obtain ⟨⟨a, b⟩, hfirst, rfl⟩ := Option.map_eq_some_iff.mp h
    obtain ⟨-, hab, hb⟩ := firstFrom_within hp hfirst
    refine ⟨rfl, fun m hm => ?_⟩
    obtain rfl := List.mem_singleton.mp hm
    exact .inr ⟨Int.natCast_nonneg a, Int.ofNat_le.mpr hab, Int.ofNat_le.mpr hb⟩
  miss := Option.map_eq_none_iff.mp
  hit := by
    intro t subexp h
    obtain ⟨⟨a, b⟩, hfirst, rfl⟩ := Option.map_eq_some_iff.mp h
    exact ⟨a, b, hfirst, rfl⟩

/-- `a` -/
def letterA : Pattern := fun t i => if t[i]? = some 97 then some (i + 1) else none

/-- `^a` -/
def firstA : Pattern := fun t i => if i = 0 ∧ t[0]? = some 97 then some 1 else none

/-- The pattern that matches nothing but the empty text -/
def nothing : Pattern := fun t i => if i ≤ t.length then some i else none

theorem letterA_within : Within letterA := by
  intro t i e h
  unfold letterA at h
  split at h
  · next ha =>
    obtain rfl := Option.some.inj h
    exact ⟨Nat.le_succ i, (List.getElem?_eq_some_iff.mp ha).1⟩
  · cases h

theorem firstA_within : Within firstA := by
  intro t i e h
  unfold firstA at h
  split at h
  · next ha =>
    obtain rfl := Option.some.inj h
    exact ⟨by omega, (List.getElem?_eq_some_iff.mp ha.2).1⟩
  · cases h

theorem letterA_forward : Forward letterA where
  shift := by
    intro s r i
    unfold letterA
    rw [List.getElem?_drop]
    split
    · rw [Option.map_some, show r + i + 1 - r = i + 1 by omega]
    · rfl
  moves := by
    intro t i e h
    unfold letterA at h
    split at h
    · obtain rfl := Option.some.inj h
      exact Nat.lt_succ_self i
    · cases h

theorem rimRegex_searches_letter : SearchesAll letterA (leftmost letterA) 0 false (ascii "banana") :=
  (rimRegex_searches_iff letterA_within (leftmost_holds letterA_within) _ _).mpr
    (letterA_forward.keepsUp letterA_within false _ (Nat.zero_le _) (Nat.le_refl _))

/-- With `^a`, there are two matches in `aa`, and a search for the empty text has no end. -/
theorem rimRegex_searches_more :
    rimRegex (leftmost firstA) 0 (ascii "aa") none false 3 = .ok (2, none) ∧ ¬ SearchesAll firstA (leftmost firstA) 0 false (ascii "aa") ∧
      (∀ fuel, rimRegex (leftmost nothing) 0 (ascii "a") none false fuel = .error .fuel) ∧
      ¬ SearchesAll nothing (leftmost nothing) 0 false (ascii "a") := by
  have hnever : ∀ fuel, rimRegex (leftmost nothing) 0 (ascii "a") none false fuel = .error .fuel := by
    intro fuel
    unfold rimRegex
    rw [Option.map_none, regexLoop_never (m := ⟨0, 0⟩) (by decide) rfl rfl rfl]
    rfl
  refine ⟨by decide +kernel, ?_, hnever, ?_⟩
  · rintro ⟨ms, hms, hstops, -⟩
    -- the second `a` is at a beginning, where it is alone
    cases @Successive.keepsUp firstA (leftmost firstA) 0 false (leftmost_holds firstA_within) _ 0 ms hms 0 hstops with
    | done halone _ => exact absurd halone (by decide)
    | one _ _ hsingle => cases hsingle
    | @more _ _ a b _ hfirst _ hrest =>
      obtain ⟨rfl, rfl⟩ : 0 = a ∧ 1 = b := Prod.mk.inj (Option.some.inj hfirst)
      cases hrest with
      | done halone _ => exact absurd halone (by decide)
      | one _ _ hsingle => cases hsingle
      | more _ hnone _ _ => cases hnone
  · rintro ⟨ms, -, -, fuel, hrun, -⟩
    rw [hnever fuel] at hrun
    cases hrun

end RimStone
