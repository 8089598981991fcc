import Mathlib.Data.List.Forall2
import RimStone.Laws.Manager.ArgLine
import RimStone.Laws.Text.Trim
import RimStone.Manager.Tokarg

/-!
# Arguments that are kept whole

`tokarg` stores each quoted part as an argument of its own, and the bare text that ends a word, but no bare text
before a quote. So a word is kept whole where it is one part. There are enough entries for 62 words, and the
last of them has to be the end of the text.
-/

namespace RimStone

/-- What `tokarg` stores of it. -/
def ArgWord.outs (w : ArgWord) : List Bytes := w.parts.map QuotedPart.inner ++ if w.tail = [] then [] else [w.tail]

namespace ArgLine

/-- `tokarg` makes the words of the line its arguments, as far as the table has room for them. -/
structure Tokenised (l : ArgLine) : Prop where
  fits : l.words.length + 2 ≤ RIM_MAX_ARGS →
    ∃ st, tokarg (l.text ++ [0]) = .ok st ∧ st.arguments = .command :: l.words.map fun w => .word w.1.value
  full : RIM_MAX_ARGS < l.words.length + 2 → ∃ n, tokarg (l.text ++ [0]) = .error (.tooMany n)

/-- Each word is one part, and the table is not full before the end; or the words are too many in any case. -/
def Tame (l : ArgLine) : Prop :=
  RIM_MAX_ARGS < l.words.length + 2 ∨
    (∀ w ∈ l.words, w.1.Single) ∧ (l.words.length + 2 < RIM_MAX_ARGS ∨ l.EndsBare)

end ArgLine

/-! ## What the loop stores -/

def ArgEnds (done : Bytes) (p : Nat) (w : Bytes) : Prop := ∃ t, done.drop p = w ++ 0 :: t ∧ ∀ c ∈ w, c ≠ 0

variable {done : Bytes} {st : Tokarg}

theorem ArgEnds.append {w : Bytes} {p : Nat} (h : ArgEnds done p w) (more : Bytes) : ArgEnds (done ++ more) p w := by
  obtain ⟨t, ht, hw⟩ := h
  have hle : p ≤ done.length := by
    by_contra hlt
    rw [List.drop_eq_nil_of_le (by omega)] at ht
    cases w <;> cases ht
  exact ⟨t ++ more, by rw [List.drop_append_of_le_length hle, ht, List.append_assoc, List.cons_append], hw⟩

theorem ArgEnds.at_end {w : Bytes} (hw : ∀ c ∈ w, c ≠ 0) (t : Bytes) : ArgEnds (done ++ (w ++ 0 :: t)) done.length w :=
  ⟨t, List.drop_left, hw⟩

/-- The table holds the command and the given strings. -/
def ArgsStored (xarg : List XArg) (carg : Nat) (done : Bytes) (ws : List Bytes) : Prop :=
  carg = ws.length + 1 ∧ ∃ ps : List Nat, List.Forall₂ (ArgEnds done) ps ws ∧
    xarg = .command :: (ps.map .text ++ List.replicate (RIM_MAX_ARGS - 1 - ps.length) .null)

theorem ArgsStored.append {xarg : List XArg} {carg : Nat} {ws : List Bytes} (h : ArgsStored xarg carg done ws)
    (more : Bytes) : ArgsStored xarg carg (done ++ more) ws := by
  obtain ⟨hcarg, ps, hps, hxarg⟩ := h
  exact ⟨hcarg, ps, hps.imp fun p w hp => hp.append more, hxarg⟩

def ArgRoom (ws : List Bytes) : Prop := ws.length + 2 < RIM_MAX_ARGS

theorem ArgsStored.store (st : Tokarg) {w : Bytes} {ws : List Bytes} {p : Nat} (h : ArgsStored st.xarg st.carg done ws)
    (hroom : ArgRoom ws) (hp : ArgEnds done p w) :
    ∃ xarg, st.store (.text p) = some { st with xarg, carg := ws.length + 2 } ∧
      ArgsStored xarg (ws.length + 2) done (ws ++ [w]) := by
  obtain ⟨hcarg, ps, hps, hxarg⟩ := h
  have hlen := hps.length_eq
  have hroom' : ws.length + 2 < 64 := hroom
  obtain ⟨m, hm⟩ : ∃ m, RIM_MAX_ARGS - 1 - ps.length = m + 1 := ⟨62 - ps.length, by show 64 - 1 - ps.length = _; omega⟩
  have hset : st.xarg.set st.carg (.text p) =
      .command :: ((ps ++ [p]).map .text ++ List.replicate (RIM_MAX_ARGS - 1 - (ps ++ [p]).length) .null) := by
    have hleft : RIM_MAX_ARGS - 1 - (ps ++ [p]).length = m := by
      rw [List.length_append, List.length_singleton]
      omega
    have hidx : ws.length = (ps.map XArg.text).length := by rw [List.length_map, hlen]
    rw [hxarg, hcarg, List.set_cons_succ, hm, hleft, hidx, List.set_append_right _ _ (Nat.le_refl _), Nat.sub_self,
      List.replicate_succ, List.set_cons_zero, List.map_append, List.append_assoc]
    rfl
  refine ⟨_, ?_, ?_, ps ++ [p], ?_, hset⟩
  · unfold Tokarg.store
    rw [if_pos, hcarg]
    rw [hxarg, hcarg, List.length_cons, List.length_append, List.length_map, List.length_replicate, hm]
    omega
  · rw [List.length_append, List.length_singleton]
  · exact List.rel_append hps (.cons hp .nil)

/-- What `execvp` gets of the table. -/
theorem ArgsStored.arguments {ws : List Bytes} (h : ArgsStored st.xarg st.carg st.parg ws)
    (hroom : ws.length + 2 ≤ RIM_MAX_ARGS) (hinstring : st.instring = false) :
    ∃ st', st.close = .ok st' ∧ st'.arguments = .command :: ws.map .word := by
  obtain ⟨hcarg, ps, hps, hxarg⟩ := h
  have hlen := hps.length_eq
  have hroom' : ws.length + 2 ≤ 64 := hroom
  obtain ⟨m, hm⟩ : ∃ m, RIM_MAX_ARGS - 1 - ps.length = m + 1 := ⟨62 - ps.length, by show 64 - 1 - ps.length = _; omega⟩
  have hset : st.xarg.set st.carg .null = .command :: (ps.map .text ++ XArg.null :: List.replicate m .null) := by
    have hidx : ws.length = (ps.map XArg.text).length := by rw [List.length_map, hlen]
    rw [hxarg, hcarg, List.set_cons_succ, hm, hidx, List.set_append_right _ _ (Nat.le_refl _), Nat.sub_self,
      List.replicate_succ, List.set_cons_zero]
  refine ⟨{ st with xarg := st.xarg.set st.carg .null }, ?_, ?_⟩
  · unfold Tokarg.close
    rw [if_neg (by rw [hinstring]; exact Bool.false_ne_true), if_pos]
    rw [hxarg, hcarg, List.length_cons, List.length_append, List.length_map, List.length_replicate, hm]
    omega
  · show argumentsOf st.parg (st.xarg.set st.carg .null) = _
    rw [hset, argumentsOf]
    congr 1
    clear hset hxarg hcarg hlen hroom hm hroom'
    induction hps with
    | nil => rfl
    | @cons p w ps ws hp hps ih =>
      obtain ⟨t, ht, hw⟩ := hp
      have hstr : (st.parg.drop p).takeWhile (· ≠ 0) = w := by
        rw [ht, List.takeWhile_append_of_pos fun c hc => decide_eq_true (hw c hc), List.takeWhile_cons_of_neg (by simp),
          List.append_nil]
      rw [List.map_cons, List.cons_append, argumentsOf, hstr, ih, List.map_cons]

/-! ## Rounds of the loop -/

/-- The loop is within a word: the bare text `t` is behind, `rest` is ahead, and `ws` are stored. -/
structure WordPending (st : Tokarg) (pre t rest : Bytes) (ws : List Bytes) : Prop where
  parg : st.parg = pre ++ (t ++ rest)
  c : st.c = pre.length + t.length
  begarg : st.begarg = pre.length
  instring : st.instring = false
  stored : ArgsStored st.xarg st.carg pre ws
  room : ArgRoom ws

/-- What comes out is what comes out of the loop from there. -/
def WordGoes (res : Except TokargFault Tokarg) (t rest : Bytes) (ws : List Bytes) : Prop :=
  ∃ fuel st pre, rest.length < fuel ∧ WordPending st pre t rest ws ∧ res = Tokarg.loop fuel st

/-- Strings are stored, unless there is no room for them. -/
def WordEmits (res : Except TokargFault Tokarg) (t rest : Bytes) (ws new : List Bytes) : Prop :=
  (¬ ArgRoom (ws ++ new) ∧ res = .error (.tooMany (RIM_MAX_ARGS - 1))) ∨ (ArgRoom (ws ++ new) ∧
    WordGoes res t rest (ws ++ new))

section Rounds

variable {res : Except TokargFault Tokarg} {t rest : Bytes} {ws : List Bytes}

variable {pre inner : Bytes} {x q : UInt8}

theorem WordPending.read (h : WordPending st pre t (x :: rest) ws) : st.parg[st.c]? = some x := by
  rw [h.parg, h.c, ← List.append_assoc, ← List.length_append]
  exact getElem?_middle _ _ _

theorem WordPending.carg_lt (h : WordPending st pre t rest ws) : ¬ st.carg ≥ RIM_MAX_ARGS - 1 := by
  have hroom : ws.length + 2 < 64 := h.room
  rw [h.stored.1]
  show ¬ ws.length + 1 ≥ 63
  omega

theorem WordGoes.bare {s : Bytes} (h : WordGoes res t (s ++ rest) ws) (hs : ∀ c ∈ s, Bare c) :
    WordGoes res (t ++ s) rest ws := by
  induction s generalizing t with
  | nil => rwa [List.append_nil]
  | cons x s ih =>
    obtain ⟨fuel, st, pre, hfuel, hp, rfl⟩ := h
    obtain ⟨⟨h0, h34, h39, hspace⟩, hs⟩ := List.forall_mem_cons.mp hs
    obtain ⟨fuel, rfl⟩ : ∃ m, fuel = m + 1 := ⟨fuel - 1, by omega⟩
    have hround : st.round = some ({ st with c := st.c + 1 }, true) := by
      unfold Tokarg.round
      rw [hp.read]
      simp [hp.instring, h0, h34, h39, hspace]
    have hnext : WordGoes (Tokarg.loop (fuel + 1) st) (t ++ [x]) (s ++ rest) ws := by
      refine ⟨fuel, { st with c := st.c + 1 }, pre, Nat.lt_of_succ_lt_succ hfuel,
        ⟨?_, ?_, hp.begarg, hp.instring, hp.stored, hp.room⟩, ?_⟩
      · show st.parg = _
        rw [hp.parg, List.append_assoc t]
        rfl
      · show st.c + 1 = _
        rw [hp.c, List.length_append, List.length_singleton, Nat.add_assoc]
      · rw [Tokarg.loop, hround]
        exact if_neg hp.carg_lt
    rw [List.append_cons]
    exact ih hnext hs

/-- The white space after an argument is left out. -/
theorem endArg_eq (st : Tokarg) (a : Bytes) {blank : Bytes} (hparg : st.parg = a ++ x :: (blank ++ rest))
    (hc : st.c = a.length) (hblank : ∀ c ∈ blank, isspace c = true) (hfresh : NoBlank rest) (hrest : rest ≠ []) :
    st.endArg = some { st with
      parg := a ++ 0 :: (blank ++ rest), c := a.length + 1 + blank.length, begarg := a.length + 1 + blank.length } := by
  cases rest with
  | nil => exact absurd rfl hrest
  | cons y rest =>
    have hfront : trimFrontLoop ((a ++ 0 :: (blank ++ y :: rest)).drop (a.length + 1)) 0 = some blank.length := by
      rw [List.append_cons, ← List.length_singleton, ← List.length_append, List.drop_left,
        trimFrontLoop_eq hblank (Bool.eq_false_iff.mp hfresh), Nat.zero_add]
    unfold Tokarg.endArg
    rw [hparg, hc, poke_middle]
    simp only [bind, Option.bind, hfront]

theorem WordEmits.of_round {fuel : Nat} {st' : Tokarg} {w : Bytes} (hround : st.round = some (st', true))
    (hcarg : st'.carg = ws.length + 2) (hroom : ArgRoom ws) (hfuel : rest.length < fuel)
      (hp : ArgRoom (ws ++ [w]) → WordPending st' pre [] rest (ws ++ [w])) :
    WordEmits (Tokarg.loop (fuel + 1) st) [] rest ws [w] := by
  have hroom' : ws.length + 2 < 64 := hroom
  rw [Tokarg.loop, hround]
  by_cases hnext : ArgRoom (ws ++ [w])
  · refine .inr ⟨hnext, fuel, st', pre, hfuel, hp hnext, ?_⟩
    exact if_neg (hp hnext).carg_lt
  · refine .inl ⟨hnext, ?_⟩
    unfold ArgRoom at hnext
    rw [List.length_append, List.length_singleton] at hnext
    have hfull : st'.carg = RIM_MAX_ARGS - 1 := by
      rw [hcarg]
      show ws.length + 2 = 63
      have : ¬ ws.length + 1 + 2 < 64 := hnext
      omega
    show (if st'.carg ≥ RIM_MAX_ARGS - 1 then _ else _) = _
    rw [if_pos (Nat.le_of_eq hfull.symm), hfull]

/-- Bare text before white space is an argument. -/
theorem WordGoes.space {blank : Bytes} (h : WordGoes res t (x :: (blank ++ rest)) ws) (hx : isspace x = true)
    (ht : ∀ c ∈ t, c ≠ 0) (hblank : ∀ c ∈ blank, isspace c = true) (hfresh : NoBlank rest) (hrest : rest ≠ []) :
    WordEmits res [] rest ws [t] := by
  obtain ⟨fuel, st, pre, hfuel, hp, rfl⟩ := h
  obtain ⟨fuel, rfl⟩ : ∃ m, fuel = m + 1 := ⟨fuel - 1, by omega⟩
  have hx' : x ≠ 34 ∧ x ≠ 39 := by
    constructor
    · rintro rfl
      revert hx
      decide
    · rintro rfl
      revert hx
      decide
  have hends : ArgEnds (pre ++ (t ++ 0 :: blank)) st.begarg t := hp.begarg ▸ ArgEnds.at_end ht blank
  obtain ⟨xarg, hstore, hstored⟩ := (hp.stored.append (t ++ 0 :: blank)).store st hp.room hends
  have hend := endArg_eq { st with xarg, carg := ws.length + 2 } (pre ++ t)
    (by rw [hp.parg, List.append_assoc]) (by rw [hp.c, List.length_append]) hblank hfresh hrest
  have hround : st.round = some ({ st with
      xarg, carg := ws.length + 2, parg := pre ++ t ++ 0 :: (blank ++ rest), c := (pre ++ t).length + 1 + blank.length,
      begarg := (pre ++ t).length + 1 + blank.length }, true) := by
    unfold Tokarg.round
    rw [hp.read]
    simp only [bind, Option.bind]
    rw [if_neg fun h => h.2.elim hx'.1 hx'.2, if_neg (by rw [hp.instring]; exact fun h => Bool.false_ne_true h.1),
      if_pos ⟨hp.instring, hx⟩, hstore]
    simp only [hend]
  have hlen : (pre ++ t).length + 1 + blank.length = (pre ++ (t ++ 0 :: blank)).length := by
    simp only [List.length_append, List.length_cons]
    omega
  apply WordEmits.of_round hround rfl hp.room
  · simp only [List.length_cons, List.length_append] at hfuel
    omega
  · intro hroom
    refine ⟨?_, hlen, hlen, hp.instring, hstored, hroom⟩
    simp only [List.append_assoc, List.cons_append, List.nil_append]

theorem loop_inner (a rest : Bytes) (st : Tokarg) (fuel : Nat) (hparg : st.parg = a ++ (inner ++ rest))
    (hc : st.c = a.length) (hin : st.instring = true) (hcarg : ¬ st.carg ≥ RIM_MAX_ARGS - 1)
      (hinner : ∀ c ∈ inner, c ≠ st.quote ∧ c ≠ 0) :
    Tokarg.loop (fuel + inner.length) st = Tokarg.loop fuel { st with c := (a ++ inner).length } := by
  induction inner generalizing a st with
  | nil =>
    rw [List.append_nil, ← hc]
    rfl
  | cons x inner ih =>
    obtain ⟨⟨hquote, h0⟩, hinner⟩ := List.forall_mem_cons.mp hinner
    have hread : st.parg[st.c]? = some x := by
      rw [hparg, hc]
      exact getElem?_middle _ _ _
    have hround : st.round = some ({ st with c := st.c + 1 }, true) := by
      unfold Tokarg.round
      rw [hread]
      simp [hin, hquote, h0]
    have hstep := ih (a ++ [x]) { st with c := st.c + 1 } (by rw [hparg, List.append_assoc]; rfl)
      (by rw [hc, List.length_append, List.length_singleton]) hin hcarg hinner
    rw [List.length_cons, ← Nat.add_assoc, Tokarg.loop, hround, List.append_cons, ← hstep]
    exact if_neg hcarg

theorem WordPending.open {fuel : Nat} (h : WordPending st pre t (q :: (inner ++ rest)) ws) (hq : q = 34 ∨ q = 39)
    (hinner : ∀ c ∈ inner, c ≠ q ∧ c ≠ 0) :
    Tokarg.loop (fuel + inner.length + 1) st = Tokarg.loop fuel { st with
      instring := true, quote := q, c := (pre ++ t ++ q :: inner).length, begstring := (pre ++ t ++ [q]).length } := by
  have hround : st.round = some ({ st with instring := true, quote := q, c := st.c + 1, begstring := st.c + 1 },
    true) := by
    unfold Tokarg.round
    rw [h.read]
    exact if_pos ⟨h.instring, hq⟩
  have hidx : st.c + 1 = (pre ++ t ++ [q]).length := by
    rw [h.c, List.length_append, List.length_append, List.length_singleton]
  have hpass := loop_inner (pre ++ t ++ [q]) rest { st with instring := true, quote := q, c := st.c + 1, begstring :=
    st.c + 1 } fuel
    (by rw [h.parg]; simp only [List.append_assoc, List.singleton_append]) hidx rfl h.carg_lt hinner
  rw [Tokarg.loop, hround]
  refine (if_neg h.carg_lt).trans (hpass.trans ?_)
  rw [hidx, List.append_assoc (pre ++ t), List.singleton_append]

/-- A quoted part is an argument. -/
theorem WordGoes.quoted (blank : Bytes) (h : WordGoes res t (q :: (inner ++ q :: (blank ++ rest))) ws)
    (hq : q = 34 ∨ q = 39) (hinner : ∀ c ∈ inner, c ≠ q ∧ c ≠ 0) (hblank : ∀ c ∈ blank, isspace c = true)
      (hfresh : NoBlank rest) (hrest : rest ≠ []) : WordEmits res [] rest ws [inner] := by
  obtain ⟨fuel, st, pre, hfuel, hp, rfl⟩ := h
  simp only [List.length_cons, List.length_append] at hfuel
  obtain ⟨fuel, rfl⟩ : ∃ m, fuel = m + 1 + inner.length + 1 := ⟨fuel - inner.length - 2, by omega⟩
  rw [hp.open hq hinner]
  have hparg : st.parg = pre ++ t ++ q :: inner ++ q :: (blank ++ rest) := by
    rw [hp.parg]
    simp only [List.append_assoc, List.cons_append]
  have hdone : pre ++ t ++ q :: inner ++ 0 :: blank = pre ++ t ++ [q] ++ (inner ++ 0 :: blank) := by
    simp only [List.append_assoc, List.cons_append, List.nil_append]
  have hends : ArgEnds (pre ++ t ++ q :: inner ++ 0 :: blank) (pre ++ t ++ [q]).length inner := by
    rw [hdone]
    exact ArgEnds.at_end (fun c hc => (hinner c hc).2) blank
  have hstored : ArgsStored st.xarg st.carg (pre ++ t ++ q :: inner ++ 0 :: blank) ws := by
    rw [List.append_assoc, List.append_assoc]
    exact hp.stored.append _
  obtain ⟨xarg, hstore, hstored⟩ := ArgsStored.store { st with
    instring := false, quote := q, c := (pre ++ t ++ q :: inner).length, begstring := (pre ++ t ++ [q]).length }
    hstored hp.room hends
  have hend := endArg_eq { st with
    xarg, carg := ws.length + 2, instring := false, quote := q, c := (pre ++ t ++ q :: inner).length,
    begstring := (pre ++ t ++ [q]).length } (pre ++ t ++ q :: inner) hparg rfl hblank hfresh hrest
  have hround := show Tokarg.round { st with
      instring := true, quote := q, c := (pre ++ t ++ q :: inner).length, begstring := (pre ++ t ++ [q]).length } =
      some (_, true) from by
    unfold Tokarg.round
    have hread : st.parg[(pre ++ t ++ q :: inner).length]? = some q := by
      rw [hparg]
      exact getElem?_middle _ _ _
    simp only [bind, Option.bind, hread]
    rw [if_neg fun h => Bool.noConfusion h.1, if_pos ⟨trivial, trivial⟩, hstore]
    simp only [hend]
    rfl
  have hlen : (pre ++ t ++ q :: inner).length + 1 + blank.length = (pre ++ t ++ q :: inner ++ 0 :: blank).length := by
    simp only [List.length_append, List.length_cons]
    omega
  apply WordEmits.of_round hround rfl hp.room
  · omega
  · intro hroom
    refine ⟨?_, hlen, hlen, rfl, hstored, hroom⟩
    simp only [List.append_assoc, List.cons_append, List.nil_append]

/-- The text ends outside of quotes. -/
theorem WordGoes.stop (h : WordGoes res t [0] ws) (ht : ∀ c ∈ t, Bare c) :
    ∃ st, res = .ok st ∧ st.instring = false ∧
      ArgsStored st.xarg st.carg st.parg (if t = [] then ws else ws ++ [t]) := by
  obtain ⟨fuel, st, pre, hfuel, hp, rfl⟩ := h
  obtain ⟨fuel, rfl⟩ : ∃ m, fuel = m + 1 := ⟨fuel - 1, by omega⟩
  have hstored : ArgsStored st.xarg st.carg st.parg ws := hp.parg ▸ hp.stored.append _
  have hround : st.round = (st.parg[st.begarg]?).bind fun y =>
      if y ≠ 0 then (st.store (.text st.begarg)).bind fun st => some (st, false) else some (st, false) := by
    conv_lhs => unfold Tokarg.round
    rw [hp.read]
    simp only [bind, Option.bind]
    rw [if_neg fun h => h.2.elim (by decide)
      (by decide), if_neg (by rw [hp.instring]; exact fun h => Bool.false_ne_true h.1),
      if_neg fun h => absurd h.2 (by decide), if_pos trivial, if_neg (by rw [hp.instring]; exact Bool.false_ne_true)]
  cases t with
  | nil =>
    refine ⟨st, ?_, hp.instring, hstored⟩
    have hread : st.parg[st.begarg]? = some 0 := by
      rw [hp.parg, hp.begarg]
      exact getElem?_middle _ _ _
    have hnone : st.round = some (st, false) := by
      rw [hround, hread]
      rfl
    rw [Tokarg.loop, hnone]
  | cons x t =>
    have hread : st.parg[st.begarg]? = some x := by
      rw [hp.parg, hp.begarg]
      exact getElem?_middle _ _ _
    have hx : x ≠ 0 := (ht x List.mem_cons_self).1
    have hends : ArgEnds st.parg st.begarg (x :: t) := by
      rw [hp.parg, hp.begarg]
      exact ArgEnds.at_end (fun c hc => (ht c hc).1) []
    obtain ⟨xarg, hstore, hstored⟩ := hstored.store st hp.room hends
    have hsome : st.round = some ({ st with xarg, carg := ws.length + 2 }, false) := by
      rw [hround, hread]
      simp only [Option.bind, if_pos hx, hstore]
    refine ⟨{ st with xarg, carg := ws.length + 2 }, ?_, hp.instring, hstored⟩
    rw [Tokarg.loop, hsome]

/-- The text ends within a quote. -/
theorem WordGoes.stop_open (h : WordGoes res t (q :: (inner ++ [0])) ws) (hq : q = 34 ∨ q = 39)
    (hinner : ∀ c ∈ inner, c ≠ q ∧ c ≠ 0) : ∃ st, res = .ok st ∧ st.instring = true := by
  obtain ⟨fuel, st, pre, hfuel, hp, rfl⟩ := h
  simp only [List.length_cons, List.length_append] at hfuel
  obtain ⟨fuel, rfl⟩ : ∃ m, fuel = m + 1 + inner.length + 1 := ⟨fuel - inner.length - 2, by omega⟩
  rw [hp.open hq hinner]
  refine ⟨{ st with
    instring := true, quote := q, c := (pre ++ t ++ q :: inner).length, begstring := (pre ++ t ++ [q]).length }, ?_, rfl⟩
  have hread : st.parg[(pre ++ t ++ q :: inner).length]? = some 0 := by
    rw [hp.parg, ← List.append_assoc, ← List.cons_append, ← List.append_assoc]
    exact getElem?_middle _ _ _
  have hq0 : (0 : UInt8) ≠ q := by
    obtain rfl | rfl := hq
    · decide
    · decide
  have hround : Tokarg.round { st with
      instring := true, quote := q, c := (pre ++ t ++ q :: inner).length, begstring := (pre ++ t ++ [q]).length } =
      some ({ st with
        instring := true, quote := q, c := (pre ++ t ++ q :: inner).length, begstring := (pre ++ t ++ [q]).length },
          false) := by
    unfold Tokarg.round
    simp only [bind, Option.bind, hread]
    rw [if_neg fun h => Bool.noConfusion h.1, if_neg fun h => hq0 h.2, if_neg fun h => Bool.noConfusion h.1,
      if_pos trivial,
      if_pos trivial]
  rw [Tokarg.loop, hround]

end Rounds

/-! ## Words -/

section Words

variable {res : Except TokargFault Tokarg} {t rest : Bytes} {ws new : List Bytes}

theorem ArgRoom.of_append (h : ArgRoom (ws ++ new)) : ArgRoom ws := by
  unfold ArgRoom at h ⊢
  rw [List.length_append] at h
  omega

/-- More is stored after what was stored. -/
theorem WordEmits.then {t' rest' : Bytes} {new' : List Bytes} (h : WordEmits res t rest ws new)
    (hnext : WordGoes res t rest (ws ++ new) → WordEmits res t' rest' (ws ++ new) new') :
      WordEmits res t' rest' ws (new ++ new') := by
  obtain ⟨hroom, hres⟩ | ⟨-, hgoes⟩ := h
  · refine .inl ⟨fun hmore => hroom ?_, hres⟩
    rw [← List.append_assoc] at hmore
    exact hmore.of_append
  · have hmore := hnext hgoes
    unfold WordEmits at hmore ⊢
    rwa [List.append_assoc] at hmore

theorem WordEmits.nothing (h : WordGoes res t rest ws) : WordEmits res t rest ws [] := by
  rw [WordEmits, List.append_nil]
  obtain ⟨fuel, st, pre, hfuel, hp, hres⟩ := h
  exact .inr ⟨hp.room, fuel, st, pre, hfuel, hp, hres⟩

theorem isQuote_ne {q : UInt8} (hq : q = 34 ∨ q = 39) : isspace q = false := by
  obtain rfl | rfl := hq
  · rfl
  · rfl

theorem fresh_append {s : Bytes} (hs : ∀ c ∈ s, Bare c) (hrest : NoBlank rest) : NoBlank (s ++ rest) := by
  cases s with
  | nil => exact hrest
  | cons x s => exact (hs x List.mem_cons_self).2.2.2

theorem fresh_parts (parts : List QuotedPart) (hrest : NoBlank rest) :
    NoBlank (parts.flatMap QuotedPart.text ++ rest) := by
  cases parts with
  | nil => exact hrest
  | cons p parts => exact isQuote_ne p.isQuote

theorem wordTail_bare {lead : Bytes} (parts : List QuotedPart) (hlead : ∀ c ∈ lead, Bare c) :
    ∀ c ∈ wordTail lead parts, Bare c := by
  induction parts generalizing lead with
  | nil => exact hlead
  | cons p parts ih => exact ih p.after_bare

/-- The quoted parts of a word are stored. The text that ends it is ahead, or, where there is none, the
white space is behind. -/
theorem WordGoes.parts {lead : Bytes} (blank : Bytes) (parts : List QuotedPart)
    (h : WordGoes res [] (lead ++ (parts.flatMap QuotedPart.text ++ (blank ++ rest))) ws) (hlead : ∀ c ∈ lead, Bare c)
    (hblank : ∀ c ∈ blank, isspace c = true) (hword : lead = [] → parts = [] → blank = []) (hfresh : NoBlank rest)
    (hrest : rest ≠ []) :
    WordEmits res (wordTail lead parts) (if wordTail lead parts = [] then rest else blank ++ rest) ws
      (parts.map QuotedPart.inner) := by
  induction parts generalizing lead ws with
  | nil =>
    have hbare := h.bare hlead
    rw [List.nil_append, List.flatMap_nil, List.nil_append] at hbare
    rw [wordTail, List.map_nil]
    by_cases hnil : lead = []
    · rw [if_pos hnil]
      rw [hword hnil rfl, List.nil_append] at hbare
      exact WordEmits.nothing hbare
    · rw [if_neg hnil]
      exact WordEmits.nothing hbare
  | cons p parts ih =>
    have hbare := h.bare hlead
    rw [List.nil_append, List.flatMap_cons, QuotedPart.text] at hbare
    simp only [List.cons_append, List.append_assoc] at hbare
    rw [wordTail, List.map_cons, ← List.singleton_append]
    by_cases hlast : p.after = [] ∧ parts = []
    · obtain ⟨hafter, rfl⟩ := hlast
      rw [hafter, List.flatMap_nil, List.nil_append, List.nil_append] at hbare
      rw [wordTail, hafter, if_pos rfl]
      exact (hbare.quoted blank p.isQuote p.inner_ok hblank hfresh hrest).then WordEmits.nothing
    · have hmore : NoBlank (p.after ++ (parts.flatMap QuotedPart.text ++ (blank ++ rest))) := by
        cases hafter : p.after with
        | nil =>
          cases parts with
          | nil => exact absurd ⟨hafter, rfl⟩ hlast
          | cons p' parts => exact isQuote_ne p'.isQuote
        | cons x after =>
          have hx := p.after_bare x (hafter ▸ List.mem_cons_self)
          exact hx.2.2.2
      have hne : p.after ++ (parts.flatMap QuotedPart.text ++ (blank ++ rest)) ≠ [] := by
        intro hnil
        exact hrest (List.append_eq_nil_iff.mp (List.append_eq_nil_iff.mp (List.append_eq_nil_iff.mp hnil).2).2).2
      have hquoted := hbare.quoted [] p.isQuote p.inner_ok (fun c hc => absurd hc List.not_mem_nil) hmore hne
      exact hquoted.then fun hgoes => ih hgoes p.after_bare fun hafter hparts => absurd ⟨hafter, hparts⟩ hlast

/-- A word before white space is stored. -/
theorem WordGoes.word {w : ArgWord} {blank : Bytes} (h : WordGoes res [] (w.text ++ (blank ++ rest)) ws)
    (hblank : ∀ c ∈ blank, isspace c = true) (hne : blank ≠ []) (hfresh : NoBlank rest) (hrest : rest ≠ []) :
    WordEmits res [] rest ws w.outs := by
  rw [ArgWord.text, List.append_assoc] at h
  have hparts := h.parts blank w.parts w.lead_bare hblank (fun hl hp => absurd hp (w.nonempty hl)) hfresh hrest
  apply hparts.then
  intro hgoes
  have htail : ∀ c ∈ w.tail, Bare c := wordTail_bare w.parts w.lead_bare
  show WordEmits res [] rest _ (if w.tail = [] then [] else [w.tail])
  by_cases hnil : w.tail = []
  · have hnil' : wordTail w.lead w.parts = [] := hnil
    rw [hnil', if_pos rfl] at hgoes
    rw [if_pos hnil]
    exact WordEmits.nothing hgoes
  · obtain ⟨x, blank, rfl⟩ := List.exists_cons_of_ne_nil hne
    have hnil' : ¬ wordTail w.lead w.parts = [] := hnil
    rw [if_neg hnil'] at hgoes
    rw [if_neg hnil]
    obtain ⟨hx, hblank⟩ := List.forall_mem_cons.mp hblank
    exact hgoes.space hx (fun c hc => (htail c hc).1) hblank hfresh hrest

theorem fresh_word (w : ArgWord) : NoBlank (w.text ++ rest) := by
  rw [ArgWord.text, List.append_assoc]
  cases hlead : w.lead with
  | nil =>
    obtain ⟨p, parts, hparts⟩ := List.exists_cons_of_ne_nil (w.nonempty hlead)
    rw [hparts]
    exact isQuote_ne p.isQuote
  | cons x lead => exact (w.lead_bare x (hlead ▸ List.mem_cons_self)).2.2.2

theorem fresh_words (words : List (ArgWord × Bytes)) (hrest : NoBlank rest) :
    NoBlank ((words.flatMap fun w => w.1.text ++ w.2) ++ rest) := by
  cases words with
  | nil => exact hrest
  | cons w words =>
    rw [List.flatMap_cons, List.append_assoc, List.append_assoc]
    exact fresh_word w.1

/-- Words that white space follows are stored. -/
theorem WordGoes.words {words : List (ArgWord × Bytes)}
    (h : WordGoes res [] ((words.flatMap fun w => w.1.text ++ w.2) ++ rest) ws)
    (hspace : ∀ w ∈ words, ∀ c ∈ w.2, isspace c = true) (hapart : ∀ w ∈ words, w.2 ≠ []) (hfresh : NoBlank rest)
    (hrest : rest ≠ []) : WordEmits res [] rest ws (words.flatMap fun w => w.1.outs) := by
  induction words generalizing ws with
  | nil => exact WordEmits.nothing h
  | cons w words ih =>
    rw [List.flatMap_cons, List.append_assoc, List.append_assoc] at h
    obtain ⟨hw, hspace⟩ := List.forall_mem_cons.mp hspace
    obtain ⟨hne, hapart⟩ := List.forall_mem_cons.mp hapart
    rw [List.flatMap_cons]
    exact (h.word hw hne (fresh_words words hfresh) fun hnil => hrest (List.append_eq_nil_iff.mp hnil).2).then
      fun hgoes => ih hgoes hspace hapart

end Words

/-! ## Lines -/

/-- The loop begins after the white space before the first word. -/
theorem tokarg_goes {front body : Bytes} (hfront : ∀ c ∈ front, isspace c = true) (hbody : NoBlank body) :
    ∃ res, tokarg (front ++ body ++ [0]) = res >>= Tokarg.close ∧ WordGoes res [] (body ++ [0]) [] := by
  have hstart : trimFrontLoop (front ++ body ++ [0]) 0 = some front.length := by
    rw [List.append_assoc]
    cases body with
    | nil => rw [List.nil_append, trimFrontLoop_eq hfront (by decide), Nat.zero_add]
    | cons x body =>
      rw [List.cons_append, trimFrontLoop_eq hfront (Bool.eq_false_iff.mp hbody), Nat.zero_add]
  unfold tokarg
  rw [hstart]
  refine ⟨_, rfl, _, _, front, ?_, ⟨?_, rfl, rfl, rfl, ⟨rfl, [], .nil, rfl⟩, (by decide : 0 + 2 < 64)⟩, rfl⟩
  · simp only [List.length_append]
    omega
  · rw [List.nil_append, List.append_assoc]

/-- A line that ends within a quote is refused. -/
theorem OpenLine.refused (o : OpenLine) :
    (∃ n, tokarg (o.text ++ [0]) = .error (.tooMany n)) ∨ ∃ n, tokarg (o.text ++ [0]) = .error (.unterminated n) := by
  have hq : NoBlank (o.quote :: (o.inner ++ [0])) := isQuote_ne o.isQuote
  have hbody : NoBlank (((o.words.flatMap fun w => w.1.text ++ w.2)) ++
      (o.lead ++ (o.parts.flatMap QuotedPart.text ++ o.quote :: o.inner))) :=
    fresh_words _ (fresh_append o.lead_bare (fresh_parts _ (isQuote_ne o.isQuote)))
  obtain ⟨res, htokarg, hgoes⟩ := tokarg_goes o.front_space hbody
  rw [OpenLine.text, htokarg]
  simp only [List.append_assoc, List.cons_append] at hgoes
  have hwords := hgoes.words o.space o.apart (fresh_append o.lead_bare (fresh_parts _ hq))
    (fun hnil => by cases (List.append_eq_nil_iff.mp (List.append_eq_nil_iff.mp hnil).2).2)
  have hparts := hwords.then fun hgoes => WordGoes.parts [] o.parts hgoes o.lead_bare
    (fun c hc => absurd hc List.not_mem_nil) (fun _ _ => rfl) hq (List.cons_ne_nil _ _)
  obtain ⟨-, rfl⟩ | ⟨-, hgoes⟩ := hparts
  · exact .inl ⟨_, rfl⟩
  · rw [List.nil_append, ite_self] at hgoes
    obtain ⟨st, rfl, hin⟩ := hgoes.stop_open o.isQuote o.inner_ok
    refine .inr ⟨st.begstring, ?_⟩
    show st.close = _
    rw [Tokarg.close, if_pos hin]

/-- What `tokarg` answers for a line: `n` arguments are stored before the end is reached. -/
theorem ArgLine.answer (l : ArgLine) :
    ∃ n, (l.EndsBare → n + 1 = (l.words.flatMap fun w => w.1.outs).length) ∧
      (¬ l.EndsBare → n = (l.words.flatMap fun w => w.1.outs).length) ∧
      (RIM_MAX_ARGS ≤ n + 2 → tokarg (l.text ++ [0]) = .error (.tooMany (RIM_MAX_ARGS - 1))) ∧
      (n + 2 < RIM_MAX_ARGS → ∃ st, tokarg (l.text ++ [0]) = .ok st ∧
        st.arguments = .command :: (l.words.flatMap fun w => w.1.outs).map .word) := by
  have hfresh0 : NoBlank [0] := rfl
  have hne0 : ([0] : Bytes) ≠ [] := List.cons_ne_nil _ _
  obtain ⟨res, htokarg, hgoes⟩ := tokarg_goes l.front_space (fresh_words l.words trivial : NoBlank (_ ++ []))
  rw [List.append_nil] at htokarg hgoes
  rw [ArgLine.text, htokarg]
  -- the arguments that are stored in rounds, and the text that is left for the end
  obtain ⟨ws, tail, hemits, htail, houts, hbare⟩ : ∃ ws tail, WordEmits res tail [0] [] ws ∧ (∀ c ∈ tail, Bare c) ∧
      (l.words.flatMap fun w => w.1.outs) = (if tail = [] then ws else ws ++ [tail]) ∧ (l.EndsBare ↔ tail ≠ []) := by
    have hnil : ∀ c ∈ ([] : Bytes), Bare c := fun c hc => absurd hc List.not_mem_nil
    by_cases hspaced : ∀ w ∈ l.words, w.2 ≠ []
    · refine ⟨_, [], hgoes.words l.space hspaced hfresh0 hne0, hnil, (if_pos rfl).symm, ?_⟩
      refine iff_of_false ?_ (not_not.mpr rfl)
      rintro ⟨w, hw, hempty, -⟩
      exact hspaced w (List.mem_of_getLast? hw) hempty
    · obtain ⟨w, hw, hempty⟩ : ∃ w ∈ l.words, w.2 = [] := by
        by_contra hno
        exact hspaced fun w hw hempty => hno ⟨w, hw, hempty⟩
      have hwords : l.words ≠ [] := List.ne_nil_of_mem hw
      have hlast : l.words.getLast hwords = w := by
        by_contra hlast
        rw [← List.dropLast_append_getLast hwords] at hw
        obtain hw | hw := List.mem_append.mp hw
        · exact l.apart w hw hempty
        · exact hlast (List.mem_singleton.mp hw).symm
      have hsplit : l.words = l.words.dropLast ++ [w] := by rw [← hlast, List.dropLast_append_getLast]
      have hgetLast : l.words.getLast? = some w := by rw [List.getLast?_eq_getLast_of_ne_nil hwords, hlast]
      rw [hsplit, List.flatMap_append, List.flatMap_singleton, hempty, List.append_nil, List.append_assoc] at hgoes
      have hdrop := hgoes.words (fun v hv => l.space v (List.dropLast_subset _ hv)) l.apart (fresh_word w.1)
        (fun hnil => hne0 (List.append_eq_nil_iff.mp hnil).2)
      have hlastWord := hdrop.then fun hgoes => WordGoes.parts [] w.1.parts
        (by rw [ArgWord.text, List.append_assoc] at hgoes; exact hgoes) w.1.lead_bare (fun c hc => absurd hc List.not_mem_nil)
        (fun _ _ => rfl) hfresh0 hne0
      rw [List.nil_append, ite_self] at hlastWord
      refine ⟨_, w.1.tail, hlastWord, wordTail_bare _ w.1.lead_bare, ?_, ?_⟩
      · rw [hsplit, List.flatMap_append, List.flatMap_singleton, ← hsplit, ArgWord.outs]
        by_cases hnone : w.1.tail = []
        · rw [if_pos hnone, if_pos hnone, List.append_nil]
        · rw [if_neg hnone, if_neg hnone, List.append_assoc]
      · constructor
        · rintro ⟨v, hv, -, hne⟩
          rw [hgetLast] at hv
          cases hv
          exact hne
        · intro hne
          exact ⟨w, hgetLast, hempty, hne⟩
  refine ⟨ws.length, ?_, ?_, ?_, ?_⟩
  · intro h
    rw [houts, if_neg (hbare.mp h), List.length_append, List.length_singleton]
  · intro h
    rw [houts, if_pos (not_not.mp (mt hbare.mpr h))]
  · intro hfull
    obtain ⟨-, rfl⟩ | ⟨hroom, -⟩ := hemits
    · rfl
    · exact absurd hroom (Nat.not_lt.mpr hfull)
  · intro hfits
    obtain ⟨hroom, -⟩ | ⟨-, hgoes⟩ := hemits
    · exact absurd hfits hroom
    · obtain ⟨st, rfl, hin, hstored⟩ := hgoes.stop htail
      rw [List.nil_append, ← houts] at hstored
      refine hstored.arguments ?_ hin
      rw [houts]
      split
      next => exact Nat.le_of_lt hfits
      next =>
        rw [List.length_append, List.length_singleton]
        exact hfits

/-! ## Which lines are tokenised -/

section Tame

variable {α β : Type}

theorem length_le_flatMap {f : α → List β} {l : List α} (hf : ∀ a ∈ l, f a ≠ []) : l.length ≤ (l.flatMap f).length := by
  induction l with
  | nil => exact Nat.le_refl _
  | cons a l ih =>
    obtain ⟨ha, hf⟩ := List.forall_mem_cons.mp hf
    have hpos := List.length_pos_of_ne_nil ha
    have hle := ih hf
    rw [List.flatMap_cons, List.length_append, List.length_cons]
    omega

/-- Lists that have something each are joined to one item each only if they have one item each. -/
theorem flatMap_eq_map_iff {f : α → List β} {g : α → β} {l : List α} (hf : ∀ a ∈ l, f a ≠ []) :
    l.flatMap f = l.map g ↔ ∀ a ∈ l, f a = [g a] := by
  induction l with
  | nil => simp
  | cons a l ih =>
    obtain ⟨ha, hf⟩ := List.forall_mem_cons.mp hf
    rw [List.flatMap_cons, List.map_cons, List.forall_mem_cons, ← ih hf]
    constructor
    · intro h
      have hle := length_le_flatMap hf
      have hlen := congrArg List.length h
      rw [List.length_append, List.length_cons, List.length_map] at hlen
      obtain ⟨b, hb⟩ := List.length_eq_one_iff.mp
        (show (f a).length = 1 by have := List.length_pos_of_ne_nil ha; omega)
      rw [hb] at h ⊢
      obtain ⟨rfl, hrest⟩ := List.cons.inj h
      exact ⟨rfl, hrest⟩
    · rintro ⟨ha, hl⟩
      rw [ha, hl]
      rfl

theorem ArgWord.outs_ne_nil (w : ArgWord) : w.outs ≠ [] := by
  intro hnil
  obtain ⟨hparts, htail⟩ := List.append_eq_nil_iff.mp hnil
  have hparts := List.map_eq_nil_iff.mp hparts
  have hne : w.tail ≠ [] := by
    rw [ArgWord.tail, hparts]
    exact fun hlead => w.nonempty hlead hparts
  rw [if_neg hne] at htail
  cases htail

/-- What is stored of a word is the word where it is one part. -/
theorem ArgWord.outs_eq_iff (w : ArgWord) : w.outs = [w.value] ↔ w.Single := by
  obtain ⟨lead, parts, hlead, hne⟩ := w
  cases parts with
  | nil =>
    have hlead : lead ≠ [] := fun h => hne h rfl
    refine iff_of_true ?_ (.inl rfl)
    simp [ArgWord.outs, ArgWord.tail, ArgWord.value, wordTail, hlead]
  | cons p parts =>
    constructor
    · intro h
      have hlen := congrArg List.length h
      cases parts with
      | nil =>
        by_cases hafter : p.after = []
        · refine .inr ⟨p, ?_, rfl, hafter⟩
          have hhead : p.inner = lead ++ p.inner := by
            simpa [ArgWord.outs, ArgWord.tail, ArgWord.value, wordTail, hafter] using h
          exact List.append_left_eq_self.mp hhead.symm
        · simp [ArgWord.outs, ArgWord.tail, wordTail, hafter] at hlen
      | cons p' parts => simp [ArgWord.outs] at hlen
    · rintro (hnil | ⟨p', rfl, hparts, hafter⟩)
      · cases hnil
      · cases hparts
        simp [ArgWord.outs, ArgWord.tail, ArgWord.value, wordTail, hafter]

end Tame

/-- A line is tokenised exactly where its words are one part each, and there is room for them. -/
theorem ArgLine.tokenised_iff (l : ArgLine) : l.Tokenised ↔ l.Tame := by
  obtain ⟨n, hbare, hspaced, hfull, hfits⟩ := l.answer
  have hne : ∀ w ∈ l.words, w.1.outs ≠ [] := fun w _ => w.1.outs_ne_nil
  have hle := length_le_flatMap hne
  have hsingle := flatMap_eq_map_iff (g := fun w => w.1.value) hne
  simp only [ArgWord.outs_eq_iff] at hsingle
  have hmax : RIM_MAX_ARGS = 64 := rfl
  by_cases hmany : RIM_MAX_ARGS < l.words.length + 2
  · refine iff_of_true ⟨fun h => by omega, fun _ => ⟨_, hfull ?_⟩⟩ (.inl hmany)
    by_cases hends : l.EndsBare
    · have := hbare hends
      omega
    · have := hspaced hends
      omega
  · constructor
    · intro h
      obtain ⟨st, hok, hargs⟩ := h.fits (by omega)
      have hroom : n + 2 < RIM_MAX_ARGS := by
        by_contra hno
        cases hok.symm.trans (hfull (by omega))
      obtain ⟨st', hok', hargs'⟩ := hfits hroom
      cases hok.symm.trans hok'
      have hmap : (l.words.flatMap fun w => w.1.outs).map Argument.word = (l.words.map fun w => w.1.value).map .word := by
        rw [List.map_map]
        exact (List.cons.inj (hargs'.symm.trans hargs)).2
      have hwords := List.map_injective_iff.mpr (fun _ _ h => Argument.word.inj h) hmap
      refine .inr ⟨hsingle.mp hwords, ?_⟩
      by_cases hends : l.EndsBare
      · exact .inr hends
      · have hcount := hspaced hends
        rw [hwords, List.length_map] at hcount
        exact .inl (by omega)
    · rintro (hmany' | ⟨hwords, hroom⟩)
      · exact absurd hmany' hmany
      · have hwords := hsingle.mpr hwords
        rw [hwords, List.length_map] at hbare hspaced
        have hn : n + 2 < RIM_MAX_ARGS := by
          by_cases hends : l.EndsBare
          · have := hbare hends
            omega
          · have := hspaced hends
            have := hroom.resolve_right hends
            omega
        obtain ⟨st, hok, hargs⟩ := hfits hn
        refine ⟨fun _ => ⟨st, hok, ?_⟩, fun h => absurd h hmany⟩
        rw [hargs, hwords, List.map_map]
        rfl

/-- Every text is a line or ends within a quote. `tokarg` refuses the latter, and makes the words of a line its
arguments exactly where each is one part and the table has room for them. It never leaves the text or the table. -/
theorem tokarg_tokenises (text : Bytes) (htext : ∀ c ∈ text, c ≠ 0) :
    ((∃ l : ArgLine, l.text = text) ∨ ∃ o : OpenLine, o.text = text) ∧
      tokarg (text ++ [0]) ≠ .error .undefined ∧ tokarg (text ++ [0]) ≠ .error .fuel ∧
      (∀ l : ArgLine, l.text = text → (l.Tokenised ↔ l.Tame)) ∧
      ∀ o : OpenLine, o.text = text → (∃ n, tokarg (text ++ [0]) = .error (.tooMany n)) ∨
        ∃ n, tokarg (text ++ [0]) = .error (.unterminated n) := by
  have hline := exists_line text htext
  have hanswer : (∃ st, tokarg (text ++ [0]) = .ok st) ∨ (∃ n, tokarg (text ++ [0]) = .error (.tooMany n)) ∨
      ∃ n, tokarg (text ++ [0]) = .error (.unterminated n) := by
    obtain ⟨l, rfl⟩ | ⟨o, rfl⟩ := hline
    · obtain ⟨n, -, -, hfull, hfits⟩ := l.answer
      by_cases hn : n + 2 < RIM_MAX_ARGS
      · obtain ⟨st, hok, -⟩ := hfits hn
        exact .inl ⟨st, hok⟩
      · exact .inr (.inl ⟨_, hfull (by omega)⟩)
    · exact .inr o.refused
  refine ⟨hline, ?_, ?_, fun l _ => l.tokenised_iff, fun o ho => ho ▸ o.refused⟩
  · intro h
    rw [h] at hanswer
    obtain ⟨_, h⟩ | ⟨_, h⟩ | ⟨_, h⟩ := hanswer <;> cases h
  · intro h
    rw [h] at hanswer
    obtain ⟨_, h⟩ | ⟨_, h⟩ | ⟨_, h⟩ := hanswer <;> cases h

theorem bare_of_all {s : Bytes} (h : (s.all fun c => c != 0 && c != 34 && c != 39 && !isspace c) = true) :
    ∀ c ∈ s, Bare c := by
  intro c hc
  have hall := List.all_eq_true.mp h c hc
  simp only [Bool.and_eq_true, bne_iff_ne, ne_eq, Bool.not_eq_true'] at hall
  obtain ⟨⟨⟨h0, h34⟩, h39⟩, hspace⟩ := hall
  exact ⟨h0, h34, h39, hspace⟩

/-- The text of one quoted part, with text before it. -/
theorem exists_joined (lead inner : Bytes) (hlead : (lead.all fun c => c != 0 && c != 34 && c != 39 && !isspace c) = true)
    (hinner : (inner.all fun c => c != 39 && c != 0) = true) :
    ∃ l : ArgLine, l.text = lead ++ 39 :: (inner ++ [39]) ∧ (l.words.map fun w => w.1.value) = [lead ++ inner] ∧
      (lead = [] → l.Tame) := by
  have hnil : ∀ {p : UInt8 → Prop}, ∀ c ∈ ([] : Bytes), p c := fun c hc => absurd hc List.not_mem_nil
  have hquoted : ∀ c ∈ inner, c ≠ 39 ∧ c ≠ 0 := by
    intro c hc
    have hall := List.all_eq_true.mp hinner c hc
    simpa only [Bool.and_eq_true, bne_iff_ne, ne_eq] using hall
  refine ⟨⟨[], [(⟨lead, [⟨39, inner, [], .inr rfl, hquoted, hnil⟩], bare_of_all hlead, fun _ => List.cons_ne_nil _ _⟩,
    [])],
    hnil, List.forall_mem_cons.mpr ⟨hnil, fun w hw => absurd hw List.not_mem_nil⟩,
      fun w hw => absurd hw List.not_mem_nil⟩,
    ?_, ?_, ?_⟩
  · simp [ArgLine.text, ArgWord.text, QuotedPart.text]
  · simp [ArgWord.value]
  · rintro rfl
    refine .inr ⟨List.forall_mem_cons.mpr ⟨.inr ⟨_, rfl, rfl, rfl⟩, fun w hw => absurd hw List.not_mem_nil⟩, .inl ?_⟩
    show 1 + 2 < 64
    decide

/-- An argument with a blank, in quotes. -/
theorem tokarg_tokenises_quoted : ∃ l : ArgLine, l.text = ascii "'b c'" ∧ l.Tokenised := by
  obtain ⟨l, htext, -, htame⟩ := exists_joined [] (ascii "b c") rfl rfl
  have hplain : l.text = ascii "'b c'" := htext
  have hnull : (0 : UInt8) ∉ ascii "'b c'" := notMem_of_all rfl
  exact ⟨l, hplain, ((tokarg_tokenises (ascii "'b c'") fun c hc h => hnull (h ▸ hc)).2.2.2.1 l hplain).mpr (htame rfl)⟩

theorem tokarg_not_tokenises : ¬ ∀ l : ArgLine, l.Tokenised := by
  intro h
  obtain ⟨l, htext, hwords, -⟩ := exists_joined (ascii "ab") (ascii "c") rfl rfl
  have hlen : l.words.length = 1 := by simpa using congrArg List.length hwords
  obtain ⟨st, hok, hargs⟩ := (h l).fits (by rw [hlen]; decide)
  have hrun : (tokarg (ascii "ab'c'" ++ [0])).map Tokarg.arguments = .ok [.command, .word (ascii "c")] := by rfl
  have hplain : l.text = ascii "ab'c'" := htext
  rw [← hplain, hok] at hrun
  have hvalues : l.words.map (fun w => Argument.word w.1.value) = [.word (ascii "abc")] := by
    have := congrArg (List.map Argument.word) hwords
    rwa [List.map_map] at this
  have hlost := hargs.symm.trans (Except.ok.inj hrun)
  rw [hvalues] at hlost
  have hlength := congrArg List.length (Argument.word.inj (List.cons.inj (List.cons.inj hlost).2).1)
  cases hlength

end RimStone
