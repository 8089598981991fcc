import Mathlib.Algebra.Order.BigOperators.Group.List
import RimStone.Database.MakeSql
import RimStone.Laws.Database.PrepText
import RimStone.Lib.Trim

/-!
# Data stays in its quotes

A text is cut at its placeholders, and `rim_make_SQL` writes the parts with the arguments between them. An argument is
escaped and trimmed in a buffer. Where white space is left out in front, its value begins later in the buffer, but as
many bytes are copied as there were with the white space: the null behind the value is one of them, and what an earlier
argument has left there may be. So the text is what it should be exactly where no argument that has anything but white
space begins with white space.
-/

namespace RimStone

open RimStone.Lib

/-- The parts of a text with the arguments between them, each in quotes. -/
def filledText : List Bytes → List Bytes → Bytes
  | p :: ps, w :: ws => p ++ 39 :: (w ++ 39 :: filledText ps ws)
  | p :: _, [] => p
  | [], _ => []

def Leads (e : Bytes) : Prop := front isspace e ≠ [] ∧ trim isspace e ≠ []

/-- The answer is the text in which each placeholder is the argument, escaped and trimmed, in quotes. -/
def FillsTemplate (escape : Bytes → Bytes) (format : Bytes) (args : List Bytes) (scratch block : Bytes) : Prop :=
  ∃ ks ps, Cuts PlaceholderAt 4 format ks ps ∧ weave (fun _ => RIM_LOOK_S) 1 ps = format ∧ ps.length = args.length + 1 ∧
    rimMakeSQL escape format args scratch block =
      .ok (filledText ps (args.map fun arg => trim isspace (escape arg)) ++ [0])

/-! ## Trimming in the buffer -/

/-- Where the white space at the end begins. -/
theorem sqlTrimRight_eq (e rest : Bytes) : sqlTrimRight (e ++ rest) e.length = some (e.rdropWhile isspace).length := by
  induction e using List.reverseRecOn generalizing rest with
  | nil => rfl
  | append_singleton e c ih =>
    have hget : (e ++ c :: rest)[e.length]? = some c := getElem?_middle e c rest
    rw [List.append_assoc, List.singleton_append, List.length_append, List.length_singleton, sqlTrimRight, hget]
    dsimp only [bind, Option.bind]
    by_cases hc : isspace c = true
    · rw [if_pos hc, List.rdropWhile_concat_pos _ _ _ hc, ih]
    · rw [if_neg hc, List.rdropWhile_concat_neg _ _ _ hc, List.length_append, List.length_singleton]

/-- Where the white space in front ends. -/
theorem sqlTrimLeft_eq {v : Bytes} (hv : (0 : UInt8) ∉ v) (rest : Bytes) (i : Nat) :
    sqlTrimLeft (v ++ 0 :: rest) i = some (i + (v.takeWhile isspace).length) := by
  induction v generalizing i with
  | nil =>
    rw [List.nil_append, sqlTrimLeft, if_neg fun h => h.1 rfl]
    rfl
  | cons c v ih =>
    obtain ⟨hc, hv⟩ := not_or.mp (fun h => hv (List.mem_cons.mpr h))
    rw [List.cons_append, sqlTrimLeft]
    by_cases hspace : isspace c = true
    · rw [if_pos ⟨Ne.symm hc, hspace⟩, ih hv, List.takeWhile_cons_of_pos hspace, List.length_cons]
      congr 1
      omega
    · rw [if_neg fun h => hspace h.2, List.takeWhile_cons_of_neg hspace]
      rfl

/-- What is left of a text without the white space at its end. -/
theorem rdropWhile_isspace (e : Bytes) :
    e.rdropWhile isspace = if trim isspace e = [] then [] else front isspace e ++ trim isspace e := by
  split_ifs with hnil
  · exact List.rdropWhile_eq_nil_iff.mpr (trim_eq_nil_iff.mp hnil)
  · have hback : ∀ x ∈ (back isspace e).reverse, isspace x = true := fun x hx => of_mem_back (List.mem_reverse.mp hx)
    have hlast : (front isspace e ++ trim isspace e).rdropWhile isspace = front isspace e ++ trim isspace e := by
      refine List.rdropWhile_eq_self_iff.mpr fun hne => ?_
      rw [List.getLast_append_of_ne_nil _ hnil]
      exact trim_last_not hnil
    conv_lhs => rw [← front_trim_back isspace e, ← List.append_assoc]
    unfold List.rdropWhile at hlast ⊢
    rw [List.reverse_append, List.dropWhile_append_of_pos hback]
    exact hlast

/-- Without the white space at both ends. -/
theorem dropWhile_rdropWhile (e : Bytes) : (e.rdropWhile isspace).dropWhile isspace = trim isspace e := by
  rw [rdropWhile_isspace]
  split_ifs with hnil
  · rw [hnil, List.dropWhile_nil]
  · rw [List.dropWhile_append_of_pos fun x hx => of_mem_front hx]
    cases htrim : trim isspace e with
    | nil => exact absurd htrim hnil
    | cons x t => exact List.dropWhile_cons_of_neg (trim_head_not htrim)

/-- White space is in front exactly where the value does not begin with the buffer. -/
theorem leads_iff (e : Bytes) : Leads e ↔ (e.rdropWhile isspace).takeWhile isspace ≠ [] := by
  have hsplit := List.takeWhile_append_dropWhile (p := isspace) (l := e.rdropWhile isspace)
  rw [dropWhile_rdropWhile] at hsplit
  unfold Leads
  by_cases hnil : trim isspace e = []
  · have hall : e.rdropWhile isspace = [] := by rw [rdropWhile_isspace, if_pos hnil]
    rw [hall]
    exact iff_of_false (fun h => h.2 hnil) (fun h => h rfl)
  · have hsame : (e.rdropWhile isspace).takeWhile isspace = front isspace e := by
      have heq := rdropWhile_isspace e
      rw [if_neg hnil] at heq
      exact List.append_cancel_right (hsplit.trans heq)
    rw [hsame]
    exact and_iff_left hnil

section Argument

variable {escape : Bytes → Bytes} {scratch arg : Bytes}

/-- The buffer has the value with the white space in front of it, a null, and something else. -/
theorem sqlArgument_eq (hnull : (0 : UInt8) ∉ escape arg) (hroom : (escape arg).length < scratch.length) :
    ∃ rest, ((escape arg).rdropWhile isspace ++ 0 :: rest).length = scratch.length ∧
      sqlArgument escape scratch arg = some ((escape arg).rdropWhile isspace ++ 0 :: rest,
        (((escape arg).rdropWhile isspace).takeWhile isspace).length, ((escape arg).rdropWhile isspace).length) := by
  obtain ⟨e, he⟩ : ∃ e, e = escape arg := ⟨_, rfl⟩
  unfold sqlArgument
  rw [← he] at hnull hroom ⊢
  have hcopy : memcpy scratch 0 (e ++ [0]) = some (e ++ 0 :: scratch.drop (e.length + 1)) := by
    have hlen : (e ++ [0]).length ≤ scratch.length := by
      rw [List.length_append, List.length_singleton]
      exact hroom
    have hmemcpy := memcpy_append [] hlen
    simpa using hmemcpy
  have hsplit : e.rdropWhile isspace ++ e.rtakeWhile isspace = e := List.rdropWhile_append_rtakeWhile
  have hvalue : (0 : UInt8) ∉ e.rdropWhile isspace := fun h => hnull ((List.rdropWhile_prefix _ _).mem h)
  -- a null is put behind the value, over white space or over the null that is there
  obtain ⟨rest, hlen, hpoke⟩ : ∃ rest, (e.rdropWhile isspace ++ 0 :: rest).length = scratch.length ∧
      sqlEndValue (e ++ 0 :: scratch.drop (e.length + 1)) e.length (e.rdropWhile isspace).length =
        some (e.rdropWhile isspace ++ 0 :: rest) := by
    unfold sqlEndValue
    by_cases hzero : e.length ≠ 0
    · rw [if_pos hzero]
      obtain ⟨v, hv⟩ : ∃ v, v = e.rdropWhile isspace := ⟨_, rfl⟩
      obtain ⟨b, hb⟩ : ∃ b, b = e.rtakeWhile isspace := ⟨_, rfl⟩
      rw [← hv, ← hb] at hsplit
      rw [← hv, ← hsplit]
      rw [← hsplit, List.length_append] at hroom
      cases b with
      | nil =>
        refine ⟨scratch.drop (v.length + 1), ?_, ?_⟩
        · simp only [List.length_append, List.length_cons, List.length_drop]
          rw [List.length_nil] at hroom
          omega
        · rw [List.append_nil]
          exact poke_middle v 0 _ 0
      | cons x b =>
        refine ⟨b ++ 0 :: scratch.drop ((v ++ x :: b).length + 1), ?_, ?_⟩
        · simp only [List.length_append, List.length_cons, List.length_drop]
          rw [List.length_cons] at hroom
          omega
        · rw [List.append_assoc]
          exact poke_middle v x _ 0
    · rw [if_neg hzero]
      obtain rfl : e = [] := List.length_eq_zero_iff.mp (not_not.mp hzero)
      refine ⟨scratch.drop 1, ?_, rfl⟩
      show (0 :: scratch.drop 1).length = _
      rw [List.length_cons, List.length_drop]
      rw [List.length_nil] at hroom
      omega
  refine ⟨rest, hlen, ?_⟩
  rw [hcopy]
  dsimp only [bind, Option.bind]
  rw [sqlTrimRight_eq]
  dsimp only
  rw [hpoke]
  dsimp only
  rw [sqlTrimLeft_eq hvalue, Nat.zero_add]

end Argument

/-! ## The text -/

section Loop

variable {escape : Bytes → Bytes} {scratch : Bytes}

/-- A part, an argument and a quote are written behind what was. -/
theorem sqlWrite_eq {before free w : Bytes} {val lenOf : Nat} (hval : val + lenOf ≤ scratch.length)
    (hw : w = (scratch.drop val).take lenOf) (hroom : before.length + lenOf + 1 ≤ free.length) (out : Bytes) :
    sqlWrite (out ++ free) out.length before scratch val lenOf =
      some ((out ++ (before ++ (w ++ [39]))) ++ free.drop (before.length + lenOf + 1)) := by
  have hlen : w.length = lenOf := by
    rw [hw, List.length_take_of_le]
    rw [List.length_drop]
    omega
  have hbefore : memcpy (out ++ free) out.length before = some ((out ++ before) ++ free.drop before.length) :=
    memcpy_append out (by omega)
  have hcopy : sqlCopy ((out ++ before) ++ free.drop before.length) (out.length + before.length) scratch val lenOf =
      some ((out ++ before ++ w) ++ (free.drop before.length).drop lenOf) := by
    have hfree : w.length ≤ (free.drop before.length).length := by
      rw [List.length_drop]
      omega
    have hmemcpy := memcpy_append (out ++ before) hfree
    rw [List.length_append, hlen] at hmemcpy
    rw [sqlCopy, if_pos hval, ← hw]
    exact hmemcpy
  obtain ⟨x, free', hfree⟩ : ∃ x free', free.drop (before.length + lenOf) = x :: free' := by
    apply List.exists_cons_of_length_pos
    rw [List.length_drop]
    omega
  have hquote : poke ((out ++ before ++ w) ++ x :: free') (out.length + before.length + lenOf) 39 =
      some ((out ++ before ++ w) ++ 39 :: free') := by
    have hplace : out.length + before.length + lenOf = (out ++ before ++ w).length := by
      rw [List.length_append, List.length_append, hlen]
    rw [hplace, poke_middle]
  have hrest : free.drop (before.length + lenOf + 1) = free' := by
    rw [← List.drop_drop, hfree]
    rfl
  unfold sqlWrite
  rw [hbefore]
  dsimp only [bind, Option.bind]
  rw [hcopy, List.drop_drop, hfree]
  dsimp only
  rw [hquote, hrest]
  simp only [List.append_assoc, List.cons_append, List.nil_append]

def Copied (escape : Bytes → Bytes) (arg w : Bytes) : Prop :=
  ¬ Leads (escape arg) ∧ w = trim isspace (escape arg) ∨ Leads (escape arg) ∧ (0 : UInt8) ∈ w

/-- From where its value begins, an argument is copied with a null, if white space was in front of it. -/
theorem copied_argument (escape : Bytes → Bytes) (arg rest : Bytes) :
    Copied escape arg ((((escape arg).rdropWhile isspace ++ 0 :: rest).drop
      (((escape arg).rdropWhile isspace).takeWhile isspace).length).take ((escape arg).rdropWhile isspace).length) := by
  obtain ⟨v, hv⟩ : ∃ v, v = (escape arg).rdropWhile isspace := ⟨_, rfl⟩
  have htrim : v.dropWhile isspace = trim isspace (escape arg) := by rw [hv, dropWhile_rdropWhile]
  have hleads : Leads (escape arg) ↔ v.takeWhile isspace ≠ [] := by rw [hv, leads_iff]
  have hsplit : v.takeWhile isspace ++ v.dropWhile isspace = v := List.takeWhile_append_dropWhile
  rw [← hv]
  by_cases hnil : v.takeWhile isspace = []
  · refine .inl ⟨fun h => hleads.mp h hnil, ?_⟩
    rw [hnil, List.nil_append] at hsplit
    rw [hnil, List.length_nil, List.drop_zero, List.take_left, ← htrim, hsplit]
  · refine .inr ⟨hleads.mpr hnil, ?_⟩
    have hdrop : (v ++ 0 :: rest).drop (v.takeWhile isspace).length = v.dropWhile isspace ++ 0 :: rest := by
      have hwhole : v ++ 0 :: rest = v.takeWhile isspace ++ (v.dropWhile isspace ++ 0 :: rest) := by
        rw [← List.append_assoc, hsplit]
      rw [hwhole, List.drop_left]
    have hlen := congrArg List.length hsplit
    have hpos : 0 < (v.takeWhile isspace).length := List.length_pos_iff.mpr hnil
    rw [List.length_append] at hlen
    obtain ⟨n, hn⟩ : ∃ n, v.length = (v.dropWhile isspace).length + (n + 1) :=
      ⟨(v.takeWhile isspace).length - 1, by omega⟩
    rw [hdrop, hn, List.take_length_add_append, List.take_succ_cons]
    exact List.mem_append_right _ List.mem_cons_self

theorem sqlFinish_eq {t free : Bytes} (hroom : t.length < free.length) (out : Bytes) :
    sqlFinish 0 t (out ++ free) out.length = .ok (out ++ (t ++ [0])) := by
  have hcopy : memcpy (out ++ free) out.length t = some ((out ++ t) ++ free.drop t.length) :=
    memcpy_append out (Nat.le_of_lt hroom)
  obtain ⟨x, free', hfree⟩ : ∃ x free', free.drop t.length = x :: free' := by
    apply List.exists_cons_of_length_pos
    rw [List.length_drop]
    omega
  have hnull : poke ((out ++ t) ++ x :: free') (out.length + t.length) 0 = some ((out ++ t) ++ 0 :: free') := by
    rw [← List.length_append, poke_middle]
  have htake : ((out ++ t) ++ 0 :: free').take (out.length + t.length + 1) = out ++ (t ++ [0]) := by
    rw [← List.length_append, List.take_length_add_append]
    simp
  unfold sqlFinish
  rw [hcopy]
  dsimp only [bind, Option.bind]
  rw [hfree, hnull]
  dsimp only
  rw [if_neg (not_not.mpr rfl), htake]

/-- A value that is read behind the buffer. -/
theorem sqlWrite_none {val lenOf : Nat} (hval : ¬ val + lenOf ≤ scratch.length) (block : Bytes) (n : Nat)
    (before : Bytes) :
    sqlWrite block n before scratch val lenOf = none := by
  unfold sqlWrite
  cases memcpy block n before with
  | none => rfl
  | some block' =>
    dsimp only [bind, Option.bind]
    rw [sqlCopy, if_neg hval]

/-- The text in front of a placeholder, with the quote that the placeholder begins with. -/
theorem take_placeholder {t : Bytes} {k : Nat} (h : PlaceholderAt t k) : t.take (k + 1) = t.take k ++ [39] := by
  have hlook := placeholderAt_take h
  have hget : t[k]? = some 39 := by
    have hhead : ((t.drop k).take 4)[0]? = some 39 := by rw [hlook]; rfl
    rw [List.getElem?_take_of_lt (by decide), List.getElem?_drop] at hhead
    exact hhead
  rw [List.take_add_one, hget]
  rfl

/-- The parts are written with what is copied for the arguments between them, unless it is read behind the buffer. -/
theorem sqlLoop_cases {t : Bytes} {ks : List Nat} {ps : List Bytes} (h : Cuts PlaceholderAt 4 t ks ps) {args : List Bytes}
    (hcount : args.length = ks.length)
    (hargs : ∀ arg ∈ args, (0 : UInt8) ∉ escape arg ∧ (escape arg).length < scratch.length) {free : Bytes}
    (hroom : t.length + (args.map fun arg => (escape arg).length).sum < free.length) (out : Bytes) :
    (sqlLoop escape args ks.length scratch t (out ++ free) out.length = .error .undefined ∧ ∃ arg ∈ args,
      Leads (escape arg)) ∨
      ∃ ws, List.Forall₂ (Copied escape) args ws ∧
        sqlLoop escape args ks.length scratch t (out ++ free) out.length = .ok (out ++ (filledText ps ws ++ [0])) := by
  induction h generalizing args scratch free out with
  | @last t hno =>
    obtain rfl := List.length_eq_zero_iff.mp hcount
    exact .inr ⟨[], .nil, sqlFinish_eq hroom out⟩
  | @cut t k ks ps hk hrest ih =>
    obtain ⟨arg, args, rfl⟩ : ∃ arg args', args = arg :: args' := List.exists_cons_of_length_pos (by
      rw [hcount]
      exact Nat.succ_pos _)
    obtain ⟨⟨hnull, hlen⟩, hargs⟩ := List.forall_mem_cons.mp hargs
    have hplace := placeholderAt_length hk.1
    have hsearch : strstr t RIM_LOOK_S = some k := (strstr_spec t).eq_some hk
    have hcount : args.length = ks.length := by simpa using hcount
    have hpercents : ((k :: ks.map (k + 4 + ·)).length : Int) - 1 = ks.length := by
      rw [List.length_cons, List.length_map]
      omega
    rw [List.map_cons, List.sum_cons] at hroom
    obtain ⟨rest, hsize, harg⟩ := sqlArgument_eq hnull hlen
    have hcopied := copied_argument escape arg rest
    have hshort := (List.rdropWhile_prefix isspace (escape arg)).length_le
    rw [sqlLoop, hpercents, if_neg (by omega), harg]
    dsimp only
    rw [hsearch]
    dsimp only
    rw [take_placeholder hk.1]
    obtain ⟨v, hv⟩ : ∃ v, v = (escape arg).rdropWhile isspace := ⟨_, rfl⟩
    rw [← hv] at hsize hcopied hshort ⊢
    have htake : (t.take k).length = k := List.length_take_of_le (by omega)
    by_cases hval : (v.takeWhile isspace).length + v.length ≤ (v ++ 0 :: rest).length
    · obtain ⟨w, hw⟩ : ∃ w, w = ((v ++ 0 :: rest).drop (v.takeWhile isspace).length).take v.length := ⟨_, rfl⟩
      rw [← hw] at hcopied
      have hbefore : (t.take k ++ [39]).length = k + 1 := by rw [List.length_append, htake, List.length_singleton]
      have hwlen : w.length = v.length := by
        rw [hw, List.length_take_of_le]
        rw [List.length_drop]
        omega
      have hwrite := sqlWrite_eq hval hw (show (t.take k ++ [39]).length + v.length + 1 ≤ free.length by omega) out
      have hnext : out.length + (k + 1) + v.length + 1 = (out ++ ((t.take k ++ [39]) ++ (w ++ [39]))).length := by
        simp only [List.length_append, htake, hwlen, List.length_singleton]
        omega
      have hargs' : ∀ arg ∈ args, (0 : UInt8) ∉ escape arg ∧ (escape arg).length < (v ++ 0 :: rest).length := by
        rw [hsize]
        exact hargs
      have hroom' : (t.drop (k + 4)).length + (args.map fun arg => (escape arg).length).sum <
          (free.drop ((t.take k ++ [39]).length + v.length + 1)).length := by
        rw [List.length_drop, List.length_drop, hbefore]
        omega
      rw [hwrite]
      dsimp only
      rw [hnext]
      obtain ⟨hundefined, bad, hmem, hbad⟩ | ⟨ws, hws, hok⟩ :=
        ih hcount hargs' hroom' (out ++ ((t.take k ++ [39]) ++ (w ++ [39])))
      · exact .inl ⟨hundefined, bad, List.mem_cons_of_mem _ hmem, hbad⟩
      · refine .inr ⟨w :: ws, .cons hcopied hws, ?_⟩
        rw [hok, filledText]
        simp only [List.append_assoc, List.cons_append, List.nil_append]
    · refine .inl ⟨?_, arg, List.mem_cons_self, ?_⟩
      · rw [sqlWrite_none hval]
      · rw [leads_iff, ← hv]
        intro hnil
        rw [hnil, List.length_nil] at hval
        omega

end Loop

/-! ## The answer -/

theorem countLoop_quotes {t : Bytes} {fuel : Nat} (hfuel : t.length < fuel) (count : Nat) :
    countLoop strstr [39] 1 fuel t count = some (count + t.count 39) := by
  induction t generalizing fuel count with
  | nil =>
    obtain ⟨fuel, rfl⟩ : ∃ n, fuel = n + 1 := Nat.exists_eq_succ_of_ne_zero (Nat.ne_of_gt hfuel)
    rfl
  | cons c t ih =>
    obtain ⟨fuel, rfl⟩ : ∃ n, fuel = n + 1 := Nat.exists_eq_succ_of_ne_zero (by omega)
    rw [List.length_cons] at hfuel
    by_cases hc : c = 39
    · subst hc
      have hfirst : strstr (39 :: t) [39] = some 0 := by
        rw [strstr]
        rfl
      rw [countLoop, hfirst]
      show countLoop strstr [39] 1 fuel t (count + 1) = _
      rw [ih (by omega), List.count_cons_self]
      congr 1
      omega
    · have hskip : countLoop strstr [39] 1 (fuel + 1) (c :: t) count = countLoop strstr [39] 1 (fuel + 1) t count := by
        have hnext : strstr (c :: t) [39] = (strstr t [39]).map (· + 1) := by
          rw [strstr, if_neg]
          intro h
          exact hc (List.cons.inj h).1
        rw [countLoop, countLoop, hnext]
        cases strstr t [39] <;> rfl
      rw [hskip, ih (by omega), List.count_cons_of_ne hc]

/-- A single quote is counted wherever it is. -/
theorem count_quotes (t : Bytes) : rimCountSubstring t (ascii "'") 1 true = some (t.count 39) := by
  have hloop := countLoop_quotes (Nat.lt_succ_self t.length) 0
  rw [Nat.zero_add] at hloop
  exact hloop

theorem sqlLengths_from (args : List Bytes) (a b : Nat) :
    (args.foldl (fun len arg => (len.1 + 2 * arg.length, if arg.length ≥ len.2 then arg.length else len.2)) (a, b)).1 =
        a + (args.map fun arg => 2 * arg.length).sum ∧
      b ≤ (args.foldl (fun len arg => (len.1 + 2 * arg.length, if arg.length ≥ len.2 then arg.length else len.2))
        (a, b)).2 ∧
        ∀ arg ∈ args, arg.length ≤
          (args.foldl (fun len arg => (len.1 + 2 * arg.length, if arg.length ≥ len.2 then arg.length else len.2))
            (a, b)).2 := by
  induction args generalizing a b with
  | nil => exact ⟨rfl, Nat.le_refl _, fun arg h => absurd h List.not_mem_nil⟩
  | cons arg args ih =>
    obtain ⟨hsum, hmax, hall⟩ := ih (a + 2 * arg.length) (if arg.length ≥ b then arg.length else b)
    have hthis : arg.length ≤ (if arg.length ≥ b then arg.length else b) ∧
      b ≤ (if arg.length ≥ b then arg.length else b) := by
      split_ifs <;> omega
    rw [List.foldl_cons, List.map_cons, List.sum_cons]
    refine ⟨?_, hthis.2.trans hmax, List.forall_mem_cons.mpr ⟨hthis.1.trans hmax, hall⟩⟩
    rw [hsum]
    omega

/-- The block is long enough for all arguments, and the buffer for each. -/
theorem sqlLengths_spec (args : List Bytes) : (sqlLengths args).1 = (args.map fun arg => 2 * arg.length).sum ∧
    ∀ arg ∈ args, 2 * arg.length < sqlScratchSize args := by
  obtain ⟨hsum, -, hall⟩ := sqlLengths_from args 0 0
  rw [Nat.zero_add] at hsum
  refine ⟨hsum, fun arg harg => ?_⟩
  have hmax : arg.length ≤ (sqlLengths args).2 := hall arg harg
  unfold sqlScratchSize
  dsimp only
  split_ifs <;> omega

theorem mem_filledText {ps ws : List Bytes} {c : UInt8} (h : c ∈ filledText ps ws) :
    (∃ p ∈ ps, c ∈ p) ∨ c = 39 ∨ ∃ w ∈ ws, c ∈ w := by
  induction ps generalizing ws with
  | nil =>
    rw [filledText] at h
    cases h
  | cons p ps ih =>
    cases ws with
    | nil =>
      rw [filledText] at h
      exact .inl ⟨p, List.mem_cons_self, h⟩
    | cons w ws =>
      rw [filledText, List.mem_append, List.mem_cons, List.mem_append, List.mem_cons] at h
      obtain h | h | h | h | h := h
      · exact .inl ⟨p, List.mem_cons_self, h⟩
      · exact .inr (.inl h)
      · exact .inr (.inr ⟨w, List.mem_cons_self, h⟩)
      · exact .inr (.inl h)
      · obtain ⟨q, hq, hc⟩ | h | ⟨v, hv, hc⟩ := ih h
        · exact .inl ⟨q, List.mem_cons_of_mem _ hq, hc⟩
        · exact .inr (.inl h)
        · exact .inr (.inr ⟨v, List.mem_cons_of_mem _ hv, hc⟩)

theorem mem_filledText_of {ps ws : List Bytes} (hlen : ws.length < ps.length) {w : Bytes} (hw : w ∈ ws) {c : UInt8}
    (hc : c ∈ w) :
    c ∈ filledText ps ws := by
  induction ps generalizing ws with
  | nil => cases hlen
  | cons p ps ih =>
    cases ws with
    | nil => cases hw
    | cons v ws =>
      rw [List.length_cons, List.length_cons] at hlen
      rw [filledText, List.mem_append, List.mem_cons, List.mem_append, List.mem_cons]
      obtain rfl | hw := List.mem_cons.mp hw
      · exact .inr (.inr (.inl hc))
      · exact .inr (.inr (.inr (.inr (ih (by omega) hw))))

/-- Where no white space is in front of a value, the values are copied. -/
theorem copied_map {escape : Bytes → Bytes} {args ws : List Bytes} (h : List.Forall₂ (Copied escape) args ws)
    (hno : ∀ arg ∈ args, ¬ Leads (escape arg)) : ws = args.map fun arg => trim isspace (escape arg) := by
  induction h with
  | nil => rfl
  | @cons arg w args ws hw _ ih =>
    obtain ⟨hthis, hno⟩ := List.forall_mem_cons.mp hno
    obtain ⟨-, rfl⟩ | ⟨hleads, -⟩ := hw
    · rw [List.map_cons, ih hno]
    · exact absurd hleads hthis

theorem copied_null {escape : Bytes → Bytes} {args ws : List Bytes} (h : List.Forall₂ (Copied escape) args ws)
    {arg : Bytes}
    (harg : arg ∈ args) (hleads : Leads (escape arg)) : ∃ w ∈ ws, (0 : UInt8) ∈ w := by
  induction h with
  | nil => cases harg
  | @cons arg' w args ws hw _ ih =>
    obtain rfl | harg := List.mem_cons.mp harg
    · obtain ⟨hno, -⟩ | ⟨-, hnull⟩ := hw
      · exact absurd hleads hno
      · exact ⟨w, List.mem_cons_self, hnull⟩
    · obtain ⟨v, hv, hnull⟩ := ih harg
      exact ⟨v, List.mem_cons_of_mem _ hv, hnull⟩

section Answer

variable {escape : Bytes → Bytes} {format scratch block : Bytes} {args : List Bytes}

/-- What `rim_make_SQL` answers. -/
theorem rimMakeSQL_cases {ks : List Nat} {ps : List Bytes} (hnull : ∀ s, (0 : UInt8) ∉ s → (0 : UInt8) ∉ escape s)
    (hlen : ∀ s, (escape s).length ≤ 2 * s.length) (hquotes : format.count 39 % 2 = 0)
      (hargs : ∀ arg ∈ args, (0 : UInt8) ∉ arg)
    (hscratch : scratch.length = sqlScratchSize args) (hblock : block.length = format.length + 1 + (sqlLengths args).1)
    (h : Cuts PlaceholderAt 4 format ks ps) (hcount : args.length = ks.length) :
    (rimMakeSQL escape format args scratch block = .error .undefined ∧ ∃ arg ∈ args, Leads (escape arg)) ∨
      ∃ ws, List.Forall₂ (Copied escape) args ws ∧
        rimMakeSQL escape format args scratch block = .ok (filledText ps ws ++ [0]) := by
  obtain ⟨hsum, hmax⟩ := sqlLengths_spec args
  have hsums : (args.map fun arg => (escape arg).length).sum ≤ (args.map fun arg => 2 * arg.length).sum :=
    List.sum_le_sum fun arg _ => hlen arg
  have hroom : format.length + (args.map fun arg => (escape arg).length).sum < block.length := by
    rw [hblock, hsum]
    omega
  have hfits : ∀ arg ∈ args, (0 : UInt8) ∉ escape arg ∧ (escape arg).length < scratch.length := by
    intro arg harg
    rw [hscratch]
    exact ⟨hnull arg (hargs arg harg), Nat.lt_of_le_of_lt (hlen arg) (hmax arg harg)⟩
  have hloop := sqlLoop_cases h hcount hfits hroom []
  have hcall : rimMakeSQL escape format args scratch block = sqlLoop escape args ks.length scratch format block 0 := by
    unfold rimMakeSQL
    rw [count_placeholders h, count_quotes]
    dsimp only
    rw [if_neg (not_not.mpr hquotes)]
  rw [hcall]
  exact hloop

/-- With white space in front of a value there is a null in the answer, which is not in the text nor in an argument. -/
theorem not_fills_of_leads (hnull : ∀ s, (0 : UInt8) ∉ s → (0 : UInt8) ∉ escape s)
    (hlen : ∀ s, (escape s).length ≤ 2 * s.length)
    (hformat : (0 : UInt8) ∉ format) (hquotes : format.count 39 % 2 = 0) (hargs : ∀ arg ∈ args, (0 : UInt8) ∉ arg)
    (hscratch : scratch.length = sqlScratchSize args) (hblock : block.length = format.length + 1 + (sqlLengths args).1)
    {arg : Bytes} (harg : arg ∈ args) (hleads : Leads (escape arg)) :
      ¬ FillsTemplate escape format args scratch block := by
  rintro ⟨ks, ps, h, -, hps, hfills⟩
  have hks : args.length = ks.length := by
    have hparts := h.length_eq
    omega
  obtain ⟨hundefined, -⟩ | ⟨ws, hws, hok⟩ := rimMakeSQL_cases hnull hlen hquotes hargs hscratch hblock h hks
  · cases hundefined.symm.trans hfills
  · have hsame := List.append_cancel_right (Except.ok.inj (hok.symm.trans hfills))
    obtain ⟨w, hw, hzero⟩ := copied_null hws harg hleads
    have hin : (0 : UInt8) ∈ filledText ps ws := by
      refine mem_filledText_of ?_ hw hzero
      rw [hps, ← hws.length_eq]
      exact Nat.lt_succ_self _
    rw [hsame] at hin
    obtain ⟨p, hp, hc⟩ | hc | ⟨v, hv, hc⟩ := mem_filledText hin
    · exact hformat ((h.part_of p hp).subset hc)
    · cases hc
    · obtain ⟨a, ha, rfl⟩ := List.mem_map.mp hv
      exact hnull a (hargs a ha) (mem_of_mem_trim hc)

end Answer

theorem double_null (s : Bytes) (hs : (0 : UInt8) ∉ s) : (0 : UInt8) ∉ double 39 s := fun h => hs ((mem_double 39).mp h)

theorem length_double_le (s : Bytes) : (double 39 s).length ≤ 2 * s.length := by
  have hcount := List.count_le_length (a := (39 : UInt8)) (l := s)
  rw [length_double]
  omega

end RimStone
