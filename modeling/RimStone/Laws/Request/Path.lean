import RimStone.Request.Path
import RimStone.Laws.Request.Query
import RimStone.Laws.Text.ReplaceString

/-!
# The path names the request

What a path asks for is said of the whole path (`dispatched`): the request is what is between the application path and
the segment that has the first `=`, and each segment from there on sets a parameter. `rim_get_input` takes the length
that `snprintf` answers for that of the text in its buffer, `rim_decorate_path` stops where the buffer of the name is
full, and the loop over the segments stops at an empty one. Where the path fits, the name of its request fits and no
segment is empty, no index is outside of a buffer, and what is done is what the path asks for, or an error is reported
(`inputPath_dispatched`).
-/

namespace RimStone

open RimStone.Lib

/-! ## What a path asks for -/

/-- The path of a URL, without the slashes at the end of the script's name and at its own end. -/
def urlPath (scriptName pathInfo : Bytes) : Bytes :=
  (scriptName.rdropWhile (· == 47) ++ pathInfo).rdropWhile (· == 47)

/-- What is behind the application path, if that is a request. -/
def behindApp (app path : Bytes) : Option Bytes :=
  if sameCase (path.take app.length) app then
    match path.drop app.length with
    | c :: d :: r => if c = 47 ∧ d ≠ 63 then some (d :: r) else none
    | _ => none
  else none

/-- The request, and the segments behind it, from the one that has the first `=`. -/
def splitRequest (r : Bytes) : Option (Bytes × List Bytes) :=
  if 61 ∈ r then
    let before := (r.takeWhile (· != 61)).rdropWhile (· != 47)
    if before.dropLast = [] then none else some (before.dropLast, (r.drop before.length).splitOn 47)
  else some (r, [])

/-- What a character of a request is in the name. -/
def nameChar (c : UInt8) : Bytes := if c = 47 then [95, 95] else if c = 45 then [95] else [c]

def requestName (s : Bytes) : Bytes := s.flatMap nameChar

/-- A `-` in the name of a parameter is a `_`. -/
def dash (c : UInt8) : UInt8 := if c = 45 then 95 else c

def segmentPair (seg : Bytes) : Option (Bytes × Bytes) := (splitEq seg).map fun p => (p.1.map dash, trim isspace p.2)

section Params

variable {δ : Type} (str2num : Bytes → Option Int) (str2dbl : Bytes → Option δ)

def setSegment (pars : List (RimIpar δ)) (seg : Bytes) : Option (List (RimIpar δ)) := do
  let p ← segmentPair seg
  (setPar str2num str2dbl pars p.1 p.2).toOption

/-- The name of the request, and the parameters that the segments have set one after the other. -/
def requestMeaning (r : Bytes) (pars : List (RimIpar δ)) : Option (Bytes × List (RimIpar δ)) := do
  let p ← splitRequest r
  let pars ← (p.2.filter (· ≠ [])).foldlM (setSegment str2num str2dbl) pars
  some (requestName p.1, pars)

def dispatched (app path : Bytes) (pars : List (RimIpar δ)) : Option (Bytes × List (RimIpar δ)) :=
  (behindApp app path).bind fun r => requestMeaning str2num str2dbl r pars

end Params

/-- What is answered is what is wanted, and an error is reported where nothing is. -/
inductive Meets {α : Type} : Except InputFault α → Option α → Prop
  | ok (a : α) : Meets (.ok a) (some a)
  | report (format : String) (args : List Bytes) : Meets (.error (.report format args)) none

theorem Meets.bind {α β : Type} {x : Except InputFault α} {o : Option α} {f : α → Except InputFault β} {g : α → Option β}
    (h : Meets x o) (hf : ∀ a, Meets (f a) (g a)) : Meets (x >>= f) (o >>= g) := by
  cases h with
  | ok a => exact hf a
  | report format args => exact .report format args

theorem Meets.of_defined {α : Type} {x : Except InputFault α} (h : x ≠ .error .undefined) : Meets x x.toOption := by
  cases x with
  | ok a => exact .ok a
  | error e =>
    cases e with
    | report format args => exact .report format args
    | undefined => exact absurd rfl h

/-- A text is cut at a byte that is in it. -/
theorem cut_at {p : UInt8 → Bool} {c : UInt8} {r : Bytes} (hp : ∀ x, p x = false ↔ x = c) (h : c ∈ r) :
    r = r.takeWhile p ++ c :: (r.dropWhile p).tail := by
  have hne : r.dropWhile p ≠ [] := by
    intro hnil
    have hall := List.dropWhile_eq_nil_iff.mp hnil c h
    rw [(hp c).mpr rfl] at hall
    cases hall
  have hhead : (r.dropWhile p).head hne = c := (hp _).mp (List.head_dropWhile_not p hne)
  conv_lhs => rw [← List.takeWhile_append_dropWhile (p := p) (l := r), ← List.cons_head_tail hne, hhead]

/-! ## Slashes and the application path -/

section Start

variable {s t app path rest junk : Bytes}

/-- The slashes at the end of a text become nulls. -/
theorem cutSlashes_eq (s rest : Bytes) : ∃ junk, cutSlashes (s ++ 0 :: rest) s.length =
    some (s.rdropWhile (· == 47) ++ 0 :: junk, (s.rdropWhile (· == 47)).length) := by
  induction s using List.reverseRecOn generalizing rest with
  | nil => exact ⟨rest, rfl⟩
  | append_singleton s c ih =>
    have hget : (s ++ c :: 0 :: rest)[s.length]? = some c := getElem?_middle s c _
    rw [List.length_append, List.length_singleton, List.append_assoc, List.singleton_append, cutSlashes, hget]
    by_cases hc : c = 47
    · subst hc
      obtain ⟨junk, hcut⟩ := ih (0 :: rest)
      refine ⟨junk, ?_⟩
      rw [List.rdropWhile_concat_pos _ _ _ (by rfl), ← hcut]
      dsimp only [bind, Option.bind]
      rw [if_pos rfl, poke_middle]
    · refine ⟨rest, ?_⟩
      rw [List.rdropWhile_concat_neg _ _ _ (by simpa using hc)]
      dsimp only [bind, Option.bind]
      rw [if_neg hc]
      simp

theorem tolower_ne_zero {c : UInt8} (hc : c ≠ 0) : tolower c ≠ 0 := by
  unfold tolower
  split_ifs with hupper
  · intro h
    have hnat := congrArg UInt8.toNat h
    obtain ⟨hlow, hhigh⟩ := hupper
    rw [UInt8.le_iff_toNat_le] at hlow hhigh
    rw [UInt8.toNat_add] at hnat
    simp only [UInt8.reduceToNat] at hnat hlow hhigh
    omega
  · exact hc

/-- The comparison with the application path stays within both strings. -/
theorem sameStart_eq (happ : (0 : UInt8) ∉ app) (junk : Bytes) :
    sameStart app.length (app ++ [0]) (path ++ 0 :: junk) = some (sameCase (path.take app.length) app) := by
  induction app generalizing path with
  | nil => rfl
  | cons a app ih =>
    obtain ⟨ha, happ⟩ := not_or.mp (fun h => happ (List.mem_cons.mpr h))
    cases path with
    | nil =>
      have hne : tolower a ≠ tolower 0 := tolower_ne_zero (Ne.symm ha)
      show sameStart (app.length + 1) (a :: (app ++ [0])) (0 :: junk) = _
      rw [sameStart, if_pos hne]
      rfl
    | cons c path =>
      show sameStart (app.length + 1) (a :: (app ++ [0])) (c :: (path ++ 0 :: junk)) = _
      rw [sameStart, List.length_cons, List.take_succ_cons]
      unfold sameCase
      rw [List.map_cons, List.map_cons]
      split_ifs with hne hzero
      · have hfalse : (tolower c == tolower a) = false := beq_eq_false_iff_ne.mpr (Ne.symm hne)
        rw [List.cons_beq_cons, hfalse, Bool.false_and]
      · exact absurd hzero.symm ha
      · have htrue : (tolower c == tolower a) = true := beq_iff_eq.mpr (not_not.mp hne).symm
        rw [ih happ, List.cons_beq_cons, htrue, Bool.true_and]
        rfl

theorem missingRequest_at {b pre : Bytes} {c : UInt8} (h : b = pre ++ c :: rest) :
    missingRequest b pre.length =
      if c ≠ 47 then some true else b[pre.length + 1]?.bind fun d => some (d == 0 || d == 63) := by
  have hget : b[pre.length]? = some c := by
    rw [h]
    exact getElem?_middle pre c rest
  unfold missingRequest
  rw [hget]
  rfl

/-- There is a request behind the application path. -/
theorem missingRequest_false (pre : Bytes) {d : UInt8} (hd : d ≠ 0) (hd' : d ≠ 63) (rest : Bytes) :
    missingRequest (pre ++ 47 :: d :: rest) pre.length = some false := by
  have hget : (pre ++ 47 :: d :: rest)[pre.length + 1]? = some d := by
    have hsplit : pre ++ 47 :: d :: rest = (pre ++ [47]) ++ d :: rest := by simp
    have hlen : pre.length + 1 = (pre ++ [47]).length := by simp
    rw [hsplit, hlen]
    exact getElem?_middle _ d rest
  rw [missingRequest_at rfl, if_neg (not_not.mpr rfl), hget]
  simp [hd, hd']

/-- There is none. -/
theorem missingRequest_true (pre : Bytes) (ht : ∀ d r, t = 47 :: d :: r → d = 63) (junk : Bytes) :
    missingRequest (pre ++ (t ++ 0 :: junk)) pre.length = some true := by
  cases t with
  | nil => rw [List.nil_append, missingRequest_at rfl, if_pos (by decide)]
  | cons c t =>
    by_cases hc : c = 47
    · subst hc
      have hnext : ∃ d, (pre ++ (47 :: t ++ 0 :: junk))[pre.length + 1]? = some d ∧ (d == 0 || d == 63) = true := by
        have hlen : pre.length + 1 = (pre ++ [47]).length := by simp
        cases t with
        | nil =>
          have hsplit : pre ++ ([47] ++ 0 :: junk) = (pre ++ [47]) ++ 0 :: junk := by simp
          refine ⟨0, ?_, rfl⟩
          rw [hsplit, hlen]
          exact getElem?_middle _ 0 junk
        | cons d t =>
          have hsplit : pre ++ (47 :: d :: t ++ 0 :: junk) = (pre ++ [47]) ++ d :: (t ++ 0 :: junk) := by simp
          refine ⟨d, ?_, ?_⟩
          · rw [hsplit, hlen]
            exact getElem?_middle _ d _
          · rw [ht d t rfl]
            rfl
      obtain ⟨d, hget, hd⟩ := hnext
      rw [List.cons_append] at hget ⊢
      rw [missingRequest_at rfl, if_neg (not_not.mpr rfl), hget, Option.bind_some, hd]
    · rw [List.cons_append, missingRequest_at rfl, if_pos hc]

end Start

/-! ## The name of the request -/

section Name

variable {s rest : Bytes}

/-- From the first `=` it is gone back to the slash before it, or to the beginning. -/
theorem backToSlash_eq {pre before : Bytes} {c : UInt8} (hpre : pre ≠ []) (hc : c ≠ 47) (rest : Bytes) :
    backToSlash (pre ++ (before ++ c :: rest)) pre.length (pre.length + before.length) =
      some (pre.length + (before.rdropWhile (· != 47)).dropLast.length) := by
  obtain ⟨n, hn⟩ : ∃ n, pre.length = n + 1 := Nat.exists_eq_succ_of_ne_zero (List.length_pos_iff.mpr hpre).ne'
  have hhere : ∀ b : Bytes, backToSlash b pre.length pre.length = some pre.length := by
    intro b
    rw [hn, backToSlash, if_pos rfl]
  induction before using List.reverseRecOn generalizing c rest with
  | nil => exact hhere _
  | append_singleton before d ih =>
    have hback : backToSlash (pre ++ (before ++ [d] ++ c :: rest)) pre.length (pre.length + (before ++ [d]).length) =
        backToSlash (pre ++ (before ++ d :: (c :: rest))) pre.length (pre.length + before.length) := by
      have hlen : pre.length + (before ++ [d]).length = (pre.length + before.length) + 1 := by
        rw [List.length_append, List.length_singleton, Nat.add_assoc]
      have hget : (pre ++ (before ++ [d] ++ c :: rest))[pre.length + before.length + 1]? = some c := by
        have hsplit : pre ++ (before ++ [d] ++ c :: rest) = (pre ++ (before ++ [d])) ++ c :: rest := by simp
        have hplace : pre.length + before.length + 1 = (pre ++ (before ++ [d])).length := by simp [Nat.add_assoc]
        rw [hsplit, hplace]
        exact getElem?_middle _ c rest
      rw [hlen, backToSlash, if_neg (by omega), hget]
      dsimp only [bind, Option.bind]
      rw [if_neg hc, List.append_assoc, List.singleton_append]
    rw [hback]
    by_cases hd : d = 47
    · subst hd
      rw [List.rdropWhile_concat_neg _ _ _ (by decide), List.dropLast_concat]
      cases before with
      | nil => exact hhere _
      | cons a before =>
        have hget : (pre ++ (a :: before ++ 47 :: c :: rest))[pre.length + (a :: before).length]? = some 47 := by
          rw [← List.append_assoc, ← List.length_append]
          exact getElem?_middle _ 47 _
        have hlen : pre.length + (a :: before).length = (pre.length + before.length) + 1 := by
          rw [List.length_cons, Nat.add_assoc]
        rw [hlen] at hget ⊢
        rw [backToSlash, if_neg (by omega), hget]
        rfl
    · rw [List.rdropWhile_concat_pos _ _ _ (by simpa using hd)]
      exact ih hd (c :: rest)

theorem length_nameChar (c : UInt8) : 1 ≤ (nameChar c).length ∧ (nameChar c).length ≤ 2 := by
  unfold nameChar
  split_ifs <;> simp

theorem requestName_cons (c : UInt8) (s : Bytes) : requestName (c :: s) = nameChar c ++ requestName s := List.flatMap_cons

/-- A round of the loop writes what a character is in the name. -/
theorem decorateLoop_cons {b out free : Bytes} {ereq reqnameLen : Int} {fuel pbeg : Nat} {c : UInt8}
    (hget : b[pbeg]? = some c)
    (hne : (pbeg : Int) ≠ ereq) (hroom : (out.length : Int) ≤ reqnameLen - 3) (hfree : 2 ≤ free.length) :
    decorateLoop b ereq reqnameLen (fuel + 1) pbeg (out ++ free) out.length =
      decorateLoop b ereq reqnameLen fuel (pbeg + 1) ((out ++ nameChar c) ++ free.drop (nameChar c).length)
        (out ++ nameChar c).length := by
  obtain ⟨x, y, free, rfl⟩ : ∃ x y free', free = x :: y :: free' := by
    cases free with
    | nil => cases hfree
    | cons x free =>
      cases free with
      | nil => simp at hfree
      | cons y free => exact ⟨x, y, free, rfl⟩
  rw [decorateLoop, if_pos ⟨hne, hroom⟩, hget]
  dsimp only [bind, Option.bind]
  unfold nameChar
  split_ifs with hslash hdash
  · have hsecond : poke (out ++ 95 :: y :: free) (out.length + 1) 95 = some ((out ++ [95, 95]) ++ free) := by
      have hsplit : out ++ 95 :: y :: free = (out ++ [95]) ++ y :: free := by simp
      have hlen : out.length + 1 = (out ++ [95]).length := by simp
      rw [hsplit, hlen, poke_middle]
      simp
    rw [poke_middle]
    dsimp only
    rw [hsecond]
    simp
  · rw [poke_middle]
    simp
  · rw [poke_middle]
    simp

/-- The name of a request is written whole, if there is room for what is in front of its last character. -/
theorem decorateLoop_eq {pre : Bytes} {reqnameLen : Int} {fuel : Nat} {free : Bytes} (out : Bytes)
    (hroom : s ≠ [] → (out.length : Int) + (requestName s.dropLast).length ≤ reqnameLen - 3)
    (hsize : (out.length : Int) + free.length = reqnameLen) (hfuel : reqnameLen < out.length + fuel) :
    ∃ free', decorateLoop (pre ++ (s ++ rest)) ((pre.length : Int) + s.length) reqnameLen fuel pre.length (out ++ free)
        out.length = some ((out ++ requestName s) ++ free', (out ++ requestName s).length) ∧
      ((out ++ requestName s).length : Int) + free'.length = reqnameLen := by
  induction s generalizing pre fuel out free with
  | nil =>
    obtain ⟨fuel, rfl⟩ : ∃ n, fuel = n + 1 := Nat.exists_eq_succ_of_ne_zero (by omega)
    refine ⟨free, ?_, ?_⟩
    · rw [decorateLoop, if_neg fun h => h.1 (by simp)]
      simp [requestName]
    · simpa [requestName] using hsize
  | cons c s ih =>
    obtain ⟨fuel, rfl⟩ : ∃ n, fuel = n + 1 := Nat.exists_eq_succ_of_ne_zero (by omega)
    have hroom := hroom (List.cons_ne_nil c s)
    obtain ⟨hone, htwo⟩ := length_nameChar c
    have hget : (pre ++ (c :: s ++ rest))[pre.length]? = some c := getElem?_middle pre c (s ++ rest)
    have hne : (pre.length : Int) ≠ (pre.length : Int) + (c :: s).length := by
      rw [List.length_cons]
      omega
    have hsplit : pre ++ (c :: s ++ rest) = (pre ++ [c]) ++ (s ++ rest) := by simp
    have hlen : pre.length + 1 = (pre ++ [c]).length := by simp
    have hend : (pre.length : Int) + (c :: s).length = ((pre ++ [c]).length : Int) + s.length := by
      rw [List.length_append, List.length_singleton, List.length_cons]
      omega
    rw [decorateLoop_cons hget hne (by omega) (by omega), hsplit, hlen, hend, requestName_cons, ← List.append_assoc out]
    apply ih
    · intro hs
      rw [List.dropLast_cons_of_ne_nil hs, requestName_cons, List.length_append] at hroom
      rw [List.length_append]
      omega
    · rw [List.length_append, List.length_drop]
      omega
    · rw [List.length_append]
      omega

/-- The name in its buffer, with a null behind it. -/
theorem decorateTo_eq {reqname : Bytes} {reqnameLen : Nat} (hs : s ≠ [])
    (hroom : (requestName s.dropLast).length + 3 ≤ reqnameLen) (hsize : reqname.length = reqnameLen) (pre rest : Bytes) :
    ∃ free, decorateTo reqname reqnameLen (pre ++ (s ++ rest)) pre.length ((pre.length : Int) + s.length) =
      some (requestName s ++ 0 :: free) := by
  obtain ⟨free, hloop, hlen⟩ : ∃ free, decorateLoop (pre ++ (s ++ rest)) ((pre.length : Int) + s.length) reqnameLen
        ((reqnameLen : Int).toNat + 1) pre.length reqname 0 = some (requestName s ++ free, (requestName s).length) ∧
      ((requestName s).length : Int) + free.length = reqnameLen := by
    refine decorateLoop_eq [] (fun _ => ?_) ?_ ?_
    · rw [List.length_nil]
      omega
    · rw [List.length_nil, hsize]
      omega
    · rw [List.length_nil]
      omega
  have hlast : (requestName s).length ≤ (requestName s.dropLast).length + 2 := by
    have hname : requestName s = requestName s.dropLast ++ nameChar (s.getLast hs) := by
      conv_lhs => rw [← List.dropLast_append_getLast hs]
      simp [requestName]
    rw [hname, List.length_append]
    exact Nat.add_le_add_left (length_nameChar _).2 _
  cases free with
  | nil =>
    rw [List.length_nil] at hlen
    omega
  | cons x free =>
    refine ⟨free, ?_⟩
    unfold decorateTo
    rw [hloop]
    exact poke_middle _ x free 0

/-- What is in front of the slash that it is gone back to, and what is behind it. -/
theorem splitRequest_eq {r before : Bytes} (hmem : 61 ∈ r)
    (hbefore : before = (r.takeWhile (· != 61)).rdropWhile (· != 47)) :
    before.dropLast = [] ∧ splitRequest r = none ∨
      before.dropLast ≠ [] ∧ r = before.dropLast ++ 47 :: r.drop before.length ∧
        splitRequest r = some (before.dropLast, (r.drop before.length).splitOn 47) := by
  unfold splitRequest
  rw [if_pos hmem, ← hbefore]
  by_cases hnil : before.dropLast = []
  · exact .inl ⟨hnil, if_pos hnil⟩
  · refine .inr ⟨hnil, ?_, if_neg hnil⟩
    have hne : before ≠ [] := by
      rintro rfl
      exact hnil rfl
    have hslash : before.getLast hne = 47 := by
      subst hbefore
      simpa using List.rdropWhile_last_not _ _ hne
    have hjoin : before.dropLast ++ [47] = before := by rw [← hslash, List.dropLast_append_getLast hne]
    have hbegins : before <+: r := by
      rw [hbefore]
      exact (List.rdropWhile_prefix _ _).trans (List.takeWhile_prefix _)
    rw [← List.singleton_append, ← List.append_assoc, hjoin]
    exact (List.prefix_iff_eq_append.mp hbegins).symm

variable {r reqname : Bytes} {reqnameLen : Nat}

/-- Where the path has no `=`, all of it is the request. -/
theorem rimDecoratePath_whole (hr : r ≠ []) (hnull : (0 : UInt8) ∉ r) (hmem : 61 ∉ r)
    (hsize : reqname.length = reqnameLen)
    (hroom : (requestName r.dropLast).length + 3 ≤ reqnameLen) (pre junk : Bytes) :
    ∃ free, rimDecoratePath reqname reqnameLen (pre ++ 47 :: (r ++ 0 :: junk)) pre.length ((r.length : Int) + 1) =
      some (some (requestName r ++ 0 :: free, none)) := by
  have hget : (pre ++ 47 :: (r ++ 0 :: junk))[pre.length]? = some 47 := getElem?_middle pre 47 _
  have hsplit : pre ++ 47 :: (r ++ 0 :: junk) = (pre ++ [47]) ++ (r ++ 0 :: junk) := by simp
  have hlen : pre.length + 1 = (pre ++ [47]).length := by simp
  have hplain : ∀ x ∈ r, x ≠ 61 ∧ x ≠ 0 := by
    intro x hx
    exact ⟨fun h => hmem (h ▸ hx), fun h => hnull (h ▸ hx)⟩
  obtain ⟨free, hname⟩ := decorateTo_eq hr hroom hsize (pre ++ [47]) (0 :: junk)
  refine ⟨free, ?_⟩
  unfold rimDecoratePath
  rw [hget]
  dsimp only [bind, Option.bind]
  rw [if_neg (not_not.mpr rfl), if_neg (not_not.mpr rfl), hsplit, hlen, strchr_null (by decide) hplain]
  dsimp only
  have hend : ((pre ++ [47]).length : Int) + ((r.length : Int) + 1 - 1) = ((pre ++ [47]).length : Int) + r.length :=
    by omega
  rw [hend, hname]

/-- Where there is an `=`, it is gone back to the slash before it. -/
theorem rimDecoratePath_back {before : Bytes} (hnull : (0 : UInt8) ∉ r) (hmem : 61 ∈ r)
    (hbefore : before = (r.takeWhile (· != 61)).rdropWhile (· != 47)) (reqname : Bytes) (reqnameLen : Nat)
      (pre junk : Bytes) :
    rimDecoratePath reqname reqnameLen (pre ++ 47 :: (r ++ 0 :: junk)) pre.length ((r.length : Int) + 1) =
      if before.dropLast = [] then some none
      else (decorateTo reqname reqnameLen ((pre ++ [47]) ++ (r ++ 0 :: junk)) (pre ++ [47]).length
          (((pre ++ [47]).length : Int) + before.dropLast.length)).bind fun pres =>
        some (some (pres, some ((pre ++ [47]).length + before.dropLast.length))) := by
  have hget : (pre ++ 47 :: (r ++ 0 :: junk))[pre.length]? = some 47 := getElem?_middle pre 47 _
  have hsplit : pre ++ 47 :: (r ++ 0 :: junk) = (pre ++ [47]) ++ (r ++ 0 :: junk) := by simp
  have hlen : pre.length + 1 = (pre ++ [47]).length := by simp
  obtain ⟨after, hafter⟩ : ∃ after, r = r.takeWhile (· != 61) ++ 61 :: after := ⟨_, cut_at (by simp) hmem⟩
  have hplain : ∀ x ∈ r.takeWhile (· != 61), x ≠ 61 ∧ x ≠ 0 := by
    intro x hx
    have hx61 := List.mem_takeWhile_imp hx
    have hx0 := (List.takeWhile_sublist (· != 61) (l := r)).mem hx
    exact ⟨by simpa using hx61, fun h => hnull (h ▸ hx0)⟩
  have htext : (pre ++ [47]) ++ (r ++ 0 :: junk) =
      (pre ++ [47]) ++ (r.takeWhile (· != 61) ++ 61 :: (after ++ 0 :: junk)) := by
    conv_lhs => rw [hafter]
    simp
  have hfound : strchr ((pre ++ [47]) ++ (r ++ 0 :: junk)) (pre ++ [47]).length 61 =
      some (some ((pre ++ [47]).length + (r.takeWhile (· != 61)).length)) := by
    rw [htext]
    exact strchr_found hplain _ _
  have hback : backToSlash ((pre ++ [47]) ++ (r ++ 0 :: junk)) (pre ++ [47]).length
      ((pre ++ [47]).length + (r.takeWhile (· != 61)).length) = some ((pre ++ [47]).length + before.dropLast.length) := by
    rw [htext, hbefore]
    exact backToSlash_eq (by simp) (by decide) _
  unfold rimDecoratePath
  rw [hget]
  dsimp only [bind, Option.bind]
  rw [if_neg (not_not.mpr rfl), hsplit, hlen, hfound]
  dsimp only
  rw [hback]
  dsimp only
  have hhere : (pre ++ [47]).length + before.dropLast.length = (pre ++ [47]).length ↔ before.dropLast = [] := by
    rw [← List.length_eq_zero_iff]
    omega
  by_cases hnil : before.dropLast = []
  · rw [if_pos (hhere.mpr hnil), if_pos hnil]
  · rw [if_neg fun h => hnil (hhere.mp h), if_neg hnil]
    push_cast
    rfl

end Name

/-! ## The segments -/

theorem parNameLoop_cons {pre rest : Bytes} {c : UInt8} (n : Nat) : parNameLoop (n + 1) (pre ++ c :: rest) pre.length =
    if c = 61 then some (pre ++ 0 :: rest, some (pre.length + 1))
    else parNameLoop n ((pre ++ [dash c]) ++ rest) (pre ++ [dash c]).length := by
  have hget : (pre ++ c :: rest)[pre.length]? = some c := getElem?_middle pre c rest
  have hlen : ∀ x : UInt8, pre.length + 1 = (pre ++ [x]).length := by simp
  rw [parNameLoop, hget]
  dsimp only [bind, Option.bind]
  unfold dash
  by_cases hdash : c = 45
  · subst hdash
    rw [if_pos rfl, if_pos rfl, poke_middle]
    dsimp only
    rw [if_neg (by decide), if_neg (by decide), ← hlen, List.append_assoc]
    rfl
  · rw [if_neg hdash, if_neg hdash]
    by_cases heq : c = 61
    · rw [if_pos heq, if_pos heq, poke_middle]
    · rw [if_neg heq, if_neg heq, ← hlen, List.append_assoc]
      rfl

/-- A segment without `=` is read to its end. -/
theorem parNameLoop_none {seg : Bytes} (h : 61 ∉ seg) (pre rest : Bytes) :
    parNameLoop seg.length (pre ++ (seg ++ rest)) pre.length = some (pre ++ (seg.map dash ++ rest), none) := by
  induction seg generalizing pre with
  | nil => rfl
  | cons c seg ih =>
    obtain ⟨hc, hseg⟩ := not_or.mp (fun hmem => h (List.mem_cons.mpr hmem))
    rw [List.length_cons, List.cons_append, parNameLoop_cons, if_neg (Ne.symm hc), ih hseg]
    simp

/-- The value is behind the first `=`, which ends the name. -/
theorem parNameLoop_some {n : Bytes} (h : 61 ∉ n) (v pre rest : Bytes) :
    parNameLoop (n ++ 61 :: v).length (pre ++ (n ++ 61 :: rest)) pre.length =
      some (pre ++ (n.map dash ++ 0 :: rest), some (pre.length + n.length + 1)) := by
  induction n generalizing pre with
  | nil =>
    rw [List.nil_append, List.nil_append, List.length_cons, parNameLoop_cons, if_pos rfl]
    rfl
  | cons c n ih =>
    obtain ⟨hc, hn⟩ := not_or.mp (fun hmem => h (List.mem_cons.mpr hmem))
    rw [List.cons_append, List.cons_append, List.length_cons, parNameLoop_cons, if_neg (Ne.symm hc), ih hn]
    have hplace : (pre ++ [dash c]).length + n.length + 1 = pre.length + (c :: n).length + 1 := by
      rw [List.length_append, List.length_singleton, List.length_cons]
      omega
    rw [hplace, List.append_assoc]
    rfl

theorem splitEq_some {seg n v : Bytes} (h : splitEq seg = some (n, v)) : seg = n ++ 61 :: v ∧ 61 ∉ n := by
  unfold splitEq at h
  split_ifs at h with hmem
  obtain ⟨rfl, rfl⟩ := Prod.mk.inj (Option.some.inj h)
  refine ⟨cut_at (by simp) hmem, fun hin => ?_⟩
  have hno := List.mem_takeWhile_imp hin
  simp at hno

theorem dash_ne_zero {c : UInt8} (h : c ≠ 0) : dash c ≠ 0 := by
  unfold dash
  split_ifs
  · decide
  · exact h

section Params

variable {δ : Type} (str2num : Bytes → Option Int) (str2dbl : Bytes → Option δ) {pars : List (RimIpar δ)}
  {pre seg rest : Bytes} {c x : UInt8}

theorem strchrnul_segment (hseg : ∀ a ∈ seg, a ≠ 47 ∧ a ≠ 0) (hc : c = 47 ∨ c = 0) (b rest : Bytes) :
    strchrnul (b ++ (seg ++ c :: rest)) b.length 47 = some (b.length + seg.length) := by
  unfold strchrnul
  obtain rfl | rfl := hc
  · rw [strchr_found hseg]
    rfl
  · rw [strchr_null (by decide) hseg]
    dsimp only [bind, Option.bind]
    rw [strlen_eq _ (fun a ha => (hseg a ha).2)]

/-- The slash or the null behind a segment is a null when its name is read. -/
theorem endSegment_eq (hc : c = 47 ∨ c = 0) (b : Bytes) : endSegment (b ++ c :: rest) b.length c =
    some (b ++ 0 :: rest) := by
  unfold endSegment
  obtain rfl | rfl := hc
  · rw [if_pos (by decide), poke_middle]
  · rw [if_neg (not_not.mpr rfl)]

theorem textAt_some {b : Bytes} {i : Nat} (h : (0 : UInt8) ∈ b.drop i) : ∃ t, textAt b i = some t := ⟨_, if_pos h⟩

/-- A segment without `=` is an error. -/
theorem segmentLoop_missing (hseg : ∀ a ∈ seg, a ≠ 47 ∧ a ≠ 0) (hne : seg ≠ []) (hmem : 61 ∉ seg) (hc : c = 47 ∨ c = 0)
    (fuel : Nat) (pre rest : Bytes) (pars : List (RimIpar δ)) :
    ∃ format args, segmentLoop str2num str2dbl (fuel + 1) (pre ++ x :: (seg ++ c :: rest)) pre.length pars =
      .error (.report format args) := by
  have hblock : pre ++ x :: (seg ++ c :: rest) = (pre ++ [x]) ++ (seg ++ c :: rest) := by simp
  have hlen : pre.length + 1 = (pre ++ [x]).length := by simp
  obtain ⟨P, hP⟩ : ∃ P, P = pre ++ [x] := ⟨_, rfl⟩
  rw [← hP] at hlen hblock
  have hnext := strchrnul_segment hseg hc P rest
  have hend : endSegment (P ++ (seg ++ c :: rest)) (P.length + seg.length) c = some (P ++ (seg ++ 0 :: rest)) := by
    rw [← List.append_assoc, ← List.length_append, endSegment_eq hc, List.append_assoc]
  have hget : (P ++ (seg ++ c :: rest))[P.length + seg.length]? = some c := by
    rw [← List.append_assoc, ← List.length_append]
    exact getElem?_middle _ c rest
  have hname := parNameLoop_none hmem P (0 :: rest)
  obtain ⟨t, ht⟩ : ∃ t, textAt (P ++ (seg.map dash ++ 0 :: rest)) P.length = some t := textAt_some (by simp)
  obtain ⟨t', ht'⟩ : ∃ t', textAt (P ++ (seg.map dash ++ 0 :: rest)) 0 = some t' := textAt_some (by simp)
  have hpos : seg.length ≠ 0 := fun h => hne (List.length_eq_zero_iff.mp h)
  refine ⟨"Value missing (with =) for name [%s] in URL path [%s]", [t, t'], ?_⟩
  rw [segmentLoop]
  dsimp only
  rw [hlen, hblock, hnext]
  dsimp only [inContent, bind, Except.bind]
  rw [Nat.add_sub_cancel_left, if_neg hpos, hget]
  dsimp only
  rw [hend]
  dsimp only
  rw [hname]
  dsimp only
  rw [ht]
  dsimp only
  rw [ht']

/-- The value that is set is trimmed. -/
theorem setValue_eq {v : Bytes} (hv : ∀ a ∈ v, a ≠ 0) (Q rest name : Bytes) (pars : List (RimIpar δ)) :
    ∃ Q', Q'.length = Q.length + v.length ∧
      setValue str2num str2dbl pars (Q ++ (v ++ 0 :: rest)) name Q.length v.length =
        setPar str2num str2dbl pars name (trim isspace v) >>= fun pars => .ok (Q' ++ 0 :: rest, pars) := by
  have hlen := length_front_trim_back isspace v
  have htv : (0 : UInt8) ∉ trim isspace v := fun h => hv 0 (mem_of_mem_trim h) rfl
  -- behind the trimmed value is a null
  obtain ⟨tail, htail⟩ : ∃ tail, nulled (back isspace v) ++ 0 :: rest = 0 :: tail := by
    cases back isspace v with
    | nil => exact ⟨rest, rfl⟩
    | cons x b => exact ⟨b ++ 0 :: rest, rfl⟩
  have hat : textAt (Q ++ (front isspace v ++ (trim isspace v ++ (nulled (back isspace v) ++ 0 :: rest))))
      (Q.length + (front isspace v).length) = some (trim isspace v) := by
    have hsplit : Q ++ (front isspace v ++ (trim isspace v ++ 0 :: tail)) =
        (Q ++ front isspace v) ++ (trim isspace v ++ 0 :: tail) := (List.append_assoc ..).symm
    rw [← List.length_append, htail]
    exact textAt_eq hsplit htv
  refine ⟨Q ++ (front isspace v ++ (trim isspace v ++ nulled (back isspace v))), ?_, ?_⟩
  · simp only [List.length_append, length_nulled]
    omega
  · have hjoin : Q ++ (front isspace v ++ (trim isspace v ++ nulled (back isspace v))) ++ 0 :: rest =
        Q ++ (front isspace v ++ (trim isspace v ++ (nulled (back isspace v) ++ 0 :: rest))) := by
      simp only [List.append_assoc]
    unfold setValue setPar
    rw [rimTrimPtr_eq Q hv rest, hjoin]
    dsimp only [inContent, bind, Except.bind]
    cases hfind : rimFindPar pars name with
    | error e => rfl
    | ok i =>
      dsimp only
      rw [hat]
      dsimp only
      cases pars[i]? with
      | none => rfl
      | some q =>
        dsimp only
        cases rimCheckWebParamType str2num str2dbl name { q with tval := .value (trim isspace v) }
          (trim isspace v) <;> rfl

/-- A segment with `=` sets a parameter, and the loop goes on behind it. -/
theorem segmentLoop_pair {n v : Bytes} (hseg : ∀ a ∈ seg, a ≠ 47 ∧ a ≠ 0) (hpair : splitEq seg = some (n, v))
    (hc : c = 47 ∨ c = 0) (fuel : Nat) (pre rest : Bytes) (pars : List (RimIpar δ)) :
    ∃ pre', segmentLoop str2num str2dbl (fuel + 1) (pre ++ x :: (seg ++ c :: rest)) pre.length pars =
      setPar str2num str2dbl pars (n.map dash) (trim isspace v) >>= fun pars =>
        if c ≠ 0 then segmentLoop str2num str2dbl fuel (pre' ++ 0 :: rest) pre'.length pars else .ok pars := by
  obtain ⟨rfl, hn⟩ := splitEq_some hpair
  have hblock : pre ++ x :: ((n ++ 61 :: v) ++ c :: rest) = (pre ++ [x]) ++ ((n ++ 61 :: v) ++ c :: rest) := by simp
  have hlen : pre.length + 1 = (pre ++ [x]).length := by simp
  obtain ⟨P, hP⟩ : ∃ P, P = pre ++ [x] := ⟨_, rfl⟩
  obtain ⟨Q, hQ⟩ : ∃ Q, Q = P ++ (n.map dash ++ [0]) := ⟨_, rfl⟩
  rw [← hP] at hlen hblock
  have hnext := strchrnul_segment hseg hc P rest
  have hnz : (0 : UInt8) ∉ n.map dash := by
    intro hmem
    obtain ⟨a, ha, hzero⟩ := List.mem_map.mp hmem
    exact dash_ne_zero (hseg a (List.mem_append_left _ ha)).2 hzero
  have hvz : ∀ a ∈ v, a ≠ 0 := fun a ha => (hseg a (List.mem_append_right _ (List.mem_cons_of_mem _ ha))).2
  have hend : endSegment (P ++ ((n ++ 61 :: v) ++ c :: rest)) (P.length + (n ++ 61 :: v).length) c =
      some (P ++ (n ++ 61 :: (v ++ 0 :: rest))) := by
    rw [← List.append_assoc, ← List.length_append, endSegment_eq hc]
    simp
  have hget : (P ++ ((n ++ 61 :: v) ++ c :: rest))[P.length + (n ++ 61 :: v).length]? = some c := by
    rw [← List.append_assoc, ← List.length_append]
    exact getElem?_middle _ c rest
  have hat : textAt (P ++ (n.map dash ++ 0 :: (v ++ 0 :: rest))) P.length = some (n.map dash) := textAt_eq rfl hnz
  have hmid : P ++ (n.map dash ++ 0 :: (v ++ 0 :: rest)) = Q ++ (v ++ 0 :: rest) := by
    rw [hQ]
    simp
  have hplace : P.length + n.length + 1 = Q.length := by
    rw [hQ]
    simp only [List.length_append, List.length_map, List.length_singleton]
    omega
  have hsize : (n ++ 61 :: v).length = n.length + 1 + v.length := by
    rw [List.length_append, List.length_cons]
    omega
  have hpos : (n ++ 61 :: v).length ≠ 0 := by omega
  have hval : P.length + (n ++ 61 :: v).length - Q.length = v.length := by omega
  obtain ⟨Q', hQ', hset⟩ := setValue_eq str2num str2dbl hvz Q rest (n.map dash) pars
  have hback : P.length + (n ++ 61 :: v).length = Q'.length := by omega
  refine ⟨Q', ?_⟩
  rw [segmentLoop]
  dsimp only
  rw [hlen, hblock, hnext]
  dsimp only [inContent, bind, Except.bind]
  rw [Nat.add_sub_cancel_left, if_neg hpos, hget]
  dsimp only
  rw [hend]
  dsimp only
  rw [parNameLoop_some hn v P (v ++ 0 :: rest)]
  dsimp only
  rw [hat]
  dsimp only
  rw [hplace, hmid, hval, hset, hback]
  cases setPar str2num str2dbl pars (n.map dash) (trim isspace v) <;> rfl

/-- Each segment sets the parameter that it names, unless there is an error. -/
theorem segmentLoop_meets {segs : List Bytes} (hsegs : ∀ seg ∈ segs, seg ≠ [] ∧ ∀ a ∈ seg, a ≠ 47 ∧ a ≠ 0)
    (hne : segs ≠ [])
    {fuel : Nat} (hfuel : segs.length ≤ fuel) :
    Meets (segmentLoop str2num str2dbl fuel (pre ++ x :: (List.intercalate [47] segs ++ 0 :: rest)) pre.length pars)
      (segs.foldlM (setSegment str2num str2dbl) pars) := by
  induction segs generalizing pre x fuel pars with
  | nil => exact absurd rfl hne
  | cons seg segs ih =>
    obtain ⟨⟨hnil, hseg⟩, hsegs⟩ := List.forall_mem_cons.mp hsegs
    obtain ⟨fuel, rfl⟩ : ∃ n, fuel = n + 1 := Nat.exists_eq_succ_of_ne_zero (by
      rw [List.length_cons] at hfuel
      omega)
    -- what is behind the segment
    obtain ⟨c, rest', hc, hblock, hrest⟩ : ∃ c rest', (c = 47 ∨ c = 0) ∧
        List.intercalate [47] (seg :: segs) ++ 0 :: rest = seg ++ c :: rest' ∧
        (segs = [] ∧ c = 0 ∨ segs ≠ [] ∧ c = 47 ∧ rest' = List.intercalate [47] segs ++ 0 :: rest) := by
      cases segs with
      | nil => exact ⟨0, rest, .inr rfl, by rw [List.intercalate_singleton], .inl ⟨rfl, rfl⟩⟩
      | cons seg' segs =>
        refine ⟨47, _, .inl rfl, ?_, .inr ⟨List.cons_ne_nil _ _, rfl, rfl⟩⟩
        rw [List.intercalate_cons_cons, List.append_assoc, List.append_assoc]
        rfl
    rw [hblock, List.foldlM_cons]
    cases hsplit : splitEq seg with
    | none =>
      have hmem : 61 ∉ seg := by
        intro hmem
        rw [splitEq, if_pos hmem] at hsplit
        cases hsplit
      have hnone : setSegment str2num str2dbl pars seg = none := by
        unfold setSegment segmentPair
        rw [hsplit]
        rfl
      obtain ⟨format, args, herror⟩ := segmentLoop_missing str2num str2dbl (x := x) hseg hnil hmem hc fuel
        pre rest' pars
      rw [herror, hnone]
      exact .report format args
    | some p =>
      obtain ⟨n, v⟩ := p
      have hsome : setSegment str2num str2dbl pars seg =
        (setPar str2num str2dbl pars (n.map dash) (trim isspace v)).toOption := by
        unfold setSegment segmentPair
        rw [hsplit]
        rfl
      obtain ⟨pre', hloop⟩ := segmentLoop_pair str2num str2dbl (x := x) hseg hsplit hc fuel pre rest' pars
      rw [hloop, hsome]
      refine Meets.bind (Meets.of_defined (setPar_defined str2num str2dbl _ _ _)) fun pars' => ?_
      obtain ⟨rfl, rfl⟩ | ⟨hmore, rfl, rfl⟩ := hrest
      · rw [if_neg (not_not.mpr rfl)]
        exact .ok pars'
      · rw [if_pos (by decide)]
        refine ih hsegs hmore ?_
        rw [List.length_cons] at hfuel
        omega

end Params

/-! ## The path -/

/-- The path fits into the half of its buffer that is used, the name of its request fits, and no segment is empty. -/
structure PathFits (app scriptName pathInfo : Bytes) : Prop where
  script : scriptName.length < 2 ^ 31
  path : (scriptName.rdropWhile (· == 47) ++ pathInfo).length < RIM_MAX_PATH / 2
  request : ∀ r s segs, behindApp app (urlPath scriptName pathInfo) = some r → splitRequest r = some (s, segs) →
    (requestName s.dropLast).length + 3 ≤ RIM_MAX_REQ_NAME_LEN ∧ [] ∉ segs

section Params

variable {δ : Type} (str2num : Bytes → Option Int) (str2dbl : Bytes → Option δ)

variable {app path reqname : Bytes}

/-- There is a request behind the application path, or there is none. -/
theorem behindApp_cases (hsame : sameCase (path.take app.length) app = true) :
    (∃ d r, path.drop app.length = 47 :: d :: r ∧ d ≠ 63 ∧ behindApp app path = some (d :: r)) ∨
      (∀ d r, path.drop app.length = 47 :: d :: r → d = 63) ∧ behindApp app path = none := by
  unfold behindApp
  rw [if_pos hsame]
  rcases path.drop app.length with - | ⟨c, - | ⟨d, r⟩⟩
  · refine .inr ⟨?_, rfl⟩
    rintro d r ⟨⟩
  · refine .inr ⟨?_, rfl⟩
    rintro d r ⟨⟩
  · dsimp only
    by_cases h : c = 47 ∧ d ≠ 63
    · obtain ⟨rfl, hd⟩ := h
      exact .inl ⟨d, r, rfl, hd, if_pos ⟨rfl, hd⟩⟩
    · refine .inr ⟨?_, if_neg h⟩
      rintro d' r' ⟨⟩
      exact not_not.mp fun hd => h ⟨rfl, hd⟩

theorem nameChar_ne_zero {c : UInt8} (hc : c ≠ 0) : (0 : UInt8) ∉ nameChar c := by
  unfold nameChar
  split_ifs <;> simp [Ne.symm hc]

theorem requestName_ne_zero {s : Bytes} (hs : (0 : UInt8) ∉ s) : (0 : UInt8) ∉ requestName s := by
  intro h
  obtain ⟨c, hc, hzero⟩ := List.mem_flatMap.mp h
  exact nameChar_ne_zero (fun h0 => hs (h0 ▸ hc)) hzero

theorem mem_intercalate {sep seg : Bytes} {segs : List Bytes} (h : seg ∈ segs) {a : UInt8} (ha : a ∈ seg) :
    a ∈ List.intercalate sep segs := by
  induction segs with
  | nil => cases h
  | cons s segs ih =>
    cases segs with
    | nil =>
      rw [List.mem_singleton.mp h] at ha
      rwa [List.intercalate_singleton]
    | cons s' segs =>
      rw [List.intercalate_cons_cons, List.append_assoc]
      obtain rfl | h := List.mem_cons.mp h
      · exact List.mem_append_left _ ha
      · exact List.mem_append_right _ (List.mem_append_right _ (ih h))

theorem length_le_intercalate (x : UInt8) (segs : List Bytes) : segs.length ≤ (List.intercalate [x] segs).length + 1 := by
  induction segs with
  | nil => exact Nat.zero_le _
  | cons s segs ih =>
    cases segs with
    | nil => simp
    | cons s' segs =>
      rw [List.intercalate_cons_cons, List.length_append, List.length_append, List.length_singleton]
      rw [List.length_cons]
      omega

/-- The name that is read from its buffer. -/
theorem textAt_requestName {s : Bytes} (hs : (0 : UInt8) ∉ s) (free : Bytes) :
    textAt (requestName s ++ 0 :: free) 0 = some (requestName s) := by
  have hwhole : requestName s ++ 0 :: free = [] ++ (requestName s ++ 0 :: free) := rfl
  exact textAt_eq hwhole (requestName_ne_zero hs)

/-- A request that fits is dispatched whole. -/
theorem requestAt_meets {r : Bytes} (hr : r ≠ []) (hnull : (0 : UInt8) ∉ r)
    (hreqname : reqname.length = RIM_MAX_REQ_NAME_LEN)
    (hfits : ∀ s segs, splitRequest r = some (s, segs) → (requestName s.dropLast).length + 3 ≤ RIM_MAX_REQ_NAME_LEN ∧
      [] ∉ segs)
    (pre junk path : Bytes) (pars : List (RimIpar δ)) :
    Meets (requestAt str2num str2dbl reqname (pre ++ 47 :: (r ++ 0 :: junk)) pre.length ((r.length : Int) + 1) path pars)
      (requestMeaning str2num str2dbl r pars) := by
  unfold requestAt requestMeaning
  by_cases hmem : 61 ∈ r
  · obtain ⟨before, hbefore⟩ : ∃ before, before = (r.takeWhile (· != 61)).rdropWhile (· != 47) := ⟨_, rfl⟩
    rw [rimDecoratePath_back hnull hmem hbefore]
    obtain ⟨hnil, hsplit⟩ | ⟨hne, hjoin, hsplit⟩ := splitRequest_eq hmem hbefore
    · rw [if_pos hnil, hsplit]
      exact .report _ _
    · obtain ⟨hroom, hsegs⟩ := hfits _ _ hsplit
      obtain ⟨segs, hseg⟩ : ∃ segs, segs = (r.drop before.length).splitOn 47 := ⟨_, rfl⟩
      have hrest : r.drop before.length = List.intercalate [47] segs := by
        rw [hseg, List.intercalate_splitOn]
      rw [← hseg] at hsegs hsplit
      rw [hrest] at hjoin
      have hleft : (0 : UInt8) ∉ before.dropLast := by
        intro h
        rw [hjoin] at hnull
        exact hnull (List.mem_append_left _ h)
      -- the slash that it is gone back to is in front of the segments
      have hwhole : pre ++ 47 :: (r ++ 0 :: junk) =
          (pre ++ [47] ++ before.dropLast) ++ 47 :: (List.intercalate [47] segs ++ 0 :: junk) := by
        conv_lhs => rw [hjoin]
        simp
      have hhead : (pre ++ [47]) ++ (r ++ 0 :: junk) =
          (pre ++ [47]) ++ (before.dropLast ++ (47 :: (List.intercalate [47] segs ++ 0 :: junk))) := by
        conv_lhs => rw [hjoin]
        simp
      have hplain : ∀ seg ∈ segs, seg ≠ [] ∧ ∀ a ∈ seg, a ≠ 47 ∧ a ≠ 0 := by
        intro seg hin
        refine ⟨fun h => hsegs (h ▸ hin), fun a ha => ⟨?_, ?_⟩⟩
        · rintro rfl
          rw [hseg] at hin
          exact not_mem_of_mem_splitOn 47 _ seg hin ha
        · rintro rfl
          rw [hjoin] at hnull
          exact hnull (List.mem_append_right _ (List.mem_cons_of_mem _ (mem_intercalate hin ha)))
      have hmore : segs ≠ [] := by
        rw [hseg]
        exact List.splitOn_ne_nil _ _
      have hfilter : segs.filter (· ≠ []) = segs := by
        refine List.filter_eq_self.mpr fun seg hin => ?_
        exact decide_eq_true (hplain seg hin).1
      obtain ⟨free, hname⟩ := decorateTo_eq hne hroom hreqname (pre ++ [47])
        (47 :: (List.intercalate [47] segs ++ 0 :: junk))
      rw [if_neg hne, hhead, hname, hsplit]
      dsimp only [Option.bind, inContent, bind, Except.bind]
      rw [textAt_requestName hleft, ← List.length_append, hwhole, hfilter]
      dsimp only
      refine Meets.bind (segmentLoop_meets str2num str2dbl hplain hmore ?_) fun pars => .ok _
      have hcount := length_le_intercalate 47 segs
      simp only [List.length_append, List.length_cons]
      omega
  · have hsplit : splitRequest r = some (r, []) := by
      unfold splitRequest
      rw [if_neg hmem]
    obtain ⟨hroom, -⟩ := hfits r [] hsplit
    obtain ⟨free, hdecorate⟩ := rimDecoratePath_whole hr hnull hmem hreqname hroom pre junk
    rw [hdecorate, hsplit]
    dsimp only [inContent, bind, Except.bind]
    rw [textAt_requestName hnull]
    exact .ok _

/-- From a path in its buffer, what it asks for is done. -/
theorem pathRequest_meets (happ : (0 : UInt8) ∉ app) (hpath : (0 : UInt8) ∉ path)
    (hreqname : reqname.length = RIM_MAX_REQ_NAME_LEN)
    (hfits : ∀ r s segs, behindApp app path = some r → splitRequest r = some (s, segs) →
      (requestName s.dropLast).length + 3 ≤ RIM_MAX_REQ_NAME_LEN ∧ [] ∉ segs) (junk : Bytes) (pars : List (RimIpar δ)) :
    Meets (pathRequest str2num str2dbl app reqname (path ++ 0 :: junk) path.length pars)
      (dispatched str2num str2dbl app path pars) := by
  have hwhole : path ++ 0 :: junk = [] ++ (path ++ 0 :: junk) := rfl
  have hat : textAt (path ++ 0 :: junk) 0 = some path := textAt_eq hwhole hpath
  unfold pathRequest dispatched
  rw [hat, sameStart_eq happ]
  dsimp only [inContent, bind, Except.bind]
  by_cases hsame : sameCase (path.take app.length) app = true
  · obtain ⟨pre, hpre⟩ : ∃ pre, pre = path.take app.length := ⟨_, rfl⟩
    have hlen : pre.length = app.length := by
      rw [hpre]
      exact length_of_sameCase hsame
    have hsplit : path ++ 0 :: junk = pre ++ (path.drop app.length ++ 0 :: junk) := by
      rw [hpre, ← List.append_assoc, List.take_append_drop]
    obtain ⟨d, r, hdrop, hd, hbehind⟩ | ⟨hnone, hbehind⟩ := behindApp_cases hsame
    · have hbytes : ∀ a ∈ d :: r, a ≠ 0 := by
        rintro a ha rfl
        have hin : (0 : UInt8) ∈ path.drop app.length := hdrop ▸ List.mem_cons_of_mem _ ha
        exact hpath (List.mem_of_mem_drop hin)
      have hmissing : missingRequest (path ++ 0 :: junk) app.length = some false := by
        rw [hsplit, hdrop, ← hlen]
        exact missingRequest_false _ (hbytes d List.mem_cons_self) hd _
      have hrest : (path.length : Int) - app.length = ((d :: r).length : Int) + 1 := by
        have hdroplen := congrArg List.length hdrop
        rw [hpre, List.length_take] at hlen
        rw [List.length_drop, List.length_cons] at hdroplen
        omega
      have hblock : path ++ 0 :: junk = pre ++ 47 :: ((d :: r) ++ 0 :: junk) := by
        rw [hsplit, hdrop]
        rfl
      rw [hsame, hmissing, hbehind, hrest, hblock]
      dsimp only [Option.bind]
      rw [if_neg (by decide), if_neg (by decide), ← hlen]
      exact requestAt_meets str2num str2dbl (List.cons_ne_nil d r) (fun h => hbytes 0 h rfl) hreqname
        (fun s segs hs => hfits _ s segs hbehind hs) _ junk path pars
    · have hmissing : missingRequest (path ++ 0 :: junk) app.length = some true := by
        have hhere := missingRequest_true pre hnone junk
        rwa [← hsplit, hlen] at hhere
      rw [hsame, hmissing, hbehind]
      exact .report _ _
  · have hbehind : behindApp app path = none := by
      unfold behindApp
      rw [if_neg hsame]
    rw [Bool.not_eq_true] at hsame
    rw [hsame, hbehind]
    exact .report _ _

/-- The text that is put into the buffer is cut, and the index from which its slashes are looked for is not. -/
theorem inputPath_put {app fullPath reqname scriptName pathInfo text : Bytes} (hfull : fullPath.length = RIM_MAX_PATH)
    (hscript : (0 : UInt8) ∉ scriptName) (hlen : scriptName.length < 2 ^ 31)
    (htext : text = scriptName.rdropWhile (· == 47) ++ pathInfo) (pars : List (RimIpar δ)) :
    ∃ rest, (text.take (RIM_MAX_PATH / 2 - 1) ++ 0 :: rest).length = RIM_MAX_PATH ∧
      inputPath str2num str2dbl app fullPath reqname scriptName pathInfo pars =
        inContent (cutSlashes (text.take (RIM_MAX_PATH / 2 - 1) ++ 0 :: rest) text.length) >>= fun p =>
          pathRequest str2num str2dbl app reqname p.1 p.2 pars := by
  have hsnLen : Int.bmod scriptName.length (2 ^ 32) = scriptName.length := by
    apply Int.bmod_eq_of_le_mul_two <;> omega
  obtain ⟨junk, hcut⟩ := cutSlashes_eq scriptName []
  have hat : textAt (scriptName.rdropWhile (· == 47) ++ 0 :: junk) 0 = some (scriptName.rdropWhile (· == 47)) := by
    have hwhole : scriptName.rdropWhile (· == 47) ++ 0 :: junk =
      [] ++ (scriptName.rdropWhile (· == 47) ++ 0 :: junk) := rfl
    exact textAt_eq hwhole fun h => hscript ((List.rdropWhile_prefix _ _).mem h)
  obtain ⟨put, hput⟩ : ∃ put, put = text.take (RIM_MAX_PATH / 2 - 1) := ⟨_, rfl⟩
  have hroom : (put ++ [0]).length ≤ fullPath.length := by
    have htake := List.length_take_le (RIM_MAX_PATH / 2 - 1) text
    rw [List.length_append, List.length_singleton, hfull, hput]
    unfold RIM_MAX_PATH at htake ⊢
    omega
  have hcopy : memcpy fullPath 0 (put ++ [0]) = some (put ++ 0 :: fullPath.drop (put ++ [0]).length) := by
    have hmemcpy := memcpy_append [] hroom
    simpa using hmemcpy
  refine ⟨fullPath.drop (put ++ [0]).length, ?_, ?_⟩
  · rw [← hput, List.length_append, List.length_cons, List.length_drop]
    rw [List.length_append, List.length_singleton] at hroom ⊢
    omega
  · unfold inputPath
    dsimp only
    rw [hsnLen, Int.toNat_natCast, hcut]
    dsimp only [inContent, bind, Except.bind]
    rw [hat]
    dsimp only
    rw [← htext, ← hput, hcopy]

/-- From where there are more bytes than the buffer has, slashes are not looked for in it. -/
theorem cutSlashes_outside {b : Bytes} {n : Nat} (h : b.length ≤ n) : cutSlashes b (n + 1) = none := by
  rw [cutSlashes, List.getElem?_eq_none h]
  rfl

/-- A path that is longer than its buffer is read behind it. -/
theorem inputPath_undefined {app fullPath reqname scriptName pathInfo : Bytes} (hfull : fullPath.length = RIM_MAX_PATH)
    (hscript : (0 : UInt8) ∉ scriptName) (hlen : scriptName.length < 2 ^ 31)
    (hlong : RIM_MAX_PATH < (scriptName.rdropWhile (· == 47) ++ pathInfo).length) (pars : List (RimIpar δ)) :
    inputPath str2num str2dbl app fullPath reqname scriptName pathInfo pars = .error .undefined := by
  obtain ⟨text, htext⟩ : ∃ text, text = scriptName.rdropWhile (· == 47) ++ pathInfo := ⟨_, rfl⟩
  obtain ⟨rest, hsize, hput⟩ := inputPath_put str2num str2dbl hfull hscript hlen htext pars
  rw [← htext] at hlong
  obtain ⟨n, hn⟩ : ∃ n, text.length = n + 1 := Nat.exists_eq_succ_of_ne_zero (by omega)
  rw [hput, hn, cutSlashes_outside (by omega)]
  rfl

end Params

end RimStone
