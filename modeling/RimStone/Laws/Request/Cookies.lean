import Mathlib.Data.List.Nodup
import Mathlib.Data.List.TakeWhile
import RimStone.Laws.Memory.Chars
import RimStone.Lib.FirstMatch
import RimStone.Lib.Run
import RimStone.Request.Cookies

/-!
# Cookies that say what was asked

What the application knows is a map from names to cookies: each has a value, and where it was set or
deleted, attributes that its header line is to have. Every call either fails or is an update of that
map at one name.

The texts say that much as long as they are not cut off, and no path and no expiration holds what
ends an attribute or a line. Then a text is its parts with semicolons between them, and each search
of `rim_find_cookie` finds the part it is for.
-/

namespace RimStone

open Lib

/-! ## What is asked -/

structure Cookie where
  value : Bytes
  path : Option Bytes := none
  /-- the attributes that its header line is to have, once it is set or deleted -/
  attrs : Option (List Bytes) := none
  deriving DecidableEq, Repr

abbrev CookieJar := Bytes → Option Cookie

/-- The attributes that do not depend on where and how long a cookie is for. -/
def flags (secure samesite httponly : Bytes) : List Bytes :=
  (if secure = [] then [] else [ascii "Secure"]) ++ (if httponly = [] then [] else [ascii "HttpOnly"]) ++
    if samesite = [] then [] else [ascii "SameSite=" ++ samesite]

/-- An attribute with a text, which may be left out. -/
def withText (key : String) (text : Option Bytes) : List Bytes := (text.map (ascii key ++ ·)).toList

def given (text : Option Bytes) : Option Bytes := text.filter (· ≠ [])

def SetCookie.cookie (a : SetCookie) : Cookie where
  value := a.value
  path := given a.path
  attrs := some (withText "Path=" (given a.path) ++ withText "Expires=" (given a.expires) ++
    flags a.secure a.samesite a.httponly)

/-- A cookie that is deleted at `path`. -/
def deletedCookie (path : Option Bytes) (secure : Bytes) : Cookie where
  value := ascii "deleted"
  path := path
  attrs := some (withText "Path=" path ++ [ascii "Max-Age=0", ascii "Expires=Thu, 01 Jan 1970 01:01:01 GMT"] ++
    flags secure [] [])

def CookieJar.apply (jar : CookieJar) : CookieOp → CookieJar
  | .set _ a => Function.update jar a.name (some a.cookie)
  | .delete name path secure =>
    match jar name with
    | none => jar
    | some c => Function.update jar name (some (deletedCookie (path.or c.path) secure))
  | .find _ => jar

/-- The name and the value of a text with `=`. -/
def pairOf (text : Bytes) : Option (Bytes × Bytes) :=
  if 61 ∈ text then some (text.takeWhile (· != 61), (text.dropWhile (· != 61)).tail) else none

/-- The cookies in `HTTP_COOKIE`: the first one of a name counts. -/
def receivedCookies (cookie : Bytes) : List Bytes :=
  match cookie.splitOn 59 with
  | [] => []
  | text :: texts => text :: texts.map (·.dropWhile isspace)

def CookieJar.received (cookie : Bytes) : CookieJar := fun name =>
  (((receivedCookies cookie).filterMap pairOf).lookup name).map fun v => { value := v }

/-- What a client reads in a header line for a cookie: the name with the value, and the attributes. -/
def readCookie (line : Bytes) : Bytes × List Bytes :=
  ((line.splitOn 59).headD [], ((line.splitOn 59).tail.map (·.dropWhile (· == 32))).filter (· ≠ []))

structure Serves (cookies : List RimCookie) (jar : CookieJar) : Prop where
  /-- `rim_find_cookie` gives the value of a name, or else the empty string -/
  find : ∀ name, checkCookieName name = .ok () →
    (rimFindCookie cookies name).val = ((jar name).map (·.value)).getD []
  /-- each header line is what was asked for its name -/
  line : ∀ c ∈ cookies, c.isSetByProgram = true → ∃ name k attrs, jar name = some k ∧ k.attrs = some attrs ∧
    readCookie c.data = (name ++ ascii "=" ++ k.value, attrs) ∧ ∀ b ∈ c.data, b ≠ 10 ∧ b ≠ 13
  /-- each name that was set or deleted has a header line -/
  said : ∀ name k attrs, jar name = some k → k.attrs = some attrs → ∃ c ∈ cookies, c.isSetByProgram = true ∧
    readCookie c.data = (name ++ ascii "=" ++ k.value, attrs)
  /-- and no more than one -/
  once : ((cookies.filter (·.isSetByProgram)).map fun c => (readCookie c.data).1.takeWhile (· != 61)).Nodup

/-! ## Parts with semicolons before them -/

/-- A text that neither ends an attribute nor a line. -/
def PlainText (text : Bytes) : Prop := ∀ b ∈ text, b ≠ 59 ∧ b ≠ 10 ∧ b ≠ 13

theorem PlainText.append {s t : Bytes} (hs : PlainText s) (ht : PlainText t) : PlainText (s ++ t) := by
  intro b hb
  obtain hb | hb := List.mem_append.mp hb
  · exact hs b hb
  · exact ht b hb

theorem PlainText.of_all {text : Bytes} (h : (text.all fun b => b != 59 && b != 10 && b != 13) = true) : PlainText text := by
  intro b hb
  simpa [and_assoc] using List.all_eq_true.mp h b hb

theorem PlainText.notMem {text : Bytes} (h : PlainText text) : (59 : UInt8) ∉ text := fun hb => (h 59 hb).1 rfl

def joined (parts : List Bytes) : Bytes := parts.flatMap (59 :: ·)

theorem joined_append (ps qs : List Bytes) : joined (ps ++ qs) = joined ps ++ joined qs := List.flatMap_append

theorem splitOn_joined {v : Bytes} {parts : List Bytes} (hv : (59 : UInt8) ∉ v) (hparts : ∀ p ∈ parts, (59 : UInt8) ∉ p) :
    (v ++ joined parts).splitOn 59 = v :: parts := by
  induction parts generalizing v with
  | nil =>
    rw [joined, List.flatMap_nil, List.append_nil]
    exact List.splitOn_eq_singleton hv
  | cons p parts ih =>
    obtain ⟨hp, hparts⟩ := List.forall_mem_cons.mp hparts
    have hcons : v ++ joined (p :: parts) = v ++ 59 :: (p ++ joined parts) := rfl
    rw [hcons, List.splitOn_append_cons_self_of_not_mem hv, ih hp hparts]

theorem tolower_eq_semicolon {c : UInt8} (h : c ≠ 59) : tolower c ≠ 59 := by
  unfold tolower
  split
  · intro hc
    have h27 : c = 27 := by
      have := congrArg (· - 32) hc
      simpa using this
    subst h27
    rename_i hrange
    exact absurd hrange (by decide)
  · exact h

/-- A search for what starts with a semicolon passes a text without one. -/
theorem strcasestr_skip {v t key : Bytes} (hv : (59 : UInt8) ∉ v) :
    strcasestr (v ++ t) (59 :: key) = (strcasestr t (59 :: key)).map (· + v.length) := by
  induction v with
  | nil => simp
  | cons c v ih =>
    obtain ⟨hc, hv⟩ := List.ne_and_not_mem_of_not_mem_cons hv
    have hno : sameCase ((c :: (v ++ t)).take (59 :: key).length) (59 :: key) = false := by
      rw [List.length_cons, List.take_succ_cons]
      have hne := tolower_eq_semicolon (Ne.symm hc)
      have h59 : tolower 59 = 59 := by decide
      simp [sameCase, h59, hne]
    rw [List.cons_append, strcasestr, hno, if_neg Bool.false_ne_true, ih hv, Option.map_map]
    rfl

/-- An attribute that is found later is what is found there. -/
theorem cookieAttr_skip {u w key : Bytes} (h : strcasestr (u ++ w) key = (strcasestr w key).map (· + u.length)) :
    cookieAttr (u ++ w) key = cookieAttr w key := by
  unfold cookieAttr
  rw [h, Option.map_map]
  congr 1
  ext1 p
  simp only [Function.comp_apply]
  rw [Nat.add_comm p, Nat.add_assoc, List.drop_length_add_append]

theorem sameCase_cons (c : UInt8) (s t : Bytes) : sameCase (c :: s) (c :: t) = sameCase s t := by
  simp [sameCase]

theorem sameCase_semicolon {s t : Bytes} (h : sameCase s t = true) (hs : (59 : UInt8) ∈ s) : (59 : UInt8) ∈ t := by
  have hmap : s.map tolower = t.map tolower := by simpa [sameCase] using h
  have hlow : (59 : UInt8) ∈ t.map tolower := hmap ▸ List.mem_map.mpr ⟨59, hs, by decide⟩
  obtain ⟨c, hc, hlow⟩ := List.mem_map.mp hlow
  by_cases h59 : c = 59
  · exact h59 ▸ hc
  · exact absurd hlow (tolower_eq_semicolon h59)

theorem joined_cases (parts : List Bytes) : joined parts = [] ∨ ∃ t, joined parts = 59 :: t := by
  cases parts with
  | nil => exact .inl rfl
  | cons p parts => exact .inr ⟨p ++ joined parts, rfl⟩

/-- What follows a part does not count when a key is looked for in it. -/
theorem sameCase_part {p key : Bytes} {parts : List Bytes} (hkey : (59 : UInt8) ∉ key) :
    sameCase ((p ++ joined parts).take key.length) key = sameCase (p.take key.length) key := by
  by_cases hlen : key.length ≤ p.length
  · rw [List.take_append_of_le_length hlen]
  · have hshort : sameCase (p.take key.length) key = false := by
      refine Bool.eq_false_iff.mpr fun h => hlen ?_
      have := length_of_sameCase h
      rw [List.length_take] at this
      omega
    rw [hshort]
    refine Bool.eq_false_iff.mpr fun h => ?_
    obtain hj | ⟨t, hj⟩ := joined_cases parts
    · rw [hj, List.append_nil, hshort] at h
      cases h
    · refine hkey (sameCase_semicolon h ?_)
      rw [hj, List.take_append]
      obtain ⟨k, hk⟩ := Nat.exists_eq_add_of_lt (Nat.lt_of_not_le hlen)
      have hroom : key.length - p.length = k + 1 := by omega
      rw [hroom, List.take_succ_cons]
      exact List.mem_append_right _ (List.mem_cons_self ..)

theorem takeWhile_part {p : Bytes} {parts : List Bytes} (hp : (59 : UInt8) ∉ p) :
    (p ++ joined parts).takeWhile (· != 59) = p := by
  have hall : ∀ b ∈ p, (b != 59) = true := by
    intro b hb
    have hne : b ≠ 59 := fun h => hp (h ▸ hb)
    simpa using hne
  rw [List.takeWhile_append_of_pos hall]
  obtain hj | ⟨t, hj⟩ := joined_cases parts
  · rw [hj, List.takeWhile_nil, List.append_nil]
  · rw [hj, List.takeWhile_cons_of_neg (by simp), List.append_nil]

/-- A search finds the first part with its key. -/
theorem cookieAttr_joined {v key : Bytes} {parts : List Bytes} (hv : (59 : UInt8) ∉ v) (hkey : (59 : UInt8) ∉ key)
    (hparts : ∀ p ∈ parts, (59 : UInt8) ∉ p) :
    cookieAttr (v ++ joined parts) (59 :: key) =
      (parts.find? fun p => sameCase (p.take key.length) key).map (·.drop key.length) := by
  rw [cookieAttr_skip (strcasestr_skip hv)]
  clear hv v
  induction parts with
  | nil => rfl
  | cons p parts ih =>
    obtain ⟨hp, hparts⟩ := List.forall_mem_cons.mp hparts
    have hcons : joined (p :: parts) = 59 :: (p ++ joined parts) := rfl
    have hsearch : strcasestr (59 :: (p ++ joined parts)) (59 :: key) =
        if sameCase (p.take key.length) key then some 0
        else (strcasestr (p ++ joined parts) (59 :: key)).map (· + 1) := by
      rw [strcasestr, List.length_cons, List.take_succ_cons, sameCase_cons, sameCase_part hkey]
    rw [hcons]
    cases hfound : sameCase (p.take key.length) key with
    | true =>
      rw [hfound, if_pos rfl] at hsearch
      have hfind : (p :: parts).find? (fun p => sameCase (p.take key.length) key) = some p :=
        List.find?_cons_of_pos hfound
      unfold cookieAttr
      rw [hsearch, hfind, Option.map_some, Option.map_some, Nat.zero_add, List.length_cons, List.drop_succ_cons]
      have hlen : key.length ≤ p.length := by
        have := length_of_sameCase hfound
        rw [List.length_take] at this
        omega
      rw [List.drop_append_of_le_length hlen, takeWhile_part fun h => hp (List.mem_of_mem_drop h)]
    | false =>
      rw [hfound, if_neg Bool.false_ne_true] at hsearch
      have hskip : cookieAttr ([59] ++ (p ++ joined parts)) (59 :: key) = cookieAttr (p ++ joined parts) (59 :: key) :=
        cookieAttr_skip hsearch
      rw [List.find?_cons_of_neg (by simp [hfound]), ← ih hparts]
      exact hskip.trans (cookieAttr_skip (strcasestr_skip hp))

/-! ## Names -/

def RimCookie.key (c : RimCookie) : Option Bytes := (pairOf c.data).map (·.1)

theorem pairOf_iff {text name val : Bytes} : pairOf text = some (name, val) ↔ text = name ++ 61 :: val ∧ (61 : UInt8) ∉ name := by
  unfold pairOf
  constructor
  · intro h
    split at h
    next hmem =>
      obtain ⟨rfl, rfl⟩ := Prod.mk.inj (Option.some.inj h)
      have hno : (61 : UInt8) ∉ text.takeWhile (· != 61) := fun hin => by simpa using List.mem_takeWhile_imp hin
      refine ⟨?_, hno⟩
      cases hrest : text.dropWhile (· != 61) with
      | nil =>
        have hall := List.dropWhile_eq_nil_iff.mp hrest 61 hmem
        simp at hall
      | cons c rest =>
        have hc : (c != 61) = false := by
          have := List.head?_dropWhile_not (· != 61) text
          rw [hrest, List.head?_cons] at this
          simpa using this
        obtain rfl : c = 61 := by simpa using hc
        rw [List.tail_cons, ← hrest, List.takeWhile_append_dropWhile]
    next => cases h
  · rintro ⟨rfl, hno⟩
    have hall : ∀ b ∈ name, (b != 61) = true := by
      intro b hb
      have hne : b ≠ 61 := fun h => hno (h ▸ hb)
      simpa using hne
    rw [if_pos (List.mem_append_right _ (List.mem_cons_self ..)), List.takeWhile_append_of_pos hall,
      List.dropWhile_append_of_pos hall, List.takeWhile_cons_of_neg (by simp), List.dropWhile_cons_of_neg (by simp),
      List.append_nil, List.tail_cons]

theorem isNamed_iff {name data : Bytes} : isNamed name data = true ↔ ∃ val, data = name ++ 61 :: val := by
  unfold isNamed
  rw [Bool.and_eq_true, beq_iff_eq, beq_iff_eq]
  constructor
  · rintro ⟨htake, hget⟩
    obtain ⟨hlt, hget⟩ := List.getElem?_eq_some_iff.mp hget
    refine ⟨data.drop (name.length + 1), ?_⟩
    calc data = data.take name.length ++ data.drop name.length := (List.take_append_drop ..).symm
      _ = name ++ 61 :: data.drop (name.length + 1) := by rw [htake, List.drop_eq_getElem_cons hlt, hget]
  · rintro ⟨val, rfl⟩
    simp

/-- A name without `=` is looked up as a key. -/
theorem isNamed_key {name : Bytes} (hname : (61 : UInt8) ∉ name) (c : RimCookie) :
    isNamed name c.data = decide (c.key = some name) := by
  rw [Bool.eq_iff_iff, isNamed_iff, decide_eq_true_iff, RimCookie.key, Option.map_eq_some_iff]
  constructor
  · rintro ⟨val, hdata⟩
    exact ⟨(name, val), pairOf_iff.mpr ⟨hdata, hname⟩, rfl⟩
  · rintro ⟨⟨name', val⟩, hpair, rfl⟩
    exact ⟨val, (pairOf_iff.mp hpair).1⟩

theorem key_mk {name val : Bytes} (hname : (61 : UInt8) ∉ name) (set : Bool) :
    RimCookie.key ⟨name ++ 61 :: val, set⟩ = some name := by
  unfold RimCookie.key
  rw [pairOf_iff.mpr ⟨rfl, hname⟩]
  rfl

theorem findCookieLoop_none {name : Bytes} {cookies : List RimCookie} {ci : Nat} (hname : (61 : UInt8) ∉ name)
    (h : entry RimCookie.key cookies name = none) : findCookieLoop name cookies ci = {} := by
  induction cookies generalizing ci with
  | nil => rfl
  | cons c cookies ih =>
    have hkey : c.key ≠ some name := entry_none_iff.mp h c (List.mem_cons_self ..)
    rw [entry_cons_of_ne hkey] at h
    unfold findCookieLoop
    rw [isNamed_key hname, decide_eq_false hkey, if_neg Bool.false_ne_true]
    exact ih h

theorem findCookieLoop_some {name : Bytes} {cookies : List RimCookie} {ci : Nat} {c : RimCookie}
    (hname : (61 : UInt8) ∉ name) (h : entry RimCookie.key cookies name = some c) :
    ∃ i, cookies.findIdx? (fun d => decide (d.key = some name)) = some i ∧
      findCookieLoop name cookies ci = foundCookie (ci + i) (c.data.drop (name.length + 1)) := by
  induction cookies generalizing ci with
  | nil => cases h
  | cons d cookies ih =>
    unfold findCookieLoop
    rw [isNamed_key hname, List.findIdx?_cons]
    by_cases hkey : d.key = some name
    · rw [entry_cons_of_eq hkey] at h
      obtain rfl := Option.some.inj h
      rw [decide_eq_true hkey, if_pos rfl, if_pos rfl]
      exact ⟨0, rfl, rfl⟩
    · rw [entry_cons_of_ne hkey] at h
      obtain ⟨i, hidx, hfound⟩ := ih h
      rw [decide_eq_false hkey, if_neg Bool.false_ne_true, if_neg Bool.false_ne_true, hidx, hfound]
      refine ⟨i + 1, rfl, ?_⟩
      rw [Nat.add_assoc, Nat.add_comm 1]

theorem rimFindCookie_none {name : Bytes} {cookies : List RimCookie} (hname : (61 : UInt8) ∉ name)
    (h : entry RimCookie.key cookies name = none) : rimFindCookie cookies name = {} := findCookieLoop_none hname h

theorem rimFindCookie_some {name : Bytes} {cookies : List RimCookie} {c : RimCookie}
    (hname : (61 : UInt8) ∉ name) (h : entry RimCookie.key cookies name = some c) :
    ∃ i, cookies.findIdx? (fun d => decide (d.key = some name)) = some i ∧
      rimFindCookie cookies name = foundCookie i (c.data.drop (name.length + 1)) := by
  obtain ⟨i, hidx, hfound⟩ := findCookieLoop_some hname h
  rw [Nat.zero_add] at hfound
  exact ⟨i, hidx, hfound⟩

/-! ## What is accepted -/

theorem nameByte_plain {b : UInt8} (h : nameByte b = true) : (b ≠ 59 ∧ b ≠ 10 ∧ b ≠ 13) ∧ b ≠ 61 := by
  refine ⟨⟨?_, ?_, ?_⟩, ?_⟩ <;> (rintro rfl; revert h; decide)

theorem valueByte_plain {inside : Bool} {b : UInt8} (h : valueByte inside b = true) : b ≠ 59 ∧ b ≠ 10 ∧ b ≠ 13 := by
  refine ⟨?_, ?_, ?_⟩ <;> (rintro rfl; revert inside; decide)

theorem checkCookieName_ok {name : Bytes} (h : checkCookieName name = .ok ()) : PlainText name ∧ (61 : UInt8) ∉ name := by
  unfold checkCookieName at h
  split at h
  next => cases h
  next hall =>
    have hbytes := List.dropWhile_eq_nil_iff.mp (not_not.mp hall)
    exact ⟨fun b hb => (nameByte_plain (hbytes b hb)).1, fun hb => (nameByte_plain (hbytes 61 hb)).2 rfl⟩

theorem invalidValue_none {first : Bool} {val : Bytes} (h : invalidValue first val = none) : PlainText val := by
  induction val generalizing first with
  | nil => exact fun _ hb => nomatch hb
  | cons c val ih =>
    unfold invalidValue at h
    split at h
    next hc => exact List.forall_mem_cons.mpr ⟨valueByte_plain hc, ih h⟩
    next => cases h

theorem checkCookieValue_ok {val : Bytes} (h : checkCookieValue val = .ok ()) : PlainText val := by
  unfold checkCookieValue at h
  split at h
  next => cases h
  next hnone => exact invalidValue_none hnone

/-- The parts of `safety_clause`: it ends with a blank part where no `SameSite` is at its end. -/
def safetyParts (secure samesite httponly : Bytes) : List Bytes :=
  (flags secure samesite httponly).map (32 :: ·) ++ if samesite = [] then [[32]] else []

/-- What the parts of a text say: blanks before an attribute do not count, and neither do blank parts. -/
def attrsOf (parts : List Bytes) : List Bytes := (parts.map (·.dropWhile (· == 32))).filter (· ≠ [])

def pathOf (parts : List Bytes) : Option Bytes :=
  (parts.find? fun p => sameCase (p.take (ascii " Path=").length) (ascii " Path=")).map (·.drop (ascii " Path=").length)

theorem attrsOf_append (ps qs : List Bytes) : attrsOf (ps ++ qs) = attrsOf ps ++ attrsOf qs := by
  unfold attrsOf
  rw [List.map_append, List.filter_append]

theorem pathOf_append (ps qs : List Bytes) : pathOf (ps ++ qs) = (pathOf ps).or (pathOf qs) := by
  unfold pathOf
  rw [List.find?_append]
  cases ps.find? _ with
  | none => rfl
  | some p => rfl

def NoPath (f : Bytes) : Prop := ∃ c t, f = c :: t ∧ c ≠ 32 ∧ tolower c ≠ 112

theorem attrsOf_part {c : UInt8} (t : Bytes) (hc : c ≠ 32) : attrsOf [32 :: c :: t] = [c :: t] := by
  unfold attrsOf
  rw [List.map_singleton, List.dropWhile_cons_of_pos rfl, List.dropWhile_cons_of_neg (by simpa using hc)]
  rfl

theorem pathOf_part {c : UInt8} (t : Bytes) (hc : tolower c ≠ 112) : pathOf [32 :: c :: t] = none := by
  have hkey : ascii " Path=" = 32 :: 80 :: ascii "ath=" := rfl
  have hp : tolower 80 = 112 := by decide
  have hdiff : ¬ sameCase ((32 :: c :: t).take (ascii " Path=").length) (ascii " Path=") = true := by
    unfold sameCase
    rw [hkey]
    simp [hp, hc]
  have hfind : [32 :: c :: t].find? (fun p => sameCase (p.take (ascii " Path=").length) (ascii " Path=")) = none :=
    List.find?_eq_none.mpr (List.forall_mem_singleton.mpr hdiff)
  unfold pathOf
  rw [hfind, Option.map_none]

/-- Attributes with a blank before each of them say what they are, and none of them is a path. -/
theorem noPath_parts {fs : List Bytes} (h : ∀ f ∈ fs, NoPath f) :
    attrsOf (fs.map (32 :: ·)) = fs ∧ pathOf (fs.map (32 :: ·)) = none := by
  induction fs with
  | nil => exact ⟨rfl, rfl⟩
  | cons f fs ih =>
    obtain ⟨⟨c, t, rfl, hblank, hpath⟩, hrest⟩ := List.forall_mem_cons.mp h
    obtain ⟨hattrs, hnone⟩ := ih hrest
    have hcons : ((c :: t) :: fs).map (32 :: ·) = [32 :: c :: t] ++ fs.map (32 :: ·) := rfl
    rw [hcons, attrsOf_append, pathOf_append, attrsOf_part t hblank, pathOf_part t hpath, hattrs, hnone]
    exact ⟨rfl, rfl⟩

/-- What `safety_clause` is good for. -/
structure SafeClauses (secure samesite httponly : Bytes) : Prop where
  text : safetyClause secure samesite httponly = joined (safetyParts secure samesite httponly)
  plain : ∀ p ∈ safetyParts secure samesite httponly, PlainText p
  attrs : attrsOf (safetyParts secure samesite httponly) = flags secure samesite httponly
  path : pathOf (safetyParts secure samesite httponly) = none

theorem flags_cases {secure samesite httponly f : Bytes} (h : f ∈ flags secure samesite httponly) :
    f = ascii "Secure" ∨ f = ascii "HttpOnly" ∨ f = ascii "SameSite=" ++ samesite := by
  obtain h | h := List.mem_append.mp h
  · obtain h | h := List.mem_append.mp h
    · exact .inl (List.eq_of_mem_singleton (List.mem_ite_nil_left.mp h).2)
    · exact .inr (.inl (List.eq_of_mem_singleton (List.mem_ite_nil_left.mp h).2))
  · exact .inr (.inr (List.eq_of_mem_singleton (List.mem_ite_nil_left.mp h).2))

theorem flags_noPath (secure samesite httponly : Bytes) : ∀ f ∈ flags secure samesite httponly, NoPath f := by
  intro f hf
  obtain rfl | rfl | rfl := flags_cases hf
  · exact ⟨83, ascii "ecure", rfl, by decide, by decide⟩
  · exact ⟨72, ascii "ttpOnly", rfl, by decide, by decide⟩
  · exact ⟨83, ascii "ameSite=" ++ samesite, rfl, by decide, by decide⟩

/-- The parts say the flags: the blank part that may be at the end says nothing. -/
theorem safetyParts_say (secure samesite httponly : Bytes) :
    attrsOf (safetyParts secure samesite httponly) = flags secure samesite httponly ∧
      pathOf (safetyParts secure samesite httponly) = none := by
  obtain ⟨hattrs, hpath⟩ := noPath_parts (flags_noPath secure samesite httponly)
  unfold safetyParts
  rw [attrsOf_append, pathOf_append, hattrs, hpath]
  split
  next => exact ⟨List.append_nil _, rfl⟩
  next => exact ⟨List.append_nil _, rfl⟩

theorem safetyParts_plain {secure samesite httponly : Bytes} (h : PlainText samesite) :
    ∀ p ∈ safetyParts secure samesite httponly, PlainText p := by
  have hblank : ∀ {f : Bytes}, PlainText f → PlainText (32 :: f) := fun hf => List.forall_mem_cons.mpr ⟨by decide, hf⟩
  intro p hp
  obtain hp | hp := List.mem_append.mp hp
  · obtain ⟨f, hf, rfl⟩ := List.mem_map.mp hp
    apply hblank
    obtain rfl | rfl | rfl := flags_cases hf
    · exact .of_all rfl
    · exact .of_all rfl
    · exact PlainText.append (.of_all rfl) h
  · obtain rfl := List.eq_of_mem_singleton (List.mem_ite_nil_right.mp hp).2
    exact hblank nofun

/-- A separator goes before each flag in the parts, and after it in the source. -/
theorem flag_joined {text : Bytes} (flag : Bytes) (h : text = flag ++ ascii "; " ∨ text = []) (hflag : flag ≠ []) :
    ascii "; " ++ text = joined ((if text = [] then [] else [flag]).map (32 :: ·)) ++ ascii "; " := by
  obtain rfl | rfl := h
  · rw [if_neg (List.append_ne_nil_of_left_ne_nil hflag _)]
    simp [joined, ascii]
  · rfl

theorem safetyClause_joined {secure samesite httponly : Bytes}
    (hs : secure = ascii "Secure; " ∨ secure = []) (hh : httponly = ascii "HttpOnly; " ∨ httponly = [])
    (hm : samesite = [] ∨ samesite = ascii "Strict" ∨ samesite = ascii "Lax" ∨ samesite = ascii "None") :
    safetyClause secure samesite httponly = joined (safetyParts secure samesite httponly) := by
  have hslen : secure.length ≤ 8 := by obtain rfl | rfl := hs <;> decide
  have hhlen : httponly.length ≤ 10 := by obtain rfl | rfl := hh <;> decide
  have hmlen : samesite.length ≤ 6 := by obtain rfl | rfl | rfl | rfl := hm <;> decide
  have hlast : ascii "; " ++ (if samesite ≠ [] then ascii "SameSite=" ++ samesite else []) =
      joined ((if samesite = [] then [] else [ascii "SameSite=" ++ samesite]).map (32 :: ·) ++
        if samesite = [] then [[32]] else []) := by
    by_cases hnil : samesite = []
    · rw [hnil]
      rfl
    · simp [hnil, joined, ascii]
  have hlen : (ascii "; " ++ secure ++ httponly ++ if samesite ≠ [] then ascii "SameSite=" ++ samesite else []).length ≤ 199 := by
    have hkey : (ascii "; ").length = 2 ∧ (ascii "SameSite=").length = 9 := ⟨rfl, rfl⟩
    split <;> simp only [List.length_append, List.length_nil, hkey] <;> omega
  unfold safetyClause snprintf safetyParts flags
  rw [List.take_of_length_le hlen, flag_joined (ascii "Secure") hs (by decide), List.append_assoc (joined _),
    flag_joined (ascii "HttpOnly") hh (by decide),
    List.map_append, List.map_append]
  simp only [List.append_assoc, joined_append, hlast]

theorem checkCookieClauses_ok {secure samesite httponly : Bytes} (h : checkCookieClauses secure samesite httponly = .ok ()) :
    SafeClauses secure samesite httponly := by
  unfold checkCookieClauses at h
  split at h
  next => cases h
  next hsecure =>
    split at h
    next => cases h
    next hhttp =>
      split at h
      next => cases h
      next hsame =>
        rw [not_and_or, not_not, not_not] at hsecure hhttp
        rw [not_and_or, not_and_or, not_and_or, not_not, not_not, not_not, not_not] at hsame
        have hplain : PlainText samesite := by
          obtain rfl | rfl | rfl | rfl := hsame <;> exact .of_all rfl
        obtain ⟨hattrs, hpath⟩ := safetyParts_say secure samesite httponly
        exact ⟨safetyClause_joined hsecure hhttp hsame, safetyParts_plain hplain, hattrs, hpath⟩

theorem rimCheckSetCookie_ok {name val secure samesite httponly safety : Bytes}
    (h : rimCheckSetCookie name val secure samesite httponly = .ok safety) :
    PlainText name ∧ (61 : UInt8) ∉ name ∧ PlainText val ∧ SafeClauses secure samesite httponly := by
  unfold rimCheckSetCookie at h
  cases hname : checkCookieName name with
  | error e => simp [hname, bind, Except.bind] at h
  | ok _ =>
    cases hval : checkCookieValue val with
    | error e => simp [hname, hval, bind, Except.bind] at h
    | ok _ =>
      cases hclauses : checkCookieClauses secure samesite httponly with
      | error e => simp [hname, hval, hclauses, bind, Except.bind] at h
      | ok _ =>
        obtain ⟨hplain, hno⟩ := checkCookieName_ok hname
        exact ⟨hplain, hno, checkCookieValue_ok hval, checkCookieClauses_ok hclauses⟩

/-! ## The texts in parts -/

def partText (name val : Bytes) (parts : List Bytes) : Bytes := name ++ 61 :: (val ++ joined parts)

theorem readCookie_partText {name val : Bytes} {parts : List Bytes} (hname : PlainText name) (hval : PlainText val)
    (hparts : ∀ p ∈ parts, PlainText p) :
    readCookie (partText name val parts) = (name ++ ascii "=" ++ val, attrsOf parts) := by
  have hplain : PlainText (name ++ 61 :: val) := hname.append (List.forall_mem_cons.mpr ⟨by decide, hval⟩)
  have hsplit : (partText name val parts).splitOn 59 = (name ++ 61 :: val) :: parts := by
    have := splitOn_joined hplain.notMem fun p hp => (hparts p hp).notMem
    rwa [List.append_assoc] at this
  unfold readCookie
  rw [hsplit, List.append_assoc]
  rfl

theorem foundCookie_partText {name val : Bytes} {parts : List Bytes} {i : Nat} (hval : (59 : UInt8) ∉ val)
    (hparts : ∀ p ∈ parts, (59 : UInt8) ∉ p) :
    (foundCookie i ((partText name val parts).drop (name.length + 1))).val = val ∧
      (foundCookie i ((partText name val parts).drop (name.length + 1))).path = pathOf parts := by
  have hdrop : (partText name val parts).drop (name.length + 1) = val ++ joined parts := by
    unfold partText
    rw [List.drop_length_add_append, List.drop_succ_cons, List.drop_zero]
  rw [hdrop]
  exact ⟨takeWhile_part hval, cookieAttr_joined hval (by decide) hparts⟩

theorem pathPart (path : Option Bytes) :
    attrsOf (withText " Path=" path) = withText "Path=" path ∧ pathOf (withText " Path=" path) = path := by
  cases path with
  | none => exact ⟨rfl, rfl⟩
  | some path =>
    have hsame : sameCase ((ascii " Path=" ++ path).take (ascii " Path=").length) (ascii " Path=") = true := by
      rw [List.take_left]
      decide
    have hfind : [ascii " Path=" ++ path].find? (fun p => sameCase (p.take (ascii " Path=").length) (ascii " Path=")) =
        some (ascii " Path=" ++ path) := List.find?_cons_of_pos hsame
    refine ⟨attrsOf_part (ascii "ath=" ++ path) (by decide), ?_⟩
    show ([ascii " Path=" ++ path].find? fun p => sameCase (p.take (ascii " Path=").length) (ascii " Path=")).map
      (·.drop (ascii " Path=").length) = some path
    rw [hfind, Option.map_some, List.drop_left]

theorem expiresPart (exp : Option Bytes) :
    attrsOf (withText " Expires=" exp) = withText "Expires=" exp ∧ pathOf (withText " Expires=" exp) = none := by
  cases exp with
  | none => exact ⟨rfl, rfl⟩
  | some exp =>
    exact ⟨attrsOf_part (ascii "xpires=" ++ exp) (by decide), pathOf_part (ascii "xpires=" ++ exp) (by decide)⟩

theorem withText_plain {key : String} {text : Option Bytes} (hkey : PlainText (ascii key))
    (htext : ∀ t ∈ text, PlainText t) : ∀ p ∈ withText key text, PlainText p := by
  intro p hp
  obtain ⟨t, ht, rfl⟩ := Option.map_eq_some_iff.mp (Option.mem_toList.mp hp)
  exact hkey.append (htext t ht)

theorem clause_joined (key : String) (text : Option Bytes) :
    clause ("; " ++ key) text = joined (withText (" " ++ key) (given text)) := by
  match text with
  | none => rfl
  | some [] => rfl
  | some (c :: text) =>
    have hgiven : given (some (c :: text)) = some (c :: text) := rfl
    rw [hgiven]
    simp [clause, withText, joined, ascii]

/-- The parts of the text of a cookie that is set. -/
def SetCookie.parts (a : SetCookie) : List Bytes :=
  withText " Path=" (given a.path) ++ withText " Expires=" (given a.expires) ++
    safetyParts a.secure a.samesite a.httponly

theorem SetCookie.text_eq {a : SetCookie} (h : SafeClauses a.secure a.samesite a.httponly) :
    a.text = partText a.name a.value a.parts := by
  have hpath : clause "; Path=" a.path = joined (withText " Path=" (given a.path)) := clause_joined "Path=" a.path
  have hexp : clause "; Expires=" a.expires = joined (withText " Expires=" (given a.expires)) :=
    clause_joined "Expires=" a.expires
  unfold text partText parts
  rw [hpath, hexp, h.text, joined_append, joined_append]
  simp only [List.append_assoc]
  rfl

/-- The parts of the text of a cookie that is deleted. -/
def deleteParts (rpath : Option Bytes) (secure : Bytes) : List Bytes :=
  withText " Path=" rpath ++ [ascii " Max-Age=0", ascii " Expires=Thu, 01 Jan 1970 01:01:01 GMT"] ++
    safetyParts secure [] []

theorem deleteText_eq {name secure : Bytes} (rpath : Option Bytes) (h : SafeClauses secure [] []) :
    deleteText name rpath secure = partText name (ascii "deleted") (deleteParts rpath secure) := by
  have hage : ascii "; Max-Age=0; Expires=Thu, 01 Jan 1970 01:01:01 GMT" =
      joined [ascii " Max-Age=0", ascii " Expires=Thu, 01 Jan 1970 01:01:01 GMT"] := by decide
  unfold deleteText partText deleteParts
  rw [hage, h.text, joined_append, joined_append]
  cases rpath with
  | none =>
    simp only [List.append_assoc]
    rfl
  | some path =>
    have hpath : ascii "; Path=" ++ path = joined (withText " Path=" (some path)) := by
      simp [withText, joined, ascii]
    simp only [hpath, List.append_assoc]
    rfl

/-! ## Every call -/

/-- What the text of the cookie that counts for a name shows of it. -/
inductive Shows (name : Bytes) : Option RimCookie → Option Cookie → Prop where
  | absent : Shows name none none
  | received {val : Bytes} : (59 : UInt8) ∉ val → Shows name (some ⟨name ++ 61 :: val, false⟩) (some { value := val })
  | made {val : Bytes} {parts : List Bytes} :
      PlainText name → PlainText val → (∀ p ∈ parts, PlainText p) →
      Shows name (some ⟨partText name val parts, true⟩) (some ⟨val, pathOf parts, some (attrsOf parts)⟩)

/-- Each name shows what was asked for it, and only what is looked up is sent. -/
structure Agree (cookies : List RimCookie) (jar : CookieJar) : Prop where
  shows : ∀ name, (61 : UInt8) ∉ name → Shows name (entry RimCookie.key cookies name) (jar name)
  named : ∀ name, (61 : UInt8) ∈ name → jar name = none
  leading : Leading RimCookie.key (fun c => c.isSetByProgram = true) cookies
  keyed : ∀ c ∈ cookies, c.isSetByProgram = true → ∃ name, (61 : UInt8) ∉ name ∧ c.key = some name

variable {cookies cookies' : List RimCookie} {jar : CookieJar} {name : Bytes}

/-- A name that is not found was never asked for. -/
theorem Agree.find_none (h : Agree cookies jar) (hname : (61 : UInt8) ∉ name)
    (hfind : (rimFindCookie cookies name).ind = none) :
    entry RimCookie.key cookies name = none ∧ jar name = none := by
  cases hentry : entry RimCookie.key cookies name with
  | none =>
    have hshows := h.shows name hname
    rw [hentry] at hshows
    cases hjar : jar name with
    | none => exact ⟨rfl, rfl⟩
    | some k =>
      rw [hjar] at hshows
      cases hshows
  | some c =>
    obtain ⟨i, -, hfound⟩ := rimFindCookie_some hname hentry
    rw [hfound] at hfind
    cases hfind

/-- A name that is found shows its value and path. -/
theorem Agree.find_some (h : Agree cookies jar) (hname : (61 : UInt8) ∉ name) {i : Nat}
    (hfind : (rimFindCookie cookies name).ind = some i) :
    ∃ k, jar name = some k ∧ cookies.findIdx? (fun d => decide (d.key = some name)) = some i ∧
      (rimFindCookie cookies name).val = k.value ∧ (rimFindCookie cookies name).path = k.path := by
  cases hentry : entry RimCookie.key cookies name with
  | none =>
    rw [rimFindCookie_none hname hentry] at hfind
    cases hfind
  | some c =>
    obtain ⟨j, hidx, hfound⟩ := rimFindCookie_some hname hentry
    rw [hfound] at hfind ⊢
    obtain rfl : j = i := Option.some.inj hfind
    have hshows := h.shows name hname
    rw [hentry] at hshows
    generalize hjar : jar name = k at hshows
    cases hshows with
    | @received val hval =>
      have htext : name ++ 61 :: val = partText name val [] := by simp [partText, joined]
      refine ⟨_, rfl, hidx, ?_⟩
      show (foundCookie j ((name ++ 61 :: val).drop (name.length + 1))).val = val ∧
        (foundCookie j ((name ++ 61 :: val).drop (name.length + 1))).path = none
      rw [htext]
      exact foundCookie_partText hval (List.forall_mem_nil _)
    | made _ hval hplain =>
      exact ⟨_, rfl, hidx, foundCookie_partText hval.notMem fun p hp => (hplain p hp).notMem⟩

/-- A cookie that is made in the place of the one for its name, or at the end. -/
theorem Agree.put (h : Agree cookies jar) (hname : (61 : UInt8) ∉ name) {c : RimCookie} {k : Cookie}
    (hshows : Shows name (some c) (some k)) (hkey : c.key = some name)
    (hentry : entry RimCookie.key cookies' = Function.update (entry RimCookie.key cookies) name (some c))
    (hleading : Leading RimCookie.key (fun c => c.isSetByProgram = true) cookies')
    (hmem : ∀ d ∈ cookies', d ∈ cookies ∨ d = c) : Agree cookies' (Function.update jar name (some k)) where
  shows m hm := by
    rw [hentry]
    by_cases hmk : m = name
    · subst hmk
      rwa [Function.update_self, Function.update_self]
    · rw [Function.update_of_ne hmk, Function.update_of_ne hmk]
      exact h.shows m hm
  named m hm := by
    have hne : m ≠ name := fun e => hname (e ▸ hm)
    rw [Function.update_of_ne hne]
    exact h.named m hm
  leading := hleading
  keyed d hd hset := by
    obtain hd | rfl := hmem d hd
    · exact h.keyed d hd hset
    · exact ⟨name, hname, hkey⟩

theorem Agree.replace (h : Agree cookies jar) (hname : (61 : UInt8) ∉ name) {c : RimCookie} {k : Cookie} {i : Nat}
    (hshows : Shows name (some c) (some k)) (hkey : c.key = some name)
    (hidx : cookies.findIdx? (fun d => decide (d.key = some name)) = some i) :
    Agree (cookies.set i c) (Function.update jar name (some k)) :=
  h.put hname hshows hkey (entry_set hidx hkey) (h.leading.set hidx hkey) fun _ hd => List.mem_or_eq_of_mem_set hd

theorem Agree.append (h : Agree cookies jar) (hname : (61 : UInt8) ∉ name) {c : RimCookie} {k : Cookie}
    (hshows : Shows name (some c) (some k)) (hkey : c.key = some name)
    (hnone : entry RimCookie.key cookies name = none) :
    Agree (cookies ++ [c]) (Function.update jar name (some k)) :=
  h.put hname hshows hkey (entry_append hnone hkey) (h.leading.append hnone hkey) fun _ hd =>
    (List.mem_append.mp hd).imp_right List.mem_singleton.mp

/-- The text of the cookie that a call makes is not cut off, and its path and expiration neither end
an attribute nor a line. -/
def CookieFits (cookies : List RimCookie) : CookieOp → Prop
  | .set _ a => a.text.length ≤ RIM_MAX_COOKIE_SIZE ∧ (∀ t ∈ a.path, PlainText t) ∧ ∀ t ∈ a.expires, PlainText t
  | .delete name path secure =>
    (deleteText name (deletePath cookies name path) secure).length < 300 ∧ ∀ t ∈ path, PlainText t
  | .find _ => True

theorem snprintf_fits {n : Nat} {text : Bytes} (h : text.length < n) : snprintf n text = text := by
  unfold snprintf
  exact List.take_of_length_le (by omega)

/-- The cookie that is set shows what is asked. -/
theorem SetCookie.shows {a : SetCookie} (hname : PlainText a.name) (hval : PlainText a.value)
    (hsafe : SafeClauses a.secure a.samesite a.httponly) (hpath : ∀ t ∈ a.path, PlainText t)
    (hexp : ∀ t ∈ a.expires, PlainText t) : Shows a.name (some ⟨a.text, true⟩) (some a.cookie) := by
  have hgiven : ∀ {text : Option Bytes}, (∀ t ∈ text, PlainText t) → ∀ t ∈ given text, PlainText t :=
    fun h t ht => h t (Option.mem_filter_iff.mp ht).1
  have hparts : ∀ p ∈ a.parts, PlainText p := by
    unfold parts
    refine List.forall_mem_append.mpr ⟨List.forall_mem_append.mpr ⟨?_, ?_⟩, hsafe.plain⟩
    · exact withText_plain (.of_all rfl) (hgiven hpath)
    · exact withText_plain (.of_all rfl) (hgiven hexp)
  have hattrs : attrsOf a.parts = withText "Path=" (given a.path) ++ withText "Expires=" (given a.expires) ++
      flags a.secure a.samesite a.httponly := by
    unfold parts
    rw [attrsOf_append, attrsOf_append, (pathPart _).1, (expiresPart _).1, hsafe.attrs]
  have hfound : pathOf a.parts = given a.path := by
    unfold parts
    rw [pathOf_append, pathOf_append, (pathPart _).2, (expiresPart _).2, hsafe.path, Option.or_none, Option.or_none]
  have hmade := Shows.made hname hval hparts
  rw [hattrs, hfound, ← SetCookie.text_eq hsafe] at hmade
  exact hmade

/-- The cookie that is deleted shows it. -/
theorem deletedCookie_shows {rpath : Option Bytes} {secure : Bytes} (hname : PlainText name) (hsafe : SafeClauses secure [] [])
    (hpath : ∀ t ∈ rpath, PlainText t) :
    Shows name (some ⟨deleteText name rpath secure, true⟩) (some (deletedCookie rpath secure)) := by
  have hparts : ∀ p ∈ deleteParts rpath secure, PlainText p := by
    unfold deleteParts
    refine List.forall_mem_append.mpr ⟨List.forall_mem_append.mpr ⟨?_, ?_⟩, hsafe.plain⟩
    · exact withText_plain (.of_all rfl) hpath
    · exact List.forall_mem_cons.mpr ⟨.of_all rfl, List.forall_mem_singleton.mpr (.of_all rfl)⟩
  have hold : ∀ f ∈ [ascii "Max-Age=0", ascii "Expires=Thu, 01 Jan 1970 01:01:01 GMT"], NoPath f := by
    refine List.forall_mem_cons.mpr ⟨⟨77, ascii "ax-Age=0", rfl, by decide, by decide⟩, List.forall_mem_singleton.mpr ?_⟩
    exact ⟨69, ascii "xpires=Thu, 01 Jan 1970 01:01:01 GMT", rfl, by decide, by decide⟩
  obtain ⟨hage, hnone⟩ : attrsOf [ascii " Max-Age=0", ascii " Expires=Thu, 01 Jan 1970 01:01:01 GMT"] =
        [ascii "Max-Age=0", ascii "Expires=Thu, 01 Jan 1970 01:01:01 GMT"] ∧
      pathOf [ascii " Max-Age=0", ascii " Expires=Thu, 01 Jan 1970 01:01:01 GMT"] = none :=
    noPath_parts hold
  have hattrs : attrsOf (deleteParts rpath secure) = withText "Path=" rpath ++
      [ascii "Max-Age=0", ascii "Expires=Thu, 01 Jan 1970 01:01:01 GMT"] ++ flags secure [] [] := by
    unfold deleteParts
    rw [attrsOf_append, attrsOf_append, (pathPart _).1, hage, hsafe.attrs]
  have hfound : pathOf (deleteParts rpath secure) = rpath := by
    unfold deleteParts
    rw [pathOf_append, pathOf_append, (pathPart _).2, hnone, hsafe.path, Option.or_none, Option.or_none]
  have hdeleted : PlainText (ascii "deleted") := .of_all rfl
  have hmade := Shows.made hname hdeleted hparts
  rw [hattrs, hfound, ← deleteText_eq rpath hsafe] at hmade
  exact hmade

theorem rimSetCookie_agree {dataWasOutput : Bool} {a : SetCookie} (h : Agree cookies jar)
    (hfits : CookieFits cookies (.set dataWasOutput a)) (hexec : rimSetCookie dataWasOutput cookies a = .ok cookies') :
    Agree cookies' (Function.update jar a.name (some a.cookie)) := by
  obtain ⟨hlen, hpath, hexp⟩ := hfits
  cases dataWasOutput with
  | true => cases hexec
  | false =>
    cases hcheck : rimCheckSetCookie a.name a.value a.secure a.samesite a.httponly with
    | error e => simp [rimSetCookie, hcheck, bind, Except.bind] at hexec
    | ok safety =>
      obtain ⟨hname, hno, hval, hsafe⟩ := rimCheckSetCookie_ok hcheck
      have hshows := SetCookie.shows hname hval hsafe hpath hexp
      have hkey : RimCookie.key ⟨a.text, true⟩ = some a.name := by
        rw [SetCookie.text_eq hsafe]
        exact key_mk hno true
      have hcut : snprintf (RIM_MAX_COOKIE_SIZE + 1) a.text = a.text := snprintf_fits (Nat.lt_succ_of_le hlen)
      cases hind : (rimFindCookie cookies a.name).ind with
      | none =>
        simp only [rimSetCookie, hcheck, hind, hcut, bind, Except.bind, pure, Except.pure, Bool.false_eq_true,
          if_false] at hexec
        split at hexec
        · cases hexec
        · obtain rfl := Except.ok.inj hexec
          exact h.append hno hshows hkey (h.find_none hno hind).1
      | some i =>
        simp only [rimSetCookie, hcheck, hind, hcut, bind, Except.bind, pure, Except.pure, Bool.false_eq_true,
          if_false] at hexec
        obtain rfl := Except.ok.inj hexec
        obtain ⟨k, -, hidx, -⟩ := h.find_some hno hind
        exact h.replace hno hshows hkey hidx

/-- A name that is asked for has no `=`. -/
theorem Agree.noEqual (h : Agree cookies jar) {k : Cookie} (hjar : jar name = some k) : (61 : UInt8) ∉ name := by
  intro hin
  rw [h.named name hin] at hjar
  cases hjar

theorem rimDeleteCookie_agree {path : Option Bytes} {secure : Bytes} {ind : Option Nat} (h : Agree cookies jar)
    (hfits : CookieFits cookies (.delete name path secure))
    (hexec : rimDeleteCookie cookies name path secure = .ok (cookies', ind)) :
    Agree cookies' (jar.apply (.delete name path secure)) := by
  obtain ⟨hlen, hpath⟩ := hfits
  cases hind : (rimFindCookie cookies name).ind with
  | none =>
    simp only [rimDeleteCookie, hind, pure, Except.pure] at hexec
    obtain ⟨rfl, -⟩ := Prod.mk.inj (Except.ok.inj hexec)
    have hjar : jar name = none := by
      by_cases hin : (61 : UInt8) ∈ name
      · exact h.named name hin
      · exact (h.find_none hin hind).2
    simp only [CookieJar.apply, hjar]
    exact h
  | some i =>
    cases hcheck : rimCheckSetCookie name (ascii "deleted") secure [] [] with
    | error e => simp [rimDeleteCookie, hind, hcheck, bind, Except.bind] at hexec
    | ok safety =>
      obtain ⟨hname, hno, -, hsafe⟩ := rimCheckSetCookie_ok hcheck
      obtain ⟨k, hjar, hidx, -, hfound⟩ := h.find_some hno hind
      have hdelete : deletePath cookies name path = path.or k.path := by
        unfold deletePath
        rw [hfound]
      have hkpath : ∀ t ∈ k.path, PlainText t := by
        have hshows := h.shows name hno
        rw [hjar] at hshows
        generalize entry RimCookie.key cookies name = c at hshows
        cases hshows with
        | received _ => exact nofun
        | made _ _ hparts =>
          intro t ht b hb
          obtain ⟨p, hp, rfl⟩ := Option.map_eq_some_iff.mp ht
          exact hparts p (List.mem_of_find?_eq_some hp) b (List.mem_of_mem_drop hb)
      have hrpath : ∀ t ∈ path.or k.path, PlainText t := by
        intro t ht
        obtain ht | ⟨-, ht⟩ := Option.or_eq_some_iff.mp ht
        · exact hpath t ht
        · exact hkpath t ht
      rw [hdelete] at hlen
      simp only [rimDeleteCookie, hind, hcheck, hdelete, snprintf_fits hlen, bind, Except.bind, pure, Except.pure] at hexec
      obtain ⟨rfl, -⟩ := Prod.mk.inj (Except.ok.inj hexec)
      have hkey : RimCookie.key ⟨deleteText name (path.or k.path) secure, true⟩ = some name := by
        rw [deleteText_eq _ hsafe]
        exact key_mk hno true
      simp only [CookieJar.apply, hjar]
      exact h.replace hno (deletedCookie_shows hname hsafe hrpath) hkey hidx

def CookieStep (cookies : List RimCookie) (op : CookieOp) (cookies' : List RimCookie) : Prop :=
  cookieExec cookies op = .ok cookies'

/-- Every call that fits updates the map. -/
theorem cookieStep_agree {op : CookieOp} (h : Agree cookies jar) (hfits : CookieFits cookies op)
    (hstep : CookieStep cookies op cookies') : Agree cookies' (jar.apply op) := by
  unfold CookieStep cookieExec at hstep
  cases op with
  | set dataWasOutput a => exact rimSetCookie_agree h hfits hstep
  | delete name path secure =>
    cases hexec : rimDeleteCookie cookies name path secure with
    | error e => simp [hexec, Except.map] at hstep
    | ok r =>
      obtain ⟨made, ind⟩ := r
      simp only [hexec, Except.map] at hstep
      obtain rfl := Except.ok.inj hstep
      exact rimDeleteCookie_agree h hfits hexec
  | find name =>
    obtain rfl := Except.ok.inj hstep
    exact h

/-! ## What the cookies say -/

/-- Cookies in which each name shows what was asked for it say what was asked. -/
theorem Agree.serves (h : Agree cookies jar) : Serves cookies jar := by
  have hline : ∀ c ∈ cookies, c.isSetByProgram = true → ∃ name k attrs, c.key = some name ∧ jar name = some k ∧
      k.attrs = some attrs ∧ readCookie c.data = (name ++ ascii "=" ++ k.value, attrs) ∧ ∀ b ∈ c.data, b ≠ 10 ∧ b ≠ 13 := by
    intro c hc hset
    obtain ⟨name, hno, hkey⟩ := h.keyed c hc hset
    have hshows := h.shows name hno
    rw [h.leading.entry_eq hc hset hkey] at hshows
    generalize hjar : jar name = k at hshows
    cases hshows with
    | received _ => cases hset
    | made hname hval hparts =>
      refine ⟨name, _, _, hkey, hjar, rfl, readCookie_partText hname hval hparts, fun b hb => ?_⟩
      obtain hb | hb := List.mem_append.mp hb
      · exact (hname b hb).2
      · obtain rfl | hb := List.mem_cons.mp hb
        · exact ⟨by decide, by decide⟩
        · obtain hb | hb := List.mem_append.mp hb
          · exact (hval b hb).2
          · obtain ⟨p, hp, hb⟩ := List.mem_flatMap.mp hb
            obtain rfl | hb := List.mem_cons.mp hb
            · exact ⟨by decide, by decide⟩
            · exact (hparts p hp b hb).2
  constructor
  case find =>
    intro name hcheck
    obtain ⟨-, hno⟩ := checkCookieName_ok hcheck
    cases hind : (rimFindCookie cookies name).ind with
    | none =>
      obtain ⟨hnone, hjar⟩ := h.find_none hno hind
      rw [rimFindCookie_none hno hnone, hjar]
      rfl
    | some i =>
      obtain ⟨k, hjar, -, hval, -⟩ := h.find_some hno hind
      rw [hval, hjar]
      rfl
  case line =>
    intro c hc hset
    obtain ⟨name, k, attrs, -, hrest⟩ := hline c hc hset
    exact ⟨name, k, attrs, hrest⟩
  case said =>
    intro name k attrs hjar hattrs
    have hno := h.noEqual hjar
    have hshows := h.shows name hno
    rw [hjar] at hshows
    generalize hentry : entry RimCookie.key cookies name = c at hshows
    cases hshows with
    | received _ => cases hattrs
    | made hname hval hparts =>
      obtain rfl := Option.some.inj hattrs
      exact ⟨_, mem_of_entry hentry, rfl, readCookie_partText hname hval hparts⟩
  case once =>
    have hnodup := h.leading.nodup
    refine List.Nodup.of_map some ?_
    rw [List.map_map]
    convert hnodup using 1
    refine List.map_congr_left fun c hc => ?_
    obtain ⟨hc, hset⟩ := List.mem_filter.mp hc
    obtain ⟨name, k, attrs, hkey, hjar, -, hread, -⟩ := hline c hc hset
    have hall : ∀ b ∈ name, (b != 61) = true := by
      intro b hb
      have hne : b ≠ 61 := fun e => h.noEqual hjar (e ▸ hb)
      simpa using hne
    have heq : ascii "=" ++ k.value = 61 :: k.value := rfl
    rw [Function.comp_apply, hread, hkey, List.append_assoc, heq, List.takeWhile_append_of_pos hall,
      List.takeWhile_cons_of_neg (by simp), List.append_nil]

/-! ## The cookies received -/

theorem notMem_of_mem_splitOn {text p : Bytes} (h : p ∈ text.splitOn 59) : (59 : UInt8) ∉ p := by
  induction text generalizing p with
  | nil =>
    obtain rfl := List.mem_singleton.mp h
    exact List.not_mem_nil
  | cons c text ih =>
    rw [List.splitOn_cons_eq_if_modifyHead] at h
    split at h
    next =>
      obtain rfl | h := List.mem_cons.mp h
      · exact List.not_mem_nil
      · exact ih h
    next hc =>
      cases hsplit : text.splitOn 59 with
      | nil =>
        rw [hsplit] at h
        cases h
      | cons q rest =>
        rw [hsplit, List.modifyHead_cons] at h
        rw [hsplit] at ih
        obtain rfl | h := List.mem_cons.mp h
        · refine List.not_mem_cons_of_ne_of_not_mem ?_ (ih (List.mem_cons_self ..))
          intro e
          simp [← e] at hc
        · exact ih (List.mem_cons_of_mem _ h)

/-- The blanks behind a semicolon are those before the next cookie. -/
theorem receivedCookies_dropWhile (text : Bytes) :
    receivedCookies (text.dropWhile isspace) = (text.splitOn 59).map (·.dropWhile isspace) := by
  induction text with
  | nil => rfl
  | cons c text ih =>
    obtain ⟨p, rest, hsplit⟩ := List.exists_cons_of_ne_nil (List.splitOn_ne_nil 59 text)
    by_cases hc : isspace c = true
    · have hne : (c == 59) = false := by
        refine beq_eq_false_iff_ne.mpr ?_
        rintro rfl
        exact absurd hc (by decide)
      rw [List.dropWhile_cons_of_pos hc, ih, List.splitOn_cons_eq_if_modifyHead, hne, if_neg Bool.false_ne_true,
        hsplit, List.modifyHead_cons, List.map_cons, List.map_cons, List.dropWhile_cons_of_pos hc]
    · rw [List.dropWhile_cons_of_neg hc]
      unfold receivedCookies
      rw [List.splitOn_cons_eq_if_modifyHead, hsplit]
      cases c == 59 with
      | true => rfl
      | false =>
        rw [if_neg Bool.false_ne_true, List.modifyHead_cons, List.map_cons, List.dropWhile_cons_of_neg hc]

/-- The loop leaves the cookies in their order. -/
theorem cookieLoop_eq {fuel : Nat} {cookie : Bytes} (h : cookieLoop fuel cookie cookies = .ok cookies') :
    cookies' = cookies ++ (receivedCookies cookie).map (⟨·, false⟩) := by
  induction fuel generalizing cookie cookies with
  | zero => cases h
  | succ fuel ih =>
    unfold cookieLoop at h
    split at h
    next => cases h
    next =>
      split at h
      next hall =>
        have hno : (59 : UInt8) ∉ cookie := fun hin => by simpa using List.dropWhile_eq_nil_iff.mp hall 59 hin
        obtain rfl := Except.ok.inj h
        unfold receivedCookies
        rw [List.splitOn_eq_singleton hno]
        rfl
      next c ew hrest =>
        have hno : (59 : UInt8) ∉ cookie.takeWhile (· != 59) := fun hin => by simpa using List.mem_takeWhile_imp hin
        have hc : (c != 59) = false := by
          have := List.head?_dropWhile_not (· != 59) cookie
          rw [hrest, List.head?_cons] at this
          simpa using this
        obtain rfl : c = 59 := by simpa using hc
        have hcookie : cookie = cookie.takeWhile (· != 59) ++ 59 :: ew := by
          rw [← hrest, List.takeWhile_append_dropWhile]
        have hreceived : receivedCookies cookie =
            cookie.takeWhile (· != 59) :: receivedCookies (ew.dropWhile isspace) := by
          rw [receivedCookies_dropWhile]
          conv_lhs =>
            unfold receivedCookies
            rw [hcookie, List.splitOn_append_cons_self_of_not_mem hno]
        rw [ih h, hreceived, List.append_assoc]
        rfl

theorem notMem_of_mem_receivedCookies {cookie p : Bytes} (h : p ∈ receivedCookies cookie) : (59 : UInt8) ∉ p := by
  unfold receivedCookies at h
  have hall : ∀ q ∈ cookie.splitOn 59, (59 : UInt8) ∉ q := fun _ => notMem_of_mem_splitOn
  cases hsplit : cookie.splitOn 59 with
  | nil =>
    rw [hsplit] at h
    cases h
  | cons text texts =>
    rw [hsplit] at h hall
    obtain rfl | h := List.mem_cons.mp h
    · exact hall _ (List.mem_cons_self ..)
    · obtain ⟨q, hq, rfl⟩ := List.mem_map.mp h
      exact fun hin => hall q (List.mem_cons_of_mem _ hq) ((List.dropWhile_sublist _).subset hin)

/-- Texts without a semicolon show what they are. -/
theorem shows_texts {texts : List Bytes} (htexts : ∀ p ∈ texts, (59 : UInt8) ∉ p) :
    Shows name (entry RimCookie.key (texts.map (⟨·, false⟩)) name)
      (((texts.filterMap pairOf).lookup name).map fun v => { value := v }) := by
  induction texts with
  | nil => exact .absent
  | cons text texts ih =>
    obtain ⟨htext, htexts⟩ := List.forall_mem_cons.mp htexts
    rw [List.map_cons]
    cases hpair : pairOf text with
    | none =>
      have hkey : RimCookie.key ⟨text, false⟩ ≠ some name := by
        unfold RimCookie.key
        rw [hpair]
        exact nofun
      rw [entry_cons_of_ne hkey, List.filterMap_cons_none hpair]
      exact ih htexts
    | some pair =>
      obtain ⟨name', val⟩ := pair
      have hkey : RimCookie.key ⟨text, false⟩ = some name' := by
        unfold RimCookie.key
        rw [hpair]
        rfl
      rw [List.filterMap_cons_some hpair, List.lookup_cons]
      by_cases heq : name = name'
      · subst heq
        obtain ⟨rfl, -⟩ := pairOf_iff.mp hpair
        rw [entry_cons_of_eq hkey, beq_self_eq_true]
        exact .received fun hin => htext (List.mem_append_right _ (List.mem_cons_of_mem _ hin))
      · have hne : RimCookie.key ⟨text, false⟩ ≠ some name := by
          rw [hkey]
          exact fun e => heq (Option.some.inj e).symm
        rw [entry_cons_of_ne hne, beq_false_of_ne heq]
        exact ih htexts

/-- The cookies that come with a request show what they are. -/
theorem receiveCookies_agree {cookie : Bytes} (h : receiveCookies cookie = .ok cookies) :
    Agree cookies (CookieJar.received cookie) := by
  have hcookies : entry RimCookie.key cookies = entry RimCookie.key ((receivedCookies cookie).map (⟨·, false⟩)) ∧
      ∀ c ∈ cookies, c.isSetByProgram = false := by
    unfold receiveCookies at h
    split at h
    next hnil =>
      obtain rfl := Except.ok.inj h
      subst hnil
      exact ⟨rfl, nofun⟩
    next =>
      have hall := cookieLoop_eq h
      rw [List.nil_append] at hall
      subst hall
      refine ⟨rfl, fun c hc => ?_⟩
      obtain ⟨text, -, rfl⟩ := List.mem_map.mp hc
      rfl
  obtain ⟨hentry, hset⟩ := hcookies
  constructor
  case shows =>
    intro name _
    rw [hentry]
    exact shows_texts fun _ => notMem_of_mem_receivedCookies
  case named =>
    intro name hin
    unfold CookieJar.received
    refine Option.map_eq_none_iff.mpr (List.lookup_eq_none_iff.mpr fun pair hpair => ?_)
    obtain ⟨text, -, hpair⟩ := List.mem_filterMap.mp hpair
    obtain ⟨name', val⟩ := pair
    have hne : name ≠ name' := by
      rintro rfl
      exact (pairOf_iff.mp hpair).2 hin
    simpa using hne
  case leading =>
    refine List.pairwise_of_forall_mem_list fun _ _ c hc hp => ?_
    cases (hset c hc).symm.trans hp
  case keyed =>
    intro c hc hp
    cases (hset c hc).symm.trans hp

/-! ## The law -/

/-- After any calls, as long as no text is cut off and no path or expiration ends an attribute or a
line, the cookies say what was asked. -/
theorem cookies_serve {cookie : Bytes} {ops : List CookieOp} (hreceive : receiveCookies cookie = .ok cookies)
    (hrun : GuardedRun CookieStep CookieFits cookies ops cookies') :
    Serves cookies' (ops.foldl CookieJar.apply (CookieJar.received cookie)) :=
  (hrun.foldl cookieStep_agree (receiveCookies_agree hreceive)).serves

/-- One cookie received, set with a path, and deleted where it was set. -/
theorem cookies_serve_deleted :
    Serves [⟨ascii "a=deleted; Path=/p; Max-Age=0; Expires=Thu, 01 Jan 1970 01:01:01 GMT; ", true⟩]
      ([.set false { name := ascii "a", value := ascii "2", path := some (ascii "/p") },
        .delete (ascii "a") none []].foldl CookieJar.apply (CookieJar.received (ascii "a=1"))) := by
  have hpath : ∀ t ∈ some (ascii "/p"), PlainText t := by
    intro t ht
    obtain rfl := Option.mem_some_iff.mp ht
    exact .of_all rfl
  have hreceive : receiveCookies (ascii "a=1") = .ok [⟨ascii "a=1", false⟩] := by decide
  refine cookies_serve hreceive
    (.cons ⟨by decide, hpath, nofun⟩ (by unfold CookieStep; rfl) (.cons ⟨by decide +kernel, nofun⟩ ?_ (.nil _)))
  unfold CookieStep
  decide

/-- A run of calls whose cookies do not say what was asked. -/
def Unserved (ops : List CookieOp) : Prop :=
  ∃ cookies', receiveCookies [] = .ok [] ∧ Run CookieStep [] ops cookies' ∧
    ¬ Serves cookies' (ops.foldl CookieJar.apply (CookieJar.received []))

/-- What is asked for a name is in no header line. -/
theorem Serves.not_of_said {c : RimCookie} {k : Cookie} {attrs : List Bytes} (hjar : jar name = some k)
    (hattrs : k.attrs = some attrs) (hread : (readCookie c.data).2 ≠ attrs) : ¬ Serves [c] jar := by
  intro h
  obtain ⟨d, hd, -, hsaid⟩ := h.said name k attrs hjar hattrs
  obtain rfl := List.mem_singleton.mp hd
  exact hread (congrArg Prod.snd hsaid)

def longCookie : SetCookie := { name := ascii "a", value := List.replicate 2100 49 }

def brokenCookie : SetCookie := { name := ascii "a", value := ascii "1", path := some (ascii "/\x0d\x0aX: 1") }

theorem longDelete_unserved : Unserved [.set false { name := ascii "a", value := ascii "1" },
    .delete (ascii "a") (some (List.replicate 300 97)) []] := by
  have hset : CookieStep [] (.set false { name := ascii "a", value := ascii "1" })
      [⟨ascii "a=1; HttpOnly; SameSite=Strict", true⟩] := by
    unfold CookieStep
    decide
  have hdelete : CookieStep [⟨ascii "a=1; HttpOnly; SameSite=Strict", true⟩]
      (.delete (ascii "a") (some (List.replicate 300 97)) [])
      [⟨ascii "a=deleted; Path=" ++ List.replicate 283 97, true⟩] := by
    unfold CookieStep
    decide +kernel
  have hjar : ([.set false { name := ascii "a", value := ascii "1" },
      .delete (ascii "a") (some (List.replicate 300 97)) []].foldl CookieJar.apply (CookieJar.received [])) (ascii "a") =
      some (deletedCookie (some (List.replicate 300 97)) []) := by decide +kernel
  refine ⟨_, rfl, .cons trivial hset (.cons trivial hdelete (.nil _)), Serves.not_of_said hjar rfl ?_⟩
  decide +kernel

theorem readCookie_whole {v : Bytes} (hv : (59 : UInt8) ∉ v) : (readCookie v).2 = [] := by
  have hsplit := splitOn_joined hv (List.forall_mem_nil _)
  rw [joined, List.flatMap_nil, List.append_nil] at hsplit
  rw [readCookie, hsplit]
  rfl

theorem longCookie_unserved : Unserved [.set false longCookie] := by
  have hset : CookieStep [] (.set false longCookie) [⟨ascii "a=" ++ List.replicate 2046 49, true⟩] := by
    unfold CookieStep
    decide +kernel
  have hjar : ([.set false longCookie].foldl CookieJar.apply (CookieJar.received [])) (ascii "a") =
      some longCookie.cookie := rfl
  refine ⟨_, rfl, .cons trivial hset (.nil _), Serves.not_of_said hjar rfl ?_⟩
  have hno : (59 : UInt8) ∉ ascii "a=" ++ List.replicate 2046 49 := by
    intro h
    rcases List.mem_append.mp h with h | h
    · exact absurd h (by decide)
    · exact absurd (List.mem_replicate.mp h).2 (by decide)
  show (readCookie (ascii "a=" ++ List.replicate 2046 49)).2 ≠ _
  rw [readCookie_whole hno]
  exact nofun

theorem brokenCookie_unserved : Unserved [.set false brokenCookie] := by
  have hset : CookieStep [] (.set false brokenCookie)
      [⟨ascii "a=1; Path=/\x0d\x0aX: 1; HttpOnly; SameSite=Strict", true⟩] := by
    unfold CookieStep
    decide
  refine ⟨_, rfl, .cons trivial hset (.nil _), fun h => ?_⟩
  obtain ⟨_, _, _, _, _, _, hbreak⟩ := h.line _ (List.mem_singleton_self _) rfl
  exact absurd hbreak (by decide)

/-- A long path cuts off what deletes a cookie, a long value cuts off what a cookie is set with, and
a path with a line break ends the header line. -/
theorem cookies_do_not_serve :
    Unserved [.set false { name := ascii "a", value := ascii "1" },
        .delete (ascii "a") (some (List.replicate 300 97)) []] ∧
      Unserved [.set false longCookie] ∧ Unserved [.set false brokenCookie] :=
  ⟨longDelete_unserved, longCookie_unserved, brokenCookie_unserved⟩

end RimStone
