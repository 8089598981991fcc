import Mathlib.Order.Bounds.Basic
import RimStone.Array.Array
import RimStone.Lib.Run
import RimStone.Lib.Yields

/-!
# Arrays are default-filled maps

An array stands for a map from all keys to values: what is not in the allocation is default, and what is in it is
set. Growth keeps that, since what it adds is filled. It breaks where an element that is not allocated is deleted,
where the size of an allocation has no room in 64 bits, and where the old value of a double is not zero, as it
comes back as a number.
-/

namespace RimStone

open RimStone.Lib

/-- What an array is for: its values, and the keys written since it was made or purged. -/
structure ArrayMap (k : ArrayKind) where
  value : Int → k.Val
  written : List Int

namespace ArrayMap

variable {k : ArrayKind}

def empty : ArrayMap k := ⟨fun _ => k.default, []⟩

def put (g : ArrayMap k) (key : Int) (v : k.Val) : ArrayMap k := ⟨Function.update g.value key v, key :: g.written⟩

/-- What a statement does, and the value that it reads. -/
def step (g : ArrayMap k) : ArrayOp k → ArrayMap k × Option k.Val
  | .write key value => (g.put key value, none)
  | .writeOld key value => (g.put key (value (g.value key)), some (g.value key))
  | .read key delete =>
    (if delete then { g with value := Function.update g.value key k.default } else g, some (g.value key))
  | .purge => (empty, none)

end ArrayMap

/-- The allocation has the values of a map, and the map has none behind it. -/
structure RimArray.Filled {k : ArrayKind} (arr : RimArray k) (value : Int → k.Val) : Prop where
  alloc_pos : RIM_ARRAY_INC ≤ arr.allocElem
  alloc_le : arr.allocElem ≤ arr.maxElem
  length : (arr.elems.length : Int) = arr.allocElem
  elems : ∀ key, 0 ≤ key → key < arr.allocElem → arr.get key = some (value key)
  beyond : ∀ key, arr.allocElem ≤ key → value key = k.default

/-- An array stands for a map: `totElem` is one more than the largest key that was written. -/
structure RimArray.Represents {k : ArrayKind} (arr : RimArray k) (g : ArrayMap k) : Prop where
  filled : arr.Filled g.value
  tot : IsLeast {n | 0 ≤ n ∧ ∀ key ∈ g.written, key < n} arr.totElem

/-- The keys of a statement are keys of the array. -/
def ArrayOp.InRange {k : ArrayKind} (arr : RimArray k) : ArrayOp k → Prop
  | .write key _ | .writeOld key _ | .read key _ => 0 ≤ key ∧ key < arr.maxElem
  | .purge => True

/-- The numbers that growth for a key makes have room in 64 bits. -/
def RimArray.Growable {k : ArrayKind} (arr : RimArray k) (key : Int) : Prop :=
  arr.allocElem ≤ key → (65536 ≤ key → key + 65536 < 2 ^ 63) ∧ (grown arr.maxElem key).toNat * k.size < 2 ^ 64

/-- A value that comes back as an old value: all but doubles other than zero. -/
def ArrayKind.Kept : (k : ArrayKind) → k.Val → Prop
  | .double, (d : UInt64) => d = 0
  | _, _ => True

def ArrayOp.Sound {k : ArrayKind} (arr : RimArray k) : ArrayOp k → Prop
  | .write key _ => arr.Growable key
  | .writeOld key _ => arr.Growable key ∧ (key < arr.allocElem → ∀ v, arr.get key = some v → k.Kept v)
  | .read key delete => delete = true → key < arr.allocElem
  | .purge => True

/-- A statement that returns, with the value that it reads. -/
def ArrayStep {k : ArrayKind} (arr : RimArray k) (ev : ArrayOp k × Option k.Val) (arr' : RimArray k) : Prop :=
  ∃ mem, ev.1.exec arr mem = .ok (arr', ev.2)

/-! ## Old values -/

section OldValues

/-- A double with exponent `e` is about as large as `2 ^ (e - 1023)`. -/
theorem dblMagnitude_cases (d : UInt64) :
    ∃ e m, d.toNat = d.toNat / 2 ^ 63 * 2 ^ 63 + e * 2 ^ 52 + m ∧ m < 2 ^ 52 ∧
      (e < 1023 ∧ dblMagnitude d = 0 ∨ 1023 ≤ e ∧ e ≤ 1083 ∧ dblMagnitude d < 2 ^ 61 ∨
        e = 1084 ∧ dblMagnitude d = (2 ^ 52 + m) * 512 ∨ e = 1085 ∧ dblMagnitude d = (2 ^ 52 + m) * 1024 ∨
        1086 ≤ e ∧ 2 ^ 63 ≤ dblMagnitude d) := by
  have hm : d.toNat % 2 ^ 52 < 2 ^ 52 := Nat.mod_lt _ (by decide)
  refine ⟨d.toNat / 2 ^ 52 % 2 ^ 11, d.toNat % 2 ^ 52, by have := d.toNat_lt; omega, hm, ?_⟩
  unfold dblMagnitude
  generalize d.toNat / 2 ^ 52 % 2 ^ 11 = e
  generalize d.toNat % 2 ^ 52 = m at hm
  by_cases hsmall : e < 1023
  · exact .inl ⟨hsmall, if_pos hsmall⟩
  · simp only [if_neg hsmall]
    by_cases hpoint : e < 1023 + 52
    · rw [if_pos hpoint]
      have hle : (2 ^ 52 + m) / 2 ^ (1023 + 52 - e) ≤ 2 ^ 52 + m := Nat.div_le_self _ _
      exact .inr (.inl ⟨by omega, by omega, by omega⟩)
    · rw [if_neg hpoint]
      obtain hle | rfl | rfl | hge : e ≤ 1083 ∨ e = 1084 ∨ e = 1085 ∨ 1086 ≤ e := by omega
      · have hpow : 2 ^ (e - (1023 + 52)) ≤ 2 ^ 8 := Nat.pow_le_pow_right (by decide) (by omega)
        have hmul : (2 ^ 52 + m) * 2 ^ (e - (1023 + 52)) ≤ (2 ^ 52 + m) * 2 ^ 8 := Nat.mul_le_mul_left _ hpow
        exact .inr (.inl ⟨by omega, hle, by omega⟩)
      · exact .inr (.inr (.inl ⟨rfl, rfl⟩))
      · exact .inr (.inr (.inr (.inl ⟨rfl, rfl⟩)))
      · have hpow : 2 ^ 11 ≤ 2 ^ (e - (1023 + 52)) := Nat.pow_le_pow_right (by decide) (by omega)
        have hmul : (2 ^ 52 + m) * 2 ^ 11 ≤ (2 ^ 52 + m) * 2 ^ (e - (1023 + 52)) := Nat.mul_le_mul_left _ hpow
        exact .inr (.inr (.inr (.inr ⟨hge, by omega⟩)))

/-- Only zero is a double whose bits are the number that it is. -/
theorem asOld_double_iff (d : UInt64) : ArrayKind.asOld .double d = some d ↔ d = 0 := by
  constructor
  · intro h
    obtain ⟨n, hn, hbits⟩ := Option.map_eq_some_iff.mp h
    have hnat : (n % 2 ^ 64).toNat = d.toNat := by
      have := congrArg UInt64.toNat hbits
      rwa [UInt64.toNat_ofNat', Nat.mod_eq_of_lt (by omega)] at this
    obtain ⟨e, m, hd, hm, hcases⟩ := dblMagnitude_cases d
    have hlt := d.toNat_lt
    unfold dblToNum at hn
    apply UInt64.toNat_inj.mp
    show d.toNat = 0
    by_cases hsign : d.toNat < 2 ^ 63
    · simp only [if_pos hsign] at hn
      split at hn
      next hroom =>
        -- the bits are the number itself, and those of a double from 1 on are more than `2 ^ 61`
        obtain rfl := Option.some.inj hn
        have hsame : dblMagnitude d = d.toNat := by omega
        have hzero : d.toNat / 2 ^ 63 = 0 := Nat.div_eq_of_lt hsign
        rw [hzero] at hd
        obtain ⟨-, hmag⟩ | ⟨he, -, hmag⟩ | ⟨he, hmag⟩ | ⟨he, hmag⟩ | ⟨-, hmag⟩ := hcases <;> omega
      next => cases hn
    · simp only [if_neg hsign] at hn
      split at hn
      next hroom =>
        -- the bits are those of a negative number, which is not as far below zero
        obtain rfl := Option.some.inj hn
        have hsum : dblMagnitude d + d.toNat = 2 ^ 64 := by omega
        have hone : d.toNat / 2 ^ 63 = 1 := by omega
        rw [hone] at hd
        clear hnat hn
        obtain ⟨-, hmag⟩ | ⟨he, he', hmag⟩ | ⟨he, hmag⟩ | ⟨he, hmag⟩ | ⟨he, hmag⟩ := hcases <;> omega
      next => cases hn
  · rintro rfl
    rfl

theorem ArrayKind.Kept.asOld {k : ArrayKind} {v : k.Val} (h : k.Kept v) : k.asOld v = some v := by
  cases k with
  | string => rfl
  | number => rfl
  | double => exact (asOld_double_iff v).mpr h
  | bool => rfl

theorem ArrayKind.kept_default (k : ArrayKind) : k.Kept k.default := by
  cases k with
  | string => trivial
  | number => trivial
  | double => rfl
  | bool => trivial

end OldValues

/-! ## Elements -/

/-- A statement returns with `P`, or reports an error. -/
abbrev Reports {α : Type} (P : α → Prop) : Except (Fault Unit) α → Prop := Yields (· ≠ .undefined) P

namespace RimArray

variable {k : ArrayKind} {arr : RimArray k} {value : Int → k.Val} {key : Int}

theorem report_allowed (message : String) : Fault.report message () ≠ Fault.undefined := fun h => by cases h

/-- Elements behind what was allocated are made default. -/
theorem fill_eq (elems : List (Option k.Val)) (n : Nat) :
    fill (elems ++ List.replicate n none) elems.length n = some (elems ++ List.replicate n (some k.default)) := by
  have hlen : (elems ++ List.replicate n (none : Option k.Val)).length = elems.length + n := by
    rw [List.length_append, List.length_replicate]
  unfold fill
  rw [if_pos (Nat.le_of_eq hlen.symm), List.take_left, List.drop_eq_nil_of_le (Nat.le_of_eq hlen), List.append_nil]

theorem get_left {elems more : List (Option k.Val)} (h : key.toNat < elems.length) (n m t : Int) :
    get ⟨elems ++ more, n, m, t⟩ key = get ⟨elems, n, m, t⟩ key := by
  unfold get
  rw [List.getElem?_append_left h]

theorem get_fresh {elems : List (Option k.Val)} {c : Nat} (h : elems.length ≤ key.toNat) (hc : key.toNat < elems.length + c)
    (n m t : Int) : get ⟨elems ++ List.replicate c (some k.default), n, m, t⟩ key = some k.default := by
  unfold get
  rw [List.getElem?_append_right h, List.getElem?_replicate, if_pos (by omega)]
  rfl

/-- A new array has nothing but default values. -/
theorem init_filled (k : ArrayKind) (mem : Nat → Bool) (maxElem : Int) :
    Reports (fun arr => arr.Filled (fun _ => k.default) ∧ arr.totElem = 0) (init k mem maxElem) := by
  unfold init
  refine Yields.check (report_allowed _) fun _ => Yields.check (report_allowed _) fun _ => ?_
  have hfill := fill_eq (k := k) [] RIM_ARRAY_INC.toNat
  rw [List.nil_append, List.nil_append, List.length_nil] at hfill
  rw [hfill]
  refine Yields.ok ⟨⟨Int.le_refl _, ?_, by rw [List.length_replicate]; rfl, ?_, fun _ _ => rfl⟩, rfl⟩
  · show RIM_ARRAY_INC ≤ if (if maxElem = 0 then 1000000 else maxElem) < RIM_ARRAY_INC then _ else _
    have hinc : RIM_ARRAY_INC = 256 := rfl
    rw [hinc]
    repeat' split
    all_goals omega
  · intro key hpos hlt
    have hlt' : key < 256 := hlt
    rw [← List.nil_append (List.replicate _ _)]
    exact get_fresh (Nat.zero_le _) (by show key.toNat < 0 + 256; omega) _ _ _

/-- An element of the allocation is set. -/
theorem Filled.set (h : arr.Filled value) (hpos : 0 ≤ key) (hlt : key < arr.allocElem) (v : k.Val) :
    ∃ arr', arr.set key v = some arr' ∧ arr'.Filled (Function.update value key v) ∧ arr'.totElem = arr.totElem := by
  have hlen := h.length
  refine ⟨_, if_pos (by omega), ⟨h.alloc_pos, h.alloc_le, by rw [List.length_set]; exact hlen, ?_, ?_⟩, rfl⟩
  · intro i hi hiAlloc
    by_cases hkey : i = key
    · subst hkey
      rw [Function.update_self]
      show ((arr.elems.set i.toNat (some v))[i.toNat]?).join = _
      rw [List.getElem?_set_self (by omega)]
      rfl
    · rw [Function.update_of_ne hkey]
      show ((arr.elems.set key.toNat (some v))[i.toNat]?).join = _
      rw [List.getElem?_set_ne (by omega)]
      exact h.elems i hi hiAlloc
  · intro i hi
    have hi' : arr.allocElem ≤ i := hi
    rw [Function.update_of_ne (by omega)]
    exact h.beyond i hi

theorem lt_grown {maxElem alloc : Int} (halloc : RIM_ARRAY_INC ≤ alloc) (hkey : alloc ≤ key) (hmax : key < maxElem) :
    key < grown maxElem key ∧ grown maxElem key ≤ maxElem := by
  have halloc' : 256 ≤ alloc := halloc
  unfold grown
  dsimp only
  split
  next =>
    split
    next => exact ⟨hmax, Int.le_refl _⟩
    next => omega
  next =>
    split
    next => exact ⟨hmax, Int.le_refl _⟩
    next => omega

/-- How many elements a number of bytes is. -/
theorem size_div {n : Nat} (h : n * k.size < 2 ^ 64) : n * k.size % 2 ^ 64 / k.size = n := by
  have hsize : 0 < k.size := by cases k <;> decide
  rw [Nat.mod_eq_of_lt h, Nat.mul_div_cancel _ hsize]

/-- Growth keeps the values, and makes room for the key. -/
theorem Filled.grow (h : arr.Filled value) (hkey : arr.allocElem ≤ key) (hmax : key < arr.maxElem)
    (hgrow : arr.Growable key) (mem : Nat → Bool) :
    Reports (fun arr' => arr'.Filled value ∧ key < arr'.allocElem ∧ arr'.totElem = arr.totElem) (arr.grow mem key) := by
  obtain ⟨hsum, hbytes⟩ := hgrow hkey
  obtain ⟨hlt, hle⟩ := lt_grown h.alloc_pos hkey hmax
  have hlen := h.length
  have hpos : 256 ≤ arr.allocElem := h.alloc_pos
  have hmore : ((grown arr.maxElem key - arr.allocElem).toNat * k.size) < 2 ^ 64 := by
    refine Nat.lt_of_le_of_lt (Nat.mul_le_mul_right _ ?_) hbytes
    omega
  unfold RimArray.grow
  rw [if_neg (by omega)]
  refine Yields.check (report_allowed _) fun _ => ?_
  have hcount : (if k = .string then (grown arr.maxElem key - arr.allocElem).toNat
      else (grown arr.maxElem key - arr.allocElem).toNat * k.size % 2 ^ 64 / k.size) =
      (grown arr.maxElem key - arr.allocElem).toNat := by
    rw [size_div hmore, ite_self]
  have hnew : (grown arr.maxElem key).toNat - arr.elems.length = (grown arr.maxElem key - arr.allocElem).toNat := by omega
  have hstart : arr.allocElem.toNat = arr.elems.length := by omega
  dsimp only
  rw [size_div hbytes, List.take_of_length_le (by omega), hcount, hnew, hstart, fill_eq]
  refine Yields.ok ⟨⟨?_, hle, ?_, ?_, ?_⟩, hlt, rfl⟩
  · show RIM_ARRAY_INC ≤ grown arr.maxElem key
    have hinc : RIM_ARRAY_INC = 256 := rfl
    omega
  · show ((arr.elems ++ List.replicate _ _).length : Int) = grown arr.maxElem key
    rw [List.length_append, List.length_replicate]
    omega
  · intro i hi hiAlloc
    have hiAlloc' : i < grown arr.maxElem key := hiAlloc
    by_cases hold : i < arr.allocElem
    · rw [get_left (by omega)]
      exact h.elems i hi hold
    · rw [h.beyond i (by omega)]
      exact get_fresh (by omega) (by omega) _ _ _
  · intro i hi
    have hi' : grown arr.maxElem key ≤ i := hi
    exact h.beyond i (by omega)

theorem Filled.withTot (h : arr.Filled value) (n : Int) : RimArray.Filled { arr with totElem := n } value :=
  ⟨h.alloc_pos, h.alloc_le, h.length, h.elems, h.beyond⟩

theorem Filled.reserve (h : arr.Filled value) (hmax : key < arr.maxElem) (hgrow : arr.Growable key) (mem : Nat → Bool) :
    Reports (fun arr' => arr'.Filled value ∧ key < arr'.allocElem ∧ arr'.totElem = arr.totElem) (arr.reserve mem key) := by
  unfold RimArray.reserve
  by_cases hkey : key ≥ arr.allocElem
  · rw [if_pos hkey]
    exact h.grow hkey hmax hgrow mem
  · rw [if_neg hkey]
    exact Yields.ok ⟨h, by omega, rfl⟩

theorem Filled.count (h : arr.Filled value) (key : Int) : (arr.count key).Filled value ∧
    (arr.count key).allocElem = arr.allocElem ∧
    (arr.count key).totElem = if key ≥ arr.totElem then key + 1 else arr.totElem := by
  unfold RimArray.count
  split
  next => exact ⟨h.withTot _, rfl, rfl⟩
  next => exact ⟨h, rfl, rfl⟩

/-- There is an element for a key to be written, and its old value. -/
theorem Filled.write (h : arr.Filled value) (hpos : 0 ≤ key) (hmax : key < arr.maxElem) (hgrow : arr.Growable key)
    (mem : Nat → Bool) (oldVal : Bool) (hold : oldVal = true → k.Kept (value key)) :
    Reports (fun res => res.1.Filled value ∧ key < res.1.allocElem ∧
      res.1.totElem = (if key ≥ arr.totElem then key + 1 else arr.totElem) ∧
      res.2 = if oldVal then some (value key) else none) (arr.rimWriteArray mem key oldVal) := by
  have hneg : ¬ key < 0 := by omega
  have hin : ¬ key ≥ arr.maxElem := by omega
  unfold rimWriteArray
  rw [if_neg hneg, if_neg hin]
  refine (h.reserve hmax hgrow mem).bind fun arr' hreserved => ?_
  obtain ⟨hfilled, hlt, htot'⟩ := hreserved
  obtain ⟨hfilled, halloc, htot⟩ := hfilled.count key
  rw [htot'] at htot
  rw [← halloc] at hlt
  dsimp only
  have hget := hfilled.elems key hpos hlt
  cases oldVal with
  | true =>
    rw [if_pos rfl, hget, inArray]
    show Reports _ (inArray (k.asOld (value key)) >>= _)
    rw [(hold rfl).asOld]
    exact Yields.ok ⟨hfilled, hlt, htot, rfl⟩
  | false =>
    rw [if_neg Bool.false_ne_true]
    by_cases hstring : k = .string
    · rw [if_pos hstring, hget]
      exact Yields.ok ⟨hfilled, hlt, htot, rfl⟩
    · rw [if_neg hstring]
      exact Yields.ok ⟨hfilled, hlt, htot, rfl⟩

/-- A read gives the value, in the allocation or not. -/
theorem Filled.read (h : arr.Filled value) (hpos : 0 ≤ key) (hmax : key < arr.maxElem) :
    arr.rimReadArray key = .ok (value key) := by
  unfold rimReadArray
  rw [if_neg (by omega)]
  by_cases hkey : key ≥ arr.allocElem
  · rw [if_pos hkey, h.beyond key hkey]
  · rw [if_neg hkey, h.elems key hpos (by omega)]
    rfl

theorem Filled.purge (h : arr.Filled value) (mem : Nat → Bool) :
    Reports (fun arr' => arr'.Filled (fun _ => k.default) ∧ arr'.totElem = 0) (arr.purge mem) := by
  unfold RimArray.purge
  rw [if_neg]
  · exact init_filled k mem arr.maxElem
  · rintro ⟨-, hno⟩
    apply hno
    intro i hi
    rw [h.elems i (by omega) (by omega)]
    rfl

theorem tot_put {written : List Int} {tot : Int} (h : IsLeast {n | 0 ≤ n ∧ ∀ key ∈ written, key < n} tot) (hpos : 0 ≤ key) :
    IsLeast {n | 0 ≤ n ∧ ∀ i ∈ key :: written, i < n} (if key ≥ tot then key + 1 else tot) := by
  obtain ⟨⟨htot, hall⟩, hleast⟩ := h
  have hbound : ∀ n : Int, tot ≤ n → key < n → 0 ≤ n ∧ ∀ i ∈ key :: written, i < n := fun n hn hkey =>
    ⟨by omega, List.forall_mem_cons.mpr ⟨hkey, fun i hi => Int.lt_of_lt_of_le (hall i hi) hn⟩⟩
  constructor
  · split
    next => exact hbound _ (by omega) (by omega)
    next => exact hbound _ (by omega) (by omega)
  · rintro n ⟨hn, hmore⟩
    obtain ⟨hkey, hrest⟩ := List.forall_mem_cons.mp hmore
    have hle : tot ≤ n := hleast ⟨hn, hrest⟩
    split
    next => exact hkey
    next => exact hle

end RimArray

/-! ## Runs -/

open RimArray in
/-- A statement that is sound answers as the map does, and does to it what the map does. -/
theorem ArrayOp.exec_reports {k : ArrayKind} {arr : RimArray k} {g : ArrayMap k} (h : arr.Represents g) (mem : Nat → Bool)
    (op : ArrayOp k) (hrange : op.InRange arr) (hsound : op.Sound arr) :
    Reports (fun res => res.2 = (g.step op).2 ∧ res.1.Represents (g.step op).1) (op.exec arr mem) := by
  cases op with
  | write key value =>
    obtain ⟨hpos, hmax⟩ := hrange
    have hwrite := h.filled.write hpos hmax hsound mem false fun hno => absurd hno Bool.false_ne_true
    refine hwrite.bind fun res hres => ?_
    obtain ⟨hfilled, hlt, htot, -⟩ := hres
    obtain ⟨arr', hset, hfilled, htot'⟩ := hfilled.set hpos hlt value
    dsimp only
    rw [hset]
    refine Yields.ok ⟨rfl, hfilled, ?_⟩
    rw [htot', htot]
    exact tot_put h.tot hpos
  | writeOld key value =>
    obtain ⟨hpos, hmax⟩ := hrange
    obtain ⟨hgrow, hkept⟩ := hsound
    have hold : k.Kept (g.value key) := by
      by_cases hkey : key < arr.allocElem
      · exact hkept hkey _ (h.filled.elems key hpos hkey)
      · rw [h.filled.beyond key (by omega)]
        exact k.kept_default
    refine (h.filled.write hpos hmax hgrow mem true fun _ => hold).bind fun res hres => ?_
    obtain ⟨hfilled, hlt, htot, hres⟩ := hres
    rw [if_pos rfl] at hres
    obtain ⟨arr', hset, hfilled, htot'⟩ := hfilled.set hpos hlt (value (g.value key))
    dsimp only
    rw [hres, inArray]
    show Reports _ (inArray (res.1.set key (value (g.value key))) >>= _)
    rw [hset]
    refine Yields.ok ⟨rfl, hfilled, ?_⟩
    rw [htot', htot]
    exact tot_put h.tot hpos
  | read key delete =>
    obtain ⟨hpos, hmax⟩ := hrange
    have hread := h.filled.read hpos hmax
    show Reports _ (arr.rimReadArray key >>= fun v =>
      inArray (if delete = true then arr.set key k.default else some arr) >>= fun arr' => .ok (arr', some v))
    rw [hread]
    cases delete with
    | false => exact Yields.ok ⟨rfl, h⟩
    | true =>
      obtain ⟨arr', hset, hfilled, htot⟩ := h.filled.set hpos (hsound rfl) k.default
      show Reports _ (inArray (arr.set key k.default) >>= _)
      rw [hset]
      refine Yields.ok ⟨rfl, hfilled, ?_⟩
      rw [htot]
      exact h.tot
  | purge =>
    refine (h.filled.purge mem).bind fun arr' hpurged => ?_
    obtain ⟨hfilled, htot⟩ := hpurged
    refine Yields.ok ⟨rfl, hfilled, ?_⟩
    rw [htot]
    exact ⟨⟨Int.le_refl _, fun key hkey => absurd hkey List.not_mem_nil⟩, fun n hn => hn.1⟩

open RimArray in
theorem init_represents {k : ArrayKind} {mem : Nat → Bool} {maxElem : Int} {arr : RimArray k}
    (h : init k mem maxElem = .ok arr) : arr.Represents ArrayMap.empty := by
  obtain ⟨hfilled, htot⟩ := (init_filled k mem maxElem).of_ok h
  refine ⟨hfilled, ?_⟩
  rw [htot]
  exact ⟨⟨Int.le_refl _, fun key hkey => absurd hkey List.not_mem_nil⟩, fun n hn => hn.1⟩

/-- What is expected of a run: the values that are read are those of a map, the array stands for that map, and the
next statement does not leave the allocation. -/
structure ArrayRuns {k : ArrayKind} (guard : RimArray k → ArrayOp k → Prop) (evs : List (ArrayOp k × Option k.Val))
    (arr : RimArray k) : Prop where
  map : ∃ g, Answers ArrayMap.step ArrayMap.empty evs g ∧ arr.Represents g
  inside : ∀ mem op, guard arr op → op.exec arr mem ≠ .error .undefined

section Witness

open RimArray

theorem init_eq {k : ArrayKind} {maxElem : Int} (hmax : RIM_ARRAY_INC ≤ maxElem) :
    init k (fun _ => true) maxElem =
      .ok ⟨List.replicate RIM_ARRAY_INC.toNat (some k.default), maxElem, RIM_ARRAY_INC, 0⟩ := by
  have hmax' : 256 ≤ maxElem := hmax
  have hinc : RIM_ARRAY_INC = 256 := rfl
  have hfill := fill_eq (k := k) [] RIM_ARRAY_INC.toNat
  rw [List.nil_append, List.nil_append, List.length_nil] at hfill
  have hzero : ¬ maxElem = 0 := by omega
  have hsmall : ¬ maxElem < RIM_ARRAY_INC := by omega
  unfold init
  rw [if_neg (by omega), if_neg hzero]
  dsimp only
  rw [if_neg hsmall, if_neg (by decide), hfill]
  rfl

/-- To delete what is not allocated is to write outside of the allocation. -/
theorem delete_outside {k : ArrayKind} {arr : RimArray k} {key : Int} (hpos : 0 ≤ key) (hmax : key < arr.maxElem)
    (halloc : arr.allocElem ≤ key) (hlen : arr.elems.length ≤ key.toNat) (mem : Nat → Bool) :
    (ArrayOp.read key true).exec arr mem = .error .undefined := by
  have hread : arr.rimReadArray key = .ok k.default := by
    unfold rimReadArray
    rw [if_neg (by omega), if_pos halloc]
  have hset : arr.set key k.default = none := if_neg (by omega)
  show (arr.rimReadArray key >>= fun v =>
    inArray (if true = true then arr.set key k.default else some arr) >>= fun arr' => .ok (arr', some v)) = _
  rw [hread, if_pos rfl, hset]
  rfl

/-- What is not allocated is read as a default. -/
theorem read_outside {k : ArrayKind} {arr : RimArray k} {key : Int} (hpos : 0 ≤ key) (hmax : key < arr.maxElem)
    (halloc : arr.allocElem ≤ key) : ArrayStep arr (.read key false, some k.default) arr := by
  have hread : arr.rimReadArray key = .ok k.default := by
    unfold rimReadArray
    rw [if_neg (by omega), if_pos halloc]
  refine ⟨fun _ => true, ?_⟩
  show (arr.rimReadArray key >>= fun v =>
    inArray (if false = true then arr.set key k.default else some arr) >>= fun arr' => .ok (arr', some v)) = _
  rw [hread]
  rfl

end Witness

end RimStone
