import RimStone.Time.Time
import RimStone.Laws.Text.WriteString

/-!
# A time is shifted exactly

Where the name of the zone has room and the sums are in the range of `int`, what is left to see is how `rim_time` ends
(`rimTime_shifts_iff`): it must have a time broken down, and the text of the shifted time must be there and have room.
A text that is empty or too long ends in an error that leaves the environment with the buffer of `rim_time`. That is
so whatever the sums are (`rimTime_own_iff`).
-/

namespace RimStone

variable {lib : TimeLib} {c : TimeCall}

namespace TimeCall

def zone (c : TimeCall) : Bytes := cstr c.timezone

/-- A text is that of the time made by adding to the fields, with nothing lost on the way. -/
def Shifted (lib : TimeLib) (c : TimeCall) (text : Bytes) : Prop :=
  ∃ tm t future, lib.localtime c.zone (c.start lib) = some tm ∧ lib.mktime c.zone (c.added tm) = some (t, future) ∧
    text = lib.strftime c.zone c.formatText future

/-- An error, or the text with its exact length; and the environment is as it was. -/
def Shifts (lib : TimeLib) (c : TimeCall) : Prop :=
  ((∃ e, (rimTime lib c).1 = .error e) ∨
    ∃ text, (rimTime lib c).1 = .ok (text ++ [0]) (text.length + 1) ∧ c.Shifted lib text) ∧
  (rimTime lib c).2 = .own

/-- What a number of the range of `int` is. -/
def InInt (n : Int) : Prop := -(2 ^ 31) ≤ n ∧ n < 2 ^ 31

structure SumsFit (c : TimeCall) (tm : Tm) : Prop where
  sec : InInt (c.added tm).sec
  min : InInt (c.added tm).min
  hour : InInt (c.added tm).hour
  mday : InInt (c.added tm).mday
  mon : InInt (c.added tm).mon
  year : InInt (c.added tm).year

/-- Nothing is cut: neither the name of the zone nor a sum. -/
structure Uncut (lib : TimeLib) (c : TimeCall) : Prop where
  zone : c.zone.length ≤ 196
  sums : ∀ tm, lib.localtime c.zone (c.start lib) = some tm → c.SumsFit tm

/-- The time can be broken down, and if `mktime` makes a time of the sums, its text is neither empty nor longer than 48
bytes. -/
def Room (lib : TimeLib) (c : TimeCall) : Prop :=
  ∃ tm, lib.localtime c.zone (c.start lib) = some tm ∧
    ∀ t future, lib.mktime c.zone (c.added tm) = some (t, future) → t ≠ -1 →
      0 < (lib.strftime c.zone c.formatText future).length ∧ (lib.strftime c.zone c.formatText future).length ≤ 48

/-! ## What is cut -/

theorem InInt.toInt32_eq {n : Int} (h : InInt n) : toInt32 n = n := RimStone.toInt32_eq h.2 h.1

theorem SumsFit.future_eq {tm : Tm} (h : c.SumsFit tm) : c.future tm = c.added tm := by
  unfold future
  rw [h.sec.toInt32_eq, h.min.toInt32_eq, h.hour.toInt32_eq, h.mday.toInt32_eq, h.mon.toInt32_eq, h.year.toInt32_eq]
  rfl

theorem setGm_drop (c : TimeCall) : c.setGm.drop 3 = c.zone.take 196 := by
  unfold setGm snprintf
  have hname : (ascii "TZ=" ++ cstr c.timezone).drop 3 = cstr c.timezone := rfl
  rw [List.drop_take, hname]
  rfl

theorem Uncut.setGm_drop (h : c.Uncut lib) : c.setGm.drop 3 = c.zone := by
  rw [c.setGm_drop, List.take_of_length_le h.zone]

end TimeCall

/-! ## How it ends -/

/-- The ends of `rim_time`, in the zone that the environment has. -/
inductive TimeEnds (lib : TimeLib) (c : TimeCall) (tz : Bytes) : TimeResult × TzSetting → Prop where
  | crash (local_ : lib.localtime tz (c.start lib) = none) : TimeEnds lib c tz (.crash, .setGm c.setGm)
  | converting (tm : Tm) (local_ : lib.localtime tz (c.start lib) = some tm)
      (fails : ∀ t future, lib.mktime tz (c.future tm) = some (t, future) → t = -1) :
      TimeEnds lib c tz (.error .converting, .own)
  | tooSmall (tm : Tm) (t : Int) (future : Tm) (local_ : lib.localtime tz (c.start lib) = some tm)
      (made : lib.mktime tz (c.future tm) = some (t, future)) (good : t ≠ -1)
      (room : ¬ (0 < (lib.strftime tz c.formatText future).length ∧ (lib.strftime tz c.formatText future).length ≤ 48)) :
      TimeEnds lib c tz (.error (.bufferTooSmall GMT_BUFFER_SIZE), .setGm c.setGm)
  | ok (tm : Tm) (t : Int) (future : Tm) (local_ : lib.localtime tz (c.start lib) = some tm)
      (made : lib.mktime tz (c.future tm) = some (t, future)) (good : t ≠ -1)
      (room : 0 < (lib.strftime tz c.formatText future).length ∧ (lib.strftime tz c.formatText future).length ≤ 48) :
      TimeEnds lib c tz (.ok (lib.strftime tz c.formatText future ++ [0])
        ((lib.strftime tz c.formatText future).length + 1), .own)

theorem strftimeLen_eq_zero (text : Bytes) :
    strftimeLen (GMT_BUFFER_SIZE - 1) text = 0 ↔ ¬ (0 < text.length ∧ text.length ≤ 48) := by
  unfold strftimeLen GMT_BUFFER_SIZE
  split <;> omega

theorem strftimeLen_eq {text : Bytes} (h : text.length ≤ 48) : strftimeLen (GMT_BUFFER_SIZE - 1) text = text.length :=
  if_pos (Nat.lt_succ_of_le h)

theorem rimTime_ends (lib : TimeLib) (c : TimeCall) : TimeEnds lib c (c.setGm.drop 3) (rimTime lib c) := by
  unfold rimTime
  dsimp only
  cases hlocal : lib.localtime (c.setGm.drop 3) (c.start lib) with
  | none => exact .crash hlocal
  | some tm =>
    dsimp only
    cases hmade : lib.mktime (c.setGm.drop 3) (c.future tm) with
    | none =>
      refine .converting tm hlocal fun t future h => ?_
      cases hmade.symm.trans h
    | some made =>
      obtain ⟨t, future⟩ := made
      dsimp only
      split
      next hbad =>
        refine .converting tm hlocal fun t' future' h => ?_
        cases hmade.symm.trans h
        exact hbad
      next hgood =>
        split
        next hzero => exact .tooSmall tm t future hlocal hmade hgood ((strftimeLen_eq_zero _).mp hzero)
        next hlen =>
          have hroom := not_not.mp (mt (strftimeLen_eq_zero _).mpr hlen)
          rw [strftimeLen_eq hroom.2]
          exact .ok tm t future hlocal hmade hgood hroom

/-- The environment is as it was just where the time was broken down in the zone there was room for, and the text of
what `mktime` made of the fields of `future`, if it made a time of them, was there and had room. -/
theorem rimTime_own_iff (lib : TimeLib) (c : TimeCall) : (rimTime lib c).2 = .own ↔
    ∃ tm, lib.localtime (c.zone.take 196) (c.start lib) = some tm ∧
      ∀ t future, lib.mktime (c.zone.take 196) (c.future tm) = some (t, future) → t ≠ -1 →
        0 < (lib.strftime (c.zone.take 196) c.formatText future).length ∧
          (lib.strftime (c.zone.take 196) c.formatText future).length ≤ 48 := by
  have hends := rimTime_ends lib c
  rw [c.setGm_drop] at hends
  generalize rimTime lib c = r at hends
  cases hends with
  | crash hlocal =>
    refine iff_of_false TzSetting.noConfusion fun h => ?_
    obtain ⟨tm, htm, -⟩ := h
    cases hlocal.symm.trans htm
  | converting tm hlocal hfails =>
    exact iff_of_true rfl ⟨tm, hlocal, fun t future hmade hgood => absurd (hfails t future hmade) hgood⟩
  | tooSmall tm t future hlocal hmade hgood hroom =>
    refine iff_of_false TzSetting.noConfusion fun h => ?_
    obtain ⟨tm', htm, hall⟩ := h
    cases hlocal.symm.trans htm
    exact hroom (hall t future hmade hgood)
  | ok tm t future hlocal hmade hgood hroom =>
    refine iff_of_true rfl ⟨tm, hlocal, fun t' future' hmade' _ => ?_⟩
    cases hmade.symm.trans hmade'
    exact hroom

/-! ## The shift -/

/-- What comes back, where nothing is cut, is the shifted time. -/
theorem rimTime_shifted (hcut : c.Uncut lib) {buffer : Bytes} {len : Nat} (hok : (rimTime lib c).1 = .ok buffer len) :
    ∃ text, buffer = text ++ [0] ∧ len = text.length + 1 ∧ c.Shifted lib text := by
  have hends := rimTime_ends lib c
  rw [hcut.setGm_drop] at hends
  generalize rimTime lib c = r at hends hok
  cases hends with
  | crash => cases hok
  | converting => cases hok
  | tooSmall => cases hok
  | ok tm t future hlocal hmade hgood hroom =>
    cases hok
    rw [(hcut.sums tm hlocal).future_eq] at hmade
    exact ⟨_, rfl, rfl, tm, t, future, hlocal, hmade, rfl⟩

/-- Where nothing is cut, the environment is as it was just where there is room. -/
theorem TimeCall.Uncut.own_iff (hcut : c.Uncut lib) : (rimTime lib c).2 = .own ↔ c.Room lib := by
  rw [rimTime_own_iff, List.take_of_length_le hcut.zone]
  refine exists_congr fun tm => and_congr_right fun hlocal => ?_
  rw [(hcut.sums tm hlocal).future_eq]

/-- Where neither the name of the zone nor a sum is cut, a time is shifted exactly or refused, and the environment left
as it was, just where the time can be broken down and the text of the shifted time, if there is one, is neither empty
nor too long. -/
theorem rimTime_shifts_iff (lib : TimeLib) (c : TimeCall) (hcut : c.Uncut lib) : c.Shifts lib ↔ c.Room lib := by
  rw [← hcut.own_iff]
  refine ⟨fun h => h.2, fun hown => ⟨?_, hown⟩⟩
  cases hresult : (rimTime lib c).1 with
  | crash =>
    have hends := rimTime_ends lib c
    generalize rimTime lib c = r at hends hown hresult
    cases hends with
    | crash => cases hown
    | converting => cases hresult
    | tooSmall => cases hresult
    | ok => cases hresult
  | error e => exact .inl ⟨e, rfl⟩
  | ok buffer len =>
    obtain ⟨text, rfl, rfl, hshifted⟩ := rimTime_shifted hcut hresult
    exact .inr ⟨text, rfl, hshifted⟩

/-! ## One second and 2^32 seconds -/

/-- The first second of 1970, which was a Thursday. -/
def firstSecond : Tm where
  sec := 1
  min := 0
  hour := 0
  mday := 1
  mon := 0
  year := 70
  isdst := 0
  wday := 4

def lateSecond : Tm where
  sec := 17
  min := 28
  hour := 6
  mday := 7
  mon := 1
  year := 206
  isdst := 0
  yday := 37

/-- What the library makes of these in GMT, and of the format `%y`. -/
def gmtLib : TimeLib where
  now := 1
  localtime := fun _ _ => some firstSecond
  mktime := fun _ tm => if tm.sec = 1 then some (1, firstSecond) else some (2 ^ 32 + 1, lateSecond)
  strftime := fun _ _ tm => if tm.year = 70 then ascii "70" else ascii "06"

theorem rimTime_shifts_second : TimeCall.Shifts gmtLib { curr := 1, format := some (ascii "%y") } := by
  refine (rimTime_shifts_iff gmtLib { curr := 1, format := some (ascii "%y") } ⟨?_, ?_⟩).mpr ?_
  · simp [TimeCall.zone, ascii, cstr]
  · intro tm htm
    cases htm
    constructor <;> constructor <;> decide
  · refine ⟨firstSecond, rfl, fun t future hmade _ => ?_⟩
    cases hmade
    simp [gmtLib, firstSecond, ascii]

/-- 2^32 seconds are no seconds: what comes back is of 1970, not of 2106. -/
theorem not_shifts_late : ¬ ∀ lib c, TimeCall.Shifts lib c := by
  intro h
  obtain ⟨herror | hok, -⟩ := h gmtLib { curr := 1, format := some (ascii "%y"), sec := 2 ^ 32 }
  · obtain ⟨e, he⟩ := herror
    cases he
  · obtain ⟨text, hresult, tm, t, future, hlocal, hmade, htext⟩ := hok
    cases hlocal
    cases hmade
    rw [htext] at hresult
    cases hresult

end RimStone
