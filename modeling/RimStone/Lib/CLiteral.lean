import Mathlib.Tactic.Ring
import RimStone.Lib.Digits

/-!
# String literals of C

The text of a literal is one piece or more, each in quotes, with blanks between them. It is read a character at a
time, in a `Mode` that says what has begun: an octal escape has up to three digits and a hexadecimal one has all the
digits that follow. A code that no byte has, a name of no character and a line that ends within quotes are not C. The
characters are those of UTF-8, and there are no trigraphs.
-/

namespace RimStone.Lib.CLiteral

def hexDigit (c : UInt8) : Option Nat :=
  if 48 ≤ c ∧ c ≤ 57 then some (c.toNat - 48)
  else if 65 ≤ c ∧ c ≤ 70 then some (c.toNat - 55)
  else if 97 ≤ c ∧ c ≤ 102 then some (c.toNat - 87)
  else none

def octDigit (c : UInt8) : Option Nat := if 48 ≤ c ∧ c ≤ 55 then some (c.toNat - 48) else none

def blank (c : UInt8) : Bool := c == 32 || (9 ≤ c && c ≤ 13)

/-- The simple escapes, by the character behind the backslash. -/
def simple (c : UInt8) : Option UInt8 :=
  [(97, 7), (98, 8), (102, 12), (110, 10), (114, 13), (116, 9), (118, 11), (92, 92), (39, 39), (34, 34), (63, 63)].lookup c

/-- A character that a literal may name: no control character and none of the basic ones but `$`, `@` and the back
quote, and no half of a surrogate pair. -/
def MayName (u : Nat) : Prop :=
  (0xA0 ≤ u ∨ u = 0x24 ∨ u = 0x40 ∨ u = 0x60) ∧ ¬ (0xD800 ≤ u ∧ u ≤ 0xDFFF) ∧ u < 0x110000

instance : DecidablePred MayName := fun u => by unfold MayName; infer_instance

def namedBytes (u : Nat) : Option (List UInt8) :=
  if MayName u then some (String.utf8EncodeChar (Char.ofNat u)) else none

/-- Where the reading is. -/
inductive Mode where
  | start
  | between
  | inside
  /-- behind a backslash -/
  | escape
  | octal (digits value : Nat)
  /-- behind `\x` -/
  | hexFirst
  | hex (value : Nat)
  /-- within `\u` or `\U`, with `left` digits to come -/
  | named (left value : Nat)
  deriving DecidableEq, Repr

def within (c : UInt8) : Option (List UInt8 × Mode) :=
  if c = 34 then some ([], .between)
  else if c = 92 then some ([], .escape)
  else if c = 10 then none
  else some ([c], .inside)

def afterCode (v : Nat) (c : UInt8) : Option (List UInt8 × Mode) :=
  if v < 256 then (within c).map fun r => (UInt8.ofNat v :: r.1, r.2) else none

/-- A character: the bytes that are known by it, and the mode behind it. -/
def step : Mode → UInt8 → Option (List UInt8 × Mode)
  | .start, c => if blank c then some ([], .start) else if c = 34 then some ([], .inside) else none
  | .between, c => if blank c then some ([], .between) else if c = 34 then some ([], .inside) else none
  | .inside, c => within c
  | .escape, c =>
    match octDigit c with
    | some d => some ([], .octal 1 d)
    | none =>
      if c = 120 then some ([], .hexFirst)
      else if c = 117 then some ([], .named 4 0)
      else if c = 85 then some ([], .named 8 0)
      else (simple c).map fun b => ([b], .inside)
  | .octal n v, c =>
    match octDigit c with
    | some d => if n < 3 then some ([], .octal (n + 1) (v * 8 + d)) else afterCode v c
    | none => afterCode v c
  | .hexFirst, c => (hexDigit c).map fun d => ([], .hex d)
  | .hex v, c =>
    match hexDigit c with
    | some d => some ([], .hex (v * 16 + d))
    | none => afterCode v c
  | .named n v, c => do
    let d ← hexDigit c
    if n ≤ 1 then (namedBytes (v * 16 + d)).map fun bs => (bs, .inside)
    else some ([], .named (n - 1) (v * 16 + d))

def run : Mode → List UInt8 → Option (List UInt8 × Mode)
  | m, [] => some ([], m)
  | m, c :: s => (step m c).bind fun r => (run r.2 s).map fun t => (r.1 ++ t.1, t.2)

/-- The bytes that are read from some place on, where the text ends a literal. -/
def ends (m : Mode) (s : List UInt8) : Option (List UInt8) :=
  (run m s).bind fun r => if r.2 = .between then some r.1 else none

/-- The bytes that the text of a literal stands for, without the null that C puts behind them. -/
def bytes (s : List UInt8) : Option (List UInt8) := ends .start s

/-! ## Reading on -/

variable {m m' : Mode} {a s out : List UInt8} {c : UInt8}

theorem run_cons (h : step m c = some (out, m')) : run m (c :: s) = (run m' s).map fun t => (out ++ t.1, t.2) := by
  rw [run, h, Option.bind_some]

theorem run_append (m : Mode) (a s : List UInt8) :
    run m (a ++ s) = (run m a).bind fun r => (run r.2 s).map fun t => (r.1 ++ t.1, t.2) := by
  induction a generalizing m with
  | nil => simp [run]
  | cons c a ih =>
    rw [List.cons_append, run, run]
    cases step m c with
    | none => rfl
    | some r =>
      rw [Option.bind_some, Option.bind_some, ih]
      cases run r.2 a with
      | none => rfl
      | some t => simp [Function.comp_def]

theorem run_append_of (h : run m a = some (out, m')) : run m (a ++ s) = (run m' s).map fun t => (out ++ t.1, t.2) := by
  rw [run_append, h, Option.bind_some]

theorem run_blanks (h : ∀ c ∈ a, blank c = true) : run .between a = some ([], .between) := by
  induction a with
  | nil => rfl
  | cons c a ih =>
    obtain ⟨hc, ha⟩ := List.forall_mem_cons.mp h
    have hstep : step .between c = some ([], .between) := by simp [step, hc]
    rw [run_cons hstep, ih ha]
    rfl

/-! ## Reading to the end -/

theorem ends_append (h : run m a = some (out, m')) (s : List UInt8) : ends m (a ++ s) = (ends m' s).map (out ++ ·) := by
  unfold ends
  rw [run_append_of h]
  cases run m' s with
  | none => rfl
  | some r =>
    simp only [Option.map_some, Option.bind_some]
    split <;> rfl

theorem ends_cons (h : step m c = some (out, m')) (s : List UInt8) : ends m (c :: s) = (ends m' s).map (out ++ ·) := by
  have hone : run m [c] = some (out, m') := by
    rw [run_cons h]
    simp [run]
  exact ends_append hone s

theorem ends_none (h : step m c = none) (s : List UInt8) : ends m (c :: s) = none := by
  rw [ends, run, h]
  rfl

theorem ends_nil (h : m ≠ .between) : ends m [] = none := by
  rw [ends, run, Option.bind_some, if_neg h]

/-- A code that is over when the next character comes, or the text: the character is read as it is within quotes. -/
theorem ends_afterCode {v : Nat} (hm : m ≠ .between) (hstep : ∀ c t, s = c :: t → step m c = afterCode v c) :
    ends m s = if v < 256 then (ends .inside s).map (UInt8.ofNat v :: ·) else none := by
  cases s with
  | nil =>
    rw [ends_nil hm, ends_nil (by simp)]
    split <;> rfl
  | cons c t =>
    unfold ends
    rw [run, run, hstep c t rfl, afterCode]
    split
    · rw [show step .inside c = within c from rfl]
      cases within c with
      | none => rfl
      | some r =>
        simp only [Option.map_some, Option.bind_some]
        cases run r.2 t with
        | none => rfl
        | some r' =>
          simp only [Option.map_some, Option.bind_some]
          split <;> rfl
    · rfl

/-- A hexadecimal escape takes all the digits there are, and is a byte if it is one. -/
theorem ends_hex {v : Nat} (h : ends (.hex v) s = some out) :
    ∃ b rest, out = b :: rest ∧ ends .inside (s.dropWhile fun c => (hexDigit c).isSome) = some rest := by
  induction s generalizing v with
  | nil => cases h
  | cons c s ih =>
    cases hc : hexDigit c with
    | some d =>
      have hstep : step (.hex v) c = some ([], .hex (v * 16 + d)) := by rw [step, hc]
      rw [ends_cons hstep] at h
      obtain ⟨out', hout, rfl⟩ := Option.map_eq_some_iff.mp h
      rw [List.dropWhile_cons_of_pos (by rw [hc]; rfl)]
      exact ih hout
    | none =>
      have hstep : step (.hex v) c = afterCode v c := by rw [step, hc]
      rw [List.dropWhile_cons_of_neg (by simp [hc])]
      rw [ends_afterCode (by simp) fun _ _ h => by cases h; exact hstep] at h
      split at h
      · obtain ⟨rest, hrest, hout⟩ := Option.map_eq_some_iff.mp h
        exact ⟨_, rest, hout.symm, hrest⟩
      · cases h

/-- A name with its digits. -/
theorem ends_named {ds : List Nat} (h : a.map hexDigit = ds.map some) {v : Nat} (hne : a ≠ []) (s : List UInt8) :
    ends (.named a.length v) (a ++ s) =
      (namedBytes (v * 16 ^ ds.length + number 16 ds)).bind fun bs => (ends .inside s).map (bs ++ ·) := by
  induction a generalizing ds v with
  | nil => exact absurd rfl hne
  | cons c a ih =>
    cases ds with
    | nil => cases h
    | cons d ds =>
      rw [List.map_cons, List.map_cons, List.cons.injEq] at h
      obtain ⟨hc, ha⟩ := h
      have hlen : a.length = ds.length := by simpa using congrArg List.length ha
      cases a with
      | nil =>
        have hds : ds = [] := List.length_eq_zero_iff.mp hlen.symm
        subst hds
        have hval : v * 16 ^ [d].length + number 16 [d] = v * 16 + d := by simp [number]
        rw [hval]
        cases hbs : namedBytes (v * 16 + d) with
        | none => exact ends_none (by simp [step, hc, hbs]) s
        | some bs => exact ends_cons (by simp [step, hc, hbs]) s
      | cons c' a =>
        have hstep : step (.named (c :: c' :: a).length v) c = some ([], .named (c' :: a).length (v * 16 + d)) := by
          simp [step, hc]
        have hval : v * 16 ^ (d :: ds).length + number 16 (d :: ds) = (v * 16 + d) * 16 ^ ds.length + number 16 ds := by
          rw [number, List.length_cons, pow_succ]
          ring
        rw [List.cons_append, ends_cons hstep, ih ha (by simp), hval]
        simp

end RimStone.Lib.CLiteral
