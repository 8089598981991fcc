import Mathlib.Data.Nat.Digits.Defs
import RimStone.Client.Request
import RimStone.Laws.Memory.Chars

/-!
# Requests are encoded

`Sends x l w Q`: from the state `l` the code `x` has a result; it sends `w`, and `Q`
holds after it, or it returns early, for a reason that the socket, the memory or the
environment gives, and has sent the front of `w`. The two passes over the environment
are both described by the list of its names and values: the first adds up their sizes,
the second appends their encodings, and an encoding has the size of its pair.
-/

namespace RimStone

open RimStone.Lib

/-! ## The rules of FastCGI -/

theorem uint8_toNat_or {b : UInt8} (h : b.toNat < 128) : (b ||| 0x80).toNat = b.toNat + 128 := by
  have hor := Nat.two_pow_add_eq_or_of_lt (i := 7) h 1
  have h80 : (0x80 : UInt8).toNat = 2 ^ 7 * 1 := rfl
  rw [UInt8.toNat_or, Nat.or_comm, h80, ← hor]
  omega

namespace NameValue

open FcSend

def encode (p : Bytes × Bytes) : Bytes := (lenHdr p.1.length ++ lenHdr p.2.length) ++ p.1 ++ p.2

@[simp] theorem length_lenHdr (n : Nat) : (lenHdr n).length = if n < 128 then 1 else 4 := by
  unfold lenHdr
  split <;> rfl

theorem length_encode (p : Bytes × Bytes) : (encode p).length = size p := by
  simp only [encode, size, List.length_append, length_lenHdr]

theorem lengths_le_size (p : Bytes × Bytes) : p.1.length + p.2.length ≤ size p := by
  unfold size
  omega

theorem encode_ne_nil (p : Bytes × Bytes) : encode p ≠ [] := by
  intro h
  have hlen := length_encode p
  rw [h, List.length_nil] at hlen
  unfold size at hlen
  split at hlen <;> omega

theorem length_hdr {n : Nat} (hn : n < 2 ^ 31) (rest : Bytes) : length (lenHdr n ++ rest) = some (n, rest) := by
  unfold lenHdr
  by_cases hsmall : n < 0x80
  · have hval : (UInt8.ofNat n).toNat = n := by
      rw [UInt8.toNat_ofNat']
      omega
    rw [if_pos hsmall]
    show (if (UInt8.ofNat n).toNat < 128 then some ((UInt8.ofNat n).toNat, rest) else _) = _
    rw [hval, if_pos hsmall]
  · have hhigh : (UInt8.ofNat (n >>> 24)).toNat = n / 2 ^ 24 := by
      rw [UInt8.toNat_ofNat', Nat.shiftRight_eq_div_pow]
      omega
    have htop : (UInt8.ofNat (n >>> 24) ||| 0x80).toNat = n / 2 ^ 24 + 128 := by
      rw [uint8_toNat_or (by rw [hhigh]; omega), hhigh]
    rw [if_neg hsmall]
    show length (_ :: _ :: _ :: _ :: rest) = _
    rw [length, htop, if_neg (by omega)]
    simp only [UInt8.toNat_ofNat', Nat.shiftRight_eq_div_pow]
    congr 2
    omega

theorem decode_encode {p : Bytes × Bytes} (hn : p.1.length < 2 ^ 31) (hv : p.2.length < 2 ^ 31) (rest : Bytes) :
    decode (encode p ++ rest) = some (p, rest) := by
  have hsplit : encode p ++ rest = lenHdr p.1.length ++ (lenHdr p.2.length ++ (p.1 ++ (p.2 ++ rest))) := by
    simp only [encode, List.append_assoc]
  unfold decode
  rw [hsplit, length_hdr hn]
  show (length (lenHdr p.2.length ++ (p.1 ++ (p.2 ++ rest)))).bind _ = _
  rw [length_hdr hv, Option.bind_some]
  have hroom : p.1.length + p.2.length ≤ (p.1 ++ (p.2 ++ rest)).length := by
    simp only [List.length_append]
    omega
  show (if p.1.length + p.2.length ≤ (p.1 ++ (p.2 ++ rest)).length then _ else none) = _
  rw [if_pos hroom, List.take_left, List.drop_left, List.take_left, ← List.drop_drop, List.drop_left, List.drop_left]

end NameValue

namespace FcRecord

open FcSend

def encode (c : FcRecord) : Bytes := buildHdr c.content.length c.type ++ c.content

theorem encode_ne_nil (c : FcRecord) : encode c ≠ [] := nofun

theorem decode_encode {c : FcRecord} (hlen : c.content.length ≤ RIM_CLI_MAX_LEN) (rest : Bytes) :
    decode (encode c ++ rest) = some (c, rest) := by
  have hsplit : encode c ++ rest = buildHdr c.content.length c.type ++ (c.content ++ rest) := List.append_assoc _ _ _
  have hval : (UInt8.ofNat (c.content.length >>> 8)).toNat * 256 + (UInt8.ofNat c.content.length).toNat =
      c.content.length := by
    unfold RIM_CLI_MAX_LEN at hlen
    simp only [UInt8.toNat_ofNat', Nat.shiftRight_eq_div_pow]
    omega
  unfold decode
  rw [hsplit]
  have hhead : FcLocal.fcHeaderOf ((buildHdr c.content.length c.type ++ (c.content ++ rest)).take 8) =
      some ⟨RIM_CLI_VER_1, c.type, 0, 1, UInt8.ofNat (c.content.length >>> 8), UInt8.ofNat c.content.length, 0, 0⟩ :=
    rfl
  have hdrop : (buildHdr c.content.length c.type ++ (c.content ++ rest)).drop 8 = c.content ++ rest := rfl
  rw [hhead, hdrop]
  show (if _ ∧ _ ∧ _ ∧ _ ∧ _ ≤ _ then _ else none) = _
  have hroom : c.content.length ≤ (c.content ++ rest).length := by
    rw [List.length_append]
    omega
  rw [hval, if_pos ⟨rfl, rfl, rfl, rfl, hroom⟩, List.take_left, List.drop_left]

end FcRecord

/-! ## The payload of the URL -/

namespace FcSend

theorem questionLoop_eq (s : Bytes) (p : Nat) : questionLoop s p = p + (s.takeWhile (· ≠ 63)).length := by
  induction s generalizing p with
  | nil => rfl
  | cons c s ih =>
    rw [questionLoop]
    by_cases hc : c = 63
    · rw [if_neg (not_not.mpr hc), List.takeWhile_cons_of_neg (by simpa using hc)]
      rfl
    · rw [if_pos hc, ih, List.takeWhile_cons_of_pos (by simpa using hc), List.length_cons]
      omega

theorem payloadLoop_append (a : Bytes) {b : Bytes} (hb : 47 ∉ b) (rest : Bytes) :
    payloadLoop (a ++ (b ++ rest)) (a ++ b).length = payloadLoop (a ++ (b ++ rest)) a.length := by
  induction b using List.reverseRecOn generalizing rest with
  | nil => rw [List.append_nil]
  | append_singleton b c ih =>
    rw [List.mem_append, List.mem_singleton, not_or] at hb
    have hget : (a ++ (b ++ [c] ++ rest))[(a ++ b).length]? = some c := by
      rw [List.append_assoc b, ← List.append_assoc a]
      exact getElem?_middle _ _ _
    rw [← List.append_assoc a b, List.length_append, List.length_singleton, payloadLoop, hget,
      if_neg (fun h => hb.2 (Option.some.inj h).symm), List.append_assoc b]
    exact ih hb.1 _

/-- The loop finds where the path ends, and nothing if there is no slash. -/
theorem payloadLoop_eq (u : Bytes) : payloadLoop u u.length = (splitPayload u).1.length := by
  unfold splitPayload
  by_cases hu : 47 ∈ u
  · rw [if_pos hu]
    have hsplit : u.rdropWhile (· ≠ 47) ++ u.rtakeWhile (· ≠ 47) = u := List.rdropWhile_append_rtakeWhile
    have hlast : 47 ∉ u.rtakeWhile (· ≠ 47) := by
      intro h
      simpa using List.mem_rtakeWhile_imp h
    obtain ⟨a, ha⟩ : ∃ a, u.rdropWhile (· ≠ 47) = a ++ [47] := by
      have hne : u.rdropWhile (· ≠ 47) ≠ [] := by
        intro hnil
        rw [hnil, List.nil_append] at hsplit
        rw [hsplit] at hlast
        exact hlast hu
      have hend := List.rdropWhile_last_not _ _ hne
      refine ⟨(u.rdropWhile (· ≠ 47)).dropLast, ?_⟩
      conv_lhs => rw [← List.dropLast_append_getLast hne]
      rw [show (u.rdropWhile (· ≠ 47)).getLast hne = 47 by simpa using hend]
    show _ = (u.rdropWhile (· ≠ 47) ++ (u.rtakeWhile (· ≠ 47)).takeWhile (· ≠ 63)).length
    generalize u.rdropWhile (· ≠ 47) = d at ha hsplit
    generalize u.rtakeWhile (· ≠ 47) = last at hlast hsplit
    subst ha
    subst hsplit
    have hgo := payloadLoop_append (a ++ [47]) hlast []
    rw [List.append_nil] at hgo
    have hget : (a ++ [47] ++ last)[a.length]? = some 47 := by
      rw [List.append_assoc]
      exact getElem?_middle _ _ _
    rw [hgo, List.length_append, List.length_singleton, payloadLoop, hget, if_pos rfl, questionLoop_eq,
      List.drop_left' (by simp), List.length_append, List.length_append, List.length_singleton]
  · have hgo := payloadLoop_append [] hu []
    rw [List.append_nil, List.nil_append] at hgo
    rw [if_neg hu, hgo]
    rfl

theorem splitPayload_path (u : Bytes) : (splitPayload u).1 <+: u := by
  unfold splitPayload
  split
  · have hsplit : u.rdropWhile (· ≠ 47) ++ u.rtakeWhile (· ≠ 47) = u := List.rdropWhile_append_rtakeWhile
    have hfront := (List.prefix_append_right_inj (u.rdropWhile (· ≠ 47))).mpr
      (List.takeWhile_prefix (l := u.rtakeWhile (· ≠ 47)) (· ≠ 63))
    rw [hsplit] at hfront
    exact hfront
  · exact List.nil_prefix

/-- Where there is a path, the query begins behind the question mark. -/
theorem splitPayload_query {u : Bytes} (hpath : 0 < (splitPayload u).1.length) :
    (splitPayload u).2 = u.drop ((splitPayload u).1.length + 1) := by
  unfold splitPayload at hpath ⊢
  by_cases hu : 47 ∈ u
  · have hsplit : u.rdropWhile (· ≠ 47) ++ u.rtakeWhile (· ≠ 47) = u := List.rdropWhile_append_rtakeWhile
    rw [if_pos hu]
    show ((u.rtakeWhile (· ≠ 47)).dropWhile (· ≠ 63)).drop 1 =
      u.drop ((u.rdropWhile (· ≠ 47) ++ (u.rtakeWhile (· ≠ 47)).takeWhile (· ≠ 63)).length + 1)
    generalize u.rdropWhile (· ≠ 47) = d at hsplit
    generalize u.rtakeWhile (· ≠ 47) = last at hsplit
    subst hsplit
    have hlast : last.takeWhile (· ≠ 63) ++ last.dropWhile (· ≠ 63) = last := List.takeWhile_append_dropWhile
    generalize last.takeWhile (· ≠ 63) = a at hlast
    generalize last.dropWhile (· ≠ 63) = b at hlast
    subst hlast
    rw [← List.drop_drop, ← List.append_assoc, List.drop_left]
  · rw [if_neg hu] at hpath
    cases hpath

/-- Where there is no path, it is all query. -/
theorem splitPayload_noPath {u : Bytes} (hpath : (splitPayload u).1.length = 0) : (splitPayload u).2 = u := by
  unfold splitPayload at hpath ⊢
  by_cases hu : 47 ∈ u
  · rw [if_pos hu, List.length_append] at hpath
    have hnil : u.rdropWhile (· ≠ 47) = [] := List.eq_nil_of_length_eq_zero (by omega)
    have hall := List.rdropWhile_eq_nil_iff.mp hnil 47 hu
    simp at hall
  · rw [if_neg hu]

/-! ## Code that sends -/

section

variable (mem : Nat → Bool) (r : RimCli) (sock : List Taken)

/-- The reasons to return early: the socket failed, there is no memory, or `env` has a
name without a value. -/
def Excused : CliReturn → Prop
  | .errSockWrite => Taken.failed ∈ sock
  | .errOutMem => ∃ n, mem n = false
  | .errEnvOdd => (r.env.getD []).length % 2 = 1
  | .errEnvTooLong => False

/-- From `l` the code sends `w` and comes to a state and a result with `Q`, or it returns
early, excused, after the front of `w`. -/
def Sends {α : Type} (x : CliM α) (l : FcSend) (w : Bytes) (Q : α → FcSend → Prop) : Prop :=
  l.sock <:+ sock → ∃ res l', x l = some (res, l') ∧ l'.sock <:+ sock ∧
    match res with
    | .ok a => l'.sent = l.sent ++ w ∧ Q a l'
    | .error e => l'.sent <+: l.sent ++ w ∧ Excused mem r sock e

variable {mem r sock} {α β : Type} {x : CliM α} {f : α → CliM β} {l l₁ : FcSend} {w w₁ w₂ : Bytes} {a : α}
  {Q : α → FcSend → Prop} {Q' : β → FcSend → Prop} {cond : Bool} {e : CliReturn} {g : Unit → CliM β}

theorem bind_ok (hx : x l = some (.ok a, l₁)) : (x >>= f) l = f a l₁ := by
  show Option.bind (x l) _ = _
  rw [hx]
  rfl

theorem bind_error (hx : x l = some (.error e, l₁)) : (x >>= f) l = some (.error e, l₁) := by
  show Option.bind (x l) _ = _
  rw [hx]
  rfl

theorem Sends.pure (h : Q a l) : Sends mem r sock (Pure.pure a) l [] Q := by
  intro hsock
  refine ⟨.ok a, l, rfl, hsock, ?_⟩
  exact ⟨(List.append_nil _).symm, h⟩

theorem Sends.bind (h : Sends mem r sock x l w₁ Q)
    (hnext : ∀ a l', Q a l' → Sends mem r sock (f a) l' w₂ Q') : Sends mem r sock (x >>= f) l (w₁ ++ w₂) Q' := by
  intro hsock
  obtain ⟨res, l', hx, hsock', hres⟩ := h hsock
  cases res with
  | ok a =>
    obtain ⟨hsent, hQ⟩ := hres
    obtain ⟨res', l'', hf, hsock'', hres'⟩ := hnext a l' hQ hsock'
    rw [hsent, List.append_assoc] at hres'
    exact ⟨res', l'', (bind_ok hx).trans hf, hsock'', hres'⟩
  | error e =>
    obtain ⟨hpre, hexc⟩ := hres
    refine ⟨.error e, l', bind_error hx, hsock', ?_, hexc⟩
    rw [← List.append_assoc]
    exact hpre.trans (List.prefix_append _ _)

theorem Sends.imp {Q₁ : α → FcSend → Prop} (h : Sends mem r sock x l w Q) (himp : ∀ a l', Q a l' → Q₁ a l') :
    Sends mem r sock x l w Q₁ := by
  intro hsock
  obtain ⟨res, l', hx, hsock', hres⟩ := h hsock
  refine ⟨res, l', hx, hsock', ?_⟩
  cases res with
  | ok a => exact ⟨hres.1, himp a l' hres.2⟩
  | error e => exact hres

theorem Sends.quiet (h : Sends mem r sock x l [] Q)
    (hnext : ∀ a l', Q a l' → Sends mem r sock (f a) l' w Q') : Sends mem r sock (x >>= f) l w Q' := by
  have hbind := h.bind hnext
  rw [List.nil_append] at hbind
  exact hbind

/-- A step that sends nothing and has one outcome. -/
theorem Sends.step (hx : x l = some (.ok a, l₁)) (hsame : l₁.sock = l.sock ∧ l₁.sent = l.sent)
    (hnext : Sends mem r sock (f a) l₁ w Q') : Sends mem r sock (x >>= f) l w Q' := by
  intro hsock
  rw [bind_ok hx, ← hsame.2]
  apply hnext
  rw [hsame.1]
  exact hsock

theorem Sends.retIf (h : cond = true → Excused mem r sock e) (hnext : cond = false → Sends mem r sock (g ()) l w Q') :
    Sends mem r sock (FcSend.retIf cond e >>= g) l w Q' := by
  cases cond with
  | true =>
    intro hsock
    exact ⟨.error e, l, rfl, hsock, List.prefix_append _ _, h rfl⟩
  | false => exact Sends.step rfl ⟨rfl, rfl⟩ (hnext rfl)

theorem Sends.write (buf : Bytes) (l : FcSend) :
    Sends mem r sock (rimWriteSocket buf) l buf fun _ l' => ∃ s t, l' = { l with sock := s, sent := t } := by
  intro hsock
  obtain ⟨hsuf, hpre, hall, hfail⟩ := Taken.write_spec buf l.sock
  have hrun : rimWriteSocket buf l =
      some (if (Taken.write buf l.sock).2.2 then .ok () else .error .errSockWrite,
        { l with sock := (Taken.write buf l.sock).1, sent := l.sent ++ (Taken.write buf l.sock).2.1 }) := by
    show (FcSend.retIf (!(Taken.write buf l.sock).2.2) .errSockWrite : CliM Unit) _ = _
    cases (Taken.write buf l.sock).2.2 <;> rfl
  refine ⟨_, _, hrun, hsuf.trans hsock, ?_⟩
  cases hb : (Taken.write buf l.sock).2.2 with
  | true =>
    refine ⟨?_, _, _, rfl⟩
    show l.sent ++ _ = _
    rw [hall hb]
  | false =>
    refine ⟨?_, ?_⟩
    · exact (List.prefix_append_right_inj _).mpr hpre
    · exact hsock.subset (hfail hb)

end

/-! ## The two passes over the environment -/

section

variable {l : FcSend} {out free : Bytes} {p : Bytes × Bytes}

theorem addInt_eq {a b : Nat} (h : a + b < 2 ^ 31) : FcLocal.addInt a b = some (a + b) := if_pos h

theorem strlen_eq {s : Bytes} (h : s.length < 2 ^ 31) : strlen s l = some (.ok s.length, l) := by
  unfold strlen defined
  rw [addInt_eq (by omega), Nat.zero_add]
  rfl

theorem defined_eq {α : Type} {x : Option α} {a : α} (h : x = some a) : defined x l = some (.ok a, l) := by
  unfold defined
  rw [h]
  rfl

theorem readString_eq (s : Bytes) : readString s s.length = some s := by
  unfold readString
  rw [if_pos (Nat.le_succ _), List.take_left]

def sized (l : FcSend) (k : Nat) : FcSend := { l with paramLen := k }

/-- The size of a name and a value is added. -/
theorem rimSizeEnv_eq {k : Nat} (h : k + NameValue.size p < 2 ^ 31) :
    rimSizeEnv p.1.length p.2.length (l.sized k) = some (.ok (), l.sized (k + NameValue.size p)) := by
  unfold NameValue.size at h ⊢
  unfold rimSizeEnv
  refine (bind_ok (a := l.sized k) rfl).trans ?_
  rw [show (l.sized k).paramLen = k from rfl]
  refine (bind_ok (defined_eq (addInt_eq (by omega)))).trans ?_
  refine (bind_ok (defined_eq (addInt_eq (by omega)))).trans ?_
  refine (bind_ok (defined_eq (addInt_eq (by omega)))).trans ?_
  refine (bind_ok (defined_eq (addInt_eq (by omega)))).trans ?_
  simp only [Nat.add_assoc]
  rfl

/-- What was written to the environment's block, and what follows it there. -/
def wrote (l : FcSend) (out free : Bytes) : FcSend := { l with env := out ++ free, envP := out.length }

theorem copyEnv_eq {src : Bytes} (hroom : src.length ≤ free.length) (hint : out.length + free.length < 2 ^ 31) :
    copyEnv src (l.wrote out free) = some (.ok (), l.wrote (out ++ src) (free.drop src.length)) := by
  unfold copyEnv
  refine (bind_ok (a := l.wrote out free) rfl).trans ?_
  refine (bind_ok (defined_eq (memcpy_append out hroom))).trans ?_
  refine (bind_ok (defined_eq (addInt_eq ?_))).trans ?_
  · show out.length + src.length < 2 ^ 31
    omega
  · show some _ = some _
    unfold wrote
    rw [List.length_append]

theorem rimSendEnv_eq (hroom : NameValue.size p ≤ free.length) (hint : out.length + free.length < 2 ^ 31) :
    rimSendEnv p.1 p.1.length p.2 p.2.length (l.wrote out free) =
      some (.ok (), l.wrote (out ++ NameValue.encode p) (free.drop (NameValue.size p))) := by
  have hlen := NameValue.length_encode p
  unfold NameValue.encode at hlen ⊢
  unfold rimSendEnv
  generalize lenHdr p.1.length ++ lenHdr p.2.length = hdr at hlen ⊢
  rw [List.length_append, List.length_append] at hlen
  refine (bind_ok (copyEnv_eq (by omega) hint)).trans ?_
  refine (bind_ok (defined_eq (readString_eq _))).trans ?_
  refine (bind_ok (copyEnv_eq ?_ ?_)).trans ?_
  · rw [List.length_drop]
    omega
  · rw [List.length_drop, List.length_append]
    omega
  refine (bind_ok (defined_eq (readString_eq _))).trans ?_
  rw [copyEnv_eq]
  · rw [List.drop_drop, List.drop_drop, ← hlen, List.append_assoc, List.append_assoc, ← List.append_assoc hdr,
      Nat.add_assoc]
  · simp only [List.length_drop]
    omega
  · simp only [List.length_drop, List.length_append]
    omega

/-- What the first pass over `env` does. -/
theorem sizeEnvLoop_eq {env : List CString} {k : Nat}
    (h : k + ((RimCli.envPairs env).map NameValue.size).sum < 2 ^ 31) :
    sizeEnvLoop env (l.sized k) = some (.ok (),
      ({ l with
        envNlen := l.envNlen ++ (RimCli.envPairs env).map (·.1.length)
        envVlen := l.envVlen ++ (RimCli.envPairs env).map (·.2.length) } : FcSend).sized
        (k + ((RimCli.envPairs env).map NameValue.size).sum)) := by
  induction env using RimCli.envPairs.induct generalizing l k with
  | case1 n v env ih =>
    rw [RimCli.envPairs, List.map_cons, List.sum_cons] at h
    have hsize : n.bytes.length + v.bytes.length ≤ NameValue.size (n.bytes, v.bytes) :=
      NameValue.lengths_le_size (n.bytes, v.bytes)
    rw [sizeEnvLoop]
    refine (bind_ok (strlen_eq (by omega))).trans ?_
    refine (bind_ok (strlen_eq (by omega))).trans ?_
    refine (bind_ok (a := ()) rfl).trans ?_
    refine (bind_ok (rimSizeEnv_eq (l := { l with
      envNlen := l.envNlen ++ [n.bytes.length], envVlen := l.envVlen ++ [v.bytes.length] })
      (p := (n.bytes, v.bytes)) (k := k) (by omega))).trans ?_
    rw [ih (k := k + NameValue.size (n.bytes, v.bytes)) (by omega)]
    simp only [RimCli.envPairs, List.map_cons, List.sum_cons, List.append_assoc, List.singleton_append, Nat.add_assoc]
  | case2 env hnot =>
    have hnil : RimCli.envPairs env = [] := by
      rw [RimCli.envPairs]
      exact hnot
    rw [hnil, sizeEnvLoop]
    · simp only [List.map_nil, List.append_nil, List.sum_nil, Nat.add_zero]
      rfl
    · exact hnot

/-- What the second pass over `env` does, with the lengths that the first one kept. -/
theorem sendEnvLoop_eq {env : List CString} (ns vs : List Nat) (out : Bytes) {free : Bytes}
    (hn : l.envNlen = ns ++ (RimCli.envPairs env).map (·.1.length))
    (hv : l.envVlen = vs ++ (RimCli.envPairs env).map (·.2.length)) (hlen : vs.length = ns.length)
    (hroom : ((RimCli.envPairs env).map NameValue.size).sum ≤ free.length)
    (hint : out.length + free.length < 2 ^ 31) :
    sendEnvLoop ns.length env (l.wrote out free) = some (.ok (),
      l.wrote (out ++ (RimCli.envPairs env).flatMap NameValue.encode)
        (free.drop ((RimCli.envPairs env).map NameValue.size).sum)) := by
  induction env using RimCli.envPairs.induct generalizing ns vs out free with
  | case1 n v env ih =>
    rw [RimCli.envPairs, List.map_cons] at hn hv
    rw [RimCli.envPairs, List.map_cons, List.sum_cons] at hroom
    have hgetn : (l.wrote out free).envNlen[ns.length]? = some n.bytes.length := by
      show l.envNlen[ns.length]? = _
      rw [hn, List.getElem?_append_right (Nat.le_refl _), Nat.sub_self, List.getElem?_cons_zero]
    have hgetv : (l.wrote out free).envVlen[ns.length]? = some v.bytes.length := by
      show l.envVlen[ns.length]? = _
      rw [hv, ← hlen, List.getElem?_append_right (Nat.le_refl _), Nat.sub_self, List.getElem?_cons_zero]
    have hsize := NameValue.length_encode (n.bytes, v.bytes)
    rw [sendEnvLoop]
    refine (bind_ok (a := l.wrote out free) rfl).trans ?_
    refine (bind_ok (defined_eq hgetn)).trans ?_
    refine (bind_ok (defined_eq hgetv)).trans ?_
    refine (bind_ok (rimSendEnv_eq (p := (n.bytes, v.bytes)) (by omega) hint)).trans ?_
    have hgo := @ih (ns ++ [n.bytes.length]) (vs ++ [v.bytes.length]) (out ++ NameValue.encode (n.bytes, v.bytes))
      (free.drop (NameValue.size (n.bytes, v.bytes))) (by rw [hn, List.append_assoc, List.singleton_append]) (by rw [hv, List.append_assoc, List.singleton_append])
      (by rw [List.length_append, List.length_append, hlen]; rfl) (by rw [List.length_drop]; omega)
      (by rw [List.length_append, List.length_drop]; omega)
    rw [List.length_append] at hgo
    refine hgo.trans ?_
    rw [List.drop_drop]
    simp only [RimCli.envPairs, List.map_cons, List.sum_cons, List.flatMap_cons, List.append_assoc]
  | case2 env hnot =>
    have hnil : RimCli.envPairs env = [] := by
      rw [RimCli.envPairs]
      exact hnot
    rw [hnil, sendEnvLoop]
    · simp only [List.flatMap_nil, List.append_nil, List.map_nil, List.sum_nil, List.drop_zero]
      rfl
    · exact hnot

end

/-! ## The payload and the body -/

section

variable {mem : Nat → Bool} {r : RimCli} {sock : List Taken} {l : FcSend}

/-- What `parse_payload` answers, where there is a payload. -/
theorem parsePayload_eq (mem : Nat → Bool) {u : Bytes} (hq : l.queryString = some u) (hu : u ≠ []) (k n : Nat) :
    parsePayload mem k n l =
      if u.length < 2 ^ 31 then
        if (splitPayload u).1 = [] then some (.ok (u.length, n), l)
        else if mem ((splitPayload u).2.length + 1) = false then some (.error .errOutMem, l)
        else if n + (splitPayload u).1.length < 2 ^ 31 then
          if mem (n + (splitPayload u).1.length + 1) = false then some (.error .errOutMem, l)
          else some (.ok ((splitPayload u).2.length, n + (splitPayload u).1.length),
            { l with queryString := some (splitPayload u).2, pathInfo := l.pathInfo.take n ++ (splitPayload u).1 })
        else none
      else none := by
  obtain ⟨c, v, rfl⟩ := List.exists_cons_of_ne_nil hu
  have hget : (get : CliM FcSend) l = some (.ok l, l) := rfl
  unfold parsePayload
  rw [bind_ok hget, hq]
  show (strlen (c :: v) >>= _) l = _
  generalize c :: v = u at *
  by_cases hlen : u.length < 2 ^ 31
  · rw [bind_ok (strlen_eq hlen), if_pos hlen, payloadLoop_eq]
    by_cases hpath : (splitPayload u).1 = []
    · rw [if_pos hpath, hpath]
      rfl
    · have hpos : 0 < (splitPayload u).1.length := List.length_pos_iff.mpr hpath
      have hrest := splitPayload_query hpos
      have hcount := congrArg List.length hrest
      rw [List.length_drop] at hcount
      have htake : u.take (splitPayload u).1.length = (splitPayload u).1 :=
        (List.prefix_iff_eq_take.mp (splitPayload_path u)).symm
      have hquery : (if (splitPayload u).1.length < u.length then u.drop ((splitPayload u).1.length + 1) else []) =
          (splitPayload u).2 := by
        rw [hrest]
        split
        · rfl
        · rw [List.drop_of_length_le (by omega)]
      have hcount : (if (splitPayload u).1.length < u.length then u.length - ((splitPayload u).1.length + 1) else 0) =
          (splitPayload u).2.length := by
        split <;> omega
      rw [if_pos hpos, hquery, hcount, if_neg hpath, htake]
      cases hmem : mem ((splitPayload u).2.length + 1) with
      | false => rfl
      | true =>
        rw [if_neg (by decide)]
        by_cases hsum : n + (splitPayload u).1.length < 2 ^ 31
        · rw [if_pos hsum]
          have hret : (retIf (!true) .errOutMem : CliM Unit) l = some (.ok (), l) := rfl
          rw [bind_ok hret, bind_ok (defined_eq (addInt_eq hsum))]
          cases mem (n + (splitPayload u).1.length + 1) <;> rfl
        · have hret : (retIf (!true) .errOutMem : CliM Unit) l = some (.ok (), l) := rfl
          have hnone : FcLocal.addInt n (splitPayload u).1.length = none := if_neg hsum
          rw [if_neg hsum, bind_ok hret, hnone]
          rfl
  · have hnone : FcLocal.addInt 0 u.length = none := if_neg (by omega)
    rw [if_neg hlen, strlen, hnone]
    rfl
/-- `parse_payload` splits the payload as `splitPayload` does. -/
theorem parsePayload_sends (hquery : l.queryString = r.urlParams.map (·.bytes)) (hreq : l.pathInfo = r.req.bytes)
    (hsize : r.req.bytes.length + r.payload.1.length + r.payload.2.length + 1 < 2 ^ 31) :
    Sends mem r sock (parsePayload mem 0 r.req.bytes.length) l [] fun a l' =>
      ∃ q, l' = { l with queryString := q, pathInfo := r.req.bytes ++ r.payload.1 } ∧ q.getD [] = r.payload.2 ∧
        a = (r.payload.2.length, (r.req.bytes ++ r.payload.1).length) := by
  have hpayload : r.payload = splitPayload (l.queryString.getD []) := by rw [hquery]; rfl
  by_cases hnil : l.queryString.getD [] = []
  · have hempty : r.payload = ([], []) := by
      rw [hpayload, hnil]
      rfl
    have hrun : parsePayload mem 0 r.req.bytes.length l = some (.ok (0, r.req.bytes.length), l) := by
      have hget : (get : CliM FcSend) l = some (.ok l, l) := rfl
      unfold parsePayload
      rw [bind_ok hget]
      match hq : l.queryString with
      | none => rfl
      | some [] => rfl
      | some (c :: u) =>
        rw [hq] at hnil
        cases hnil
    intro hsock
    refine ⟨_, _, hrun, hsock, (List.append_nil _).symm, l.queryString, ?_, ?_, ?_⟩
    · rw [hempty, List.append_nil, ← hreq]
    · rw [hempty, hnil]
    · rw [hempty, List.append_nil]
      rfl
  obtain ⟨u, hq⟩ : ∃ u, l.queryString = some u := by
    cases hq : l.queryString with
    | none =>
      rw [hq] at hnil
      exact absurd rfl hnil
    | some u => exact ⟨u, rfl⟩
  rw [hq, Option.getD_some] at hpayload hnil
  rw [hpayload] at hsize ⊢
  have hu : u.length < 2 ^ 31 := by
    by_cases hpath : (splitPayload u).1.length = 0
    · have hall := splitPayload_noPath hpath
      rw [hall] at hsize
      omega
    · have hlen := congrArg List.length (splitPayload_query (Nat.pos_of_ne_zero hpath))
      rw [List.length_drop] at hlen
      omega
  intro hsock
  have hrun := parsePayload_eq mem hq hnil 0 r.req.bytes.length
  rw [if_pos hu] at hrun
  by_cases hpath : (splitPayload u).1 = []
  · rw [if_pos hpath] at hrun
    have hall := splitPayload_noPath (List.length_eq_zero_iff.mpr hpath)
    refine ⟨_, _, hrun, hsock, (List.append_nil _).symm, some u, ?_, ?_, ?_⟩
    · rw [hpath, List.append_nil, ← hreq, ← hq]
    · rw [hall, Option.getD_some]
    · rw [hall, hpath, List.append_nil]
  rw [if_neg hpath] at hrun
  by_cases hmem : mem ((splitPayload u).2.length + 1) = false
  · rw [if_pos hmem] at hrun
    exact ⟨_, _, hrun, hsock, List.prefix_append _ _, _, hmem⟩
  rw [if_neg hmem, if_pos (by omega)] at hrun
  by_cases hmem : mem (r.req.bytes.length + (splitPayload u).1.length + 1) = false
  · rw [if_pos hmem] at hrun
    exact ⟨_, _, hrun, hsock, List.prefix_append _ _, _, hmem⟩
  rw [if_neg hmem] at hrun
  refine ⟨_, _, hrun, hsock, (List.append_nil _).symm, some (splitPayload u).2, ?_, rfl, ?_⟩
  · rw [hreq, List.take_length]
  · rw [List.length_append]

/-- The body goes out in pieces, each with its header. -/
theorem stdinLoop_sends {fuel : Nat} {body : Bytes} (hfuel : body.length ≤ fuel) :
    Sends mem r sock (stdinLoop fuel body body.length) l
      ((pieces (RIM_CLI_MAX_LEN - 8) fuel body).flatMap fun p => FcRecord.encode ⟨RIM_CLI_STDIN, p⟩)
      fun _ l' => ∃ s t, l' = { l with sock := s, sent := t } := by
  induction fuel generalizing body l with
  | zero =>
    have hnil : body = [] := List.eq_nil_of_length_eq_zero (by omega)
    subst hnil
    exact Sends.pure ⟨_, _, rfl⟩
  | succ fuel ih =>
    cases body with
    | nil => exact Sends.pure ⟨_, _, rfl⟩
    | cons c body =>
      have hlen : (c :: body).length > 0 := Nat.succ_pos _
      have hcurr : (if (c :: body).length > RIM_CLI_MAX_LEN - 8 then RIM_CLI_MAX_LEN - 8 else (c :: body).length) =
          min (RIM_CLI_MAX_LEN - 8) (c :: body).length := by
        split <;> omega
      have htake : (c :: body).take (min (RIM_CLI_MAX_LEN - 8) (c :: body).length) =
          (c :: body).take (RIM_CLI_MAX_LEN - 8) := List.take_eq_take_min.symm
      have hdrop : (c :: body).drop (min (RIM_CLI_MAX_LEN - 8) (c :: body).length) =
          (c :: body).drop (RIM_CLI_MAX_LEN - 8) := by
        rw [List.drop_eq_drop_iff]
        omega
      have hrest : (c :: body).length - min (RIM_CLI_MAX_LEN - 8) (c :: body).length =
          ((c :: body).drop (RIM_CLI_MAX_LEN - 8)).length := by
        rw [List.length_drop]
        omega
      have hleft : ((c :: body).drop (RIM_CLI_MAX_LEN - 8)).length ≤ fuel := by
        rw [List.length_drop, List.length_cons, RIM_CLI_MAX_LEN]
        rw [List.length_cons] at hfuel
        omega
      rw [stdinLoop, if_pos hlen, hcurr, pieces, List.flatMap_cons, FcRecord.encode, List.append_assoc,
        List.length_take]
      apply Sends.bind (Sends.write _ l)
      rintro _ _ ⟨s, t, rfl⟩
      refine Sends.step (defined_eq (if_pos (Nat.min_le_right _ _))) ⟨rfl, rfl⟩ ?_
      rw [htake, hdrop, hrest]
      apply Sends.bind (Sends.write _ _)
      rintro _ _ ⟨s', t', rfl⟩
      exact ih hleft

/-! ## A whole request -/

def sizes (ps : List (Bytes × Bytes)) : Nat := (ps.map NameValue.size).sum

@[simp] theorem sizes_nil : sizes [] = 0 := rfl

@[simp] theorem sizes_cons (p : Bytes × Bytes) (ps : List (Bytes × Bytes)) :
    sizes (p :: ps) = NameValue.size p + sizes ps := by rw [sizes, List.map_cons, List.sum_cons, sizes]

@[simp] theorem sizes_append (ps qs : List (Bytes × Bytes)) : sizes (ps ++ qs) = sizes ps + sizes qs := by
  rw [sizes, List.map_append, List.sum_append, sizes, sizes]

theorem length_flatMap_encode (ps : List (Bytes × Bytes)) : (ps.flatMap NameValue.encode).length = sizes ps := by
  induction ps with
  | nil => rfl
  | cons p ps ih => rw [List.flatMap_cons, List.length_append, NameValue.length_encode, ih, sizes_cons]

theorem contentLength_eq (r : RimCli) : contentLength r = ascii (Nat.repr r.contentLen) := by
  have hlen : (Nat.repr r.contentLen).length ≤ 10 :=
    Nat.repr_length _ _ (by decide) (Nat.lt_of_lt_of_le r.contentLen_lt (by decide))
  unfold contentLength ascii
  rw [List.take_of_length_le]
  rw [List.length_map, String.length_toList]
  omega

theorem sizeQuery_eq {k : Nat} {has : Bool} (hhas : has = decide (r.payload.2 ≠ []))
    (h : k + sizes r.queryPairs < 2 ^ 31) :
    sizeQuery has r.payload.2.length (l.sized k) = some (.ok (), l.sized (k + sizes r.queryPairs)) := by
  unfold RimCli.queryPairs at h ⊢
  by_cases hq : r.payload.2 = []
  · rw [if_pos hq, hhas, decide_eq_false (not_not.mpr hq)]
    rfl
  · rw [if_neg hq] at h ⊢
    rw [hhas, decide_eq_true hq]
    simp only [sizes_cons, sizes_nil, Nat.add_zero] at h ⊢
    exact rimSizeEnv_eq (p := (ascii "QUERY_STRING", r.payload.2)) h

theorem sendQuery_eq {out free : Bytes} {has : Bool} (hhas : has = decide (r.payload.2 ≠ []))
    (hroom : sizes r.queryPairs ≤ free.length) (hint : out.length + free.length < 2 ^ 31) :
    sendQuery has r.payload.2 r.payload.2.length (l.wrote out free) = some (.ok (),
      l.wrote (out ++ r.queryPairs.flatMap NameValue.encode) (free.drop (sizes r.queryPairs))) := by
  unfold RimCli.queryPairs at hroom ⊢
  by_cases hq : r.payload.2 = []
  · rw [if_pos hq, hhas, decide_eq_false (not_not.mpr hq), List.flatMap_nil, List.append_nil]
    rfl
  · rw [if_neg hq] at hroom ⊢
    rw [hhas, decide_eq_true hq]
    simp only [sizes_cons, sizes_nil, Nat.add_zero, List.flatMap_cons, List.flatMap_nil, List.append_nil] at hroom ⊢
    exact rimSendEnv_eq (p := (ascii "QUERY_STRING", r.payload.2)) hroom hint

def typeLen (r : RimCli) : Nat := ((bodyOf r).map (·.2.length)).getD 0

theorem contentTypeL_eq (h : sizes r.bodyPairs < 2 ^ 31) : contentTypeL (bodyOf r) l = some (.ok (typeLen r), l) := by
  unfold RimCli.bodyPairs at h
  unfold typeLen
  cases hbody : bodyOf r with
  | none => rfl
  | some b =>
    rw [hbody] at h
    simp only [sizes_cons, sizes_nil] at h
    have hsize : (ascii "CONTENT_TYPE").length + b.2.length ≤ NameValue.size (ascii "CONTENT_TYPE", b.2) :=
      NameValue.lengths_le_size (ascii "CONTENT_TYPE", b.2)
    exact strlen_eq (by omega)

theorem sizeBody_eq {k : Nat} (h : k + sizes r.bodyPairs < 2 ^ 31) :
    sizeBody (bodyOf r) (contentLength r).length (typeLen r) (l.sized k) =
      some (.ok (), l.sized (k + sizes r.bodyPairs)) := by
  unfold RimCli.bodyPairs at h ⊢
  unfold typeLen
  cases hbody : bodyOf r with
  | none => rfl
  | some b =>
    rw [hbody] at h
    simp only [sizes_cons, sizes_nil, Nat.add_zero] at h ⊢
    rw [contentLength_eq]
    refine (bind_ok (rimSizeEnv_eq (p := (ascii "CONTENT_LENGTH", ascii (Nat.repr r.contentLen)))
      (k := k) (by omega))).trans ?_
    rw [← Nat.add_assoc]
    exact rimSizeEnv_eq (p := (ascii "CONTENT_TYPE", b.2)) (by omega)

theorem sendBody_eq {out free : Bytes} (hroom : sizes r.bodyPairs ≤ free.length)
    (hint : out.length + free.length < 2 ^ 31) :
    sendBody (bodyOf r) (contentLength r) (typeLen r) (l.wrote out free) = some (.ok (),
      l.wrote (out ++ r.bodyPairs.flatMap NameValue.encode) (free.drop (sizes r.bodyPairs))) := by
  unfold RimCli.bodyPairs at hroom ⊢
  unfold typeLen
  cases hbody : bodyOf r with
  | none =>
    rw [List.flatMap_nil, List.append_nil]
    rfl
  | some b =>
    rw [hbody] at hroom
    simp only [sizes_cons, sizes_nil, Nat.add_zero, List.flatMap_cons, List.flatMap_nil, List.append_nil] at hroom ⊢
    rw [contentLength_eq]
    refine (bind_ok (rimSendEnv_eq (p := (ascii "CONTENT_LENGTH", ascii (Nat.repr r.contentLen)))
      (by omega) hint)).trans ?_
    rw [← List.append_assoc, ← List.drop_drop]
    apply rimSendEnv_eq (p := (ascii "CONTENT_TYPE", b.2))
    · rw [List.length_drop]
      omega
    · rw [List.length_append, List.length_drop, NameValue.length_encode]
      omega

/-- The first pass over `env`, which may find a name without a value. -/
theorem sizeEnv_sends {k : Nat} (h : k + sizes (RimCli.envPairs (r.env.getD [])) < 2 ^ 31)
    (hn : l.envNlen = []) (hv : l.envVlen = []) :
    Sends mem r sock (sizeEnv mem r.env) (l.sized k) [] fun _ l' =>
      l' = ({ l with
        envNlen := (RimCli.envPairs (r.env.getD [])).map (·.1.length)
        envVlen := (RimCli.envPairs (r.env.getD [])).map (·.2.length) } : FcSend).sized
        (k + sizes (RimCli.envPairs (r.env.getD []))) := by
  unfold sizeEnv
  cases henv : r.env with
  | none =>
    apply Sends.pure
    cases l
    simp only at hn hv
    subst hn hv
    rfl
  | some env =>
    rw [henv, Option.getD_some] at h
    refine Sends.retIf (fun hodd => ?_) fun _ => Sends.retIf (fun hmem => ⟨_, by simpa using hmem⟩) fun _ => ?_
    · show (r.env.getD []).length % 2 = 1
      have hne : env.length % 2 ≠ 0 := by simpa using hodd
      rw [henv, Option.getD_some]
      omega
    · have hloop := sizeEnvLoop_eq (l := l) (k := k) h
      rw [hn, hv, List.nil_append, List.nil_append] at hloop
      intro hsock
      refine ⟨_, _, hloop, hsock, ?_, rfl⟩
      rw [List.append_nil]
      rfl

/-- The environment goes out as one record and an empty one. Its block is full. -/
theorem sendParams_sends (garbage : Nat → UInt8) (hsize : r.envSize < RIM_CLI_MAX_LEN - 8) (hstart : l.paramLen = 0)
    (hn : l.envNlen = []) (hv : l.envVlen = []) :
    Sends mem r sock (sendParams mem garbage r) l
      (FcRecord.encode ⟨RIM_CLI_PARAM, r.pairs.flatMap NameValue.encode⟩ ++ FcRecord.encode ⟨RIM_CLI_PARAM, []⟩)
      fun _ l' => l'.env = r.pairs.flatMap NameValue.encode ∧ l'.envP = l'.env.length ∧ l'.paramLen = l'.env.length := by
  have hlimit : RIM_CLI_MAX_LEN = 65535 := rfl
  have hsizes : r.envSize = NameValue.size (ascii "REQUEST_METHOD", r.reqMethod.bytes) +
      (NameValue.size (ascii "SCRIPT_NAME", r.appPath.bytes) +
      (NameValue.size (ascii "PATH_INFO", r.req.bytes ++ r.payload.1) +
      (sizes r.queryPairs + (sizes r.bodyPairs + sizes (RimCli.envPairs (r.env.getD [])))))) := by
    show sizes r.pairs = _
    simp only [RimCli.pairs, sizes_cons, sizes_append]
  have hmethod : _ + r.reqMethod.bytes.length ≤ _ :=
    NameValue.lengths_le_size (ascii "REQUEST_METHOD", r.reqMethod.bytes)
  have happ : _ + r.appPath.bytes.length ≤ _ := NameValue.lengths_le_size (ascii "SCRIPT_NAME", r.appPath.bytes)
  have hpath : _ + (r.req.bytes ++ r.payload.1).length ≤ _ :=
    NameValue.lengths_le_size (ascii "PATH_INFO", r.req.bytes ++ r.payload.1)
  have hquery : r.payload.2.length ≤ sizes r.queryPairs := by
    unfold RimCli.queryPairs
    split
    · next h => rw [h, List.length_nil]; exact Nat.zero_le _
    · have hle := NameValue.lengths_le_size (ascii "QUERY_STRING", r.payload.2)
      simp only [sizes_cons, sizes_nil] at hle ⊢
      omega
  rw [List.length_append] at hpath
  unfold sendParams
  refine Sends.step (contentTypeL_eq (by omega)) ⟨rfl, rfl⟩ ?_
  refine Sends.step (strlen_eq (by omega)) ⟨rfl, rfl⟩ ?_
  refine Sends.step (a := ()) rfl ⟨rfl, rfl⟩ ?_
  refine Sends.step (strlen_eq (by omega)) ⟨rfl, rfl⟩ ?_
  apply Sends.quiet (parsePayload_sends rfl rfl (by omega))
  rintro _ _ ⟨q, rfl, hq, rfl⟩
  refine Sends.step (strlen_eq (by omega)) ⟨rfl, rfl⟩ ?_
  refine Sends.step rfl ⟨rfl, rfl⟩ ?_
  rw [hq]
  have hhas : q.any (· ≠ []) = decide (r.payload.2 ≠ []) := by
    rw [← hq]
    cases q <;> rfl
  generalize hl₁ : ({ l with queryString := q, pathInfo := r.req.bytes ++ r.payload.1 } : FcSend) = l₁
  have hbase : l₁ = l₁.sized 0 := by
    rw [← hl₁, ← hstart]
    rfl
  have hhas₁ : l₁.hasQuery = decide (r.payload.2 ≠ []) := by
    rw [← hl₁]
    exact hhas
  have hpath₁ : l₁.pathInfo = r.req.bytes ++ r.payload.1 := by rw [← hl₁]
  have hn₁ : l₁.envNlen = [] := by rw [← hl₁, hn]
  have hv₁ : l₁.envVlen = [] := by rw [← hl₁, hv]
  -- the sizes
  rw [hhas₁, hpath₁, hbase]
  refine Sends.step (rimSizeEnv_eq (p := (ascii "REQUEST_METHOD", r.reqMethod.bytes)) (k := 0) (by omega)) ⟨rfl, rfl⟩ ?_
  refine Sends.step (rimSizeEnv_eq (p := (ascii "SCRIPT_NAME", r.appPath.bytes)) (by omega)) ⟨rfl, rfl⟩ ?_
  refine Sends.step (rimSizeEnv_eq (p := (ascii "PATH_INFO", r.req.bytes ++ r.payload.1)) (by omega)) ⟨rfl, rfl⟩ ?_
  refine Sends.step (sizeQuery_eq rfl (by omega)) ⟨rfl, rfl⟩ ?_
  refine Sends.step (sizeBody_eq (by omega)) ⟨rfl, rfl⟩ ?_
  apply Sends.quiet (sizeEnv_sends (by omega) hn₁ hv₁)
  rintro _ _ rfl
  have htotal : 0 + NameValue.size (ascii "REQUEST_METHOD", r.reqMethod.bytes) +
      NameValue.size (ascii "SCRIPT_NAME", r.appPath.bytes) +
      NameValue.size (ascii "PATH_INFO", r.req.bytes ++ r.payload.1) + sizes r.queryPairs + sizes r.bodyPairs +
      sizes (RimCli.envPairs (r.env.getD [])) = r.envSize := by omega
  rw [htotal]
  generalize hl₂ : ({ l₁ with
        envNlen := (RimCli.envPairs (r.env.getD [])).map (·.1.length)
        envVlen := (RimCli.envPairs (r.env.getD [])).map (·.2.length) } : FcSend) = l₂
  refine Sends.step rfl ⟨rfl, rfl⟩ ?_
  show Sends mem r sock (FcSend.retIf (decide (r.envSize ≥ _)) _ >>= _) _ _ _
  refine Sends.retIf (fun h => ?_) fun _ => ?_
  · have hlong := of_decide_eq_true h
    omega
  -- the record, whose content goes to the block
  have hcontent : (r.pairs.flatMap NameValue.encode).length = r.envSize := length_flatMap_encode r.pairs
  rw [FcRecord.encode, hcontent, List.append_assoc]
  apply Sends.bind (Sends.write _ _)
  rintro _ _ ⟨s, t, rfl⟩
  refine Sends.retIf (fun h => ⟨_, by simpa using h⟩) fun _ => ?_
  refine Sends.step (a := ()) rfl ⟨rfl, rfl⟩ ?_
  generalize hl₃ : ({ (l₂.sized r.envSize) with sock := s, sent := t } : FcSend) = l₃
  have hfree : ((List.range r.envSize).map garbage).length = r.envSize := by
    rw [List.length_map, List.length_range]
  generalize hblock : (List.range r.envSize).map garbage = free at hfree
  have hn₃ : l₃.envNlen = [] ++ (RimCli.envPairs (r.env.getD [])).map (·.1.length) := by
    rw [← hl₃, ← hl₂]
    rfl
  have hv₃ : l₃.envVlen = [] ++ (RimCli.envPairs (r.env.getD [])).map (·.2.length) := by
    rw [← hl₃, ← hl₂]
    rfl
  have hwrote : ({ l₃ with env := (List.range r.envSize).map garbage, envP := 0 } : FcSend) = l₃.wrote [] free := by
    rw [hblock]
    rfl
  show Sends mem r sock _ ({ l₃ with env := (List.range r.envSize).map garbage, envP := 0 } : FcSend) _ _
  rw [hwrote]
  refine Sends.step (rimSendEnv_eq (p := (ascii "REQUEST_METHOD", r.reqMethod.bytes)) ?_ ?_) ⟨rfl, rfl⟩ ?_
  · omega
  · rw [List.length_nil]
    omega
  refine Sends.step (rimSendEnv_eq (p := (ascii "SCRIPT_NAME", r.appPath.bytes)) ?_ ?_) ⟨rfl, rfl⟩ ?_
  · rw [List.length_drop]
    omega
  · simp only [List.length_append, List.length_drop, NameValue.length_encode, List.length_nil]
    omega
  refine Sends.step (rimSendEnv_eq (p := (ascii "PATH_INFO", r.req.bytes ++ r.payload.1)) ?_ ?_) ⟨rfl, rfl⟩ ?_
  · simp only [List.length_drop]
    omega
  · simp only [List.length_append, List.length_drop, NameValue.length_encode, List.length_nil]
    omega
  refine Sends.step (sendQuery_eq rfl ?_ ?_) ⟨rfl, rfl⟩ ?_
  · simp only [List.length_drop]
    omega
  · simp only [List.length_append, List.length_drop, NameValue.length_encode, List.length_nil]
    omega
  refine Sends.step (sendBody_eq ?_ ?_) ⟨rfl, rfl⟩ ?_
  · simp only [List.length_drop]
    omega
  · simp only [List.length_append, List.length_drop, NameValue.length_encode, List.length_nil, length_flatMap_encode]
    omega
  refine Sends.step (sendEnvLoop_eq [] [] _ hn₃ hv₃ rfl ?_ ?_) ⟨rfl, rfl⟩ ?_
  · simp only [List.length_drop]
    show sizes _ ≤ _
    omega
  · simp only [List.length_append, List.length_drop, NameValue.length_encode, List.length_nil, length_flatMap_encode]
    omega
  have hfull : [] ++ NameValue.encode (ascii "REQUEST_METHOD", r.reqMethod.bytes) ++
      NameValue.encode (ascii "SCRIPT_NAME", r.appPath.bytes) ++
      NameValue.encode (ascii "PATH_INFO", r.req.bytes ++ r.payload.1) ++ r.queryPairs.flatMap NameValue.encode ++
      r.bodyPairs.flatMap NameValue.encode ++ (RimCli.envPairs (r.env.getD [])).flatMap NameValue.encode =
      r.pairs.flatMap NameValue.encode := by
    simp only [RimCli.pairs, List.flatMap_cons, List.flatMap_append, List.nil_append, List.append_assoc]
  rw [hfull]
  generalize hrest : List.drop _ _ = rest
  have hnil : rest = [] := by
    apply List.eq_nil_of_length_eq_zero
    have hlen := congrArg List.length hrest
    rw [show ((RimCli.envPairs (r.env.getD [])).map NameValue.size).sum = sizes (RimCli.envPairs (r.env.getD []))
      from rfl] at hlen
    simp only [List.length_drop] at hlen
    omega
  rw [hnil]
  refine Sends.step rfl ⟨rfl, rfl⟩ ?_
  generalize hall : r.pairs.flatMap NameValue.encode = all at hcontent
  have htake : (l₃.wrote all []).env.take (l₃.wrote all []).envP = all := List.take_left
  show Sends mem r sock (rimWriteSocket ((l₃.wrote all []).env.take (l₃.wrote all []).envP) >>= _) _ _ _
  rw [htake]
  apply Sends.bind (Sends.write _ _)
  rintro _ _ ⟨s', t', rfl⟩
  apply (Sends.write (buildHdr 0 RIM_CLI_PARAM) _).imp
  rintro _ _ ⟨s'', t'', rfl⟩
  have henv : (l₃.wrote all []).env = all := List.append_nil all
  refine ⟨henv, ?_, ?_⟩
  · show all.length = (l₃.wrote all []).env.length
    rw [henv]
  · show l₃.paramLen = (l₃.wrote all []).env.length
    rw [henv, hcontent, ← hl₃]
    rfl

def stdinRecords (r : RimCli) : List FcRecord :=
  match bodyOf r with
  | some (body, _) =>
    (pieces (RIM_CLI_MAX_LEN - 8) r.contentLen body).map (FcRecord.mk RIM_CLI_STDIN ·) ++ [⟨RIM_CLI_STDIN, []⟩]
  | none => []

def records (r : RimCli) : List FcRecord :=
  ⟨RIM_CLI_BEG_REQ, beginRequest⟩ :: ⟨RIM_CLI_PARAM, r.pairs.flatMap NameValue.encode⟩ :: ⟨RIM_CLI_PARAM, []⟩ ::
    stdinRecords r

theorem bodyOf_length {b : Bytes × Bytes} (h : bodyOf r = some b) : b.1.length = r.contentLen := by
  unfold bodyOf at h
  split at h
  · next body type hbody _ =>
    split at h
    · cases h
    · cases h
      exact r.reqBody_length body hbody
  · cases h

theorem rimCliSend_sends (mem : Nat → Bool) (sock : List Taken) (garbage : Nat → UInt8) (hsize : r.envSize < RIM_CLI_MAX_LEN - 8) :
    Sends mem r sock (rimCliSend mem garbage r) { sock } ((records r).flatMap FcRecord.encode) fun _ l' =>
      l'.env = r.pairs.flatMap NameValue.encode ∧ l'.envP = l'.env.length ∧ l'.paramLen = l'.env.length := by
  unfold records
  rw [List.flatMap_cons, List.flatMap_cons, List.flatMap_cons, ← List.append_assoc (FcRecord.encode ⟨RIM_CLI_PARAM, _⟩)]
  apply Sends.bind (Sends.write _ _)
  rintro _ _ ⟨s, t, rfl⟩
  apply Sends.bind (sendParams_sends garbage hsize rfl rfl rfl)
  rintro _ l₁ ⟨henv, hp, hlen⟩
  unfold stdinRecords
  cases hbody : bodyOf r with
  | none => exact Sends.pure ⟨henv, hp, hlen⟩
  | some b =>
    have hb := bodyOf_length hbody
    show Sends mem r sock (stdinLoop r.contentLen b.1 r.contentLen >>= _) _ _ _
    rw [← hb]
    simp only [List.flatMap_append, List.flatMap_map]
    apply Sends.bind (stdinLoop_sends (Nat.le_refl _))
    rintro _ _ ⟨s', t', rfl⟩
    apply (Sends.write (buildHdr 0 RIM_CLI_STDIN) _).imp
    rintro _ _ ⟨s'', t'', rfl⟩
    exact ⟨henv, hp, hlen⟩

end

/-- The records of the body: none if there is no body; else pieces of it and an empty
record. -/
def Stdin : Option (Bytes × Bytes) → List FcRecord → Prop
  | none, rs => rs = []
  | some (body, _), rs => ∃ ps : List Bytes, rs = ps.map (FcRecord.mk RIM_CLI_STDIN ·) ++ [⟨RIM_CLI_STDIN, []⟩] ∧
      (∀ p ∈ ps, 1 ≤ p.length ∧ p.length ≤ 65527) ∧ ps.flatten = body

/-- What was sent is the request: the environment's block is full and reads as the names
and values, and the records are those of the request. -/
structure Encoded (r : RimCli) (l : FcSend) : Prop where
  full : l.envP = l.env.length ∧ l.paramLen = l.env.length
  pairs : unframe NameValue.decode l.env = some r.pairs
  records : ∃ stdin, unframe FcRecord.decode l.sent =
      some (⟨RIM_CLI_BEG_REQ, beginRequest⟩ :: ⟨RIM_CLI_PARAM, l.env⟩ :: ⟨RIM_CLI_PARAM, []⟩ :: stdin) ∧
    Stdin (bodyOf r) stdin

section

variable {r : RimCli}

theorem stdinRecords_stdin : Stdin (bodyOf r) (stdinRecords r) := by
  unfold stdinRecords
  cases hbody : bodyOf r with
  | none => exact rfl
  | some b =>
    refine ⟨_, rfl, ?_, pieces_flatten _ _ _⟩
    exact pieces_length (by decide) (Nat.le_of_eq (bodyOf_length hbody))

theorem records_content (hsize : r.envSize < RIM_CLI_MAX_LEN - 8) :
    ∀ c ∈ records r, c.content.length ≤ RIM_CLI_MAX_LEN := by
  intro c hc
  unfold records at hc
  simp only [List.mem_cons] at hc
  obtain rfl | rfl | rfl | hc := hc
  · decide
  · show (r.pairs.flatMap NameValue.encode).length ≤ _
    rw [length_flatMap_encode]
    exact Nat.le_trans (Nat.le_of_lt hsize) (Nat.sub_le _ _)
  · exact Nat.zero_le _
  · have hstdin := stdinRecords_stdin (r := r)
    cases hbody : bodyOf r with
    | none =>
      rw [hbody] at hstdin
      rw [show stdinRecords r = [] from hstdin] at hc
      cases hc
    | some b =>
      rw [hbody] at hstdin
      obtain ⟨ps, hps, hlen, -⟩ := hstdin
      rw [hps, List.mem_append, List.mem_map, List.mem_singleton] at hc
      obtain ⟨p, hp, rfl⟩ | rfl := hc
      · exact Nat.le_trans (hlen p hp).2 (by decide)
      · exact Nat.zero_le _

theorem pairs_lengths (hsize : r.envSize < RIM_CLI_MAX_LEN - 8) :
    ∀ p ∈ r.pairs, p.1.length < 2 ^ 31 ∧ p.2.length < 2 ^ 31 := by
  intro p hp
  have hle := NameValue.lengths_le_size p
  have hsum : NameValue.size p ≤ r.envSize := by
    obtain ⟨a, b, hab⟩ := List.append_of_mem hp
    show _ ≤ sizes r.pairs
    rw [hab, sizes_append, sizes_cons]
    omega
  unfold RIM_CLI_MAX_LEN at hsize
  omega

end

/-- A request whose environment is below the limit is sent as its encoding, or it is
returned from early; and not that if the socket takes everything, there is memory and
`env` has a value for each name. -/
theorem rimCliSend_encodes (mem : Nat → Bool) (garbage : Nat → UInt8) (r : RimCli) (sock : List Taken)
    (hsize : r.envSize < RIM_CLI_MAX_LEN - 8) :
    ∃ res l, rimCliSend mem garbage r { sock } = some (res, l) ∧ (res = .ok () → Encoded r l) ∧
      ((r.env.getD []).length % 2 = 0 → (∀ n, mem n = true) → Taken.failed ∉ sock → res = .ok ()) := by
  obtain ⟨res, l, hrun, -, hres⟩ := rimCliSend_sends mem sock garbage hsize List.suffix_rfl
  refine ⟨res, l, hrun, ?_, ?_⟩
  · rintro rfl
    obtain ⟨hsent, henv, hfull⟩ := hres
    refine ⟨hfull, ?_, stdinRecords r, ?_, stdinRecords_stdin⟩
    · rw [henv]
      apply unframe_flatMap
      · intro p hp
        exact NameValue.decode_encode (pairs_lengths hsize p hp).1 (pairs_lengths hsize p hp).2
      · intro p _
        exact NameValue.encode_ne_nil p
    · rw [henv, hsent]
      show unframe FcRecord.decode ((records r).flatMap FcRecord.encode) = some (records r)
      apply unframe_flatMap
      · intro c hc
        exact FcRecord.decode_encode (records_content hsize c hc)
      · intro c _
        exact FcRecord.encode_ne_nil c
  · intro heven hmem hsock
    cases res with
    | ok a => rfl
    | error e =>
      obtain ⟨-, hexc⟩ := hres
      cases e with
      | errSockWrite => exact absurd hexc hsock
      | errOutMem =>
        obtain ⟨n, hn⟩ := hexc
        rw [hmem n] at hn
        cases hn
      | errEnvOdd =>
        have hodd : (r.env.getD []).length % 2 = 1 := hexc
        omega
      | errEnvTooLong => exact absurd hexc id

/-- A request with a body and one name in `env`. -/
def postRequest : RimCli where
  reqMethod := ⟨ascii "POST", by decide⟩
  appPath := ⟨ascii "/app", by decide⟩
  req := ⟨ascii "/req", by decide⟩
  urlParams := some ⟨ascii "/a/b?c=d", by decide⟩
  contentType := some ⟨ascii "text/plain", by decide⟩
  contentLen := 2
  reqBody := some (ascii "hi")
  env := some [⟨ascii "N", by decide⟩, ⟨ascii "V", by decide⟩]
  contentLen_lt := by decide
  reqBody_length := by decide

theorem rimCliSend_encodes_post :
    ∃ res l, rimCliSend (fun _ => true) (fun _ => 7) postRequest { sock := [.took 3, .interrupted] } = some (res, l) ∧
      (res = .ok () → Encoded postRequest l) ∧ res = .ok () := by
  obtain ⟨res, l, hrun, henc, hok⟩ :=
    rimCliSend_encodes (fun _ => true) (fun _ => 7) postRequest [.took 3, .interrupted] (by decide)
  exact ⟨res, l, hrun, henc, hok (by decide) (fun _ => rfl) (by decide)⟩

def getRequest : RimCli where
  reqMethod := ⟨ascii "GET", by decide⟩
  appPath := ⟨ascii "/app", by decide⟩
  req := ⟨ascii "/req", by decide⟩
  contentLen_lt := by decide
  reqBody_length := by decide

/-- A request without a body is sent without an empty record for it. -/
theorem rimCliSend_no_stdin :
    ¬ ∀ (mem : Nat → Bool) (garbage : Nat → UInt8) (r : RimCli) (sock : List Taken) (l : FcSend),
      r.envSize < RIM_CLI_MAX_LEN - 8 → rimCliSend mem garbage r { sock } = some (.ok (), l) →
      ∃ cs, unframe FcRecord.decode l.sent = some (cs ++ [⟨RIM_CLI_STDIN, []⟩]) := by
  intro h
  obtain ⟨res, l, hrun, -, hres⟩ := rimCliSend_sends (fun _ => true) [] (r := getRequest)
    (fun _ => 0) (by decide) List.suffix_rfl
  cases res with
  | ok a =>
    obtain ⟨cs, hcs⟩ := h _ _ getRequest [] l (by decide) hrun
    have hrecords : unframe FcRecord.decode l.sent = some (records getRequest) := by
      rw [hres.1]
      show unframe FcRecord.decode ((records getRequest).flatMap FcRecord.encode) = some (records getRequest)
      apply unframe_flatMap
      · intro c hc
        exact FcRecord.decode_encode (records_content (by decide) c hc)
      · intro c _
        exact FcRecord.encode_ne_nil c
    rw [hrecords] at hcs
    have hlast := congrArg List.getLast? (Option.some.inj hcs)
    rw [List.getLast?_concat] at hlast
    cases hlast
  | error e =>
    obtain ⟨-, hexc⟩ := hres
    cases e with
    | errSockWrite => cases hexc
    | errOutMem =>
      obtain ⟨n, hn⟩ := hexc
      cases hn
    | errEnvOdd => cases hexc
    | errEnvTooLong => exact hexc

end FcSend

end RimStone
