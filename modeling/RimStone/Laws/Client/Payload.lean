import RimStone.Laws.Client.Request

/-!
# The path and the query of a payload

A payload begins with path segments or is all query, and its first question mark ends the path.
`parse_payload` looks for the last slash and takes the first question mark after that. Both are the
same place as long as no slash is in the query.
-/

namespace RimStone

open RimStone.Lib

/-- A payload at its first question mark. Path segments begin with a slash. -/
def urlSplit (u : Bytes) : Bytes × Bytes :=
  if u.head? = some 47 then (u.takeWhile (· ≠ 63), (u.dropWhile (· ≠ 63)).drop 1) else ([], u)

namespace RimCli

variable (r : RimCli)

def url : Bytes := (r.urlParams.map (·.bytes)).getD []

/-- `PATH_INFO`, and the query, as they should be. -/
def urlPath : Bytes := r.req.bytes ++ (urlSplit r.url).1
def urlQuery : Bytes := (urlSplit r.url).2

/-- Whatever memory there is, `parse_payload` answers the path, the query and their lengths, or that
there is no memory. -/
def SplitsUrl : Prop :=
  ∀ mem l, l.queryString = r.urlParams.map (·.bytes) → l.pathInfo = r.req.bytes →
    match (FcSend.strlen r.req.bytes >>= FcSend.parsePayload mem 0) l with
    | some (.ok a, l') =>
      l'.pathInfo = r.urlPath ∧ l'.queryString.getD [] = r.urlQuery ∧ a = (r.urlQuery.length, r.urlPath.length)
    | some (.error e, _) => e = .errOutMem ∧ ∃ n, mem n = false
    | none => False

/-- No slash is in the query, and the lengths are those of an `int`. -/
structure UrlWithin : Prop where
  slash : 47 ∉ r.urlQuery
  path : r.urlPath.length < 2 ^ 31
  url : r.url.length < 2 ^ 31

end RimCli

/-! ## Both splits -/

theorem not_mem_splitPayload (u : Bytes) : 47 ∉ (splitPayload u).2 := by
  unfold splitPayload
  by_cases hu : 47 ∈ u
  · rw [if_pos hu]
    intro h
    have hlast : 47 ∈ u.rtakeWhile (· ≠ 47) := (List.dropWhile_suffix _).subset (List.mem_of_mem_drop h)
    simpa using List.mem_rtakeWhile_imp hlast
  · rw [if_neg hu]
    exact hu

/-- The last slash of a text is that of its front, where there is none after that. -/
theorem rdropWhile_front {a b : Bytes} (hb : 47 ∉ b) :
    (a ++ b).rdropWhile (· ≠ 47) = a.rdropWhile (· ≠ 47) ∧
      (a ++ b).rtakeWhile (· ≠ 47) = a.rtakeWhile (· ≠ 47) ++ b := by
  have hall : ∀ x ∈ b.reverse, (decide (x ≠ 47)) = true := by
    intro x hx
    refine decide_eq_true fun h => hb ?_
    rw [← h]
    exact List.mem_reverse.mp hx
  unfold List.rdropWhile List.rtakeWhile
  rw [List.reverse_append, List.dropWhile_append_of_pos hall, List.takeWhile_append_of_pos hall, List.reverse_append,
    List.reverse_reverse]
  exact ⟨rfl, rfl⟩

/-- The splits agree where the query has no slash. -/
theorem splitPayload_eq_iff (u : Bytes) : splitPayload u = urlSplit u ↔ 47 ∉ (urlSplit u).2 := by
  constructor
  · intro h
    rw [← h]
    exact not_mem_splitPayload u
  · intro h
    unfold urlSplit at h ⊢
    by_cases hhead : u.head? = some 47
    · rw [if_pos hhead] at h ⊢
      have hsplit : u.takeWhile (· ≠ 63) ++ u.dropWhile (· ≠ 63) = u := List.takeWhile_append_dropWhile
      have hfront : ∀ x ∈ u.takeWhile (· ≠ 63), decide (x ≠ 63) = true := by
        intro x hx
        have hx := List.mem_takeWhile_imp hx
        exact hx
      have hmem : 47 ∈ u := List.mem_of_mem_head? hhead
      have hback : (u.dropWhile (· ≠ 63)).takeWhile (· ≠ 63) = [] ∧ 47 ∉ u.dropWhile (· ≠ 63) ∧
          (u.dropWhile (· ≠ 63)).dropWhile (· ≠ 63) = u.dropWhile (· ≠ 63) := by
        cases hd : u.dropWhile (· ≠ 63) with
        | nil => exact ⟨rfl, List.not_mem_nil, rfl⟩
        | cons c b =>
          have hc : c = 63 := by
            have hne : u.dropWhile (· ≠ 63) ≠ [] := hd ▸ List.cons_ne_nil c b
            have hfirst := List.head_dropWhile_not (fun x : UInt8 => decide (x ≠ 63)) hne
            simp only [hd, List.head_cons] at hfirst
            simpa using hfirst
          subst hc
          rw [hd] at h
          refine ⟨rfl, ?_, rfl⟩
          rw [List.mem_cons, not_or]
          exact ⟨by decide, h⟩
      obtain ⟨hnil, hnot, hsame⟩ := hback
      generalize u.takeWhile (· ≠ 63) = a at *
      generalize u.dropWhile (· ≠ 63) = b at *
      obtain ⟨hdrop, htake⟩ := rdropWhile_front (a := a) hnot
      have hall : ∀ x ∈ a.rtakeWhile (· ≠ 47), decide (x ≠ 63) = true := by
        intro x hx
        exact hfront x ((List.rtakeWhile_suffix _ _).subset hx)
      have ha : a.rdropWhile (· ≠ 47) ++ a.rtakeWhile (· ≠ 47) = a := List.rdropWhile_append_rtakeWhile
      subst hsplit
      unfold splitPayload
      rw [if_pos hmem, hdrop, htake]
      simp only
      rw [List.takeWhile_append_of_pos hall, List.dropWhile_append_of_pos hall, hnil, hsame, List.append_nil, ha]
    · rw [if_neg hhead] at h ⊢
      unfold splitPayload
      rw [if_neg h]

/-! ## The payload of a request -/

namespace RimCli

variable {r : RimCli}

/-- A request with a payload that is not empty. -/
theorem queryString_url {q : Option Bytes} (hq : q = r.urlParams.map (·.bytes)) (hu : r.url ≠ []) : q = some r.url := by
  subst hq
  unfold url at hu ⊢
  cases hp : r.urlParams.map (·.bytes) with
  | none =>
    rw [hp] at hu
    exact absurd rfl hu
  | some u => rfl

/-- Without a payload nothing is split. -/
theorem parsePayload_empty {l : FcSend} (hq : l.queryString = r.urlParams.map (·.bytes)) (hu : r.url = [])
    (mem : Nat → Bool) (n : Nat) :
    FcSend.parsePayload mem 0 n l = some (.ok (0, n), l) ∧ l.queryString.getD [] = [] := by
  have hnil : l.queryString.getD [] = [] := by
    rw [hq]
    exact hu
  refine ⟨?_, hnil⟩
  have hget : (get : CliM FcSend) l = some (.ok l, l) := rfl
  unfold FcSend.parsePayload
  rw [FcSend.bind_ok hget]
  match hs : l.queryString with
  | none => rfl
  | some [] => rfl
  | some (c :: u) =>
    rw [hs] at hnil
    cases hnil

/-- Whatever is split off is the path and the query. -/
theorem SplitsUrl.eq (h : r.SplitsUrl) : r.UrlWithin := by
  have hrun := h (fun _ => true) { sock := [], queryString := r.urlParams.map (·.bytes), pathInfo := r.req.bytes } rfl rfl
  generalize hl : ({ sock := [], queryString := r.urlParams.map (·.bytes), pathInfo := r.req.bytes } : FcSend) = l at hrun
  have hq : l.queryString = r.urlParams.map (·.bytes) := by rw [← hl]
  have hp : l.pathInfo = r.req.bytes := by rw [← hl]
  have hreq : r.req.bytes.length < 2 ^ 31 := by
    by_contra hlong
    have hnone : FcLocal.addInt 0 r.req.bytes.length = none := if_neg (by omega)
    have hfail : FcSend.strlen r.req.bytes l = none := by
      unfold FcSend.strlen
      rw [hnone]
      rfl
    have hrun' : (FcSend.strlen r.req.bytes >>= FcSend.parsePayload (fun _ => true) 0) l = none := by
      show Option.bind (FcSend.strlen r.req.bytes l) _ = none
      rw [hfail]
      rfl
    rw [hrun'] at hrun
    exact hrun
  rw [FcSend.bind_ok (FcSend.strlen_eq hreq)] at hrun
  by_cases hu : r.url = []
  · have hsplit : urlSplit r.url = ([], []) := by rw [hu]; rfl
    refine ⟨?_, ?_, ?_⟩
    · rw [urlQuery, hsplit]
      exact List.not_mem_nil
    · rw [urlPath, hsplit, List.append_nil]
      exact hreq
    · rw [hu]
      exact Nat.two_pow_pos 31
  · have hsome := queryString_url hq hu
    rw [FcSend.parsePayload_eq _ hsome hu] at hrun
    by_cases hlen : r.url.length < 2 ^ 31
    · rw [if_pos hlen] at hrun
      -- the answer is that of the split at the last slash
      have hanswer : r.req.bytes.length + (splitPayload r.url).1.length < 2 ^ 31 ∧ urlSplit r.url = splitPayload r.url := by
        by_cases hpath : (splitPayload r.url).1 = []
        · rw [if_pos hpath] at hrun
          obtain ⟨hinfo, hquery, -⟩ := hrun
          rw [hp, urlPath] at hinfo
          have hnil := List.append_right_eq_self.mp hinfo.symm
          rw [hsome, Option.getD_some] at hquery
          refine ⟨by rw [hpath, List.length_nil]; omega, Prod.ext (hnil.trans hpath.symm) ?_⟩
          rw [FcSend.splitPayload_noPath (List.length_eq_zero_iff.mpr hpath)]
          exact hquery.symm
        · rw [if_neg hpath, if_neg (by decide)] at hrun
          by_cases hsum : r.req.bytes.length + (splitPayload r.url).1.length < 2 ^ 31
          · rw [if_pos hsum, if_neg (by decide)] at hrun
            obtain ⟨hinfo, hquery, -⟩ := hrun
            rw [hp, List.take_length, urlPath, List.append_cancel_left_eq] at hinfo
            exact ⟨hsum, Prod.ext hinfo.symm hquery.symm⟩
          · rw [if_neg hsum] at hrun
            exact hrun.elim
      obtain ⟨hsum, hsplit⟩ := hanswer
      refine ⟨?_, ?_, hlen⟩
      · rw [urlQuery]
        exact (splitPayload_eq_iff _).mp hsplit.symm
      · rw [urlPath, hsplit, List.length_append]
        exact hsum
    · rw [if_neg hlen] at hrun
      exact hrun.elim

/-- Where no slash is in the query, the payload is split at its first question mark. -/
theorem UrlWithin.splits (h : r.UrlWithin) : r.SplitsUrl := by
  intro mem l hq hp
  have hpath := h.path
  rw [urlPath, List.length_append] at hpath
  rw [FcSend.bind_ok (FcSend.strlen_eq (by omega))]
  by_cases hu : r.url = []
  · obtain ⟨hrun, hnil⟩ := parsePayload_empty hq hu mem r.req.bytes.length
    have hsplit : urlSplit r.url = ([], []) := by rw [hu]; rfl
    rw [hrun]
    refine ⟨?_, ?_, ?_⟩
    · rw [hp, urlPath, hsplit, List.append_nil]
    · rw [hnil, urlQuery, hsplit]
    · rw [urlQuery, urlPath, hsplit, List.append_nil]
      rfl
  · have hsome := queryString_url hq hu
    have hsplit := (splitPayload_eq_iff r.url).mpr h.slash
    rw [← hsplit] at hpath
    rw [FcSend.parsePayload_eq _ hsome hu, if_pos h.url]
    by_cases hno : (splitPayload r.url).1 = []
    · have hall := FcSend.splitPayload_noPath (List.length_eq_zero_iff.mpr hno)
      rw [hsplit] at hno hall
      rw [if_pos (hsplit ▸ hno)]
      refine ⟨?_, ?_, ?_⟩
      · rw [hp, urlPath, hno, List.append_nil]
      · rw [hsome, urlQuery, hall, Option.getD_some]
      · rw [urlQuery, urlPath, hall, hno, List.append_nil]
    · rw [if_neg hno]
      by_cases hmem : mem ((splitPayload r.url).2.length + 1) = false
      · rw [if_pos hmem]
        exact ⟨rfl, _, hmem⟩
      rw [if_neg hmem, if_pos hpath]
      by_cases hmem : mem (r.req.bytes.length + (splitPayload r.url).1.length + 1) = false
      · rw [if_pos hmem]
        exact ⟨rfl, _, hmem⟩
      rw [if_neg hmem, hsplit]
      refine ⟨?_, rfl, ?_⟩
      · show l.pathInfo.take r.req.bytes.length ++ (urlSplit r.url).1 = r.urlPath
        rw [hp, List.take_length, urlPath]
      · rw [urlQuery, urlPath, List.length_append]

/-- `parse_payload` splits the payload exactly where no slash is in the query. -/
theorem splitsUrl_iff (r : RimCli) : r.SplitsUrl ↔ r.UrlWithin := ⟨SplitsUrl.eq, UrlWithin.splits⟩

def slashInQuery : RimCli :=
  { FcSend.getRequest with urlParams := some ⟨ascii "/seg?date=1/2", notMem_of_all rfl⟩ }

theorem not_splitsUrl : ¬ (∀ r : RimCli, r.SplitsUrl) ∧
    (slashInQuery.urlPath, slashInQuery.urlQuery) = (ascii "/req/seg", ascii "date=1/2") ∧
    (FcSend.parsePayload (fun _ => true) 0 4
        { sock := [], queryString := some (ascii "/seg?date=1/2"), pathInfo := ascii "/req" }) =
      some (.ok (0, 17), { sock := [], queryString := some [], pathInfo := ascii "/req/seg?date=1/2" }) := by
  refine ⟨?_, by decide, by decide⟩
  intro h
  have hslash := (h slashInQuery).eq.slash
  revert hslash
  decide

end RimCli

end RimStone
