import RimStone.Laws.Memory.Chars
import RimStone.Lib.Yields
import RimStone.Request.Body

/-!
# Where the body of a request goes

A body is read into a buffer that has room for it and for two nulls, when its length is not
negative: the upper bounds are what is checked. A negative length passes them all, and then nulls
are written before the buffer. Where a query string is appended, the buffer has room for it,
unless there is none: a body that is a query string, and has no length, leaves no buffer.
-/

namespace RimStone

open RimStone.Lib

variable {inp : BodyInput} {url body b b' : Bytes} {i len total : Int} {content : Content}

/-- The outcome is defined, and what there is has `P`. -/
abbrev Inside {α : Type} (P : α → Prop) (x : Except InputFault α) : Prop := Yields (· ≠ .undefined) P x

theorem Inside.ne_undefined {α : Type} {P : α → Prop} {x : Except InputFault α} (h : Inside P x) : x ≠ .error .undefined :=
  fun hx => h.of_error hx rfl

/-! ## Reading and writing -/

theorem pokeAt_inside {c : UInt8} (h₀ : 0 ≤ i) (h : i < b.length) :
    Inside (fun b' : Bytes => b'.length = b.length) (inContent (pokeAt b i c)) := by
  unfold pokeAt
  rw [if_pos h₀, poke_eq (by omega)]
  exact List.length_set

theorem pokeAt_outside {c : UInt8} (h : i < 0) : inContent (pokeAt b i c) = .error .undefined := by
  unfold pokeAt
  rw [if_neg (by omega)]
  rfl

theorem memcpyAt_inside {src : Bytes} (h₀ : 0 ≤ i) (h : i + src.length ≤ b.length) :
    Inside (fun b' : Bytes => b'.length = b.length) (inContent (memcpyAt b i src)) := by
  unfold memcpyAt memcpy
  rw [if_pos h₀, if_pos (by omega)]
  show (b.take i.toNat ++ src ++ b.drop (i.toNat + src.length)).length = _
  rw [List.length_append, List.length_append, List.length_take, List.length_drop]
  omega

/-- The loop reads no more than it is asked for. -/
theorem readBodyLoop_inside {reads : List Bytes} (h₀ : 0 ≤ total) (htotal : total ≤ len) (hlen : len ≤ b.length) :
    Inside (fun r : Bytes × Bool => r.1.length = b.length) (readBodyLoop b len total reads) := by
  induction reads generalizing b total with
  | nil => exact Yields.ok rfl
  | cons chunk reads ih =>
    unfold readBodyLoop
    by_cases hmore : total < len
    · rw [if_pos hmore]
      have hgot : ((chunk.take (len - total).toNat).length : Int) ≤ len - total := by
        rw [List.length_take]
        omega
      by_cases hnone : chunk.take (len - total).toNat = []
      · rw [if_pos hnone]
        exact Yields.ok rfl
      · rw [if_neg hnone]
        refine (memcpyAt_inside h₀ (by omega)).bind fun b' hb' => ?_
        have hnext : Inside (fun r : Bytes × Bool => r.1.length = b'.length)
            (readBodyLoop b' len (total + (chunk.take (len - total).toNat).length) reads) :=
          ih (by omega) (by omega) (by omega)
        exact hnext.mono fun r hr => hr.trans hb'
    · rw [if_neg hmore]
      exact Yields.ok rfl

theorem rimGenUtilRead_inside {finishedOutput : Bool} {reads : List Bytes} (h₀ : 0 ≤ len) (hlen : len < b.length) :
    Inside (fun r : Bytes × Bool => r.1.length = b.length) (rimGenUtilRead finishedOutput b len reads) := by
  unfold rimGenUtilRead
  cases finishedOutput with
  | true =>
    rw [if_pos rfl]
    refine (pokeAt_inside (Int.le_refl 0) (by omega)).bind fun b' hb' => ?_
    exact Yields.ok hb'
  | false =>
    rw [if_neg Bool.false_ne_true]
    refine (readBodyLoop_inside (Int.le_refl 0) h₀ (by omega)).bind fun r hr => ?_
    obtain ⟨b', enough⟩ := r
    cases enough with
    | true =>
      have hb' : b'.length = b.length := hr
      refine (pokeAt_inside h₀ (by omega)).bind fun b'' hb'' => ?_
      exact Yields.ok (hb''.trans hb')
    | false => exact Yields.ok hr

/-- Nothing is read of a negative length, and the null after it is before the buffer. -/
theorem rimGenUtilRead_negative {reads : List Bytes} (hlen : len < 0) :
    rimGenUtilRead false b len reads = .error .undefined := by
  have hloop : readBodyLoop b len 0 reads = .ok (b, true) := by
    cases reads with
    | nil =>
      rw [readBodyLoop, decide_eq_false (by omega)]
      rfl
    | cons chunk reads => rw [readBodyLoop, if_neg (by omega)]
  unfold rimGenUtilRead
  rw [if_neg Bool.false_ne_true, hloop]
  show (inContent (pokeAt b len 0) >>= fun content => _) = _
  rw [pokeAt_outside hlen]
  rfl

/-! ## The body -/

/-- A buffer that the body is read to has room for the whole of it, and a body that is a query
string is in the fixed one. -/
structure BodyBuffer (inp : BodyInput) (content : Content) : Prop where
  none : inp.contType ≠ [] → inp.contLenByte = 0 → content = none
  url : inp.contType = [] → ∃ b, content = some b ∧ b.length = RIM_MAX_SIZE_OF_URL
  query : inp.isQueryString = true → inp.contLenByte ≠ 0 →
    ∃ b, content = some b ∧ b.length = RIM_MAX_SIZE_OF_BODY

theorem emptyUrl_inside (hurl : url.length = RIM_MAX_SIZE_OF_URL) :
    Inside (fun content => ∃ b, content = some b ∧ b.length = RIM_MAX_SIZE_OF_URL) (emptyUrl url) := by
  have hpos : (0 : Int) < url.length := by
    rw [hurl]
    decide
  refine (pokeAt_inside (Int.le_refl 0) hpos).bind fun b hb => ?_
  exact Yields.ok ⟨b, rfl, hb.trans hurl⟩

theorem contLenByte_ne (h : inp.contLenByte ≠ 0) : inp.contType ≠ [] := by
  intro hempty
  exact h (if_neg fun hand => hand.1 hempty)

/-- The buffer that is chosen for a body has room for it and for two nulls. -/
theorem exists_newBody (hbody : body.length = RIM_MAX_SIZE_OF_BODY) (hlen : 0 ≤ inp.contLenByte)
    (hquery : ¬ (inp.isQueryString = true ∧ inp.contLenByte ≥ RIM_MAX_SIZE_OF_URL)) :
    ∃ nb, nb = (if inp.contLenByte + 32 < RIM_MAX_SIZE_OF_BODY then body
        else List.replicate (inp.contLenByte + 32).toNat 0) ∧
      inp.contLenByte + 1 < nb.length ∧ (inp.isQueryString = true → nb.length = RIM_MAX_SIZE_OF_BODY) := by
  refine ⟨_, rfl, ?_⟩
  have hbodySize : (RIM_MAX_SIZE_OF_BODY : Int) = 32768 := rfl
  have hurlSize : (RIM_MAX_SIZE_OF_URL : Int) = 4096 := rfl
  by_cases hsmall : inp.contLenByte + 32 < RIM_MAX_SIZE_OF_BODY
  · rw [if_pos hsmall, hbody]
    exact ⟨by omega, fun _ => rfl⟩
  · rw [if_neg hsmall, List.length_replicate]
    refine ⟨by omega, fun hq => absurd ⟨hq, ?_⟩ hquery⟩
    omega

theorem readContent_inside (hurl : url.length = RIM_MAX_SIZE_OF_URL) (hbody : body.length = RIM_MAX_SIZE_OF_BODY)
    (hlen : 0 ≤ inp.contLenByte) : Inside (BodyBuffer inp) (readContent inp url body) := by
  unfold readContent
  dsimp only
  by_cases hempty : inp.contType = []
  · rw [if_pos hempty]
    refine (emptyUrl_inside hurl).mono fun content hcontent => ?_
    refine ⟨fun hne => absurd hempty hne, fun _ => hcontent, fun _ hne => absurd hempty (contLenByte_ne hne)⟩
  · rw [if_neg hempty]
    by_cases hzero : inp.contLenByte = 0
    · rw [if_pos hzero]
      exact Yields.ok ⟨fun _ _ => rfl, fun he => absurd he hempty, fun _ hne => absurd hzero hne⟩
    · rw [if_neg hzero]
      refine Yields.check (fun h => nomatch h) fun hupload => ?_
      refine Yields.check (fun h => nomatch h) fun hquery => ?_
      obtain ⟨nb, hnb, hroom, hfixed⟩ := exists_newBody hbody hlen hquery
      rw [← hnb]
      refine (rimGenUtilRead_inside hlen (by omega)).bind fun r hr => ?_
      obtain ⟨content, enough⟩ := r
      have hcontent : content.length = nb.length := hr
      cases enough with
      | false => exact Yields.error (fun h => nomatch h)
      | true =>
        refine (pokeAt_inside (by omega) (by omega)).bind fun c₁ h₁ => ?_
        refine (pokeAt_inside hlen (by omega)).bind fun c₂ h₂ => ?_
        refine Yields.ok ⟨fun _ hz => absurd hz hzero, fun he => absurd he hempty, fun hq _ => ⟨c₂, rfl, ?_⟩⟩
        rw [h₂, h₁, hcontent, hfixed hq]

/-- A negative length is below all bounds. -/
theorem readContent_negative (hbody : body.length = RIM_MAX_SIZE_OF_BODY) (hupload : 0 ≤ inp.maxUpload)
    (hlen : inp.contLenByte < 0) : readContent inp url body = .error .undefined := by
  have hempty : inp.contType ≠ [] := contLenByte_ne (by omega)
  unfold readContent
  dsimp only
  rw [if_neg hempty, if_neg (by omega), if_neg fun h => absurd h.2 (by omega),
    if_neg fun h => absurd h.2 (by unfold RIM_MAX_SIZE_OF_URL; omega), if_pos (by unfold RIM_MAX_SIZE_OF_BODY; omega)]
  cases hfinished : inp.finishedOutput with
  | false =>
    rw [rimGenUtilRead_negative hlen]
    rfl
  | true =>
    have hfirst : pokeAt body 0 0 = some (body.set 0 0) := by
      unfold pokeAt
      rw [if_pos (Int.le_refl 0), Int.toNat_zero, poke_eq (by rw [hbody]; decide)]
    have hread : rimGenUtilRead true body inp.contLenByte inp.reads = .ok (body.set 0 0, true) := by
      unfold rimGenUtilRead
      rw [if_pos rfl, hfirst]
      rfl
    rw [hread]
    show (inContent (pokeAt (body.set 0 0) (inp.contLenByte + 1) 0) >>= fun content =>
      inContent (pokeAt content inp.contLenByte 0) >>= fun content => .ok (some content)) = _
    cases pokeAt (body.set 0 0) (inp.contLenByte + 1) 0 with
    | none => rfl
    | some content =>
      show (inContent (pokeAt content inp.contLenByte 0) >>= _) = _
      rw [pokeAt_outside hlen]
      rfl

/-! ## The query string -/

/-- Where the query string goes there is a buffer, with room for all that the check allows; or there
is no buffer, and nothing in it. -/
def QueryBuffer (r : Content × Int) : Prop :=
  0 ≤ r.2 ∧ ∀ b, r.1 = some b → RIM_MAX_SIZE_OF_URL ≤ b.length

theorem emptyUrl_query (hurl : url.length = RIM_MAX_SIZE_OF_URL) :
    Inside (fun r => QueryBuffer r ∧ r.1 ≠ none) (emptyUrl url >>= fun content => .ok (content, 0)) := by
  refine (emptyUrl_inside hurl).bind fun content hcontent => ?_
  obtain ⟨b, rfl, hb⟩ := hcontent
  refine Yields.ok ⟨⟨Int.le_refl 0, fun b' hb' => ?_⟩, Option.some_ne_none b⟩
  obtain rfl := Option.some.inj hb'
  exact Nat.le_of_eq hb.symm

/-- There is no buffer for a query string: the body is one, its length is zero, and the method does
not ask for a length. -/
def NoBuffer (inp : BodyInput) : Prop := inp.isQueryString = true ∧ inp.contLenByte = 0 ∧ inp.isPost = false

theorem isQueryString_ne (h : inp.isQueryString = true) : inp.contType ≠ [] := by
  intro hempty
  unfold BodyInput.isQueryString at h
  rw [hempty] at h
  exact absurd h (by decide)

/-- The body that was read is a query string itself. -/
theorem query_keep (hlen : 0 ≤ inp.contLenByte) (hcontent : BodyBuffer inp content) (hquery : inp.isQueryString = true) :
    QueryBuffer (content, inp.contLenByte) ∧ (content = none ↔ inp.contLenByte = 0) := by
  by_cases hzero : inp.contLenByte = 0
  · rw [hcontent.none (isQueryString_ne hquery) hzero]
    exact ⟨⟨hlen, nofun⟩, fun _ => hzero, fun _ => rfl⟩
  · obtain ⟨b, rfl, hb⟩ := hcontent.query hquery hzero
    refine ⟨⟨hlen, fun b' hb' => ?_⟩, nofun, fun h => absurd h hzero⟩
    obtain rfl := Option.some.inj hb'
    rw [hb]
    decide

theorem chooseContent_inside (hurl : url.length = RIM_MAX_SIZE_OF_URL) (hlen : 0 ≤ inp.contLenByte)
    (hcontent : BodyBuffer inp content) :
    Inside (fun r => QueryBuffer r ∧ (r.1 = none ↔ NoBuffer inp)) (chooseContent inp url content) := by
  have hempty : ¬ NoBuffer inp → Inside (fun r => QueryBuffer r ∧ (r.1 = none ↔ NoBuffer inp))
      (emptyUrl url >>= fun content => .ok (content, 0)) := fun hno =>
    (emptyUrl_query hurl).mono fun r ⟨hbuffer, hne⟩ => ⟨hbuffer, fun h => absurd h hne, fun h => absurd h hno⟩
  unfold chooseContent
  dsimp only
  cases hpost : inp.isPost with
  | false =>
    rw [Bool.not_false, if_pos rfl]
    cases hquery : inp.isQueryString with
    | false => exact hempty fun hno => Bool.false_ne_true (hquery.symm.trans hno.1)
    | true =>
      obtain ⟨hbuffer, hnone⟩ := query_keep hlen hcontent hquery
      exact Yields.ok ⟨hbuffer, hnone.trans ⟨fun hzero => ⟨hquery, hzero, hpost⟩, fun hno => hno.2.1⟩⟩
  | true =>
    have hno : ¬ NoBuffer inp := fun h => Bool.false_ne_true (h.2.2.symm.trans hpost)
    rw [Bool.not_true, if_neg Bool.false_ne_true]
    by_cases htype : inp.contType = []
    · rw [if_neg (not_not_intro htype)]
      refine Yields.check (fun h => nomatch h) fun _ => ?_
      obtain ⟨b, rfl, hb⟩ := hcontent.url htype
      refine Yields.ok ⟨⟨hlen, fun b' hb' => ?_⟩, nofun, fun h => absurd h hno⟩
      obtain rfl := Option.some.inj hb'
      exact Nat.le_of_eq hb.symm
    · rw [if_pos htype]
      refine Yields.check (fun h => nomatch h) fun _ => ?_
      refine Yields.check (fun h => nomatch h) fun hzero => ?_
      cases inp.isMultipart with
      | true =>
        rw [if_pos rfl]
        cases inp.multipart with
        | error e => exact Yields.error (fun h => nomatch h)
        | ok newUrlPtr =>
          refine Yields.ok ⟨⟨Int.natCast_nonneg _, fun b' hb' => ?_⟩, nofun, fun h => absurd h hno⟩
          obtain rfl := Option.some.inj hb'
          exact Nat.le_of_eq hurl.symm
      | false =>
        rw [if_neg Bool.false_ne_true]
        cases hquery : inp.isQueryString with
        | false => exact hempty hno
        | true =>
          obtain ⟨hbuffer, hnone⟩ := query_keep hlen hcontent hquery
          exact Yields.ok ⟨hbuffer, fun h => absurd (hnone.mp h) hzero, fun h => absurd h hno⟩

/-- The query string is short enough to be appended to nothing. -/
def Fits (inp : BodyInput) : Prop := inp.qry ≠ [] ∧ inp.qry.length + 3 < RIM_MAX_SIZE_OF_URL

theorem appendQuery_inside {n : Int} (hbuffer : QueryBuffer (content, n)) (hsome : content = none → ¬ Fits inp) :
    Inside (fun _ => True) (appendQuery inp content n) := by
  unfold appendQuery
  by_cases hqry : inp.qry = []
  · rw [if_pos hqry]
    exact Yields.ok trivial
  · rw [if_neg hqry]
    refine Yields.check (fun h => nomatch h) fun hfit => ?_
    have hlen := hbuffer.1
    cases content with
    | none =>
      exact absurd ⟨hqry, by omega⟩ (hsome rfl)
    | some b =>
      have hb := hbuffer.2 b rfl
      have hsrc : (inp.qry ++ [0]).length = inp.qry.length + 1 := List.length_append
      have hn : 0 ≤ n := hlen
      show Inside _ (if 0 < n then _ else _)
      by_cases hpos : 0 < n
      · rw [if_pos hpos]
        refine (pokeAt_inside hn (by omega)).bind fun b₁ h₁ => ?_
        refine (memcpyAt_inside (by omega) (by omega)).bind fun b₂ _ => ?_
        exact Yields.ok trivial
      · rw [if_neg hpos]
        refine (memcpyAt_inside hn (by omega)).bind fun b₁ _ => ?_
        exact Yields.ok trivial

/-- Without a buffer, a query string that fits is written through a null pointer. -/
theorem appendQuery_none {n : Int} (hn : n = 0) (hfits : Fits inp) : appendQuery inp none n = .error .undefined := by
  obtain ⟨hqry, hfit⟩ := hfits
  unfold appendQuery
  rw [if_neg hqry, if_neg (by omega)]
  rfl

/-- All that is read and written is in a buffer exactly if the length is not negative, and a query
string that fits has a buffer; or if the request has no method. -/
theorem rimGetInputBody_inside_iff (hurl : url.length = RIM_MAX_SIZE_OF_URL) (hbody : body.length = RIM_MAX_SIZE_OF_BODY)
    (hupload : 1024 ≤ inp.maxUpload) :
    rimGetInputBody inp url body ≠ .error .undefined ↔
      inp.reqMethod ≠ [] → 0 ≤ inp.contLenByte ∧ ¬ (NoBuffer inp ∧ inp.isOptions = false ∧ Fits inp) := by
  constructor
  · intro hinside hmethod
    rw [rimGetInputBody, if_neg hmethod] at hinside
    have hlen : 0 ≤ inp.contLenByte := by
      by_contra hneg
      rw [readContent_negative hbody (by omega) (by omega)] at hinside
      exact hinside rfl
    refine ⟨hlen, fun ⟨⟨hquery, hzero, hpost⟩, hoptions, hfits⟩ => hinside ?_⟩
    have hread : readContent inp url body = .ok none := by
      unfold readContent
      dsimp only
      rw [if_neg (isQueryString_ne hquery), if_pos hzero]
    have hchoose : chooseContent inp url none = .ok (none, inp.contLenByte) := by
      unfold chooseContent
      dsimp only
      rw [hpost, hquery]
      rfl
    rw [hread]
    show (if inp.isOptions = true then _ else chooseContent inp url none >>= fun r => appendQuery inp r.1 r.2) = _
    rw [hoptions, if_neg Bool.false_ne_true, hchoose]
    exact appendQuery_none hzero hfits
  · intro hok
    by_cases hmethod : inp.reqMethod = []
    · rw [rimGetInputBody, if_pos hmethod]
      exact fun h => nomatch h
    · obtain ⟨hlen, hfits⟩ := hok hmethod
      rw [rimGetInputBody, if_neg hmethod]
      have hall : Inside (fun _ => True) (readContent inp url body >>= fun content =>
          if inp.isOptions then .ok content
          else chooseContent inp url content >>= fun r => appendQuery inp r.1 r.2) := by
        refine (readContent_inside hurl hbody hlen).bind fun content hcontent => ?_
        cases hoptions : inp.isOptions with
        | true => exact Yields.ok trivial
        | false =>
          rw [if_neg Bool.false_ne_true]
          refine (chooseContent_inside hurl hlen hcontent).bind fun r hr => ?_
          exact appendQuery_inside hr.1 fun hnone hfit => hfits ⟨hr.2.mp hnone, hoptions, hfit⟩
      exact hall.ne_undefined

def plainGet : BodyInput where
  reqMethod := ascii "GET"
  qry := ascii "a=b"
  contType := []
  contLen := []
  maxUpload := 25000000
  finishedOutput := false
  reads := []
  multipart := .ok 0

theorem rimGetInputBody_plainGet :
    rimGetInputBody plainGet (List.replicate RIM_MAX_SIZE_OF_URL 32) (List.replicate RIM_MAX_SIZE_OF_BODY 32) ≠
      .error .undefined := by
  refine (rimGetInputBody_inside_iff List.length_replicate List.length_replicate (by decide)).mpr fun _ => ⟨?_, ?_⟩
  · decide
  · intro hno
    exact absurd hno.1.1 (by decide)

def negativePost : BodyInput where
  reqMethod := ascii "POST"
  qry := []
  contType := ascii "text/plain"
  contLen := ascii "-5"
  maxUpload := 25000000
  finishedOutput := false
  reads := []
  multipart := .ok 0

/-- The null after a body of a negative length is before the buffer. -/
theorem rimGetInputBody_outside : ¬ ∀ (inp : BodyInput) (url body : Bytes), url.length = RIM_MAX_SIZE_OF_URL →
    body.length = RIM_MAX_SIZE_OF_BODY → 1024 ≤ inp.maxUpload → rimGetInputBody inp url body ≠ .error .undefined := by
  intro h
  have hlen : negativePost.contLenByte < 0 := by decide
  refine h negativePost (List.replicate RIM_MAX_SIZE_OF_URL 32) (List.replicate RIM_MAX_SIZE_OF_BODY 32)
    List.length_replicate List.length_replicate (by decide) ?_
  rw [rimGetInputBody, if_neg (by decide), readContent_negative List.length_replicate (by decide) hlen]
  rfl

/-- Numbers beyond 32 and 64 bits. -/
example : atoi (ascii "4294967291") = -5 ∧ atoi (ascii "99999999999999999999") = -1 ∧ atoi (ascii "x") = 0 := by
  decide

end RimStone
