import Mathlib.Data.List.Basic
import RimStone.Lib.Frames
import RimStone.Laws.Memory.Chars
import RimStone.Laws.Request.Cookies
import RimStone.Request.Output

/-!
# Responses are well framed

What is sent is in one of three phases: nothing, header lines, or header lines, the empty line and
parts of a body. `Sending` says which phase the two flags stand for. Every operation goes from one
phase to a later one, but for those that find `data_was_output` set and `sent_header` not: that is what
`send-file` leaves when the client has the file, and what follows then sends a header once more.
-/

namespace RimStone

open Lib

/-! ## The phases -/

def isStatusLine (h : Bytes × Bytes) : Bool := sameCase ((h.1 ++ ascii ": " ++ h.2).take 7) (ascii "Status:")

def OneLine (h : Bytes × Bytes) : Prop := (10 : UInt8) ∉ h.1 ∧ (10 : UInt8) ∉ h.2

/-- Header lines that are lines, with so many statuses. -/
structure Headers (n : Nat) (hs : List (Bytes × Bytes)) : Prop where
  oneLine : ∀ h ∈ hs, OneLine h
  statuses : hs.countP isStatusLine ≤ n

theorem Headers.nil {n : Nat} : Headers n [] := ⟨nofun, Nat.zero_le _⟩

variable {hs gs : List (Bytes × Bytes)} {sentHeader : Bool} {sent : List Sent} {t v : Bytes}

theorem Headers.append {m n : Nat} (h : Headers m hs) (g : Headers n gs) : Headers (m + n) (hs ++ gs) := by
  refine ⟨List.forall_mem_append.mpr ⟨h.oneLine, g.oneLine⟩, ?_⟩
  rw [List.countP_append]
  exact Nat.add_le_add h.statuses g.statuses

theorem Headers.cons {n : Nat} {h : Bytes × Bytes} (hone : OneLine h) (hstatus : isStatusLine h = false)
    (hhs : Headers n hs) : Headers n (h :: hs) := by
  refine ⟨List.forall_mem_cons.mpr ⟨hone, hhs.oneLine⟩, ?_⟩
  rw [List.countP_cons_of_neg (by rw [hstatus]; exact Bool.false_ne_true)]
  exact hhs.statuses

theorem Headers.status {h : Bytes × Bytes} (hone : OneLine h) (hhs : Headers 0 hs) : Headers 1 (h :: hs) := by
  refine ⟨List.forall_mem_cons.mpr ⟨hone, hhs.oneLine⟩, ?_⟩
  have := hhs.statuses
  rw [List.countP_cons]
  split <;> omega

theorem Headers.mono {m n : Nat} (h : Headers m hs) (hle : m ≤ n) : Headers n hs :=
  ⟨h.oneLine, Nat.le_trans h.statuses hle⟩

def lines (hs : List (Bytes × Bytes)) : List Sent := hs.map fun h => .line h.1 h.2

/-- What is sent, when `sent_header` and `data_was_output` are these. -/
inductive Sending : Bool → Bool → List Sent → Prop where
  | nothing : Sending false false []
  | header {hs : List (Bytes × Bytes)} : Headers 1 hs → Sending true false (lines hs)
  | body {sentHeader : Bool} {hs : List (Bytes × Bytes)} (parts : List Bytes) :
      Headers 1 hs → Sending sentHeader true (lines hs ++ .blank :: parts.map .body)

theorem lines_append (hs gs : List (Bytes × Bytes)) : lines (hs ++ gs) = lines hs ++ lines gs := List.map_append

/-- The empty line, after header lines that may still be missing. -/
theorem Sending.headerEnd (h : Sending sentHeader false sent) (hgs : Headers (if sentHeader then 0 else 1) gs)
    (now : Bool) :
    Sending now true (sent ++ lines gs ++ [.blank]) := by
  cases h with
  | nothing => exact .body [] hgs
  | header hhs =>
    rw [← lines_append]
    exact .body [] (hhs.append hgs)

theorem Sending.more (h : Sending sentHeader true sent) (text : Bytes) :
    Sending sentHeader true (sent ++ [.body text]) := by
  cases h with
  | @body _ hs parts hhs =>
    have hmore : Sending sentHeader true _ := .body (parts ++ [text]) hhs
    rw [List.map_append] at hmore
    rw [List.append_assoc]
    exact hmore

/-! ## Texts without a line break -/

theorem noBreak_append {s : Bytes} (hs : (10 : UInt8) ∉ s) (ht : (10 : UInt8) ∉ t) : (10 : UInt8) ∉ s ++ t := by
  intro h
  obtain h | h := List.mem_append.mp h
  · exact hs h
  · exact ht h

theorem noBreak_nat (n : Nat) : (10 : UInt8) ∉ ascii (toString n) := by
  intro h
  have hdigit := isdigit_repr (n := n) h
  cases hdigit

theorem noBreak_int (n : Int) : (10 : UInt8) ∉ ascii (toString n) := by
  cases n with
  | ofNat n => exact noBreak_nat n
  | negSucc n =>
    have htext : ascii (toString (Int.negSucc n)) = 45 :: ascii (toString (n + 1)) := by
      have hminus : toString (Int.negSucc n) = "-" ++ toString (n + 1) := rfl
      rw [hminus]
      simp [ascii]
    rw [htext]
    exact List.not_mem_cons_of_ne_of_not_mem (by decide) (noBreak_nat (n + 1))

theorem noBreak_urlChar (c : UInt8) : (10 : UInt8) ∉ RimEnc.url.char c := by
  have hall : ∀ i : Fin 256, (10 : UInt8) ∉ RimEnc.url.char (UInt8.ofFin i) := by decide +kernel
  have hc := hall c.toFin
  rwa [UInt8.ofFin_toFin] at hc

theorem noBreak_snprintf {n : Nat} {text : Bytes} (h : (10 : UInt8) ∉ text) : (10 : UInt8) ∉ snprintf n text :=
  fun hin => h (List.mem_of_mem_take hin)

theorem PlainText.noBreak {text : Bytes} (h : PlainText text) : (10 : UInt8) ∉ text := fun hin => (h 10 hin).2.1 rfl

/-- A header whose name does not start with an `s` is no status. -/
theorem isStatusLine_head {c : UInt8} {n : Bytes} (hc : tolower c ≠ 115) : isStatusLine (c :: n, v) = false := by
  have hfirst : ascii "Status:" = 83 :: ascii "tatus:" := rfl
  have hs : tolower 83 = 115 := by decide
  unfold isStatusLine sameCase
  rw [hfirst]
  simp [hs, hc]

structure HeaderLines (h : RimHeader) : Prop where
  ctype : (10 : UInt8) ∉ h.ctype
  disp : ∀ t ∈ h.disp, (10 : UInt8) ∉ t
  cacheControl : ∀ t ∈ h.cacheControl, (10 : UInt8) ∉ t
  statusText : ∀ t ∈ h.statusText, (10 : UInt8) ∉ t
  custom : ∀ c ∈ h.custom.take RIM_MAX_HTTP_HEADER, OneLine c

theorem Headers.one {n : Bytes} {k : Nat} (hn : (10 : UInt8) ∉ n) (hv : (10 : UInt8) ∉ v)
    (hstatus : isStatusLine (n, v) = false) : Headers k [(n, v)] := .cons ⟨hn, hv⟩ hstatus .nil

theorem Headers.oneStatus {n : Bytes} (hn : (10 : UInt8) ∉ n) (hv : (10 : UInt8) ∉ v) : Headers 1 [(n, v)] :=
  .status ⟨hn, hv⟩ .nil

/-- A cookie whose header line is one, and that has a path only if it was made here. -/
structure Sendable (c : RimCookie) : Prop where
  made : c.isSetByProgram = true → (10 : UInt8) ∉ c.data
  received : c.isSetByProgram = false → (59 : UInt8) ∉ c.data

/-! ## What the functions send -/

namespace OutReq

variable {r : OutReq}

def Loud (r : OutReq) : Prop := ¬ r.silent = true ∧ ¬ r.finishedOutput = true

def say (r : OutReq) (ss : List Sent) : OutReq := { r with sent := r.sent ++ ss }

theorem say_nil : r.say [] = r := by
  unfold say
  rw [List.append_nil]

theorem say_say (ss ts : List Sent) : (r.say ss).say ts = r.say (ss ++ ts) := by
  unfold say
  rw [List.append_assoc]

theorem Loud.say (h : r.Loud) (ss : List Sent) : (r.say ss).Loud := h

theorem rimGenWrite_loud (h : r.Loud) (s : Sent) : r.rimGenWrite s = r.say [s] := if_neg h.2

theorem rimGenAddHeader_loud (h : r.Loud) (n v : Bytes) : r.rimGenAddHeader n v = r.say (lines [(n, v)]) :=
  (if_neg h.1).trans (rimGenWrite_loud h _)

theorem addHeaders_loud (h : r.Loud) (hs : List (Bytes × Bytes)) : r.addHeaders hs = r.say (lines hs) := by
  induction hs generalizing r with
  | nil => exact say_nil.symm
  | cons g hs ih =>
    have hcons : r.addHeaders (g :: hs) = (r.rimGenAddHeader g.1 g.2).addHeaders hs := rfl
    rw [hcons, rimGenAddHeader_loud h, ih (h.say _), say_say]
    rfl

theorem rimGenHeaderEnd_loud (h : r.Loud) (hdata : r.dataWasOutput = false) :
    r.rimGenHeaderEnd = { r.say (lines r.cookieHeaders ++ [.blank]) with dataWasOutput := true } := by
  unfold rimGenHeaderEnd
  rw [if_neg (ne_true_of_eq_false hdata), if_neg h.1, addHeaders_loud h, rimGenWrite_loud (h.say _), say_say]

theorem rimGenHeaderEnd_done (hdata : r.dataWasOutput = true) : r.rimGenHeaderEnd = r := if_pos hdata

/-- The headers of `rim_send_header`. -/
def pageHeaders (h : RimHeader) : List (Bytes × Bytes) :=
  [(ascii "Content-Type", h.ctype)] ++ cacheHeaders h.cacheControl ++
    [(ascii "Status", ascii (toString (headerStatus h).1) ++ ascii " " ++ (headerStatus h).2)] ++
    h.custom.take RIM_MAX_HTTP_HEADER

theorem rimSendHeader_loud (h : r.Loud) : r.rimSendHeader = r.say (lines (pageHeaders (r.header.getD {}))) := by
  unfold rimSendHeader rimGenSetContentType rimGenSetStatus pageHeaders
  extract_lets g
  rw [rimGenAddHeader_loud h, addHeaders_loud (h.say _), say_say, rimGenAddHeader_loud (h.say _), say_say,
    addHeaders_loud (h.say _), say_say]
  simp only [lines_append]
  rfl

/-- `rim_output_http_header` when no header was sent. -/
theorem rimOutputHttpHeader_loud (h : r.Loud) (hsent : r.sentHeader = false) (hdis : r.disableOutput = false) :
    r.rimOutputHttpHeader = { r.say (lines (pageHeaders (r.header.getD {}))) with sentHeader := true } := by
  have hloud : ({ r with sentHeader := true } : OutReq).Loud := h
  unfold rimOutputHttpHeader
  rw [if_neg (ne_true_of_eq_false hsent), if_neg (ne_true_of_eq_false hdis), rimSendHeader_loud hloud]
  rfl

def errorHeaders (st : Int) (line : Bytes) : List (Bytes × Bytes) :=
  [(ascii "Status", ascii (toString st) ++ ascii " " ++ line), (ascii "Content-Type", ascii "text/html;charset=utf-8")]

/-- `rim_header_err` where no header was sent. -/
theorem errorHeader_loud (h : r.Loud) (hsent : r.sentHeader = false) (hdata : r.dataWasOutput = false) (st : Int)
    (line : Bytes) : r.errorHeader st line =
      { r.say (lines (errorHeaders st line ++ r.cookieHeaders) ++ [.blank]) with
        sentHeader := true, dataWasOutput := true } := by
  have hloud : ({ r with sentHeader := true } : OutReq).Loud := h
  unfold errorHeader rimGenSetStatus rimGenSetContentType
  rw [if_neg (ne_true_of_eq_false hsent), rimGenAddHeader_loud hloud, rimGenAddHeader_loud (hloud.say _), say_say,
    rimGenHeaderEnd_loud (hloud.say _) hdata, say_say, ← List.append_assoc, ← lines_append, ← lines_append]
  rfl

/-! ## What keeps a response framed -/

theorem contentType_headers (hv : (10 : UInt8) ∉ v) : Headers 0 [(ascii "Content-Type", v)] :=
  .one (by decide) hv (isStatusLine_head (by decide))

theorem cacheHeaders_headers {cacheControl : Option Bytes} (h : ∀ t ∈ cacheControl, (10 : UInt8) ∉ t) :
    Headers 0 (cacheHeaders cacheControl) := by
  cases cacheControl with
  | none => exact ⟨by unfold OneLine; decide, by decide⟩
  | some t => exact .one (by decide) (h t rfl) (isStatusLine_head (by decide))

variable {st : Int} {line : Bytes}

theorem status_headers (hline : (10 : UInt8) ∉ line) :
    Headers 1 [(ascii "Status", ascii (toString st) ++ ascii " " ++ line)] :=
  .oneStatus (by decide) (noBreak_append (noBreak_append (noBreak_int st) (by simp [ascii])) hline)

theorem etagHeader_headers (h : RimHeader) (tstamp : Int) : Headers 0 (etagHeader h tstamp) := by
  unfold etagHeader
  split
  · exact .one (by decide) (noBreak_int tstamp) (isStatusLine_head (by decide))
  · exact .nil

theorem pageHeaders_headers {h : RimHeader} (hh : HeaderLines h)
    (hcustom : (h.custom.take RIM_MAX_HTTP_HEADER).countP isStatusLine = 0) : Headers 1 (pageHeaders h) := by
  have hstatus : (10 : UInt8) ∉ (headerStatus h).2 := by
    have hok : (10 : UInt8) ∉ ascii "OK" := by decide
    unfold headerStatus
    cases htext : h.statusText with
    | none => exact hok
    | some text =>
      show (10 : UInt8) ∉ (if h.statusId ≠ 0 then (h.statusId, text) else (200, ascii "OK")).2
      split
      · exact hh.statusText text htext
      · exact hok
  exact (((contentType_headers hh.ctype).append (cacheHeaders_headers hh.cacheControl)).append
    (status_headers hstatus)).append ⟨hh.custom, Nat.le_of_eq hcustom⟩

theorem errorHeaders_headers (hline : (10 : UInt8) ∉ line) : Headers 1 (errorHeaders st line) :=
  (status_headers hline).append (contentType_headers (by decide))

/-- The flags are true to what was sent, and nothing that is still to be sent has a line break. -/
structure Framing (r : OutReq) : Prop where
  loud : r.Loud
  sending : Sending r.sentHeader r.dataWasOutput r.sent
  cookies : ∀ c ∈ r.cookies, Sendable c
  header : ∀ h ∈ r.header, Headers 1 (pageHeaders h)
  quiet : r.dataWasOutput = true → r.sentHeader = false → r.disableOutput = true ∨ r.atEnd = true

theorem Framing.cookieHeaders (h : Framing r) : Headers 0 r.cookieHeaders := by
  have hall : ∀ g ∈ r.cookieHeaders, OneLine g ∧ isStatusLine g = false := by
    intro g hg
    obtain ⟨c, hc, rfl⟩ := List.mem_map.mp hg
    obtain ⟨hc, hset⟩ := List.mem_filter.mp hc
    have htake : (ascii "Set-Cookie" ++ ascii ": " ++ c.data).take 7 = ascii "Set-Coo" := rfl
    have hname : (10 : UInt8) ∉ ascii "Set-Cookie" := by decide
    refine ⟨⟨hname, (h.cookies c hc).made hset⟩, ?_⟩
    unfold isStatusLine
    rw [htake]
    decide
  refine ⟨fun g hg => (hall g hg).1, Nat.le_of_eq (List.countP_eq_zero.mpr fun g hg => ?_)⟩
  rw [(hall g hg).2]
  exact Bool.false_ne_true

theorem Framing.pageHeaders (h : Framing r) : Headers 1 (pageHeaders (r.header.getD {})) := by
  cases hheader : r.header with
  | none => exact ⟨by unfold OneLine; decide, by decide⟩
  | some g => exact h.header g hheader

/-- Header lines that are missing, and the empty line. -/
theorem Framing.close (h : Framing r) (hdata : r.dataWasOutput = false)
    (hgs : Headers (if r.sentHeader then 0 else 1) gs) {now : Bool}
      (hnow : now = true ∨ r.disableOutput = true ∨ r.atEnd = true) :
    Framing { r.say (lines (gs ++ r.cookieHeaders) ++ [.blank]) with sentHeader := now, dataWasOutput := true } where
  loud := h.loud
  sending := by
    have hsending := h.sending
    rw [hdata] at hsending
    have hend := hsending.headerEnd (hgs.append h.cookieHeaders) now
    rwa [List.append_assoc] at hend
  cookies := h.cookies
  header := h.header
  quiet := fun _ hnot => hnow.resolve_left (ne_true_of_eq_false hnot)

theorem Framing.begin (h : Framing r) (hsent : r.sentHeader = false) (hdata : r.dataWasOutput = false)
    (hgs : Headers 1 gs) : Framing { r.say (lines gs) with sentHeader := true } where
  loud := h.loud
  sending := by
    have hsending := h.sending
    rw [hsent, hdata] at hsending
    have hnil : r.sent = [] := by
      generalize r.sent = sent at hsending
      cases hsending
      rfl
    show Sending true r.dataWasOutput (r.sent ++ lines gs)
    rw [hnil, hdata]
    exact .header hgs
  cookies := h.cookies
  header := h.header
  quiet := fun _ hnot => nomatch hnot

/-- The end of the header, after it was sent. -/
theorem Framing.headerEnd (h : Framing r) (hopen : r.sentHeader = true ∨ r.dataWasOutput = true) :
    Framing r.rimGenHeaderEnd ∧ r.rimGenHeaderEnd.dataWasOutput = true := by
  cases hdata : r.dataWasOutput with
  | true =>
    rw [rimGenHeaderEnd_done hdata]
    exact ⟨h, hdata⟩
  | false =>
    obtain hsent | hdone := hopen
    · have hclose := h.close hdata .nil (.inl hsent)
      rw [rimGenHeaderEnd_loud h.loud hdata]
      exact ⟨hclose, rfl⟩
    · rw [hdata] at hdone
      cases hdone

theorem Framing.body (h : Framing r) (hdata : r.dataWasOutput = true) (text : Bytes) :
    Framing (r.rimGenWrite (.body text)) := by
  have hsending := h.sending
  rw [hdata] at hsending
  rw [rimGenWrite_loud h.loud]
  refine ⟨h.loud, ?_, h.cookies, h.header, h.quiet⟩
  show Sending r.sentHeader r.dataWasOutput (r.sent ++ [.body text])
  rw [hdata]
  exact hsending.more text

theorem Framing.writeAfterHeader (h : Framing r) (hopen : r.sentHeader = true ∨ r.dataWasOutput = true) (iserr : Bool)
    (text : Bytes) : Framing (r.rimWriteAfterHeader iserr text) := by
  obtain ⟨hend, hdata⟩ := h.headerEnd hopen
  unfold rimWriteAfterHeader rimGenWriteTo
  split
  · exact hend
  · exact hend.body hdata text

/-- The header of an error, where it is not sent behind the empty line. -/
theorem Framing.errorHeader (h : Framing r) (hready : r.dataWasOutput = true → r.sentHeader = true)
    (hline : (10 : UInt8) ∉ line) :
    Framing (r.errorHeader st line) ∧ (r.errorHeader st line).dataWasOutput = true := by
  cases hsent : r.sentHeader with
  | true =>
    have herr : r.errorHeader st line = r.rimGenHeaderEnd := if_pos hsent
    rw [herr]
    exact h.headerEnd (.inl hsent)
  | false =>
    cases hdata : r.dataWasOutput with
    | true =>
      have hboth := hready hdata
      rw [hsent] at hboth
      cases hboth
    | false =>
      have hgs : Headers (if r.sentHeader then 0 else 1) (errorHeaders st line) := by
        rw [hsent]
        exact errorHeaders_headers hline
      have hclose := h.close hdata hgs (.inl rfl)
      rw [errorHeader_loud h.loud hsent hdata]
      exact ⟨hclose, rfl⟩

theorem Framing.reportError (h : Framing r) (hready : r.dataWasOutput = true → r.sentHeader = true) :
    Framing r.rimReportError := by
  have hreport : Framing { r with isInReport := true } := ⟨h.loud, h.sending, h.cookies, h.header, h.quiet⟩
  have hline : (10 : UInt8) ∉ ascii "Internal Server Error" := by decide
  obtain ⟨herr, hdata⟩ := hreport.errorHeader hready hline
  have hbody := herr.body hdata generr
  exact ⟨hbody.loud, hbody.sending, hbody.cookies, hbody.header, fun _ _ => .inr rfl⟩

theorem Framing.writeWebSent (h : Framing r) (hsent : r.sentHeader = true) (iserr : Bool) (text : Bytes) :
    Framing (r.rimWriteWeb iserr text) := by
  unfold rimWriteWeb
  rw [if_pos hsent]
  exact h.writeAfterHeader (.inl hsent) iserr text

/-- `rim_write_web` where a header is out, or can be. -/
theorem Framing.writeWeb (h : Framing r) (hready : r.dataWasOutput = true → r.sentHeader = true)
    (hreport : r.isInReport = false) (hdis : r.disableOutput = false) (iserr : Bool) (text : Bytes) :
    Framing (r.rimWriteWeb iserr text) := by
  cases hsent : r.sentHeader with
  | true => exact h.writeWebSent hsent iserr text
  | false =>
    have hdata : r.dataWasOutput = false :=
      Bool.eq_false_iff.mpr fun hdata => absurd (hready hdata) (ne_true_of_eq_false hsent)
    have hnot : (!r.isInReport) = true := by
      rw [hreport]
      rfl
    unfold rimWriteWeb
    rw [if_neg (ne_true_of_eq_false hsent), if_pos hnot, rimOutputHttpHeader_loud h.loud hsent hdis]
    exact (h.begin hsent hdata h.pageHeaders).writeAfterHeader (.inl rfl) iserr text

/-- `out-header` sends its header at most once. -/
theorem Framing.outputHttpHeader (h : Framing r) (hrun : r.atEnd = false) : Framing r.rimOutputHttpHeader := by
  cases hsent : r.sentHeader with
  | true =>
    have hout : r.rimOutputHttpHeader = r := if_pos hsent
    rwa [hout]
  | false =>
    cases hdis : r.disableOutput with
    | true =>
      have hout : r.rimOutputHttpHeader = r := by
        unfold rimOutputHttpHeader
        rw [if_neg (ne_true_of_eq_false hsent), if_pos hdis]
      rwa [hout]
    | false =>
      have hdata : r.dataWasOutput = false := by
        refine Bool.eq_false_iff.mpr fun hdata => ?_
        obtain hquiet | hquiet := h.quiet hdata hsent
        · exact absurd hquiet (ne_true_of_eq_false hdis)
        · exact absurd hquiet (ne_true_of_eq_false hrun)
      rw [rimOutputHttpHeader_loud h.loud hsent hdis]
      exact h.begin hsent hdata h.pageHeaders

/-! ## Files -/

/-- A file that the client has: the empty line is out, and `sent_header` is not set. -/
theorem Framing.notModified (h : Framing r) (hsent : r.sentHeader = false) (hdata : r.dataWasOutput = false)
    (hdis : r.disableOutput = true) {header : RimHeader} (hheader : HeaderLines header) :
    Framing (r.notModified header) := by
  have hstatus : Headers 1 [(ascii "Status", ascii "304 Not Modified")] :=
    .oneStatus (by decide) (by simp [ascii])
  have hgs : Headers (if r.sentHeader then 0 else 1)
      ([(ascii "Status", ascii "304 Not Modified")] ++ cacheHeaders header.cacheControl) := by
    rw [hsent]
    exact hstatus.append (cacheHeaders_headers hheader.cacheControl)
  have hnow : r.sentHeader = true ∨ r.disableOutput = true ∨ r.atEnd = true := .inr (.inl hdis)
  have hclose := h.close hdata hgs hnow
  unfold OutReq.notModified
  rw [rimGenAddHeader_loud h.loud, addHeaders_loud (h.loud.say _), say_say,
    rimGenHeaderEnd_loud (h.loud.say _) hdata, say_say, ← List.append_assoc, ← lines_append, ← lines_append]
  exact hclose

theorem Framing.htmlHeader (h : Framing r) (hsent : r.sentHeader = false) (hdata : r.dataWasOutput = false)
    (header : RimHeader) (tstamp : Int) :
    Framing (r.htmlHeader header tstamp) ∧ (r.htmlHeader header tstamp).sentHeader = true := by
  have hgs : Headers 1 (etagHeader header tstamp ++ OutReq.pageHeaders (r.header.getD {})) :=
    ((etagHeader_headers header tstamp).append h.pageHeaders).mono (Nat.le_of_eq (Nat.zero_add 1))
  have hbegin := h.begin hsent hdata hgs
  have hloud : ({ r.say (lines (etagHeader header tstamp)) with disableOutput := false } : OutReq).Loud := h.loud
  have heq : r.htmlHeader header tstamp =
      { r.say (lines (etagHeader header tstamp ++ OutReq.pageHeaders (r.header.getD {}))) with sentHeader := true } := by
    unfold OutReq.htmlHeader
    rw [addHeaders_loud h.loud, rimOutputHttpHeader_loud hloud hsent rfl, lines_append, ← say_say]
    rfl
  rw [heq]
  exact ⟨hbegin, rfl⟩

def fileHeaders (h : RimHeader) (tstamp : Int) (fsize : Nat) : List (Bytes × Bytes) :=
  [(ascii "Content-Type", h.ctype)] ++ [(ascii "Content-length", ascii (toString fsize))] ++
    h.disp.toList.map (fun disp => (ascii "Content-Disposition", dispName disp h.fileName)) ++
    cacheHeaders h.cacheControl ++ (etagHeader h tstamp ++ h.custom.take RIM_MAX_HTTP_HEADER)

theorem fileHeaders_headers {h : RimHeader} (hh : HeaderLines h)
    (hcustom : (h.custom.take RIM_MAX_HTTP_HEADER).countP isStatusLine ≤ 1) (tstamp : Int) (fsize : Nat) :
    Headers 1 (fileHeaders h tstamp fsize) := by
  have hlength : Headers 0 [(ascii "Content-length", ascii (toString fsize))] :=
    .one (by decide) (noBreak_nat fsize) (isStatusLine_head (by decide))
  have hdisp : Headers 0 (h.disp.toList.map fun disp => (ascii "Content-Disposition", dispName disp h.fileName)) := by
    cases hd : h.disp with
    | none => exact .nil
    | some disp =>
      refine .one (by decide) (noBreak_snprintf (noBreak_append (hh.disp disp hd) ?_)) (isStatusLine_head (by decide))
      cases h.fileName with
      | none => exact List.not_mem_nil
      | some fileName =>
        refine noBreak_append (by decide) fun hin => ?_
        obtain ⟨c, -, hc⟩ := List.mem_flatMap.mp hin
        exact noBreak_urlChar c hc
  exact ((((contentType_headers hh.ctype).append hlength).append hdisp).append
    (cacheHeaders_headers hh.cacheControl)).append ((etagHeader_headers h tstamp).append ⟨hh.custom, hcustom⟩)

theorem Framing.fileHeader (h : Framing r) (hsent : r.sentHeader = false) (hdata : r.dataWasOutput = false)
    {header : RimHeader} (hheader : HeaderLines header)
    (hcustom : (header.custom.take RIM_MAX_HTTP_HEADER).countP isStatusLine ≤ 1) (tstamp : Int) (fsize : Nat) :
    Framing (r.fileHeader header tstamp fsize) := by
  have hbegin := h.begin hsent hdata (fileHeaders_headers hheader hcustom tstamp fsize)
  have heq : r.fileHeader header tstamp fsize =
      { r.say (lines (fileHeaders header tstamp fsize)) with sentHeader := true } := by
    unfold OutReq.fileHeader rimGenSetContentType rimGenSetContentLength fileHeaders
    rw [rimGenAddHeader_loud h.loud, rimGenAddHeader_loud (h.loud.say _), say_say, addHeaders_loud (h.loud.say _),
      say_say,
      addHeaders_loud (h.loud.say _), say_say, addHeaders_loud (h.loud.say _), say_say]
    simp only [lines_append]
  rw [heq]
  exact hbegin

theorem Framing.cantFindFile (h : Framing r) (hready : r.dataWasOutput = true → r.sentHeader = true) :
    Framing r.rimCantFindFile := (h.errorHeader hready (by decide)).1

/-- Every outcome of `send-file`. -/
theorem Framing.outFile (h : Framing r) (hready : r.dataWasOutput = true → r.sentHeader = true) {a : SendFile}
    (hheader : HeaderLines a.header)
    (hcustom : (a.header.custom.take RIM_MAX_HTTP_HEADER).countP isStatusLine ≤ 1) : Framing (r.rimOutFile a) := by
  unfold rimOutFile
  split
  · exact h.reportError hready
  · split
    · exact h.reportError hready
    next _ hnot =>
      have hsent : r.sentHeader = false := Bool.eq_false_iff.mpr hnot
      have hdata : r.dataWasOutput = false := Bool.eq_false_iff.mpr fun hdata => hnot (hready hdata)
      have hr : Framing { r with disableOutput := true } :=
        ⟨h.loud, h.sending, h.cookies, h.header, fun _ _ => .inl rfl⟩
      have hready' : ({ r with disableOutput := true } : OutReq).dataWasOutput = true →
          ({ r with disableOutput := true } : OutReq).sentHeader = true := hready
      have hmissing := hr.cantFindFile hready'
      unfold OutReq.sendFile
      split
      next => exact hmissing
      next =>
        split
        next => exact hmissing
        next tstamp _ =>
          split
          next => exact hmissing
          next =>
            split
            next => exact hmissing
            next fsize _ =>
              unfold sendContents
              split
              next => exact hr.notModified hsent hdata rfl hheader
              next =>
                split
                next => exact hmissing
                next str _ =>
                  split
                  next => exact hmissing
                  next =>
                    split
                    next =>
                      obtain ⟨hhtml, hout⟩ := hr.htmlHeader hsent hdata a.header tstamp
                      exact hhtml.writeWebSent hout false str
                    next => exact (hr.fileHeader hsent hdata hheader hcustom tstamp fsize).writeWebSent rfl false str

theorem Framing.shut (h : Framing r) : Framing r.rimShut ∧ (r.rimShut.sent = [] ∨ r.rimShut.dataWasOutput = true) := by
  have hr : Framing { r with isShut := true } := ⟨h.loud, h.sending, h.cookies, h.header, h.quiet⟩
  unfold rimShut
  split
  next hcond =>
    obtain ⟨hsent, -⟩ := Bool.and_eq_true_iff.mp hcond
    obtain ⟨hend, hdata⟩ := hr.headerEnd (.inl hsent)
    exact ⟨hend, .inr hdata⟩
  next hcond =>
    refine ⟨hr, ?_⟩
    cases hsent : r.sentHeader with
    | true =>
      cases hdata : r.dataWasOutput with
      | true => exact .inr rfl
      | false => simp [hsent, hdata] at hcond
    | false =>
      cases hdata : r.dataWasOutput with
      | true => exact .inr rfl
      | false =>
        have hsending := h.sending
        rw [hsent, hdata] at hsending
        generalize r.sent = sent at hsending
        cases hsending
        exact .inl rfl

/-- The answer to `OPTIONS`. -/
theorem Framing.options (h : Framing r) (hsent : r.sentHeader = false) (hdata : r.dataWasOutput = false) :
    Framing r.optionsAnswer := by
  have hr : Framing { r with atEnd := true } := ⟨h.loud, h.sending, h.cookies, h.header, fun _ _ => .inr rfl⟩
  have hallow : Headers 0 optionsHeaders := ⟨by unfold OneLine; decide, by decide⟩
  have hstatus : Headers 1 [(ascii "Status", ascii (toString (204 : Int)) ++ ascii " " ++ ascii "No Content")] :=
    status_headers (by decide)
  have hgs : Headers (if r.sentHeader then 0 else 1)
      ([(ascii "Status", ascii (toString (204 : Int)) ++ ascii " " ++ ascii "No Content")] ++ optionsHeaders) := by
    rw [hsent]
    exact hstatus.append hallow
  have hnow : r.sentHeader = true ∨ ({ r with atEnd := true } : OutReq).disableOutput = true ∨
      ({ r with atEnd := true } : OutReq).atEnd = true := .inr (.inr rfl)
  have hclose := hr.close hdata hgs hnow
  unfold optionsAnswer rimGenSetStatus
  rw [rimGenAddHeader_loud h.loud, addHeaders_loud (h.loud.say _), say_say,
    rimGenHeaderEnd_loud (h.loud.say _) hdata, say_say, ← List.append_assoc, ← lines_append, ← lines_append]
  exact hclose

end OutReq

/-! ## Cookies -/

/-- A path is found only in a cookie that was made here. -/
theorem cookieAttr_noBreak {val key : Bytes} (h : cookieAttr val (59 :: key) = some t) (hkey : (59 : UInt8) ∉ key)
    (hval : (59 : UInt8) ∉ val ∨ (10 : UInt8) ∉ val) : (10 : UInt8) ∉ t := by
  obtain hval | hval := hval
  · have hnone := cookieAttr_joined hval hkey (List.forall_mem_nil _)
    rw [joined, List.flatMap_nil, List.append_nil, h] at hnone
    cases hnone
  · obtain ⟨p, -, rfl⟩ := Option.map_eq_some_iff.mp h
    exact fun hin => hval (List.mem_of_mem_drop ((List.takeWhile_sublist _).subset hin))

theorem Sendable.path_noBreak {name : Bytes} {cookies : List RimCookie} {ci : Nat} (h : ∀ c ∈ cookies, Sendable c)
    (ht : (findCookieLoop name cookies ci).path = some t) : (10 : UInt8) ∉ t := by
  induction cookies generalizing ci with
  | nil => cases ht
  | cons c cookies ih =>
    obtain ⟨hc, hcookies⟩ := List.forall_mem_cons.mp h
    unfold findCookieLoop at ht
    split at ht
    · refine cookieAttr_noBreak ht (by decide) ?_
      cases hset : c.isSetByProgram with
      | true => exact .inr fun hin => hc.made hset (List.mem_of_mem_drop hin)
      | false => exact .inl fun hin => hc.received hset (List.mem_of_mem_drop hin)
    · exact ih hcookies ht

theorem clause_noBreak {key : String} {text : Option Bytes} (hkey : (10 : UInt8) ∉ ascii key)
    (htext : ∀ t ∈ text, (10 : UInt8) ∉ t) : (10 : UInt8) ∉ clause key text := by
  match text with
  | none => exact List.not_mem_nil
  | some [] => exact List.not_mem_nil
  | some (c :: text) => exact noBreak_append hkey (htext _ rfl)

theorem SafeClauses.noBreak {secure samesite httponly : Bytes} (h : SafeClauses secure samesite httponly) :
    (10 : UInt8) ∉ safetyClause secure samesite httponly := by
  rw [h.text]
  intro hin
  obtain ⟨p, hp, hin⟩ := List.mem_flatMap.mp hin
  obtain heq | hin := List.mem_cons.mp hin
  · cases heq
  · exact (h.plain p hp).noBreak hin

/-- A cookie that is made, whatever is cut off of it. -/
theorem Sendable.of_text {n : Nat} {text : Bytes} (h : (10 : UInt8) ∉ text) : Sendable ⟨snprintf n text, true⟩ :=
  ⟨fun _ => noBreak_snprintf h, nofun⟩

theorem rimSetCookie_sendable {dataWasOutput : Bool} {cookies cookies' : List RimCookie} {a : SetCookie}
    (h : ∀ c ∈ cookies, Sendable c) (hpath : ∀ t ∈ a.path, (10 : UInt8) ∉ t) (hexp : ∀ t ∈ a.expires, (10 : UInt8) ∉ t)
    (hset : rimSetCookie dataWasOutput cookies a = .ok cookies') : ∀ c ∈ cookies', Sendable c := by
  cases dataWasOutput with
  | true => cases hset
  | false =>
    cases hcheck : rimCheckSetCookie a.name a.value a.secure a.samesite a.httponly with
    | error e => simp [rimSetCookie, hcheck, bind, Except.bind] at hset
    | ok safety =>
      obtain ⟨hname, -, hval, hsafe⟩ := rimCheckSetCookie_ok hcheck
      have htext : (10 : UInt8) ∉ a.text := by
        unfold SetCookie.text
        refine noBreak_append (noBreak_append (noBreak_append (noBreak_append (noBreak_append hname.noBreak ?_)
          hval.noBreak) (clause_noBreak ?_ hpath)) (clause_noBreak ?_ hexp)) hsafe.noBreak <;> decide
      have hnew : Sendable ⟨snprintf (RIM_MAX_COOKIE_SIZE + 1) a.text, true⟩ := .of_text htext
      simp only [rimSetCookie, hcheck, bind, Except.bind, pure, Except.pure, Bool.false_eq_true, if_false] at hset
      split at hset
      · split at hset
        · cases hset
        · obtain rfl := Except.ok.inj hset
          exact List.forall_mem_append.mpr ⟨h, List.forall_mem_singleton.mpr hnew⟩
      · obtain rfl := Except.ok.inj hset
        intro c hc
        obtain hc | rfl := List.mem_or_eq_of_mem_set hc
        · exact h c hc
        · exact hnew

theorem rimDeleteCookie_sendable {cookies cookies' : List RimCookie} {name secure : Bytes} {path : Option Bytes}
    {ind : Option Nat} (h : ∀ c ∈ cookies, Sendable c) (hpath : ∀ t ∈ path, (10 : UInt8) ∉ t)
    (hdelete : rimDeleteCookie cookies name path secure = .ok (cookies', ind)) : ∀ c ∈ cookies', Sendable c := by
  cases hind : (rimFindCookie cookies name).ind with
  | none =>
    simp only [rimDeleteCookie, hind, pure, Except.pure] at hdelete
    obtain ⟨rfl, -⟩ := Prod.mk.inj (Except.ok.inj hdelete)
    exact h
  | some i =>
    cases hcheck : rimCheckSetCookie name (ascii "deleted") secure [] [] with
    | error e => simp [rimDeleteCookie, hind, hcheck, bind, Except.bind] at hdelete
    | ok safety =>
      obtain ⟨hname, -, -, hsafe⟩ := rimCheckSetCookie_ok hcheck
      have hrpath : ∀ t ∈ deletePath cookies name path, (10 : UInt8) ∉ t := by
        intro t ht
        obtain ht | ⟨-, ht⟩ := Option.or_eq_some_iff.mp ht
        · exact hpath t ht
        · exact Sendable.path_noBreak h ht
      have htext : (10 : UInt8) ∉ deleteText name (deletePath cookies name path) secure := by
        unfold deleteText
        refine noBreak_append (noBreak_append (noBreak_append (noBreak_append hname.noBreak (by decide)) ?_)
          (by decide)) hsafe.noBreak
        cases hrp : deletePath cookies name path with
        | none => exact List.not_mem_nil
        | some t => exact noBreak_append (by decide) (hrpath t hrp)
      simp only [rimDeleteCookie, hind, hcheck, bind, Except.bind, pure, Except.pure] at hdelete
      obtain ⟨rfl, -⟩ := Prod.mk.inj (Except.ok.inj hdelete)
      intro c hc
      obtain hc | rfl := List.mem_or_eq_of_mem_set hc
      · exact h c hc
      · exact .of_text htext

/-! ## Every operation -/

namespace OutReq

variable {r r' : OutReq}

/-- The program can go from `r` to `r'` by an operation. -/
def OutStep (r : OutReq) (op : OutOp) (r' : OutReq) : Prop := r.exec op = some r'

/-- What may follow once the empty line is out and `sent_header` is not set. -/
def Quiet (r : OutReq) : OutOp → Prop
  | .outHeader _ | .shut => True
  | .deleteCookie name path secure => (rimDeleteCookie r.cookies name path secure).toBool = true
  | _ => False

/-- The texts that are given for header lines have no line break, and no second status is asked for. -/
def Lined : OutOp → Prop
  | .outHeader header => ∀ h ∈ header, HeaderLines h ∧ (h.custom.take RIM_MAX_HTTP_HEADER).countP isStatusLine = 0
  | .sendFile a => HeaderLines a.header ∧ (a.header.custom.take RIM_MAX_HTTP_HEADER).countP isStatusLine ≤ 1
  | .setCookie a => (∀ t ∈ a.path, (10 : UInt8) ∉ t) ∧ ∀ t ∈ a.expires, (10 : UInt8) ∉ t
  | .deleteCookie _ path _ => ∀ t ∈ path, (10 : UInt8) ∉ t
  | _ => True

/-- Nothing is sent behind what `send-file` answers to a client that has the file. -/
def OutGuard (r : OutReq) (op : OutOp) : Prop :=
  Lined op ∧ (r.dataWasOutput = true → r.sentHeader = false → Quiet r op)

def place (r : OutReq) : Bool × Bool × Bool := (r.isShut, r.isInReport, r.atEnd)

theorem place_rimGenWrite (r : OutReq) (s : Sent) : (r.rimGenWrite s).place = r.place := by
  unfold rimGenWrite
  split <;> rfl

theorem place_rimGenAddHeader (r : OutReq) (n v : Bytes) : (r.rimGenAddHeader n v).place = r.place := by
  unfold rimGenAddHeader
  split
  · rfl
  · exact place_rimGenWrite r _

theorem place_addHeaders (r : OutReq) (hs : List (Bytes × Bytes)) : (r.addHeaders hs).place = r.place := by
  induction hs generalizing r with
  | nil => rfl
  | cons h hs ih => exact (ih _).trans (place_rimGenAddHeader r h.1 h.2)

theorem place_rimGenHeaderEnd (r : OutReq) : r.rimGenHeaderEnd.place = r.place := by
  unfold rimGenHeaderEnd
  split
  · rfl
  · split
    · rfl
    · exact (place_rimGenWrite _ _).trans (place_addHeaders _ _)

theorem place_rimOutputHttpHeader (r : OutReq) : r.rimOutputHttpHeader.place = r.place := by
  unfold rimOutputHttpHeader
  split
  · rfl
  · split
    · rfl
    · unfold rimSendHeader
      exact (place_addHeaders _ _).trans ((place_rimGenAddHeader _ _ _).trans
        ((place_addHeaders _ _).trans (place_rimGenAddHeader _ _ _)))

theorem place_rimWriteAfterHeader (r : OutReq) (iserr : Bool) (text : Bytes) :
    (r.rimWriteAfterHeader iserr text).place = r.place := by
  unfold rimWriteAfterHeader rimGenWriteTo
  split
  · exact place_rimGenHeaderEnd r
  · exact (place_rimGenWrite _ _).trans (place_rimGenHeaderEnd r)

theorem place_rimWriteWeb (r : OutReq) (iserr : Bool) (text : Bytes) : (r.rimWriteWeb iserr text).place = r.place := by
  unfold rimWriteWeb
  split
  · exact place_rimWriteAfterHeader r iserr text
  · split
    · exact (place_rimWriteAfterHeader _ iserr text).trans (place_rimOutputHttpHeader r)
    · unfold rimGenWriteTo
      split
      · rfl
      · exact place_rimGenWrite r _

theorem place_errorHeader (r : OutReq) (st : Int) (line : Bytes) : (r.errorHeader st line).place = r.place := by
  unfold errorHeader
  split
  · exact place_rimGenHeaderEnd r
  · exact (place_rimGenHeaderEnd _).trans ((place_rimGenAddHeader _ _ _).trans (place_rimGenAddHeader _ _ _))

theorem place_sendContents (r : OutReq) (a : SendFile) (tstamp : Int) (fsize : Nat) :
    (r.sendContents a tstamp fsize).place = r.place := by
  unfold sendContents
  split
  · exact (place_rimGenHeaderEnd _).trans ((place_addHeaders _ _).trans (place_rimGenAddHeader _ _ _))
  · split
    · exact place_errorHeader r _ _
    · split
      · exact place_errorHeader r _ _
      · split
        · exact (place_rimWriteWeb _ _ _).trans ((place_rimOutputHttpHeader _).trans (place_addHeaders r _))
        · refine (place_rimWriteWeb _ _ _).trans ?_
          exact (place_addHeaders _ _).trans ((place_addHeaders _ _).trans ((place_addHeaders _ _).trans
            ((place_rimGenAddHeader _ _ _).trans (place_rimGenAddHeader _ _ _))))

theorem place_sendFile (r : OutReq) (a : SendFile) : (r.sendFile a).place = r.place := by
  unfold sendFile
  split
  · exact place_errorHeader r _ _
  · split
    · exact place_errorHeader r _ _
    · split
      · exact place_errorHeader r _ _
      · split
        · exact place_errorHeader r _ _
        · exact place_sendContents r a _ _

/-- An error that is reported leaves the request at its end. -/
theorem place_rimReportError (r : OutReq) : r.rimReportError.place = (r.isShut, true, true) := by
  have hplace := (place_rimGenWrite _ (.body generr)).trans
    (place_errorHeader { r with isInReport := true } 500 (ascii "Internal Server Error"))
  unfold place at hplace ⊢
  have hshut := congrArg Prod.fst hplace
  have hreport := congrArg (·.2.1) hplace
  exact Prod.ext hshut (Prod.ext hreport rfl)

structure OutInv (r : OutReq) : Prop where
  framing : Framing r
  report : r.isInReport = true → r.atEnd = true
  shut : r.isShut = true → r.sent = [] ∨ r.dataWasOutput = true

theorem OutInv.goesOn (h : OutInv r) (hshut : r.isShut = false) (hframing : Framing r') (hplace : r'.place = r.place) :
    OutInv r' := by
  have hisShut : r'.isShut = r.isShut := congrArg Prod.fst hplace
  have hreport : r'.isInReport = r.isInReport := congrArg (·.2.1) hplace
  have hend : r'.atEnd = r.atEnd := congrArg (·.2.2) hplace
  refine ⟨hframing, ?_, ?_⟩
  · rw [hreport, hend]
    exact h.report
  · rw [hisShut, hshut]
    exact nofun

theorem OutInv.reports (h : OutInv r) (hshut : r.isShut = false) (hready : r.dataWasOutput = true → r.sentHeader = true) :
    OutInv r.rimReportError := by
  have hplace := place_rimReportError r
  have hisShut : r.rimReportError.isShut = r.isShut := congrArg Prod.fst hplace
  refine ⟨h.framing.reportError hready, fun _ => rfl, ?_⟩
  rw [hisShut, hshut]
  exact nofun

/-- Cookies that are set or deleted, or the error about that. -/
theorem OutInv.orReport (h : OutInv r) (hshut : r.isShut = false) {cookies : Except InputFault (List RimCookie)}
    (hready : cookies.toBool = true ∨ (r.dataWasOutput = true → r.sentHeader = true))
    (hsendable : ∀ cs, cookies = .ok cs → ∀ c ∈ cs, Sendable c) : OutInv (r.orReport cookies) := by
  cases cookies with
  | ok cs =>
    exact h.goesOn hshut ⟨h.framing.loud, h.framing.sending, hsendable cs rfl, h.framing.header, h.framing.quiet⟩ rfl
  | error e => exact h.reports hshut (hready.resolve_left nofun)

/-- What is not quiet comes only when the flags agree. -/
theorem OutGuard.ready {op : OutOp} (h : OutGuard r op) (hop : ¬ Quiet r op) :
    r.dataWasOutput = true → r.sentHeader = true := by
  intro hdata
  cases hsent : r.sentHeader with
  | true => rfl
  | false => exact absurd (h.2 hdata hsent) hop

/-- Every operation keeps the response framed. -/
theorem outStep_inv {op : OutOp} (h : OutInv r) (hguard : OutGuard r op) (hstep : OutStep r op r') : OutInv r' := by
  unfold OutStep exec at hstep
  split at hstep
  next => cases hstep
  next hshut =>
    have hshut : r.isShut = false := Bool.eq_false_iff.mpr hshut
    split at hstep
    next =>
      obtain rfl := Option.some.inj hstep
      obtain ⟨hframing, hall⟩ := h.framing.shut
      refine ⟨hframing, ?_, fun _ => hall⟩
      unfold rimShut
      split
      · have hplace := place_rimGenHeaderEnd { r with isShut := true }
        have hreport : (rimGenHeaderEnd { r with isShut := true }).isInReport = r.isInReport := congrArg (·.2.1) hplace
        have hend : (rimGenHeaderEnd { r with isShut := true }).atEnd = r.atEnd := congrArg (·.2.2) hplace
        rw [hreport, hend]
        exact h.report
      · exact h.report
    next =>
      split at hstep
      next => cases hstep
      next hrun =>
        have hrun : r.atEnd = false := Bool.eq_false_iff.mpr hrun
        have hreport : r.isInReport = false :=
          Bool.eq_false_iff.mpr fun hreport => absurd (h.report hreport) (ne_true_of_eq_false hrun)
        have hlined := hguard.1
        cases op with
        | shut => cases hstep
        | outHeader header =>
          obtain rfl := Option.some.inj hstep
          have hheader : ∀ g ∈ header.or r.header, Headers 1 (pageHeaders g) := by
            intro g hg
            obtain hg | ⟨-, hg⟩ := Option.or_eq_some_iff.mp hg
            · obtain ⟨hlines, hcustom⟩ := hlined g hg
              exact pageHeaders_headers hlines hcustom
            · exact h.framing.header g hg
          have hr : Framing { r with header := header.or r.header } :=
            ⟨h.framing.loud, h.framing.sending, h.framing.cookies, hheader, h.framing.quiet⟩
          exact h.goesOn hshut (hr.outputHttpHeader hrun) (place_rimOutputHttpHeader _)
        | output iserr text =>
          obtain rfl := Option.some.inj hstep
          have hready := hguard.ready id
          unfold rimOutput
          split
          next => exact h.reports hshut hready
          next hdis =>
            exact h.goesOn hshut (h.framing.writeWeb hready hreport (Bool.eq_false_iff.mpr hdis) iserr text)
              (place_rimWriteWeb r iserr text)
        | sendFile a =>
          obtain rfl := Option.some.inj hstep
          have hready := hguard.ready id
          have hframing := h.framing.outFile hready hlined.1 hlined.2
          unfold rimOutFile at hframing ⊢
          split
          next => exact h.reports hshut hready
          next hdis =>
            rw [if_neg hdis] at hframing
            split
            next => exact h.reports hshut hready
            next hsent =>
              rw [if_neg hsent] at hframing
              exact h.goesOn hshut hframing (place_sendFile _ a)
        | badRequest =>
          obtain rfl := Option.some.inj hstep
          exact h.goesOn hshut (h.framing.errorHeader (hguard.ready id) (by decide)).1 (place_errorHeader r _ _)
        | reportError =>
          obtain rfl := Option.some.inj hstep
          exact h.reports hshut (hguard.ready id)
        | setCookie a =>
          obtain rfl := Option.some.inj hstep
          exact h.orReport hshut (.inr (hguard.ready id)) fun cs hcs =>
            rimSetCookie_sendable h.framing.cookies hlined.1 hlined.2 hcs
        | deleteCookie name path secure =>
          obtain rfl := Option.some.inj hstep
          cases hdelete : rimDeleteCookie r.cookies name path secure with
          | ok made =>
            refine h.orReport hshut (.inl rfl) fun cs hcs => ?_
            obtain rfl := Except.ok.inj hcs
            exact rimDeleteCookie_sendable h.framing.cookies hlined hdelete
          | error e =>
            refine h.orReport hshut (.inr (hguard.ready ?_)) nofun
            show ¬ (rimDeleteCookie r.cookies name path secure).toBool = true
            rw [hdelete]
            exact Bool.false_ne_true
        | options =>
          change (if (r.sentHeader || r.dataWasOutput) = true then none else some r.optionsAnswer) = some r' at hstep
          split at hstep
          next => cases hstep
          next hfresh =>
            obtain rfl := Option.some.inj hstep
            obtain ⟨hsent, hdata⟩ := Bool.or_eq_false_iff.mp (Bool.eq_false_iff.mpr hfresh)
            have hplace : r.optionsAnswer.isShut = r.isShut := congrArg Prod.fst ((place_rimGenHeaderEnd _).trans
              ((place_addHeaders _ _).trans (place_rimGenAddHeader r _ _)))
            refine ⟨h.framing.options hsent hdata, fun _ => rfl, ?_⟩
            rw [hplace, hshut]
            exact nofun

end OutReq

/-! ## The law -/

def lineText (h : Bytes × Bytes) : Bytes := h.1 ++ ascii ": " ++ h.2

/-- A response: header lines with no more than one status, the empty line, and a body. That is also
what is read from its text. -/
def Framed (sent : List Sent) : Prop :=
  ∃ (hs : List (Bytes × Bytes)) (parts : List Bytes), sent = lines hs ++ .blank :: parts.map .body ∧
    hs.countP isStatusLine ≤ 1 ∧
    readFramed 13 10 (sent.flatMap Sent.text) = some (hs.map lineText, parts.flatten)

/-- A response as far as it is out: maybe without the empty line yet. -/
def FramedSoFar (sent : List Sent) : Prop :=
  Framed sent ∨ ∃ hs : List (Bytes × Bytes), sent = lines hs ∧ hs.countP isStatusLine ≤ 1

/-- The text of a response is read as its lines and its body. -/
theorem readFramed_sent (parts : List Bytes) (hone : ∀ h ∈ hs, OneLine h) :
    readFramed 13 10 ((lines hs ++ Sent.blank :: parts.map Sent.body).flatMap Sent.text) =
      some (hs.map lineText, parts.flatten) := by
  have hlines : (lines hs).flatMap Sent.text = (hs.map lineText).flatMap (· ++ [13, 10]) := by
    unfold lines
    rw [List.flatMap_map, List.flatMap_map]
    rfl
  have hparts : (parts.map Sent.body).flatMap Sent.text = parts.flatten := by
    rw [List.flatMap_map, List.flatMap_def]
    exact congrArg List.flatten (List.map_id parts)
  have hall : ∀ t ∈ hs.map lineText, (10 : UInt8) ∉ t ∧ t ≠ [] := by
    intro t ht
    obtain ⟨h, hh, rfl⟩ := List.mem_map.mp ht
    refine ⟨noBreak_append (noBreak_append (hone h hh).1 (by decide)) (hone h hh).2, ?_⟩
    have hcolon : ascii ": " = [58, 32] := rfl
    unfold lineText
    rw [hcolon]
    simp
  rw [List.flatMap_append, hlines, List.flatMap_cons, hparts]
  exact readFramed_message (by decide) hall

theorem Sending.framed (h : Sending sentHeader true sent) : Framed sent := by
  cases h with
  | body parts hhs => exact ⟨_, parts, rfl, hhs.statuses, readFramed_sent parts hhs.oneLine⟩

theorem Sending.framedSoFar {dataWasOutput : Bool} (h : Sending sentHeader dataWasOutput sent) : FramedSoFar sent := by
  cases h with
  | nothing => exact .inr ⟨[], rfl, Nat.zero_le _⟩
  | header hhs => exact .inr ⟨_, rfl, hhs.statuses⟩
  | body parts hhs =>
    have hbody : Sending sentHeader true _ := .body parts hhs
    exact .inl hbody.framed

open OutReq

theorem start_inv {cookie : Bytes} {cookies : List RimCookie} (hreceive : receiveCookies cookie = .ok cookies)
    (ifNoneMatch : Option Bytes) : OutInv (start cookies ifNoneMatch) := by
  have hcookies : ∀ c ∈ cookies, Sendable c := by
    intro c hc
    unfold receiveCookies at hreceive
    split at hreceive
    next =>
      obtain rfl := Except.ok.inj hreceive
      cases hc
    next =>
      rw [cookieLoop_eq hreceive, List.nil_append] at hc
      obtain ⟨text, htext, rfl⟩ := List.mem_map.mp hc
      exact ⟨nofun, fun _ => notMem_of_mem_receivedCookies htext⟩
  exact ⟨⟨⟨nofun, nofun⟩, .nothing, hcookies, nofun, nofun⟩, nofun, nofun⟩

/-- In every run of a request, what is sent is framed, and once the request is shut it is a whole
response, if anything was sent. That is so as long as nothing is sent behind the answer to a client
that has the file, and what is given for header lines are lines without a second status. -/
theorem response_framed {cookie : Bytes} {cookies : List RimCookie} {ifNoneMatch : Option Bytes} {ops : List OutOp}
    {r : OutReq} (hreceive : receiveCookies cookie = .ok cookies)
    (hrun : GuardedRun OutStep OutGuard (start cookies ifNoneMatch) ops r) :
    FramedSoFar r.sent ∧ (r.isShut = true → r.sent ≠ [] → Framed r.sent) := by
  have hinv : OutInv r := hrun.invariant (fun h hguard hstep => outStep_inv h hguard hstep)
    (start_inv hreceive ifNoneMatch)
  refine ⟨hinv.framing.sending.framedSoFar, fun hshut hsome => ?_⟩
  have hsending := hinv.framing.sending
  rw [(hinv.shut hshut).resolve_left hsome] at hsending
  exact hsending.framed

/-- A request that sets a cookie and writes. -/
theorem response_framed_page :
    Framed [.line (ascii "Content-Type") (ascii "text/html;charset=utf-8"),
      .line (ascii "Cache-Control") (ascii "max-age=0, no-cache"), .line (ascii "Pragma") (ascii "no-cache"),
      .line (ascii "Status") (ascii "200 OK"), .line (ascii "Set-Cookie") (ascii "a=1; HttpOnly; SameSite=Strict"),
      .blank, .body (ascii "hi")] := by
  have hrun : GuardedRun OutStep OutGuard (start [] none)
      [.setCookie { name := ascii "a", value := ascii "1" }, .output false (ascii "hi"), .shut] _ :=
    .cons ⟨⟨nofun, nofun⟩, nofun⟩ (by unfold OutStep; rfl)
      (.cons ⟨trivial, fun h => absurd h Bool.false_ne_true⟩ (by unfold OutStep; rfl)
        (.cons ⟨trivial, fun _ _ => trivial⟩ (by unfold OutStep; rfl) (.nil _)))
  have hreceive : receiveCookies [] = .ok [] := rfl
  exact (response_framed hreceive hrun).2 rfl (by decide)

def Sent.isLine : Sent → Bool
  | .line _ _ => true
  | _ => false

def Sent.isBody : Sent → Bool
  | .body _ => true
  | _ => false

/-- What is behind the first write that is no header line is body. -/
theorem FramedSoFar.body_behind (h : FramedSoFar sent) : (sent.dropWhile Sent.isLine).tail.all Sent.isBody = true := by
  have hlines : ∀ hs : List (Bytes × Bytes), ∀ s ∈ lines hs, s.isLine = true := by
    intro hs s hin
    obtain ⟨h, -, rfl⟩ := List.mem_map.mp hin
    rfl
  obtain ⟨hs, parts, rfl, -⟩ | ⟨hs, rfl, -⟩ := h
  · rw [List.dropWhile_append_of_pos (hlines hs), List.dropWhile_cons_of_neg Bool.false_ne_true, List.tail_cons]
    refine List.all_eq_true.mpr fun s hin => ?_
    obtain ⟨t, -, rfl⟩ := List.mem_map.mp hin
    rfl
  · rw [List.dropWhile_eq_nil_iff.mpr (hlines hs)]
    rfl

def sameFile : SendFile where
  fname := ascii "f"
  header := { etag := 1 }
  file := { mtime := some 5, size := some 1, data := some [120] }

/-- An error after `send-file` has answered that the file is not modified: there is a status and a content
type behind the empty line. -/
theorem response_not_framed : ¬ ∀ (cookies : List RimCookie) (ifNoneMatch : Option Bytes) (ops : List OutOp) (r : OutReq),
    receiveCookies [] = .ok cookies → Run OutStep (start cookies ifNoneMatch) ops r →
      FramedSoFar r.sent ∧ (r.isShut = true → r.sent ≠ [] → Framed r.sent) := by
  intro h
  have hrun : Run OutStep (start [] (some (ascii "5"))) [.sendFile sameFile, .output false (ascii "x")] _ :=
    .cons trivial (by unfold OutStep; rfl) (.cons trivial (by unfold OutStep; rfl) (.nil _))
  have hbody := (h [] _ _ _ rfl hrun).1.body_behind
  exact absurd hbody (by decide)

end RimStone
