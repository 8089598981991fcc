import Mathlib.Data.List.Nodup
import RimStone.Lib.Run
import RimStone.Manager.Command

/-!
# A command is done once for the client that asked

As long as a command is in the words, the server works on it at most once: the answer that it
stores takes it out. The one that goes wrong is a client that comes while the server still
works on a command whose client gave up. What it stores is taken for the old command, or the
answer to the old command for its own. So clients that store their command while the server is
not at work are served, each of them once.
-/

namespace RimStone

open RimStone.Lib

namespace SmState

variable {s s' : SmState} {tries : Nat} {comm : SmCommand} {act : SmAct}

/-- The server has seen a command, and has not stored its answer. -/
def SmServer.Busy : SmServer → Prop
  | .idle => False
  | .loaded word => word = .command
  | .work _ _ | .answer _ => True

/-- A client stores its command while the server is not at work on another one. -/
def Guard (s : SmState) : SmAct → Prop
  | .client => ∀ comm, s.client = some (comm, .storeData) → ¬ SmServer.Busy s.server
  | _ => True

/-- The command of the client that stored its command last was done. -/
def Served (s : SmState) : Prop := s.owner ∈ s.executed.map Prod.fst

/-- What the server is about to do is what it was asked, and was not done. -/
def ServerOk (s : SmState) : SmServer → Prop
  | .idle => True
  | .loaded word => word = .command → (∃ comm, s.data1 = .ask comm) ∧ ¬ s.Served
  | .work comm client => client = s.owner ∧ s.data1 = .ask comm ∧ ¬ s.Served
  | .answer word => word = .done ∧ s.Served

/-- The client waits: its command is to be done, or is done and the answer is on the way, or is
there. -/
structure Waits (s : SmState) (comm : SmCommand) : Prop where
  owner : s.owner = s.number
  asked : s.command = .command →
    s.data1 = .ask comm ∧ ¬ s.Served ∨ (s.owner, comm) ∈ s.executed ∧ s.server = .answer .done
  answered : s.command ≠ .command → (s.owner, comm) ∈ s.executed ∧ ¬ SmServer.Busy s.server

def ClientOk (s : SmState) : Option (SmCommand × SmClient) → Prop
  | none => s.owner < s.number ∧ s.command ≠ .command
  | some (_, .before _) | some (_, .look) | some (_, .storeData) => s.owner < s.number ∧ s.command ≠ .command
  | some (comm, .storeCommand) =>
    s.owner = s.number ∧ s.data1 = .ask comm ∧ ¬ s.Served ∧ s.command ≠ .command ∧ ¬ SmServer.Busy s.server
  | some (comm, .poll _) | some (comm, .timeout) | some (comm, .reset) => s.Waits comm
  | some (comm, .polled _ word) => s.Waits comm ∧ (word ≠ .command → s.command ≠ .command)

structure InStep (s : SmState) : Prop where
  once : (s.executed.map Prod.fst).Nodup
  past : ∀ n ∈ s.executed.map Prod.fst, n ≤ s.owner
  server : s.ServerOk s.server
  client : s.ClientOk s.client

theorem init_inStep : InStep init := ⟨List.nodup_nil, nofun, trivial, Nat.one_pos, SmWord.noConfusion⟩

/-- A client whose command is there waits for it. -/
theorem ClientOk.waits (h : s.ClientOk s.client) (hcommand : s.command = .command) : ∃ comm, s.Waits comm := by
  cases hc : s.client with
  | none =>
    rw [hc] at h
    exact absurd hcommand h.2
  | some x =>
    obtain ⟨comm, at_⟩ := x
    rw [hc] at h
    cases at_ with
    | before | look | storeData => exact absurd hcommand h.2
    | storeCommand => exact absurd hcommand h.2.2.2.1
    | poll | timeout | reset => exact ⟨comm, h⟩
    | polled n word => exact ⟨comm, h.1⟩

/-- What the client knows stays so when the server does something. -/
theorem ClientOk.imp (h : s.ClientOk s.client) (hclient : s'.client = s.client) (howner : s'.owner = s.owner)
    (hnumber : s'.number = s.number) (hcommand : s.command ≠ .command → s'.command ≠ .command)
    (hstore : ¬ SmServer.Busy s.server →
      s'.data1 = s.data1 ∧ (s'.Served ↔ s.Served) ∧ (s.command ≠ .command → ¬ SmServer.Busy s'.server))
    (hwaits : ∀ comm, s.Waits comm → s'.Waits comm) : s'.ClientOk s'.client := by
  have hbefore : s.owner < s.number ∧ s.command ≠ .command → s'.owner < s'.number ∧ s'.command ≠ .command := by
    rw [howner, hnumber]
    exact fun ⟨hlt, hc⟩ => ⟨hlt, hcommand hc⟩
  rw [hclient]
  cases hc : s.client with
  | none =>
    rw [hc] at h
    exact hbefore h
  | some x =>
    obtain ⟨comm, at_⟩ := x
    rw [hc] at h
    cases at_ with
    | before | look | storeData => exact hbefore h
    | storeCommand =>
      obtain ⟨hown, hask, hserved, hfree, hidle⟩ := h
      obtain ⟨hdata, hsame, hidle'⟩ := hstore hidle
      refine ⟨?_, ?_, ?_, hcommand hfree, hidle' hfree⟩
      · rw [howner, hnumber, hown]
      · rw [hdata, hask]
      · rwa [hsame]
    | poll | timeout | reset => exact hwaits comm h
    | polled n word => exact ⟨hwaits comm h.1, fun hw => hcommand (h.2 hw)⟩

/-- It stays so when only the place of the server changes, to one where it is no busier. -/
theorem ClientOk.move (h : s.ClientOk s.client) {server : SmServer}
    (hbusy : s.command ≠ .command → SmServer.Busy server → SmServer.Busy s.server)
    (hanswer : s.server ≠ .answer .done) : ({ s with server } : SmState).ClientOk s.client := by
  change ({ s with server } : SmState).ClientOk ({ s with server } : SmState).client
  refine h.imp rfl rfl rfl id (fun hidle => ?_) (fun comm hw => ?_)
  · exact ⟨rfl, Iff.rfl, fun hc hb => hidle (hbusy hc hb)⟩
  · refine ⟨hw.owner, fun hc => ?_, fun hc => ?_⟩
    · obtain hask | ⟨-, hans⟩ := hw.asked hc
      · exact .inl hask
      · exact absurd hans hanswer
    · obtain ⟨hdone, hidle⟩ := hw.answered hc
      exact ⟨hdone, fun hb => hidle (hbusy hc hb)⟩

/-! ## The steps of the server -/

theorem serverStep_idle (hs : s.server = .idle) : s.serverStep = { s with server := .loaded s.command } := by
  unfold serverStep
  rw [hs]

theorem serverStep_asked (hs : s.server = .loaded .command) (hask : s.data1 = .ask comm) :
    s.serverStep = { s with server := .work comm s.owner } := by
  unfold serverStep
  rw [hs, hask]
  rfl

theorem serverStep_unasked {word : SmWord} (hs : s.server = .loaded word) (hword : word ≠ .command) :
    s.serverStep = { s with server := .idle } := by
  unfold serverStep
  rw [hs]
  exact if_neg hword

theorem serverStep_work {client : Nat} (hs : s.server = .work comm client) :
    s.serverStep =
      { s with
        data1 := if comm = .status then .okay else s.data1
        executed := s.executed ++ [(client, comm)]
        server := .answer .done } := by
  unfold serverStep
  rw [hs]

theorem serverStep_answer {word : SmWord} (hs : s.server = .answer word) :
    s.serverStep = { s with command := word, server := .idle } := by
  unfold serverStep
  rw [hs]

/-- The work of a command: it is done for the client that asked. -/
theorem InStep.work {client : Nat} (h : InStep s) (hs : s.server = .work comm client) : InStep s.serverStep := by
  have hserver := h.server
  rw [hs] at hserver
  obtain ⟨rfl, hask, hserved⟩ := hserver
  have hbusy : SmServer.Busy s.server := by
    rw [hs]
    trivial
  rw [serverStep_work hs]
  have hids : (s.executed ++ [(s.owner, comm)]).map Prod.fst = s.executed.map Prod.fst ++ [s.owner] := List.map_append
  refine ⟨?_, fun n hn => ?_, ⟨rfl, ?_⟩, h.client.imp rfl rfl rfl id (fun hidle => absurd hbusy hidle) ?_⟩
  · show List.Nodup ((s.executed ++ [(s.owner, comm)]).map Prod.fst)
    rw [hids, ← List.concat_eq_append]
    exact List.Nodup.concat hserved h.once
  · rw [hids] at hn
    obtain hn | hn := List.mem_append.mp hn
    · exact h.past n hn
    · exact Nat.le_of_eq (List.mem_singleton.mp hn)
  · show s.owner ∈ (s.executed ++ [(s.owner, comm)]).map Prod.fst
    rw [hids]
    exact List.mem_append_right _ (List.mem_singleton_self _)
  · intro comm' hw
    refine ⟨hw.owner, fun hc => .inr ⟨?_, rfl⟩, fun hc => absurd hbusy (hw.answered hc).2⟩
    obtain ⟨hask', -⟩ | ⟨-, hans⟩ := hw.asked hc
    · obtain rfl : comm = comm' := SmData.ask.inj (hask.symm.trans hask')
      exact List.mem_append_right _ (List.mem_singleton_self _)
    · rw [hs] at hans
      exact absurd hans SmServer.noConfusion

/-- The answer takes the command out of the words. -/
theorem InStep.answer {word : SmWord} (h : InStep s) (hs : s.server = .answer word) : InStep s.serverStep := by
  have hserver := h.server
  rw [hs] at hserver
  obtain ⟨rfl, hserved⟩ := hserver
  have hbusy : SmServer.Busy s.server := by
    rw [hs]
    trivial
  rw [serverStep_answer hs]
  refine ⟨h.once, h.past, trivial,
    h.client.imp rfl rfl rfl (fun _ => SmWord.noConfusion) (fun hidle => absurd hbusy hidle) ?_⟩
  intro comm hw
  refine ⟨hw.owner, fun hc => absurd hc SmWord.noConfusion, fun _ => ⟨?_, not_false⟩⟩
  by_cases hc : s.command = .command
  · obtain ⟨-, hnot⟩ | ⟨hdone, -⟩ := hw.asked hc
    · exact absurd hserved hnot
    · exact hdone
  · exact (hw.answered hc).1

theorem InStep.serverStep (h : InStep s) : InStep s.serverStep := by
  have hserver := h.server
  cases hs : s.server with
  | idle =>
    have hanswer : s.server ≠ .answer .done := by
      rw [hs]
      exact SmServer.noConfusion
    rw [serverStep_idle hs]
    refine ⟨h.once, h.past, fun hc => ?_, h.client.move (fun hc hb => absurd hb hc) hanswer⟩
    obtain ⟨comm, hw⟩ := h.client.waits hc
    obtain ⟨hask, hserved⟩ | ⟨-, hans⟩ := hw.asked hc
    · exact ⟨⟨comm, hask⟩, hserved⟩
    · exact absurd hans hanswer
  | loaded word =>
    have hanswer : s.server ≠ .answer .done := by
      rw [hs]
      exact SmServer.noConfusion
    rw [hs] at hserver
    by_cases hword : word = .command
    · subst hword
      obtain ⟨⟨comm, hask⟩, hserved⟩ := hserver rfl
      rw [serverStep_asked hs hask]
      refine ⟨h.once, h.past, ⟨rfl, hask, hserved⟩, h.client.move (fun _ _ => ?_) hanswer⟩
      rw [hs]
      exact rfl
    · rw [serverStep_unasked hs hword]
      exact ⟨h.once, h.past, trivial, h.client.move (fun _ hb => hb.elim) hanswer⟩
  | work comm client => exact h.work hs
  | answer word => exact h.answer hs

/-! ## The steps of a client -/

theorem ServerOk.of_not_busy {server : SmServer} (h : ¬ SmServer.Busy server) : s.ServerOk server := by
  cases server with
  | idle => trivial
  | loaded word => exact fun hword => absurd hword h
  | work | answer => exact absurd trivial h

/-- Who waits does not depend on where the client is. -/
theorem Waits.client (hw : s.Waits comm) (client : Option (SmCommand × SmClient)) :
    ({ s with client } : SmState).Waits comm := ⟨hw.owner, hw.asked, hw.answered⟩

/-- A client stores what it asks for: the command of this number was not done. -/
theorem InStep.storeData (h : InStep s) (hs : s.client = some (comm, .storeData))
    (hidle : ¬ SmServer.Busy s.server) : InStep (s.clientStep tries comm .storeData) := by
  have hclient := h.client
  rw [hs] at hclient
  obtain ⟨hlt, hfree⟩ := hclient
  have hnew : s.number ∉ s.executed.map Prod.fst := by
    intro hmem
    have hle := h.past _ hmem
    omega
  have hpast : ∀ n ∈ s.executed.map Prod.fst, n ≤ s.number := by
    intro n hn
    have hle := h.past n hn
    omega
  exact ⟨h.once, hpast, ServerOk.of_not_busy hidle, rfl, rfl, hnew, hfree, hidle⟩

theorem InStep.clientStep {at_ : SmClient} (h : InStep s) (hs : s.client = some (comm, at_)) (hguard : Guard s .client) :
    InStep (s.clientStep tries comm at_) := by
  have hclient := h.client
  rw [hs] at hclient
  cases at_ with
  | before n =>
    show InStep (if s.command = .command then _ else _)
    rw [if_neg hclient.2]
    exact ⟨h.once, h.past, h.server, hclient⟩
  | look =>
    show InStep (if s.command = .command then _ else _)
    rw [if_neg hclient.2]
    exact ⟨h.once, h.past, h.server, hclient⟩
  | storeData => exact h.storeData hs (hguard comm hs)
  | storeCommand =>
    obtain ⟨hown, hask, hserved, -, hidle⟩ := hclient
    refine ⟨h.once, h.past, ServerOk.of_not_busy hidle, hown, fun _ => .inl ⟨hask, hserved⟩, fun hc => ?_⟩
    exact absurd rfl hc
  | poll n => exact ⟨h.once, h.past, h.server, hclient.client _, id⟩
  | polled n word =>
    obtain ⟨hw, hword⟩ := hclient
    by_cases hc : word = .command
    · by_cases hn : 0 < n
      · have hstep : s.clientStep tries comm (.polled n word) = { s with client := some (comm, .poll (n - 1)) } := by
          show (if word ≠ .command then _ else if 0 < n then _ else _) = _
          rw [if_neg (not_not_intro hc), if_pos hn]
        rw [hstep]
        exact ⟨h.once, h.past, h.server, hw.client _⟩
      · have hstep : s.clientStep tries comm (.polled n word) = { s with client := some (comm, .timeout) } := by
          show (if word ≠ .command then _ else if 0 < n then _ else _) = _
          rw [if_neg (not_not_intro hc), if_neg hn]
        rw [hstep]
        exact ⟨h.once, h.past, h.server, hw.client _⟩
    · have hstep : s.clientStep tries comm (.polled n word) = s.leave := if_pos hc
      rw [hstep]
      refine ⟨h.once, h.past, h.server, ?_, hword hc⟩
      show s.owner < s.number + 1
      rw [hw.owner]
      exact Nat.lt_succ_self _
  | timeout => exact ⟨h.once, h.past, h.server, hclient.client _⟩
  | reset =>
    refine ⟨h.once, h.past, h.server, ?_, SmWord.noConfusion⟩
    show s.owner < s.number + 1
    rw [hclient.owner]
    exact Nat.lt_succ_self _

/-! ## Runs -/

/-- A step that meets the guard keeps the server and the client in step. -/
theorem step_inStep (h : InStep s) (hguard : Guard s act) (hstep : Step tries s act s') : InStep s' := by
  cases act with
  | begin comm =>
    by_cases hnone : s.client = none
    · have hnext : s.next tries (.begin comm) = some { s with client := some (comm, .before tries) } := if_pos hnone
      obtain rfl := Option.some.inj (hnext.symm.trans hstep)
      have hclient := h.client
      rw [hnone] at hclient
      exact ⟨h.once, h.past, h.server, hclient⟩
    · have hnext : s.next tries (.begin comm) = none := if_neg hnone
      exact absurd (hnext.symm.trans hstep) (Option.some_ne_none _).symm
  | client =>
    obtain ⟨⟨comm, at_⟩, hs, hnext⟩ := Option.map_eq_some_iff.mp hstep
    rw [← hnext]
    exact h.clientStep hs hguard
  | server =>
    obtain rfl := Option.some.inj hstep
    exact h.serverStep

variable {acts : List SmAct}

theorem run_inStep (hrun : GuardedRun (Step tries) Guard init acts s) : InStep s :=
  hrun.invariant (fun h hguard hstep => step_inStep h hguard hstep) init_inStep

/-- Where no number stands twice, what a number stands with is all that stands with it. -/
theorem filter_fst_eq {α : Type} {l : List (Nat × α)} (hl : (l.map Prod.fst).Nodup) {x : Nat × α} (hx : x ∈ l) :
    l.filter (fun y => y.1 = x.1) = [x] := by
  induction l with
  | nil => exact absurd hx List.not_mem_nil
  | cons y l ih =>
    rw [List.map_cons, List.nodup_cons] at hl
    obtain ⟨hnot, hl⟩ := hl
    obtain rfl | hx := List.mem_cons.mp hx
    · have hrest : l.filter (fun y => y.1 = x.1) = [] := by
        refine List.filter_eq_nil_iff.mpr fun y hy => ?_
        simp only [decide_eq_true_eq]
        intro heq
        exact hnot (heq ▸ List.mem_map_of_mem hy)
      rw [List.filter_cons_of_pos (by simp), hrest]
    · have hne : y.1 ≠ x.1 := fun heq => hnot (heq ▸ List.mem_map_of_mem hx)
      rw [List.filter_cons_of_neg (by simpa using hne)]
      exact ih hl hx

/-- The client is about to leave the loop that waits for an answer: it has looked at `command`,
and `RIM_COMMAND` was no longer there. -/
def Acknowledged (s : SmState) (comm : SmCommand) : Prop :=
  ∃ n word, s.client = some (comm, .polled n word) ∧ word ≠ .command

/-- What was done for the client that runs is its command, once. -/
def DoneOnce (s : SmState) (comm : SmCommand) : Prop :=
  s.executed.filter (fun x => x.1 = s.number) = [(s.number, comm)]

/-- In a run whose clients store their command while the server is not at work on another one,
a client that leaves because its command is gone was served, and no client was served twice. -/
theorem run_served (hrun : GuardedRun (Step tries) Guard init acts s) :
    (∀ comm, s.Acknowledged comm → s.DoneOnce comm) ∧ (s.executed.map Prod.fst).Nodup := by
  have h := run_inStep hrun
  refine ⟨fun comm ⟨n, word, hs, hword⟩ => ?_, h.once⟩
  have hclient := h.client
  rw [hs] at hclient
  obtain ⟨hw, hgone⟩ := hclient
  have hdone := (hw.answered (hgone hword)).1
  rw [hw.owner] at hdone
  exact filter_fst_eq h.once hdone

/-- A client found the server idle, asked it to stop, and looks at its answer. -/
def stopAnswered : SmState :=
  { init with
    command := .done, data1 := .ask .stop, owner := 1
    client := some (.stop, .polled 1 .done), executed := [(1, .stop)] }

theorem run_served_stop : stopAnswered.Acknowledged .stop ∧ stopAnswered.DoneOnce .stop := by
  have hidle : ∀ {s : SmState}, s.server = .idle → Guard s .client := by
    intro s hs comm _ hb
    rw [hs] at hb
    exact hb
  have hrun : GuardedRun (Step 1) Guard init
      [.begin .stop, .client, .client, .client, .client, .server, .server, .server, .server, .client]
      stopAnswered :=
    .cons trivial rfl <| .cons (hidle rfl) rfl <| .cons (hidle rfl) rfl <| .cons (hidle rfl) rfl <|
      .cons (hidle rfl) rfl <| .cons trivial rfl <| .cons trivial rfl <| .cons trivial rfl <|
      .cons trivial rfl <| .cons (hidle rfl) rfl <| .nil _
  have hack : stopAnswered.Acknowledged .stop := ⟨1, .done, rfl, SmWord.noConfusion⟩
  exact ⟨hack, (run_served hrun).1 .stop hack⟩

/-- With `-s 5000`, a client waits for four looks at `command`. The command of the first client
took the server longer than that, so the client gave up; the answer to it is taken by the
second client for its own. -/
def startAnsweredLate : SmState :=
  { init with
    command := .done, data1 := .ask .stop, owner := 2, number := 2
    client := some (.stop, .polled 3 .done), executed := [(1, .start)] }

/-- A client leaves with an answer, and nothing was done for it. -/
theorem run_not_served : ∃ acts s, Run (Step (RIM_TRIES 5000)) init acts s ∧
    s.Acknowledged .stop ∧ ¬ s.DoneOnce .stop := by
  have hrun : Run (Step (RIM_TRIES 5000)) init
      ([.begin .start, .client, .client, .client, .client, .server, .server] ++ List.replicate 10 .client ++
        [.begin .stop, .client, .client, .client, .client, .server, .server, .client])
      startAnsweredLate :=
    .of_foldlM rfl fun _ _ => trivial
  refine ⟨_, startAnsweredLate, hrun, ⟨3, .done, rfl, SmWord.noConfusion⟩, ?_⟩
  show [(1, SmCommand.start)].filter (fun x => x.1 = 2) ≠ [(2, .stop)]
  decide

end SmState

end RimStone
