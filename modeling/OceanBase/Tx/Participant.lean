import OceanBase.Tx.Refinement

/-!
# One participant under arbitrary events

A participant by itself, with nothing known about the mails it receives: any mail from any sender
may arrive at any time, timeouts and client calls interleave with the callbacks of the log
service, and log submissions may fail. Its two states stay within a table of pairs, and the log in
flight, of which there is at most one, determines the in-memory state. So the durable state never
overtakes the in-memory state, and the callback of a log never finds the states wrong, which is
when the source aborts the process.

## Main results

* `downstream_le_upstream_and_apply_success`: both facts in every reachable state
-/

namespace OceanBase.Tx

open Ctx

variable {inc : Option Mail} {env : Env} {c c' : Ctx}

/-! ## The invariant -/

/-- The pairs of in-memory and durable states a participant can be in. -/
def StatesAllowed : ObTxState → ObTxState → Prop
  | .init, d => d = .init
  | .redoComplete, d => d = .init ∨ d = .redoComplete
  | .prepare, d => d = .init ∨ d = .redoComplete ∨ d = .prepare
  | .preCommit, d => d = .preCommit
  | .commit, d => d = .prepare ∨ d = .preCommit ∨ d = .commit
  | .abort, d => d = .init ∨ d = .redoComplete ∨ d = .prepare ∨ d = .abort
  | .clear, d => d = .commit ∨ d = .abort ∨ d = .clear
  | _, _ => False

/-- The pairs of states a submitted log is in flight in. -/
def Pending : LogType → ObTxState → ObTxState → Prop
  | .commitInfo, u, _ => u = .redoComplete
  | .prepare, u, d => u = .prepare ∧ (d = .init ∨ d = .redoComplete)
  | .commit, u, d => u = .commit ∧ (d = .prepare ∨ d = .preCommit)
  | .abort, u, d => u = .abort ∧ (d = .init ∨ d = .redoComplete ∨ d = .prepare)
  | .clear, u, d => u = .clear ∧ (d = .commit ∨ d = .abort)

/-- The final state of the transaction goes with the durable state. -/
def OutcomeRecorded : ObTxState → ObTxState → Prop
  | .commit, x => x = .commit
  | .abort, x => x = .abort
  | .clear, x => x = .commit ∨ x = .abort
  | _, x => x = .init

/-- **The invariant of a participant.** -/
structure LocalInv (c : Ctx) : Prop where
  states : StatesAllowed c.upstreamState c.downstreamState
  queue : c.logQueue = [] ∨
    ∃ t, c.logQueue = [t] ∧ Pending t c.upstreamState c.downstreamState
  outcome : OutcomeRecorded c.downstreamState c.txState

theorem StatesAllowed.le {u d} (h : StatesAllowed u d) : d ≤ u := by
  cases u <;> simp only [StatesAllowed] at h <;> rcases h with rfl | rfl | rfl | rfl <;> decide

theorem StatesAllowed.ne_unknown {u d} (h : StatesAllowed u d) : d ≠ .unknown := by
  rintro rfl
  cases u <;> simp [StatesAllowed] at h

theorem pending_of_decide2pcLogType {t : LogType} (hs : StatesAllowed c.upstreamState
    c.downstreamState) (h : c.decide2pcLogType.2 = some t) :
    Pending t c.upstreamState c.downstreamState := by
  obtain ⟨-, hlt, hcases⟩ := decide2pcLogType_cases h
  rcases hcases with ⟨rfl, hu⟩ | ⟨rfl, hu⟩ | ⟨rfl, hu, hd⟩ | ⟨rfl, hu, -⟩ | ⟨rfl, hu, hd⟩ <;>
    rw [hu] at hs hlt ⊢
  · rfl
  · refine ⟨rfl, ?_⟩
    rcases hs with h | h | h
    · exact .inl h
    · exact .inr h
    rw [h] at hlt
    exact absurd hlt (by decide)
  · exact ⟨rfl, hd⟩
  · refine ⟨rfl, ?_⟩
    rcases hs with h | h | h | h
    · exact .inl h
    · exact .inr (.inl h)
    · exact .inr (.inr h)
    rw [h] at hlt
    exact absurd hlt (by decide)
  · exact ⟨rfl, hd⟩

theorem statesAllowed_of_driveGuard {next} (hs : StatesAllowed c.upstreamState
    c.downstreamState) (hg : DriveGuard inc c next) : StatesAllowed next c.downstreamState := by
  cases next with
  | redoComplete => exact .inl hg
  | prepare =>
    rcases hg with h | h | h
    · exact .inl h
    · exact .inr (.inl h)
    -- before the prepare phase the durable state is at most redo-complete
    cases hu : c.upstreamState with
    | init => rw [hu] at hs; exact .inl hs
    | redoComplete => rw [hu] at hs; exact hs.imp_right .inl
    | unknown | max => rw [hu] at hs; exact hs.elim
    | prepare | preCommit | commit | abort | clear => rw [hu] at h; exact absurd h (by decide)
  | commit =>
    rcases hg with ⟨-, h, -⟩ | ⟨-, h⟩ | ⟨-, -, h⟩
    · rw [h] at hs
      exact .inr (.inl hs)
    · exact h.imp_right .inl
    · exact .inr (.inl h)
  | abort =>
    have hle : c.downstreamState ≤ .prepare := hg
    cases hd : c.downstreamState with
    | init => exact .inl rfl
    | redoComplete => exact .inr (.inl rfl)
    | prepare => exact .inr (.inr (.inl rfl))
    | unknown => exact absurd hd hs.ne_unknown
    | preCommit | commit | abort | clear | max => rw [hd] at hle; exact absurd hle (by decide)
  | clear => exact hg.1.imp_right .inl
  | unknown | init | preCommit | max => exact hg.elim

/-! ## Moves keep the invariant -/

theorem Move.localInv (h : Move inc c c') (hi : LocalInv c) : LocalInv c' := by
  cases h with
  | collect hinc hi' hself hack | post hsrc hdst hg => exact ⟨hi.states, hi.queue, hi.outcome⟩
  | drive hq hne hg =>
    exact ⟨statesAllowed_of_driveGuard (c := c) hi.states hg, .inl hq, hi.outcome⟩
  | redo hup =>
    have hs := hi.states
    rw [hup] at hs
    refine ⟨.inl hs, hi.queue.imp_right ?_, hi.outcome⟩
    -- no log goes with the initial state
    rintro ⟨t, -, ht⟩
    rw [hup] at ht
    cases t <;> simp [Pending] at ht
  | enterPreCommit hq hdown hs =>
    have ho := hi.outcome
    rw [hdown] at ho
    exact ⟨rfl, .inl hq, ho⟩
  | submit hq ht =>
    refine ⟨hi.states, .inr ⟨_, rfl, ?_⟩, hi.outcome⟩
    rcases ht with ht | ⟨rfl, hup⟩
    · exact pending_of_decide2pcLogType (c := c) hi.states ht
    · exact hup
  | pop hq =>
    refine ⟨hi.states, .inl ?_, hi.outcome⟩
    rcases hi.queue with h | ⟨t, h, -⟩
    · rw [hq] at h; cases h
    · rw [hq] at h; exact (List.cons.inj h).2
  | @applied t rest hq ht =>
    obtain ⟨t', hq', hp⟩ := hi.queue.resolve_left (by rw [hq]; simp)
    obtain ⟨rfl, rfl⟩ : t = t' ∧ rest = [] := by
      rw [hq] at hq'
      exact ⟨(List.cons.inj hq').1, (List.cons.inj hq').2⟩
    have ho := hi.outcome
    have hs := hi.states
    cases t with
    | commitInfo =>
      rw [hp] at hs
      refine ⟨?_, .inl rfl, ?_⟩
      · show StatesAllowed c.upstreamState .redoComplete
        rw [hp]
        exact .inr rfl
      · rcases hs with h | h <;> rw [h] at ho <;> exact ho
    | prepare =>
      refine ⟨?_, .inl rfl, ?_⟩
      · show StatesAllowed c.upstreamState .prepare
        rw [hp.1]
        exact .inr (.inr rfl)
      · rcases hp.2 with h | h <;> rw [h] at ho <;> exact ho
    | commit =>
      refine ⟨?_, .inl rfl, rfl⟩
      rw [hp.1]
      exact .inr (.inr rfl)
    | abort =>
      refine ⟨?_, .inl rfl, rfl⟩
      rw [hp.1]
      exact .inr (.inr (.inr rfl))
    | clear =>
      refine ⟨?_, .inl rfl, ?_⟩
      · show StatesAllowed c.upstreamState .clear
        rw [hp.1]
        exact .inr (.inr rfl)
      · rcases hp.2 with h | h <;> rw [h] at ho
        · exact .inl ho
        · exact .inr ho

theorem localInv_of_moves (h : Moves inc c c') (hi : LocalInv c) : LocalInv c' :=
  star_keeps (fun _ _ hm => hm.localInv) h hi

/-! ## The callback of a log succeeds -/

theorem onPreCommit_success (hrole : c.role ≠ .unknown) : (c.onPreCommit env).1 = .success := by
  have hrole' : (c.setDownstreamState .preCommit).role ≠ .unknown := hrole
  unfold onPreCommit
  dsimp only
  cases hr : (c.setDownstreamState .preCommit).role with
  | root => dsimp only; split <;> rfl
  | internal => rfl
  | leaf => rfl
  | unknown => exact absurd hr hrole'

theorem tryEnterPreCommitState_ret (env : Env) (hrole : c.role ≠ .unknown) :
    (c.tryEnterPreCommitState env).1 = .success ∨ (c.tryEnterPreCommitState env).1 = .eagain := by
  unfold tryEnterPreCommitState
  split
  · exact .inr rfl
  split
  · rename_i c' hd
    obtain ⟨-, s, -, rfl⟩ := drivePreCommit_success hd
    exact .inl (onPreCommit_success hrole)
  · exact .inl rfl

theorem role_ne_unknown_of_collected (h : c.allDownstreamCollected) : c.role ≠ .unknown := by
  intro hr
  simp [allDownstreamCollected, hr] at h

theorem finishPhase_success (type : MsgType) : (c.finishPhase env type).1 = .success := by
  unfold finishPhase
  split
  · rename_i hall
    have hrole := role_ne_unknown_of_collected hall
    split
    · split <;> rfl
    · rfl
    · rfl
    rename_i hr
    exact absurd hr hrole
  · rfl

theorem applyPrepareLog_success (ho : env.OnHooksSucceed) (hup : c.upstreamState = .prepare)
    (hdown : c.downstreamState = .init ∨ c.downstreamState = .redoComplete) :
    (c.applyPrepareLog env).1 = .success := by
  have hd : ¬ (c.downstreamState ≠ .init ∧ c.downstreamState ≠ .redoComplete) :=
    fun h => hdown.elim h.1 h.2
  unfold applyPrepareLog
  rw [if_neg (by simp [hup]), if_neg hd, if_neg (by simp [hup]), if_neg (by simp [ho.onPrepare])]
  dsimp only
  split
  · rename_i hall
    have hrole := role_ne_unknown_of_collected hall
    split
    · split
      · rfl
      rename_i hne he
      have := tryEnterPreCommitState_ret env hrole
      rw [he] at this
      exact this.resolve_right hne
    · rfl
    · rfl
    · rename_i hr
      exact absurd hr hrole
  · rfl

/-- **Under the invariant the callback of a submitted log succeeds**: the process is not
aborted. -/
theorem apply_success (hi : LocalInv c) (ho : env.OnHooksSucceed) : (c.apply env).1 = .success := by
  rcases hi.queue with hq | ⟨t, hq, hp⟩
  · simp [apply, hq]
  unfold apply
  cases t with
  | commitInfo =>
    rw [hq]
    dsimp only [applyLog, applyCommitInfoLog]
    split
    · rfl
    split
    · rfl
    split <;> rfl
  | prepare =>
    rw [hq]
    exact applyPrepareLog_success (c := { c with logQueue := [] }) ho hp.1 hp.2
  | commit =>
    rw [hq]
    obtain ⟨hup, hdown⟩ := hp
    dsimp only [applyLog, applyCommitLog]
    rw [if_neg (by rcases hdown with h | h <;> simp [h]), if_neg (by simp [hup]),
      if_neg (by simp [ho.onCommit])]
    exact finishPhase_success _
  | abort =>
    rw [hq]
    dsimp only [applyLog, applyAbortLog]
    rw [if_neg (by rcases hp.2 with h | h | h <;> simp [h]), if_neg (by simp [ho.onAbort])]
    exact finishPhase_success _
  | clear =>
    rw [hq]
    obtain ⟨hup, hdown⟩ := hp
    dsimp only [applyLog, applyClearLog]
    rw [if_neg (by rcases hdown with h | h <;> simp [h]), if_neg (by simp [hup]),
      if_neg (by simp [ho.onClear])]

/-! ## Runs of a participant -/

/-- One event of a participant: a client call, an arbitrary mail, a timeout, or the callback of a
submitted log. The `on_xxx` hooks succeed; the `do_xxx` hooks, the log service and the mailbox
answer as they like. -/
inductive ParticipantStep : Ctx → Ctx → Prop
  | commit (env : Env) (c : Ctx) : ParticipantStep c (c.commit env).2
  | twoPhaseCommit (env : Env) (c : Ctx) : ParticipantStep c (c.twoPhaseCommit env).2
  | twoPhaseAbort (env : Env) (c : Ctx) : ParticipantStep c (c.twoPhaseAbort env).2
  | prepareRedo (env : Env) (c : Ctx) : ParticipantStep c (c.prepareRedo env).2
  | continueExecution (env : Env) (isRollback : Bool) (c : Ctx) :
      ParticipantStep c (c.continueExecution env isRollback).2
  | handle (env : Env) (mail : Mail) (c : Ctx) : ParticipantStep c (c.handle env mail).2
  | handleTimeout (env : Env) (c : Ctx) : ParticipantStep c (c.handleTimeout env).2
  | apply (env : Env) (ho : env.OnHooksSucceed) (c : Ctx) : ParticipantStep c (c.apply env).2

/-- A context as `init` leaves it: any place in any tree, with or without a coordinator. -/
structure Ctx.IsInit (c : Ctx) : Prop where
  sender : c.sender = none
  upstreamState : c.upstreamState = .init
  downstreamState : c.downstreamState = .init
  txState : c.txState = .init
  logQueue : c.logQueue = []
  collected : c.collected = ∅
  outbox : c.outbox = []

/-- The context of a participant before anything has happened. -/
def Ctx.initial (addr : Addr) (coordinator : Option Addr) (participants : List Addr) : Ctx where
  addr := addr
  coordinator := coordinator
  sender := none
  participants := participants
  isSub2pc := false
  upstreamState := .init
  downstreamState := .init
  txState := .init
  logQueue := []
  collected := ∅
  outbox := []

theorem Ctx.initial_isInit (addr : Addr) (coordinator : Option Addr) (participants : List Addr) :
    (Ctx.initial addr coordinator participants).IsInit := ⟨rfl, rfl, rfl, rfl, rfl, rfl, rfl⟩

/-- The implementer that always succeeds. -/
def Env.agreeable : Env where
  is2pcBlocking := false
  doPrepare := (.success, false)
  doPreCommit := (.success, false)
  doCommit := .success
  doAbort := .success
  doClear := .success
  onPrepare := .success
  onCommit := .success
  onAbort := .success
  onClear := .success
  apply2pcMsg := .success
  mergeIntermediateParticipants := .success
  submitLog := fun _ => .success
  send := .success

theorem Env.agreeable_onHooksSucceed : Env.agreeable.OnHooksSucceed := ⟨rfl, rfl, rfl, rfl⟩

def participant : Machine Ctx where
  init := Ctx.IsInit
  step := ParticipantStep

theorem Ctx.IsInit.localInv (h : c.IsInit) : LocalInv c := by
  refine ⟨?_, .inl h.logQueue, ?_⟩
  · rw [h.upstreamState, h.downstreamState]
    exact rfl
  · rw [h.downstreamState, h.txState]
    exact rfl

theorem LocalInv.congr (hi : LocalInv c) (hu : c'.upstreamState = c.upstreamState)
    (hd : c'.downstreamState = c.downstreamState) (hx : c'.txState = c.txState)
    (hq : c'.logQueue = c.logQueue) : LocalInv c' := by
  obtain ⟨hs, hqueue, ho⟩ := hi
  rw [← hu, ← hd] at hs hqueue
  rw [← hd, ← hx] at ho
  rw [← hq] at hqueue
  exact ⟨hs, hqueue, ho⟩

theorem handle_localInv (env : Env) (mail : Mail) (hi : LocalInv c) :
    LocalInv (c.handle env mail).2 := by
  obtain ⟨c₀, hc₀, hm⟩ := dispatch_moves env (m := mail)
    (c := { c with sender := some mail.src }) rfl
  have hi₀ : LocalInv c₀ := by
    rw [hc₀]
    unfold learnCoordinator
    split <;> (try split) <;> exact hi.congr rfl rfl rfl rfl
  exact (localInv_of_moves hm hi₀).congr rfl rfl rfl rfl

theorem participantStep_localInv (h : ParticipantStep c c') (hi : LocalInv c)
    (hs : c.sender = none) : LocalInv c' ∧ c'.sender = none := by
  -- every event but a mail leaves the sender alone, being a sequence of moves
  have hmoves : ∀ {c c' : Ctx}, Moves none c c' → LocalInv c → c.sender = none →
      LocalInv c' ∧ c'.sender = none := fun hm hi hs =>
    ⟨localInv_of_moves hm hi, (sameFrame_of_moves hm).sender.trans hs⟩
  cases h with
  | commit env =>
    exact hmoves (twoPhaseCommit_moves env { c with coordinator := some c.addr })
      (hi.congr rfl rfl rfl rfl) hs
  | twoPhaseCommit env => exact hmoves (twoPhaseCommit_moves env c) hi hs
  | twoPhaseAbort env => exact hmoves (twoPhaseAbort_moves env c) hi hs
  | prepareRedo env => exact hmoves (prepareRedo_moves env c) hi hs
  | continueExecution env r => exact hmoves (continueExecution_moves env r c) hi hs
  | handle env mail => exact ⟨handle_localInv env mail hi, rfl⟩
  | handleTimeout env => exact hmoves (handleTimeout_moves rfl hs) hi hs
  | apply env ho => exact hmoves (apply_moves env c) hi hs

theorem localInv_of_reachable (h : participant.Reachable c) : LocalInv c :=
  (Machine.Reachable.of_keeps (M := participant) (I := fun c => LocalInv c ∧ c.sender = none)
    (fun _ hc => ⟨hc.localInv, hc.sender⟩)
    (fun _ _ hi hs => participantStep_localInv hs hi.1 hi.2) h).1

/-- **A participant never aborts the process.** In every state an arbitrary sequence of events
reaches, the durable state has not overtaken the in-memory state, and if a log is in flight then
its callback, `apply_log`, returns success. -/
theorem downstream_le_upstream_and_apply_success {c : Ctx} (h : participant.Reachable c) :
    c.downstreamState ≤ c.upstreamState ∧
      ∀ (env : Env) (type : LogType) (rest : List LogType), env.OnHooksSucceed →
        c.logQueue = type :: rest → (c.apply env).1 = .success := by
  have hi := localInv_of_reachable h
  exact ⟨hi.states.le, fun env _ _ ho _ => apply_success hi ho⟩

/-- A root with one other participant that has just been told to commit has its prepare log in
flight, and the callback of that log succeeds. -/
theorem root_prepare_log_applies : let c := ((Ctx.initial 0 none [0, 1]).commit .agreeable).2
    c.logQueue = [.prepare] ∧ c.downstreamState ≤ c.upstreamState ∧
      (c.apply .agreeable).1 = .success := by
  have hreach : participant.Reachable ((initial 0 none [0, 1]).commit .agreeable).2 :=
    .step (.init (initial_isInit 0 none [0, 1])) (.commit .agreeable _)
  have hq : ((initial 0 none [0, 1]).commit .agreeable).2.logQueue = [.prepare] := by decide
  obtain ⟨hle, happly⟩ := downstream_le_upstream_and_apply_success hreach
  exact ⟨hq, hle, happly .agreeable .prepare [] Env.agreeable_onHooksSucceed hq⟩

end OceanBase.Tx
