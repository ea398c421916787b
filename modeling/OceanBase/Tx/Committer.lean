import OceanBase.Tx.Context

/-!
# The cycle two phase committer

`ObTxCycleTwoPhaseCommitter` as functions on a context. Every function follows the function of
the source with the same name: it takes the answers of the implementer and a context, and returns
the return code with the new context. The handlers of requests dispatch on the durable state, the
handlers of responses on the in-memory state.

## Main definitions

* `Ctx.driveSelf2pcPhase`: the in-memory state transition, followed by the submission of its log
* `Ctx.handle2pcReq`, `Ctx.handle2pcResp`, `handleOrphan2pcReq`, `handleOrphan2pcResp`: the
  message handlers
* `Ctx.applyLog`: the callback of a synchronized log
* `Ctx.handleTimeout`, `Ctx.twoPhaseCommit`, `Ctx.twoPhaseAbort`
-/

namespace OceanBase.Tx

/-- Where a mail goes: the coordinator (`OB_C2PC_UPSTREAM_ID`), the sender of the message being
handled (`OB_C2PC_SENDER_ID`), or a downstream participant. -/
inductive Dest
  | upstream
  | sender
  | participant (id : ℕ)

namespace Ctx

variable (env : Env)

/-! ## Setters, posts and the submission of logs -/

/-- The durable state, with the final state of the transaction next to it. -/
def setDownstreamState (state : ObTxState) (c : Ctx) : Ctx :=
  { c with
    downstreamState := state
    txState := if state = .commit ∨ state = .abort then state else c.txState }

/-- The address a post goes to; `none` is the source's `-1`. -/
def resolve (dest : Dest) (c : Ctx) : Option Addr :=
  match dest with
  | .upstream => c.coordinator
  | .sender => c.sender <|> c.coordinator
  | .participant id => c.participants[id]?

/-- A post to the participant itself is dropped. -/
def postMsg (type : MsgType) (dest : Dest) (c : Ctx) : Ret × Ctx :=
  match c.resolve dest with
  | none =>
    match dest with
    | .upstream => (if type = .abortResp then .success else .invalidArgument, c)
    | _ => (.success, c)
  | some dst =>
    if c.addr = dst then (.success, c)
    else (env.send, { c with outbox := ⟨type, c.addr, dst⟩ :: c.outbox })

def postDownstreamMsg (type : MsgType) (c : Ctx) : Ret × Ctx :=
  (List.range c.getDownstreamSize).foldl
    (fun r id => if some id = r.2.getSelfId then r else r.2.postMsg env type (.participant id))
    (.success, c)

/-- The log the current pair of states calls for; the code is set in states that call for one
and cannot have it. -/
def decide2pcLogType (c : Ctx) : Ret × Option LogType :=
  if c.is2pcLogging then (.success, none)
  else if c.downstreamState < c.upstreamState then
    match c.upstreamState with
    | .init => (.success, none)
    | .redoComplete => (.success, some .commitInfo)
    | .prepare => (.success, some .prepare)
    | .preCommit => (.success, none)
    | .commit =>
      if c.downstreamState = .prepare ∨ c.downstreamState = .preCommit then
        (.success, some .commit)
      else (.transInvalidState, none)
    | .abort =>
      if c.downstreamState ≠ .commit then (.success, some .abort)
      else (.transInvalidState, none)
    | .clear =>
      if c.downstreamState = .commit ∨ c.downstreamState = .abort then
        (.success, some .clear)
      else (.transInvalidState, none)
    | _ => (.transInvalidState, none)
  else (.success, none)

/-- `submit_log`: the log is queued unless the log service refuses it. -/
def submitLog (type : LogType) (c : Ctx) : Ret × Ctx :=
  if env.submitLog type = .success then
    (.success, { c with logQueue := c.logQueue ++ [type] })
  else (env.submitLog type, c)

def submit2pcLog (c : Ctx) : Ret × Ctx :=
  match c.decide2pcLogType with
  | (ret, some type) => (ret, (c.submitLog env type).2)
  | (ret, none) => (ret, c)

/-! ## The in-memory state transition -/

/-- The `do_xxx` hook of a phase: its return code and `no_need_submit_log`. -/
def doPhase (next : ObTxState) (c : Ctx) : Ret × Bool :=
  match next with
  | .redoComplete => (.success, false)
  | .prepare => env.doPrepare
  | .preCommit =>
    let (ret, needWait) := env.doPreCommit
    if ret ≠ .success then (ret, false)
    else if needWait ∧ c.isRoot then (.eagain, false)
    else if needWait ∧ ¬ c.isRoot then (.errUnexpected, false)
    else (.success, false)
  | .commit => (env.doCommit, false)
  | .clear => (env.doClear, false)
  | .abort => (env.doAbort, false)
  | _ => (.errUnexpected, false)

/-- Enters a phase in memory and submits its log. -/
def driveSelf2pcPhase (next : ObTxState) (c : Ctx) : Ret × Ctx :=
  if c.is2pcLogging then (.eagain, c)
  else if env.is2pcBlocking then (.eagain, c)
  else if next = c.upstreamState then (.success, (c.submit2pcLog env).2)
  else
    let (ret, noNeedSubmitLog) := c.doPhase env next
    if ret ≠ .success then (ret, c)
    else if env.mergeIntermediateParticipants ≠ .success then
      (env.mergeIntermediateParticipants, c)
    else
      let c := { c with collected := ∅, upstreamState := next }
      if noNeedSubmitLog then (.success, c) else (.success, (c.submit2pcLog env).2)

/-- A downstream has responded in this phase. -/
def collectDownstream (participant : ℕ) (c : Ctx) : Ret × Ctx :=
  match c.role with
  | .root | .internal =>
    if some participant = c.getSelfId then (.success, c)
    else (.success, { c with collected := insert participant c.collected })
  | .leaf => (.success, c)
  | .unknown => (.errUnexpected, c)

/-! ## The pre-commit phase has no log: it is entered in memory and durably at once -/

/-- What follows when the phase is entered. -/
def onPreCommit (c : Ctx) : Ret × Ctx :=
  let c := c.setDownstreamState .preCommit
  match c.role with
  | .root =>
    if c.getDownstreamSize = 1 then (.success, (c.driveSelf2pcPhase env .commit).2)
    else (.success, (c.postDownstreamMsg env .preCommitReq).2)
  | .internal => (.success, (c.postDownstreamMsg env .preCommitReq).2)
  | .leaf => (.success, (c.postMsg env .preCommitResp .upstream).2)
  | .unknown => (.transInvalidState, c)

def tryEnterPreCommitState (c : Ctx) : Ret × Ctx :=
  if c.is2pcLogging then (.eagain, c)
  else
    match c.driveSelf2pcPhase env .preCommit with
    -- the code of a failed transition stays in `tmp_ret`
    | (.success, c) => c.onPreCommit env
    | (_, c) => (.success, c)

/-! ## Retransmission -/

/-- The request the in-memory state sends downstream; `none` when `need_submit` is false. -/
def decideDownstreamMsgType (c : Ctx) : Ret × Option MsgType :=
  match c.upstreamState with
  | .redoComplete => (.success, if c.isSub2pc then some .prepareRedoReq else none)
  | .prepare => (.success, some .prepareReq)
  | .preCommit => (.success, some .preCommitReq)
  | .commit => (.success, some .commitReq)
  | .abort => (.success, some .abortReq)
  | .clear => (.success, some .clearReq)
  | _ => (.transInvalidState, none)

/-- To every downstream that has not responded. -/
def retransmitDownstreamMsg (c : Ctx) : Ret × Ctx :=
  if (c.isRoot ∨ c.isInternal) ∧ c.isRealUpstream then
    match c.decideDownstreamMsgType with
    | (ret, some type) =>
      (ret, (List.range c.getDownstreamSize).foldl (fun c id =>
          if id ∉ c.collected ∧ some id ≠ c.getSelfId then
            (c.postMsg env type (.participant id)).2
          else c) c)
    | (ret, none) => (ret, c)
  else (.success, c)

/-- To the downstream that has just sent a response of an earlier phase. -/
def retransmitDownstreamMsgTo (participant : ℕ) (c : Ctx) : Ret × Ctx :=
  if c.isLeaf then (.success, c)
  else
    match c.decideDownstreamMsgType with
    | (ret, some type) => (ret, (c.postMsg env type (.participant participant)).2)
    | (ret, none) => (ret, c)

/-- Whether `retransmit_upstream_msg_` responds for `state`; `none` is an invalid role. -/
def needRespond (state : ObTxState) (c : Ctx) : Option Bool :=
  match c.role with
  | .root => some (¬ c.isRealUpstream)
  | .internal =>
    some (((c.allDownstreamCollected ∨ ¬ c.isRealUpstream) ∧ c.downstreamState = state) ∨
      state < c.downstreamState)
  | .leaf => some (state ≤ c.downstreamState)
  | .unknown => none

/-- The response of a state; the code is set for the states that have none. -/
def respondType (state : ObTxState) (c : Ctx) : Ret × Option MsgType :=
  match state with
  | .init => (.success, none)
  | .redoComplete => (.success, if c.isSub2pc then some .prepareRedoResp else none)
  | .prepare => (.success, some .prepareResp)
  | .preCommit => (.success, some .preCommitResp)
  | .commit => (.success, some .commitResp)
  | .abort => (.success, some .abortResp)
  | .clear => (.notSupported, none)
  | _ => (.transInvalidState, none)

/-- To the sender of the request being handled. -/
def retransmitUpstreamMsg (state : ObTxState) (c : Ctx) : Ret × Ctx :=
  if c.upstreamState < c.downstreamState then (.invalidArgument, c)
  else
    match c.needRespond state with
    | none => (.transInvalidState, c)
    | some false => (.success, c)
    | some true =>
      match c.respondType state with
      | (ret, some type) => (ret, (c.postMsg env type .sender).2)
      | (ret, none) => (ret, c)

/-! ## Starting the protocol -/

/-- The root starts the protocol. -/
def twoPhaseCommit (c : Ctx) : Ret × Ctx :=
  if ObTxState.prepare ≤ c.upstreamState then (.success, c)
  else if c.is2pcLogging then (.success, c)
  else
    match c.driveSelf2pcPhase env .prepare with
    | (.success, c) => (.success, (c.postDownstreamMsg env .prepareReq).2)
    | (ret, c) => (ret, c)

def twoPhaseAbort (c : Ctx) : Ret × Ctx :=
  if c.downstreamState ≠ .init then (.stateNotMatch, c)
  else if c.is2pcLogging then (.eagain, c)
  else
    match c.driveSelf2pcPhase env .abort with
    | (.success, c) => (.success, (c.postDownstreamMsg env .abortReq).2)
    | (ret, c) => (ret, c)

/-- `prepare_redo`: the first phase of an xa transaction. -/
def prepareRedo (c : Ctx) : Ret × Ctx :=
  if c.upstreamState ≠ .init then (.success, c)
  else if c.is2pcLogging then (.success, c)
  else
    let c := { c with upstreamState := .redoComplete, collected := ∅ }
    let c := (c.postDownstreamMsg env .prepareRedoReq).2
    (.success, (c.submitLog env .commitInfo).2)

/-- `continue_execution`: the second phase of an xa transaction. -/
def continueExecution (isRollback : Bool) (c : Ctx) : Ret × Ctx :=
  if c.is2pcLogging then (.success, c)
  else if ObTxState.redoComplete < c.upstreamState ∨
      ObTxState.redoComplete < c.downstreamState then (.success, c)
  else if isRollback then
    match c.driveSelf2pcPhase env .abort with
    | (.success, c) => (.success, (c.postDownstreamMsg env .abortReq).2)
    | (ret, c) => (ret, c)
  else
    match c.driveSelf2pcPhase env .prepare with
    | (.success, c) => (.success, (c.postDownstreamMsg env .prepareReq).2)
    | (ret, c) => (ret, c)

/-! ## Requests: handled by the durable state -/

/-- The common body of the request handlers: apply the message, enter the phase, and forward the
request when internal. The return code of the forwarding is kept by the abort and clear handlers
only. -/
def handleRequestImpl (next : ObTxState) (type : MsgType) (keepPostRet : Bool)
    (c : Ctx) : Ret × Ctx :=
  if c.is2pcLogging then (.success, c)
  else if env.apply2pcMsg ≠ .success then (env.apply2pcMsg, c)
  else
    match c.driveSelf2pcPhase env next with
    | (.success, c) =>
      match c.role with
      | .root => (.errUnexpected, c)
      | .internal =>
        let (ret, c) := c.postDownstreamMsg env type
        (if keepPostRet then ret else .success, c)
      | .leaf => (.success, c)
      | .unknown => (.errUnexpected, c)
    | (ret, c) => (ret, c)

def handle2pcPrepareRequestImpl : Ctx → Ret × Ctx :=
  handleRequestImpl env .prepare .prepareReq false

def handle2pcCommitRequestImpl : Ctx → Ret × Ctx :=
  handleRequestImpl env .commit .commitReq false

def handle2pcAbortRequestImpl : Ctx → Ret × Ctx :=
  handleRequestImpl env .abort .abortReq true

def handle2pcClearRequestImpl : Ctx → Ret × Ctx :=
  handleRequestImpl env .clear .clearReq true

/-- Both retransmissions; their codes stay in `tmp_ret`. -/
def retransmitMsgs (state : ObTxState) (c : Ctx) : Ctx :=
  ((c.retransmitDownstreamMsg env).2.retransmitUpstreamMsg env state).2

section

variable (c : Ctx)

def handle2pcPrepareRequest : Ret × Ctx :=
  match c.downstreamState with
  | .init | .redoComplete => c.handle2pcPrepareRequestImpl env
  | .prepare => (.success, c.retransmitMsgs env .prepare)
  | .abort =>
    if env.apply2pcMsg ≠ .success then (env.apply2pcMsg, c)
    else (.success, c.retransmitMsgs env .abort)
  | .preCommit | .commit => (.success, c.retransmitMsgs env .prepare)
  | .clear => (.success, c)
  | _ => (.transInvalidState, c)

def handle2pcCommitRequest : Ret × Ctx :=
  match c.downstreamState with
  | .init | .redoComplete => (.transProtocolError, c)
  | .prepare | .preCommit => c.handle2pcCommitRequestImpl env
  | .commit => (c.retransmitDownstreamMsg env).2.retransmitUpstreamMsg env .commit
  | .abort => (.transProtocolError, c)
  | .clear => (.success, c)
  | _ => (.transInvalidState, c)

def handle2pcAbortRequest : Ret × Ctx :=
  match c.downstreamState with
  | .init | .redoComplete | .prepare => c.handle2pcAbortRequestImpl env
  | .preCommit => (.transProtocolError, c)
  -- presumed abort: a forgotten coordinator answers an old prepare response with an abort
  -- request, which the committed participant skips
  | .commit => (.success, c)
  | .abort =>
    if env.apply2pcMsg ≠ .success then (env.apply2pcMsg, c)
    else (c.retransmitDownstreamMsg env).2.retransmitUpstreamMsg env .abort
  | .clear => (.success, c)
  | _ => (.transInvalidState, c)

def handle2pcPreCommitRequest : Ret × Ctx :=
  match c.downstreamState with
  | .init | .redoComplete => (.transProtocolError, c)
  | .prepare =>
    if env.apply2pcMsg ≠ .success then (env.apply2pcMsg, c)
    else c.tryEnterPreCommitState env
  | .preCommit | .commit =>
    (c.retransmitDownstreamMsg env).2.retransmitUpstreamMsg env .preCommit
  | .abort => (.transProtocolError, c)
  | .clear => (.success, c)
  | _ => (.transInvalidState, c)

def handle2pcClearRequest : Ret × Ctx :=
  match c.downstreamState with
  | .init => (.success, c)
  | .prepare | .preCommit => (.transProtocolError, c)
  | .commit | .abort => c.handle2pcClearRequestImpl env
  | .clear => (.success, c)
  | _ => (.transInvalidState, c)

def handle2pcPrepareRedoRequest : Ret × Ctx :=
  if ¬ c.isSub2pc then (.errUnexpected, c)
  else
    match c.downstreamState with
    | .init =>
      if c.is2pcLogging then (.success, c)
      else if env.apply2pcMsg ≠ .success then (env.apply2pcMsg, c)
      else
        match c.driveSelf2pcPhase env .redoComplete with
        | (.success, c) =>
          (.success, if c.isInternal then (c.postDownstreamMsg env .prepareRedoReq).2 else c)
        | (ret, c) => (ret, c)
    | .redoComplete =>
      let c' := if c.upstreamState = .redoComplete ∧ c.allDownstreamCollected then c
        else (c.retransmitDownstreamMsg env).2
      (.success, if c.upstreamState = .prepare then c'
        else (c'.retransmitUpstreamMsg env .redoComplete).2)
    | .prepare => (.success, c.retransmitMsgs env .prepare)
    | .abort => (.success, c.retransmitMsgs env .abort)
    | .preCommit | .commit | .clear => (.success, c)
    | _ => (.transInvalidState, c)

end

def handle2pcReq (type : MsgType) (c : Ctx) : Ret × Ctx :=
  match type with
  | .prepareRedoReq => c.handle2pcPrepareRedoRequest env
  | .prepareReq => c.handle2pcPrepareRequest env
  | .preCommitReq => c.handle2pcPreCommitRequest env
  | .commitReq => c.handle2pcCommitRequest env
  | .abortReq => c.handle2pcAbortRequest env
  | .clearReq => c.handle2pcClearRequest env
  | _ => (.transInvalidState, c)

/-! ## Responses: handled by the in-memory state -/

section

variable (participant : ℕ)

section

variable (c : Ctx)

def handle2pcPrepareResponseImpl : Ret × Ctx :=
  let downstreamState := c.downstreamState
  if env.apply2pcMsg ≠ .success then (env.apply2pcMsg, c)
  else
    match c.collectDownstream participant with
    | (.success, c) =>
      if c.is2pcLogging then (.success, c)
      else if downstreamState = .prepare ∧ c.allDownstreamCollected then
        match c.role with
        | .root => c.tryEnterPreCommitState env
        | .internal => c.postMsg env .prepareResp .upstream
        | .leaf => (.errUnexpected, c)
        | .unknown => (.errUnexpected, c)
      else (.success, c)
    | (ret, c) => (ret, c)

def handle2pcPrepareResponse : Ret × Ctx :=
  match c.upstreamState with
  | .init => (.success, c)
  | .redoComplete =>
    if c.isSub2pc then c.driveSelf2pcPhase env .prepare else (.success, c)
  | .prepare => c.handle2pcPrepareResponseImpl env participant
  | .preCommit | .commit | .abort => (.success, (c.retransmitDownstreamMsgTo env participant).2)
  | .clear => (.success, c)
  | _ => (.transInvalidState, c)

def handle2pcPreCommitResponseImpl : Ret × Ctx :=
  if env.apply2pcMsg ≠ .success then (env.apply2pcMsg, c)
  else
    match c.collectDownstream participant with
    | (.success, c) =>
      if c.allDownstreamCollected then
        match c.role with
        | .root =>
          match c.driveSelf2pcPhase env .commit with
          | (.success, c) => (.success, (c.postDownstreamMsg env .commitReq).2)
          | (ret, c) => (ret, c)
        | .internal => c.postMsg env .preCommitResp .upstream
        | .leaf => (.errUnexpected, c)
        | .unknown => (.errUnexpected, c)
      else (.success, c)
    | (ret, c) => (ret, c)

def handle2pcPreCommitResponse : Ret × Ctx :=
  match c.upstreamState with
  | .init | .redoComplete => (.transProtocolError, c)
  | .prepare => (.success, c)
  | .preCommit => c.handle2pcPreCommitResponseImpl env participant
  | .commit => c.retransmitDownstreamMsgTo env participant
  | .abort => (.transProtocolError, c)
  | .clear => c.retransmitDownstreamMsgTo env participant
  | _ => (.transInvalidState, c)

/-- The acknowledgement of a commit or an abort. In the commit state an abort response counts
too: a downstream that has forgotten the transaction answers by presumed abort. -/
def handle2pcAckResponseImpl : Ret × Ctx :=
  let downstreamState := c.downstreamState
  if (c.upstreamState = .commit ∨ c.upstreamState = .abort) ∧ env.apply2pcMsg ≠ .success then
    (.success, c)
  else
    match c.collectDownstream participant with
    | (.success, c) =>
      if c.is2pcLogging then (.success, c)
      else if (downstreamState = .commit ∨ downstreamState = .abort) ∧
          c.allDownstreamCollected then
        match c.role with
        | .root =>
          match c.driveSelf2pcPhase env .clear with
          | (.success, c) => (.success, (c.postDownstreamMsg env .clearReq).2)
          | (ret, c) => (ret, c)
        | .internal =>
          let type := match c.upstreamState with
            | .preCommit => MsgType.preCommitResp
            | .commit => .commitResp
            | _ => .abortResp
          (.success, (c.postMsg env type .upstream).2)
        | .leaf => (.errUnexpected, c)
        | .unknown => (.errUnexpected, c)
      else (.success, c)
    | (ret, c) => (ret, c)

def handle2pcCommitResponse : Ret × Ctx :=
  match c.upstreamState with
  | .init | .redoComplete => (.transProtocolError, c)
  | .prepare | .preCommit => (.success, c)
  | .commit => c.handle2pcAckResponseImpl env participant
  | .abort => (.transProtocolError, c)
  | .clear => c.retransmitDownstreamMsgTo env participant
  | _ => (.transInvalidState, c)

/-- The first abort response: enter the abort phase. -/
def handle2pcAbortResponseImpl : Ret × Ctx :=
  if c.downstreamState ≠ .init ∧ c.downstreamState ≠ .redoComplete ∧
      c.downstreamState ≠ .prepare then (.transInvalidState, c)
  else if c.is2pcLogging then (.success, c)
  else if c.upstreamState = .init ∨ c.upstreamState = .redoComplete ∨
      c.upstreamState = .prepare then
    match c.role with
    | .root | .internal =>
      if env.apply2pcMsg ≠ .success then (env.apply2pcMsg, c)
      else
        match c.driveSelf2pcPhase env .abort with
        | (.success, c) =>
          match c.collectDownstream participant with
          | (.success, c) => (.success, (c.postDownstreamMsg env .abortReq).2)
          | (ret, c) => (ret, c)
        | (ret, c) => (ret, c)
    | .leaf => (.errUnexpected, c)
    | .unknown => (.errUnexpected, c)
  else (.transInvalidState, c)

def handle2pcAbortResponse : Ret × Ctx :=
  match c.upstreamState with
  | .init | .redoComplete | .prepare => c.handle2pcAbortResponseImpl env participant
  | .commit | .abort => c.handle2pcAckResponseImpl env participant
  | .clear => c.retransmitDownstreamMsgTo env participant
  | _ => (.transInvalidState, c)

def handle2pcPrepareRedoResponseImpl : Ret × Ctx :=
  let state := c.downstreamState
  match c.collectDownstream participant with
  | (.success, c) =>
    if c.is2pcLogging then (.success, c)
    else if state = .redoComplete ∧ c.allDownstreamCollected then
      -- the root replies to the scheduler
      if c.isRoot then (.success, c)
      else (.success, (c.postMsg env .prepareRedoResp .upstream).2)
    else (.success, c)
  | (ret, c) => (ret, c)

def handle2pcPrepareRedoResponse : Ret × Ctx :=
  if ¬ c.isSub2pc then (.errUnexpected, c)
  else
    match c.upstreamState with
    | .init =>
      { c with upstreamState := .redoComplete, collected := ∅ }.handle2pcPrepareRedoResponseImpl
        env participant
    | .redoComplete => c.handle2pcPrepareRedoResponseImpl env participant
    | .prepare | .preCommit | .commit | .abort => c.retransmitDownstreamMsgTo env participant
    | .clear => (.success, c)
    | _ => (.transInvalidState, c)

end

end

def handle2pcResp (type : MsgType) (participant : ℕ) (c : Ctx) : Ret × Ctx :=
  match type with
  | .prepareRedoResp => c.handle2pcPrepareRedoResponse env participant
  | .prepareResp => c.handle2pcPrepareResponse env participant
  | .preCommitResp => c.handle2pcPreCommitResponse env participant
  | .commitResp => c.handle2pcCommitResponse env participant
  | .abortResp => c.handle2pcAbortResponse env participant
  | .clearResp => (.success, c)
  | _ => (.transInvalidState, c)

/-! ## Callbacks of synchronized logs -/

def applyCommitInfoLog (c : Ctx) : Ret × Ctx :=
  if ¬ c.isSub2pc then (.success, c)
  else if c.downstreamState = .abort then (.success, c)
  else if (c.isInternal ∨ c.isLeaf) ∧ c.allDownstreamCollected then
    (.success, (c.postMsg env .prepareRedoResp .upstream).2)
  else (.success, c)

/-- The participant is prepared, and responds once its downstreams have. -/
def applyPrepareLog (c : Ctx) : Ret × Ctx :=
  if c.upstreamState = .abort then (.success, c)
  else if c.downstreamState ≠ .init ∧ c.downstreamState ≠ .redoComplete then
    (.transInvalidState, c)
  else if c.upstreamState ≠ .prepare then (.transInvalidState, c)
  else if env.onPrepare ≠ .success then (env.onPrepare, c)
  else
    let c := c.setDownstreamState .prepare
    if c.allDownstreamCollected then
      match c.role with
      | .root =>
        match c.tryEnterPreCommitState env with
        | (.eagain, c) => (.success, c)
        | (ret, c) => (ret, c)
      | .internal | .leaf => (.success, (c.postMsg env .prepareResp .upstream).2)
      | .unknown => (.transInvalidState, c)
    else (.success, c)

/-- What a commit or an abort log does once its outcome is durable and every downstream has
acknowledged it. -/
def finishPhase (type : MsgType) (c : Ctx) : Ret × Ctx :=
  if c.allDownstreamCollected then
    match c.role with
    | .root =>
      match c.driveSelf2pcPhase env .clear with
      | (.success, c) => (.success, (c.postDownstreamMsg env .clearReq).2)
      | (_, c) => (.success, c)
    | .internal | .leaf => (.success, (c.postMsg env type .upstream).2)
    | .unknown => (.errUnexpected, c)
  else (.success, c)

def applyCommitLog (c : Ctx) : Ret × Ctx :=
  if c.downstreamState ≠ .prepare ∧ c.downstreamState ≠ .preCommit ∧
      c.downstreamState ≠ .commit then (.transInvalidState, c)
  else if c.upstreamState ≠ .commit then (.transInvalidState, c)
  else if env.onCommit ≠ .success then (env.onCommit, c)
  else (c.setDownstreamState .commit).finishPhase env .commitResp

def applyAbortLog (c : Ctx) : Ret × Ctx :=
  if c.downstreamState ≠ .init ∧ c.downstreamState ≠ .redoComplete ∧
      c.downstreamState ≠ .prepare then (.transInvalidState, c)
  else if env.onAbort ≠ .success then (env.onAbort, c)
  else (c.setDownstreamState .abort).finishPhase env .abortResp

def applyClearLog (c : Ctx) : Ret × Ctx :=
  if c.downstreamState ≠ .commit ∧ c.downstreamState ≠ .abort then (.transInvalidState, c)
  else if c.upstreamState ≠ .clear then (.transInvalidState, c)
  else if env.onClear ≠ .success then (env.onClear, c)
  else (.success, c.setDownstreamState .clear)

/-- `apply_log`; the process is aborted (`ob_abort`) when the code is not `success`. -/
def applyLog (type : LogType) (c : Ctx) : Ret × Ctx :=
  match type with
  | .commitInfo => c.applyCommitInfoLog env
  | .prepare => c.applyPrepareLog env
  | .commit => c.applyCommitLog env
  | .abort => c.applyAbortLog env
  | .clear => c.applyClearLog env

/-- The log service reports the first queued log synchronized: the log leaves the queue, a
commit-info log makes the redo durable, and `apply_log` runs. Without a queued log nothing
happens. -/
def apply (c : Ctx) : Ret × Ctx :=
  match c.logQueue with
  | [] => (.success, c)
  | .commitInfo :: rest =>
    ({ c with logQueue := rest }.setDownstreamState .redoComplete).applyLog env .commitInfo
  | type :: rest => { c with logQueue := rest }.applyLog env type

/-! ## Timeouts -/

/-- The phase that follows. -/
def decideNextState (curState : ObTxState) : ObTxState :=
  match curState with
  | .init => .redoComplete
  | .redoComplete => .prepare
  | .prepare => .preCommit
  | .preCommit => .commit
  | .commit => .clear
  | .abort => .clear
  | _ => .unknown

/-- The timeout of a root without other participants, which no message can drive. -/
def driveSingle (c : Ctx) : Ctx :=
  let c :=
    if c.upstreamState = c.downstreamState ∧ c.downstreamState < .clear ∧
        .prepare ≤ c.downstreamState then
      (c.driveSelf2pcPhase env (decideNextState c.downstreamState)).2
    else c
  if c.upstreamState = .preCommit ∧ c.downstreamState = .prepare then (c.onPreCommit env).2
  else c

/-- Logs and messages are sent again. -/
def handleTimeout (c : Ctx) : Ret × Ctx :=
  let c := (c.submit2pcLog env).2
  let c := if c.isRoot ∨ c.isInternal then (c.retransmitDownstreamMsg env).2 else c
  let c := if c.isInternal ∨ c.isLeaf then
      (c.retransmitUpstreamMsg env c.downstreamState).2
    else c
  (.success, if c.isRoot ∧ c.getDownstreamSize = 1 ∧ ¬ c.is2pcLogging then c.driveSingle env else c)

/-! ## Delivery of a mail -/

/-- The coordinator of a participant is whoever first sends it a request. -/
def learnCoordinator (mail : Mail) (c : Ctx) : Ctx :=
  if mail.type.is2pcRequestMsg ∧ c.coordinator = none then
    { c with coordinator := some mail.src }
  else c

/-- Handling a mail once its sender is recorded. -/
def dispatch (mail : Mail) (c : Ctx) : Ret × Ctx :=
  if mail.type.is2pcRequestMsg then (c.learnCoordinator mail).handle2pcReq env mail.type
  else
    match c.findParticipantId mail.src with
    | none => (.invalidArgument, c)
    | some participant => c.handle2pcResp env mail.type participant

def handle (mail : Mail) (c : Ctx) : Ret × Ctx :=
  let (ret, c) := { c with sender := some mail.src }.dispatch env mail
  (ret, { c with sender := none })

/-- `commit`: the participant the client commits through is the root. -/
def commit (c : Ctx) : Ret × Ctx :=
  { c with coordinator := some c.addr }.twoPhaseCommit env

end Ctx

/-! ## Messages to a forgotten context -/

/-- The answer to a request whose context no longer exists: presumed abort. -/
def handleOrphan2pcReq (type : MsgType) : Option MsgType :=
  match type with
  | .prepareRedoReq | .prepareReq | .preCommitReq | .commitReq | .abortReq => some .abortResp
  | _ => none

/-- The answer to a response whose context no longer exists. -/
def handleOrphan2pcResp (type : MsgType) : Option MsgType :=
  match type with
  | .prepareRedoResp | .prepareResp | .preCommitResp => some .abortReq
  | .commitResp | .abortResp => some .clearReq
  | _ => none

/-- The answer to any message without a context. -/
def handleOrphan (type : MsgType) : Option MsgType :=
  if type.is2pcRequestMsg then handleOrphan2pcReq type else handleOrphan2pcResp type

end OceanBase.Tx
