import Mathlib

/-!
# The participant context of the cycle two phase commit

The data of one participant of `ObTxCycleTwoPhaseCommitter`: its in-memory (upstream) state, its
durable (downstream) state, the log it has submitted and not yet synchronized, the set of
downstream participants whose response to the current phase has been collected, and the mails it
has posted. The context is the one the committer is run with in the source
(`MockOb2pcCtx`); what the committer asks its implementer for (the `do_xxx` and `on_xxx` hooks,
the log service, the blocking flag) is an `Env`, a set of answers chosen afresh for every event.

## Main definitions

* `Env`
* `ObTxState`, `LogType`, `MsgType`, `Ob2PCRole`: the enumerations of the source
* `Ctx`: the context of a participant
* `Ctx.role`, `Ctx.allDownstreamCollected`: the position in the tree and the collected bit set
-/

namespace OceanBase.Tx

/-- Addresses of participants; the source's `-1` is `none` in an `Option Addr`. -/
abbrev Addr := ℕ

inductive ObTxState
  | unknown | init | redoComplete | prepare | preCommit | commit | abort | clear | max
  deriving DecidableEq

/-- The value of a state in the source; states are compared by it. -/
def ObTxState.val : ObTxState → ℕ
  | .unknown => 0
  | .init => 10
  | .redoComplete => 20
  | .prepare => 30
  | .preCommit => 40
  | .commit => 50
  | .abort => 60
  | .clear => 70
  | .max => 100

instance : LE ObTxState := ⟨fun a b => a.val ≤ b.val⟩
instance : LT ObTxState := ⟨fun a b => a.val < b.val⟩
instance (a b : ObTxState) : Decidable (a ≤ b) := inferInstanceAs (Decidable (a.val ≤ b.val))
instance (a b : ObTxState) : Decidable (a < b) := inferInstanceAs (Decidable (a.val < b.val))

/-- The logs a committer submits (`OB_LOG_TX_*`). -/
inductive LogType
  | commitInfo | prepare | commit | abort | clear
  deriving DecidableEq

/-- The messages of the protocol (`OB_MSG_TX_*`). -/
inductive MsgType
  | prepareRedoReq | prepareReq | preCommitReq | commitReq | abortReq | clearReq
  | prepareRedoResp | prepareResp | preCommitResp | commitResp | abortResp | clearResp
  deriving DecidableEq

def MsgType.is2pcRequestMsg : MsgType → Bool
  | .prepareRedoReq | .prepareReq | .preCommitReq | .commitReq | .abortReq | .clearReq => true
  | _ => false

inductive Ob2PCRole
  | unknown | root | internal | leaf
  deriving DecidableEq

/-- Return codes; `other` stands for whatever code a hook fails with. -/
inductive Ret
  | success | eagain | stateNotMatch | errUnexpected | transInvalidState | transProtocolError
  | invalidArgument | notSupported | transKilled | other (code : ℤ)
  deriving DecidableEq

structure Mail where
  type : MsgType
  src : Addr
  dst : Addr
  deriving DecidableEq

/-- The answers the implementer of the committer gives during one event. A committer calls each
hook, and submits each type of log, at most once per event. -/
structure Env where
  is2pcBlocking : Bool
  /-- `do_prepare`: the return code and `no_need_submit_log` -/
  doPrepare : Ret × Bool
  /-- `do_pre_commit`: the return code and `need_wait` -/
  doPreCommit : Ret × Bool
  doCommit : Ret
  doAbort : Ret
  doClear : Ret
  onPrepare : Ret
  onCommit : Ret
  onAbort : Ret
  onClear : Ret
  apply2pcMsg : Ret
  mergeIntermediateParticipants : Ret
  submitLog : LogType → Ret
  /-- the return code of the mailbox: posting is best effort, so the mail is in flight whatever
  the code, and a lost mail is one that is never delivered -/
  send : Ret

/-- The `on_xxx` hooks, which run when a log has been synchronized, return success. -/
structure Env.OnHooksSucceed (env : Env) : Prop where
  onPrepare : env.onPrepare = .success
  onCommit : env.onCommit = .success
  onAbort : env.onAbort = .success
  onClear : env.onClear = .success

structure Ctx where
  addr : Addr
  coordinator : Option Addr
  sender : Option Addr
  participants : List Addr
  isSub2pc : Bool
  upstreamState : ObTxState
  downstreamState : ObTxState
  /-- the final state of the transaction, recorded with the commit or abort log -/
  txState : ObTxState
  logQueue : List LogType
  /-- indices into `participants` of the downstreams that have responded in this phase -/
  collected : Finset ℕ
  /-- every mail this participant has posted -/
  outbox : List Mail

namespace Ctx

variable (c : Ctx)

def role : Ob2PCRole :=
  match c.coordinator with
  | none => .unknown
  | some q =>
    if c.addr = q then .root
    else if c.participants = [] then .leaf
    else .internal

def isRoot : Prop := c.role = .root
def isInternal : Prop := c.role = .internal
def isLeaf : Prop := c.role = .leaf

instance : Decidable c.isRoot := inferInstanceAs (Decidable (_ = _))
instance : Decidable c.isInternal := inferInstanceAs (Decidable (_ = _))
instance : Decidable c.isLeaf := inferInstanceAs (Decidable (_ = _))

def getDownstreamSize : ℕ := c.participants.length

def findParticipantId (key : Addr) : Option ℕ := c.participants.idxOf? key

def getSelfId : Option ℕ := c.findParticipantId c.addr

def is2pcLogging : Prop := c.logQueue ≠ []
  deriving Decidable

/-- Whether the message being handled comes from the coordinator; outside a message it does. -/
def isRealUpstream : Prop := c.sender = none ∨ c.sender = c.coordinator
  deriving Decidable

def allDownstreamCollected : Bool :=
  match c.role with
  -- the list of the root holds the root itself
  | .root => c.collected.card + 1 = c.getDownstreamSize
  | .internal => c.collected.card = c.getDownstreamSize
  | .leaf => true
  | .unknown => false

end Ctx

end OceanBase.Tx
