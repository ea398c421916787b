import OceanBase.Tx.Committer
import OceanBase.Lib.Machine

/-!
# The guarded moves of a participant

What an event of the committer does to a context is a sequence of a few moves: collect a
response, enter a phase in memory, enter pre-commit, submit a log, post a mail, apply a
synchronized log. Each move carries the guard under which the committer takes it, as a condition
on the context and on the mail being handled. The invariants of the protocol are proved over
moves; the committer is connected to them in `Tx.Refinement`.

## Main results

* `Move.sameFrame`: the fields no move touches
-/

namespace OceanBase.Tx

variable {inc : Option Mail} {c c' : Ctx}

/-- The responses that count as acknowledgements of an in-memory state. -/
def AckOf : ObTxState → MsgType → Prop
  | .redoComplete, .prepareRedoResp => True
  | .prepare, .prepareResp => True
  | .preCommit, .preCommitResp => True
  | .commit, .commitResp => True
  | .commit, .abortResp => True
  | .abort, .abortResp => True
  | _, _ => False

def Handling (inc : Option Mail) (t : MsgType) : Prop := ∃ m, inc = some m ∧ m.type = t

/-- When a phase other than pre-commit is entered in memory. -/
def DriveGuard (inc : Option Mail) (c : Ctx) : ObTxState → Prop
  | .redoComplete => c.downstreamState = .init
  | .prepare =>
    c.downstreamState = .init ∨ c.downstreamState = .redoComplete ∨ c.upstreamState < .prepare
  | .commit =>
    (c.isRoot ∧ c.upstreamState = .preCommit ∧ c.allDownstreamCollected) ∨
    (Handling inc .commitReq ∧ (c.downstreamState = .prepare ∨ c.downstreamState = .preCommit)) ∨
    (c.isRoot ∧ c.getDownstreamSize = 1 ∧ c.downstreamState = .preCommit)
  | .abort => c.downstreamState ≤ .prepare
  | .clear =>
    (c.downstreamState = .commit ∨ c.downstreamState = .abort) ∧
    ((c.isRoot ∧ c.allDownstreamCollected) ∨ Handling inc .clearReq ∨
      (c.isRoot ∧ c.getDownstreamSize = 1))
  | _ => False

/-- A request is being handled that does not come from the coordinator. -/
def FakeUpstream (inc : Option Mail) (c : Ctx) : Prop :=
  ¬ c.isRealUpstream ∧ ∃ m, inc = some m ∧ m.type.is2pcRequestMsg

/-- A request goes to a downstream, a commit or clear request only in its own phase. -/
def RequestGuard (c : Ctx) (m : Mail) : Prop :=
  m.dst ∈ c.participants ∧
    (m.type = .commitReq → c.upstreamState = .commit) ∧
    (m.type = .clearReq → c.upstreamState = .clear)

/-- A response goes to the coordinator or to the sender of the request being handled. -/
def ResponseDst (inc : Option Mail) (c : Ctx) (dst : Addr) : Prop :=
  c.coordinator = some dst ∨ ∃ m, inc = some m ∧ m.type.is2pcRequestMsg ∧ m.src = dst

/-- The responses the protocol relies on are posted once every downstream has responded. -/
def ResponseGuard (inc : Option Mail) (c : Ctx) : MsgType → Prop
  | .preCommitResp =>
    (c.downstreamState = .preCommit ∧ (c.allDownstreamCollected ∨ FakeUpstream inc c)) ∨
    (c.upstreamState = .preCommit ∧ c.allDownstreamCollected) ∨ c.downstreamState = .commit
  | .commitResp =>
    (c.downstreamState = .commit ∧ (c.allDownstreamCollected ∨ FakeUpstream inc c)) ∨
    (c.upstreamState = .commit ∧ c.downstreamState = .abort)
  | .abortResp =>
    (c.downstreamState = .abort ∧ (c.allDownstreamCollected ∨ FakeUpstream inc c)) ∨
    (c.upstreamState = .abort ∧ c.downstreamState = .commit)
  | _ => True

def PostGuard (inc : Option Mail) (c : Ctx) (m : Mail) : Prop :=
  (m.type.is2pcRequestMsg ∧ RequestGuard c m) ∨
    (¬ m.type.is2pcRequestMsg ∧ ResponseDst inc c m.dst ∧ ResponseGuard inc c m.type)

def LogType.target : LogType → ObTxState
  | .commitInfo => .redoComplete
  | .prepare => .prepare
  | .commit => .commit
  | .abort => .abort
  | .clear => .clear

/-- The states in which the callback of a log takes effect. -/
def Applies (c : Ctx) : LogType → Prop
  | .commitInfo => True
  | .prepare => c.upstreamState = .prepare ∧
      (c.downstreamState = .init ∨ c.downstreamState = .redoComplete)
  | .commit => c.upstreamState = .commit ∧ (c.downstreamState = .prepare ∨
      c.downstreamState = .preCommit ∨ c.downstreamState = .commit)
  | .abort => c.downstreamState = .init ∨ c.downstreamState = .redoComplete ∨
      c.downstreamState = .prepare
  | .clear => c.upstreamState = .clear ∧
      (c.downstreamState = .commit ∨ c.downstreamState = .abort)

/-- **One move of a participant** while `inc` is being handled. -/
inductive Move (inc : Option Mail) : Ctx → Ctx → Prop
  | collect {c : Ctx} {i m} (hinc : inc = some m)
      (hi : c.participants[i]? = some m.src) (hself : some i ≠ c.getSelfId)
      (hack : AckOf c.upstreamState m.type) :
      Move inc c { c with collected := insert i c.collected }
  | drive {c : Ctx} {next} (hq : c.logQueue = []) (hne : next ≠ c.upstreamState)
      (hg : DriveGuard inc c next) :
      Move inc c { c with collected := ∅, upstreamState := next }
  | redo {c : Ctx} (hup : c.upstreamState = .init) :
      Move inc c { c with upstreamState := .redoComplete, collected := ∅ }
  | enterPreCommit {c : Ctx} {s} (hq : c.logQueue = [])
      (hdown : c.downstreamState = .prepare)
      (hs : s = ∅ ∨ c.upstreamState = .preCommit ∧ s = c.collected) :
      Move inc c ({ c with collected := s, upstreamState := .preCommit }.setDownstreamState
        .preCommit)
  | submit {c : Ctx} {t : LogType} (hq : c.logQueue = [])
      (ht : c.decide2pcLogType.2 = some t ∨ t = .commitInfo ∧ c.upstreamState = .redoComplete) :
      Move inc c { c with logQueue := [t] }
  | post {c : Ctx} {m : Mail} (hsrc : m.src = c.addr) (hdst : m.dst ≠ c.addr)
      (hg : PostGuard inc c m) : Move inc c { c with outbox := m :: c.outbox }
  | pop {c : Ctx} {t : LogType} {rest : List LogType} (hq : c.logQueue = t :: rest) :
      Move inc c { c with logQueue := rest }
  | applied {c : Ctx} {t : LogType} {rest : List LogType} (hq : c.logQueue = t :: rest)
      (ht : Applies c t) :
      Move inc c ({ c with logQueue := rest }.setDownstreamState t.target)

abbrev Moves (inc : Option Mail) : Ctx → Ctx → Prop := Relation.ReflTransGen (Move inc)

/-! ## The fields no move touches -/

/-- The part of a context that is fixed while an event is handled. -/
structure SameFrame (c c' : Ctx) : Prop where
  addr : c'.addr = c.addr
  coordinator : c'.coordinator = c.coordinator
  sender : c'.sender = c.sender
  participants : c'.participants = c.participants
  isSub2pc : c'.isSub2pc = c.isSub2pc

theorem SameFrame.refl (c : Ctx) : SameFrame c c := ⟨rfl, rfl, rfl, rfl, rfl⟩

theorem SameFrame.trans {c c' c''} (h : SameFrame c c') (h' : SameFrame c' c'') : SameFrame c c'' :=
  ⟨h'.1.trans h.1, h'.2.trans h.2, h'.3.trans h.3, h'.4.trans h.4, h'.5.trans h.5⟩

theorem Move.sameFrame (h : Move inc c c') : SameFrame c c' := by
  cases h <;> exact ⟨rfl, rfl, rfl, rfl, rfl⟩

theorem sameFrame_of_moves (h : Moves inc c c') : SameFrame c c' :=
  star_keeps (I := SameFrame c) (fun _ _ hm hs => hs.trans hm.sameFrame) h (.refl c)

end OceanBase.Tx
