import OceanBase.Lib.Machine

/-!
# The local cache of the global timestamp

`ObGtsSource` answers `get_gts(stc, …)` from a cache of the newest timestamp it has heard of. The
cache holds three maxima: the timestamps (`gts_`), the times at which the requests for them were
sent (`srr_`), and the times at which the answers came in. A caller that reads `srr_` first and
`gts_` next takes the timestamp if `srr_` is not before its own `stc`; otherwise it asks the local
timestamp service, or a request is sent and the caller tries again.

Every load and every `atomic_update` is a step of its own. Requests and answers may be lost, delayed
and repeated: a message that was sent stays, and any thread may receive it at any time. The times
are those of `gettimeofday`, so the clock is a value that the environment sets.
-/

namespace OceanBase.Gts

structure ObGTSLocalCache where
  srr : ℕ := 0
  gts : ℕ := 0
  latestSrr : ℕ := 0
  receiveGtsTs : ℕ := 0

/-- `INT64_MAX/2` -/
def gtsLimit : ℕ := (2 ^ 63 - 1) / 2

/-- A timestamp and the time before its request was sent. -/
structure Response where
  srr : ℕ
  gts : ℕ
  deriving DecidableEq

def Response.isValid (m : Response) : Bool := 0 < m.srr && 0 < m.gts && m.gts < gtsLimit

/-- A caller of `get_gts`: its `stc`, and the timestamps handed out before it read the clock. -/
structure Call where
  stc : ℕ
  before : List ℕ
  deriving DecidableEq

inductive Pc
  | idle
  /-- the caller has its `stc` -/
  | ready (c : Call)
  -- `ObGTSLocalCache::get_gts`
  | loadSrr (c : Call)
  | loadGts (c : Call) (srr : ℕ)
  | loadReceive (c : Call) (srr gts : ℕ)
  | loadLatest (c : Call)
  -- `ObGtsSource::get_gts` after `OB_EAGAIN`
  | askLeader (c : Call) (needSendRpc : Bool)
  -- `get_gts_from_local_timestamp_service_`
  | localTime (c : Call)
  | localNumber (c : Call) (curTs : ℕ)
  -- `update_gts` and `update_gts_and_check_barrier`
  | updateReceive (m : Response) (receiveGtsTs : ℕ) (k : Option Call)
  | updateGts (m : Response) (k : Option Call)
  | updateSrr (m : Response) (k : Option Call)
  -- `query_gts_`
  | queryTime (k : Option Call)
  | queryLatest (srr : ℕ) (k : Option Call)
  | querySend (srr : ℕ) (k : Option Call)
  /-- `get_gts` has returned `gts` -/
  | done (c : Call) (gts : ℕ)
  deriving DecidableEq

/-- What follows `query_gts_`: the caller gets `OB_EAGAIN`. -/
def Pc.resume : Option Call → Pc
  | none => .idle
  | some c => .ready c

/-- What follows an update: the local fetch returns its timestamp. -/
def Pc.updated (m : Response) : Option Call → Pc
  | none => .idle
  | some c => .done c m.gts

/-- The source, its server and the messages between them. -/
structure State where
  cache : ObGTSLocalCache
  /-- what the clock shows -/
  now : ℕ
  /-- the timestamps handed out, the newest first -/
  produced : List ℕ
  requests : List ℕ
  responses : List Response
  thread : ℕ → Pc
  /-- the times taken for requests so far -/
  srrReads : List ℕ
  /-- the callers so far -/
  calls : List Call

/-- What the environment decides in a step of a thread. -/
inductive Choice
  | go
  | fail
  | leaderIsLocal
  | leaderIsRemote
  | number (gts : ℕ)

inductive Act
  | clock (t : ℕ)
  | handOut (gts : ℕ)
  | answer (srr gts : ℕ)
  /-- `update_gts(gts)` -/
  | push (gts : ℕ)
  | readStc (i : ℕ)
  | call (i : ℕ)
  | receive (i : ℕ) (m : Response)
  /-- `refresh_gts` -/
  | refresh (i : ℕ)
  | run (i : ℕ) (e : Choice)

namespace State

variable (s : State)

def setPc (i : ℕ) (pc : Pc) : State := { s with thread := Function.update s.thread i pc }

/-- The server's answers do not decrease. -/
def mayProduce (gts : ℕ) : Bool := s.produced.all fun x => x ≤ gts

def runPc (i : ℕ) : Pc → Choice → Option State
  | .loadSrr c, .go => some (s.setPc i (.loadGts c s.cache.srr))
  | .loadGts c srr, .go => some (s.setPc i (.loadReceive c srr s.cache.gts))
  | .loadReceive c srr gts, .go =>
    some <| s.setPc i <|
      if gts = 0 then .askLeader c true
      else if srr < c.stc then .loadLatest c
      else .done c gts
  | .loadLatest c, .go => some (s.setPc i (.askLeader c (s.cache.latestSrr < c.stc)))
  | .askLeader c _, .fail => some (s.setPc i (.ready c))
  | .askLeader c _, .leaderIsLocal => some (s.setPc i (.localTime c))
  | .askLeader c needSendRpc, .leaderIsRemote =>
    some (s.setPc i (if needSendRpc then .queryTime (some c) else .ready c))
  | .localTime c, .go =>
    some { s.setPc i (.localNumber c s.now) with srrReads := s.now :: s.srrReads }
  | .localNumber c _, .fail => some (s.setPc i (.ready c))
  | .localNumber c curTs, .number gts =>
    if s.mayProduce gts then
      let pc := if Response.isValid ⟨curTs, gts⟩ then .updateReceive ⟨curTs, gts⟩ curTs (some c)
        else .ready c
      some { s.setPc i pc with produced := gts :: s.produced }
    else none
  | .updateReceive m receiveGtsTs k, .go =>
    some { s.setPc i (.updateGts m k) with
      cache := { s.cache with receiveGtsTs := max s.cache.receiveGtsTs receiveGtsTs } }
  | .updateGts m k, .go =>
    some { s.setPc i (.updateSrr m k) with
      cache := { s.cache with gts := max s.cache.gts m.gts } }
  | .updateSrr m k, .go =>
    some { s.setPc i (.updated m k) with
      cache := { s.cache with srr := max s.cache.srr m.srr } }
  | .queryTime k, .go =>
    some { s.setPc i (.queryLatest s.now k) with srrReads := s.now :: s.srrReads }
  | .queryLatest srr k, .go =>
    if srr = 0 then some (s.setPc i (.resume k))
    else some { s.setPc i (.querySend srr k) with
      cache := { s.cache with latestSrr := max s.cache.latestSrr srr } }
  | .querySend srr k, .go => some { s.setPc i (.resume k) with requests := srr :: s.requests }
  | .querySend _ k, .fail => some (s.setPc i (.resume k))
  | .done _ _, .go => some (s.setPc i .idle)
  | _, _ => none

/-- A step of the source, the server or the network. -/
def step : Act → Option State
  | .clock t => some { s with now := t }
  | .handOut gts => if s.mayProduce gts then some { s with produced := gts :: s.produced } else none
  | .answer srr gts =>
    if srr ∈ s.requests ∧ s.mayProduce gts then
      some { s with produced := gts :: s.produced, responses := ⟨srr, gts⟩ :: s.responses }
    else none
  | .push gts =>
    if gts ∈ s.produced ∧ 0 < gts ∧ gts < gtsLimit then
      some { s with cache := { s.cache with gts := max s.cache.gts gts } }
    else none
  | .readStc i =>
    if s.thread i = .idle then
      some { s.setPc i (.ready ⟨s.now, s.produced⟩) with calls := ⟨s.now, s.produced⟩ :: s.calls }
    else none
  | .call i =>
    match s.thread i with
    | .ready c => if 0 < c.stc then some (s.setPc i (.loadSrr c)) else none
    | _ => none
  | .receive i m =>
    if s.thread i = .idle ∧ m ∈ s.responses ∧ m.isValid then
      some (s.setPc i (.updateReceive m s.now none))
    else none
  | .refresh i => if s.thread i = .idle then some (s.setPc i (.queryTime none)) else none
  | .run i e => s.runPc i (s.thread i) e

end State

def State.init (now : ℕ) : State := ⟨{}, now, [], [], [], fun _ => .idle, [], []⟩

/-- **The machine**, for the runs whose steps all meet `ok`. -/
def gtsSource (ok : State → Act → Prop) : Machine State where
  init s := ∃ now, s = .init now
  step s s' := ∃ a, ok s a ∧ s.step a = some s'

/-- When a caller reads the clock, it shows more than at each time taken for a request before. -/
def Ticks (s : State) : Act → Prop
  | .readStc _ => ∀ t ∈ s.srrReads, t < s.now
  | _ => True

instance (s : State) : DecidablePred (Ticks s) := fun a => by
  cases a <;> unfold Ticks <;> infer_instance

/-- The state after some steps that all meet `ok`. -/
def run (ok : State → Act → Prop) [∀ s, DecidablePred (ok s)] (s : State) : List Act → Option State
  | [] => some s
  | a :: as => if ok s a then (s.step a).bind fun s => run ok s as else none

theorem run_reachable {ok : State → Act → Prop} [∀ s, DecidablePred (ok s)] {as s s'}
    (hs : (gtsSource ok).Reachable s) (h : run ok s as = some s') : (gtsSource ok).Reachable s' :=
  hs.of_run (g := fun s a => if ok s a then s.step a else none) h (fun _ => rfl)
    (fun s a _ => by rw [run]; split <;> rfl) fun _ a _ ha =>
    ⟨a, Option.ite_none_right_eq_some.mp ha⟩

end OceanBase.Gts
