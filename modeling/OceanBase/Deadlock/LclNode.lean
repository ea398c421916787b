import OceanBase.Lib.Machine

/-!
# Nodes of the deadlock detector

Every waiting transaction has a detector, a node of the wait-for graph (`ObLCLNode`). Nodes push a
level and a label along the edges of the graph; a node that gets back its own label assumes that it
lies on a cycle (`process_lcl_message`). Levels and labels of different paths and periods are
merged, so this may be wrong. A node that detects therefore sends a second kind of message, which
collects the nodes it passes (`process_collect_info_message`). Each node drops the message if it has
passed before, and otherwise appends itself and broadcasts to everything it waits for. Only if the
message comes back to the node that started it and that node has the lowest priority of all, its
detect callback runs, which kills the transaction.

Messages may be lost, repeated and reordered. A message to a resource without a detector is dropped.
-/

namespace OceanBase.Deadlock

inductive PriorityRange
  | extremelyLow
  | low
  | normal
  | high
  | extremelyHigh
  deriving DecidableEq

def PriorityRange.toInt : PriorityRange → ℤ
  | .extremelyLow => -2
  | .low => -1
  | .normal => 0
  | .high => 1
  | .extremelyHigh => 2

structure ObDetectorPriority where
  priorityRange : PriorityRange
  priorityValue : UInt64
  deriving DecidableEq

namespace ObDetectorPriority

def lt (a b : ObDetectorPriority) : Bool :=
  if a.priorityRange.toInt < b.priorityRange.toInt then true
  else if a.priorityRange.toInt = b.priorityRange.toInt then a.priorityValue < b.priorityValue
  else false

/-- `ObDetectorPriority(PRIORITY_RANGE::EXTREMELY_HIGH, UINT64_MAX)`, where the search for the
lowest priority starts -/
def maximal : ObDetectorPriority := ⟨.extremelyHigh, 18446744073709551615⟩

end ObDetectorPriority

/-- `ObDependencyResource`: a server and a key of that server. -/
structure ObDependencyResource where
  addr : ℕ
  userKey : ℕ
  deriving DecidableEq

structure ObLCLLabel where
  addr : ℕ
  id : ℕ
  priority : ObDetectorPriority
  deriving DecidableEq

def ObLCLLabel.lt (a b : ObLCLLabel) : Bool :=
  if a.priority.lt b.priority then true
  else if a.priority = b.priority then
    if a.addr < b.addr then true
    else if a.addr = b.addr then a.id < b.id
    else false
  else false

inductive Role
  | victim
  | witness
  deriving DecidableEq

structure ObDetectorInnerReportInfo where
  userKey : ℕ
  addr : ℕ
  detectorId : ℕ
  eventId : ℕ
  role : Role
  priority : ObDetectorPriority
  deriving DecidableEq

structure WaitGraph (V : Type) where
  /-- The server of a node. -/
  addr : V → ℕ
  selfKey : V → ℕ
  /-- The id in the node's private label. -/
  resourceId : V → ℕ
  priority : V → ObDetectorPriority
  /-- The hash of address, id and creation time. -/
  eventId : V → ℕ
  autoActivateWhenDetected : V → Bool
  /-- The block list together with what the block callbacks add to it. -/
  blockList : V → List ObDependencyResource
  /-- A server finds its detectors by their keys. -/
  selfKey_inj : ∀ u v, addr u = addr v → selfKey u = selfKey v → u = v
  /-- A server numbers its detectors. -/
  resourceId_inj : ∀ u v, addr u = addr v → resourceId u = resourceId v → u = v

section Node

variable {V : Type} (g : WaitGraph V)

/-- The resource that others wait for if they wait for the node. -/
def WaitGraph.resource (v : V) : ObDependencyResource := ⟨g.addr v, g.selfKey v⟩

def WaitGraph.Waits (u v : V) : Prop := g.resource v ∈ g.blockList u

def WaitGraph.privateLabel (v : V) : ObLCLLabel := ⟨g.addr v, g.resourceId v, g.priority v⟩

/-- The loop of `if_self_has_lowest_priority_` from index `i` on. -/
def lowestPriorityLoop : List ObDetectorPriority → ℕ → ObDetectorPriority → ℤ → ℤ
  | [], _, _, lowestPriorityIdx => lowestPriorityIdx
  | p :: ps, i, lowestPriority, lowestPriorityIdx =>
    if p.lt lowestPriority then lowestPriorityLoop ps (i + 1) p i
    else lowestPriorityLoop ps (i + 1) lowestPriority lowestPriorityIdx

def ifSelfHasLowestPriority (collectedInfo : List ObDetectorInnerReportInfo) : Bool :=
  lowestPriorityLoop (collectedInfo.map (·.priority)) 0 .maximal (-1) = 0

def WaitGraph.isSelf (v : V) (info : ObDetectorInnerReportInfo) : Bool :=
  info.addr = g.addr v ∧ info.detectorId = g.resourceId v

/-- The message has come back to the node that sent it first
(`check_and_process_completely_collected_msg_with_lock_`). -/
def isCompletelyCollected (v : V) (collectedInfo : List ObDetectorInnerReportInfo) : Bool :=
  match collectedInfo with
  | [] => false
  | info :: _ => g.isSelf v info

def checkDeadLoop (v : V) (collectedInfo : List ObDetectorInnerReportInfo) : Bool :=
  collectedInfo.any (g.isSelf v)

def generateEventId (v : V) (collectedInfo : List ObDetectorInnerReportInfo) : ℕ :=
  match collectedInfo with
  | [] => g.eventId v
  | info :: _ => info.eventId

def reportInfo (v : V) (collectedInfo : List ObDetectorInnerReportInfo) :
    ObDetectorInnerReportInfo where
  userKey := g.selfKey v
  addr := g.addr v
  detectorId := g.resourceId v
  eventId := generateEventId g v collectedInfo
  role := if collectedInfo.isEmpty then .victim else .witness
  priority := g.priority v

end Node

structure ObLCLMessage where
  dest : ObDependencyResource
  lclv : ℕ
  label : ObLCLLabel
  sendTs : ℕ
  deriving DecidableEq

/-- `ObLCLMessage::merge`: messages to one resource that wait to be sent are merged. -/
def ObLCLMessage.merge (m rhs : ObLCLMessage) : ObLCLMessage :=
  if m.dest ≠ rhs.dest then m
  else if m.lclv < rhs.lclv then { m with lclv := rhs.lclv, label := rhs.label }
  else if m.lclv = rhs.lclv ∧ rhs.label.lt m.label then { m with label := rhs.label }
  else m

/-- `ObDeadLockCollectInfoMessage`, with the number of the detection that caused it. -/
structure CollectInfoMessage where
  dest : ObDependencyResource
  collectedInfo : List ObDetectorInnerReportInfo
  detection : ℕ
  deriving DecidableEq

/-- What changes in an `ObLCLNode`. -/
structure ObLCLNode where
  lclv : ℕ := 0
  publicLabel : ObLCLLabel
  lclPeriod : ℕ := 0
  lastSendCollectInfoPeriod : ℕ := 0
  blockList : List ObDependencyResource

/-- `PHASE_TIME`, in microseconds -/
def phaseTime : ℕ := 700000

def period : ℕ := 2 * phaseTime

section

variable (n : ObLCLNode)

def ObLCLNode.updateLclPeriod (privateLabel : ObLCLLabel) (currentTs : ℕ) : ObLCLNode :=
  if currentTs / period > n.lclPeriod then
    { n with lclPeriod := currentTs / period, publicLabel := privateLabel }
  else n

def ObLCLNode.processMsgAsLclp (m : ObLCLMessage) : ObLCLNode :=
  if m.lclv + 1 > n.lclv then { n with lclv := m.lclv + 1 } else n

/-- `process_msg_as_lcls_msg_`, with `detected_flag` -/
def ObLCLNode.processMsgAsLcls (privateLabel : ObLCLLabel) (m : ObLCLMessage) :
    ObLCLNode × Bool :=
  if m.lclv ≥ n.lclv then
    let n := { n with lclv := m.lclv }
    if m.label = privateLabel then
      if n.lastSendCollectInfoPeriod = n.lclPeriod then (n, false)
      else ({ n with lastSendCollectInfoPeriod := n.lclPeriod }, true)
    else if m.label.lt n.publicLabel then ({ n with publicLabel := m.label }, false)
    else (n, false)
  else (n, false)

/-- The message as the node sees it: nothing if it was sent in another phase, and else as a message
of the phase it is in. -/
def ObLCLNode.processLcl (privateLabel : ObLCLLabel) (m : ObLCLMessage) (currentTs : ℕ) :
    ObLCLNode × Bool :=
  if currentTs / phaseTime ≠ m.sendTs / phaseTime then (n, false)
  else if currentTs / phaseTime % 2 = 0 then (n.processMsgAsLclp m, false)
  else n.processMsgAsLcls privateLabel m

/-- What `check_and_process_completely_collected_msg_with_lock_` removes from the block list after
the callback: the next node of the cycle, which is the node itself if it is the only one. -/
def ObLCLNode.activatePeer (collectedInfo : List ObDetectorInnerReportInfo) : ObLCLNode :=
  match collectedInfo with
  | [] => n
  | [info] => { n with blockList := n.blockList.erase ⟨info.addr, info.userKey⟩ }
  | _ :: info :: _ => { n with blockList := n.blockList.erase ⟨info.addr, info.userKey⟩ }

end

/-- What the callbacks and the network answer to one message. -/
structure Answers where
  /-- The collect callback gives a valid report. -/
  collected : Bool
  /-- The detect callback succeeds. -/
  detected : Bool
  /-- How many messages are posted before posting fails, if it does. -/
  posts : ℕ

structure State (V : Type) where
  node : V → ObLCLNode
  lclMessages : List ObLCLMessage
  collectMessages : List CollectInfoMessage
  /-- The runs of detect callbacks, with what they were given. -/
  callbacks : List (V × List ObDetectorInnerReportInfo)
  /-- How many times a node has detected a cycle. -/
  detections : ℕ
  /-- How many collect-info messages a detection has caused. -/
  posted : ℕ → ℕ
  /-- How many of them the network has repeated. -/
  repeated : ℕ → ℕ

section Step

variable {V : Type} [DecidableEq V] (g : WaitGraph V)

section

variable (s : State V)

def State.broadcast (v : V) (collectedInfo : List ObDetectorInnerReportInfo) (detection : ℕ)
    (posts : ℕ) : State V :=
  let ms := ((s.node v).blockList.take posts).map fun r => ⟨r, collectedInfo, detection⟩
  { s with
    collectMessages := s.collectMessages ++ ms
    posted := Function.update s.posted detection (s.posted detection + ms.length) }

/-- The detect callback of a node that has the lowest priority. -/
def State.detectCallback (v : V) (collectedInfo : List ObDetectorInnerReportInfo)
    (detected : Bool) : State V :=
  { s with
    callbacks := s.callbacks ++ [(v, collectedInfo)]
    node := Function.update s.node v
      (if detected ∧ g.autoActivateWhenDetected v then (s.node v).activatePeer collectedInfo
        else s.node v) }

def State.processCollectInfoMessage (v : V) (collectedInfo : List ObDetectorInnerReportInfo)
    (detection : ℕ) (a : Answers) : State V :=
  if isCompletelyCollected g v collectedInfo then
    if ifSelfHasLowestPriority collectedInfo then
      s.detectCallback g v collectedInfo a.detected else s
  else if checkDeadLoop g v collectedInfo then s
  else if a.collected then
    s.broadcast v (collectedInfo ++ [reportInfo g v collectedInfo]) detection a.posts
  else s

/-- `process_lcl_message`: the clock is read twice. -/
def State.processLclMessage (v : V) (m : ObLCLMessage) (realTs currentTs : ℕ) (a : Answers) :
    State V :=
  let n := ((s.node v).updateLclPeriod (g.privateLabel v) realTs).processLcl (g.privateLabel v) m
    currentTs
  let s' := { s with node := Function.update s.node v n.1 }
  if n.2 then { s' with detections := s.detections + 1 }.processCollectInfoMessage g v []
    s.detections a
  else s'

/-- `push_state_to_downstreams_with_lock_`, run by a timer -/
def State.pushState (v : V) (realTs : ℕ) : State V :=
  let n := (s.node v).updateLclPeriod (g.privateLabel v) realTs
  { s with
    node := Function.update s.node v n
    lclMessages := s.lclMessages ++ n.blockList.map fun r => ⟨r, n.lclv, n.publicLabel, realTs⟩ }

end

inductive Act (V : Type)
  | pushState (v : V) (realTs : ℕ)
  /-- Two messages to one resource are sent as one. -/
  | mergeLcl (m m' : ObLCLMessage)
  | receiveLcl (m : ObLCLMessage) (v : V) (realTs currentTs : ℕ) (a : Answers)
  | receiveCollect (m : CollectInfoMessage) (v : V) (a : Answers)
  | repeatCollect (m : CollectInfoMessage)
  | loseCollect (m : CollectInfoMessage)

/-- One step. A message of the first kind stays when it is received: it may be lost or come
again. -/
def State.step (s : State V) : Act V → Option (State V)
  | .pushState v realTs => some (s.pushState g v realTs)
  | .mergeLcl m m' =>
    if m ∈ s.lclMessages ∧ m' ∈ s.lclMessages then
      some { s with lclMessages := s.lclMessages ++ [m.merge m'] }
    else none
  | .receiveLcl m v realTs currentTs a =>
    if m ∈ s.lclMessages ∧ m.dest = g.resource v then
      some (s.processLclMessage g v m realTs currentTs a)
    else none
  | .receiveCollect m v a =>
    if m ∈ s.collectMessages ∧ m.dest = g.resource v then
      some ({ s with collectMessages := s.collectMessages.erase m }.processCollectInfoMessage g v
        m.collectedInfo m.detection a)
    else none
  | .repeatCollect m =>
    if m ∈ s.collectMessages then
      some { s with
        collectMessages := s.collectMessages ++ [m]
        repeated := Function.update s.repeated m.detection (s.repeated m.detection + 1) }
    else none
  | .loseCollect m =>
    if m ∈ s.collectMessages then some { s with collectMessages := s.collectMessages.erase m }
      else none

/-- No messages, and every node as it is constructed. -/
def State.start : State V where
  node v := { publicLabel := g.privateLabel v, blockList := g.blockList v }
  lclMessages := []
  collectMessages := []
  callbacks := []
  detections := 0
  posted _ := 0
  repeated _ := 0

/-- The nodes of a graph from their construction on. -/
def lclDetector : Machine (State V) where
  init s := s = State.start g
  step s s' := ∃ a, s.step g a = some s'

def State.run (s : State V) : List (Act V) → Option (State V)
  | [] => some s
  | a :: as => (s.step g a).bind fun s' => s'.run as

theorem State.run_reachable {as} : ∀ {s s'}, (lclDetector g).Reachable s →
    s.run g as = some s' → (lclDetector g).Reachable s' :=
  fun hs h => hs.of_run h (fun _ => rfl) (fun _ _ _ => rfl) fun _ a _ ha => ⟨a, ha⟩

end Step

end OceanBase.Deadlock
