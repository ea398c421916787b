import OceanBase.Apply.Status

/-!
# A replica: PALF, the log handler and the apply status

Callbacks come from the log handler, which appends to PALF while both are leader of the same term
and pushes the callback afterwards. Between the two the log may be committed and reported, and PALF
may lose its leadership.

Of PALF the apply status sees the role, the largest SCN and the reports of committed logs. What lies
behind them is the replica's log: a list of entries of which a prefix is committed. It grows at its
end, is cut behind the committed prefix when another leader wrote something else there, and is
committed as a whole when this replica becomes leader, as the reconfirmation ends only then. Entries
of a term this replica leads come from its log handler. One that was cut off may come back from
another replica, behind the same entries of the term as before: logs that hold the same entry agree
up to it. A padding log is a gap between two entries.

## Main results

* `Replica.step_move`: a step is a move
-/

namespace OceanBase.Apply

open Palf Option

/-! ## PALF -/

structure PalfView where
  proposalId : ℤ
  isLeader : Bool
  baseLsn : ℕ
  baseScn : ℕ
  entries : List PalfEntry
  /-- the number of entries that are committed -/
  committed : ℕ
  /-- the number of entries that were slid out, and so reported -/
  slid : ℕ
  /-- for the terms this replica became leader of, the number of entries at that moment -/
  termStart : ℤ → Option ℕ
  /-- all entries that were appended here -/
  given : List PalfEntry

namespace PalfView

variable (p : PalfView)

def endLsnAt : ℕ → ℕ
  | 0 => p.baseLsn
  | n + 1 => (p.entries[n]?.map PalfEntry.endLsn).getD p.baseLsn

/-- The SCN of the last one of the first `n` entries. -/
def scnAt : ℕ → ℕ
  | 0 => p.baseScn
  | n + 1 => (p.entries[n]?.map PalfEntry.scn).getD p.baseScn

def maxLsn : ℕ := p.endLsnAt p.entries.length

def maxScn : ℕ := p.scnAt p.entries.length

/-- The entry may be put behind the log. -/
def Follows (e : PalfEntry) : Prop :=
  p.maxLsn ≤ e.lsn ∧ e.lsn < e.endLsn ∧ p.maxScn < e.scn ∧ scnIsValid e.scn
  deriving Decidable

/-- The entries of a term that were appended here. -/
def givenIn (pid : ℤ) : List PalfEntry := p.given.filter (·.proposalId = pid)

/-- An entry of a term led here comes behind the same entries of the term as when it was
appended. -/
def Matches (e : PalfEntry) : Prop :=
  ∀ n ∈ p.termStart e.proposalId, p.entries.drop n ++ [e] <+: p.givenIn e.proposalId
  deriving Decidable

def append (e : PalfEntry) : PalfView :=
  { p with entries := p.entries ++ [e], given := p.given ++ [e] }

def lead (pid : ℤ) : PalfView :=
  { p with
    proposalId := pid
    isLeader := true
    termStart := Function.update p.termStart pid (some p.entries.length) }

/-- What happens to PALF, apart from appends and reports. -/
inductive Act
  | lead (pid : ℤ)
  | leave
  | newTerm (pid : ℤ)
  | commit (n : ℕ)
  | truncate (n : ℕ)
  | receive (e : PalfEntry)

def step : Act → Option PalfView
  | .lead pid =>
    if p.isLeader = false ∧ p.proposalId < pid ∧ p.committed = p.entries.length then
      some (p.lead pid)
    else none
  | .leave => if p.isLeader then some { p with isLeader := false } else none
  | .newTerm pid =>
    if p.isLeader = false ∧ p.proposalId < pid then some { p with proposalId := pid } else none
  | .commit n =>
    if p.committed ≤ n ∧ n ≤ p.entries.length then some { p with committed := n } else none
  | .truncate n =>
    if p.isLeader = false ∧ p.committed ≤ n then some { p with entries := p.entries.take n }
    else none
  | .receive e =>
    if p.isLeader = false ∧ p.Follows e ∧ e.proposalId ≤ p.proposalId ∧ p.Matches e then
      some { p with entries := p.entries ++ [e] }
    else none

inductive Move : PalfView → PalfView → Prop
  | lead {p : PalfView} (pid : ℤ) (hrole : p.isLeader = false) (hpid : p.proposalId < pid)
      (hcom : p.committed = p.entries.length) : Move p (p.lead pid)
  | leave {p : PalfView} : Move p { p with isLeader := false }
  | newTerm {p : PalfView} (pid : ℤ) (hrole : p.isLeader = false) (hpid : p.proposalId < pid) :
      Move p { p with proposalId := pid }
  | commit {p : PalfView} (n : ℕ) (hle : p.committed ≤ n) (hlen : n ≤ p.entries.length) :
      Move p { p with committed := n }
  | truncate {p : PalfView} (n : ℕ) (hrole : p.isLeader = false) (hle : p.committed ≤ n) :
      Move p { p with entries := p.entries.take n }
  | receive {p : PalfView} (e : PalfEntry) (hrole : p.isLeader = false) (hfol : p.Follows e)
      (hpid : e.proposalId ≤ p.proposalId) (hmatch : p.Matches e) :
      Move p { p with entries := p.entries ++ [e] }

theorem step_move {p p' : PalfView} {a : Act} (h : p.step a = some p') : Move p p' := by
  cases a <;> simp only [step, ite_none_right_eq_some, some.injEq] at h
  case lead pid =>
    obtain ⟨⟨hrole, hpid, hcom⟩, rfl⟩ := h
    exact .lead pid hrole hpid hcom
  case leave =>
    obtain ⟨-, rfl⟩ := h
    exact .leave
  case newTerm pid =>
    obtain ⟨⟨hrole, hpid⟩, rfl⟩ := h
    exact .newTerm pid hrole hpid
  case commit n =>
    obtain ⟨⟨hle, hlen⟩, rfl⟩ := h
    exact .commit n hle hlen
  case truncate n =>
    obtain ⟨⟨hrole, hle⟩, rfl⟩ := h
    exact .truncate n hrole hle
  case receive e =>
    obtain ⟨⟨hrole, hfol, hpid, hmatch⟩, rfl⟩ := h
    exact .receive e hrole hfol hpid hmatch

end PalfView

/-! ## The replica -/

structure Replica where
  palf : PalfView
  /-- role and term of the log handler -/
  handlerRole : ObRole
  handlerProposalId : ℤ
  /-- the appends that were given an SCN and have not pushed their callback, and whether they have
  counted it -/
  inFlight : List (PalfEntry × Bool)
  status : ApplyStatus
  /-- the LSN that `update_palf_committed_end_lsn` is about to store -/
  reporting : Option ℕ

namespace Replica

variable (r : Replica)

/-- The log handler's appends succeed: it and PALF are leader of the same term. -/
def AppendOpen : Prop :=
  r.palf.isLeader = true ∧ r.handlerRole = .leader ∧ r.handlerProposalId = r.palf.proposalId
  deriving Decidable

/-- `ObLogHandler::append_` up to `palf_handle_.append`: the log has its LSN and SCN. -/
def append (e : PalfEntry) : Replica :=
  { r with palf := r.palf.append e, inFlight := r.inFlight ++ [(e, false)] }

def setQueue (q : CbQueueIdx) (x : CbQueue) : Replica := { r with status := r.status.setQueue q x }

def slide (n : ℕ) : Replica := { r with palf := { r.palf with slid := n } }

/-- One step of PALF, of an appender, of a worker or of a report. -/
inductive Act
  | palf (a : PalfView.Act)
  | append (e : PalfEntry)
  | countAppend (i : ℕ)
  | pushAppend (i : ℕ)
  | take (q : CbQueueIdx)
  | execute (q : CbQueueIdx)
  | countApply (q : CbQueueIdx)
  | report (n : ℕ)
  | finishReport

def step : Act → Option Replica
  | .palf a => (r.palf.step a).map fun p => { r with palf := p }
  | .append e =>
    if r.AppendOpen ∧ r.palf.Follows e ∧ e.proposalId = r.palf.proposalId then some (r.append e)
    else none
  -- `push_append_cb` counts the callback before it pushes it
  | .countAppend i =>
    match r.inFlight[i]? with
    | some (e, false) =>
      some { r.setQueue e.queueIdx (r.status.cbQueues e.queueIdx).incTotalSubmitCbCnt with
        inFlight := r.inFlight.set i (e, true) }
    | _ => none
  | .pushAppend i =>
    match r.inFlight[i]? with
    | some (e, true) =>
      some { r.setQueue e.queueIdx ((r.status.cbQueues e.queueIdx).push e) with
        inFlight := r.inFlight.eraseIdx i }
    | _ => none
  | .take q =>
    ((r.status.cbQueues q).take r.status.palfCommittedEndLsn r.status.role).map (r.setQueue q)
  | .execute q => (r.status.cbQueues q).execute.map (r.setQueue q)
  | .countApply q => (r.status.cbQueues q).incTotalApplyCbCnt.map (r.setQueue q)
  -- the reports come from one thread, in the order of the log
  | .report n =>
    if r.reporting = none ∧ r.palf.slid < n ∧ n ≤ r.palf.committed then
      match r.palf.entries[n - 1]? with
      | some e =>
        match r.status.startReport e.endLsn e.scn e.proposalId with
        | some st => some { r.slide n with status := st, reporting := some e.endLsn }
        | none => some (r.slide n)
      | none => none
    else none
  | .finishReport =>
    match r.reporting with
    | some endLsn =>
      some { r with status := { r.status with palfCommittedEndLsn := endLsn }, reporting := none }
    | none => none

inductive Move : Replica → Replica → Prop
  | palf {r : Replica} {p : PalfView} (h : PalfView.Move r.palf p) : Move r { r with palf := p }
  | append {r : Replica} (e : PalfEntry) (hopen : r.AppendOpen) (hfol : r.palf.Follows e)
      (hpid : e.proposalId = r.palf.proposalId) : Move r (r.append e)
  | countAppend {r : Replica} {e : PalfEntry} (l l' : List (PalfEntry × Bool))
      (h : r.inFlight = l ++ (e, false) :: l') :
      Move r { r.setQueue e.queueIdx (r.status.cbQueues e.queueIdx).incTotalSubmitCbCnt with
        inFlight := l ++ (e, true) :: l' }
  | pushAppend {r : Replica} {e : PalfEntry} (l l' : List (PalfEntry × Bool))
      (h : r.inFlight = l ++ (e, true) :: l') :
      Move r { r.setQueue e.queueIdx ((r.status.cbQueues e.queueIdx).push e) with
        inFlight := l ++ l' }
  | take {r : Replica} (q : CbQueueIdx) {x : CbQueue}
      (h : (r.status.cbQueues q).take r.status.palfCommittedEndLsn r.status.role = some x) :
      Move r (r.setQueue q x)
  | execute {r : Replica} (q : CbQueueIdx) {x : CbQueue}
      (h : (r.status.cbQueues q).execute = some x) : Move r (r.setQueue q x)
  | countApply {r : Replica} (q : CbQueueIdx) {x : CbQueue}
      (h : (r.status.cbQueues q).incTotalApplyCbCnt = some x) : Move r (r.setQueue q x)
  | skipReport {r : Replica} (n : ℕ) (hidle : r.reporting = none) (hslid : r.palf.slid < n)
      (hcom : n ≤ r.palf.committed) : Move r (r.slide n)
  | startReport {r : Replica} (n : ℕ) {e : PalfEntry} (hidle : r.reporting = none)
      (hslid : r.palf.slid < n) (hcom : n ≤ r.palf.committed)
      (he : r.palf.entries[n - 1]? = some e) (hpid : e.proposalId = r.status.proposalId)
      (hrole : r.status.role = .leader) (hlsn : r.status.palfCommittedEndLsn < e.endLsn) :
      Move r { r.slide n with
        status := { r.status with palfCommittedEndScn := e.scn }
        reporting := some e.endLsn }
  | finishReport {r : Replica} {endLsn : ℕ} (h : r.reporting = some endLsn) :
      Move r { r with
        status := { r.status with palfCommittedEndLsn := endLsn }
        reporting := none }

theorem step_move {r r' : Replica} {a : Act} (h : r.step a = some r') : Move r r' := by
  cases a with
  | palf a =>
    obtain ⟨p, hp, rfl⟩ := map_eq_some_iff.mp h
    exact .palf (PalfView.step_move hp)
  | append e =>
    simp only [step, ite_none_right_eq_some, some.injEq] at h
    obtain ⟨⟨hopen, hfol, hpid⟩, rfl⟩ := h
    exact .append e hopen hfol hpid
  | countAppend i =>
    simp only [step] at h
    split at h
    case h_2 => exact nomatch h
    case h_1 e he =>
    obtain rfl := some.inj h
    obtain ⟨hi, hget⟩ := List.getElem?_eq_some_iff.mp he
    rw [List.set_eq_take_append_cons_drop, if_pos hi]
    refine .countAppend _ _ ?_
    rw [← hget, ← List.drop_eq_getElem_cons hi, List.take_append_drop]
  | pushAppend i =>
    simp only [step] at h
    split at h
    case h_2 => exact nomatch h
    case h_1 e he =>
    obtain rfl := some.inj h
    obtain ⟨hi, hget⟩ := List.getElem?_eq_some_iff.mp he
    rw [List.eraseIdx_eq_take_drop_succ]
    refine .pushAppend _ _ ?_
    rw [← hget, ← List.drop_eq_getElem_cons hi, List.take_append_drop]
  | take q =>
    obtain ⟨x, hx, rfl⟩ := map_eq_some_iff.mp h
    exact .take q hx
  | execute q =>
    obtain ⟨x, hx, rfl⟩ := map_eq_some_iff.mp h
    exact .execute q hx
  | countApply q =>
    obtain ⟨x, hx, rfl⟩ := map_eq_some_iff.mp h
    exact .countApply q hx
  | report n =>
    simp only [step, ite_none_right_eq_some] at h
    obtain ⟨⟨hidle, hslid, hcom⟩, h⟩ := h
    split at h
    case h_2 => exact nomatch h
    case h_1 e he =>
    split at h <;> obtain rfl := some.inj h
    case h_1 st hst =>
      simp only [ApplyStatus.startReport, ite_none_right_eq_some, some.injEq] at hst
      obtain ⟨⟨hpid, hrole, hlsn⟩, rfl⟩ := hst
      exact .startReport n hidle hslid hcom he hpid hrole hlsn
    case h_2 => exact .skipReport n hidle hslid hcom
  | finishReport =>
    simp only [step] at h
    split at h
    case h_2 => exact nomatch h
    case h_1 endLsn hr =>
    obtain rfl := some.inj h
    exact .finishReport hr

end Replica

end OceanBase.Apply
