import Mathlib

/-!
# Log-stream balance: unit groups and their migration tasks

`rootserver/ob_ls_balance_helper.cpp`. A tenant's log streams are spread over its unit groups.
An active unit group should hold `primary_zone_count` of them. `ObUnitGroupBalanceInfo` sorts the
log streams of one unit group into those it keeps and the redundant ones;
`generate_migrate_task_` then walks over the redundant log streams and writes alter tasks that
send them to unit groups with too few.

The three nested loops of `generate_migrate_task_` are kept: over the unit groups (`migrateLoop`),
over the redundant log streams of one of them from the back (`redundantLoop`), and over the
destinations (`destLoop`).

## Main results

* `initGroups_ids_nodup`
-/

namespace OceanBase.Rootserver

open List

/-- The return codes the modelled functions give. -/
inductive ObErr
  | invalidArgument
  | errUnexpected
  deriving DecidableEq

def invalidId : ℕ := 2 ^ 64 - 1

inductive ObLSStatus
  | empty
  | creating
  | created
  | normal
  | dropping
  | tenantDropping
  | waitOffline
  | createAbort
  | preTenantDropping
  | dropped
  | maxStatus
  deriving DecidableEq

def ObLSStatus.isInvalid (st : ObLSStatus) : Bool := st = .empty || st = .maxStatus

/-- `ObLSStatusInfo`: a log stream as `__all_ls_status` has it. -/
structure ObLSStatusInfo where
  tenantId : ℕ
  lsId : ℤ
  lsGroupId : ℕ
  status : ObLSStatus
  unitGroupId : ℕ
  primaryZone : String
  flag : ℤ

namespace ObLSStatusInfo

/-- `ObLSStatusInfo::is_valid`. The system log stream is number 1. -/
def isValid (ls : ObLSStatusInfo) : Bool :=
  ls.lsId ≠ -1 && ls.tenantId ≠ 0 &&
    (ls.lsId = 1 || (ls.lsGroupId ≠ invalidId && ls.unitGroupId ≠ invalidId)) &&
    !ls.status.isInvalid && 0 ≤ ls.flag

def init (tenantId : ℕ) (lsId : ℤ) (lsGroupId : ℕ) (status : ObLSStatus) (unitGroupId : ℕ)
    (primaryZone : String) (flag : ℤ) : Except ObErr ObLSStatusInfo :=
  if lsId = -1 ∨ flag < 0 ∨ tenantId = 0 ∨ status.isInvalid = true then
    .error .invalidArgument
  else .ok ⟨tenantId, lsId, lsGroupId, status, unitGroupId, primaryZone, flag⟩

/-- The log stream with the log-stream group of its destination. -/
def inGroup (ls : ObLSStatusInfo) (lsGroupId : ℕ) : ObLSStatusInfo :=
  { ls with lsGroupId }

theorem isValid_inGroup {ls : ObLSStatusInfo} {gid} (hv : ls.isValid = true)
    (hgid : gid ≠ invalidId) : (ls.inGroup gid).isValid = true := by
  simp only [isValid, Bool.and_eq_true, Bool.or_eq_true, decide_eq_true_eq] at hv ⊢
  simp only [inGroup]
  tauto

theorem init_inGroup {ls : ObLSStatusInfo} (gid : ℕ) (hv : ls.isValid = true) :
    init ls.tenantId ls.lsId gid ls.status ls.unitGroupId ls.primaryZone ls.flag
      = .ok (ls.inGroup gid) := by
  simp only [isValid, Bool.and_eq_true, Bool.not_eq_true', decide_eq_true_eq] at hv
  obtain ⟨⟨⟨⟨hid, htenant⟩, -⟩, hst⟩, hflag⟩ := hv
  have hst' : ¬ ls.status.isInvalid = true := by rw [hst]; exact Bool.false_ne_true
  rw [init, if_neg (by rintro (h | h | h | h) <;> first | contradiction | omega)]
  rfl

end ObLSStatusInfo

/-! ## Unit groups -/

inductive UnitStatus
  | active
  | deleting
  | maxStatus
  deriving DecidableEq

structure ObSimpleUnitGroup where
  unitGroupId : ℕ
  status : UnitStatus

/-- `ObUnitGroupBalanceInfo`. The last three fields are what `add_ls_status_info`, the only
function that adds log streams, maintains. -/
structure ObUnitGroupBalanceInfo where
  primaryZoneCount : ℕ
  unitGroup : ObSimpleUnitGroup
  redundantLsArray : List ObLSStatusInfo
  normalLsArray : List ObLSStatusInfo
  normal_le : normalLsArray.length ≤ primaryZoneCount
  inactive_normal : unitGroup.status ≠ .active → normalLsArray = []
  redundant_full : unitGroup.status = .active → redundantLsArray ≠ [] →
    normalLsArray.length = primaryZoneCount

namespace ObUnitGroupBalanceInfo

def new (unitGroup : ObSimpleUnitGroup) (primaryZoneNum : ℕ) : ObUnitGroupBalanceInfo where
  primaryZoneCount := primaryZoneNum
  unitGroup := unitGroup
  redundantLsArray := []
  normalLsArray := []
  normal_le := Nat.zero_le _
  inactive_normal _ := rfl
  redundant_full _ h := absurd rfl h

section

variable (g : ObUnitGroupBalanceInfo)

def isActive : Bool := g.unitGroup.status = .active

def unitGroupId : ℕ := g.unitGroup.unitGroupId

/-- `get_lack_ls_count`; it is never negative, by `normal_le`. -/
def lackLsCount : ℕ :=
  if g.isActive then g.primaryZoneCount - g.normalLsArray.length else 0

/-- The push of `add_ls_status_info`, after its check of the argument. -/
def push (ls : ObLSStatusInfo) : ObUnitGroupBalanceInfo :=
  if h : g.primaryZoneCount ≤ g.normalLsArray.length ∨ g.isActive = false then
    { g with
      redundantLsArray := g.redundantLsArray ++ [ls]
      redundant_full := fun hact _ => by
        have hle := g.normal_le
        rcases h with h | h
        · omega
        · simp [isActive, hact] at h }
  else
    { g with
      normalLsArray := g.normalLsArray ++ [ls]
      normal_le := by rw [length_append, length_singleton]; omega
      inactive_normal := fun hin => absurd (by simp [isActive, hin]) (not_or.mp h).2
      redundant_full := fun hact hne => by
        have := g.redundant_full hact hne
        omega }

def addLsStatusInfo (ls : ObLSStatusInfo) :
    Except ObErr ObUnitGroupBalanceInfo :=
  if ls.isValid then .ok (g.push ls) else .error .invalidArgument

def removeRedundantLs (index : ℕ) :
    Except ObErr ObUnitGroupBalanceInfo :=
  if g.redundantLsArray.length ≤ index then .error .invalidArgument
  else .ok { g with
    redundantLsArray := g.redundantLsArray.eraseIdx index
    redundant_full := fun hact hne => g.redundant_full hact fun hnil => hne (by simp [hnil]) }

end

end ObUnitGroupBalanceInfo

/-! ## `init` -/

/-- `find_unit_group_balance_index` and the `add_ls_status_info` at the index it gives. A log
stream whose unit group is not in the array gets a new, deleting one. -/
def initStep (primaryZoneNum : ℕ) (groups : List ObUnitGroupBalanceInfo) (ls : ObLSStatusInfo) :
    Except ObErr (List ObUnitGroupBalanceInfo) :=
  if ls.unitGroupId = invalidId then .error .invalidArgument
  else
    let groups' := if groups.any (fun g => g.unitGroupId = ls.unitGroupId) then groups
      else groups ++ [.new ⟨ls.unitGroupId, .deleting⟩ primaryZoneNum]
    let index := groups'.findIdx (fun g => g.unitGroupId = ls.unitGroupId)
    match groups'[index]? with
    | none => .error .errUnexpected
    | some g => (g.addLsStatusInfo ls).map fun g' => groups'.set index g'

/-- The two loops of `ObLSBalanceTaskHelper::init`. -/
def initGroups (primaryZoneNum : ℕ) (unitGroupArray : List ObSimpleUnitGroup)
    (statusArray : List ObLSStatusInfo) : Except ObErr (List ObUnitGroupBalanceInfo) :=
  statusArray.foldlM (initStep primaryZoneNum) (unitGroupArray.map (.new · primaryZoneNum))

theorem ObUnitGroupBalanceInfo.unitGroupId_push (g : ObUnitGroupBalanceInfo) (ls : ObLSStatusInfo) :
    (g.push ls).unitGroupId = g.unitGroupId := by
  unfold push
  split <;> rfl

theorem map_set_of_getElem? {α β : Type} (f : α → β) {l : List α} {i : ℕ} {a b : α}
    (h : l[i]? = some a) (hf : f b = f a) : (l.set i b).map f = l.map f := by
  refine ext_getElem? fun k => ?_
  simp only [getElem?_map, getElem?_set]
  grind

open ObUnitGroupBalanceInfo

theorem initStep_ids_nodup {pz : ℕ} {groups groups' : List ObUnitGroupBalanceInfo}
    {ls : ObLSStatusInfo} (h : initStep pz groups ls = .ok groups')
    (hids : (groups.map (·.unitGroupId)).Nodup) : (groups'.map (·.unitGroupId)).Nodup := by
  unfold initStep at h
  split at h
  · exact absurd h (by simp)
  dsimp only at h
  -- the array with the unit group of the log stream, which is new only if no other has its id
  generalize hgs : (if groups.any (fun g => g.unitGroupId = ls.unitGroupId) then groups
      else groups ++ [.new ⟨ls.unitGroupId, .deleting⟩ pz]) = gs at h
  have hgs_ids : (gs.map (·.unitGroupId)).Nodup := by
    subst hgs
    split
    · exact hids
    next hnone =>
    have hnew : ls.unitGroupId ∉ groups.map (·.unitGroupId) := fun hmem => by
      obtain ⟨x, hx, heq⟩ := mem_map.mp hmem
      exact hnone (any_eq_true.mpr ⟨x, hx, decide_eq_true heq⟩)
    rw [map_append, map_singleton, nodup_append]
    refine ⟨hids, pairwise_singleton _ _, fun a ha b hb heq => hnew ?_⟩
    have heq' : a = ls.unitGroupId := heq.trans (mem_singleton.mp hb)
    exact heq' ▸ ha
  split at h
  · exact absurd h (by simp)
  next g hg =>
  unfold addLsStatusInfo at h
  split at h
  · obtain rfl := Except.ok.inj h
    rw [map_set_of_getElem? (·.unitGroupId) hg (g.unitGroupId_push ls)]
    exact hgs_ids
  · exact absurd h (by simp [Except.map])

/-- **The unit groups of the initialised array differ from each other**, those included that
were added for log streams without one. -/
theorem initGroups_ids_nodup {pz unitGroupArray statusArray groups}
    (h : initGroups pz unitGroupArray statusArray = .ok groups)
    (hids : (unitGroupArray.map (·.unitGroupId)).Nodup) : (groups.map (·.unitGroupId)).Nodup := by
  have hstart : ((unitGroupArray.map (new · pz)).map
      (·.unitGroupId)).Nodup := by
    rw [map_map]
    exact hids
  unfold initGroups at h
  generalize unitGroupArray.map (new · pz) = gs at h hstart
  induction statusArray generalizing gs with
  | nil => exact Except.ok.inj h ▸ hstart
  | cons ls rest ih =>
    rw [foldlM_cons] at h
    cases hstep : initStep pz gs ls with
    | error e => simp [hstep, bind, Except.bind] at h
    | ok gs' =>
    rw [hstep] at h
    exact ih gs' h (initStep_ids_nodup hstep hstart)

/-! ## Task generation -/

/-- The part of an alter task (`ObBalanceTask`) that differs between tasks: the log stream and
its new log-stream group. `destUnitGroup` is the unit group of `dest_unit_group`; the source
does not store it, since the log-stream group stands for it. -/
structure AlterTask where
  lsId : ℤ
  lsGroupId : ℕ
  destUnitGroup : ℕ
  deriving DecidableEq

/-- What the generation writes: `task_array_`, and how many log-stream group ids it has
fetched. -/
structure Output where
  taskArray : List AlterTask
  fetched : ℕ

section Generate

-- the ids `fetch_new_ls_group_id` hands out, in order
variable (newLsGroupId : ℕ → ℕ)

/-- The log-stream group of a destination: that of its first log stream, or a new one. -/
def destLsGroupId (dest : ObUnitGroupBalanceInfo) (out : Output) : ℕ × ℕ :=
  match dest.normalLsArray.head? with
  | some ls => (ls.lsGroupId, out.fetched)
  | none => (newLsGroupId out.fetched, out.fetched + 1)

/-- `construct_ls_alter_task_`, its ids and the job being valid and its task id created. -/
def constructLsAlterTask (lsId : ℤ) (lsGroupId destUnitGroup : ℕ) (out : Output) :
    Except ObErr Output :=
  if lsId = -1 ∨ lsGroupId = invalidId then .error .invalidArgument
  else .ok { out with taskArray := out.taskArray ++ [⟨lsId, lsGroupId, destUnitGroup⟩] }

def generateLsAlterTask (ls : ObLSStatusInfo) (dest : ObUnitGroupBalanceInfo) (out : Output) :
    Except ObErr (ObUnitGroupBalanceInfo × Output) :=
  if ls.isValid = false ∨ dest.lackLsCount = 0 then .error .invalidArgument
  else do
    let (lsGroupId, fetched) := destLsGroupId newLsGroupId dest out
    let out ← constructLsAlterTask ls.lsId lsGroupId dest.unitGroupId { out with fetched }
    let destLs ← ObLSStatusInfo.init ls.tenantId ls.lsId lsGroupId ls.status ls.unitGroupId
      ls.primaryZone ls.flag
    let dest ← dest.addLsStatusInfo destLs
    return (dest, out)

/-- The loop over `k`: the destinations of one redundant log stream. The flag is `new_task`. -/
def destLoop (ls : ObLSStatusInfo) (srcUnitGroup : ℕ) :
    List ObUnitGroupBalanceInfo → Output →
      Except ObErr (Bool × List ObUnitGroupBalanceInfo × Output)
  | [], out => .ok (false, [], out)
  | dest :: rest, out =>
    if 0 < dest.lackLsCount then
      if srcUnitGroup = dest.unitGroupId then .error .errUnexpected
      else do
        let (dest, out) ← generateLsAlterTask newLsGroupId ls dest out
        -- the loop has no exit here: it goes on to the next destination
        let (_, rest, out) ← destLoop ls srcUnitGroup rest out
        return (true, dest :: rest, out)
    else do
      let (newTask, rest, out) ← destLoop ls srcUnitGroup rest out
      return (newTask, dest :: rest, out)

/-- The loop over `j` on the unit group at `i`, from the redundant log stream before `j` down to
the first one. -/
def redundantLoop (i : ℕ) : ℕ → List ObUnitGroupBalanceInfo → Output →
    Except ObErr (Bool × List ObUnitGroupBalanceInfo × Output)
  | 0, groups, out => .ok (true, groups, out)
  | j + 1, groups, out =>
    match groups[i]? with
    | none => .error .errUnexpected
    | some info =>
      match info.redundantLsArray[j]? with
      | none => .error .errUnexpected
      | some ls => do
        let (newTask, groups, out) ← destLoop newLsGroupId ls info.unitGroupId groups out
        if newTask then
          match groups[i]? with
          | none => .error .errUnexpected
          | some info => do
            let info ← info.removeRedundantLs j
            redundantLoop i j (groups.set i info) out
        else return (false, groups, out)

/-- The loop over `i`; the first argument counts the unit groups that are left. -/
def migrateLoop : ℕ → ℕ → List ObUnitGroupBalanceInfo → Output →
    Except ObErr (List ObUnitGroupBalanceInfo × Output)
  | 0, _, groups, out => .ok (groups, out)
  | n + 1, i, groups, out => do
    let count := (groups[i]?.map (·.redundantLsArray.length)).getD 0
    let (newTask, groups, out) ← redundantLoop newLsGroupId i count groups out
    if newTask then migrateLoop n (i + 1) groups out else return (groups, out)

/-- `generate_migrate_task_`, from an empty `task_array_`. -/
def generateMigrateTask (groups : List ObUnitGroupBalanceInfo) :
    Except ObErr (List ObUnitGroupBalanceInfo × Output) :=
  migrateLoop newLsGroupId groups.length 0 groups ⟨[], 0⟩

end Generate

end OceanBase.Rootserver
