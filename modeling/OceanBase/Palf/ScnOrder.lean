import OceanBase.Palf.LsnTiling

/-!
# The order of SCNs

The SCNs of the entries that a leader writes increase, and are not below the one the caller asks
for. They are stored as differences to a base, with wrap-around. As long as the last SCN has its
highest bit free, no subtraction wraps around where it matters, and no difference is cut to the size
of its bit-field. Valid SCNs have the two highest bits free; only calls that fail get beyond them.

The last log id of the allocator is the last one handed out. Its last SCN may be larger:
`inc_update_scn_base` raises it, and so does a call that has moved the base and then has to wait.

## Main results

* `scns_strictly_increasing`: every run
-/

namespace OceanBase.Palf

open LSNAllocator Placement List Nat

namespace LSNAllocator

/-! ## Arithmetic without wrap-around -/

/-- The last SCN before it is taken modulo `2 ^ 64`. -/
def scnSum (a : LSNAllocator) : ℕ := a.scnBase + a.lsnTsMeta.scnDelta

/-- The last SCN has its highest bit free. -/
def NoWrap (a : LSNAllocator) : Prop := a.scnSum < 2 ^ 63
  deriving Decidable

variable {x : AllocArgs} {a : LSNAllocator} {p : Placement}

theorem lastScn_eq (h : a.scnSum < 2 ^ 64) : a.lastScn = a.scnSum := mod_eq_of_lt h

theorem subU64_eq {m n} (hle : n ≤ m) (hm : m < 2 ^ 64) : subU64 m n = m - n := by
  unfold subU64
  omega

theorem NoWrap.lastScn_eq (h : a.NoWrap) : a.lastScn = a.scnSum :=
  LSNAllocator.lastScn_eq (h.trans (by decide))

theorem scnSum_updateBase : (a.updateBase x).scnSum = max x.baseScn a.lastScn := rfl

section

variable (h : a.NoWrap)
include h

theorem NoWrap.updateBase (hx : x.isValid) : (a.updateBase x).NoWrap := by
  have hbase : x.baseScn ≤ maxScn := hx.2.1
  unfold NoWrap
  rw [scnSum_updateBase, h.lastScn_eq]
  unfold NoWrap at h
  unfold maxScn at hbase
  omega

theorem nextScn_eq : a.nextScn x = max x.baseScn (a.scnSum + 1) := by
  unfold nextScn
  rw [h.lastScn_eq, mod_eq_of_lt]
  unfold NoWrap at h
  omega

theorem nextScn_lt (hx : x.isValid) : a.nextScn x < 2 ^ 63 + 1 := by
  have hbase : x.baseScn ≤ maxScn := hx.2.1
  rw [nextScn_eq h]
  unfold NoWrap at h
  unfold maxScn at hbase
  omega

theorem scnBase_le_nextScn : a.scnBase ≤ a.nextScn x := by
  rw [nextScn_eq h, scnSum]
  omega

/-- **The SCN that is handed out** is the one the caller asks for, or follows the last one. -/
theorem scnVal_eq (hx : x.isValid) : a.scnVal x = max x.baseScn (a.scnSum + 1) := by
  have hle := scnBase_le_nextScn (x := x) h
  have hlt := nextScn_lt h hx
  rw [← nextScn_eq h]
  unfold scnVal
  rw [subU64_eq hle (by omega)]
  omega

/-- Differences of SCNs are never cut to 35 bits, as the base is moved before. -/
theorem nextScnDelta_lt (hx : x.isValid) (hb : ¬ a.needUpdateBase x) :
    a.nextScnDelta x p < 2 ^ 35 := by
  have hle := scnBase_le_nextScn (x := x) h
  have hlt := nextScn_lt h hx
  have hinc : p.scnInc ≤ 1 := by
    unfold Placement.scnInc
    split_ifs <;> omega
  have hts := (not_or.mp hb).1
  rw [mod_eq_of_lt (by omega), subU64_eq (by omega) (by omega)] at hts
  unfold logTsDeltaUpperBound at hts
  unfold nextScnDelta
  rw [subU64_eq hle (by omega)]
  omega

theorem scnSum_advance (hx : x.isValid) (hb : ¬ a.needUpdateBase x) :
    (a.advance x p).scnSum = a.scnVal x + p.scnInc := by
  have hle := scnBase_le_nextScn (x := x) h
  have hlt := nextScn_lt h hx
  have hdelta : a.nextScnDelta x p < 2 ^ 35 := nextScnDelta_lt h hx hb
  rw [scnVal_eq h hx, ← nextScn_eq h]
  simp only [scnSum, advance, Fin.val_ofNat, mod_eq_of_lt hdelta]
  unfold nextScnDelta
  rw [subU64_eq hle (by omega)]
  omega

end

end LSNAllocator

/-! ## Runs -/

/-- A log id and an SCN that are in use. `base` is the SCN that the caller of `submit_log` has asked
for; the log before the first one and logs of other leaders have none. -/
structure Issue where
  logId : ℤ
  scn : ℕ
  base : Option ℕ

/-- The log ids and SCNs of the entries that `submit_log` writes, the last one first. An entry with
an invalid SCN is refused. -/
def written (x : AllocArgs) (r : Allocated) : List Issue :=
  (((r.entries x.size).filter fun e => scnIsValid e.scn).map
    fun e => ⟨e.logId, e.scn, some x.baseScn⟩).reverse

/-- The allocator, what has been issued so far, and whether the last SCN may have been raised since
then. -/
structure ScnRun where
  alloc : LSNAllocator
  issued : List Issue
  raised : Bool

/-- The log id, the SCN and the end of a log behind the ones issued so far. -/
def ScnRun.Later (s : ScnRun) (lsn : ℕ) (logId : ℤ) (scn : ℕ) : Prop :=
  s.alloc.endLsn ≤ lsn ∧ ∀ i ∈ s.issued, i.logId < logId ∧ i.scn < scn

/-- The operations of a replica that is not truncated. -/
inductive ScnRunStep : ScnRun → ScnRun → Prop
  | alloc {s : ScnRun} (x : AllocArgs) (fuel : ℕ) {r a'}
      (hw : s.alloc.NoWrap) (h : s.alloc.allocLsnScn x fuel = some (.ok r, a')) :
      ScnRunStep s ⟨a', written x r ++ s.issued, false⟩
  | allocFailed {s : ScnRun} (x : AllocArgs) (fuel : ℕ) {err a'}
      (hw : s.alloc.NoWrap) (h : s.alloc.allocLsnScn x fuel = some (.error err, a')) :
      ScnRunStep s ⟨a', s.issued, true⟩
  | tryFreeze {s} : ScnRunStep s ⟨s.alloc.tryFreeze.2, s.issued, s.raised⟩
  | tryFreezeByTime {s} : ScnRunStep s ⟨s.alloc.tryFreezeByTime.2, s.issued, s.raised⟩
  | incUpdateScnBase {s : ScnRun} (refScn : ℕ) {a'}
      (h : s.alloc.incUpdateScnBase refScn = .ok a') : ScnRunStep s ⟨a', s.issued, true⟩
  | incUpdateLastLogInfo {s : ScnRun} (lsn : ℕ) (logId : ℤ) (scn : ℕ) {a'}
      (hw : s.alloc.NoWrap) (hl : s.Later lsn logId scn)
      (h : s.alloc.incUpdateLastLogInfo lsn logId scn = .ok a') :
      ScnRunStep s ⟨a', ⟨logId, scn, none⟩ :: s.issued, false⟩

def scnRuns : Machine ScnRun where
  init s := ∃ logId scn startLsn, init logId scn startLsn = .ok s.alloc ∧
    s.issued = [⟨logId, scn, none⟩] ∧ s.raised = false
  step := ScnRunStep

/-! ## The invariant -/

/-- SCNs increase, are not below what the callers have asked for, and not above `top`. -/
structure Ordered (l : List Issue) (top : ℕ) : Prop where
  pairwise : l.Pairwise fun i j => j.scn < i.scn
  base_le : ∀ i ∈ l, ∀ b, i.base = some b → b ≤ i.scn
  le_top : ∀ i ∈ l, i.scn ≤ top

variable {a' : LSNAllocator} {l : List Issue} {fuel : ℕ}

theorem Ordered.mono {m n} (h : Ordered l m) (hle : m ≤ n) : Ordered l n :=
  ⟨h.pairwise, h.base_le, fun i hi => (h.le_top i hi).trans hle⟩

theorem Ordered.cons {n} (h : Ordered l n) {i : Issue} (hlt : n < i.scn)
    (hbase : ∀ b, i.base = some b → b ≤ i.scn) : Ordered (i :: l) i.scn where
  pairwise := pairwise_cons.mpr ⟨fun j hj => (h.le_top j hj).trans_lt hlt, h.pairwise⟩
  base_le := forall_mem_cons.mpr ⟨hbase, h.base_le⟩
  le_top := forall_mem_cons.mpr ⟨le_rfl, fun j hj => (h.le_top j hj).trans hlt.le⟩

theorem Ordered.issue {n v base} (h : Ordered l n) (hlt : n < v)
    (hbase : base ≤ v) (logId : ℤ) : Ordered (⟨logId, v, some base⟩ :: l) v :=
  h.cons hlt fun _ hb => Option.some.inj hb ▸ hbase

/-- The last issue is that of the allocator. -/
def Top (s : ScnRun) : Prop :=
  ∃ i rest, s.issued = i :: rest ∧ s.alloc.maxLogId = i.logId ∧
    (s.raised = false → s.alloc.scnSum = i.scn)

/-- SCNs are ordered, no log id is above the last one; and while the last SCN is a valid one, the
last issue is that of the allocator. -/
structure ScnInv (s : ScnRun) : Prop where
  sum_lt : s.alloc.scnSum < 2 ^ 64
  ordered : Ordered s.issued s.alloc.scnSum
  logId_le : ∀ i ∈ s.issued, i.logId ≤ s.alloc.maxLogId
  top : s.alloc.scnSum ≤ maxScn → Top s

variable {s s' : ScnRun} {x : AllocArgs}

theorem Top.raised (h : Top s) (hid : a'.maxLogId = s.alloc.maxLogId) :
    Top ⟨a', s.issued, true⟩ := by
  obtain ⟨i, rest, hi, hmax, -⟩ := h
  exact ⟨i, rest, hi, hid.trans hmax, nofun⟩

theorem place_isNewGroupLog {m size}
    (h : (place m size).needGenPaddingEntry = true) : (place m size).isNewGroupLog = true := by
  unfold place at h ⊢
  dsimp only at h ⊢
  split_ifs at h ⊢
  all_goals rfl

/-- What is written after a call: the log with the SCN that was handed out; or a padding entry with
that SCN, and behind it the log with the next one if that is valid. -/
theorem written_cases {a : LSNAllocator} {p : Placement} (hscn : a.scnVal x ≤ maxScn)
    (hnew : p.needGenPaddingEntry = true → p.isNewGroupLog = true) :
    p.scnInc = 0 ∧ written x (a.handOut x p) =
      [⟨a.maxLogId + p.logIdInc, a.scnVal x, some x.baseScn⟩] ∨
    p.scnInc = 1 ∧ a.scnVal x < maxScn ∧ written x (a.handOut x p) =
      [⟨a.maxLogId + p.logIdInc, a.scnVal x + 1, some x.baseScn⟩,
        ⟨a.maxLogId + 1, a.scnVal x, some x.baseScn⟩] ∨
    p.scnInc = 1 ∧ a.scnVal x = maxScn ∧ written x (a.handOut x p) =
      [⟨a.maxLogId + 1, a.scnVal x, some x.baseScn⟩] := by
  cases hp : p.needGenPaddingEntry with
  | false =>
    left
    have hlog : (if p.isNewGroupLog then a.maxLogId + 1 else a.maxLogId) =
        a.maxLogId + p.logIdInc := by
      simp only [logIdInc, hp, Bool.false_eq_true, if_false, add_zero]
      split_ifs <;> simp
    refine ⟨by simp [Placement.scnInc, hp], ?_⟩
    simp [written, Allocated.entries, handOut, hp, scnIsValid, hscn, hlog]
  | true =>
  right
  have hinc : p.scnInc = 1 := by simp [Placement.scnInc, hp]
  have hlog : a.maxLogId + 1 + 1 = a.maxLogId + p.logIdInc := by
    simp only [Placement.logIdInc, hp, hnew hp, if_true]
    omega
  have hone : ¬ (maxScn ≤ 1 ∨ ¬ scnIsValid (a.scnVal x)) :=
    not_or.mpr ⟨by decide, not_not.mpr hscn⟩
  rcases lt_or_eq_of_le hscn with hlt | heq
  · left
    have hplus := scnPlus_one hlt
    have hvalid : a.scnVal x + 1 ≤ maxScn := hlt
    refine ⟨hinc, hlt, ?_⟩
    simp [written, Allocated.entries, handOut, hp, hnew hp, scnIsValid, hscn, hplus,
      hvalid, hlog]
  right
  -- there is no SCN left for the log itself
  have hplus : scnPlus (a.scnVal x) 1 = invalidScn := by
    rw [scnPlus, if_neg hone, if_pos (by omega)]
  have hinvalid : ¬ invalidScn ≤ maxScn := by decide
  refine ⟨hinc, heq, ?_⟩
  simp [written, Allocated.entries, handOut, hp, hnew hp, scnIsValid, hscn, hplus,
    hinvalid]

/-- A padding entry takes a log id of its own. -/
theorem one_le_logIdInc {p : Placement} (h : p.scnInc = 1) : 1 ≤ p.logIdInc := by
  unfold Placement.scnInc at h
  unfold Placement.logIdInc
  split_ifs at h ⊢ <;> omega

/-! ### Allocations -/

theorem allocLsnScn_pass {a a' : LSNAllocator} {res}
    (hw : a.NoWrap) (h : a.allocLsnScn x fuel = some (res, a')) :
    res = .error .invalidArgument ∧ a' = a ∨
    x.isValid ∧ ∃ b : LSNAllocator, b.NoWrap ∧ b.maxLogId = a.maxLogId ∧ a.scnSum ≤ b.scnSum ∧
      ¬ b.needUpdateBase x ∧ b.allocPlaced x (place b.lsnTsMeta x.size) = (res, a') := by
  have hbase : ∀ b : LSNAllocator,
      (x.isValid → b.NoWrap ∧ b.maxLogId = a.maxLogId ∧ a.scnSum ≤ b.scnSum) →
      x.isValid → (b.updateBase x).NoWrap ∧ (b.updateBase x).maxLogId = a.maxLogId ∧
        a.scnSum ≤ (b.updateBase x).scnSum := by
    intro b hb hx
    obtain ⟨hnw, hid, hle⟩ := hb hx
    refine ⟨hnw.updateBase hx, maxLogId_updateBase.trans hid, ?_⟩
    rw [scnSum_updateBase, hnw.lastScn_eq]
    omega
  rcases allocLsnScn_ind hbase (fun _ => ⟨hw, rfl, le_rfl⟩) h with
    ⟨-, hres, ha⟩ | ⟨hx, b, hb, hnu, hpass⟩
  · exact .inl ⟨hres, ha⟩
  obtain ⟨hnw, hid, hle⟩ := hb hx
  exact .inr ⟨hx, b, hnw, hid, hle, hnu, hpass⟩

theorem ScnInv.alloc (hs : ScnInv s) {r}
    (hw : s.alloc.NoWrap) (h : s.alloc.allocLsnScn x fuel = some (.ok r, a')) :
    ScnInv ⟨a', written x r ++ s.issued, false⟩ := by
  rcases allocLsnScn_pass hw h with ⟨hres, -⟩ | ⟨hx, b, hnw, hid, hle, hnu, hpass⟩
  · exact nomatch hres
  rcases allocPlaced_cases hpass with ⟨hres, -⟩ | ⟨hres, -⟩ | ⟨hres, rfl, hscn⟩
  · exact nomatch hres
  · exact nomatch hres
  cases hres
  have hval : b.scnVal x = max x.baseScn (b.scnSum + 1) := scnVal_eq hnw hx
  have hsum : ∀ p, (b.advance x p).scnSum = b.scnVal x + p.scnInc := fun p =>
    scnSum_advance hnw hx hnu
  have hlog : ∀ p, (b.advance x p).maxLogId = b.maxLogId + p.logIdInc := fun p =>
    maxLogId_advance hnu
  have hold : ∀ p, ∀ i ∈ s.issued, i.logId ≤ (b.advance x p).maxLogId := fun p i hi => by
    have := hs.logId_le i hi
    rw [hlog]
    omega
  have hlt : s.alloc.scnSum < b.scnVal x := by omega
  have hbase : x.baseScn ≤ b.scnVal x := by omega
  have hmax : maxScn < 2 ^ 64 - 1 := by decide
  have hpad : ∀ p : Placement, p.scnInc = 1 → b.maxLogId + 1 ≤ (b.advance x p).maxLogId := by
    intro p hinc
    have := one_le_logIdInc hinc
    rw [hlog]
    omega
  rcases written_cases hscn place_isNewGroupLog with
    ⟨hinc, hwr⟩ | ⟨hinc, hlast, hwr⟩ | ⟨hinc, hlast, hwr⟩
  · rw [hwr]
    refine ⟨?_, ?_, ?_, fun _ => ⟨_, s.issued, rfl, hlog _, fun _ => ?_⟩⟩
    · rw [hsum, hinc]
      omega
    · rw [hsum, hinc, add_zero]
      exact hs.ordered.issue hlt hbase _
    · exact forall_mem_cons.mpr ⟨(hlog _).ge, hold _⟩
    · rw [hsum, hinc, add_zero]
  · rw [hwr]
    refine ⟨?_, ?_, ?_, fun _ => ⟨_, _ :: s.issued, rfl, hlog _, fun _ => ?_⟩⟩
    · rw [hsum, hinc]
      omega
    · rw [hsum, hinc]
      exact (hs.ordered.issue hlt hbase _).issue (by omega) (by omega) _
    · exact forall_mem_cons.mpr ⟨(hlog _).ge, forall_mem_cons.mpr ⟨hpad _ hinc, hold _⟩⟩
    · rw [hsum, hinc]
  rw [hwr]
  refine ⟨?_, ?_, forall_mem_cons.mpr ⟨hpad _ hinc, hold _⟩, fun hvalid => ?_⟩
  · rw [hsum, hinc]
    omega
  · rw [hsum, hinc]
    exact (hs.ordered.issue hlt hbase _).mono (by omega)
  · rw [hsum, hinc] at hvalid
    omega

theorem ScnInv.allocFailed (hs : ScnInv s) {err}
    (hw : s.alloc.NoWrap) (h : s.alloc.allocLsnScn x fuel = some (.error err, a')) :
    ScnInv ⟨a', s.issued, true⟩ := by
  rcases allocLsnScn_pass hw h with ⟨-, rfl⟩ | ⟨hx, b, hnw, hid, hle, hnu, hpass⟩
  · exact { hs with top := fun hvalid => (hs.top hvalid).raised rfl }
  rcases allocPlaced_cases hpass with ⟨-, rfl⟩ | ⟨-, rfl, hscn⟩ | ⟨hres, -⟩
  · exact ⟨hnw.trans (by decide), hs.ordered.mono hle, hid.symm ▸ hs.logId_le,
      fun hvalid => (hs.top (hle.trans hvalid)).raised hid⟩
  · have hval : b.scnVal x = max x.baseScn (b.scnSum + 1) := scnVal_eq hnw hx
    have hsum : (b.advance x (place b.lsnTsMeta x.size)).scnSum =
        b.scnVal x + (place b.lsnTsMeta x.size).scnInc := scnSum_advance hnw hx hnu
    have hinc : (place b.lsnTsMeta x.size).scnInc ≤ 1 := by
      unfold Placement.scnInc
      split_ifs <;> omega
    have hbase : x.baseScn ≤ maxScn := hx.2.1
    have hmax : maxScn < 2 ^ 62 := by decide
    unfold NoWrap at hnw
    refine ⟨?_, hs.ordered.mono ?_, fun i hi => ?_, fun hvalid => ?_⟩
    · rw [hsum]
      omega
    · rw [hsum]
      omega
    · have := hs.logId_le i hi
      rw [show _ = b.maxLogId + _ from maxLogId_advance hnu]
      omega
    · rw [hsum] at hvalid
      omega
  · exact nomatch hres

/-! ### The other operations -/

theorem ScnInv.cut (hs : ScnInv s) : ScnInv ⟨s.alloc.cut, s.issued, s.raised⟩ :=
  ⟨hs.sum_lt, hs.ordered, hs.logId_le, hs.top⟩

theorem ScnInv.incUpdateScnBase (hs : ScnInv s) {refScn}
    (h : s.alloc.incUpdateScnBase refScn = .ok a') : ScnInv ⟨a', s.issued, true⟩ := by
  have hlast := LSNAllocator.lastScn_eq hs.sum_lt
  unfold LSNAllocator.incUpdateScnBase at h
  split_ifs at h with hvalid hlt
  · cases h
    exact { hs with top := fun hle => (hs.top hle).raised rfl }
  cases h
  rw [hlast, not_lt] at hlt
  have hle : refScn ≤ maxScn := hvalid
  refine ⟨?_, hs.ordered.mono hlt, hs.logId_le, fun _ => (hs.top (hlt.trans hle)).raised rfl⟩
  exact hle.trans_lt (by decide)

section

variable (hs : ScnInv s) {lsn : ℕ} {logId : ℤ} {scn : ℕ} (hw : s.alloc.NoWrap)
  (hl : s.Later lsn logId scn) (h : s.alloc.incUpdateLastLogInfo lsn logId scn = .ok a')
include hs hw hl h

theorem incUpdateLastLogInfo_later : scn ≤ maxScn ∧
      ((maxScn < s.alloc.scnSum ∧ logId ≤ s.alloc.maxLogId) ∧ a' = s.alloc ∨
        a'.scnSum = scn ∧ a'.maxLogId = logId) := by
  unfold incUpdateLastLogInfo at h
  split_ifs at h with harg hold hfar
  · -- a log behind all others is skipped only if a call has failed after using up a log id
    cases h
    have hscn : scn ≤ maxScn := not_not.mp fun hn => harg (.inr (.inl hn))
    have hid := hold.resolve_right (not_lt.mpr hl.1)
    refine ⟨hscn, .inl ⟨⟨?_, hid.le⟩, rfl⟩⟩
    by_contra hle
    obtain ⟨i, rest, hi, hmax, -⟩ := hs.top (not_lt.mp hle)
    have hlt := (hl.2 i (hi ▸ mem_cons_self)).1
    omega
  · cases h
    refine ⟨not_not.mp fun hn => harg (.inr (.inl hn)), .inr ⟨rfl, ?_⟩⟩
    simp [maxLogId]
  cases h
  have hscn : scn ≤ maxScn := not_not.mp fun hn => harg (.inr (.inl hn))
  have hmax : maxScn < 2 ^ 62 := by decide
  obtain ⟨hid, hts⟩ := not_or.mp hfar
  obtain ⟨hnew, -⟩ := not_or.mp hold
  unfold logIdDeltaUpperBound at hid
  unfold logTsDeltaUpperBound at hts
  unfold NoWrap scnSum at hw
  unfold maxLogId at hnew
  -- an SCN below the base would give a difference of more than 63 bits
  have hle : s.alloc.scnBase ≤ scn := by
    unfold subU64 at hts
    omega
  have hsub : subU64 scn s.alloc.scnBase = scn - s.alloc.scnBase :=
    subU64_eq hle (by omega)
  refine ⟨hscn, .inr ⟨?_, ?_⟩⟩
  · simp only [scnSum, Fin.val_ofNat]
    rw [mod_eq_of_lt (by omega), hsub]
    omega
  · simp only [maxLogId, Fin.val_ofNat]
    rw [mod_eq_of_lt (by omega)]
    omega

theorem ScnInv.incUpdateLastLogInfo : ScnInv ⟨a', ⟨logId, scn, none⟩ :: s.issued, false⟩ := by
  obtain ⟨hscn, hcase⟩ := incUpdateLastLogInfo_later hs hw hl h
  have hmax : maxScn < 2 ^ 64 := by decide
  -- the later log has an SCN above all others, though not above the last SCN of the allocator
  have hord : Ordered (⟨logId, scn, none⟩ :: s.issued) scn :=
    ⟨pairwise_cons.mpr ⟨fun i hi => (hl.2 i hi).2, hs.ordered.pairwise⟩,
      forall_mem_cons.mpr ⟨by simp, hs.ordered.base_le⟩,
      forall_mem_cons.mpr ⟨le_rfl, fun i hi => (hl.2 i hi).2.le⟩⟩
  rcases hcase with ⟨⟨hlt, hid⟩, rfl⟩ | ⟨hsum, hid⟩
  · exact ⟨hs.sum_lt, hord.mono (hscn.trans hlt.le), forall_mem_cons.mpr ⟨hid, hs.logId_le⟩,
      fun hle => absurd hlt (not_lt.mpr hle)⟩
  refine ⟨?_, ?_, forall_mem_cons.mpr ⟨hid.ge, fun i hi => hid ▸ (hl.2 i hi).1.le⟩,
    fun _ => ⟨_, s.issued, rfl, hid, fun _ => hsum⟩⟩
  · rw [hsum]
    exact hscn.trans_lt hmax
  · rw [hsum]
    exact hord

end

theorem ScnRunStep.scnInv (h : ScnRunStep s s') (hs : ScnInv s) : ScnInv s' := by
  cases h with
  | alloc x fuel hw h => exact hs.alloc hw h
  | allocFailed x fuel hw h => exact hs.allocFailed hw h
  | tryFreeze => exact (tryFreeze_keeps (P := fun a => ScnInv ⟨a, s.issued, s.raised⟩) hs hs.cut).1
  | tryFreezeByTime =>
    exact (tryFreeze_keeps (P := fun a => ScnInv ⟨a, s.issued, s.raised⟩) hs hs.cut).2
  | incUpdateScnBase refScn h => exact hs.incUpdateScnBase h
  | incUpdateLastLogInfo lsn logId scn hw hl h => exact hs.incUpdateLastLogInfo hw hl h

theorem scnRuns_scnInv (h : scnRuns.Reachable s) : ScnInv s := by
  refine h.of_keeps ?_ fun _ _ hs hstep => ScnRunStep.scnInv hstep hs
  rintro ⟨a, issued, raised⟩ ⟨logId, scn, startLsn, ha, hissued, hraised⟩
  obtain ⟨rfl, hscn⟩ := init_eq_ok ha
  dsimp only at hissued hraised
  rw [hissued, hraised]
  refine ⟨hscn.trans_lt (by decide), ?_, by simp [maxLogId],
    fun _ => ⟨_, [], rfl, ?_, fun _ => rfl⟩⟩
  · exact ⟨pairwise_singleton _ _, by simp, by simp [scnSum]⟩
  · simp [maxLogId]

/-! ## Bit-fields -/

/-- **Nothing is cut to the size of its bit-field**: neither what a call stores, however often it
has moved the base, nor what a later log leaves. -/
def DeltasFit (a : LSNAllocator) : Prop :=
  (∀ (x : AllocArgs) (k : ℕ) (p : Placement), x.isValid →
    ¬ ((fun b => b.updateBase x)^[k] a).needUpdateBase x →
    ((fun b => b.updateBase x)^[k] a).nextLogIdDelta p < 2 ^ 28 ∧
      ((fun b => b.updateBase x)^[k] a).nextScnDelta x p < 2 ^ 35) ∧
  ∀ (logId : ℤ) (scn : ℕ), ¬ (logId < a.maxLogId) →
    ¬ ((logIdDeltaUpperBound : ℤ) ≤ logId - a.logIdBase ∨
      logTsDeltaUpperBound ≤ subU64 scn a.scnBase) →
    (0 ≤ logId - a.logIdBase ∧ logId - a.logIdBase < 2 ^ 28) ∧ subU64 scn a.scnBase < 2 ^ 35

theorem deltasFit {a : LSNAllocator} (h : a.NoWrap) : DeltasFit a := by
  constructor
  · intro x k p hx hnu
    have hnw : ((fun b => b.updateBase x)^[k] a).NoWrap := by
      induction k generalizing a with
      | zero => exact h
      | succ k ih => exact ih (h.updateBase hx) hnu
    exact ⟨nextLogIdDelta_lt hnu, nextScnDelta_lt hnw hx hnu⟩
  · intro logId scn hnew hfar
    obtain ⟨hid, hts⟩ := not_or.mp hfar
    unfold maxLogId at hnew
    unfold logIdDeltaUpperBound at hid
    unfold logTsDeltaUpperBound at hts
    omega

/-- **SCNs increase**: in every run from `init` on, through allocations that succeed or fail,
freezes, raised bases and later logs, each SCN is larger than the ones before it, the entries of
`submit_log` have none below what the caller has asked for, and the bit-fields are never too small.
The last SCN and the last log id of the allocator are never below those issued; while the last SCN
is a valid one, the last log id is the last one issued, and so is the last SCN unless it has been
raised since. -/
theorem scns_strictly_increasing (h : scnRuns.Reachable s) :
    (s.issued.Pairwise fun i j => j.scn < i.scn) ∧
      (∀ i ∈ s.issued, ∀ b, i.base = some b → b ≤ i.scn) ∧ (s.alloc.NoWrap → DeltasFit s.alloc) ∧
      (∀ i ∈ s.issued, i.scn ≤ s.alloc.lastScn) ∧ (∀ i ∈ s.issued, i.logId ≤ s.alloc.maxLogId) ∧
      ∀ n, s.alloc.getMaxScn = some n → ∃ i rest, s.issued = i :: rest ∧
        s.alloc.maxLogId = i.logId ∧ (s.raised = false → n = i.scn) := by
  have hs := scnRuns_scnInv h
  have hlast := lastScn_eq hs.sum_lt
  refine ⟨hs.ordered.pairwise, hs.ordered.base_le, deltasFit, ?_, hs.logId_le, fun n hn => ?_⟩
  · rw [hlast]
    exact hs.ordered.le_top
  unfold getMaxScn at hn
  split_ifs at hn with hvalid
  cases hn
  rw [hlast] at hvalid ⊢
  exact hs.top hvalid

/-! ### Runs of a new allocator -/

/-- An allocator behind a log with log id 0 and SCN 5. -/
def freshRun : ScnRun := ⟨⟨⟨true, 0, 0, 0⟩, 0, 5⟩, [⟨0, 5, none⟩], false⟩

theorem reachable_freshRun : scnRuns.Reachable freshRun := .init ⟨0, 5, 0, by decide, rfl, rfl⟩

theorem freshRun_next_scn : ∃ s, scnRuns.Reachable s ∧ s.issued.map Issue.scn = [6, 5] ∧
      s.issued.Pairwise fun i j => j.scn < i.scn := by
  have halloc : freshRun.alloc.allocLsnScn ⟨3, 100, 10, 1000⟩ 1 =
      some (.ok ⟨0, 1, 6, true, false, 0⟩, ⟨⟨false, 1, 1, 156⟩, 0, 5⟩) := by
    decide +kernel
  have h := reachable_freshRun.step (ScnRunStep.alloc ⟨3, 100, 10, 1000⟩ 1 (by decide) halloc)
  exact ⟨_, h, by decide, (scns_strictly_increasing h).1⟩

/-- **The last SCN of the allocator need not be in use**: `inc_update_scn_base` raises it to 10, but
no SCN above 5 has been issued. -/
theorem freshRun_raised_scn :
    ∃ s, scnRuns.Reachable s ∧ s.alloc.getMaxScn = some 10 ∧ s.issued.map Issue.scn = [5] := by
  have hbase : freshRun.alloc.incUpdateScnBase 10 = .ok ⟨⟨true, 0, 0, 0⟩, 0, 10⟩ := by
    decide +kernel
  have h := reachable_freshRun.step (ScnRunStep.incUpdateScnBase 10 hbase)
  exact ⟨_, h, by decide, by decide⟩

end OceanBase.Palf
