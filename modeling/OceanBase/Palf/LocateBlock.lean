import OceanBase.Palf.LsnAllocator

/-!
# Locating a block by SCN

`get_block_id_by_scn_` looks for the last block that begins at or before an SCN. Blocks may be
removed from the front between any two accesses to the storage. When the probed block is gone the
range is read again, and when the one behind it is, the search is content with the probed one. The
cache of the last located block is never filled: it begins with `LOG_INVALID_BLOCK_ID`, the largest
id there is, and only larger ids replace it.

## Main results

* `getBlockIdByScn_exact`, `getBlockIdByScn_behind`
-/

namespace OceanBase.Palf

open Nat

def logMaxBlockId : ℕ := (2 ^ 64 - 1) / palfBlockSize - 1

def logInvalidBlockId : ℕ := logMaxBlockId + 1

/-- The blocks of a replica during a call, with the first one at each access. -/
structure Blocks where
  firstBlock : ℕ → ℕ
  lastBlock : ℕ
  minScn : ℕ → ℕ
  lastHasHeader : Bool
  first_mono : Monotone firstBlock
  first_le : ∀ t, firstBlock t ≤ lastBlock
  last_le : lastBlock ≤ logMaxBlockId
  increasing : StrictMono minScn

inductive LocateRet
  | success
  | outOfLowerBound
  | outOfUpperBound
  | entryNotExist
  deriving DecidableEq

structure LocateCache where
  lastLocateBlock : ℕ := logInvalidBlockId
  lastLocateScn : ℕ := 2 ^ 64 - 1

/-- The variables of the search, with the time of the next access, and the one at which the range
was read. -/
structure Search where
  minBlockId : ℕ
  maxBlockId : ℕ
  resultBlockId : ℕ
  now : ℕ
  readAt : ℕ
  deriving DecidableEq

namespace Blocks

variable (B : Blocks) (p : LocateCache) (committedLsn scn : ℕ)

/-- The block has data, and so a header. -/
def HasHeader (b : ℕ) : Prop := b < B.lastBlock ∨ b = B.lastBlock ∧ B.lastHasHeader = true

def committedBlock : ℕ := min (committedLsn / palfBlockSize) B.lastBlock

def getBlockMinScn (t b : ℕ) : Except LocateRet ℕ :=
  if B.lastBlock < b ∨ b = B.lastBlock ∧ B.lastHasHeader = false then .error .outOfUpperBound
  else if b < B.firstBlock t then .error .outOfLowerBound
  else .ok (B.minScn b)

def getBinarySearchRange (t : ℕ) : Search :=
  let minBlockId := B.firstBlock t
  let maxBlockId := B.committedBlock committedLsn
  if p.lastLocateBlock < logMaxBlockId ∧ minBlockId ≤ p.lastLocateBlock ∧
    p.lastLocateBlock ≤ maxBlockId then
    if scn < p.lastLocateScn then ⟨minBlockId, p.lastLocateBlock, logInvalidBlockId, t + 1, t⟩
    else if p.lastLocateScn < scn then ⟨p.lastLocateBlock, maxBlockId, logInvalidBlockId, t + 1, t⟩
    else ⟨1, 0, p.lastLocateBlock, t + 1, t⟩
  else ⟨minBlockId, maxBlockId, logInvalidBlockId, t + 1, t⟩

/-- A round of the loop of `get_block_id_by_scn_`: the next state, or what is returned. The time is
that of the last access then. -/
def step (s : Search) : Search ⊕ LocateRet × Search :=
  if s.maxBlockId < s.minBlockId then .inr (.success, s)
  else
    let midBlockId := s.minBlockId + (s.maxBlockId - s.minBlockId) / 2
    match B.getBlockMinScn s.now midBlockId with
    -- the block may be recycled
    | .error .outOfLowerBound => .inl (B.getBinarySearchRange p committedLsn scn (s.now + 1))
    | .error _ => .inr (.entryNotExist, s)
    | .ok midScn =>
      if midScn < scn then
        if s.maxBlockId = midBlockId then .inr (.success, { s with resultBlockId := midBlockId })
        else if s.maxBlockId = midBlockId + 1 then
          match B.getBlockMinScn (s.now + 1) s.maxBlockId with
          -- if fail to read next block, just return prev block
          | .error _ => .inr (.success, { s with resultBlockId := midBlockId, now := s.now + 1 })
          | .ok nextMinScn =>
            .inr (.success, { s with
              resultBlockId := if scn < nextMinScn then midBlockId else s.maxBlockId
              now := s.now + 1 })
        else .inl { s with minBlockId := midBlockId, now := s.now + 1 }
      else if scn < midScn then
        if midBlockId = 0 ∨ midBlockId - 1 < s.minBlockId then .inr (.outOfLowerBound, s)
        else .inl { s with maxBlockId := midBlockId - 1, now := s.now + 1 }
      else .inr (.success, { s with resultBlockId := midBlockId })

/-- The loop, for at most so many rounds. -/
def loop : ℕ → Search → Option (LocateRet × Search)
  | 0, _ => none
  | n + 1, s =>
    match B.step p committedLsn scn s with
    | .inl s' => loop n s'
    | .inr out => some out

def getBlockIdByScn (n : ℕ) : Option (LocateRet × Search) :=
  B.loop p committedLsn scn n (B.getBinarySearchRange p committedLsn scn 0)

end Blocks

def LocateCache.incUpdate (p : LocateCache) (blockId scn : ℕ) : LocateCache :=
  if p.lastLocateBlock < blockId then ⟨blockId, scn⟩ else p

/-- The histories of calls of `locate_by_scn_coarsely`. -/
def locateHistory : Machine LocateCache where
  init p := p = {}
  step p p' := ∃ B committedLsn scn n s,
    Blocks.getBlockIdByScn B p committedLsn scn n = some (.success, s) ∧
      p' = p.incUpdate s.resultBlockId scn

/-! ## The search -/

namespace Blocks

variable {B : Blocks} {p : LocateCache} {committedLsn scn : ℕ} {s : Search}

/-- **What the search knows.** Blocks behind the range begin after the SCN, and the first block of
the range is the first one there was, or begins at or before it. -/
structure Searching (B : Blocks) (committedLsn scn : ℕ) (s : Search) : Prop where
  result : s.resultBlockId = logInvalidBlockId
  max_le : s.maxBlockId ≤ B.committedBlock committedLsn
  above : ∀ b, s.maxBlockId < b → b ≤ B.committedBlock committedLsn → B.HasHeader b →
    scn < B.minScn b
  below : s.minBlockId = B.firstBlock s.readAt ∨ B.minScn s.minBlockId ≤ scn
  empty : s.maxBlockId < s.minBlockId → B.committedBlock committedLsn < B.firstBlock s.readAt

structure Located (B : Blocks) (committedLsn scn : ℕ) (s : Search) : Prop where
  le_committed : s.resultBlockId ≤ B.committedBlock committedLsn
  minScn_le : B.minScn s.resultBlockId ≤ scn
  last : ∀ b, s.resultBlockId < b → b ≤ B.committedBlock committedLsn → B.firstBlock s.now ≤ b →
    B.HasHeader b → scn < B.minScn b

inductive Returned (B : Blocks) (committedLsn scn : ℕ) : LocateRet × Search → Prop
  | located {s : Search} (h : B.Located committedLsn scn s) : Returned B committedLsn scn
    (.success, s)
  | empty {s : Search} (h : s.resultBlockId = logInvalidBlockId)
      (hlt : B.committedBlock committedLsn < B.firstBlock s.readAt) : Returned B committedLsn scn
        (.success, s)
  | early {s : Search} (h : scn < B.minScn (B.firstBlock s.readAt)) :
      Returned B committedLsn scn (.outOfLowerBound, s)
  | noData {s : Search} : Returned B committedLsn scn (.entryNotExist, s)

/-- The rounds that are left: blocks can be removed as often as there are blocks. -/
def roundsLeft (B : Blocks) (s : Search) : ℕ :=
  (B.lastBlock + 1 - s.minBlockId) * (B.lastBlock + 2) + (s.maxBlockId + 1 - s.minBlockId)

theorem committedBlock_le : B.committedBlock committedLsn ≤ B.lastBlock := min_le_right _ _

theorem getBlockMinScn_cases (t b : ℕ) :
    (B.getBlockMinScn t b = .error .outOfUpperBound ∧ ¬ B.HasHeader b) ∨
    (B.getBlockMinScn t b = .error .outOfLowerBound ∧ b < B.firstBlock t) ∨
    (B.getBlockMinScn t b = .ok (B.minScn b) ∧ B.HasHeader b) := by
  unfold getBlockMinScn HasHeader
  by_cases hupper : B.lastBlock < b ∨ b = B.lastBlock ∧ B.lastHasHeader = false
  · refine .inl ⟨if_pos hupper, ?_⟩
    rcases hupper with hlt | ⟨rfl, hno⟩
    · omega
    · simp [hno]
  rw [if_neg hupper]
  by_cases hlower : b < B.firstBlock t
  · exact .inr (.inl ⟨if_pos hlower, hlower⟩)
  refine .inr (.inr ⟨if_neg hlower, ?_⟩)
  rcases lt_trichotomy b B.lastBlock with hlt | heq | hgt
  · exact .inl hlt
  · exact .inr ⟨heq, by simpa [heq] using hupper⟩
  · exact absurd (.inl hgt) hupper

variable (hp : p.lastLocateBlock = logInvalidBlockId)
include hp

theorem getBinarySearchRange_eq (t : ℕ) : B.getBinarySearchRange p committedLsn scn t =
    ⟨B.firstBlock t, B.committedBlock committedLsn, logInvalidBlockId, t + 1, t⟩ := by
  have hlarge : ¬ p.lastLocateBlock < logMaxBlockId := by
    rw [hp, logInvalidBlockId]
    omega
  unfold getBinarySearchRange
  exact if_neg fun h => hlarge h.1

theorem searching_range (t : ℕ) :
    B.Searching committedLsn scn (B.getBinarySearchRange p committedLsn scn t) := by
  rw [getBinarySearchRange_eq hp]
  exact ⟨rfl, le_rfl, fun b hb hle => absurd hle (not_le.mpr hb), .inl rfl, id⟩

/-- **What a round keeps, and what it returns.** -/
theorem step_searching (h : B.Searching committedLsn scn s) : (B.step p committedLsn scn s).elim
      (fun s' => B.Searching committedLsn scn s' ∧ B.roundsLeft s' < B.roundsLeft s)
      (B.Returned committedLsn scn) := by
  unfold step
  by_cases hempty : s.maxBlockId < s.minBlockId
  · rw [if_pos hempty]
    exact .empty h.result (h.empty hempty)
  rw [if_neg hempty]
  have hmax := h.max_le
  have hlast : B.committedBlock committedLsn ≤ B.lastBlock := committedBlock_le
  generalize hmid : s.minBlockId + (s.maxBlockId - s.minBlockId) / 2 = mid
  rcases B.getBlockMinScn_cases s.now mid with ⟨hread, -⟩ | ⟨hread, hgone⟩ | ⟨hread, -⟩
  · simp only [hread]
    exact .noData
  · -- the range is read again, and begins behind the block
    simp only [hread]
    refine ⟨searching_range hp _, ?_⟩
    have hfirst : B.firstBlock s.now ≤ B.firstBlock (s.now + 1) := B.first_mono (le_succ _)
    have hle := B.first_le (s.now + 1)
    have hmul : (B.lastBlock + 1 - B.firstBlock (s.now + 1) + 1) * (B.lastBlock + 2) ≤
        (B.lastBlock + 1 - s.minBlockId) * (B.lastBlock + 2) := mul_le_mul_right _ (by omega)
    rw [add_one_mul] at hmul
    rw [getBinarySearchRange_eq hp, roundsLeft, roundsLeft]
    dsimp only
    omega
  simp only [hread]
  -- the block is the one, unless one of the rest of the range is
  have hlocated : ∀ t, B.minScn mid ≤ scn → (∀ b, mid < b → b ≤ s.maxBlockId → B.firstBlock t ≤ b →
      B.HasHeader b → scn < B.minScn b) →
      B.Returned committedLsn scn (.success, { s with resultBlockId := mid, now := t }) := by
    refine fun t hle hrest => .located ⟨by dsimp only; omega, hle, fun b hb hcom hthere hb' => ?_⟩
    rcases lt_or_ge s.maxBlockId b with hbehind | hbefore
    · exact h.above b hbehind hcom hb'
    · exact hrest b hb hbefore hthere hb'
  rcases lt_trichotomy (B.minScn mid) scn with hlt | heq | hgt
  · rw [if_pos hlt]
    by_cases hone : s.maxBlockId = mid
    · rw [if_pos hone]
      exact hlocated _ hlt.le fun b hb hle => absurd hle (by omega)
    rw [if_neg hone]
    by_cases htwo : s.maxBlockId = mid + 1
    · rw [if_pos htwo]
      have hnext : ∀ b, mid < b → b ≤ s.maxBlockId → b = s.maxBlockId := fun b hb hle => by omega
      -- the block behind has no data, is gone, or decides
      rcases B.getBlockMinScn_cases (s.now + 1) s.maxBlockId with
        ⟨hread', hno⟩ | ⟨hread', hgone⟩ | ⟨hread', -⟩
      · simp only [hread']
        exact hlocated _ hlt.le fun b hb hle _ hb' => absurd (hnext b hb hle ▸ hb') hno
      · simp only [hread']
        exact hlocated _ hlt.le fun b hb hle hthere =>
          absurd (hnext b hb hle ▸ hthere) (not_le.mpr hgone)
      simp only [hread']
      by_cases hscn : scn < B.minScn s.maxBlockId
      · rw [if_pos hscn]
        exact hlocated _ hlt.le fun b hb hle _ _ => hnext b hb hle ▸ hscn
      · rw [if_neg hscn]
        exact .located ⟨hmax, not_lt.mp hscn, fun b hb hle _ => h.above b hb hle⟩
    · rw [if_neg htwo]
      have hmul := mul_le_mul_right (B.lastBlock + 2)
        (show B.lastBlock + 1 - mid ≤ B.lastBlock + 1 - s.minBlockId by omega)
      refine ⟨⟨h.result, hmax, h.above, .inr hlt.le, fun hx => ?_⟩, ?_⟩
      all_goals simp only [roundsLeft] at *; omega
  · rw [if_neg (by omega), if_neg (by omega)]
    exact hlocated _ heq.le fun b hb _ _ _ => heq ▸ B.increasing hb
  · rw [if_neg (by omega), if_pos hgt]
    have habove : ∀ b, mid ≤ b → scn < B.minScn b :=
      fun b hb => hgt.trans_le (B.increasing.monotone hb)
    by_cases hfirst : mid = 0 ∨ mid - 1 < s.minBlockId
    · rw [if_pos hfirst]
      obtain rfl : s.minBlockId = mid := by omega
      exact .early (h.below.elim (· ▸ hgt) fun hle => absurd hle (not_le.mpr hgt))
    · rw [if_neg hfirst]
      refine ⟨⟨h.result, ?_, fun b hb _ _ => habove b ?_, h.below, fun hx => ?_⟩, ?_⟩
      all_goals simp only [roundsLeft] at *; omega

theorem loop_returned {n : ℕ} {out : LocateRet × Search} (h : B.Searching committedLsn scn s)
    (hloop : B.loop p committedLsn scn n s = some out) : B.Returned committedLsn scn out := by
  induction n generalizing s with
  | zero => cases hloop
  | succ n ih =>
    have hs := step_searching hp h
    rw [loop] at hloop
    cases hstep : B.step p committedLsn scn s with
    | inl s' =>
      rw [hstep] at hs hloop
      exact ih hs.1 hloop
    | inr out' =>
      rw [hstep] at hs hloop
      exact Option.some.inj hloop ▸ hs

theorem loop_isSome {n} (h : B.Searching committedLsn scn s) (hn : B.roundsLeft s < n) :
    (B.loop p committedLsn scn n s).isSome = true := by
  induction n generalizing s with
  | zero => omega
  | succ n ih =>
    have hs := step_searching hp h
    rw [loop]
    cases hstep : B.step p committedLsn scn s with
    | inl s' =>
      rw [hstep] at hs
      exact ih hs.1 (lt_of_lt_of_le hs.2 (le_of_lt_succ hn))
    | inr out => rfl

end Blocks

theorem locateHistory_cache {p} (h : locateHistory.Reachable p) :
    p.lastLocateBlock = logInvalidBlockId := by
  refine h.of_keeps (I := fun p => p.lastLocateBlock = logInvalidBlockId) ?_ ?_
  · rintro p rfl
    rfl
  rintro p p' hp ⟨B, committedLsn, scn, n, s, hcall, rfl⟩
  have hle : s.resultBlockId ≤ logInvalidBlockId := by
    cases Blocks.loop_returned hp (Blocks.searching_range hp 0) hcall with
    | located hloc =>
      exact ((hloc.le_committed.trans Blocks.committedBlock_le).trans B.last_le).trans (le_succ _)
    | empty heq => exact heq.le
  rw [LocateCache.incUpdate, if_neg (hp ▸ not_lt.mpr hle)]
  exact hp

/-- **Locating a block by SCN is exact for the blocks that are still there.** After any history of
calls the search ends. If the committed block is not before the first one, the block that is
returned begins at or before the SCN, and no later one up to the committed one does that is there at
the last access. It is out of the lower bound only if the SCN is before the first block there was
when the range was read. -/
theorem getBlockIdByScn_exact {p : LocateCache} (hp : locateHistory.Reachable p) (B : Blocks)
    (committedLsn scn : ℕ) :
    (∀ n, (B.lastBlock + 2) ^ 2 ≤ n → (B.getBlockIdByScn p committedLsn scn n).isSome = true) ∧
    ∀ n ret s, B.getBlockIdByScn p committedLsn scn n = some (ret, s) →
      (ret = .success → B.firstBlock s.readAt ≤ B.committedBlock committedLsn →
        B.Located committedLsn scn s) ∧
      (ret = .outOfLowerBound → scn < B.minScn (B.firstBlock s.readAt)) := by
  have hcache := locateHistory_cache hp
  have hstart : B.Searching committedLsn scn _ := Blocks.searching_range hcache 0
  refine ⟨fun n hn => Blocks.loop_isSome hcache hstart ?_, fun n ret s hcall => ?_⟩
  · have hlast : B.committedBlock committedLsn ≤ B.lastBlock := Blocks.committedBlock_le
    have hmul := Nat.mul_le_mul_right (B.lastBlock + 2)
      (show B.lastBlock + 1 - B.firstBlock 0 ≤ B.lastBlock + 1 by omega)
    rw [Nat.pow_two, Nat.add_one_mul (B.lastBlock + 1)] at hn
    rw [Blocks.getBinarySearchRange_eq hcache, Blocks.roundsLeft]
    dsimp only
    omega
  · cases Blocks.loop_returned hcache hstart hcall with
    | located hloc => exact ⟨fun _ _ => hloc, nofun⟩
    | empty _ hlt => exact ⟨fun _ hle => absurd hlt (not_lt.mpr hle), nofun⟩
    | early hlt => exact ⟨nofun, fun _ => hlt⟩
    | noData => exact ⟨nofun, nofun⟩

/-- Five blocks, of which the first two are removed after the third access. -/
def fiveBlocks : Blocks where
  firstBlock t := if t < 3 then 0 else 2
  lastBlock := 4
  minScn b := 10 * b
  lastHasHeader := true
  first_mono t t' h := by
    dsimp only
    split_ifs <;> omega
  first_le t := by
    split_ifs <;> omega
  last_le := by decide
  increasing b b' h := by
    dsimp only
    omega

/-- **A block that is removed counts no more.** The search returns block 0 after block 1, where the
SCN lies, has been removed; and with the committed block before the first one, it returns no block
at all, without an error. -/
theorem getBlockIdByScn_behind :
    (∃ s, fiveBlocks.getBlockIdByScn {} (4 * palfBlockSize) 15 36 = some (.success, s) ∧
      s.resultBlockId = 0 ∧
      fiveBlocks.HasHeader 1 ∧ fiveBlocks.minScn 1 ≤ 15 ∧
        1 ≤ fiveBlocks.committedBlock (4 * palfBlockSize)) ∧
    ∃ (B : Blocks) (s : Search), B.getBlockIdByScn {} 0 45 36 = some (.success, s) ∧
      s.resultBlockId = logInvalidBlockId := by
  refine ⟨⟨⟨0, 1, 0, 3, 0⟩, by decide, rfl, .inl (by decide), by decide, by decide⟩,
    { fiveBlocks with
      firstBlock := fun _ => 2, first_mono := monotone_const, first_le := fun _ => by decide },
    ⟨2, 0, logInvalidBlockId, 1, 0⟩, by decide, rfl⟩

/-- After that search, another one finds the block of a later SCN. -/
theorem getBlockIdByScn_exact_fiveBlocks : ∃ p s, locateHistory.Reachable p ∧
    fiveBlocks.getBlockIdByScn p (4 * palfBlockSize) 35 36 = some (.success, s) ∧
    s.resultBlockId = 3 ∧ fiveBlocks.Located (4 * palfBlockSize) 35 s := by
  have hp : locateHistory.Reachable (LocateCache.incUpdate {} 0 15) :=
    .step (.init rfl) ⟨fiveBlocks, 4 * palfBlockSize, 15, 36, ⟨0, 1, 0, 3, 0⟩, by decide, rfl⟩
  have hcall : fiveBlocks.getBlockIdByScn (LocateCache.incUpdate {} 0 15) (4 * palfBlockSize) 35 36
      = some (.success, ⟨2, 4, 3, 3, 0⟩) := by decide
  exact ⟨_, _, hp, hcall, rfl, ((getBlockIdByScn_exact hp _ _ _).2 _ _ _ hcall).1 rfl (by decide)⟩

end OceanBase.Palf
