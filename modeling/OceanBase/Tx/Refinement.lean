import OceanBase.Tx.Phases

/-!
# The committer takes guarded moves only

Every event of a participant (a message, the callback of a log, a timeout) is a sequence of the
moves of `Tx.Moves`.

## Main results

* `handle2pcReq_moves`, `handle2pcResp_moves`: the message handlers, under the guards of the mail
  that is being handled
* `dispatch_moves`, `apply_moves`, `handleTimeout_moves`: the events
-/

namespace OceanBase.Tx

open Ctx

variable {inc : Option Mail} {env : Env} {c c' : Ctx}

/-! ## Requests -/

theorem handleRequestImpl_moves (next : ObTxState) {type : MsgType} {keepPostRet}
    (hg : DriveGuard inc c next)
    (ht : ∀ s q, SendsRequest { c with collected := s, upstreamState := next, logQueue := q }
      type) : Moves inc c (c.handleRequestImpl env next type keepPostRet).2 := by
  unfold handleRequestImpl
  split
  · exact .refl
  split
  · exact .refl
  split
  · rename_i c' hd
    cases c'.role with
    | internal => exact drive_post_moves _ hg hd ht
    | root | leaf | unknown => exact driveSelf2pcPhase_moves _ hg hd
  · rename_i hd
    exact driveSelf2pcPhase_moves _ hg hd

section

variable (hu : Upstreamward inc c)
include hu

theorem handle2pcPrepareRequest_moves : Moves inc c (c.handle2pcPrepareRequest env).2 := by
  have himpl : c.downstreamState = .init ∨ c.downstreamState = .redoComplete →
      Moves inc c (c.handle2pcPrepareRequestImpl env).2 := fun h =>
    handleRequestImpl_moves .prepare (h.imp_right .inl) fun _ _ =>
      ⟨rfl, by simp, by simp⟩
  unfold handle2pcPrepareRequest
  cases hd : c.downstreamState with
  | init => exact himpl (.inl hd)
  | redoComplete => exact himpl (.inr hd)
  | prepare => exact retransmit_moves hu (.inl hd.symm)
  | preCommit => exact retransmit_moves hu (.inr ⟨.inl rfl, .inl hd⟩)
  | commit => exact retransmit_moves hu (.inr ⟨.inl rfl, .inr hd⟩)
  | abort =>
    dsimp only
    split
    · exact .refl
    · exact retransmit_moves hu (.inl hd.symm)
  | unknown | clear | max => exact .refl

theorem handle2pcCommitRequest_moves (ht : Handling inc .commitReq) :
    Moves inc c (c.handle2pcCommitRequest env).2 := by
  have himpl : c.downstreamState = .prepare ∨ c.downstreamState = .preCommit →
      Moves inc c (c.handle2pcCommitRequestImpl env).2 := fun h =>
    handleRequestImpl_moves .commit (.inr (.inl ⟨ht, h⟩)) fun _ _ =>
      ⟨rfl, fun _ => rfl, by simp⟩
  unfold handle2pcCommitRequest
  cases hd : c.downstreamState with
  | prepare => exact himpl (.inl hd)
  | preCommit => exact himpl (.inr hd)
  | commit => exact retransmit_moves hu (.inl hd.symm)
  | unknown | init | redoComplete | abort | clear | max => exact .refl

theorem handle2pcAbortRequest_moves : Moves inc c (c.handle2pcAbortRequest env).2 := by
  have himpl : c.downstreamState ≤ .prepare →
      Moves inc c (c.handle2pcAbortRequestImpl env).2 := fun h =>
    handleRequestImpl_moves .abort h fun _ _ => ⟨rfl, by simp, by simp⟩
  unfold handle2pcAbortRequest
  cases hd : c.downstreamState with
  | init | redoComplete | prepare => exact himpl (by rw [hd]; decide)
  | abort =>
    dsimp only
    split
    · exact .refl
    · exact retransmit_moves hu (.inl hd.symm)
  | unknown | preCommit | commit | clear | max => exact .refl

theorem handle2pcPreCommitRequest_moves : Moves inc c (c.handle2pcPreCommitRequest env).2 := by
  unfold handle2pcPreCommitRequest
  cases hd : c.downstreamState with
  | prepare =>
    dsimp only
    split
    · exact .refl
    · exact tryEnterPreCommitState_moves hd
  | preCommit => exact retransmit_moves hu (.inl hd.symm)
  | commit => exact retransmit_moves hu (.inr ⟨.inr rfl, .inr hd⟩)
  | unknown | init | redoComplete | abort | clear | max => exact .refl

end

theorem handle2pcClearRequest_moves (ht : Handling inc .clearReq) :
    Moves inc c (c.handle2pcClearRequest env).2 := by
  have himpl : c.downstreamState = .commit ∨ c.downstreamState = .abort →
      Moves inc c (c.handle2pcClearRequestImpl env).2 := fun h =>
    handleRequestImpl_moves .clear ⟨h, .inr (.inl ht)⟩ fun _ _ =>
      ⟨rfl, by simp, fun _ => rfl⟩
  unfold handle2pcClearRequest
  cases hd : c.downstreamState with
  | commit => exact himpl (.inl hd)
  | abort => exact himpl (.inr hd)
  | unknown | init | redoComplete | prepare | preCommit | clear | max => exact .refl

theorem handle2pcPrepareRedoRequest_moves (hu : Upstreamward inc c) :
    Moves inc c (c.handle2pcPrepareRedoRequest env).2 := by
  unfold handle2pcPrepareRedoRequest
  split
  · exact .refl
  cases hd : c.downstreamState with
  | init =>
    dsimp only
    split
    · exact .refl
    split
    · exact .refl
    split
    · rename_i c' hdrive
      dsimp only
      split
      · exact drive_post_moves .redoComplete hd hdrive fun _ _ => ⟨rfl, by simp, by simp⟩
      · exact driveSelf2pcPhase_moves .redoComplete hd hdrive
    · rename_i hdrive
      exact driveSelf2pcPhase_moves .redoComplete hd hdrive
  | redoComplete =>
    -- the two retransmissions are guarded separately here
    have hdown : ∀ (p : Prop) [Decidable p],
        Moves inc c (if p then c else (c.retransmitDownstreamMsg env).2) ∧
          PostedFrom c (if p then c else (c.retransmitDownstreamMsg env).2) := by
      intro p _
      split
      · exact ⟨.refl, .refl c⟩
      · exact retransmitDownstreamMsg_moves_posted env c
    obtain ⟨hm, o, ho⟩ := hdown (c.upstreamState = .redoComplete ∧ c.allDownstreamCollected)
    dsimp only
    split
    · exact hm
    refine hm.trans ?_
    rw [ho]
    exact retransmitUpstreamMsg_moves hu (.inl hd.symm)
  | prepare | abort => exact retransmit_moves hu (.inl hd.symm)
  | unknown | preCommit | commit | clear | max => exact .refl

variable {participant : ℕ} {rest : List LogType} {m : Mail}

theorem handle2pcReq_moves (hinc : inc = some m) (hu : Upstreamward inc c) :
    Moves inc c (c.handle2pcReq env m.type).2 := by
  unfold handle2pcReq
  cases ht : m.type with
  | prepareRedoReq => exact handle2pcPrepareRedoRequest_moves hu
  | prepareReq => exact handle2pcPrepareRequest_moves hu
  | preCommitReq => exact handle2pcPreCommitRequest_moves hu
  | commitReq => exact handle2pcCommitRequest_moves hu ⟨m, hinc, ht⟩
  | abortReq => exact handle2pcAbortRequest_moves hu
  | clearReq => exact handle2pcClearRequest_moves ⟨m, hinc, ht⟩
  | prepareRedoResp | prepareResp | preCommitResp | commitResp | abortResp | clearResp =>
    exact .refl

/-! ## Responses -/

theorem collectDownstream_cases (participant : ℕ) (c : Ctx) :
    (c.collectDownstream participant).2 = c ∨ some participant ≠ c.getSelfId ∧
      (c.collectDownstream participant).2 =
        { c with collected := insert participant c.collected } := by
  unfold collectDownstream
  split <;> (try split) <;> simp_all

/-- The response being handled acknowledges the in-memory state and comes from `participant`. -/
def Acks (inc : Option Mail) (c : Ctx) (participant : ℕ) : Prop :=
  ∃ m, inc = some m ∧ c.participants[participant]? = some m.src ∧ AckOf c.upstreamState m.type

theorem collectDownstream_moves {ret} (ha : Acks inc c participant)
    (hc : c.collectDownstream participant = (ret, c')) :
    Moves inc c c' ∧ ∃ s, c' = { c with collected := s } := by
  obtain ⟨m, hinc, hi, hack⟩ := ha
  obtain rfl : c' = (c.collectDownstream participant).2 := by rw [hc]
  rcases collectDownstream_cases participant c with h | ⟨hself, h⟩
  · rw [h]
    exact ⟨.refl, c.collected, rfl⟩
  · rw [h]
    exact ⟨.single (.collect hinc hi hself hack), _, rfl⟩

section

variable (ha : Acks inc c participant)
include ha

theorem handle2pcPrepareResponseImpl_moves :
    Moves inc c (c.handle2pcPrepareResponseImpl env participant).2 := by
  unfold handle2pcPrepareResponseImpl
  dsimp only
  split
  · exact .refl
  split
  · rename_i c' hc
    obtain ⟨hm, s, rfl⟩ := collectDownstream_moves ha hc
    refine hm.trans ?_
    split
    · exact .refl
    split
    · rename_i hd
      split
      · exact tryEnterPreCommitState_moves hd.1
      · exact postMsg_upstream_moves (by decide) trivial
      · exact .refl
      · exact .refl
    · exact .refl
  · rename_i hc
    exact (collectDownstream_moves ha hc).1

theorem handle2pcPreCommitResponseImpl_moves (hup : c.upstreamState = .preCommit) :
    Moves inc c (c.handle2pcPreCommitResponseImpl env participant).2 := by
  unfold handle2pcPreCommitResponseImpl
  split
  · exact .refl
  split
  · rename_i c' hc
    obtain ⟨hm, s, rfl⟩ := collectDownstream_moves ha hc
    refine hm.trans ?_
    split
    · rename_i hall
      split
      · rename_i hrole
        exact drive_match_moves .commit (.inl ⟨hrole, hup, hall⟩) fun _ _ =>
          ⟨rfl, fun _ => rfl, by simp⟩
      · exact postMsg_upstream_moves (by decide) (.inr (.inl ⟨hup, hall⟩))
      · exact .refl
      · exact .refl
    · exact .refl
  · rename_i hc
    exact (collectDownstream_moves ha hc).1

theorem handle2pcAckResponseImpl_moves (hup : c.upstreamState = .commit ∨
    c.upstreamState = .abort) : Moves inc c (c.handle2pcAckResponseImpl env participant).2 := by
  unfold handle2pcAckResponseImpl
  dsimp only
  split
  · exact .refl
  split
  · rename_i c' hc
    obtain ⟨hm, s, rfl⟩ := collectDownstream_moves ha hc
    refine hm.trans ?_
    split
    · exact .refl
    split
    · rename_i hdown
      obtain ⟨hdown, hall⟩ := hdown
      split
      · rename_i hrole
        exact drive_match_moves .clear ⟨hdown, .inl ⟨hrole, hall⟩⟩ fun _ _ =>
          ⟨rfl, by simp, fun _ => rfl⟩
      · rcases hup with hup | hup
        · rw [hup]
          refine postMsg_upstream_moves (by decide) ?_
          exact hdown.imp (fun h => ⟨h, .inl (hup ▸ hall)⟩) fun h => ⟨rfl, h⟩
        · rw [hup]
          refine postMsg_upstream_moves (by decide) ?_
          exact hdown.symm.imp (fun h => ⟨h, .inl (hup ▸ hall)⟩) fun h => ⟨rfl, h⟩
      · exact .refl
      · exact .refl
    · exact .refl
  · rename_i hc
    exact (collectDownstream_moves ha hc).1

end

theorem handle2pcAbortResponseImpl_moves (hinc : inc = some m)
    (hi : c.participants[participant]? = some m.src) (ht : m.type = .abortResp) :
    Moves inc c (c.handle2pcAbortResponseImpl env participant).2 := by
  -- the response is collected in the abort phase it makes the participant enter
  unfold handle2pcAbortResponseImpl
  split
  · exact .refl
  rename_i hdown
  have hle : c.downstreamState ≤ .prepare := by
    cases hd : c.downstreamState <;> simp [hd] at hdown <;> decide
  split
  · exact .refl
  split
  · cases c.role with
    | root | internal =>
      dsimp only
      split
      · exact .refl
      split
      · rename_i c' hd
        refine (driveSelf2pcPhase_moves .abort hle hd).trans ?_
        obtain ⟨s, q, rfl⟩ := driveSelf2pcPhase_success hd
        have ha : Acks inc { c with collected := s, upstreamState := .abort, logQueue := q }
            participant := ⟨m, hinc, hi, by rw [ht]; trivial⟩
        split
        · rename_i hc
          obtain ⟨hm, -⟩ := collectDownstream_moves ha hc
          exact hm.trans (postDownstreamMsg_moves env ⟨rfl, by simp, by simp⟩)
        · rename_i hc
          exact (collectDownstream_moves ha hc).1
      · rename_i hd
        exact driveSelf2pcPhase_moves .abort hle hd
    | leaf | unknown => exact .refl
  · exact .refl

theorem handle2pcPrepareRedoResponseImpl_moves (ha : Acks inc c participant) :
    Moves inc c (c.handle2pcPrepareRedoResponseImpl env participant).2 := by
  unfold handle2pcPrepareRedoResponseImpl
  dsimp only
  split
  · rename_i c' hc
    refine (collectDownstream_moves ha hc).1.trans ?_
    split
    · exact .refl
    split
    · split
      · exact .refl
      · exact postMsg_upstream_moves (by decide) trivial
    · exact .refl
  · rename_i hc
    exact (collectDownstream_moves ha hc).1

theorem handle2pcResp_moves (hinc : inc = some m) (hi : c.participants[participant]? = some m.src) :
    Moves inc c (c.handle2pcResp env m.type participant).2 := by
  have hack : AckOf c.upstreamState m.type → Acks inc c participant := fun h => ⟨m, hinc, hi, h⟩
  have hto : Moves inc c _ := retransmitDownstreamMsgTo_moves env participant c
  unfold handle2pcResp
  cases ht : m.type with
  | prepareRedoResp =>
    unfold handle2pcPrepareRedoResponse
    dsimp only
    split
    · exact .refl
    cases hup : c.upstreamState with
    | init =>
      refine .head (.redo hup) (handle2pcPrepareRedoResponseImpl_moves ?_)
      exact ⟨m, hinc, hi, by rw [ht]; trivial⟩
    | redoComplete =>
      exact handle2pcPrepareRedoResponseImpl_moves (hack (by rw [hup, ht]; trivial))
    | prepare | preCommit | commit | abort => exact hto
    | unknown | clear | max => exact .refl
  | prepareResp =>
    unfold handle2pcPrepareResponse
    cases hup : c.upstreamState with
    | redoComplete =>
      dsimp only
      split
      · refine driveSelf2pcPhase_moves .prepare (.inr (.inr ?_)) (Prod.eta _).symm
        rw [hup]
        decide
      · exact .refl
    | prepare => exact handle2pcPrepareResponseImpl_moves (hack (by rw [hup, ht]; trivial))
    | preCommit | commit | abort => exact hto
    | unknown | init | clear | max => exact .refl
  | preCommitResp =>
    unfold handle2pcPreCommitResponse
    cases hup : c.upstreamState with
    | preCommit =>
      exact handle2pcPreCommitResponseImpl_moves (hack (by rw [hup, ht]; trivial)) hup
    | commit | clear => exact hto
    | unknown | init | redoComplete | prepare | abort | max => exact .refl
  | commitResp =>
    unfold handle2pcCommitResponse
    cases hup : c.upstreamState with
    | commit => exact handle2pcAckResponseImpl_moves (hack (by rw [hup, ht]; trivial)) (.inl hup)
    | clear => exact hto
    | unknown | init | redoComplete | prepare | preCommit | abort | max => exact .refl
  | abortResp =>
    unfold handle2pcAbortResponse
    cases hup : c.upstreamState with
    | init | redoComplete | prepare => exact handle2pcAbortResponseImpl_moves hinc hi ht
    | commit => exact handle2pcAckResponseImpl_moves (hack (by rw [hup, ht]; trivial)) (.inl hup)
    | abort => exact handle2pcAckResponseImpl_moves (hack (by rw [hup, ht]; trivial)) (.inr hup)
    | clear => exact hto
    | unknown | preCommit | max => exact .refl
  | clearResp | prepareRedoReq | prepareReq | preCommitReq | commitReq | abortReq | clearReq =>
    exact .refl

/-! ## Callbacks of logs -/

theorem applyPrepareLog_moves (hq : c.logQueue = .prepare :: rest) :
    Moves inc c (({ c with logQueue := rest } : Ctx).applyPrepareLog env).2 := by
  have hpop : Moves inc c { c with logQueue := rest } := .single (.pop hq)
  unfold applyPrepareLog
  split
  · exact hpop
  split
  · exact hpop
  split
  · exact hpop
  split
  · exact hpop
  rename_i hdown hup _
  have happ : Applies c .prepare := ⟨not_not.mp hup, or_iff_not_and_not.mpr hdown⟩
  refine .head (.applied hq happ) ?_
  dsimp only [LogType.target]
  split
  · rename_i hall
    split
    · have hm : Moves inc _ (Ctx.tryEnterPreCommitState env _).2 := tryEnterPreCommitState_moves
        (c := ({ c with logQueue := rest } : Ctx).setDownstreamState .prepare) rfl
      split
      · rename_i c' he
        rwa [he] at hm
      · rename_i ret c' _ he
        rwa [he] at hm
    · exact postMsg_upstream_moves (by decide) trivial
    · exact postMsg_upstream_moves (by decide) trivial
    · exact .refl
  · exact .refl

theorem finishPhase_moves {type : MsgType} (ht : ¬ type.is2pcRequestMsg = true)
    (hdown : c.downstreamState = .commit ∨ c.downstreamState = .abort)
    (hg : c.allDownstreamCollected → ResponseGuard inc c type) :
    Moves inc c (c.finishPhase env type).2 := by
  unfold finishPhase
  split
  · rename_i hall
    split
    · rename_i hrole
      split
      · rename_i hd
        exact drive_post_moves .clear ⟨hdown, .inl ⟨hrole, hall⟩⟩ hd fun _ _ =>
          ⟨rfl, by simp, fun _ => rfl⟩
      · rename_i hd
        exact driveSelf2pcPhase_moves .clear ⟨hdown, .inl ⟨hrole, hall⟩⟩ hd
    · exact postMsg_upstream_moves ht (hg hall)
    · exact postMsg_upstream_moves ht (hg hall)
    · exact .refl
  · exact .refl

theorem applyCommitLog_moves (hq : c.logQueue = .commit :: rest) :
    Moves inc c (({ c with logQueue := rest } : Ctx).applyCommitLog env).2 := by
  have hpop : Moves inc c { c with logQueue := rest } := .single (.pop hq)
  unfold applyCommitLog
  split
  · exact hpop
  split
  · exact hpop
  split
  · exact hpop
  rename_i hdown hup _
  have happ : Applies c .commit := by
    refine ⟨not_not.mp hup, ?_⟩
    simpa only [or_iff_not_and_not, not_not] using hdown
  exact .head (.applied hq happ) (finishPhase_moves (by decide) (.inl rfl)
    fun hall => .inl ⟨rfl, .inl hall⟩)

theorem applyAbortLog_moves (hq : c.logQueue = .abort :: rest) :
    Moves inc c (({ c with logQueue := rest } : Ctx).applyAbortLog env).2 := by
  have hpop : Moves inc c { c with logQueue := rest } := .single (.pop hq)
  unfold applyAbortLog
  split
  · exact hpop
  split
  · exact hpop
  rename_i hdown _
  have happ : Applies c .abort := by
    by_contra h
    simp only [Applies, not_or] at h
    exact hdown h
  exact .head (.applied hq happ) (finishPhase_moves (by decide) (.inr rfl)
    fun hall => .inl ⟨rfl, .inl hall⟩)

theorem applyClearLog_moves (hq : c.logQueue = .clear :: rest) :
    Moves inc c (({ c with logQueue := rest } : Ctx).applyClearLog env).2 := by
  have hpop : Moves inc c { c with logQueue := rest } := .single (.pop hq)
  unfold applyClearLog
  split
  · exact hpop
  split
  · exact hpop
  split
  · exact hpop
  rename_i hdown hup _
  have happ : Applies c .clear := ⟨not_not.mp hup, or_iff_not_and_not.mpr hdown⟩
  exact .single (.applied hq happ)

theorem applyCommitInfoLog_moves (env : Env) (c : Ctx) :
    Moves inc c (c.applyCommitInfoLog env).2 := by
  unfold applyCommitInfoLog
  split
  · exact .refl
  split
  · exact .refl
  split
  · exact postMsg_upstream_moves (by decide) trivial
  · exact .refl

theorem apply_moves (env : Env) (c : Ctx) : Moves inc c (c.apply env).2 := by
  unfold apply
  cases hq : c.logQueue with
  | nil => exact .refl
  | cons t rest =>
    cases t with
    | commitInfo => exact .head (.applied hq trivial) (applyCommitInfoLog_moves env _)
    | prepare => exact applyPrepareLog_moves hq
    | commit => exact applyCommitLog_moves hq
    | abort => exact applyAbortLog_moves hq
    | clear => exact applyClearLog_moves hq

/-! ## Timeouts and mails -/

theorem driveSelf2pcPhase_downstreamState (env : Env) (next : ObTxState) (c : Ctx) :
    (c.driveSelf2pcPhase env next).2.downstreamState = c.downstreamState := by
  rcases hd : c.driveSelf2pcPhase env next with ⟨ret, c'⟩
  by_cases hr : ret = .success
  · subst hr
    obtain ⟨s, q, rfl⟩ := driveSelf2pcPhase_success hd
    rfl
  · rw [driveSelf2pcPhase_fail hr hd]

theorem completePreCommit_moves (hq : c.logQueue = []) :
    Moves inc c (if c.upstreamState = .preCommit ∧ c.downstreamState = .prepare then
      (c.onPreCommit env).2 else c) := by
  split
  · rename_i h
    have hself : ({ c with collected := c.collected, upstreamState := .preCommit } : Ctx) = c := by
      rw [← h.1]
    have hm : Move inc c (({ c with collected := c.collected, upstreamState := .preCommit } :
        Ctx).setDownstreamState .preCommit) := .enterPreCommit hq h.2 (.inr ⟨h.1, rfl⟩)
    rw [hself] at hm
    exact .head hm (onPreCommit_moves env c)
  · exact .refl

theorem driveSingle_moves (hroot : c.isRoot) (hsize : c.getDownstreamSize = 1)
    (hq : c.logQueue = []) : Moves inc c (c.driveSingle env) := by
  -- outside pre-commit the second half does nothing
  have hother : ∀ next, c.downstreamState ≠ .prepare → DriveGuard inc c next →
      Moves inc c (if (c.driveSelf2pcPhase env next).2.upstreamState = .preCommit ∧
          (c.driveSelf2pcPhase env next).2.downstreamState = .prepare then
        ((c.driveSelf2pcPhase env next).2.onPreCommit env).2
        else (c.driveSelf2pcPhase env next).2) := by
    intro next hne hg
    rw [if_neg fun h => hne ((driveSelf2pcPhase_downstreamState env next c).symm.trans h.2)]
    exact driveSelf2pcPhase_moves _ hg (Prod.eta _).symm
  unfold driveSingle
  split
  · rename_i hcond
    obtain ⟨-, hlt, hle⟩ := hcond
    cases hd : c.downstreamState with
    | prepare =>
      rcases hdrive : c.driveSelf2pcPhase env (decideNextState .prepare) with ⟨ret, c'⟩
      by_cases hr : ret = .success
      · subst hr
        obtain ⟨-, s, hs, rfl⟩ := drivePreCommit_success hdrive
        rw [if_pos ⟨rfl, hd⟩]
        exact .head (.enterPreCommit hq hd hs) (onPreCommit_moves env _)
      · rw [driveSelf2pcPhase_fail hr hdrive]
        exact completePreCommit_moves hq
    | preCommit =>
      exact hother .commit (by simp [hd]) (.inr (.inr ⟨hroot, hsize, hd⟩))
    | commit =>
      exact hother .clear (by simp [hd]) ⟨.inl hd, .inr (.inr ⟨hroot, hsize⟩)⟩
    | abort =>
      exact hother .clear (by simp [hd]) ⟨.inr hd, .inr (.inr ⟨hroot, hsize⟩)⟩
    | unknown | init | redoComplete => rw [hd] at hle; exact absurd hle (by decide)
    | clear | max => rw [hd] at hlt; exact absurd hlt (by decide)
  · exact completePreCommit_moves hq

theorem handleTimeout_moves (hinc : inc = none) (hsender : c.sender = none) :
    Moves inc c (c.handleTimeout env).2 := by
  unfold handleTimeout
  dsimp only
  have h₁ : Moves inc c _ := submit2pcLog_moves env c
  set c₁ := (c.submit2pcLog env).2
  have h₂ : Moves inc c₁ (if c₁.isRoot ∨ c₁.isInternal then (c₁.retransmitDownstreamMsg env).2
      else c₁) := by
    split
    · exact (retransmitDownstreamMsg_moves_posted env c₁).1
    · exact .refl
  set c₂ := if c₁.isRoot ∨ c₁.isInternal then (c₁.retransmitDownstreamMsg env).2 else c₁
  have hu : Upstreamward inc c₂ :=
    .inl ⟨hinc, (sameFrame_of_moves (h₁.trans h₂)).sender.trans hsender⟩
  have h₃ : Moves inc c₂ (if c₂.isInternal ∨ c₂.isLeaf then
      (c₂.retransmitUpstreamMsg env c₂.downstreamState).2 else c₂) := by
    split
    · exact retransmitUpstreamMsg_moves hu (.inl rfl)
    · exact .refl
  set c₃ := if c₂.isInternal ∨ c₂.isLeaf then
    (c₂.retransmitUpstreamMsg env c₂.downstreamState).2 else c₂
  refine (h₁.trans h₂).trans (h₃.trans ?_)
  split
  · rename_i h
    exact driveSingle_moves h.1 h.2.1 (not_not.mp h.2.2)
  · exact .refl

theorem getElem?_of_findParticipantId {key i}
    (h : c.findParticipantId key = some i) : c.participants[i]? = some key := by
  obtain ⟨hlt, heq, -⟩ := List.idxOf?_eq_some_iff.mp h
  rw [List.getElem?_eq_getElem hlt, heq]

theorem dispatch_moves (env : Env) (hsender : c.sender = some m.src) :
    ∃ c₀, c₀ = (if m.type.is2pcRequestMsg then c.learnCoordinator m else c) ∧
      Moves (some m) c₀ (c.dispatch env m).2 := by
  refine ⟨_, rfl, ?_⟩
  unfold dispatch
  split
  · rename_i ht
    refine handle2pcReq_moves rfl (.inr ⟨m, rfl, ht, ?_⟩)
    unfold learnCoordinator
    split <;> exact hsender
  · split
    · exact .refl
    rename_i i hi
    exact handle2pcResp_moves rfl (getElem?_of_findParticipantId hi)

end OceanBase.Tx
