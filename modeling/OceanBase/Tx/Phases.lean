import OceanBase.Tx.Moves

/-!
# Phases as guarded moves

The parts every handler of the committer is made of (posts, retransmissions, the submission of
logs, the in-memory transition and the entry into pre-commit) are sequences of the moves of
`Tx.Moves`, whatever the context they start from and whatever the implementer answers: the guards
of the moves are the checks the code makes on its way.

## Main results

* `driveSelf2pcPhase_cases`, `driveSelf2pcPhase_moves`: the in-memory transition
* `twoPhaseCommit_moves`, `twoPhaseAbort_moves`, `prepareRedo_moves`, `continueExecution_moves`:
  the events that start a phase
-/

namespace OceanBase.Tx

open Ctx

variable {inc : Option Mail} {env : Env} {c c' : Ctx}

/-! ## Posts -/

theorem postMsg_cases (env : Env) (type : MsgType) (dest : Dest) (c : Ctx) :
    (c.postMsg env type dest).2 = c ∨ ∃ dst, c.resolve dest = some dst ∧ dst ≠ c.addr ∧
        (c.postMsg env type dest).2 = { c with outbox := ⟨type, c.addr, dst⟩ :: c.outbox } := by
  unfold postMsg
  cases hr : c.resolve dest with
  | none => left; cases dest <;> rfl
  | some dst =>
  by_cases hd : c.addr = dst
  · left; simp [hd]
  · exact .inr ⟨dst, rfl, Ne.symm hd, by simp [hd]⟩

/-- The contexts that differ from `c` in the mails posted only. -/
def PostedFrom (c c' : Ctx) : Prop := ∃ o, c' = { c with outbox := o }

theorem PostedFrom.refl (c : Ctx) : PostedFrom c c := ⟨c.outbox, rfl⟩

theorem PostedFrom.trans {c c' c''} (h : PostedFrom c c') (h' : PostedFrom c' c'') :
    PostedFrom c c'' := by
  obtain ⟨o, rfl⟩ := h
  obtain ⟨o', rfl⟩ := h'
  exact ⟨o', rfl⟩

theorem postMsg_posted (env : Env) (type : MsgType) (dest : Dest) (c : Ctx) :
    PostedFrom c (c.postMsg env type dest).2 := by
  rcases postMsg_cases env type dest c with h | ⟨dst, -, -, h⟩
  · rw [h]
    exact .refl c
  · exact ⟨_, h⟩

/-- The state of a context allows the requests of a type. -/
def SendsRequest (c : Ctx) (type : MsgType) : Prop :=
  type.is2pcRequestMsg = true ∧ (type = .commitReq → c.upstreamState = .commit) ∧
    (type = .clearReq → c.upstreamState = .clear)

variable {type : MsgType} {state : ObTxState} {ret : Ret}

theorem PostedFrom.sendsRequest (h : PostedFrom c c')
    (hs : SendsRequest c type) : SendsRequest c' type := by
  obtain ⟨o, rfl⟩ := h
  exact hs

theorem postMsg_participant_moves (hs : SendsRequest c type) (id : ℕ) :
    Moves inc c (c.postMsg env type (.participant id)).2 := by
  rcases postMsg_cases env type (.participant id) c with h | ⟨dst, hr, hne, h⟩
  · rw [h]
  rw [h]
  exact .single (.post rfl hne (.inl ⟨hs.1, List.mem_of_getElem? hr, hs.2⟩))

theorem foldl_posts {α : Type} (g : α → ℕ → α) (p : α → Ctx) (hg : ∀ a id, SendsRequest (p a) type →
      Moves inc (p a) (p (g a id)) ∧ PostedFrom (p a) (p (g a id)))
    (ids : List ℕ) (a : α) (hs : SendsRequest (p a) type) :
    Moves inc (p a) (p (ids.foldl g a)) ∧ PostedFrom (p a) (p (ids.foldl g a)) := by
  induction ids generalizing a with
  | nil => exact ⟨.refl, .refl _⟩
  | cons id ids ih =>
  obtain ⟨hm, hp⟩ := hg a id hs
  obtain ⟨hm', hp'⟩ := ih (g a id) (hp.sendsRequest hs)
  exact ⟨hm.trans hm', hp.trans hp'⟩

theorem postDownstreamMsg_moves (env : Env) (hs : SendsRequest c type) :
    Moves inc c (c.postDownstreamMsg env type).2 := by
  refine (foldl_posts _ Prod.snd ?_ _ (Ret.success, c) hs).1
  intro a id ha
  split
  · exact ⟨.refl, .refl _⟩
  · exact ⟨postMsg_participant_moves ha id, postMsg_posted _ _ _ _⟩

theorem postDownstreamMsg_posted (env : Env) (type : MsgType) (c : Ctx) :
    PostedFrom c (c.postDownstreamMsg env type).2 := by
  unfold postDownstreamMsg
  generalize List.range c.getDownstreamSize = ids
  suffices h : ∀ r : Ret × Ctx, PostedFrom r.2 (ids.foldl (fun r id =>
      if some id = r.2.getSelfId then r else r.2.postMsg env type (.participant id)) r).2 from
    h (.success, c)
  intro r
  induction ids generalizing r with
  | nil => exact .refl _
  | cons id ids ih =>
  refine .trans ?_ (ih _)
  dsimp only
  split
  · exact .refl _
  · exact postMsg_posted _ _ _ _

theorem decideDownstreamMsgType_sends
    (h : c.decideDownstreamMsgType = (ret, some type)) : SendsRequest c type := by
  unfold decideDownstreamMsgType at h
  split at h <;> (try split at h) <;> simp_all [SendsRequest, MsgType.is2pcRequestMsg]
  all_goals (obtain ⟨-, rfl⟩ := h; simp_all)

theorem retransmitDownstreamMsg_moves_posted (env : Env) (c : Ctx) :
    Moves inc c (c.retransmitDownstreamMsg env).2 ∧
      PostedFrom c (c.retransmitDownstreamMsg env).2 := by
  unfold retransmitDownstreamMsg
  split
  · split
    · rename_i ret type hd
      refine foldl_posts _ id ?_ _ c
        (decideDownstreamMsgType_sends hd)
      intro a i ha
      split
      · exact ⟨postMsg_participant_moves ha i, postMsg_posted _ _ _ _⟩
      · exact ⟨.refl, .refl _⟩
    · exact ⟨.refl, .refl _⟩
  · exact ⟨.refl, .refl _⟩

theorem retransmitDownstreamMsgTo_moves (env : Env) (participant : ℕ) (c : Ctx) :
    Moves inc c (c.retransmitDownstreamMsgTo env participant).2 := by
  unfold retransmitDownstreamMsgTo
  split
  · exact .refl
  split
  · rename_i ret type hd
    exact postMsg_participant_moves (decideDownstreamMsgType_sends hd) participant
  · exact .refl

/-! ## Responses -/

/-- The mail being handled, if any, is a request, and the context knows its sender: the situation
in which the committer responds upstream. -/
def Upstreamward (inc : Option Mail) (c : Ctx) : Prop :=
  (inc = none ∧ c.sender = none) ∨
    ∃ m, inc = some m ∧ m.type.is2pcRequestMsg = true ∧ c.sender = some m.src

theorem postMsg_upstream_moves (ht : ¬ type.is2pcRequestMsg = true)
    (hg : ResponseGuard inc c type) : Moves inc c (c.postMsg env type .upstream).2 := by
  rcases postMsg_cases env type .upstream c with h | ⟨dst, hr, hne, h⟩
  · rw [h]
  rw [h]
  exact .single (.post rfl hne (.inr ⟨ht, .inl hr, hg⟩))

theorem postMsg_sender_moves (ht : ¬ type.is2pcRequestMsg = true)
    (hu : Upstreamward inc c) (hg : ResponseGuard inc c type) :
    Moves inc c (c.postMsg env type .sender).2 := by
  rcases postMsg_cases env type .sender c with h | ⟨dst, hr, hne, h⟩
  · rw [h]
  rw [h]
  refine .single (.post rfl hne (.inr ⟨ht, ?_, hg⟩))
  rcases hu with ⟨-, hs⟩ | ⟨m, hinc, hm, hs⟩
  · left
    simpa [resolve, hs] using hr
  right
  refine ⟨m, hinc, hm, ?_⟩
  simpa [resolve, hs] using hr

theorem respondType_response
    (h : c.respondType state = (ret, some type)) : ¬ type.is2pcRequestMsg = true := by
  unfold respondType at h
  split at h <;> (try split at h) <;> simp at h
  all_goals (obtain ⟨-, rfl⟩ := h; decide)

section

variable (hu : Upstreamward inc c)
  (hst : state = c.downstreamState ∨ (state = .prepare ∨ state = .preCommit) ∧
    (c.downstreamState = .preCommit ∨ c.downstreamState = .commit))
include hu hst

theorem respondType_guard (hn : c.needRespond state = some true)
    (hr : c.respondType state = (ret, some type)) : ResponseGuard inc c type := by
  have hfake : ¬ c.isRealUpstream → FakeUpstream inc c := by
    intro hreal
    rcases hu with ⟨-, hs⟩ | ⟨m, hinc, hm, -⟩
    · exact absurd (.inl hs) hreal
    · exact ⟨hreal, m, hinc, hm⟩
  -- responding for the current durable state takes all responses, or a fake upstream
  have heq : state = c.downstreamState → c.allDownstreamCollected ∨ FakeUpstream inc c := by
    intro h
    unfold needRespond at hn
    cases hrole : c.role with
    | root => exact .inr (hfake (by simpa [hrole] using hn))
    | internal =>
      have hlt : ¬ state < c.downstreamState := by rw [h]; exact lt_irrefl c.downstreamState.val
      have hcoll : c.allDownstreamCollected ∨ ¬ c.isRealUpstream := by
        simp only [hrole, Option.some.injEq, decide_eq_true_eq] at hn
        exact (hn.resolve_right hlt).1
      exact hcoll.imp_right hfake
    | leaf => exact .inl (by simp [allDownstreamCollected, hrole])
    | unknown => simp [hrole] at hn
  unfold respondType at hr
  split at hr <;> (try split at hr) <;> simp at hr <;> obtain ⟨-, rfl⟩ := hr
  all_goals simp only [ResponseGuard]
  · rcases hst with hst | ⟨-, hst⟩
    · exact .inl ⟨hst.symm, heq hst⟩
    rcases hst with hst | hst
    · exact .inl ⟨hst, heq hst.symm⟩
    · exact .inr (.inr hst)
  · rcases hst with hst | ⟨hst, -⟩
    · exact .inl ⟨hst.symm, heq hst⟩
    · simp at hst
  · rcases hst with hst | ⟨hst, -⟩
    · exact .inl ⟨hst.symm, heq hst⟩
    · simp at hst

theorem retransmitUpstreamMsg_moves : Moves inc c (c.retransmitUpstreamMsg env state).2 := by
  unfold retransmitUpstreamMsg
  split
  · exact .refl
  split
  · exact .refl
  · exact .refl
  rename_i hn
  split
  · rename_i ret type hr
    refine postMsg_sender_moves (respondType_response hr) hu (respondType_guard hu hst hn hr)
  · exact .refl

theorem retransmit_moves :
    Moves inc c ((c.retransmitDownstreamMsg env).2.retransmitUpstreamMsg env state).2 := by
  obtain ⟨hm, o, ho⟩ : Moves inc c (c.retransmitDownstreamMsg env).2 ∧ PostedFrom c _ :=
    retransmitDownstreamMsg_moves_posted env c
  apply hm.trans
  rw [ho]
  exact retransmitUpstreamMsg_moves hu hst

end

/-! ## The in-memory transition -/

theorem submit2pcLog_cases (env : Env) (c : Ctx) :
    (c.submit2pcLog env).2 = c ∨ ∃ t, c.decide2pcLogType.2 = some t ∧
      (c.submit2pcLog env).2 = { c with logQueue := c.logQueue ++ [t] } := by
  unfold submit2pcLog submitLog
  split
  · rename_i ret t hd
    split
    · exact .inr ⟨t, by rw [hd], rfl⟩
    · exact .inl rfl
  · exact .inl rfl

/-- **When a log is called for**, and which one. -/
theorem decide2pcLogType_cases {t : LogType} (h : c.decide2pcLogType.2 = some t) :
    c.logQueue = [] ∧ c.downstreamState < c.upstreamState ∧
      (t = .commitInfo ∧ c.upstreamState = .redoComplete ∨
        t = .prepare ∧ c.upstreamState = .prepare ∨ t = .commit ∧ c.upstreamState = .commit ∧
          (c.downstreamState = .prepare ∨ c.downstreamState = .preCommit) ∨
        t = .abort ∧ c.upstreamState = .abort ∧ c.downstreamState ≠ .commit ∨
        t = .clear ∧ c.upstreamState = .clear ∧
          (c.downstreamState = .commit ∨ c.downstreamState = .abort)) := by
  unfold decide2pcLogType at h
  split at h
  · cases h
  rename_i hl
  split at h
  · rename_i hlt
    refine ⟨not_not.mp hl, hlt, ?_⟩
    split at h <;> (try split at h) <;> simp_all
  · cases h

theorem submit2pcLog_moves (env : Env) (c : Ctx) : Moves inc c (c.submit2pcLog env).2 := by
  rcases submit2pcLog_cases env c with h | ⟨t, ht, h⟩
  · rw [h]
  have hq := (decide2pcLogType_cases ht).1
  rw [h, hq]
  exact .single (.submit hq (.inl ht))

theorem submit2pcLog_same (env : Env) (c : Ctx) :
    ∃ q, (c.submit2pcLog env).2 = { c with logQueue := q } := by
  rcases submit2pcLog_cases env c with h | ⟨t, -, h⟩
  · exact ⟨c.logQueue, h⟩
  · exact ⟨_, h⟩

/-- **What the in-memory transition can do**: it fails and changes nothing, or it finds or enters
the phase and then tries to submit the log of the new pair of states. -/
theorem driveSelf2pcPhase_cases (env : Env) (next : ObTxState) (c : Ctx) :
    ((c.driveSelf2pcPhase env next).1 ≠ .success ∧ (c.driveSelf2pcPhase env next).2 = c) ∨
    ((c.driveSelf2pcPhase env next).1 = .success ∧ c.logQueue = [] ∧
      ∃ c₁, (next = c.upstreamState ∧ c₁ = c ∨
          next ≠ c.upstreamState ∧ c₁ = { c with collected := ∅, upstreamState := next }) ∧
        ((c.driveSelf2pcPhase env next).2 = c₁ ∨
          (c.driveSelf2pcPhase env next).2 = (c₁.submit2pcLog env).2)) := by
  unfold driveSelf2pcPhase
  by_cases hl : c.is2pcLogging
  · left; simp [hl]
  have hq : c.logQueue = [] := not_not.mp hl
  rw [if_neg hl]
  split
  · left; simp
  split
  · rename_i hn
    exact .inr ⟨rfl, hq, c, .inl ⟨hn, rfl⟩, .inr rfl⟩
  rename_i hn
  dsimp only
  split
  · rename_i hret
    exact .inl ⟨hret, rfl⟩
  split
  · rename_i hret
    exact .inl ⟨hret, rfl⟩
  right
  split
  · exact ⟨rfl, hq, _, .inr ⟨hn, rfl⟩, .inl rfl⟩
  · exact ⟨rfl, hq, _, .inr ⟨hn, rfl⟩, .inr rfl⟩

theorem driveSelf2pcPhase_moves (next : ObTxState) (hg : DriveGuard inc c next)
    (hd : c.driveSelf2pcPhase env next = (ret, c')) : Moves inc c c' := by
  obtain rfl : c' = (c.driveSelf2pcPhase env next).2 := by rw [hd]
  rcases driveSelf2pcPhase_cases env next c with ⟨-, h⟩ | ⟨-, hq, c₁, hc₁, h⟩
  · rw [h]
  have hm : Moves inc c c₁ := by
    rcases hc₁ with ⟨-, rfl⟩ | ⟨hne, rfl⟩
    · exact .refl
    · exact .single (.drive hq hne hg)
  rcases h with h | h
  · exact h ▸ hm
  rw [h]
  exact hm.trans (submit2pcLog_moves env c₁)

theorem driveSelf2pcPhase_success {next} (hd : c.driveSelf2pcPhase env next = (.success, c')) :
    ∃ s q, c' = { c with collected := s, upstreamState := next, logQueue := q } := by
  obtain rfl : c' = (c.driveSelf2pcPhase env next).2 := by rw [hd]
  rcases driveSelf2pcPhase_cases env next c with ⟨hf, -⟩ | ⟨-, hq, c₁, hc₁, h⟩
  · exact absurd (by rw [hd]) hf
  have hs : ∃ s, c₁ = { c with collected := s, upstreamState := next } := by
    rcases hc₁ with ⟨rfl, rfl⟩ | ⟨-, rfl⟩
    · exact ⟨_, rfl⟩
    · exact ⟨_, rfl⟩
  obtain ⟨s, rfl⟩ := hs
  rcases h with h | h
  · exact ⟨s, _, h⟩
  obtain ⟨q, hq⟩ := submit2pcLog_same env { c with collected := s, upstreamState := next }
  exact ⟨s, q, h.trans hq⟩

theorem driveSelf2pcPhase_fail {next} (hr : ret ≠ .success)
    (hd : c.driveSelf2pcPhase env next = (ret, c')) : c' = c := by
  rcases driveSelf2pcPhase_cases env next c with ⟨-, h⟩ | ⟨h, -⟩
  · rw [hd] at h
    exact h
  · rw [hd] at h
    exact absurd h hr

theorem drive_post_moves (next : ObTxState) (hg : DriveGuard inc c next)
    (hd : c.driveSelf2pcPhase env next = (.success, c'))
    (ht : ∀ s q, SendsRequest { c with collected := s, upstreamState := next, logQueue := q }
      type) : Moves inc c (c'.postDownstreamMsg env type).2 := by
  obtain ⟨s, q, hc'⟩ := driveSelf2pcPhase_success hd
  refine (driveSelf2pcPhase_moves _ hg hd).trans (postDownstreamMsg_moves env ?_)
  rw [hc']
  exact ht s q

/-! ## Entering pre-commit -/

theorem submit2pcLog_preCommit (h : c.upstreamState = .preCommit) : (c.submit2pcLog env).2 = c := by
  rcases submit2pcLog_cases env c with h' | ⟨t, ht, -⟩
  · exact h'
  have := (decide2pcLogType_cases ht).2.2
  simp [h] at this

theorem drivePreCommit_success (hd : c.driveSelf2pcPhase env .preCommit = (.success, c')) :
    c.logQueue = [] ∧ ∃ s, (s = ∅ ∨ c.upstreamState = .preCommit ∧ s = c.collected) ∧
      c' = { c with collected := s, upstreamState := .preCommit } := by
  obtain rfl : c' = (c.driveSelf2pcPhase env .preCommit).2 := by rw [hd]
  rcases driveSelf2pcPhase_cases env .preCommit c with ⟨hf, -⟩ | ⟨-, hq, c₁, hc₁, h⟩
  · exact absurd (by rw [hd]) hf
  refine ⟨hq, ?_⟩
  rcases hc₁ with ⟨hup, rfl⟩ | ⟨-, rfl⟩
  · refine ⟨c₁.collected, .inr ⟨hup.symm, rfl⟩, ?_⟩
    have hc : c₁ = { c₁ with collected := c₁.collected, upstreamState := .preCommit } := by
      rw [hup]
    rcases h with h | h
    · exact h.trans hc
    rw [h, submit2pcLog_preCommit hup.symm]
    exact hc
  · refine ⟨∅, .inl rfl, ?_⟩
    rcases h with h | h
    · exact h
    rw [h]
    exact submit2pcLog_preCommit rfl

theorem onPreCommit_moves (env : Env) (c : Ctx) :
    Moves inc (c.setDownstreamState .preCommit) (c.onPreCommit env).2 := by
  unfold onPreCommit
  dsimp only
  cases hrole : (c.setDownstreamState .preCommit).role with
  | root =>
    dsimp only
    split
    · rename_i hsize
      exact driveSelf2pcPhase_moves .commit
        (Or.inr (Or.inr ⟨hrole, hsize, rfl⟩)) (Prod.eta _).symm
    · exact postDownstreamMsg_moves env ⟨rfl, by simp, by simp⟩
  | internal => exact postDownstreamMsg_moves env ⟨rfl, by simp, by simp⟩
  | leaf =>
    refine postMsg_upstream_moves (by decide) (.inl ⟨rfl, .inl ?_⟩)
    simp [allDownstreamCollected, hrole]
  | unknown => exact .refl

theorem tryEnterPreCommitState_moves (hdown : c.downstreamState = .prepare) :
    Moves inc c (c.tryEnterPreCommitState env).2 := by
  unfold tryEnterPreCommitState
  split
  · exact .refl
  split
  · rename_i c' hd
    obtain ⟨hq, s, hs, rfl⟩ := drivePreCommit_success hd
    exact .head (.enterPreCommit hq hdown hs) (onPreCommit_moves env _)
  · rename_i ret c' hne hd
    rw [driveSelf2pcPhase_fail hne hd]

/-! ## Events that start a phase -/

theorem drive_match_moves (next : ObTxState) (hg : DriveGuard inc c next)
    (ht : ∀ s q, SendsRequest { c with collected := s, upstreamState := next, logQueue := q }
      type) :
    Moves inc c (match c.driveSelf2pcPhase env next with
      | (.success, c) => (Ret.success, (c.postDownstreamMsg env type).2)
      | (ret, c) => (ret, c)).2 := by
  split
  · rename_i hd
    exact drive_post_moves _ hg hd ht
  · rename_i hne hd
    exact driveSelf2pcPhase_moves _ hg hd

theorem twoPhaseCommit_moves (env : Env) (c : Ctx) : Moves inc c (c.twoPhaseCommit env).2 := by
  unfold twoPhaseCommit
  split
  · exact .refl
  split
  · exact .refl
  rename_i hup _
  have hlt : c.upstreamState < .prepare := Nat.not_le.mp hup
  exact drive_match_moves .prepare (.inr (.inr hlt)) fun _ _ => ⟨rfl, by simp, by simp⟩

theorem twoPhaseAbort_moves (env : Env) (c : Ctx) : Moves inc c (c.twoPhaseAbort env).2 := by
  unfold twoPhaseAbort
  split
  · exact .refl
  split
  · exact .refl
  rename_i hdown _
  have hle : c.downstreamState ≤ .prepare := by rw [not_not.mp hdown]; decide
  exact drive_match_moves .abort hle fun _ _ => ⟨rfl, by simp, by simp⟩

theorem prepareRedo_moves (env : Env) (c : Ctx) : Moves inc c (c.prepareRedo env).2 := by
  unfold prepareRedo
  split
  · exact .refl
  split
  · exact .refl
  rename_i hup hl
  have hup : c.upstreamState = .init := not_not.mp hup
  have hq : c.logQueue = [] := not_not.mp hl
  dsimp only
  obtain ⟨o, ho⟩ := postDownstreamMsg_posted env .prepareRedoReq
    { c with upstreamState := .redoComplete, collected := ∅ }
  have hs : SendsRequest { c with upstreamState := .redoComplete, collected := ∅ }
      .prepareRedoReq := ⟨rfl, by simp, by simp⟩
  refine .head (.redo hup) ((postDownstreamMsg_moves env hs).trans ?_)
  rw [ho]
  unfold submitLog
  split
  · dsimp only
    rw [hq]
    exact .single (.submit rfl (.inr ⟨rfl, rfl⟩))
  · exact .refl

theorem continueExecution_moves (env : Env) (isRollback : Bool) (c : Ctx) :
    Moves inc c (c.continueExecution env isRollback).2 := by
  unfold continueExecution
  split
  · exact .refl
  split
  · exact .refl
  rename_i hle
  obtain ⟨hup, hdown⟩ := not_or.mp hle
  split
  · have hle : c.downstreamState ≤ .prepare := (Nat.not_lt.mp hdown).trans (by decide)
    exact drive_match_moves .abort hle fun _ _ => ⟨rfl, by simp, by simp⟩
  have hlt : c.upstreamState < .prepare :=
    Nat.lt_of_le_of_lt (Nat.not_lt.mp hup) (by decide)
  exact drive_match_moves .prepare (.inr (.inr hlt)) fun _ _ => ⟨rfl, by simp, by simp⟩

end OceanBase.Tx
