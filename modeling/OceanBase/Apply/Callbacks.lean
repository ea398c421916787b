import OceanBase.Apply.Replica

/-!
# Callbacks and the logs they belong to

The apply status compares the LSN of a callback with an LSN that PALF reported, and it never sees
the log itself. That this tells which logs are committed rests on the logs of a term: a replica that
leads a term writes all of its entries, in the order of LSN and SCN alike, behind a log that is
committed, and an entry of the term that PALF reports later is one of these. The entries it gave out
are in this order even if they were cut off again, so a report of the term separates the callbacks
by LSN as it does by SCN.

## Main results

* `LogInv.move`, `LogInv.append`, `CbInv.move`: the moves keep the invariants
-/

namespace OceanBase.Apply

open Palf List Replica Function PalfView CbQueue ApplyStatus Option Prod

/-! ## The log -/

namespace PalfView

variable {p p' : PalfView} {e : PalfEntry} {i j n : ℕ}

/-- The entries are in the order of LSN and SCN, behind the base. -/
structure Wf (p : PalfView) : Prop where
  sorted : p.entries.Pairwise fun a b => a.endLsn ≤ b.lsn ∧ a.scn < b.scn
  entry : ∀ e ∈ p.entries,
    p.baseLsn ≤ e.lsn ∧ e.lsn < e.endLsn ∧ p.baseScn < e.scn ∧ scnIsValid e.scn
  baseScn : scnIsValid p.baseScn
  committed_le : p.committed ≤ p.entries.length
  slid_le : p.slid ≤ p.committed

/-- A log from before this replica led a term. -/
structure Init (p : PalfView) : Prop where
  wf : p.Wf
  pids : ∀ e ∈ p.entries, e.proposalId ≤ p.proposalId
  isLeader : p.isLeader = false
  termStart : ∀ pid, p.termStart pid = none
  given : p.given = []

theorem at_succ (h : p.entries[n]? = some e) :
    p.endLsnAt (n + 1) = e.endLsn ∧ p.scnAt (n + 1) = e.scn := by
  simp [endLsnAt, scnAt, h]

theorem Wf.at_lt (h : p.Wf) (hij : i < j) (hj : j ≤ p.entries.length) :
    p.endLsnAt i < p.endLsnAt j ∧ p.scnAt i < p.scnAt j := by
  obtain ⟨k, rfl⟩ : ∃ k, j = k + 1 := ⟨j - 1, by omega⟩
  have hk : k < p.entries.length := hj
  have hget : p.entries[k]? = some p.entries[k] := getElem?_eq_getElem hk
  obtain ⟨hbase, hpos, hscn, -⟩ := h.entry _ (getElem_mem hk)
  rw [(at_succ hget).1, (at_succ hget).2]
  cases i with
  | zero => exact ⟨lt_of_le_of_lt hbase hpos, hscn⟩
  | succ m =>
  have hmk : m < k := by omega
  have hget' : p.entries[m]? = some p.entries[m] := getElem?_eq_getElem (hmk.trans hk)
  obtain ⟨hend, hlt⟩ := pairwise_iff_getElem.mp h.sorted m k (hmk.trans hk) hk hmk
  rw [(at_succ hget').1, (at_succ hget').2]
  exact ⟨lt_of_le_of_lt hend hpos, hlt⟩

theorem Wf.at_le (h : p.Wf) (hij : i ≤ j) (hj : j ≤ p.entries.length) :
    p.endLsnAt i ≤ p.endLsnAt j ∧ p.scnAt i ≤ p.scnAt j := by
  rcases hij.eq_or_lt with rfl | hlt
  · exact ⟨le_rfl, le_rfl⟩
  · exact ⟨(h.at_lt hlt hj).1.le, (h.at_lt hlt hj).2.le⟩

theorem Wf.scn_le_maxScn (h : p.Wf) (he : e ∈ p.entries) : e.scn ≤ p.maxScn := by
  obtain ⟨i, hi, rfl⟩ := mem_iff_getElem.mp he
  rw [← (at_succ (getElem?_eq_getElem hi)).2]
  exact (h.at_le hi le_rfl).2

theorem Wf.scnIsValid_scnAt (h : p.Wf) (n : ℕ) : scnIsValid (p.scnAt n) := by
  cases n with
  | zero => exact h.baseScn
  | succ n =>
    cases hget : p.entries[n]? with
    | none =>
      simp only [scnAt, hget, map_none, getD_none]
      exact h.baseScn
    | some e =>
      rw [(at_succ hget).2]
      exact (h.entry e (mem_of_getElem? hget)).2.2.2

/-- The two logs have the same first `n` entries. -/
structure Agree (p p' : PalfView) (n : ℕ) : Prop where
  baseLsn : p'.baseLsn = p.baseLsn
  baseScn : p'.baseScn = p.baseScn
  entries : ∀ i < n, p'.entries[i]? = p.entries[i]?

theorem Agree.at_eq (h : Agree p p' n) (hi : i ≤ n) :
    p'.endLsnAt i = p.endLsnAt i ∧ p'.scnAt i = p.scnAt i := by
  cases i with
  | zero => exact ⟨h.baseLsn, h.baseScn⟩
  | succ i => simp only [endLsnAt, scnAt, h.entries i hi, h.baseLsn, h.baseScn, and_self]

theorem agree_append (p : PalfView) (e : PalfEntry) :
    Agree p { p with entries := p.entries ++ [e] } p.entries.length :=
  ⟨rfl, rfl, fun _ hi => getElem?_append_left hi⟩

/-- **What is committed stays.** -/
theorem Move.agree (h : p.Wf) (hm : Move p p') :
    Agree p p' p.committed ∧ p.committed ≤ p'.committed := by
  cases hm with
  | lead | leave | newTerm => exact ⟨⟨rfl, rfl, fun _ _ => rfl⟩, le_rfl⟩
  | commit n hle hlen => exact ⟨⟨rfl, rfl, fun _ _ => rfl⟩, hle⟩
  | truncate n hrole hle =>
    exact ⟨⟨rfl, rfl, fun i hi => getElem?_take_of_lt (by omega)⟩, le_rfl⟩
  | receive e =>
  have hagree := agree_append p e
  exact ⟨⟨rfl, rfl, fun i hi => hagree.entries i (hi.trans_le h.committed_le)⟩, le_rfl⟩

theorem Move.proposalId_le (hm : Move p p') : p.proposalId ≤ p'.proposalId := by
  cases hm with
  | lead pid hrole hpid | newTerm pid hrole hpid => exact hpid.le
  | leave | commit | truncate | receive => exact le_rfl

/-- A term that has begun begins only once: its leader has been leader all the time. -/
theorem Move.leads {pid} (hm : Move p p') (hlead : p'.isLeader = true)
    (hpid : p'.proposalId = pid) (hle : pid ≤ p.proposalId) :
    p.isLeader = true ∧ p.proposalId = pid := by
  cases hm with
  | lead q hrole hlt => exact absurd (hpid ▸ hlt) (not_lt.mpr hle)
  | leave => exact nomatch hlead
  | newTerm q hrole hlt => exact absurd (hrole.symm.trans hlead) nofun
  | commit | truncate | receive => exact ⟨hlead, hpid⟩

theorem Wf.follows (h : p.Wf) (hf : p.Follows e) {a} (ha : a ∈ p.entries) :
    a.endLsn ≤ e.lsn ∧ a.scn < e.scn := by
  refine ⟨?_, lt_of_le_of_lt (h.scn_le_maxScn ha) hf.2.2.1⟩
  obtain ⟨i, hi, rfl⟩ := mem_iff_getElem.mp ha
  rw [← (at_succ (getElem?_eq_getElem hi)).1]
  exact (h.at_le hi le_rfl).1.trans hf.1

theorem Wf.concat (h : p.Wf) (hf : p.Follows e) : Wf { p with entries := p.entries ++ [e] } where
  sorted := by
    refine pairwise_append.mpr ⟨h.sorted, pairwise_singleton _ _, ?_⟩
    intro a ha b hb
    rw [mem_singleton.mp hb]
    exact h.follows hf ha
  entry := by
    intro a ha
    rcases mem_append.mp ha with ha | ha
    · exact h.entry a ha
    rw [mem_singleton.mp ha]
    obtain ⟨hlsn, hpos, hscn, hv⟩ := hf
    have hbase := h.at_le (Nat.zero_le p.entries.length) le_rfl
    exact ⟨hbase.1.trans hlsn, hpos, lt_of_le_of_lt hbase.2 hscn, hv⟩
  baseScn := h.baseScn
  committed_le := by
    simp only [length_append]
    exact h.committed_le.trans (Nat.le_add_right _ _)
  slid_le := h.slid_le

theorem Wf.append (h : p.Wf) (hf : p.Follows e) : (p.append e).Wf :=
  have h' := h.concat hf
  ⟨h'.sorted, h'.entry, h'.baseScn, h'.committed_le, h'.slid_le⟩

theorem Move.given_eq (hm : Move p p') : p'.given = p.given := by
  cases hm with
  | lead | leave | newTerm | commit | truncate | receive => rfl

theorem Wf.move (h : p.Wf) (hm : Move p p') : p'.Wf := by
  cases hm with
  | lead | leave | newTerm => exact { h with }
  | commit n hle hlen => exact { h with committed_le := hlen, slid_le := h.slid_le.trans hle }
  | truncate n hrole hle =>
    refine ⟨h.sorted.sublist (take_sublist _ _), fun e he => h.entry e (mem_of_mem_take he),
      h.baseScn, ?_, h.slid_le⟩
    simp only [length_take]
    exact le_min hle h.committed_le
  | receive e hrole hfol => exact h.concat hfol

end PalfView

/-! ## The entries of a term -/

variable {p p' : PalfView} {e : PalfEntry} {i n : ℕ} {pid : ℤ}

/-- **The log and the entries that were appended here.** -/
structure LogInv (p : PalfView) : Prop where
  wf : p.Wf
  pids : ∀ e ∈ p.entries, e.proposalId ≤ p.proposalId
  /-- a term begins behind a committed log -/
  term : ∀ pid n, p.termStart pid = some n → n ≤ p.committed ∧ pid ≤ p.proposalId
  /-- while the term lasts its log consists of the entries appended here -/
  leads : p.isLeader = true →
    ∃ n, p.termStart p.proposalId = some n ∧ p.entries.drop n = p.givenIn p.proposalId
  /-- the entries of a term led here are behind its start -/
  start_le : ∀ i e n, p.entries[i]? = some e → p.termStart e.proposalId = some n → n ≤ i
  /-- and those before them are entries of the term, in the order in which they were appended -/
  block : ∀ i e n, p.entries[i]? = some e → p.termStart e.proposalId = some n →
    (p.entries.take (i + 1)).drop n <+: p.givenIn e.proposalId
  given_mem : ∀ e ∈ p.given, e.lsn < e.endLsn ∧ scnIsValid e.scn ∧
    ∃ n, p.termStart e.proposalId = some n ∧ p.endLsnAt n ≤ e.lsn ∧ p.scnAt n < e.scn
  given_sorted : p.given.Pairwise fun a b =>
    a.proposalId = b.proposalId → a.endLsn ≤ b.lsn ∧ a.scn < b.scn

theorem PalfView.Init.logInv (h : p.Init) : LogInv p := by
  refine ⟨h.wf, h.pids, ?_, ?_, ?_, ?_, ?_, ?_⟩
  · intro pid n hn
    exact absurd ((h.termStart pid).symm.trans hn) nofun
  · intro hlead
    exact absurd (h.isLeader.symm.trans hlead) nofun
  · intro i e n _ hn
    exact absurd ((h.termStart _).symm.trans hn) nofun
  · intro i e n _ hn
    exact absurd ((h.termStart _).symm.trans hn) nofun
  · rw [h.given]
    exact nofun
  · rw [h.given]
    exact .nil

theorem PalfView.mem_givenIn : e ∈ p.givenIn pid ↔ e ∈ p.given ∧ e.proposalId = pid := by
  simp [givenIn]

namespace LogInv

theorem given_le (h : LogInv p) (he : e ∈ p.given) : e.proposalId ≤ p.proposalId := by
  obtain ⟨-, -, n, hn, -⟩ := h.given_mem e he
  exact (h.term _ _ hn).2

theorem term_le_length (h : LogInv p) (hn : p.termStart pid = some n) : n ≤ p.entries.length :=
  (h.term _ _ hn).1.trans h.wf.committed_le

variable {a : PalfEntry}

section

variable (h : LogInv p)
include h

theorem mem_givenIn_of_le {k} (ha : p.entries[k]? = some a)
    (hn : p.termStart a.proposalId = some n) (he : p.entries[i]? = some e) (hni : n ≤ i)
    (hik : i ≤ k) : e ∈ p.givenIn a.proposalId := by
  have hmem : e ∈ (p.entries.take (k + 1)).drop n := by
    apply mem_of_getElem? (i := i - n)
    rw [getElem?_drop, Nat.add_sub_cancel' hni, getElem?_take_of_lt (by omega), he]
  exact (h.block k a n ha hn).subset hmem

theorem log_given (he : p.entries[i]? = some e)
    (hn : p.termStart e.proposalId = some n) : e ∈ p.given :=
  (mem_givenIn.mp (h.mem_givenIn_of_le he hn he (h.start_le i e n he hn) le_rfl)).1

theorem given_scn_le {a b} (ha : a ∈ p.given) (hb : b ∈ p.given)
    (hpid : a.proposalId = b.proposalId) (hlt : a.lsn < b.endLsn) : a.scn ≤ b.scn := by
  obtain ⟨i, hi, rfl⟩ := mem_iff_getElem.mp ha
  obtain ⟨j, hj, rfl⟩ := mem_iff_getElem.mp hb
  rcases lt_trichotomy i j with hij | rfl | hij
  · exact (pairwise_iff_getElem.mp h.given_sorted i j hi hj hij hpid).2.le
  · exact le_rfl
  have := (pairwise_iff_getElem.mp h.given_sorted j i hj hi hij hpid.symm).1
  omega

/-- **A report separates the callbacks of its term** by LSN and by SCN alike. -/
theorem scn_le (ha : a ∈ p.given) (he : p.entries[i]? = some e)
    (hpid : a.proposalId = e.proposalId) (hlt : a.lsn < e.endLsn) : a.scn ≤ e.scn := by
  obtain ⟨-, -, n, hn, -⟩ := h.given_mem a ha
  rw [hpid] at hn
  exact h.given_scn_le ha (h.log_given he hn) hpid hlt

theorem mem_entries (hlead : p.isLeader = true) (he : e ∈ p.given)
    (hpid : e.proposalId = p.proposalId) : e ∈ p.entries := by
  obtain ⟨n, -, hdrop⟩ := h.leads hlead
  have hmem : e ∈ p.entries.drop n := hdrop ▸ mem_givenIn.mpr ⟨he, hpid⟩
  exact mem_of_mem_drop hmem

/-- **The largest SCN of a leader** belongs to the log its term began with, or to an entry of the
term. -/
theorem maxScn_origin (hlead : p.isLeader = true) (hn : p.termStart p.proposalId = some n) :
    p.maxScn ≤ p.scnAt n ∨ ∃ e ∈ p.given, e.proposalId = p.proposalId ∧ e.scn = p.maxScn := by
  rcases (h.term_le_length hn).eq_or_lt with heq | hlt
  · left
    rw [heq]
    exact le_rfl
  right
  obtain ⟨m, hm, hdrop⟩ := h.leads hlead
  obtain rfl : n = m := some.inj (hn.symm.trans hm)
  obtain ⟨k, hk⟩ : ∃ k, p.entries.length = k + 1 := ⟨p.entries.length - 1, by omega⟩
  have hget : p.entries[k]? = some p.entries[k] := getElem?_eq_getElem (by omega)
  have hmem : p.entries[k] ∈ p.entries.drop n := by
    apply mem_of_getElem? (i := k - n)
    rw [getElem?_drop, Nat.add_sub_cancel' (by omega), hget]
  rw [hdrop, mem_givenIn] at hmem
  have hmax : p.maxScn = p.scnAt (k + 1) := congrArg p.scnAt hk
  refine ⟨_, hmem.1, hmem.2, ?_⟩
  rw [hmax, (at_succ hget).2]

theorem le_maxScn {scn} (hlead : p.isLeader = true) (hn : p.termStart p.proposalId = some n)
    (hscn : scn ≤ p.scnAt n ∨ ∃ e ∈ p.given, e.proposalId = p.proposalId ∧ e.scn = scn) :
    scn ≤ p.maxScn := by
  rcases hscn with hle | ⟨e, he, hpid, rfl⟩
  · exact hle.trans (h.wf.at_le (h.term_le_length hn) le_rfl).2
  · exact h.wf.scn_le_maxScn (h.mem_entries hlead he hpid)

theorem at_term (hagree : p.Agree p' p.committed) (hn : p.termStart pid = some n) :
    p'.endLsnAt n = p.endLsnAt n ∧ p'.scnAt n = p.scnAt n :=
  hagree.at_eq (h.term _ _ hn).1

theorem termStart_eq (hm : Move p p') (hn : p.termStart pid = some n) :
    p'.termStart pid = some n := by
  cases hm with
  | lead q hrole hlt =>
    have hne : pid ≠ q := ne_of_lt (lt_of_le_of_lt (h.term _ _ hn).2 hlt)
    exact (update_of_ne hne _ _).trans hn
  | leave | newTerm | commit | truncate | receive => exact hn

theorem given_mem_of_agree (hagree : p.Agree p' p.committed)
    (hterm : ∀ e ∈ p.given, p'.termStart e.proposalId = p.termStart e.proposalId) :
    ∀ e ∈ p.given, e.lsn < e.endLsn ∧ scnIsValid e.scn ∧
      ∃ n, p'.termStart e.proposalId = some n ∧ p'.endLsnAt n ≤ e.lsn ∧ p'.scnAt n < e.scn := by
  intro e he
  obtain ⟨hpos, hv, n, hn, hlsn, hscn⟩ := h.given_mem e he
  obtain ⟨h₁, h₂⟩ := h.at_term hagree hn
  refine ⟨hpos, hv, n, (hterm e he).trans hn, ?_, ?_⟩
  · rwa [h₁]
  · rwa [h₂]

end

theorem getElem?_concat (ha : (p.entries ++ [e])[i]? = some a) :
    p.entries[i]? = some a ∨ i = p.entries.length ∧ a = e := by
  rcases lt_or_ge i p.entries.length with hi | hi
  · rw [getElem?_append_left hi] at ha
    exact .inl ha
  rw [getElem?_append_right hi, getElem?_singleton] at ha
  split_ifs at ha with hzero
  exact .inr ⟨by omega, (some.inj ha).symm⟩

section

variable (h : LogInv p)
include h

theorem block_concat (ha : p.entries[i]? = some a) (hn : p.termStart a.proposalId = some n) :
    ((p.entries ++ [e]).take (i + 1)).drop n <+: p.givenIn a.proposalId := by
  have hi : i + 1 ≤ p.entries.length := (List.getElem?_eq_some_iff.mp ha).1
  rw [take_append_of_le_length hi]
  exact h.block i a n ha hn

theorem lead (hpid : p.proposalId < pid) (hcommitted : p.committed = p.entries.length) :
    LogInv (p.lead pid) := by
  -- the new term is larger than all terms before it
  have hold : ∀ q, q ≤ p.proposalId → (p.lead pid).termStart q = p.termStart q :=
    fun q hq => update_of_ne (ne_of_lt (lt_of_le_of_lt hq hpid)) _ _
  have hnew : (p.lead pid).termStart pid = some p.entries.length := update_self _ _ _
  have hwf : (p.lead pid).Wf :=
    ⟨h.wf.sorted, h.wf.entry, h.wf.baseScn, h.wf.committed_le, h.wf.slid_le⟩
  have hentry : ∀ (i : ℕ) e, p.entries[i]? = some e →
      (p.lead pid).termStart e.proposalId = p.termStart e.proposalId :=
    fun i e he => hold _ (h.pids e (mem_of_getElem? he))
  refine ⟨hwf, fun e he => (h.pids e he).trans hpid.le, ?_, fun _ => ⟨_, hnew, ?_⟩, ?_, ?_, ?_,
    h.given_sorted⟩
  · intro q n hn
    by_cases hq : q = pid
    · subst hq
      rw [hnew] at hn
      exact ⟨(some.inj hn ▸ hcommitted.ge), le_rfl⟩
    · simp only [PalfView.lead, update_of_ne hq] at hn
      exact ⟨(h.term q n hn).1, (h.term q n hn).2.trans hpid.le⟩
  · -- nothing was appended in the term yet
    have hnone : (p.lead pid).givenIn pid = [] := by
      refine filter_eq_nil_iff.mpr fun e he => ?_
      have hle := h.given_le he
      simp only [decide_eq_true_eq]
      omega
    exact (drop_length).trans hnone.symm
  · intro i e n he hn
    exact h.start_le i e n he ((hentry i e he).symm.trans hn)
  · intro i e n he hn
    exact h.block i e n he ((hentry i e he).symm.trans hn)
  · exact h.given_mem_of_agree ⟨rfl, rfl, fun _ _ => rfl⟩ fun e he => hold _ (h.given_le he)

theorem truncate (hrole : p.isLeader = false) (hle : p.committed ≤ n) :
    LogInv { p with entries := p.entries.take n } := by
  have hm : Move p { p with entries := p.entries.take n } := .truncate n hrole hle
  have hget : ∀ (i : ℕ) e, (p.entries.take n)[i]? = some e → i < n ∧ p.entries[i]? = some e := by
    intro i e he
    have hlt := (List.getElem?_eq_some_iff.mp he).1
    simp only [length_take] at hlt
    have hi : i < n := by omega
    exact ⟨hi, (getElem?_take_of_lt hi).symm.trans he⟩
  refine ⟨h.wf.move hm, fun e he => h.pids e (mem_of_mem_take he), h.term, ?_, ?_, ?_,
    h.given_mem_of_agree (hm.agree h.wf).1 fun _ _ => rfl, h.given_sorted⟩
  · intro hlead
    exact absurd (hrole.symm.trans hlead) nofun
  · intro i e m he hm
    exact h.start_le i e m (hget i e he).2 hm
  intro i e m he hm
  obtain ⟨hi, he⟩ := hget i e he
  have htake : (p.entries.take n).take (i + 1) = p.entries.take (i + 1) := by
    rw [take_take, min_eq_left hi]
  show ((p.entries.take n).take (i + 1)).drop m <+: _
  rw [htake]
  exact h.block i e m he hm

theorem receive (hrole : p.isLeader = false) (hfol : p.Follows e)
    (hpid : e.proposalId ≤ p.proposalId) (hmatch : p.Matches e) :
    LogInv { p with entries := p.entries ++ [e] } := by
  have hm : Move p { p with entries := p.entries ++ [e] } :=
    .receive e hrole hfol hpid hmatch
  refine ⟨h.wf.concat hfol, ?_, h.term, ?_, ?_, ?_,
    h.given_mem_of_agree (hm.agree h.wf).1 fun _ _ => rfl, h.given_sorted⟩
  · intro a ha
    rcases mem_append.mp ha with ha | ha
    · exact h.pids a ha
    rw [mem_singleton.mp ha]
    exact hpid
  · intro hlead
    exact absurd (hrole.symm.trans hlead) nofun
  · intro i a n ha hn
    rcases getElem?_concat ha with ha | ⟨rfl, rfl⟩
    · exact h.start_le i a n ha hn
    · exact h.term_le_length hn
  intro i a n ha hn
  rcases getElem?_concat ha with ha | ⟨rfl, rfl⟩
  · exact h.block_concat ha hn
  -- the new entry extends the part of its term that is in the log
  rw [take_of_length_le (by simp), drop_append_of_le_length (h.term_le_length hn)]
  exact hmatch n hn

theorem move (hm : Move p p') : LogInv p' := by
  have hwf := h.wf.move hm
  cases hm with
  | lead pid hrole hpid hcommitted => exact h.lead hpid hcommitted
  | leave =>
    exact { h with wf := hwf, leads := nofun }
  | newTerm pid hrole hpid =>
    refine { h with
      wf := hwf, pids := fun e he => (h.pids e he).trans hpid.le,
        term := fun q n hn => ⟨(h.term q n hn).1, (h.term q n hn).2.trans hpid.le⟩,
          leads := fun hlead => ?_ }
    exact absurd (hrole.symm.trans hlead) nofun
  | commit n hle hlen =>
    exact { h with
      wf := hwf, term := fun q m hm => ⟨(h.term q m hm).1.trans hle, (h.term q m hm).2⟩ }
  | truncate n hrole hle => exact h.truncate hrole hle
  | receive e hrole hfol hpid hmatch => exact h.receive hrole hfol hpid hmatch

theorem append (hlead : p.isLeader = true) (hfol : p.Follows e)
    (hpid : e.proposalId = p.proposalId) : LogInv (p.append e) := by
  obtain ⟨n, hn, hdrop⟩ := h.leads hlead
  have hagree : p.Agree (p.append e) p.committed :=
    ⟨rfl, rfl, fun i hi => (PalfView.agree_append p e).entries i (hi.trans_le h.wf.committed_le)⟩
  have hlen := h.term_le_length hn
  have hgiven : ∀ q, (p.append e).givenIn q =
      p.givenIn q ++ if e.proposalId = q then [e] else [] := by
    intro q
    simp only [PalfView.givenIn, PalfView.append, filter_append, filter_singleton,
      Bool.cond_decide]
  have hown : (p.entries ++ [e]).drop n = (p.append e).givenIn p.proposalId := by
    rw [drop_append_of_le_length hlen, hdrop, hgiven, if_pos hpid]
  refine ⟨h.wf.append hfol, ?_, h.term, fun _ => ⟨n, hn, hown⟩, ?_, ?_, ?_, ?_⟩
  · intro a ha
    rcases mem_append.mp ha with ha | ha
    · exact h.pids a ha
    rw [mem_singleton.mp ha]
    exact hpid.le
  · intro i a m ha hm
    rcases getElem?_concat ha with ha | ⟨rfl, rfl⟩
    · exact h.start_le i a m ha hm
    · exact h.term_le_length hm
  · intro i a m ha hm
    rcases getElem?_concat ha with ha | ⟨rfl, rfl⟩
    · rw [hgiven]
      exact (h.block_concat ha hm).trans (prefix_append _ _)
    rw [hpid] at hm ⊢
    obtain rfl : n = m := some.inj (hn.symm.trans hm)
    show ((p.entries ++ [a]).take (p.entries.length + 1)).drop n <+: _
    rw [take_of_length_le (by simp)]
    exact hown.symm ▸ prefix_rfl
  · intro a ha
    rcases mem_append.mp ha with ha | ha
    · exact h.given_mem_of_agree hagree (fun _ _ => rfl) a ha
    rw [mem_singleton.mp ha]
    obtain ⟨h₁, h₂⟩ := h.at_term hagree hn
    refine ⟨hfol.2.1, hfol.2.2.2, n, hpid ▸ hn, ?_, ?_⟩
    · rw [h₁]
      exact (h.wf.at_le hlen le_rfl).1.trans hfol.1
    · rw [h₂]
      exact lt_of_le_of_lt (h.wf.at_le hlen le_rfl).2 hfol.2.2.1
  · refine pairwise_append.mpr ⟨h.given_sorted, pairwise_singleton _ _, ?_⟩
    intro a ha b hb hab
    rw [mem_singleton.mp hb] at hab ⊢
    exact h.wf.follows hfol (h.mem_entries hlead ha (hab.trans hpid))

theorem slide (hn : n ≤ p.committed) : LogInv { p with slid := n } :=
  { h with wf := ⟨h.wf.sorted, h.wf.entry, h.wf.baseScn, h.wf.committed_le, hn⟩ }

end

end LogInv

/-! ## The callbacks -/

/-- The counter of executed callbacks is not ahead, and the worker may add one to it. -/
def CbQueue.ApplyCounted (x : CbQueue) : Prop :=
  x.totalApplyCbCnt + (if x.worker = .ran then 1 else 0) ≤ x.executed.length

namespace Replica

variable {r r' : Replica} {q : CbQueueIdx} {x : CbQueue}

/-- The callback is not executed, and it may not even be pushed. -/
def Waiting (r : Replica) (e : PalfEntry) : Prop :=
  e ∈ r.inFlight.map Prod.fst ∨ r.status.Pending e

/-- The appends of a queue that have counted their callback. -/
def countedIn (r : Replica) (q : CbQueueIdx) : ℕ :=
  r.inFlight.countP fun x => x.2 && decide (x.1.queueIdx = q)

theorem forall_setQueue {P : CbQueueIdx → CbQueue → Prop} (h : ∀ q', P q' (r.status.cbQueues q'))
    (hq : P q x) : ∀ q', P q' ((r.setQueue q x).status.cbQueues q') :=
  (forall_update_iff _ _).mpr ⟨hq, fun q' _ => h q'⟩

theorem cbQueues_self : (r.setQueue q x).status.cbQueues q = x := update_self _ _ _

theorem cbQueues_of_ne {q'} (h : q' ≠ q) :
    (r.setQueue q x).status.cbQueues q' = r.status.cbQueues q' := update_of_ne h _ _

theorem pending_setQueue (h : x.pending = (r.status.cbQueues q).pending) :
    (r.setQueue q x).status.Pending e ↔ r.status.Pending e := by
  refine exists_congr fun q' => ?_
  by_cases hq : q' = q
  · subst hq
    rw [cbQueues_self, h]
  · rw [cbQueues_of_ne hq]

end Replica

/-- **The callbacks and the counters**: each entry that was given out is on the way or pushed, once,
and the counters of a queue are on the safe side of what they count. -/
structure CbInv (r : Replica) : Prop where
  located : ∀ q, ((r.status.cbQueues q).pushed ++
      (r.inFlight.map Prod.fst).filter (·.queueIdx = q)).Perm (r.palf.given.filter (·.queueIdx = q))
  counted : ∀ q, (r.status.cbQueues q).pushed.length + r.countedIn q ≤
    (r.status.cbQueues q).totalSubmitCbCnt
  applied : ∀ q, (r.status.cbQueues q).ApplyCounted

namespace CbInv

variable {r r' : Replica} {q : CbQueueIdx} {x : CbQueue}

theorem mem_given (h : CbInv r) :
    e ∈ r.palf.given ↔ e ∈ r.inFlight.map fst ∨ e ∈ (r.status.cbQueues e.queueIdx).pushed := by
  have hmem := (h.located e.queueIdx).mem_iff (a := e)
  simp only [mem_append, mem_filter, decide_true, and_true] at hmem
  rw [← hmem, or_comm]

theorem queueIdx_of_mem (h : CbInv r) (he : e ∈ (r.status.cbQueues q).pushed) :
    e.queueIdx = q ∧ e ∈ r.palf.given := by
  have hmem := (h.located q).mem_iff.mp (mem_append_left _ he)
  simpa [and_comm] using hmem

theorem waiting_or_executed (h : CbInv r) (he : e ∈ r.palf.given) :
    r.Waiting e ∨ r.status.Executed e := by
  rcases h.mem_given.mp he with hin | hpushed
  · exact .inl (.inl hin)
  rcases mem_append.mp hpushed with hex | hpend
  · obtain ⟨⟨cb, success⟩, hmem, rfl⟩ := mem_map.mp hex
    exact .inr ⟨_, success, hmem⟩
  · exact .inl (.inr ⟨_, hpend⟩)

theorem setQueue (h : CbInv r) (hpushed : x.pushed = (r.status.cbQueues q).pushed)
    (hsubmit : x.totalSubmitCbCnt = (r.status.cbQueues q).totalSubmitCbCnt)
    (happly : x.ApplyCounted) : CbInv (r.setQueue q x) := by
  refine ⟨?_, ?_, forall_setQueue (P := fun _ y => y.ApplyCounted) h.applied
    happly⟩
  · refine forall_setQueue (P := fun q y => (y.pushed ++
      (r.inFlight.map fst).filter (·.queueIdx = q)).Perm _) h.located ?_
    rw [hpushed]
    exact h.located q
  · refine forall_setQueue
      (P := fun q y => y.pushed.length + r.countedIn q ≤ y.totalSubmitCbCnt) h.counted ?_
    rw [hpushed, hsubmit]
    exact h.counted q

variable {l l' : List (PalfEntry × Bool)}

theorem countAppend (h : CbInv r) (hin : r.inFlight = l ++ (e, false) :: l') :
    CbInv { r.setQueue e.queueIdx (r.status.cbQueues e.queueIdx).incTotalSubmitCbCnt with
      inFlight := l ++ (e, true) :: l' } := by
  refine ⟨?_, ?_, Replica.forall_setQueue (P := fun _ y => y.ApplyCounted) h.applied
    (h.applied e.queueIdx)⟩
  · have hmap : (l ++ (e, true) :: l').map fst = r.inFlight.map fst := by simp [hin]
    simp only [hmap]
    exact Replica.forall_setQueue (P := fun q y => (y.pushed ++
      (r.inFlight.map fst).filter (·.queueIdx = q)).Perm _) h.located (h.located e.queueIdx)
  intro q
  have hq := h.counted q
  simp only [Replica.countedIn, hin, countP_append, countP_cons] at hq ⊢
  by_cases heq : q = e.queueIdx
  · subst heq
    simp only [Replica.cbQueues_self,
      CbQueue.pushed_incTotalSubmitCbCnt, CbQueue.totalSubmitCbCnt_inc,
      decide_true, Bool.and_true, if_true, Bool.false_eq_true, if_false] at hq ⊢
    omega
  · simpa [Replica.cbQueues_of_ne heq, Ne.symm heq] using hq

theorem pushAppend (h : CbInv r) (hin : r.inFlight = l ++ (e, true) :: l') :
    CbInv { r.setQueue e.queueIdx ((r.status.cbQueues e.queueIdx).push e) with
      inFlight := l ++ l' } := by
  refine ⟨fun q => ?_, fun q => ?_,
    Replica.forall_setQueue (P := fun _ y => y.ApplyCounted) h.applied (h.applied e.queueIdx)⟩
  · refine Perm.trans ?_ (h.located q)
    simp only [hin, map_append, map_cons, filter_append, filter_cons]
    by_cases heq : q = e.queueIdx
    · subst heq
      simp only [Replica.cbQueues_self, CbQueue.pushed_push,
        decide_true, if_true, append_assoc, singleton_append]
      exact (perm_middle.symm).append_left _
    · simp [Replica.cbQueues_of_ne heq, Ne.symm heq]
  have hq := h.counted q
  simp only [Replica.countedIn, hin, countP_append, countP_cons] at hq ⊢
  by_cases heq : q = e.queueIdx
  · subst heq
    simp only [Replica.cbQueues_self, CbQueue.pushed_push,
      CbQueue.totalSubmitCbCnt_push, length_append, length_singleton, Bool.true_and,
      decide_true, if_true] at hq ⊢
    omega
  · simpa [Replica.cbQueues_of_ne heq, Ne.symm heq] using hq

theorem move (h : CbInv r) (hm : Replica.Move r r') : CbInv r' := by
  cases hm with
  | palf hp =>
    refine ⟨fun q => ?_, h.counted, h.applied⟩
    simp only [hp.given_eq]
    exact h.located q
  | skipReport | startReport | finishReport => exact ⟨h.located, h.counted, h.applied⟩
  | append e =>
    refine ⟨fun q => ?_, fun q => ?_, h.applied⟩
    · simp only [Replica.append, PalfView.append, map_append, filter_append,
        ← append_assoc, map_cons, map_nil]
      exact (h.located q).append_right _
    · simpa [Replica.countedIn, Replica.append] using h.counted q
  | countAppend l l' hin => exact h.countAppend hin
  | pushAppend l l' hin => exact h.pushAppend hin
  | take q hx =>
    obtain ⟨hpushed, -⟩ := CbQueue.pushed_take hx
    obtain ⟨cb, rest, success, hw, -, rfl, -⟩ := CbQueue.take_eq_some hx
    apply h.setQueue hpushed rfl
    simpa [CbQueue.ApplyCounted, hw] using h.applied q
  | execute q hx =>
    obtain ⟨hpushed, -⟩ := CbQueue.pushed_execute hx
    obtain ⟨cb, success, hw, rfl⟩ := CbQueue.execute_eq_some hx
    apply h.setQueue hpushed rfl
    simpa [CbQueue.ApplyCounted, hw] using h.applied q
  | countApply q hx =>
    obtain ⟨hpushed, -⟩ := CbQueue.pushed_incTotalApplyCbCnt hx
    obtain ⟨hw, rfl⟩ := CbQueue.incTotalApplyCbCnt_eq_some hx
    apply h.setQueue hpushed rfl
    simpa [CbQueue.ApplyCounted, hw] using h.applied q

end CbInv

end OceanBase.Apply
