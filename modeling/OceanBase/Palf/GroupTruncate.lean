import OceanBase.Palf.GroupChecksum

/-!
# Truncating a group

A flashback cuts the last group at an SCN. A walk over its entries stops at the first one above it,
and the header is made anew from the length, the checksum and the SCN of what the walk has passed.

## Main results

* `truncate_keeps_upTo`
-/

namespace OceanBase.Palf

open List
open LogEntryHeader (deserialize length_serialize)

structure LogGroupEntryHeader where
  magic : BitVec 16
  version : BitVec 16
  groupSize : BitVec 32
  proposalId : BitVec 64
  committedEndLsn : BitVec 64
  maxScn : BitVec 64
  accumulatedChecksum : BitVec 64
  logId : BitVec 64
  flag : BitVec 64

def acquireAccumChecksum (crc64 : BitVec 64 → BitVec 64 → BitVec 64) (accum data : BitVec 64) :
    BitVec 64 := crc64 accum data

namespace LogGroupEntryHeader

variable (h : LogGroupEntryHeader) (crc : List UInt8 → BitVec 64)
  (crc64 : BitVec 64 → BitVec 64 → BitVec 64)

def magicNumber : BitVec 16 := 0x4752

def isPaddingLog : Bool := h.flag &&& 2 != 0

/-- `get_header_parity_check_res_` -/
def headerParity : Bool :=
  parityCheck h.magic ^^ parityCheck h.version ^^ parityCheck h.groupSize ^^
    parityCheck h.proposalId ^^ parityCheck h.committedEndLsn ^^ parityCheck h.maxScn ^^
    parityCheck h.accumulatedChecksum ^^ parityCheck h.logId ^^ parityCheck (h.flag &&& ~~~1)

def updateHeaderChecksum : LogGroupEntryHeader :=
  { h with flag := if h.headerParity then h.flag ||| 1 else h.flag &&& ~~~1 }

def checkHeaderChecksum : Bool := h.headerParity == (h.flag &&& 1 == 1)

def checkIntegrity (buf : List UInt8) : Bool :=
  h.magic == magicNumber && h.checkHeaderChecksum &&
    (checkGroupChecksum crc crc64 h.isPaddingLog buf).isSome

/-- The loop of `truncate` over the bytes that are left: `cut_pos`, the checksum and
`tmp_max_scn`. -/
def truncateLoop (cutScn : ℕ) :
    ℕ → List UInt8 → ℕ → BitVec 64 → ℕ → Option (ℕ × BitVec 64 × ℕ)
  | 0, _, _, _, _ => none
  | fuel + 1, buf, cutPos, sum, maxScn =>
    if buf.isEmpty then some (cutPos, sum, maxScn)
    else (deserialize buf).bind fun e =>
      if scnLt cutScn e.scn.toNat then some (cutPos, sum, maxScn)
      else truncateLoop cutScn fuel (buf.drop (logEntryHeaderSerSize + e.dataLen))
        (cutPos + (logEntryHeaderSerSize + e.dataLen)) (crc64 sum e.dataChecksum)
        (if ¬ scnIsValid maxScn ∨ scnLt maxScn e.scn.toNat then e.scn.toNat else maxScn)

/-- `truncate`; `none` is any of its errors. -/
def truncate (buf : List UInt8) (cutScn : ℕ) (preAccumChecksum : BitVec 64) :
    Option LogGroupEntryHeader :=
  if buf.isEmpty ∨ ¬ scnIsValid cutScn then none
  else if h.isPaddingLog then
    some (if scnLt cutScn h.maxScn.toNat then { h with groupSize := 0 }.updateHeaderChecksum else h)
  else (truncateLoop crc64 cutScn (buf.length + 1) buf 0 0 invalidScn).map fun (cutPos, sum,
    maxScn) =>
    { h with
      groupSize := .ofNat 32 cutPos
      maxScn := .ofNat 64 maxScn
      accumulatedChecksum := crc64 preAccumChecksum sum }.updateHeaderChecksum

end LogGroupEntryHeader

open LogGroupEntryHeader

variable {crc : List UInt8 → BitVec 64} {crc64 : BitVec 64 → BitVec 64 → BitVec 64}
  {es : List (WrittenEntry crc)} {h : LogGroupEntryHeader} {cut : ℕ}

theorem flag_and_update {m} (hm : 1 &&& m = 0) (hm' : ~~~1 &&& m = m) :
    h.updateHeaderChecksum.flag &&& m = h.flag &&& m := by
  unfold updateHeaderChecksum
  split
  · rw [BitVec.and_or_distrib_right, hm]
    exact BitVec.or_zero
  · rw [BitVec.and_assoc, hm']

theorem isPaddingLog_update : h.updateHeaderChecksum.isPaddingLog = h.isPaddingLog := by
  rw [isPaddingLog, isPaddingLog, flag_and_update rfl rfl]

theorem checkHeaderChecksum_update : h.updateHeaderChecksum.checkHeaderChecksum = true := by
  have hparity : h.updateHeaderChecksum.headerParity = h.headerParity := by
    unfold headerParity
    rw [flag_and_update rfl rfl]
    rfl
  rw [checkHeaderChecksum, hparity]
  cases hp : h.headerParity with
  | true =>
    have hone : (h.flag ||| 1#64) &&& 1#64 = 1#64 := by
      ext i hi
      by_cases hb : (1#64)[i] <;> simp [hb]
    simp [updateHeaderChecksum, hp, hone]
  | false => simp [updateHeaderChecksum, hp, BitVec.and_assoc]

theorem checkIntegrity_update (hmagic : h.magic = LogGroupEntryHeader.magicNumber)
    (hpad : h.isPaddingLog = false) :
    h.updateHeaderChecksum.checkIntegrity crc crc64 (bytesOf es) = true := by
  rw [checkIntegrity, checkHeaderChecksum_update, isPaddingLog_update, hpad, checkGroupChecksum_eq]
  simpa [updateHeaderChecksum] using hmagic

/-- The entries up to an SCN. -/
def keptUpTo (cut : ℕ) (es : List (WrittenEntry crc)) : List (WrittenEntry crc) :=
  es.filter (·.header.scn.toNat ≤ cut)

theorem WrittenEntry.scn_valid (e : WrittenEntry crc) : scnIsValid e.header.scn.toNat :=
  (of_decide_eq_true (Bool.and_eq_true_iff.mp e.valid).1).2.2

/-- **The walk stops behind the last entry up to the SCN.** -/
theorem truncateLoop_eq (hcut : scnIsValid cut)
    (hsorted : es.Pairwise fun e e' => e.header.scn.toNat < e'.header.scn.toNat)
    {fuel pos m sum} (hm : ¬ scnIsValid m ∨ ∀ e ∈ es, m < e.header.scn.toNat) :
    truncateLoop crc64 cut (fuel + es.length + 1) (bytesOf es) pos sum m =
      some (pos + (bytesOf (keptUpTo cut es)).length, sumOf crc64 sum (keptUpTo cut es),
        (((keptUpTo cut es).getLast?).map (·.header.scn.toNat)).getD m) := by
  induction es generalizing pos sum m with
  | nil => rfl
  | cons e es ih =>
  obtain ⟨hlt, hsorted⟩ := pairwise_cons.mp hsorted
  rw [truncateLoop, if_neg (not_isEmpty_bytesOf e), deserialize_bytesOf, Option.bind_some,
    drop_bytesOf]
  by_cases hle : e.header.scn.toNat ≤ cut
  · have hkept : keptUpTo cut (e :: es) = e :: keptUpTo cut es :=
      filter_cons_of_pos (by simpa using hle)
    have hscn : ¬ scnLt cut e.header.scn.toNat := by
      rw [scnLt_of_valid hcut e.scn_valid]
      exact not_lt.mpr hle
    have hnew : ¬ scnIsValid m ∨ scnLt m e.header.scn.toNat :=
      hm.imp_right fun hm => ⟨e.scn_valid, fun _ => hm e mem_cons_self⟩
    rw [if_neg hscn, if_pos hnew]
    apply (ih hsorted (.inr hlt)).trans
    rw [hkept, getLast?_cons, bytesOf_cons]
    simp only [sumOf, foldl_cons, length_append, length_serialize, e.dataLen, Nat.add_assoc,
      Option.map_some, Option.getD_some]
    cases (keptUpTo cut es).getLast? <;> rfl
  · -- the SCNs increase, so nothing behind is kept either
    have hkept : keptUpTo cut (e :: es) = [] := by
      refine filter_eq_nil_iff.mpr fun x hx => ?_
      rcases mem_cons.mp hx with rfl | hx
      · simpa using hle
      have := hlt x hx
      simp only [decide_eq_true_eq]
      omega
    rw [if_pos ((scnLt_of_valid hcut e.scn_valid).mpr (not_le.mp hle)), hkept]
    rfl

/-- **Truncation keeps a prefix**: of a group of entries with increasing SCNs, cut not below its
first entry, a header remains that passes its check on the bytes of the entries up to the cut. Their
length is its size, the last one's SCN is its SCN, and its accumulated checksum is the one of a
leader that appends only them. -/
theorem truncate_keeps_upTo {e : WrittenEntry crc} {es : List (WrittenEntry crc)}
    (hmagic : h.magic = LogGroupEntryHeader.magicNumber) (hpad : h.isPaddingLog = false)
    (hsize : (bytesOf (e :: es)).length < 2 ^ 31)
    (hsorted : (e :: es).Pairwise fun e e' => e.header.scn.toNat < e'.header.scn.toNat)
    (hcut : scnIsValid cut) (hfirst : e.header.scn.toNat ≤ cut) (pre : BitVec 64)
    (groupHeader : List UInt8) (hlen : groupHeader.length = logGroupEntryHeaderSize) :
    ∃ h', h.truncate crc64 (bytesOf (e :: es)) cut pre = some h' ∧
      h'.checkIntegrity crc crc64 (bytesOf (keptUpTo cut (e :: es))) = true ∧
      h'.groupSize.toNat = (bytesOf (keptUpTo cut (e :: es))).length ∧
      (∃ last, (keptUpTo cut (e :: es)).getLast? = some last ∧ h'.maxScn = last.header.scn) ∧
      ∃ sum, calculateLogChecksum crc64 false (bytesOf (keptUpTo cut (e :: es))).length
          [groupHeader ++ bytesOf (keptUpTo cut (e :: es))] = some sum ∧
        h'.accumulatedChecksum = acquireAccumChecksum crc64 pre sum := by
  obtain ⟨fuel, hfuel⟩ := Nat.exists_eq_add_of_le' (@length_le_bytesOf crc (e :: es))
  have hloop := @truncateLoop_eq _ crc64 _ _ hcut hsorted fuel 0 _ 0
    (.inl not_scnIsValid_invalidScn)
  rw [← hfuel, Nat.zero_add] at hloop
  obtain ⟨kept, hkept⟩ : ∃ kept, keptUpTo cut (e :: es) = e :: kept :=
    ⟨_, filter_cons_of_pos (by simpa using hfirst)⟩
  obtain ⟨last, hlast⟩ : ∃ last, (keptUpTo cut (e :: es)).getLast? = some last := by
    rw [hkept]
    exact ⟨_, getLast?_cons⟩
  -- the bytes that stay are not more than there were
  have hshort : (bytesOf (keptUpTo cut (e :: es))).length < 2 ^ 32 := by
    have hsub : (bytesOf (keptUpTo cut (e :: es))).Sublist (bytesOf (e :: es)) :=
      filter_sublist.flatMap _
    have := hsub.length_le
    omega
  unfold truncate
  rw [if_neg (not_or.mpr ⟨not_isEmpty_bytesOf e, not_not.mpr hcut⟩), if_neg (by rw [hpad]; decide),
    hloop]
  refine ⟨_, rfl, ?_, ?_, ⟨last, hlast, ?_⟩, _,
    calculateLogChecksum_pieces hlen (append_nil _) (.inl rfl), rfl⟩
  · exact checkIntegrity_update hmagic hpad
  · exact Nat.mod_eq_of_lt hshort
  · simp [updateHeaderChecksum, hlast]

def laterByte : WrittenEntry (BitVec.ofNat 64 ·.length) :=
  { singleByte with
    header := { singleByte.header with scn := 10 }
    valid := by decide +kernel
    intact := by decide +kernel }

theorem truncate_keeps_one : ∃ h' : LogGroupEntryHeader,
    h'.checkIntegrity (BitVec.ofNat 64 ·.length) (· + ·) (bytesOf [singleByte]) = true ∧
      h'.groupSize = 33 ∧ h'.maxScn = 9 := by
  obtain ⟨h', -, hcheck, hsize, ⟨last, hlast, hscn⟩, -⟩ :=
    @truncate_keeps_upTo _ (· + ·) ⟨LogGroupEntryHeader.magicNumber, 1, 66, 1, 0, 10, 2, 1, 0⟩ 9
      singleByte [laterByte] rfl rfl (by decide +kernel) (by decide) (by decide) (by decide) 0
      (replicate 56 0) (by decide)
  have hkept : keptUpTo 9 [singleByte, laterByte] = [singleByte] := rfl
  rw [hkept] at hcheck hsize hlast
  refine ⟨h', hcheck, BitVec.eq_of_toNat_eq hsize, ?_⟩
  rw [hscn, ← Option.some.inj hlast]
  rfl

end OceanBase.Palf
