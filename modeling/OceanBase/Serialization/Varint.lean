import Mathlib.Data.Nat.Bitwise
import Mathlib.Tactic.Ring

/-!
# Integers of variable length

`serialization.h` writes an integer in groups of seven bits, the lowest group first. The high bit of
a byte says that another byte follows. The decoders look at the high bit of a byte before they test
that the byte belongs to the data, and shift by seven more for every byte.

## Main results

* `decode_safely_iff`
-/

namespace OceanBase.Serialization

open List Nat

inductive Ret
  | success
  | sizeOverflow
  | deserializeError

/-- Another byte follows. -/
def more (b : UInt8) : Bool := b &&& 0x80 != 0

def payload (b : UInt8) : ℕ := (b &&& 0x7f).toNat

/-- The result of a decoder, with the indices of the bytes it has read and the amounts of its
shifts. -/
structure Decoded (w : ℕ) where
  ret : Ret
  pos : ℕ
  val : Option (BitVec w)
  reads : List ℕ
  shifts : List ℕ

/-- The loop of the decoders and the byte after it, with the data from `tmpPos` on. -/
def decodeLoop (w pos : ℕ) : List UInt8 → ℕ → ℕ → ℕ → Decoded w
  -- the byte behind the data decides which of the two tests of the length comes next, and both fail
  | [], tmpPos, _, _ => ⟨.deserializeError, pos, none, [tmpPos], []⟩
  | b :: bs, tmpPos, shift, v =>
    let v := (v ||| payload b <<< shift) % 2 ^ w
    let r := if more b then decodeLoop w pos bs (tmpPos + 1) (shift + 7) v
      else ⟨.success, tmpPos + 1, some (.ofNat w v), [], []⟩
    { r with reads := tmpPos :: r.reads, shifts := shift :: r.shifts }

def decodeVi (w : ℕ) (buf : List UInt8) (pos : ℕ) : Decoded w :=
  decodeLoop w pos (buf.drop pos) pos 0 0

def decodeVi64 := decodeVi 64

def decodeVi32 := decodeVi 32

/-- The bytes of `encode_vi64` and `encode_vi32`. -/
def viBytes (v : ℕ) : List UInt8 :=
  if 2 ^ 7 - 1 < v then .ofNat (v ||| 0x80) :: viBytes (v >>> 7) else [.ofNat (v &&& 0x7f)]
termination_by v
decreasing_by rw [shiftRight_eq_div_pow]; omega

/-- The bytes of `encode_fixed_bytes_i64`, `n + 1` of them. -/
def fixedBytes : ℕ → ℕ → List UInt8
  | 0, v => [.ofNat (v &&& 0x7f)]
  | n + 1, v => .ofNat (v ||| 0x80) :: fixedBytes n (v >>> 7)

/-- `encoded_length_vi64` and `encoded_length_vi32`: one byte more for each limit that is passed. -/
def encodedLength (limits : List ℕ) (v : ℕ) : ℕ := 1 + limits.countP (2 ^ · ≤ v)

/-- An encoder puts its bytes behind those of the buffer up to `pos`, if it has the room it
needs. -/
def encode (need : ℕ) (bytes : List UInt8) (bufLen : ℕ) (buf : List UInt8) :
    Except Ret (List UInt8) :=
  if need ≤ (bufLen - buf.length : ℤ) then .ok (buf ++ bytes) else .error .sizeOverflow

def encodeVi64 (val : BitVec 64) :=
  encode (encodedLength [7, 14, 21, 28, 35, 42, 49, 56, 63] val.toNat) (viBytes val.toNat)

def encodeVi32 (val : BitVec 32) :=
  encode (encodedLength [7, 14, 21, 28] val.toNat) (viBytes val.toNat)

def encodeFixedBytesI64 (val : BitVec 64) := encode 5 (fixedBytes 4 val.toNat)

/-! ## What a decoder returns -/

/-- How many bytes are before the first one without the high bit, and the number in the groups of
seven bits up to it. -/
def scan : List UInt8 → Option (ℕ × ℕ)
  | [] => none
  | b :: bs =>
    if more b then (scan bs).map fun g => (g.1 + 1, payload b + 2 ^ 7 * g.2)
      else some (0, payload b)

variable {w p t s : ℕ} {bs : List UInt8}

theorem scan_eq_none : scan bs = none ↔ ∀ b ∈ bs, more b := by
  induction bs with
  | nil => simp [scan]
  | cons b bs ih => by_cases hb : more b <;> simp [scan, hb, ih]

theorem payload_lt (b : UInt8) : payload b < 2 ^ 7 := by
  rw [payload, UInt8.toNat_and]
  exact and_lt_two_pow _ (by decide)

theorem or_payload {V} (b : UInt8) (h : V < 2 ^ s) :
    (V % 2 ^ w ||| payload b <<< s) % 2 ^ w = (V + 2 ^ s * payload b) % 2 ^ w := by
  rw [Nat.or_mod_two_pow, Nat.mod_mod, ← Nat.or_mod_two_pow, Nat.or_comm, Nat.shiftLeft_eq,
    Nat.mul_comm, ← Nat.two_pow_add_eq_or_of_lt h, Nat.add_comm]

/-- Without a last byte the decoder reads the first byte behind the data. -/
theorem decodeLoop_of_none {v} (h : scan bs = none) :
    t + bs.length ∈ (decodeLoop w p bs t s v).reads := by
  induction bs generalizing t s v with
  | nil => simp [decodeLoop]
  | cons b bs ih =>
    obtain ⟨hb, hbs⟩ := forall_mem_cons.mp (scan_eq_none.mp h)
    simp only [decodeLoop, if_pos hb, length_cons, ← succ_add_eq_add_succ]
    exact .tail _ (ih (scan_eq_none.mpr hbs))

theorem decodeLoop_of_some {k v V} (h : scan bs = some (k, v)) (hV : V < 2 ^ s) :
    let r := decodeLoop w p bs t s (V % 2 ^ w)
    r.ret = .success ∧ r.pos = t + (k + 1) ∧ r.val = some (.ofNat w (V + 2 ^ s * v)) ∧
      (∀ i ∈ r.reads, i < t + bs.length) ∧ ((∀ s ∈ r.shifts, s < w) ↔ s + 7 * k < w) := by
  induction bs generalizing t k v s V with
  | nil => exact nomatch h
  | cons b bs ih =>
  unfold scan at h
  split at h
  next hb =>
    obtain ⟨⟨k, v⟩, hscan, ⟨⟩⟩ := Option.map_eq_some_iff.mp h
    have hV' : V + 2 ^ s * payload b < 2 ^ (s + 7) := by
      have := mul_le_mul_left (2 ^ s) (payload_lt b)
      rw [mul_succ] at this
      rw [pow_add]
      omega
    obtain ⟨hret, hpos, hval, hreads, hshifts⟩ := ih (t := t + 1) hscan hV'
    simp only [decodeLoop, or_payload _ hV, if_pos hb, forall_mem_cons, hshifts, length_cons]
    refine ⟨hret, by rw [hpos]; omega, by rw [hval, pow_add]; ring_nf, ⟨by omega, ?_⟩, by omega⟩
    exact fun i hi => by have := hreads i hi; omega
  next hb =>
    obtain ⟨⟩ := h
    simp [decodeLoop, hb, or_payload _ hV, ← BitVec.toNat_inj]

/-- What is asked of a call on data that nothing is known of. -/
structure Safely (buf : List UInt8) (pos : ℕ) (r : Decoded w) : Prop where
  reads : ∀ i ∈ r.reads, i < buf.length
  shifts : ∀ s ∈ r.shifts, s < w
  error_iff : r.ret = .deserializeError ∧ r.pos = pos ↔
    (∀ b ∈ buf.drop pos, more b) ∨ ∃ k v, scan (buf.drop pos) = some (k, v) ∧ 2 ^ w ≤ v

/-- The data goes on to a last byte, which is not too far away, and the number fits. -/
def WellFormed (w : ℕ) (buf : List UInt8) (pos : ℕ) : Prop :=
  ∃ k v, scan (buf.drop pos) = some (k, v) ∧ 7 * k < w ∧ v < 2 ^ w

theorem safely_iff {buf : List UInt8} {pos} (hpos : pos ≤ buf.length) :
    Safely buf pos (decodeVi w buf pos) ↔ WellFormed w buf pos := by
  have hlen : pos + (buf.drop pos).length = buf.length := by rw [length_drop]; omega
  unfold decodeVi WellFormed
  cases hscan : scan (buf.drop pos) with
  | none =>
    exact ⟨fun h => absurd (h.reads _ (decodeLoop_of_none hscan)) (by omega), nofun⟩
  | some g =>
    obtain ⟨hret, -, -, hreads, hshifts⟩ :=
      decodeLoop_of_some (w := w) (s := 0) (V := 0) hscan one_pos
    rw [hlen] at hreads
    rw [zero_mod, zero_add] at *
    constructor
    · intro h
      refine ⟨_, _, rfl, hshifts.mp h.shifts, not_le.mp fun hle => ?_⟩
      have := (h.error_iff.mpr (.inr ⟨_, _, hscan, hle⟩)).1
      exact nomatch hret.symm.trans this
    · rintro ⟨k, v, ⟨⟩, hshift, hfit⟩
      refine ⟨hreads, hshifts.mpr hshift, fun h => ?_, ?_⟩
      · exact nomatch hret.symm.trans h.1
      rintro (h | ⟨k', v', h, hle⟩)
      · exact nomatch hscan.symm.trans (scan_eq_none.mpr h)
      · obtain ⟨⟩ := hscan.symm.trans h
        omega

/-! ## Reading back -/

/-- The values are written one after the other. -/
def encodeAll {α : Type} (enc : α → ℕ → List UInt8 → Except Ret (List UInt8)) (bufLen : ℕ) :
    List α → List UInt8 → Except Ret (List UInt8)
  | [], buf => .ok buf
  | x :: l, buf => (enc x bufLen buf).bind (encodeAll enc bufLen l)

/-- The decoder returns these values, each call from where the last one has ended. -/
def ReadsBack (w : ℕ) (buf : List UInt8) : ℕ → List (BitVec w) → Prop
  | _, [] => True
  | pos, v :: vs =>
    let r := decodeVi w buf pos
    r.ret = .success ∧ r.val = some v ∧ ReadsBack w buf r.pos vs

/-- The bytes are read as `v`, whatever follows them. -/
def Codes (bytes : List UInt8) (v : ℕ) : Prop :=
  ∃ k, bytes.length = k + 1 ∧ ∀ rest, scan (bytes ++ rest) = some (k, v)

theorem more_ofNat (x : ℕ) : more (.ofNat x) = x.testBit 7 := by
  have h : (UInt8.ofNat x &&& 0x80).toNat = (x.testBit 7).toNat * 2 ^ 7 := by
    rw [UInt8.toNat_and, UInt8.toNat_ofNat']
    exact (and_two_pow (x % 2 ^ 8) 7).trans (by rw [testBit_mod_two_pow]; simp)
  rw [Bool.eq_iff_iff, more, bne_iff_ne, ne_eq, ← UInt8.toNat_inj, h]
  cases x.testBit 7 <;> simp

theorem payload_ofNat (x : ℕ) : payload (.ofNat x) = x % 2 ^ 7 := by
  rw [payload, UInt8.toNat_and, UInt8.toNat_ofNat']
  exact (and_two_pow_sub_one_eq_mod (x % 2 ^ 8) 7).trans (by omega)

theorem codes_last {v} (h : v < 2 ^ 7) : Codes [.ofNat (v &&& 0x7f)] v := by
  have hv : v &&& 0x7f = v := (and_two_pow_sub_one_eq_mod v 7).trans (mod_eq_of_lt h)
  refine ⟨0, rfl, fun rest => ?_⟩
  rw [singleton_append, scan, hv, more_ofNat, testBit_lt_two_pow h, payload_ofNat,
    mod_eq_of_lt h]
  rfl

theorem codes_more {v bs} (h : Codes bs (v >>> 7)) : Codes (.ofNat (v ||| 0x80) :: bs) v := by
  obtain ⟨k, hk, hscan⟩ := h
  have hmore : (v ||| 0x80).testBit 7 := by simp [show testBit 0x80 7 from rfl]
  refine ⟨k + 1, by rw [length_cons, hk], fun rest => ?_⟩
  rw [cons_append, scan, more_ofNat, if_pos hmore, hscan, payload_ofNat, or_mod_two_pow,
    shiftRight_eq_div_pow]
  simp [mod_add_div]

theorem viBytes_codes (v : ℕ) : Codes (viBytes v) v := by
  fun_induction viBytes v with
  | case1 v _ ih => exact codes_more ih
  | case2 v h => exact codes_last (by omega)

theorem fixedBytes_codes {n v} (h : v < 2 ^ (7 * (n + 1))) : Codes (fixedBytes n v) v := by
  induction n generalizing v with
  | zero => exact codes_last h
  | succ n ih =>
    refine codes_more (ih ?_)
    rw [Nat.shiftRight_eq_div_pow]
    exact Nat.div_lt_of_lt_mul (by rwa [← pow_add, Nat.add_comm])

theorem encodeAll_readsBack {α : Type} {enc : α → ℕ → List UInt8 → Except Ret (List UInt8)}
    {bufLen buf' l} (val : α → BitVec w)
    (henc : ∀ x ∈ l, ∃ need bytes, enc x = encode need bytes ∧ Codes bytes (val x).toNat) :
    ∀ {buf}, encodeAll enc bufLen l buf = .ok buf' → buf <+: buf' ∧
      ∀ rest, ReadsBack w (buf' ++ rest) buf.length (l.map val) := by
  induction l with
  | nil =>
    rintro buf ⟨⟩
    exact ⟨prefix_rfl, fun _ => trivial⟩
  | cons x l ih =>
  intro buf h
  obtain ⟨need, bytes, hx, k, hk, hscan⟩ := henc x mem_cons_self
  rw [encodeAll, hx, encode] at h
  split at h
  next =>
    obtain ⟨⟨tail, rfl⟩, hback⟩ := ih (fun y hy => henc y (.tail _ hy)) h
    refine ⟨⟨bytes ++ tail, (append_assoc ..).symm⟩, fun rest => ?_⟩
    have hdrop : (buf ++ bytes ++ tail ++ rest).drop buf.length = bytes ++ (tail ++ rest) := by
      simp [append_assoc]
    obtain ⟨hret, hpos, hval, -⟩ := decodeLoop_of_some (w := w) (p := buf.length) (t := buf.length)
      (s := 0) (V := 0) (hscan (tail ++ rest)) one_pos
    rw [← hdrop, zero_mod] at hret hpos hval
    refine ⟨hret, hval.trans (by simp), ?_⟩
    rw [decodeVi, hpos, ← hk, ← length_append]
    exact hback rest
  next => exact nomatch h

/-- `encode_vi64` or `encode_fixed_bytes_i64`. -/
def encode64 (x : Bool × BitVec 64) := if x.1 then encodeFixedBytesI64 x.2 else encodeVi64 x.2

/-- **The decoders are safe exactly on well-formed data**, and what the encoders write is read back:
without a last byte the one behind the data is read, and there is no limit to the shift. -/
theorem decode_safely_iff {buf : List UInt8} {pos : ℕ} (hpos : pos ≤ buf.length) :
    (Safely buf pos (decodeVi64 buf pos) ↔ WellFormed 64 buf pos) ∧
    (Safely buf pos (decodeVi32 buf pos) ↔ WellFormed 32 buf pos) ∧
    (∀ (l : List (Bool × BitVec 64)) bufLen buf' rest, (∀ x ∈ l, x.1 → x.2.toNat < 2 ^ 35) →
      encodeAll encode64 bufLen l buf = .ok buf' →
      ReadsBack 64 (buf' ++ rest) buf.length (l.map (·.2))) ∧
    ∀ l bufLen buf' rest, encodeAll encodeVi32 bufLen l buf = .ok buf' →
      ReadsBack 32 (buf' ++ rest) buf.length l := by
  refine ⟨safely_iff hpos, safely_iff hpos, fun l bufLen buf' rest hl h => ?_,
    fun l bufLen buf' rest h => ?_⟩
  · refine (encodeAll_readsBack (·.2) (fun x hx => ?_) h).2 rest
    unfold encode64
    split
    next hfixed =>
      have := hl x hx hfixed
      exact ⟨_, _, rfl, fixedBytes_codes (by omega)⟩
    next => exact ⟨_, _, rfl, viBytes_codes _⟩
  · have := (encodeAll_readsBack id (fun x _ => ⟨_, _, rfl, viBytes_codes _⟩) h).2 rest
    rwa [map_id] at this

/-- The number 300 takes two bytes, here behind another one. -/
theorem safely_twoBytes : WellFormed 64 [7, 172, 2] 1 ∧
    Safely [7, 172, 2] 1 (decodeVi64 [7, 172, 2] 1) ∧ ReadsBack 64 [7, 172, 2] 1 [300] := by
  have h : WellFormed 64 [7, 172, 2] 1 := ⟨1, 300, by decide⟩
  have hone : 1 ≤ ([7] : List UInt8).length := le_rfl
  refine ⟨h, (decode_safely_iff (by decide)).1.mpr h, ?_⟩
  refine (decode_safely_iff hone).2.2.1 [(false, 300)] 8 [7, 172, 2] [] (by simp) ?_
  simp [encodeAll, encode64, encodeVi64, encode, encodedLength, viBytes, Except.bind]

/-- With no data at all, the first byte behind it is read. -/
theorem not_safely_empty : ¬ Safely [] 0 (decodeVi64 [] 0) :=
  fun h => absurd (h.reads 0 (by decide)) (by decide)

end OceanBase.Serialization
