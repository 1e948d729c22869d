import Mathlib.Data.List.Basic
import Mathlib.Tactic.Ring

/-!
Byte strings, `Status`, and the integer codings of `util/coding.cc`. The last file is not in the
repository: its layouts are the spec's (fixed-width integers little-endian, varints base 128 with the
high bit as continuation flag, at most 5 bytes for a varint32 and 10 for a varint64).
-/

namespace LevelDbProofs.Util

abbrev Bytes := List UInt8

inductive Status
  | ok
  | notFound (msg : String)
  | corruption (msg : String)
  | notSupported (msg : String)
  | invalidArgument (msg : String)
  | ioError (msg : String)
  deriving DecidableEq, Repr

def Status.isOk : Status → Bool
  | .ok => true
  | _ => false

@[simp] theorem Status.isOk_iff (s : Status) : s.isOk = true ↔ s = .ok := by
  cases s <;> simp [Status.isOk]

def Status.ioErrorOf (msg msg2 : String) : Status := .ioError (if msg2.isEmpty then msg else msg ++ ": " ++ msg2)

def resize (s : Bytes) (n : Nat) : Bytes := s.take n ++ List.replicate (n - s.length) 0

@[simp] theorem length_resize (s : Bytes) (n : Nat) : (resize s n).length = n := by
  simp only [resize, List.length_append, List.length_take, List.length_replicate]
  omega

theorem resize_of_le (s : Bytes) (n : Nat) (h : s.length ≤ n) :
    resize s n = s ++ List.replicate (n - s.length) 0 := by
  simp [resize, List.take_of_length_le h]

@[simp] theorem uint8_toNat_ofNat (n : Nat) : (UInt8.ofNat n).toNat = n % 256 := rfl

@[simp] theorem uint32_toNat_ofNat (n : Nat) : (UInt32.ofNat n).toNat = n % 2 ^ 32 := rfl

@[simp] theorem uint64_toNat_ofNat (n : Nat) : (UInt64.ofNat n).toNat = n % 2 ^ 64 := rfl

theorem uint8_toNat_lt (b : UInt8) : b.toNat < 256 := b.toNat_lt_size

theorem uint32_toNat_lt (v : UInt32) : v.toNat < 2 ^ 32 := v.toNat_lt_size

theorem uint64_toNat_lt (v : UInt64) : v.toNat < 2 ^ 64 := v.toNat_lt_size

theorem uint8_eq_iff (a b : UInt8) : a = b ↔ a.toNat = b.toNat := ⟨congrArg _, UInt8.toNat.inj⟩

theorem uint32_eq_iff (a b : UInt32) : a = b ↔ a.toNat = b.toNat := ⟨congrArg _, UInt32.toNat.inj⟩

theorem uint64_eq_iff (a b : UInt64) : a = b ↔ a.toNat = b.toNat := ⟨congrArg _, UInt64.toNat.inj⟩

theorem uint32_lt_iff (a b : UInt32) : a < b ↔ a.toNat < b.toNat := Iff.rfl

theorem uint32_le_iff (a b : UInt32) : a ≤ b ↔ a.toNat ≤ b.toNat := Iff.rfl

theorem uint32_toNat_add (a b : UInt32) : (a + b).toNat = (a.toNat + b.toNat) % 2 ^ 32 := rfl

theorem uint32_toNat_sub (a b : UInt32) : (a - b).toNat = (2 ^ 32 - b.toNat + a.toNat) % 2 ^ 32 := rfl

theorem uint32_toNat_mul (a b : UInt32) : (a * b).toNat = a.toNat * b.toNat % 2 ^ 32 := rfl

theorem uint32_ofNat_add (a b : Nat) : UInt32.ofNat (a + b) = UInt32.ofNat a + UInt32.ofNat b := by
  rw [uint32_eq_iff, uint32_toNat_add, uint32_toNat_ofNat, uint32_toNat_ofNat, uint32_toNat_ofNat]
  omega

theorem uint32_add_zero (a : UInt32) : a + 0 = a := by
  rw [uint32_eq_iff, uint32_toNat_add]
  exact Nat.mod_eq_of_lt (uint32_toNat_lt a)

theorem uint32_add_assoc (a b c : UInt32) : a + b + c = a + (b + c) := by
  rw [uint32_eq_iff, uint32_toNat_add, uint32_toNat_add, uint32_toNat_add, uint32_toNat_add]
  omega

theorem uint64_toNat_add (a b : UInt64) : (a + b).toNat = (a.toNat + b.toNat) % 2 ^ 64 := rfl

theorem uint64_toNat_sub (a b : UInt64) : (a - b).toNat = (2 ^ 64 - b.toNat + a.toNat) % 2 ^ 64 := rfl

theorem uint64_toNat_shiftRight (a b : UInt64) : (a >>> b).toNat = a.toNat >>> (b.toNat % 64) := rfl

theorem uint32_toNat_shiftRight (a b : UInt32) : (a >>> b).toNat = a.toNat >>> (b.toNat % 32) := rfl

theorem uint64_toNat_shiftLeft (a b : UInt64) : (a <<< b).toNat = (a.toNat <<< (b.toNat % 64)) % 2 ^ 64 := rfl

theorem uint64_toNat_or (a b : UInt64) : (a ||| b).toNat = a.toNat ||| b.toNat := BitVec.toNat_or _ _

theorem uint64_toNat_and_0xff (a : UInt64) : (a &&& 0xff).toNat = a.toNat % 256 := by
  rw [UInt64.and_toNat]
  exact Nat.and_pow_two_sub_one_eq_mod _ 8

@[simp] theorem uint64_toNat_toUInt8 (a : UInt64) : a.toUInt8.toNat = a.toNat % 256 := rfl

@[simp] theorem uint8_toNat_toUInt64 (t : UInt8) : t.toUInt64.toNat = t.toNat := rfl

@[simp] theorem uint32_ofNat_toNat (v : UInt32) : UInt32.ofNat v.toNat = v :=
  UInt32.toNat.inj (by simp [Nat.mod_eq_of_lt v.toNat_lt_size])

@[simp] theorem uint64_ofNat_toNat (v : UInt64) : UInt64.ofNat v.toNat = v :=
  UInt64.toNat.inj (by simp [Nat.mod_eq_of_lt v.toNat_lt_size])

/-- Modelled from the spec: the little-endian bytes of `EncodeFixed32`/`EncodeFixed64`. -/
def encodeFixed : Nat → Nat → Bytes
  | 0, _ => []
  | w + 1, v => UInt8.ofNat v :: encodeFixed w (v / 256)

/-- Modelled from the spec: `DecodeFixed32`/`DecodeFixed64` of the bytes it is given. -/
def decodeFixed : Bytes → Nat
  | [] => 0
  | b :: bs => b.toNat + 256 * decodeFixed bs

def encodeFixed32 (v : UInt32) : Bytes := encodeFixed 4 v.toNat

def encodeFixed64 (v : UInt64) : Bytes := encodeFixed 8 v.toNat

def decodeFixed32 (p : Bytes) : UInt32 := UInt32.ofNat (decodeFixed (p.take 4))

def decodeFixed64 (p : Bytes) : UInt64 := UInt64.ofNat (decodeFixed (p.take 8))

def putFixed32 (dst : Bytes) (v : UInt32) : Bytes := dst ++ encodeFixed32 v

def putFixed64 (dst : Bytes) (v : UInt64) : Bytes := dst ++ encodeFixed64 v

/-- Modelled from the spec: the base-128 bytes of `EncodeVarint32`/`EncodeVarint64`; `fuel` is the
largest number of bytes the source's loop can emit for its width. -/
def varintBytes : Nat → Nat → Bytes
  | 0, _ => []
  | fuel + 1, v =>
    if v < 128 then [UInt8.ofNat v] else UInt8.ofNat (v % 128 + 128) :: varintBytes fuel (v / 128)

def encodeVarint32 (v : UInt32) : Bytes := varintBytes 5 v.toNat

def encodeVarint64 (v : UInt64) : Bytes := varintBytes 10 v.toNat

def putVarint32 (dst : Bytes) (v : UInt32) : Bytes := dst ++ encodeVarint32 v

def putVarint64 (dst : Bytes) (v : UInt64) : Bytes := dst ++ encodeVarint64 v

/-- Modelled from the spec: the loop of `GetVarint32Ptr`/`GetVarint64Ptr`, reading at most `fuel` bytes
and failing when the input ends before a byte below 128. The payload groups occupy disjoint bits, so the
source's `result |= byte << shift` is the sum below, truncated by the caller to the target width. -/
def parseVarint : Nat → Bytes → Option (Nat × Bytes)
  | 0, _ => none
  | _ + 1, [] => none
  | fuel + 1, b :: rest =>
    if b.toNat < 128 then some (b.toNat, rest)
    else (parseVarint fuel rest).map fun r => (b.toNat % 128 + 128 * r.1, r.2)

def getVarint32 (input : Bytes) : Option (UInt32 × Bytes) :=
  (parseVarint 5 input).map fun r => (UInt32.ofNat r.1, r.2)

def getVarint64 (input : Bytes) : Option (UInt64 × Bytes) :=
  (parseVarint 10 input).map fun r => (UInt64.ofNat r.1, r.2)

@[simp] theorem length_encodeFixed (w v : Nat) : (encodeFixed w v).length = w := by
  induction w generalizing v with
  | zero => rfl
  | succ w ih => simp [encodeFixed, ih]

@[simp] theorem length_encodeFixed32 (v : UInt32) : (encodeFixed32 v).length = 4 := by
  simp [encodeFixed32]

@[simp] theorem length_encodeFixed64 (v : UInt64) : (encodeFixed64 v).length = 8 := by
  simp [encodeFixed64]

theorem decodeFixed_encodeFixed (w v : Nat) : decodeFixed (encodeFixed w v) = v % 256 ^ w := by
  induction w generalizing v with
  | zero => simp [encodeFixed, decodeFixed, Nat.mod_one]
  | succ w ih =>
    simp only [encodeFixed, decodeFixed, ih, uint8_toNat_ofNat, pow_succ]
    rw [Nat.mul_comm (256 ^ w) 256, Nat.mod_mul]

theorem decodeFixed_lt (bs : Bytes) : decodeFixed bs < 256 ^ bs.length := by
  induction bs with
  | nil => simp [decodeFixed]
  | cons b bs ih =>
    have hb := uint8_toNat_lt b
    simp only [decodeFixed, List.length_cons, pow_succ]
    omega

theorem encodeFixed_decodeFixed (bs : Bytes) : encodeFixed bs.length (decodeFixed bs) = bs := by
  induction bs with
  | nil => rfl
  | cons b bs ih =>
    have hb := uint8_toNat_lt b
    have hlo : (b.toNat + 256 * decodeFixed bs) % 256 = b.toNat := by omega
    have hhi : (b.toNat + 256 * decodeFixed bs) / 256 = decodeFixed bs := by omega
    simp only [List.length_cons, encodeFixed, decodeFixed, hhi, ih, List.cons.injEq, and_true]
    apply UInt8.toNat.inj
    simp [hlo]

@[simp] theorem decodeFixed32_encodeFixed32 (v : UInt32) (rest : Bytes) :
    decodeFixed32 (encodeFixed32 v ++ rest) = v := by
  have h := decodeFixed_encodeFixed 4 v.toNat
  simp only [decodeFixed32, encodeFixed32]
  rw [List.take_append_of_le_length (by simp), List.take_of_length_le (by simp), h,
    Nat.mod_eq_of_lt (by simpa using v.toNat_lt_size)]
  simp

@[simp] theorem decodeFixed64_encodeFixed64 (v : UInt64) (rest : Bytes) :
    decodeFixed64 (encodeFixed64 v ++ rest) = v := by
  have h := decodeFixed_encodeFixed 8 v.toNat
  simp only [decodeFixed64, encodeFixed64]
  rw [List.take_append_of_le_length (by simp), List.take_of_length_le (by simp), h,
    Nat.mod_eq_of_lt (by simpa using v.toNat_lt_size)]
  simp

theorem parseVarint_varintBytes (fuel v : Nat) (rest : Bytes) (hv : v < 128 ^ (fuel + 1)) :
    parseVarint (fuel + 1) (varintBytes (fuel + 1) v ++ rest) = some (v, rest) := by
  induction fuel generalizing v with
  | zero => simp [varintBytes, parseVarint, show v < 128 by simpa using hv, Nat.mod_eq_of_lt (by omega : v < 256)]
  | succ fuel ih =>
    by_cases hs : v < 128
    · simp [varintBytes, parseVarint, hs, Nat.mod_eq_of_lt (by omega : v < 256)]
    · have hq : v / 128 < 128 ^ (fuel + 1) := by
        rw [pow_succ] at hv
        exact Nat.div_lt_of_lt_mul (by omega)
      have hb : (v % 128 + 128) % 256 = v % 128 + 128 := by omega
      rw [varintBytes, if_neg hs, List.cons_append, parseVarint, uint8_toNat_ofNat, hb,
        if_neg (by omega), ih _ hq]
      simp only [Option.map_some', Option.some.injEq, Prod.mk.injEq, and_true]
      omega

theorem length_varintBytes_le (fuel v : Nat) : (varintBytes fuel v).length ≤ fuel := by
  induction fuel generalizing v with
  | zero => simp [varintBytes]
  | succ fuel ih =>
    unfold varintBytes
    split
    · simp
    · simpa using ih (v / 128)

/-- Modelled from the spec: `VarintLength(v)`, one byte and one more for each `v >>= 7` that leaves
`v >= 128`. -/
def varintLength (v : Nat) : Nat := if v < 128 then 1 else varintLength (v / 128) + 1
termination_by v
decreasing_by omega

theorem length_varintBytes (fuel v : Nat) (hv : v < 128 ^ (fuel + 1)) :
    (varintBytes (fuel + 1) v).length = varintLength v := by
  induction fuel generalizing v with
  | zero => simp [varintBytes, varintLength, show v < 128 by simpa using hv]
  | succ fuel ih =>
    rw [varintBytes, varintLength]
    by_cases hs : v < 128
    · simp [hs]
    · rw [if_neg hs, if_neg hs, List.length_cons, ih _ (Nat.div_lt_of_lt_mul (by rw [← pow_succ']; exact hv))]

theorem length_encodeVarint32 (v : UInt32) : (encodeVarint32 v).length = varintLength v.toNat :=
  length_varintBytes 4 v.toNat (by have := uint32_toNat_lt v; omega)

@[simp] theorem getVarint32_encodeVarint32 (v : UInt32) (rest : Bytes) :
    getVarint32 (encodeVarint32 v ++ rest) = some (v, rest) := by
  have hv : v.toNat < 128 ^ 5 := by have := uint32_toNat_lt v; omega
  simp [getVarint32, encodeVarint32, parseVarint_varintBytes 4 _ rest hv]

@[simp] theorem getVarint64_encodeVarint64 (v : UInt64) (rest : Bytes) :
    getVarint64 (encodeVarint64 v ++ rest) = some (v, rest) := by
  have hv : v.toNat < 128 ^ 10 := by have := uint64_toNat_lt v; omega
  simp [getVarint64, encodeVarint64, parseVarint_varintBytes 9 _ rest hv]

theorem length_encodeVarint64_le (v : UInt64) : (encodeVarint64 v).length ≤ 10 :=
  length_varintBytes_le 10 v.toNat

theorem foldl_putFixed32 (offsets : List UInt32) (r : Bytes) :
    offsets.foldl putFixed32 r = r ++ (offsets.map encodeFixed32).flatten := by
  induction offsets generalizing r with
  | nil => simp
  | cons o os ih => simp [ih, putFixed32]

theorem length_table (ys : List UInt32) : ((ys.map encodeFixed32).flatten).length = 4 * ys.length := by
  induction ys with
  | nil => rfl
  | cons y ys ih => simp only [List.map_cons, List.flatten_cons, List.length_append, ih, length_encodeFixed32,
      List.length_cons]; omega

theorem decodeFixed32_table (xs : List UInt32) (t : Bytes) (i : Nat) (hi : i < xs.length) :
    decodeFixed32 (((xs.map encodeFixed32).flatten ++ t).drop (i * 4)) = xs.getD i 0 := by
  induction xs generalizing i with
  | nil => simp at hi
  | cons x xs ih =>
    cases i with
    | zero => simp [List.append_assoc]
    | succ i =>
      rw [show (i + 1) * 4 = 4 + i * 4 by omega, ← List.drop_drop]
      simp only [List.map_cons, List.flatten_cons, List.append_assoc]
      rw [List.drop_left' (length_encodeFixed32 x)]
      simpa using ih i (by simpa using hi)

end LevelDbProofs.Util
