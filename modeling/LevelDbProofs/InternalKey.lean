import LevelDbProofs.Util

/-!
`db/dbformat.cc`: internal keys, their comparator, the internal filter policy and `LookupKey`.
`db/dbformat.h`, `leveldb/comparator.h` and `leveldb/filter_policy.h` are not in the repository: the
user comparator and the filter policy are structures of functions, and the constants follow the spec.
-/

namespace LevelDbProofs.InternalKey

open LevelDbProofs.Util

/-- Modelled from the spec: the deletion tag of `db/dbformat.h`'s `ValueType`. -/
def kTypeDeletion : UInt8 := 0

/-- Modelled from the spec: the value tag of `db/dbformat.h`'s `ValueType`. -/
def kTypeValue : UInt8 := 1

/-- Modelled from the spec: the seek tag. `PackSequenceAndType` asserts `t <= kValueTypeForSeek` for
every tag it packs, and the spec asks a lookup key to sort before every entry of its sequence: it is
the largest tag. -/
def kValueTypeForSeek : UInt8 := kTypeValue

/-- Modelled from the spec: the largest sequence number, `2^56 - 1`. -/
def kMaxSequenceNumber : UInt64 := UInt64.ofNat (2 ^ 56 - 1)

def packSequenceAndType (seq : UInt64) (t : UInt8) : UInt64 := UInt64.ofNat (seq.toNat * 256 + t.toNat)

structure ParsedInternalKey where
  userKey : Bytes
  sequence : UInt64
  type : UInt8
  deriving DecidableEq, Repr

def appendInternalKey (result : Bytes) (key : ParsedInternalKey) : Bytes :=
  putFixed64 (result ++ key.userKey) (packSequenceAndType key.sequence key.type)

/-- Modelled from the spec: `ExtractUserKey`, all of an internal key but its 8-byte tag (the source
asserts that the key has one). -/
def extractUserKey (k : Bytes) : Bytes := k.take (k.length - 8)

structure Comparator where
  compare : Bytes → Bytes → Int
  findShortestSeparator : Bytes → Bytes → Bytes
  findShortSuccessor : Bytes → Bytes

structure Comparator.Lawful (cmp : Bytes → Bytes → Int) : Prop where
  neg_iff_pos : ∀ a b, cmp a b < 0 ↔ 0 < cmp b a
  le_trans : ∀ a b c, cmp a b ≤ 0 → cmp b c ≤ 0 → cmp a c ≤ 0

structure InternalKeyComparator where
  userComparator : Comparator

def InternalKeyComparator.compare (icmp : InternalKeyComparator) (akey bkey : Bytes) : Int :=
  let r := icmp.userComparator.compare (extractUserKey akey) (extractUserKey bkey)
  if r = 0 then
    let anum := decodeFixed64 (akey.drop (akey.length - 8))
    let bnum := decodeFixed64 (bkey.drop (bkey.length - 8))
    if anum > bnum then -1 else if anum < bnum then 1 else 0
  else r

def InternalKeyComparator.findShortestSeparator (icmp : InternalKeyComparator) (start limit : Bytes) : Bytes :=
  let userStart := extractUserKey start
  let userLimit := extractUserKey limit
  let tmp := icmp.userComparator.findShortestSeparator userStart userLimit
  if tmp.length < userStart.length ∧ icmp.userComparator.compare userStart tmp < 0 then
    putFixed64 tmp (packSequenceAndType kMaxSequenceNumber kValueTypeForSeek)
  else start

def InternalKeyComparator.findShortSuccessor (icmp : InternalKeyComparator) (key : Bytes) : Bytes :=
  let userKey := extractUserKey key
  let tmp := icmp.userComparator.findShortSuccessor userKey
  if tmp.length < userKey.length ∧ icmp.userComparator.compare userKey tmp < 0 then
    putFixed64 tmp (packSequenceAndType kMaxSequenceNumber kValueTypeForSeek)
  else key

structure FilterPolicy where
  createFilter : List Bytes → Bytes → Bytes
  keyMayMatch : Bytes → Bytes → Bool

def FilterPolicy.AppendsOnly (policy : FilterPolicy) : Prop :=
  ∀ keys dst, policy.createFilter keys dst = dst ++ policy.createFilter keys []

def FilterPolicy.NoFalseNegatives (policy : FilterPolicy) : Prop :=
  ∀ keys k, k ∈ keys → policy.keyMayMatch k (policy.createFilter keys []) = true

def internalFilterPolicy (userPolicy : FilterPolicy) : FilterPolicy where
  createFilter keys dst := userPolicy.createFilter (keys.map extractUserKey) dst
  keyMayMatch key f := userPolicy.keyMayMatch (extractUserKey key) f

theorem internalFilterPolicy_appendsOnly {userPolicy : FilterPolicy} (h : userPolicy.AppendsOnly) :
    (internalFilterPolicy userPolicy).AppendsOnly :=
  fun _ dst => h _ dst

theorem internalFilterPolicy_keyMayMatch {userPolicy : FilterPolicy} (h : userPolicy.NoFalseNegatives)
    {keys : List Bytes} {k : Bytes} (hk : k ∈ keys) (q : Bytes) (hq : extractUserKey q = extractUserKey k) :
    (internalFilterPolicy userPolicy).keyMayMatch q ((internalFilterPolicy userPolicy).createFilter keys []) = true :=
  h _ _ (hq ▸ List.mem_map_of_mem _ hk)

structure LookupKey where
  buf : Bytes
  kstart : Nat
  deriving DecidableEq, Repr

def LookupKey.new (userKey : Bytes) (s : UInt64) : LookupKey :=
  let klength := encodeVarint32 (UInt32.ofNat (userKey.length + 8))
  ⟨klength ++ userKey ++ encodeFixed64 (packSequenceAndType s kValueTypeForSeek), klength.length⟩

def LookupKey.memtableKey (k : LookupKey) : Bytes := k.buf

def LookupKey.internalKey (k : LookupKey) : Bytes := k.buf.drop k.kstart

def LookupKey.userKey (k : LookupKey) : Bytes := (k.buf.drop k.kstart).take (k.buf.length - k.kstart - 8)

theorem uint64_lt_iff (a b : UInt64) : a < b ↔ a.toNat < b.toNat := Iff.rfl

theorem uint64_le_iff (a b : UInt64) : a ≤ b ↔ a.toNat ≤ b.toNat := Iff.rfl

theorem uint8_lt_iff (a b : UInt8) : a < b ↔ a.toNat < b.toNat := Iff.rfl

theorem uint8_toNat_add_one {x : UInt8} (h : x.toNat + 1 < 256) : (x + 1).toNat = x.toNat + 1 :=
  (show (x + 1).toNat = (x.toNat + 1) % 256 from rfl).trans (Nat.mod_eq_of_lt h)

namespace Comparator.Lawful

variable {cmp : Bytes → Bytes → Int} (h : Comparator.Lawful cmp)
include h

theorem eq_zero_comm (a b : Bytes) : cmp a b = 0 ↔ cmp b a = 0 := by
  have h1 := h.neg_iff_pos a b
  have h2 := h.neg_iff_pos b a
  omega

theorem nonneg_iff_nonpos (a b : Bytes) : 0 ≤ cmp a b ↔ cmp b a ≤ 0 := by
  have h1 := h.neg_iff_pos a b
  have h2 := h.neg_iff_pos b a
  omega

theorem lt_of_lt_of_le {a b c : Bytes} (hab : cmp a b < 0) (hbc : cmp b c ≤ 0) : cmp a c < 0 := by
  by_contra hac
  have hca := (h.nonneg_iff_nonpos a c).mp (by omega)
  have hba := h.le_trans b c a hbc hca
  have := (h.neg_iff_pos a b).mp hab
  omega

theorem lt_of_le_of_lt {a b c : Bytes} (hab : cmp a b ≤ 0) (hbc : cmp b c < 0) : cmp a c < 0 := by
  by_contra hac
  have hca := (h.nonneg_iff_nonpos a c).mp (by omega)
  have hcb := h.le_trans c a b hca hab
  have := (h.neg_iff_pos b c).mp hbc
  omega

theorem eq_zero_trans {a b c : Bytes} (hab : cmp a b = 0) (hbc : cmp b c = 0) : cmp a c = 0 := by
  have h1 := h.le_trans a b c (by omega) (by omega)
  have h2 := h.le_trans c b a (by have := (h.eq_zero_comm b c).mp hbc; omega)
    (by have := (h.eq_zero_comm a b).mp hab; omega)
  have := h.nonneg_iff_nonpos a c
  omega

end Comparator.Lawful

section Compare

variable (icmp : InternalKeyComparator)

theorem compare_lt_iff (a b : Bytes) :
    icmp.compare a b < 0 ↔ icmp.userComparator.compare (extractUserKey a) (extractUserKey b) < 0 ∨
      (icmp.userComparator.compare (extractUserKey a) (extractUserKey b) = 0 ∧
        decodeFixed64 (b.drop (b.length - 8)) < decodeFixed64 (a.drop (a.length - 8))) := by
  simp only [InternalKeyComparator.compare, gt_iff_lt]
  split_ifs <;> simp_all [uint64_lt_iff]

theorem compare_eq_zero_iff (a b : Bytes) :
    icmp.compare a b = 0 ↔ icmp.userComparator.compare (extractUserKey a) (extractUserKey b) = 0 ∧
      decodeFixed64 (a.drop (a.length - 8)) = decodeFixed64 (b.drop (b.length - 8)) := by
  simp only [InternalKeyComparator.compare, gt_iff_lt]
  split_ifs <;> simp_all [uint64_lt_iff, uint64_eq_iff] <;> omega

theorem compare_le_iff (a b : Bytes) :
    icmp.compare a b ≤ 0 ↔ icmp.userComparator.compare (extractUserKey a) (extractUserKey b) < 0 ∨
      (icmp.userComparator.compare (extractUserKey a) (extractUserKey b) = 0 ∧
        decodeFixed64 (b.drop (b.length - 8)) ≤ decodeFixed64 (a.drop (a.length - 8))) := by
  simp only [InternalKeyComparator.compare, gt_iff_lt]
  split_ifs <;> simp_all [uint64_lt_iff, uint64_le_iff] <;> omega

theorem compare_lawful (hu : Comparator.Lawful icmp.userComparator.compare) :
    Comparator.Lawful icmp.compare where
  neg_iff_pos a b := by
    have hpos : 0 < icmp.compare b a ↔ ¬ icmp.compare b a ≤ 0 := Int.not_le.symm
    rw [compare_lt_iff, hpos, compare_le_iff, hu.neg_iff_pos, hu.eq_zero_comm, uint64_lt_iff, uint64_le_iff]
    have := hu.neg_iff_pos (extractUserKey b) (extractUserKey a)
    constructor <;> intro h' <;> omega
  le_trans a b c hab hbc := by
    rw [compare_le_iff] at hab hbc ⊢
    rcases hab with hab | ⟨hab, hnab⟩ <;> rcases hbc with hbc | ⟨hbc, hnbc⟩
    · exact .inl (hu.lt_of_lt_of_le hab (by omega))
    · exact .inl (hu.lt_of_lt_of_le hab (by omega))
    · exact .inl (hu.lt_of_le_of_lt (by omega) hbc)
    · exact .inr ⟨hu.eq_zero_trans hab hbc, UInt64.le_trans hnbc hnab⟩

end Compare

theorem toNat_packSequenceAndType (seq : UInt64) (t : UInt8) (hs : seq ≤ kMaxSequenceNumber) :
    (packSequenceAndType seq t).toNat = seq.toNat * 256 + t.toNat := by
  have ht := uint8_toNat_lt t
  rw [uint64_le_iff] at hs
  simp only [packSequenceAndType, uint64_toNat_ofNat, kMaxSequenceNumber] at hs ⊢
  omega

theorem extractUserKey_appendInternalKey (key : ParsedInternalKey) :
    extractUserKey (appendInternalKey [] key) = key.userKey := by
  simp [extractUserKey, appendInternalKey, putFixed64]

theorem tag_appendInternalKey (key : ParsedInternalKey) :
    decodeFixed64 ((appendInternalKey [] key).drop ((appendInternalKey [] key).length - 8)) =
      packSequenceAndType key.sequence key.type := by
  have hd : (appendInternalKey [] key).drop ((appendInternalKey [] key).length - 8) =
      encodeFixed64 (packSequenceAndType key.sequence key.type) := by
    simp only [appendInternalKey, putFixed64, List.nil_append, List.length_append, length_encodeFixed64]
    rw [show key.userKey.length + 8 - 8 = key.userKey.length by omega]
    exact List.drop_left' rfl
  simpa [hd] using decodeFixed64_encodeFixed64 (packSequenceAndType key.sequence key.type) []

theorem decodeFixed64_injective (a b : Bytes) (ha : a.length = 8) (hb : b.length = 8)
    (h : decodeFixed64 a = decodeFixed64 b) : a = b := by
  have hla := decodeFixed_lt a
  have hlb := decodeFixed_lt b
  rw [ha] at hla
  rw [hb] at hlb
  have hn := congrArg UInt64.toNat h
  simp only [decodeFixed64, List.take_of_length_le (le_of_eq ha), List.take_of_length_le (le_of_eq hb),
    uint64_toNat_ofNat, Nat.mod_eq_of_lt (show decodeFixed a < 2 ^ 64 by omega),
    Nat.mod_eq_of_lt (show decodeFixed b < 2 ^ 64 by omega)] at hn
  rw [← encodeFixed_decodeFixed a, ← encodeFixed_decodeFixed b, hn, ha, hb]

section Packed

variable (icmp : InternalKeyComparator) (k1 k2 : ParsedInternalKey) (hs1 : k1.sequence ≤ kMaxSequenceNumber)
  (hs2 : k2.sequence ≤ kMaxSequenceNumber)
include hs1 hs2

theorem compare_appendInternalKey_lt_iff :
    icmp.compare (appendInternalKey [] k1) (appendInternalKey [] k2) < 0 ↔
      icmp.userComparator.compare k1.userKey k2.userKey < 0 ∨
        (icmp.userComparator.compare k1.userKey k2.userKey = 0 ∧
          k2.sequence.toNat * 256 + k2.type.toNat < k1.sequence.toNat * 256 + k1.type.toNat) := by
  rw [compare_lt_iff, extractUserKey_appendInternalKey, extractUserKey_appendInternalKey, tag_appendInternalKey,
    tag_appendInternalKey, uint64_lt_iff, toNat_packSequenceAndType _ _ hs1, toNat_packSequenceAndType _ _ hs2]

theorem compare_appendInternalKey_eq_zero_iff :
    icmp.compare (appendInternalKey [] k1) (appendInternalKey [] k2) = 0 ↔
      icmp.userComparator.compare k1.userKey k2.userKey = 0 ∧
        k1.sequence.toNat * 256 + k1.type.toNat = k2.sequence.toNat * 256 + k2.type.toNat := by
  rw [compare_eq_zero_iff, extractUserKey_appendInternalKey, extractUserKey_appendInternalKey, tag_appendInternalKey,
    tag_appendInternalKey, uint64_eq_iff, toNat_packSequenceAndType _ _ hs1, toNat_packSequenceAndType _ _ hs2]

end Packed

theorem internal_key_order (icmp : InternalKeyComparator) (hu : Comparator.Lawful icmp.userComparator.compare) :
    (∀ a b : Bytes, 8 ≤ a.length → 8 ≤ b.length →
      (icmp.compare a b = 0 ↔ icmp.userComparator.compare (extractUserKey a) (extractUserKey b) = 0 ∧
        a.drop (a.length - 8) = b.drop (b.length - 8)) ∧
      (icmp.compare a b < 0 ↔ icmp.userComparator.compare (extractUserKey a) (extractUserKey b) < 0 ∨
        (icmp.userComparator.compare (extractUserKey a) (extractUserKey b) = 0 ∧
          decodeFixed64 (b.drop (b.length - 8)) < decodeFixed64 (a.drop (a.length - 8))))) ∧
    Comparator.Lawful icmp.compare ∧
    (∀ k1 k2 : ParsedInternalKey, k1.sequence ≤ kMaxSequenceNumber → k2.sequence ≤ kMaxSequenceNumber →
      k1.type ≤ kValueTypeForSeek → k2.type ≤ kValueTypeForSeek →
      (icmp.compare (appendInternalKey [] k1) (appendInternalKey [] k2) < 0 ↔
        icmp.userComparator.compare k1.userKey k2.userKey < 0 ∨
          (icmp.userComparator.compare k1.userKey k2.userKey = 0 ∧
            (k2.sequence < k1.sequence ∨ (k1.sequence = k2.sequence ∧ k2.type < k1.type)))) ∧
      (icmp.compare (appendInternalKey [] k1) (appendInternalKey [] k2) = 0 ↔
        icmp.userComparator.compare k1.userKey k2.userKey = 0 ∧ k1.sequence = k2.sequence ∧
          k1.type = k2.type)) := by
  refine ⟨fun a b ha hb => ⟨?_, compare_lt_iff icmp a b⟩, compare_lawful icmp hu, ?_⟩
  · rw [compare_eq_zero_iff]
    constructor
    · rintro ⟨hr, hn⟩
      exact ⟨hr, decodeFixed64_injective _ _ (by simp; omega) (by simp; omega) hn⟩
    · rintro ⟨hr, hs⟩
      exact ⟨hr, by rw [hs]⟩
  · intro k1 k2 hs1 hs2 ht1 ht2
    have t1 := uint8_toNat_lt k1.type
    have t2 := uint8_toNat_lt k2.type
    rw [compare_appendInternalKey_lt_iff icmp k1 k2 hs1 hs2, compare_appendInternalKey_eq_zero_iff icmp k1 k2 hs1 hs2,
      uint64_lt_iff, uint64_eq_iff, uint8_lt_iff, uint8_eq_iff]
    constructor
    · constructor <;> rintro (h | ⟨h, h'⟩) <;> first | exact .inl h | exact .inr ⟨h, by omega⟩
    · constructor <;> rintro ⟨h, h'⟩ <;> exact ⟨h, by omega⟩

/-- Modelled from the spec: the compare of the default `BytewiseComparator`, `memcmp` over the common
length and then the shorter key first. -/
def bytewiseCompare : Bytes → Bytes → Int
  | [], [] => 0
  | [], _ :: _ => -1
  | _ :: _, [] => 1
  | x :: xs, y :: ys => if x < y then -1 else if y < x then 1 else bytewiseCompare xs ys

section Bytewise

theorem bytewiseCompare_swap (a b : Bytes) : bytewiseCompare b a = - bytewiseCompare a b := by
  induction a generalizing b with
  | nil => cases b <;> rfl
  | cons x xs ih =>
    cases b with
    | nil => rfl
    | cons y ys =>
      simp only [bytewiseCompare, uint8_lt_iff]
      split_ifs <;> first | omega | exact ih ys

theorem bytewiseCompare_eq_zero (a b : Bytes) (h : bytewiseCompare a b = 0) : a = b := by
  induction a generalizing b with
  | nil => cases b with
    | nil => rfl
    | cons y ys => simp [bytewiseCompare] at h
  | cons x xs ih =>
    cases b with
    | nil => simp [bytewiseCompare] at h
    | cons y ys =>
      simp only [bytewiseCompare, uint8_lt_iff] at h
      split_ifs at h with h1 h2 <;> first | omega | rw [(uint8_eq_iff x y).mpr (by omega), ih ys h]

theorem bytewiseCompare_le_trans (a b c : Bytes) (hab : bytewiseCompare a b ≤ 0) (hbc : bytewiseCompare b c ≤ 0) :
    bytewiseCompare a c ≤ 0 := by
  induction a generalizing b c with
  | nil => cases c <;> simp [bytewiseCompare]
  | cons x xs ih =>
    rcases b with _ | ⟨y, ys⟩
    · simp [bytewiseCompare] at hab
    rcases c with _ | ⟨z, zs⟩
    · simp [bytewiseCompare] at hbc
    simp only [bytewiseCompare, uint8_lt_iff] at hab hbc ⊢
    split_ifs at hab hbc ⊢ <;> first | omega | exact ih ys zs hab hbc

theorem bytewiseCompare_lawful : Comparator.Lawful bytewiseCompare :=
  ⟨fun a b => by rw [bytewiseCompare_swap b a]; omega, bytewiseCompare_le_trans⟩

end Bytewise

def lengthComparator : Comparator := ⟨fun a b => (a.length : Int) - b.length, fun a _ => a, id⟩

theorem lengthComparator_lawful : Comparator.Lawful lengthComparator.compare :=
  ⟨fun a b => by simp only [lengthComparator]; omega, fun a b c => by simp only [lengthComparator]; omega⟩

theorem internal_key_order_by_length :
    Comparator.Lawful lengthComparator.compare ∧ Comparator.Lawful (InternalKeyComparator.compare ⟨lengthComparator⟩) :=
  ⟨lengthComparator_lawful, (internal_key_order ⟨lengthComparator⟩ lengthComparator_lawful).2.1⟩

def Comparator.SeparatorBelow (c : Comparator) : Prop :=
  ∀ u v, c.findShortestSeparator u v = u ∨ c.compare (c.findShortestSeparator u v) v < 0

section Shorten

variable (icmp : InternalKeyComparator)

theorem extractUserKey_putFixed64 (tmp : Bytes) (v : UInt64) : extractUserKey (putFixed64 tmp v) = tmp := by
  simp [extractUserKey, putFixed64]

theorem compare_self (hu : Comparator.Lawful icmp.userComparator.compare) (a : Bytes) : icmp.compare a a = 0 :=
  (compare_eq_zero_iff icmp a a).2
    ⟨by have := hu.neg_iff_pos (extractUserKey a) (extractUserKey a); omega, rfl⟩

theorem compare_retag {key tmp : Bytes} (hk : 8 ≤ key.length) (hlen : tmp.length < (extractUserKey key).length)
    (hlt : icmp.userComparator.compare (extractUserKey key) tmp < 0) :
    icmp.compare key (putFixed64 tmp (packSequenceAndType kMaxSequenceNumber kValueTypeForSeek)) < 0 ∧
      (putFixed64 tmp (packSequenceAndType kMaxSequenceNumber kValueTypeForSeek)).length < key.length := by
  refine ⟨(compare_lt_iff icmp _ _).2 (.inl (by rwa [extractUserKey_putFixed64])), ?_⟩
  simp only [extractUserKey, List.length_take] at hlen
  simp only [putFixed64, List.length_append, length_encodeFixed64]
  omega

end Shorten

theorem internal_key_shorten_keeps_order (icmp : InternalKeyComparator)
    (hu : Comparator.Lawful icmp.userComparator.compare) :
    (icmp.userComparator.SeparatorBelow → ∀ start limit : Bytes, 8 ≤ start.length → 8 ≤ limit.length →
      icmp.compare start limit < 0 →
      icmp.compare start (icmp.findShortestSeparator start limit) ≤ 0 ∧
      icmp.compare (icmp.findShortestSeparator start limit) limit < 0 ∧
      (icmp.findShortestSeparator start limit).length ≤ start.length ∧
      (icmp.findShortestSeparator start limit ≠ start →
        icmp.compare start (icmp.findShortestSeparator start limit) < 0 ∧
          (icmp.findShortestSeparator start limit).length < start.length)) ∧
    (∀ key : Bytes, 8 ≤ key.length →
      icmp.compare key (icmp.findShortSuccessor key) ≤ 0 ∧ (icmp.findShortSuccessor key).length ≤ key.length ∧
      (icmp.findShortSuccessor key ≠ key →
        icmp.compare key (icmp.findShortSuccessor key) < 0 ∧ (icmp.findShortSuccessor key).length < key.length)) := by
  constructor
  · intro hsep start limit hs _ hsl
    dsimp only [InternalKeyComparator.findShortestSeparator]
    split_ifs with h
    · obtain ⟨hlt, hlen⟩ := compare_retag icmp hs h.1 h.2
      have hbelow : icmp.userComparator.compare
          (icmp.userComparator.findShortestSeparator (extractUserKey start) (extractUserKey limit))
          (extractUserKey limit) < 0 :=
        (hsep _ _).resolve_left fun e => by rw [e] at h; exact Nat.lt_irrefl _ h.1
      exact ⟨hlt.le, (compare_lt_iff icmp _ _).2 (.inl (by rwa [extractUserKey_putFixed64])), hlen.le,
        fun _ => ⟨hlt, hlen⟩⟩
    · exact ⟨(compare_self icmp hu start).le, hsl, le_rfl, fun h' => absurd rfl h'⟩
  · intro key hk
    dsimp only [InternalKeyComparator.findShortSuccessor]
    split_ifs with h
    · obtain ⟨hlt, hlen⟩ := compare_retag icmp hk h.1 h.2
      exact ⟨hlt.le, hlen.le, fun _ => ⟨hlt, hlen⟩⟩
    · exact ⟨(compare_self icmp hu key).le, le_rfl, fun h' => absurd rfl h'⟩

def shorteningSeparator : Bytes → Bytes → Bytes
  | x :: xs, y :: ys =>
    if x = y then x :: shorteningSeparator xs ys else if x.toNat + 1 < y.toNat then [x + 1] else x :: xs
  | u, _ => u

def shorteningSuccessor : Bytes → Bytes
  | [] => []
  | x :: xs => if x = 255 then x :: shorteningSuccessor xs else [x + 1]

def shorteningComparator : Comparator := ⟨bytewiseCompare, shorteningSeparator, shorteningSuccessor⟩

theorem shorteningSeparator_below (u v : Bytes) :
    shorteningSeparator u v = u ∨ bytewiseCompare (shorteningSeparator u v) v < 0 := by
  induction u generalizing v with
  | nil => exact .inl rfl
  | cons x xs ih =>
    cases v with
    | nil => exact .inl rfl
    | cons y ys =>
      simp only [shorteningSeparator]
      split_ifs with hxy hlt
      · subst hxy
        refine (ih ys).imp (fun h => by rw [h]) fun h => ?_
        simpa only [bytewiseCompare, uint8_lt_iff, Nat.lt_irrefl, if_false] using h
      · right
        simp only [bytewiseCompare, uint8_lt_iff,
          uint8_toNat_add_one (show x.toNat + 1 < 256 by have := uint8_toNat_lt y; omega), if_pos hlt]
        decide
      · exact .inl rfl

theorem internal_key_shorten_keeps_order_bytewise :
    let icmp : InternalKeyComparator := ⟨shorteningComparator⟩
    let start : Bytes := [1, 5, 7, 0, 0, 0, 0, 0, 0, 0, 0]
    let limit : Bytes := [3, 0, 0, 0, 0, 0, 0, 0, 0]
    let key : Bytes := [255, 4, 9, 0, 0, 0, 0, 0, 0, 0, 0]
    Comparator.Lawful icmp.userComparator.compare ∧ icmp.userComparator.SeparatorBelow ∧
    icmp.findShortestSeparator start limit = putFixed64 [2] (packSequenceAndType kMaxSequenceNumber kValueTypeForSeek) ∧
    icmp.findShortSuccessor key = putFixed64 [255, 5] (packSequenceAndType kMaxSequenceNumber kValueTypeForSeek) ∧
    (icmp.userComparator.SeparatorBelow → ∀ start limit : Bytes, 8 ≤ start.length → 8 ≤ limit.length →
      icmp.compare start limit < 0 →
      icmp.compare start (icmp.findShortestSeparator start limit) ≤ 0 ∧
      icmp.compare (icmp.findShortestSeparator start limit) limit < 0 ∧
      (icmp.findShortestSeparator start limit).length ≤ start.length ∧
      (icmp.findShortestSeparator start limit ≠ start →
        icmp.compare start (icmp.findShortestSeparator start limit) < 0 ∧
          (icmp.findShortestSeparator start limit).length < start.length)) ∧
    (∀ key : Bytes, 8 ≤ key.length →
      icmp.compare key (icmp.findShortSuccessor key) ≤ 0 ∧ (icmp.findShortSuccessor key).length ≤ key.length ∧
      (icmp.findShortSuccessor key ≠ key →
        icmp.compare key (icmp.findShortSuccessor key) < 0 ∧ (icmp.findShortSuccessor key).length < key.length)) := by
  intro icmp start limit key
  exact ⟨bytewiseCompare_lawful, shorteningSeparator_below, by decide, by decide,
    internal_key_shorten_keeps_order icmp bytewiseCompare_lawful⟩

end LevelDbProofs.InternalKey
