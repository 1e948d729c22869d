import LevelDbProofs.Util

/-!
`table/format.cc`: block handles, the footer, and `ReadBlock`. The magic number of `table/format.h`, the
compression types of `options.h`, `crc32c` and the snappy port are not in the repository; they are
parameters.
-/

namespace LevelDbProofs.Format

open LevelDbProofs.Util

structure BlockHandle where
  offset : UInt64
  size : UInt64
  deriving DecidableEq, Repr

def kMaxEncodedLength : Nat := 10 + 10

def BlockHandle.encodeTo (h : BlockHandle) (dst : Bytes) : Bytes :=
  putVarint64 (putVarint64 dst h.offset) h.size

def BlockHandle.decodeFrom (h : BlockHandle) (input : Bytes) : Status × BlockHandle × Bytes :=
  match getVarint64 input with
  | none => (.corruption "bad block handle", h, input)
  | some (offset, input) =>
    match getVarint64 input with
    | none => (.corruption "bad block handle", { h with offset }, input)
    | some (size, input) => (.ok, ⟨offset, size⟩, input)

structure Footer where
  metaindexHandle : BlockHandle
  indexHandle : BlockHandle
  deriving DecidableEq, Repr

def kEncodedLength : Nat := 2 * kMaxEncodedLength + 8

section Magic

variable (kTableMagicNumber : UInt64)

def Footer.encodeTo (f : Footer) (dst : Bytes) : Bytes :=
  let dst := f.indexHandle.encodeTo (f.metaindexHandle.encodeTo dst)
  let dst := resize dst (2 * kMaxEncodedLength)
  putFixed32 (putFixed32 dst (UInt32.ofNat (kTableMagicNumber.toNat % 2 ^ 32)))
    (UInt32.ofNat (kTableMagicNumber.toNat / 2 ^ 32))

def Footer.decodeFrom (f : Footer) (input : Bytes) : Option (Status × Footer × Bytes) :=
  if input.length < kEncodedLength then none
  else
    let magicLo := decodeFixed32 (input.drop (kEncodedLength - 8))
    let magicHi := decodeFixed32 (input.drop (kEncodedLength - 4))
    if UInt64.ofNat (magicHi.toNat * 2 ^ 32 + magicLo.toNat) ≠ kTableMagicNumber then
      some (.corruption "not an sstable (bad magic number)", f, input)
    else
      let (s, m, rest) := f.metaindexHandle.decodeFrom input
      if s ≠ .ok then some (s, { f with metaindexHandle := m }, rest)
      else
        let (s, i, rest) := f.indexHandle.decodeFrom rest
        if s ≠ .ok then some (s, ⟨m, i⟩, rest)
        else some (.ok, ⟨m, i⟩, input.drop kEncodedLength)

theorem BlockHandle.encodeTo_eq (h : BlockHandle) (dst : Bytes) :
    h.encodeTo dst = dst ++ (encodeVarint64 h.offset ++ encodeVarint64 h.size) := by
  simp [BlockHandle.encodeTo, putVarint64]

theorem BlockHandle.length_encodeTo_nil_le (h : BlockHandle) : (h.encodeTo []).length ≤ kMaxEncodedLength := by
  have ho := length_encodeVarint64_le h.offset
  have hs := length_encodeVarint64_le h.size
  simp only [BlockHandle.encodeTo_eq, List.nil_append, List.length_append, kMaxEncodedLength]
  omega

theorem BlockHandle.decodeFrom_encodeTo (h h0 : BlockHandle) (rest : Bytes) :
    h0.decodeFrom (h.encodeTo [] ++ rest) = (.ok, h, rest) := by
  simp [BlockHandle.decodeFrom, BlockHandle.encodeTo_eq]

theorem Footer.encodeTo_nil (f : Footer) :
    f.encodeTo kTableMagicNumber [] =
      resize (f.metaindexHandle.encodeTo [] ++ f.indexHandle.encodeTo []) 40 ++
        (encodeFixed32 (UInt32.ofNat (kTableMagicNumber.toNat % 2 ^ 32)) ++
          encodeFixed32 (UInt32.ofNat (kTableMagicNumber.toNat / 2 ^ 32))) := by
  have hcat : f.indexHandle.encodeTo (f.metaindexHandle.encodeTo []) =
      f.metaindexHandle.encodeTo [] ++ f.indexHandle.encodeTo [] := by
    simp [BlockHandle.encodeTo_eq]
  simp only [Footer.encodeTo, hcat, putFixed32, List.append_assoc]
  rfl

theorem length_footer_encodeTo_nil (f : Footer) : (f.encodeTo kTableMagicNumber []).length = 48 := by
  simp [Footer.encodeTo_nil]

theorem Footer.encodeTo_eq (f : Footer) (dst : Bytes) :
    f.encodeTo kTableMagicNumber dst =
      resize (dst ++ (f.metaindexHandle.encodeTo [] ++ f.indexHandle.encodeTo [])) (2 * kMaxEncodedLength) ++
        (encodeFixed32 (UInt32.ofNat (kTableMagicNumber.toNat % 2 ^ 32)) ++
          encodeFixed32 (UInt32.ofNat (kTableMagicNumber.toNat / 2 ^ 32))) := by
  simp [Footer.encodeTo, BlockHandle.encodeTo_eq, putFixed32]

theorem footer_encodeTo_resizes_whole_dst (f : Footer) (dst : Bytes) :
    (f.encodeTo kTableMagicNumber dst).length = kEncodedLength ∧
      ((f.encodeTo kTableMagicNumber dst).length = dst.length + kEncodedLength ↔ dst = []) ∧
      (2 * kMaxEncodedLength ≤ dst.length →
        (f.encodeTo kTableMagicNumber dst).take (2 * kMaxEncodedLength) = dst.take (2 * kMaxEncodedLength)) := by
  have hlen : (f.encodeTo kTableMagicNumber dst).length = kEncodedLength := by
    simp [Footer.encodeTo_eq, kEncodedLength]
  refine ⟨hlen, by rw [hlen, List.length_eq_zero.symm]; omega, fun hd => ?_⟩
  rw [Footer.encodeTo_eq, List.take_left' (length_resize _ _), resize, List.take_append_of_le_length hd,
    Nat.sub_eq_zero_of_le (by simp only [List.length_append]; omega), List.replicate_zero, List.append_nil]

theorem magic_split (m : UInt64) :
    UInt64.ofNat ((UInt32.ofNat (m.toNat / 2 ^ 32)).toNat * 2 ^ 32 + (UInt32.ofNat (m.toNat % 2 ^ 32)).toNat) = m := by
  have hm := uint64_toNat_lt m
  apply UInt64.toNat.inj
  simp only [uint64_toNat_ofNat, uint32_toNat_ofNat]
  omega

theorem magic_join (m : UInt64) (lo hi : UInt32) (h : UInt64.ofNat (hi.toNat * 2 ^ 32 + lo.toNat) = m) :
    lo = UInt32.ofNat (m.toNat % 2 ^ 32) ∧ hi = UInt32.ofNat (m.toNat / 2 ^ 32) := by
  have hlo := uint32_toNat_lt lo
  have hhi := uint32_toNat_lt hi
  have hn := congrArg UInt64.toNat h
  simp only [uint64_toNat_ofNat] at hn
  constructor <;> apply UInt32.toNat.inj <;> simp only [uint32_toNat_ofNat] <;> omega

theorem encodeFixed32_decodeFixed32 (p : Bytes) (h : 4 ≤ p.length) :
    encodeFixed32 (decodeFixed32 p) = p.take 4 := by
  have hl : (p.take 4).length = 4 := by simp; omega
  have hd := decodeFixed_lt (p.take 4)
  rw [hl] at hd
  simp only [encodeFixed32, decodeFixed32, uint32_toNat_ofNat, Nat.mod_eq_of_lt (by omega : decodeFixed (p.take 4) < 2 ^ 32)]
  simpa only [hl] using encodeFixed_decodeFixed (p.take 4)

theorem Footer.decodeFrom_encodeTo (f f0 : Footer) (rest : Bytes) :
    f0.decodeFrom kTableMagicNumber (f.encodeTo kTableMagicNumber [] ++ rest) = some (.ok, f, rest) := by
  have hm := f.metaindexHandle.length_encodeTo_nil_le
  have hi := f.indexHandle.length_encodeTo_nil_le
  have hle : (f.metaindexHandle.encodeTo [] ++ f.indexHandle.encodeTo []).length ≤ 40 := by
    simp only [List.length_append, kMaxEncodedLength] at hm hi ⊢; omega
  have hlen := length_footer_encodeTo_nil kTableMagicNumber f
  have hlo : (f.encodeTo kTableMagicNumber [] ++ rest).drop (kEncodedLength - 8) =
      encodeFixed32 (UInt32.ofNat (kTableMagicNumber.toNat % 2 ^ 32)) ++
        (encodeFixed32 (UInt32.ofNat (kTableMagicNumber.toNat / 2 ^ 32)) ++ rest) := by
    rw [Footer.encodeTo_nil, List.append_assoc]
    exact List.drop_left' (length_resize _ _)
  have hhi : (f.encodeTo kTableMagicNumber [] ++ rest).drop (kEncodedLength - 4) =
      encodeFixed32 (UInt32.ofNat (kTableMagicNumber.toNat / 2 ^ 32)) ++ rest := by
    rw [show kEncodedLength - 4 = (kEncodedLength - 8) + 4 from rfl, ← List.drop_drop, hlo]
    exact List.drop_left' (length_encodeFixed32 _)
  have hdrop : (f.encodeTo kTableMagicNumber [] ++ rest).drop kEncodedLength = rest :=
    List.drop_left' hlen
  have hbody : f.encodeTo kTableMagicNumber [] ++ rest = f.metaindexHandle.encodeTo [] ++
      (f.indexHandle.encodeTo [] ++ (List.replicate (40 - (f.metaindexHandle.encodeTo [] ++
        f.indexHandle.encodeTo []).length) 0 ++ (encodeFixed32 (UInt32.ofNat (kTableMagicNumber.toNat % 2 ^ 32)) ++
          encodeFixed32 (UInt32.ofNat (kTableMagicNumber.toNat / 2 ^ 32))) ++ rest)) := by
    rw [Footer.encodeTo_nil, resize_of_le _ _ hle]
    simp only [List.append_assoc]
  have hnot : ¬ (f.encodeTo kTableMagicNumber [] ++ rest).length < kEncodedLength := by
    simp only [List.length_append, hlen, kEncodedLength, kMaxEncodedLength]; omega
  unfold Footer.decodeFrom
  rw [if_neg hnot]
  dsimp only
  rw [hlo, hhi, decodeFixed32_encodeFixed32, decodeFixed32_encodeFixed32, magic_split, hdrop, hbody,
    BlockHandle.decodeFrom_encodeTo]
  simp only [ne_eq, not_true_eq_false, if_false]
  rw [BlockHandle.decodeFrom_encodeTo]
  simp only [ne_eq, not_true_eq_false, if_false]

theorem Footer.magic_of_decodeFrom_ok (f0 f : Footer) (input rest : Bytes)
    (h : f0.decodeFrom kTableMagicNumber input = some (.ok, f, rest)) :
    (input.drop 40).take 8 = encodeFixed32 (UInt32.ofNat (kTableMagicNumber.toNat % 2 ^ 32)) ++
      encodeFixed32 (UInt32.ofNat (kTableMagicNumber.toNat / 2 ^ 32)) := by
  unfold Footer.decodeFrom at h
  have hl : ¬ input.length < kEncodedLength := by
    intro hl; simp [hl] at h
  have hm : UInt64.ofNat ((decodeFixed32 (input.drop (kEncodedLength - 4))).toNat * 2 ^ 32 +
      (decodeFixed32 (input.drop (kEncodedLength - 8))).toNat) = kTableMagicNumber := by
    by_contra hm
    simp only [if_neg hl, ne_eq, hm, not_false_eq_true, if_true] at h
    simp at h
  obtain ⟨hlo, hhi⟩ := magic_join _ _ _ hm
  have h8 : (input.drop 40).take 8 = (input.drop 40).take 4 ++ (input.drop 44).take 4 := by
    rw [show 8 = 4 + 4 from rfl, List.take_add, List.drop_drop]
  simp only [kEncodedLength, kMaxEncodedLength] at hl
  rw [h8, ← encodeFixed32_decodeFixed32 _ (by simp; omega), ← encodeFixed32_decodeFixed32 (input.drop 44) (by simp; omega),
    ← hlo, ← hhi]
  rfl

theorem footer_encoding_round_trip :
    (∀ (h h0 : BlockHandle) (rest : Bytes), h0.decodeFrom (h.encodeTo [] ++ rest) = (.ok, h, rest)) ∧
    (∀ (f f0 : Footer) (rest : Bytes), (f.encodeTo kTableMagicNumber []).length = 48 ∧
      f0.decodeFrom kTableMagicNumber (f.encodeTo kTableMagicNumber [] ++ rest) = some (.ok, f, rest)) ∧
    (∀ (f0 f : Footer) (input rest : Bytes), 48 ≤ input.length →
      f0.decodeFrom kTableMagicNumber input = some (.ok, f, rest) →
      (input.drop 40).take 8 = encodeFixed32 (UInt32.ofNat (kTableMagicNumber.toNat % 2 ^ 32)) ++
        encodeFixed32 (UInt32.ofNat (kTableMagicNumber.toNat / 2 ^ 32))) :=
  ⟨BlockHandle.decodeFrom_encodeTo,
    fun f f0 rest => ⟨length_footer_encodeTo_nil kTableMagicNumber f, Footer.decodeFrom_encodeTo kTableMagicNumber f f0 rest⟩,
    fun f0 f input rest _ h => Footer.magic_of_decodeFrom_ok kTableMagicNumber f0 f input rest h⟩

end Magic

def kBlockTrailerSize : Nat := 5

structure Port where
  kNoCompression : UInt8
  kSnappyCompression : UInt8
  crc32cValue : Bytes → UInt32
  crc32cUnmask : UInt32 → UInt32
  snappyGetUncompressedLength : Bytes → Option Nat
  /-- The `ulength` bytes that `Snappy_Uncompress` writes into its buffer, or `none` on failure. -/
  snappyUncompress : Bytes → Nat → Option Bytes

structure ReadOptions where
  verifyChecksums : Bool

structure BlockContents where
  data : Bytes := []
  cachable : Bool := false
  heapAllocated : Bool := false
  deriving DecidableEq, Repr

structure ReadResult where
  status : Status
  contents : Bytes
  inScratch : Bool

structure RandomAccessFile where
  read : UInt64 → Nat → ReadResult

def slice? (data : Bytes) (start n : Nat) : Option Bytes :=
  if start + n ≤ data.length then some ((data.drop start).take n) else none

def uncompressBlock (port : Port) (t : UInt8) (block : Bytes) (inScratch : Bool) : Status × BlockContents :=
  if t = port.kNoCompression then
    (.ok, if inScratch then ⟨block, true, true⟩ else ⟨block, false, false⟩)
  else if t = port.kSnappyCompression then
    match port.snappyGetUncompressedLength block with
    | none => (.corruption "corrupted compressed block contents", {})
    | some ulength =>
      match port.snappyUncompress block ulength with
      | none => (.corruption "corrupted compressed block contents", {})
      | some ubuf => (.ok, ⟨ubuf, true, true⟩)
  else (.corruption "bad block type", {})

def readBlock (port : Port) (file : RandomAccessFile) (options : ReadOptions) (handle : BlockHandle) :
    Option (Status × BlockContents) := do
  let n := handle.size.toNat
  let r := file.read handle.offset ((n + kBlockTrailerSize) % 2 ^ 64)
  if r.status ≠ .ok then return (r.status, {})
  if r.contents.length ≠ (n + kBlockTrailerSize) % 2 ^ 64 then
    return (.corruption "truncated block read", {})
  let data := r.contents
  if options.verifyChecksums then
    let crc ← slice? data ((n + 1) % 2 ^ 64) 4
    let covered ← slice? data 0 ((n + 1) % 2 ^ 64)
    if port.crc32cValue covered ≠ port.crc32cUnmask (decodeFixed32 crc) then
      return (.corruption "block checksum mismatch", {})
  let t ← data[n]?
  return uncompressBlock port t (data.take n) r.inScratch

theorem readBlock_isSome (port : Port) (file : RandomAccessFile) (options : ReadOptions) (handle : BlockHandle)
    (h : handle.size.toNat + kBlockTrailerSize < 2 ^ 64) : (readBlock port file options handle).isSome := by
  have hn : (handle.size.toNat + kBlockTrailerSize) % 2 ^ 64 = handle.size.toNat + 5 := Nat.mod_eq_of_lt h
  have hn1 : (handle.size.toNat + 1) % 2 ^ 64 = handle.size.toNat + 1 := by
    simp only [kBlockTrailerSize] at h; exact Nat.mod_eq_of_lt (by omega)
  unfold readBlock
  simp only [hn, hn1]
  generalize file.read handle.offset (handle.size.toNat + 5) = r
  obtain ⟨st, data, sc⟩ := r
  by_cases hs : st = .ok
  swap; · simp [hs]
  by_cases hl : data.length = handle.size.toNat + 5
  swap; · simp [hs, hl]
  have hget : data[handle.size.toNat]? = some data[handle.size.toNat] := List.getElem?_eq_getElem (by omega)
  cases options.verifyChecksums
  · simp [hs, hl, hget]
  · have h5 : handle.size.toNat + 1 + 4 ≤ handle.size.toNat + 5 := by omega
    have h1 : 0 + (handle.size.toNat + 1) ≤ handle.size.toNat + 5 := by omega
    simp only [hs, hl, hget, slice?, if_true, h5, h1, ne_eq, not_true_eq_false, if_false]
    simp only [pure, bind, Option.bind]
    split <;> rfl

theorem readBlock_truncated_wrap (port : Port) (options : ReadOptions) (offset : UInt64) (inScratch : Bool) :
    readBlock port ⟨fun _ _ => ⟨.ok, [], inScratch⟩⟩ options ⟨offset, UInt64.ofNat (2 ^ 64 - 5)⟩ = none := by
  have hn : (UInt64.ofNat (2 ^ 64 - 5)).toNat = 2 ^ 64 - 5 := rfl
  have hw : (2 ^ 64 - 5 + kBlockTrailerSize) % 2 ^ 64 = 0 := rfl
  have hw1 : (2 ^ 64 - 5 + 1) % 2 ^ 64 = 2 ^ 64 - 4 := rfl
  simp only [readBlock, hn, hw, hw1, ne_eq, not_true_eq_false, if_false, List.length_nil, List.getElem?_nil,
    not_false_eq_true, slice?]
  cases options.verifyChecksums <;> rfl

section Read

variable (port : Port)

theorem uncompressBlock_spec (t : UInt8) (block : Bytes) (inScratch : Bool) :
    ((uncompressBlock port t block inScratch).1 = .ok ↔ t = port.kNoCompression ∨
      (t = port.kSnappyCompression ∧ ∃ ulength ubuf, port.snappyGetUncompressedLength block = some ulength ∧
        port.snappyUncompress block ulength = some ubuf)) ∧
    ((uncompressBlock port t block inScratch).1 = .ok →
      (t = port.kNoCompression → (uncompressBlock port t block inScratch).2.data = block) ∧
      (t ≠ port.kNoCompression → ∃ ulength, port.snappyGetUncompressedLength block = some ulength ∧
        port.snappyUncompress block ulength = some (uncompressBlock port t block inScratch).2.data) ∧
      (uncompressBlock port t block inScratch).2.cachable = (uncompressBlock port t block inScratch).2.heapAllocated) ∧
    ((uncompressBlock port t block inScratch).1 ≠ .ok →
      (∃ msg, (uncompressBlock port t block inScratch).1 = .corruption msg) ∧
        (uncompressBlock port t block inScratch).2 = {}) := by
  unfold uncompressBlock
  by_cases h0 : t = port.kNoCompression
  · cases inScratch <;> simp [h0]
  by_cases h1 : t = port.kSnappyCompression
  · rcases hl : port.snappyGetUncompressedLength block with _ | ulength
    · simp [h0, eq_true h1, hl]
    rcases hu : port.snappyUncompress block ulength with _ | ubuf <;> simp [h0, eq_true h1, hl, hu]
  · simp [h0, h1]

theorem readBlock_eq (file : RandomAccessFile) (options : ReadOptions) (handle : BlockHandle)
    (h : handle.size.toNat + kBlockTrailerSize < 2 ^ 64) {r : ReadResult}
    (hr : file.read handle.offset (handle.size.toNat + kBlockTrailerSize) = r) :
    readBlock port file options handle =
      let n := handle.size.toNat
      some (if r.status ≠ .ok then (r.status, {})
        else if r.contents.length ≠ n + kBlockTrailerSize then (.corruption "truncated block read", {})
        else if options.verifyChecksums = true ∧ port.crc32cValue (r.contents.take (n + 1)) ≠
            port.crc32cUnmask (decodeFixed32 ((r.contents.drop (n + 1)).take 4)) then
          (.corruption "block checksum mismatch", {})
        else uncompressBlock port (r.contents.getD n 0) (r.contents.take n) r.inScratch) := by
  have hn : (handle.size.toNat + kBlockTrailerSize) % 2 ^ 64 = handle.size.toNat + kBlockTrailerSize :=
    Nat.mod_eq_of_lt h
  have hn1 : (handle.size.toNat + 1) % 2 ^ 64 = handle.size.toNat + 1 := by
    simp only [kBlockTrailerSize] at h; exact Nat.mod_eq_of_lt (by omega)
  unfold readBlock
  simp only [hn, hn1]
  rw [hr]
  obtain ⟨st, data, sc⟩ := r
  by_cases hs : st = .ok
  swap; · simp [hs]
  by_cases hl : data.length = handle.size.toNat + kBlockTrailerSize
  swap; · simp [hs, hl]
  have hget : data[handle.size.toNat]? = some (data.getD handle.size.toNat 0) := by
    rw [List.getD_eq_getElem?_getD, List.getElem?_eq_getElem (by simp only [kBlockTrailerSize] at hl; omega)]; rfl
  have h5 : handle.size.toNat + 1 + 4 ≤ handle.size.toNat + kBlockTrailerSize := by simp [kBlockTrailerSize]
  have h1 : 0 + (handle.size.toNat + 1) ≤ handle.size.toNat + kBlockTrailerSize := by simp [kBlockTrailerSize]
  cases options.verifyChecksums
  · simp only [hs, hl, hget, ne_eq, not_true_eq_false, if_false, Bool.false_eq_true, false_and]
    rfl
  · simp only [hs, hl, hget, slice?, if_pos h5, if_pos h1, ne_eq, not_true_eq_false, if_false, List.drop_zero, true_and]
    simp only [pure, bind, Option.bind]
    exact (apply_ite some _ _ _).symm

theorem read_block_ok_iff (file : RandomAccessFile) (options : ReadOptions) (handle : BlockHandle)
    (h : handle.size.toNat + kBlockTrailerSize < 2 ^ 64) :
    let n := handle.size.toNat
    let r := file.read handle.offset (n + kBlockTrailerSize)
    ∃ st res, readBlock port file options handle = some (st, res) ∧
      (st = .ok ↔ r.status = .ok ∧ r.contents.length = n + kBlockTrailerSize ∧
        (options.verifyChecksums = true → port.crc32cValue (r.contents.take (n + 1)) =
          port.crc32cUnmask (decodeFixed32 ((r.contents.drop (n + 1)).take 4))) ∧
        (r.contents[n]? = some port.kNoCompression ∨ (r.contents[n]? = some port.kSnappyCompression ∧
          ∃ ulength ubuf, port.snappyGetUncompressedLength (r.contents.take n) = some ulength ∧
            port.snappyUncompress (r.contents.take n) ulength = some ubuf))) ∧
      (st = .ok → (r.contents[n]? = some port.kNoCompression → res.data = r.contents.take n) ∧
        (r.contents[n]? ≠ some port.kNoCompression → ∃ ulength,
          port.snappyGetUncompressedLength (r.contents.take n) = some ulength ∧
            port.snappyUncompress (r.contents.take n) ulength = some res.data) ∧
        res.cachable = res.heapAllocated) ∧
      (st ≠ .ok → (st = r.status ∨ ∃ msg, st = .corruption msg) ∧ res = {}) := by
  intro n r
  rw [@readBlock_eq port file options handle h r rfl]
  dsimp only
  by_cases hs : r.status = .ok
  swap
  · rw [if_pos hs]
    exact ⟨_, _, rfl, iff_of_false hs fun h' => hs h'.1, fun h' => absurd h' hs, fun _ => ⟨.inl rfl, rfl⟩⟩
  rw [if_neg (not_not.2 hs)]
  by_cases hl : r.contents.length = handle.size.toNat + kBlockTrailerSize
  swap
  · rw [if_pos hl]
    exact ⟨_, _, rfl, iff_of_false (by simp) fun h' => hl h'.2.1, fun h' => absurd h' (by simp),
      fun _ => ⟨.inr ⟨_, rfl⟩, rfl⟩⟩
  rw [if_neg (not_not.2 hl)]
  by_cases hc : options.verifyChecksums = true ∧ port.crc32cValue (r.contents.take (handle.size.toNat + 1)) ≠
      port.crc32cUnmask (decodeFixed32 ((r.contents.drop (handle.size.toNat + 1)).take 4))
  · rw [if_pos hc]
    exact ⟨_, _, rfl, iff_of_false (by simp) fun h' => hc.2 (h'.2.2.1 hc.1), fun h' => absurd h' (by simp),
      fun _ => ⟨.inr ⟨_, rfl⟩, rfl⟩⟩
  rw [if_neg hc]
  have hget : r.contents[n]? = some (r.contents.getD n 0) := by
    rw [List.getD_eq_getElem?_getD, List.getElem?_eq_getElem (by simp only [kBlockTrailerSize] at hl; omega)]; rfl
  have hcrc : options.verifyChecksums = true → port.crc32cValue (r.contents.take (n + 1)) =
      port.crc32cUnmask (decodeFixed32 ((r.contents.drop (n + 1)).take 4)) := fun hv => not_not.1 fun h' => hc ⟨hv, h'⟩
  obtain ⟨hiff, hok, herr⟩ := uncompressBlock_spec port (r.contents.getD n 0) (r.contents.take n) r.inScratch
  refine ⟨_, _, rfl, ?_⟩
  simp only [hget, Option.some.injEq, ne_eq]
  exact ⟨hiff.trans ⟨fun h' => ⟨hs, hl, hcrc, h'⟩, fun h' => h'.2.2.2⟩, hok, fun h' => ⟨.inr (herr h').1, (herr h').2⟩⟩

theorem read_block_ok_iff_one_byte :
    let port : Port := ⟨0, 1, fun _ => 0, id, fun _ => none, fun _ _ => none⟩
    let file : RandomAccessFile := ⟨fun _ _ => ⟨.ok, [9, 0, 0, 0, 0, 0], true⟩⟩
    let options : ReadOptions := ⟨true⟩
    let handle : BlockHandle := ⟨0, 1⟩
    handle.size.toNat + kBlockTrailerSize < 2 ^ 64 ∧
    let n := handle.size.toNat
    let r := file.read handle.offset (n + kBlockTrailerSize)
    ∃ st res, readBlock port file options handle = some (st, res) ∧
      (st = .ok ↔ r.status = .ok ∧ r.contents.length = n + kBlockTrailerSize ∧
        (options.verifyChecksums = true → port.crc32cValue (r.contents.take (n + 1)) =
          port.crc32cUnmask (decodeFixed32 ((r.contents.drop (n + 1)).take 4))) ∧
        (r.contents[n]? = some port.kNoCompression ∨ (r.contents[n]? = some port.kSnappyCompression ∧
          ∃ ulength ubuf, port.snappyGetUncompressedLength (r.contents.take n) = some ulength ∧
            port.snappyUncompress (r.contents.take n) ulength = some ubuf))) ∧
      (st = .ok → (r.contents[n]? = some port.kNoCompression → res.data = r.contents.take n) ∧
        (r.contents[n]? ≠ some port.kNoCompression → ∃ ulength,
          port.snappyGetUncompressedLength (r.contents.take n) = some ulength ∧
            port.snappyUncompress (r.contents.take n) ulength = some res.data) ∧
        res.cachable = res.heapAllocated) ∧
      (st ≠ .ok → (st = r.status ∨ ∃ msg, st = .corruption msg) ∧ res = {}) := by
  intro port file options handle
  exact ⟨by decide, read_block_ok_iff port file options handle (by decide)⟩

end Read

end LevelDbProofs.Format
