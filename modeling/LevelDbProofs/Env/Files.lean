import LevelDbProofs.Env.Mmap
import LevelDbProofs.Block

/-!
The files of `util/env_posix.cc` and the calls of `PosixEnv` on paths. What the system answers is an
argument; `pread` on a regular file answers as Linux's does.
-/

namespace LevelDbProofs.Env

open LevelDbProofs.Util LevelDbProofs.Format

section Paths

variable (strerror : Nat → String)

def pathStatus {α : Type} (path : String) : Except Nat α → Status
  | .error err => ioError strerror path err
  | .ok _ => .ok

def deleteFile (fname : String) (unlink : Except Nat Unit) : Status := pathStatus strerror fname unlink

def createDir (name : String) (mkdir : Except Nat Unit) : Status := pathStatus strerror name mkdir

def deleteDir (name : String) (rmdir : Except Nat Unit) : Status := pathStatus strerror name rmdir

def renameFile (src _target : String) (rename : Except Nat Unit) : Status := pathStatus strerror src rename

def fileExists (access : Except Nat Unit) : Bool := access matches .ok _

def getFileSize (fname : String) (stat : Except Nat Nat) : Status × UInt64 :=
  match stat with
  | .error err => (ioError strerror fname err, 0)
  | .ok size => (.ok, UInt64.ofNat size)

def getChildren (dir : String) (opendir : Except Nat (List String)) : Status × List String :=
  match opendir with
  | .error err => (ioError strerror dir err, [])
  | .ok names => (.ok, names)

def newLogger (fname : String) (fopen : Except Nat Nat) : Status := pathStatus strerror fname fopen

def getTestDirectory (testTmpdir : Option String) (euid : UInt32) : Status × String :=
  let defaultDir := "/tmp/leveldbtest-" ++
    (if euid.toNat < 2 ^ 31 then (euid.toNat : Int) else euid.toNat - 2 ^ 32).repr
  (.ok, match testTmpdir with
    | some env => if env.isEmpty then defaultDir else env
    | none => defaultDir)

structure PosixSequentialFile where
  filename : String
  file : Nat
  deriving DecidableEq, Repr

def newSequentialFile (fname : String) (fopen : Except Nat Nat) : Status × Option PosixSequentialFile :=
  match fopen with
  | .error err => (ioError strerror fname err, none)
  | .ok file => (.ok, some ⟨fname, file⟩)

def PosixSequentialFile.read (f : PosixSequentialFile) (n : Nat) (fread : Bytes) (feof : Bool) (errno : Nat) :
    Status × Bytes :=
  (if fread.length < n ∧ feof = false then ioError strerror f.filename errno else .ok, fread)

def PosixSequentialFile.skip (f : PosixSequentialFile) (fseek : Except Nat Unit) : Status :=
  pathStatus strerror f.filename fseek

def PosixRandomAccessFile.read (f : PosixRandomAccessFile) (pread : Except Nat Bytes) : Status × Bytes :=
  match pread with
  | .error err => (ioError strerror f.filename err, [])
  | .ok bytes => (.ok, bytes)

def PosixRandomAccessFile.toRandomAccessFile (f : PosixRandomAccessFile)
    (pread : UInt64 → Nat → Except Nat Bytes) : RandomAccessFile :=
  ⟨fun offset n => let r := f.read strerror (pread offset n); ⟨r.1, r.2, true⟩⟩

def maxRwCount : Nat := 0x7ffff000

/-- Linux's `pread` on a regular file: `EINVAL` once `offset + n` passes `2^63 - 1`, else at most
`n` and `maxRwCount` bytes from the offset. -/
def preadOf (einval : Nat) (contents : Bytes) (offset : UInt64) (n : Nat) : Except Nat Bytes :=
  if 2 ^ 63 ≤ offset.toNat + n then .error einval else .ok ((contents.drop offset.toNat).take (min n maxRwCount))

@[simp] theorem ioError_ne_ok (context : String) (err : Nat) : ioError strerror context err ≠ .ok := by
  simp [ioError, Status.ioErrorOf]

theorem pathStatus_eq {α : Type} (path : String) (r : Except Nat α) :
    pathStatus strerror path r = .ok ∨ ∃ err, r = .error err ∧ pathStatus strerror path r = ioError strerror path err := by
  rcases r with err | a
  · exact .inr ⟨err, rfl, rfl⟩
  · exact .inl rfl

theorem PosixRandomAccessFile.read_preadOf (einval : Nat) (f : PosixRandomAccessFile) (contents : Bytes)
    (offset : UInt64) (n : Nat) :
    (f.toRandomAccessFile strerror (preadOf einval contents)).read offset n =
      if 2 ^ 63 ≤ offset.toNat + n then ⟨ioError strerror f.filename einval, [], true⟩
      else ⟨.ok, (contents.drop offset.toNat).take (min n maxRwCount), true⟩ := by
  simp only [toRandomAccessFile, preadOf]
  split_ifs <;> rfl

theorem readBlock_congr (port : Port) {file file' : RandomAccessFile} (options : ReadOptions) (handle : BlockHandle)
    (h : file.read handle.offset ((handle.size.toNat + kBlockTrailerSize) % 2 ^ 64) =
      file'.read handle.offset ((handle.size.toNat + kBlockTrailerSize) % 2 ^ 64)) :
    readBlock port file options handle = readBlock port file' options handle := by
  unfold readBlock
  simp only [h]

def PosixMmapReadableFile.readBlock (port : Port) (einval : Nat) (f : PosixMmapReadableFile) (options : ReadOptions)
    (handle : BlockHandle) : Option (Status × BlockContents) := do
  let r ← f.read strerror einval handle.offset (UInt64.ofNat (handle.size.toNat + kBlockTrailerSize))
  Format.readBlock port ⟨fun _ _ => ⟨r.1, r.2, false⟩⟩ options handle

theorem uncompressBlock_not_inScratch (port : Port) (t : UInt8) (block : Bytes) :
    uncompressBlock port t block false =
      if (uncompressBlock port t block true).1 = .ok ∧ t = port.kNoCompression then
        ((uncompressBlock port t block true).1,
          { (uncompressBlock port t block true).2 with cachable := false, heapAllocated := false })
      else uncompressBlock port t block true := by
  by_cases ht : t = port.kNoCompression <;> simp [uncompressBlock, ht]

theorem readBlock_not_inScratch (port : Port) (st : Status) (bytes : Bytes) (options : ReadOptions)
    (handle : BlockHandle) (h : handle.size.toNat + kBlockTrailerSize < 2 ^ 64) :
    readBlock port ⟨fun _ _ => ⟨st, bytes, false⟩⟩ options handle =
      (readBlock port ⟨fun _ _ => ⟨st, bytes, true⟩⟩ options handle).map fun r =>
        if r.1 = .ok ∧ bytes.getD handle.size.toNat 0 = port.kNoCompression then
          (r.1, { r.2 with cachable := false, heapAllocated := false }) else r := by
  rw [readBlock_eq port _ options handle h rfl, readBlock_eq port _ options handle h rfl]
  simp only [Option.map_some', uncompressBlock_not_inScratch]
  split_ifs <;> simp_all

theorem toNat_offset_add_trailer (handle : BlockHandle) (h : handle.size.toNat + kBlockTrailerSize < 2 ^ 64) :
    (handle.offset + UInt64.ofNat (handle.size.toNat + kBlockTrailerSize)).toNat =
      (handle.offset.toNat + handle.size.toNat + kBlockTrailerSize) % 2 ^ 64 := by
  rw [uint64_toNat_add, uint64_toNat_ofNat, Nat.mod_eq_of_lt h, Nat.add_assoc]

theorem PosixMmapReadableFile.readBlock_inside (port : Port) (einval : Nat) (f : PosixMmapReadableFile)
    (options : ReadOptions) (handle : BlockHandle) (h : handle.size.toNat + kBlockTrailerSize < 2 ^ 64)
    (hlen : f.region.length < 2 ^ 64)
    (hin : handle.offset.toNat + handle.size.toNat + kBlockTrailerSize ≤ f.region.length) :
    f.readBlock strerror port einval options handle = Format.readBlock port
      ⟨fun _ _ => ⟨.ok, (f.region.drop handle.offset.toNat).take (handle.size.toNat + kBlockTrailerSize), false⟩⟩
      options handle := by
  have hn : (UInt64.ofNat (handle.size.toNat + kBlockTrailerSize)).toNat = handle.size.toNat + kBlockTrailerSize :=
    Nat.mod_eq_of_lt h
  have hgt : ¬ (handle.offset + UInt64.ofNat (handle.size.toNat + kBlockTrailerSize)).toNat > f.region.length := by
    rw [toNat_offset_add_trailer handle h, Nat.mod_eq_of_lt (by omega)]; omega
  have hle : handle.offset.toNat + (handle.size.toNat + kBlockTrailerSize) ≤ f.region.length := by omega
  simp only [readBlock, read, if_neg hgt, if_pos hle, hn, Option.bind_eq_bind, Option.some_bind]

theorem PosixMmapReadableFile.readBlock_past_end (port : Port) (einval : Nat) (f : PosixMmapReadableFile)
    (options : ReadOptions) (handle : BlockHandle) (h : handle.size.toNat + kBlockTrailerSize < 2 ^ 64)
    (hout : f.region.length < handle.offset.toNat + handle.size.toNat + kBlockTrailerSize)
    (hfit : handle.offset.toNat + handle.size.toNat + kBlockTrailerSize < 2 ^ 64) :
    f.readBlock strerror port einval options handle = some (ioError strerror f.filename einval, {}) := by
  have hgt : (handle.offset + UInt64.ofNat (handle.size.toNat + kBlockTrailerSize)).toNat > f.region.length := by
    rw [toNat_offset_add_trailer handle h, Nat.mod_eq_of_lt hfit]; exact hout
  simp only [readBlock, read, if_pos hgt, Option.bind_eq_bind, Option.some_bind]
  rw [readBlock_eq port _ options handle h rfl]
  simp

theorem readBlock_preadOf (port : Port) (einval : Nat) (f : PosixRandomAccessFile) (contents : Bytes)
    (options : ReadOptions) (handle : BlockHandle) (h : handle.size.toNat + kBlockTrailerSize < 2 ^ 64)
    (hfit : handle.offset.toNat + handle.size.toNat + kBlockTrailerSize < 2 ^ 63)
    (hcap : handle.size.toNat + kBlockTrailerSize ≤ maxRwCount) :
    readBlock port (f.toRandomAccessFile strerror (preadOf einval contents)) options handle = readBlock port
      ⟨fun _ _ => ⟨.ok, (contents.drop handle.offset.toNat).take (handle.size.toNat + kBlockTrailerSize), true⟩⟩
      options handle :=
  readBlock_congr port options handle (by
    rw [Nat.mod_eq_of_lt h, PosixRandomAccessFile.read_preadOf, if_neg (by omega), Nat.min_eq_left hcap])

theorem readBlock_preadOf_einval (port : Port) (einval : Nat) (f : PosixRandomAccessFile) (contents : Bytes)
    (options : ReadOptions) (handle : BlockHandle) (h : handle.size.toNat + kBlockTrailerSize < 2 ^ 64)
    (hneg : 2 ^ 63 ≤ handle.offset.toNat + handle.size.toNat + kBlockTrailerSize) :
    readBlock port (f.toRandomAccessFile strerror (preadOf einval contents)) options handle =
      some (ioError strerror f.filename einval, {}) := by
  rw [readBlock_eq port _ options handle h rfl, PosixRandomAccessFile.read_preadOf, if_pos (by omega)]
  simp

theorem readBlock_preadOf_short (port : Port) (einval : Nat) (f : PosixRandomAccessFile) (contents : Bytes)
    (options : ReadOptions) (handle : BlockHandle) (h : handle.size.toNat + kBlockTrailerSize < 2 ^ 64)
    (hfit : handle.offset.toNat + handle.size.toNat + kBlockTrailerSize < 2 ^ 63)
    (hshort : contents.length < handle.offset.toNat + handle.size.toNat + kBlockTrailerSize ∨
      maxRwCount < handle.size.toNat + kBlockTrailerSize) :
    readBlock port (f.toRandomAccessFile strerror (preadOf einval contents)) options handle =
      some (.corruption "truncated block read", {}) := by
  have hlen : ((contents.drop handle.offset.toNat).take (min (handle.size.toNat + kBlockTrailerSize) maxRwCount)).length ≠
      handle.size.toNat + kBlockTrailerSize := by
    simp only [List.length_take, List.length_drop, kBlockTrailerSize, maxRwCount] at hshort ⊢
    omega
  rw [readBlock_eq port _ options handle h rfl, PosixRandomAccessFile.read_preadOf, if_neg (by omega)]
  dsimp only
  rw [if_neg (not_not.2 rfl), if_pos hlen]

theorem readBlock_preadOf_past_end (port : Port) (einval : Nat) (f : PosixRandomAccessFile) (contents : Bytes)
    (options : ReadOptions) (handle : BlockHandle) (h : handle.size.toNat + kBlockTrailerSize < 2 ^ 64)
    (hout : contents.length < handle.offset.toNat + handle.size.toNat + kBlockTrailerSize) :
    readBlock port (f.toRandomAccessFile strerror (preadOf einval contents)) options handle =
      some (if 2 ^ 63 ≤ handle.offset.toNat + handle.size.toNat + kBlockTrailerSize then
        ioError strerror f.filename einval else .corruption "truncated block read", {}) := by
  split_ifs with hneg
  · exact readBlock_preadOf_einval strerror port einval f contents options handle h hneg
  · exact readBlock_preadOf_short strerror port einval f contents options handle h (by omega) (.inl hout)

theorem readBlock_stored (port : Port) (options : ReadOptions) (handle : BlockHandle) (B tr : Bytes) (sc : Bool)
    (h : handle.size.toNat + kBlockTrailerSize < 2 ^ 64) (hsz : handle.size.toNat = B.length) (htr : tr.length = 4)
    (hcrc : port.crc32cUnmask (decodeFixed32 tr) = port.crc32cValue (B ++ [port.kNoCompression])) :
    readBlock port ⟨fun _ _ => ⟨.ok, B ++ port.kNoCompression :: tr, sc⟩⟩ options handle =
      some (.ok, if sc then ⟨B, true, true⟩ else ⟨B, false, false⟩) := by
  have hl : (B ++ port.kNoCompression :: tr).length = handle.size.toNat + kBlockTrailerSize := by
    simp [hsz, htr, kBlockTrailerSize]
  have hcov : (B ++ port.kNoCompression :: tr).take (handle.size.toNat + 1) = B ++ [port.kNoCompression] := by
    simp [hsz, List.take_append_eq_append_take]
  have htrailer : ((B ++ port.kNoCompression :: tr).drop (handle.size.toNat + 1)).take 4 = tr := by
    simp [hsz, ← htr]
  have htype : (B ++ port.kNoCompression :: tr).getD handle.size.toNat 0 = port.kNoCompression := by
    rw [List.getD_eq_getElem?_getD, hsz, List.getElem?_append_right (le_refl _), Nat.sub_self,
      List.getElem?_cons_zero, Option.getD_some]
  have hblock : (B ++ port.kNoCompression :: tr).take handle.size.toNat = B := by simp [hsz]
  rw [readBlock_eq port _ options handle h rfl]
  simp only [hl, hcov, htrailer, htype, hblock, hcrc, uncompressBlock, ne_eq, not_true_eq_false, and_false,
    if_false, if_true]

end Paths

theorem posix_pread_read_block (port : Port) (strerror : Nat → String) (einval : Nat) (f : PosixRandomAccessFile)
    (contents : Bytes) (options : ReadOptions) (handle : BlockHandle)
    (h : handle.size.toNat + kBlockTrailerSize < 2 ^ 64) :
    (2 ^ 63 ≤ handle.offset.toNat + handle.size.toNat + kBlockTrailerSize →
      readBlock port (f.toRandomAccessFile strerror (preadOf einval contents)) options handle =
        some (ioError strerror f.filename einval, {})) ∧
    (handle.offset.toNat + handle.size.toNat + kBlockTrailerSize < 2 ^ 63 →
      (contents.length < handle.offset.toNat + handle.size.toNat + kBlockTrailerSize ∨
        maxRwCount < handle.size.toNat + kBlockTrailerSize) →
      readBlock port (f.toRandomAccessFile strerror (preadOf einval contents)) options handle =
        some (.corruption "truncated block read", {})) ∧
    (handle.offset.toNat + handle.size.toNat + kBlockTrailerSize ≤ contents.length →
      handle.offset.toNat + handle.size.toNat + kBlockTrailerSize < 2 ^ 63 →
      handle.size.toNat + kBlockTrailerSize ≤ maxRwCount →
      readBlock port (f.toRandomAccessFile strerror (preadOf einval contents)) options handle =
        readBlock port ⟨fun _ _ => ⟨.ok, (contents.drop handle.offset.toNat).take
          (handle.size.toNat + kBlockTrailerSize), true⟩⟩ options handle) :=
  ⟨readBlock_preadOf_einval strerror port einval f contents options handle h,
    readBlock_preadOf_short strerror port einval f contents options handle h,
    fun _ hfit hcap => readBlock_preadOf strerror port einval f contents options handle h hfit hcap⟩

theorem posix_pread_read_block_past_end :
    let port : Port := ⟨0, 1, fun _ => 0, id, fun _ => none, fun _ _ => none⟩
    let f : PosixRandomAccessFile := ⟨"000005.ldb", 3⟩
    let contents : Bytes := [1, 2, 3]
    let handle : BlockHandle := ⟨1, 1⟩
    handle.size.toNat + kBlockTrailerSize < 2 ^ 64 ∧
    (2 ^ 63 ≤ handle.offset.toNat + handle.size.toNat + kBlockTrailerSize →
      readBlock port (f.toRandomAccessFile (fun _ => "") (preadOf 22 contents)) ⟨true⟩ handle =
        some (ioError (fun _ => "") f.filename 22, {})) ∧
    (handle.offset.toNat + handle.size.toNat + kBlockTrailerSize < 2 ^ 63 →
      (contents.length < handle.offset.toNat + handle.size.toNat + kBlockTrailerSize ∨
        maxRwCount < handle.size.toNat + kBlockTrailerSize) →
      readBlock port (f.toRandomAccessFile (fun _ => "") (preadOf 22 contents)) ⟨true⟩ handle =
        some (.corruption "truncated block read", {})) ∧
    (handle.offset.toNat + handle.size.toNat + kBlockTrailerSize ≤ contents.length →
      handle.offset.toNat + handle.size.toNat + kBlockTrailerSize < 2 ^ 63 →
      handle.size.toNat + kBlockTrailerSize ≤ maxRwCount →
      readBlock port (f.toRandomAccessFile (fun _ => "") (preadOf 22 contents)) ⟨true⟩ handle =
        readBlock port ⟨fun _ _ => ⟨.ok, (contents.drop handle.offset.toNat).take
          (handle.size.toNat + kBlockTrailerSize), true⟩⟩ ⟨true⟩ handle) := by
  intro port f contents handle
  exact ⟨by decide, posix_pread_read_block port (fun _ => "") 22 f contents ⟨true⟩ handle (by decide)⟩

theorem posix_mmap_read_block_matches_pread (port : Port) (strerror : Nat → String) (einval : Nat)
    (fname : String) (fd : Nat) (contents : Bytes) (options : ReadOptions) (handle : BlockHandle)
    (hsize : contents.length < 2 ^ 63) (h : handle.size.toNat + kBlockTrailerSize < 2 ^ 64) :
    (handle.offset.toNat + handle.size.toNat + kBlockTrailerSize ≤ contents.length →
      handle.size.toNat + kBlockTrailerSize ≤ maxRwCount →
      ∃ st b, readBlock port ((⟨fname, fd⟩ : PosixRandomAccessFile).toRandomAccessFile strerror
          (preadOf einval contents)) options handle = some (st, b) ∧
        (⟨fname, contents⟩ : PosixMmapReadableFile).readBlock strerror port einval options handle =
          some (st, if st = .ok ∧ contents.getD (handle.offset.toNat + handle.size.toNat) 0 = port.kNoCompression
            then { b with cachable := false, heapAllocated := false } else b)) ∧
    (handle.offset.toNat + handle.size.toNat + kBlockTrailerSize ≤ contents.length →
      maxRwCount < handle.size.toNat + kBlockTrailerSize →
      readBlock port ((⟨fname, fd⟩ : PosixRandomAccessFile).toRandomAccessFile strerror
          (preadOf einval contents)) options handle = some (.corruption "truncated block read", {}) ∧
        (⟨fname, contents⟩ : PosixMmapReadableFile).readBlock strerror port einval options handle =
          readBlock port ⟨fun _ _ => ⟨.ok, (contents.drop handle.offset.toNat).take
            (handle.size.toNat + kBlockTrailerSize), false⟩⟩ options handle) ∧
    (contents.length < handle.offset.toNat + handle.size.toNat + kBlockTrailerSize →
      handle.offset.toNat + handle.size.toNat + kBlockTrailerSize < 2 ^ 64 →
      (⟨fname, contents⟩ : PosixMmapReadableFile).readBlock strerror port einval options handle =
          some (ioError strerror fname einval, {}) ∧
        readBlock port ((⟨fname, fd⟩ : PosixRandomAccessFile).toRandomAccessFile strerror
          (preadOf einval contents)) options handle =
          some (if 2 ^ 63 ≤ handle.offset.toNat + handle.size.toNat + kBlockTrailerSize then
            ioError strerror fname einval else .corruption "truncated block read", {})) := by
  refine ⟨fun hin hcap => ?_, fun hin hbig =>
    ⟨readBlock_preadOf_short strerror port einval _ contents options handle h (by omega) (.inr hbig),
      PosixMmapReadableFile.readBlock_inside strerror port einval _ options handle h (by dsimp only; omega) hin⟩,
    fun hout hfit => ⟨PosixMmapReadableFile.readBlock_past_end strerror port einval _ options handle h hout hfit,
      readBlock_preadOf_past_end strerror port einval _ contents options handle h hout⟩⟩
  have hbyte : ((contents.drop handle.offset.toNat).take (handle.size.toNat + kBlockTrailerSize)).getD
      handle.size.toNat 0 = contents.getD (handle.offset.toNat + handle.size.toNat) 0 := by
    simp [List.getElem?_take_of_lt (show handle.size.toNat < handle.size.toNat + kBlockTrailerSize by
      simp [kBlockTrailerSize]), List.getElem?_drop]
  obtain ⟨⟨st, b⟩, hb⟩ := Option.isSome_iff_exists.1 (readBlock_isSome port
    ⟨fun _ _ => ⟨.ok, (contents.drop handle.offset.toNat).take (handle.size.toNat + kBlockTrailerSize), true⟩⟩
    options handle h)
  rw [readBlock_preadOf strerror port einval _ contents options handle h (by omega) hcap,
    PosixMmapReadableFile.readBlock_inside strerror port einval _ options handle h (by dsimp only; omega) hin]
  dsimp only
  rw [readBlock_not_inScratch port _ _ options handle h, hbyte, hb, Option.map_some']
  exact ⟨st, b, rfl, by split_ifs <;> rfl⟩

theorem posix_mmap_read_block_matches_pread_one_byte :
    let port : Port := ⟨0, 1, fun _ => 0, id, fun _ => none, fun _ _ => none⟩
    let contents : Bytes := [7, 0, 0, 0, 0, 0]
    let handle : BlockHandle := ⟨0, 1⟩
    contents.length < 2 ^ 63 ∧ handle.size.toNat + kBlockTrailerSize < 2 ^ 64 ∧
    (handle.offset.toNat + handle.size.toNat + kBlockTrailerSize ≤ contents.length →
      handle.size.toNat + kBlockTrailerSize ≤ maxRwCount →
      ∃ st b, readBlock port ((⟨"000005.ldb", 3⟩ : PosixRandomAccessFile).toRandomAccessFile (fun _ => "")
          (preadOf 22 contents)) ⟨true⟩ handle = some (st, b) ∧
        (⟨"000005.ldb", contents⟩ : PosixMmapReadableFile).readBlock (fun _ => "") port 22 ⟨true⟩ handle =
          some (st, if st = .ok ∧ contents.getD (handle.offset.toNat + handle.size.toNat) 0 = port.kNoCompression
            then { b with cachable := false, heapAllocated := false } else b)) ∧
    (handle.offset.toNat + handle.size.toNat + kBlockTrailerSize ≤ contents.length →
      maxRwCount < handle.size.toNat + kBlockTrailerSize →
      readBlock port ((⟨"000005.ldb", 3⟩ : PosixRandomAccessFile).toRandomAccessFile (fun _ => "")
          (preadOf 22 contents)) ⟨true⟩ handle = some (.corruption "truncated block read", {}) ∧
        (⟨"000005.ldb", contents⟩ : PosixMmapReadableFile).readBlock (fun _ => "") port 22 ⟨true⟩ handle =
          readBlock port ⟨fun _ _ => ⟨.ok, (contents.drop handle.offset.toNat).take
            (handle.size.toNat + kBlockTrailerSize), false⟩⟩ ⟨true⟩ handle) ∧
    (contents.length < handle.offset.toNat + handle.size.toNat + kBlockTrailerSize →
      handle.offset.toNat + handle.size.toNat + kBlockTrailerSize < 2 ^ 64 →
      (⟨"000005.ldb", contents⟩ : PosixMmapReadableFile).readBlock (fun _ => "") port 22 ⟨true⟩ handle =
          some (ioError (fun _ => "") "000005.ldb" 22, {}) ∧
        readBlock port ((⟨"000005.ldb", 3⟩ : PosixRandomAccessFile).toRandomAccessFile (fun _ => "")
          (preadOf 22 contents)) ⟨true⟩ handle =
          some (if 2 ^ 63 ≤ handle.offset.toNat + handle.size.toNat + kBlockTrailerSize then
            ioError (fun _ => "") "000005.ldb" 22 else .corruption "truncated block read", {})) := by
  intro port contents handle
  exact ⟨by decide, by decide, posix_mmap_read_block_matches_pread port (fun _ => "") 22 "000005.ldb" 3 contents
    ⟨true⟩ handle (by decide) (by decide)⟩

open Block in
theorem table_block_read_back (port : Port) (strerror : Nat → String) (einval : Nat) (fname : String)
    (fd R : Nat) (kvs : List (Bytes × Bytes)) (B pre tr post : Bytes) (options : ReadOptions) (hR : 1 ≤ R)
    (hkv : ∀ kv ∈ kvs, kv.1.length < 2 ^ 32 ∧ kv.2.length < 2 ^ 32)
    (hfin : ((BlockBuilder.new R).addAll kvs).finish.1 = B) (hB : B.length + kBlockTrailerSize ≤ maxRwCount)
    (htr : tr.length = 4)
    (hcrc : port.crc32cUnmask (decodeFixed32 tr) = port.crc32cValue (B ++ [port.kNoCompression]))
    (hsize : (pre ++ B ++ port.kNoCompression :: tr ++ post).length < 2 ^ 63) :
    readBlock port ((⟨fname, fd⟩ : PosixRandomAccessFile).toRandomAccessFile strerror
        (preadOf einval (pre ++ B ++ port.kNoCompression :: tr ++ post))) options
        ⟨UInt64.ofNat pre.length, UInt64.ofNat B.length⟩ = some (.ok, ⟨B, true, true⟩) ∧
    (⟨fname, pre ++ B ++ port.kNoCompression :: tr ++ post⟩ : PosixMmapReadableFile).readBlock strerror port einval
        options ⟨UInt64.ofNat pre.length, UInt64.ofNat B.length⟩ = some (.ok, ⟨B, false, false⟩) ∧
    (decodeBlock B).map (fun d => d.2.map fun e => (e.key, e.value)) = some kvs := by
  have hlen : (pre ++ B ++ port.kNoCompression :: tr ++ post).length = pre.length + B.length + 5 + post.length := by
    simp [htr]; omega
  have hB5 : B.length + 5 ≤ 0x7ffff000 := hB
  have hoff : (UInt64.ofNat pre.length).toNat = pre.length := by rw [uint64_toNat_ofNat]; omega
  have hsz : (UInt64.ofNat B.length).toNat = B.length := by rw [uint64_toNat_ofNat]; omega
  have h : (UInt64.ofNat B.length).toNat + kBlockTrailerSize < 2 ^ 64 := by rw [hsz, kBlockTrailerSize]; omega
  have hslice : ((pre ++ B ++ port.kNoCompression :: tr ++ post).drop (UInt64.ofNat pre.length).toNat).take
      ((UInt64.ofNat B.length).toNat + kBlockTrailerSize) = B ++ port.kNoCompression :: tr := by
    rw [hoff, hsz, show pre ++ B ++ port.kNoCompression :: tr ++ post = pre ++ ((B ++ port.kNoCompression :: tr) ++ post)
      by simp, List.drop_left, List.take_left' (by simp [htr, kBlockTrailerSize])]
  refine ⟨?_, ?_, ?_⟩
  · rw [readBlock_preadOf strerror port einval _ _ options _ h (by dsimp only; rw [hoff, hsz, kBlockTrailerSize]; omega)
      (by dsimp only; rw [hsz]; exact hB), hslice,
      readBlock_stored port options _ B tr true h hsz htr hcrc, if_pos rfl]
  · rw [PosixMmapReadableFile.readBlock_inside strerror port einval _ options _ h (by dsimp only; omega)
      (by dsimp only; rw [hoff, hsz, hlen, kBlockTrailerSize]; omega)]
    dsimp only
    rw [hslice, readBlock_stored port options _ B tr false h hsz htr hcrc, if_neg Bool.false_ne_true]
  · obtain ⟨q, hq⟩ := BlockInv.addAll_new hR kvs
    rw [← hfin, hq.decodeBlock_finish hkv (by rw [hfin]; omega), Option.map_some',
      blockEntries, map_entriesFrom]

theorem table_block_read_back_one_record :
    let port : Port := ⟨0, 1, fun _ => 0, id, fun _ => none, fun _ _ => none⟩
    let kvs : List (Bytes × Bytes) := [([1], [2])]
    let B := ((Block.BlockBuilder.new 1).addAll kvs).finish.1
    let tr : Bytes := [0, 0, 0, 0]
    1 ≤ 1 ∧ (∀ kv ∈ kvs, kv.1.length < 2 ^ 32 ∧ kv.2.length < 2 ^ 32) ∧
    ((Block.BlockBuilder.new 1).addAll kvs).finish.1 = B ∧ B.length + kBlockTrailerSize ≤ maxRwCount ∧
    tr.length = 4 ∧
    port.crc32cUnmask (decodeFixed32 tr) = port.crc32cValue (B ++ [port.kNoCompression]) ∧
    ([] ++ B ++ port.kNoCompression :: tr ++ []).length < 2 ^ 63 ∧
    readBlock port ((⟨"000005.ldb", 3⟩ : PosixRandomAccessFile).toRandomAccessFile (fun _ => "")
        (preadOf 22 ([] ++ B ++ port.kNoCompression :: tr ++ []))) ⟨true⟩
        ⟨UInt64.ofNat ([] : Bytes).length, UInt64.ofNat B.length⟩ = some (.ok, ⟨B, true, true⟩) ∧
    (⟨"000005.ldb", [] ++ B ++ port.kNoCompression :: tr ++ []⟩ : PosixMmapReadableFile).readBlock (fun _ => "")
        port 22 ⟨true⟩ ⟨UInt64.ofNat ([] : Bytes).length, UInt64.ofNat B.length⟩ = some (.ok, ⟨B, false, false⟩) ∧
    (Block.decodeBlock B).map (fun d => d.2.map fun e => (e.key, e.value)) = some kvs := by
  intro port kvs B tr
  exact ⟨by decide, by decide, rfl, by decide, rfl, by decide, by decide,
    table_block_read_back port (fun _ => "") 22 "000005.ldb" 3 1 kvs B [] tr [] ⟨true⟩ (by decide) (by decide) rfl
      (by decide) rfl (by decide) (by decide)⟩

section Sync

def strrchr : List Char → Char → Option Nat
  | [], _ => none
  | x :: xs, c =>
    match strrchr xs c with
    | some i => some (i + 1)
    | none => if x = c then some 0 else none

def cStr (s : String) : List Char := s.data.takeWhile (· ≠ '\x00')

def splitPath (f : List Char) : List Char × List Char :=
  match strrchr f '/' with
  | none => (".".data, f)
  | some i => (f.take i, f.drop (i + 1))

theorem strrchr_eq_none_iff {s : List Char} {c : Char} : strrchr s c = none ↔ c ∉ s := by
  induction s with
  | nil => exact iff_of_true rfl (List.not_mem_nil c)
  | cons x xs ih =>
    simp only [strrchr, List.mem_cons, not_or]
    rcases hx : strrchr xs c with _ | j
    · by_cases hxc : x = c
      · simp [hxc]
      · simp [hxc, ih.1 hx, Ne.symm hxc]
    · exact iff_of_false (by simp) fun h => by rw [ih.2 h.2] at hx; cases hx

theorem strrchr_some {s : List Char} {c : Char} {i : Nat} (h : strrchr s c = some i) :
    s = s.take i ++ c :: s.drop (i + 1) ∧ c ∉ s.drop (i + 1) := by
  induction s generalizing i with
  | nil => cases h
  | cons x xs ih =>
    simp only [strrchr] at h
    split at h
    · next j hj =>
      cases h
      obtain ⟨h1, h2⟩ := ih hj
      exact ⟨by simp only [List.take_succ_cons, List.drop_succ_cons, List.cons_append]; rw [← h1], h2⟩
    · next hn =>
      split_ifs at h with hx
      cases h
      exact ⟨by simp [hx], by simpa using strrchr_eq_none_iff.1 hn⟩

theorem splitPath_spec (f : List Char) :
    '/' ∉ (splitPath f).2 ∧ ((splitPath f).1 = ".".data ∧ (splitPath f).2 = f ∨
      f = (splitPath f).1 ++ '/' :: (splitPath f).2) := by
  unfold splitPath
  split
  · next h => exact ⟨strrchr_eq_none_iff.1 h, .inl ⟨rfl, rfl⟩⟩
  · next i h => exact ⟨(strrchr_some h).2, .inr (strrchr_some h).1⟩

variable (strerror : Nat → String)

structure PosixWritableFile where
  filename : String
  file : Option Nat
  deriving DecidableEq, Repr

def newWritableFile (fname : String) (fopen : Except Nat Nat) : Status × Option PosixWritableFile :=
  match fopen with
  | .error err => (ioError strerror fname err, none)
  | .ok file => (.ok, some ⟨fname, some file⟩)

namespace PosixWritableFile

def append (f : PosixWritableFile) (data : Bytes) (fwrite : Nat) (errno : Nat) : Option Status :=
  f.file.map fun _ => if fwrite ≠ data.length then ioError strerror f.filename errno else .ok

def close (f : PosixWritableFile) (fclose : Except Nat Unit) : Option (PosixWritableFile × Status) :=
  f.file.map fun _ => ({ f with file := none }, pathStatus strerror f.filename fclose)

def flush (f : PosixWritableFile) (fflush : Except Nat Unit) : Status := pathStatus strerror f.filename fflush

def syncDirIfManifest (f : PosixWritableFile) (openDir : List Char → Except Nat Nat)
    (fsync : Nat → Except Nat Unit) : Status :=
  let (dir, basename) := splitPath (cStr f.filename)
  if "MANIFEST".data.isPrefixOf basename then
    match openDir dir with
    | .error err => ioError strerror (String.mk dir) err
    | .ok fd => pathStatus strerror (String.mk dir) (fsync fd)
  else .ok

def sync (f : PosixWritableFile) (openDir : List Char → Except Nat Nat) (fsync : Nat → Except Nat Unit)
    (fflush : Except Nat Unit) (fdatasync : Nat → Except Nat Unit) : Option Status :=
  let s := f.syncDirIfManifest strerror openDir fsync
  if s ≠ .ok then some s
  else f.file.map fun file =>
    match fflush with
    | .error err => ioError strerror f.filename err
    | .ok () => pathStatus strerror f.filename (fdatasync file)

theorem syncDirIfManifest_eq (f : PosixWritableFile) (openDir : List Char → Except Nat Nat)
    (fsync : Nat → Except Nat Unit) :
    f.syncDirIfManifest strerror openDir fsync =
      if "MANIFEST".data.isPrefixOf (splitPath (cStr f.filename)).2 then
        match openDir (splitPath (cStr f.filename)).1 with
        | .error err => ioError strerror (String.mk (splitPath (cStr f.filename)).1) err
        | .ok fd => pathStatus strerror (String.mk (splitPath (cStr f.filename)).1) (fsync fd)
      else .ok := rfl

end PosixWritableFile

end Sync

open PosixWritableFile in
theorem posix_writable_file_sync (strerror : Nat → String) (f : PosixWritableFile)
    (openDir : List Char → Except Nat Nat) (fsync : Nat → Except Nat Unit) (fflush : Except Nat Unit)
    (fdatasync : Nat → Except Nat Unit) :
    ('/' ∉ (splitPath (cStr f.filename)).2 ∧
      ((splitPath (cStr f.filename)).1 = ".".data ∧ (splitPath (cStr f.filename)).2 = cStr f.filename ∨
        cStr f.filename = (splitPath (cStr f.filename)).1 ++ '/' :: (splitPath (cStr f.filename)).2)) ∧
    (∀ file, f.file = some file →
      (f.sync strerror openDir fsync fflush fdatasync = some .ok ↔
        ("MANIFEST".data.isPrefixOf (splitPath (cStr f.filename)).2 = true →
          ∃ fd, openDir (splitPath (cStr f.filename)).1 = .ok fd ∧ fsync fd = .ok ()) ∧
        fflush = .ok () ∧ fdatasync file = .ok ())) ∧
    ("MANIFEST".data.isPrefixOf (splitPath (cStr f.filename)).2 = true → ∀ err,
      openDir (splitPath (cStr f.filename)).1 = .error err →
        f.sync strerror openDir fsync fflush fdatasync =
          some (ioError strerror (String.mk (splitPath (cStr f.filename)).1) err)) ∧
    (∀ b, cStr f.filename = '/' :: b → '/' ∉ b → (splitPath (cStr f.filename)).1 = []) := by
  refine ⟨splitPath_spec _, fun file hf => ?_, fun hm err he => ?_, fun b hb hnb => ?_⟩
  · simp only [sync, syncDirIfManifest_eq, hf, Option.map_some']
    cases hm : "MANIFEST".data.isPrefixOf (splitPath (cStr f.filename)).2
    · rcases fflush with e | ⟨⟩ <;> rcases hd : fdatasync file with e' | ⟨⟩ <;> simp [pathStatus, hd]
    · rcases openDir (splitPath (cStr f.filename)).1 with e | fd
      · simp
      · rcases hs : fsync fd with e | ⟨⟩ <;> rcases fflush with e' | ⟨⟩ <;>
          rcases hd : fdatasync file with e'' | ⟨⟩ <;> simp [pathStatus, hs, hd]
  · simp [sync, syncDirIfManifest_eq, hm, he]
  · rw [hb]
    simp [splitPath, strrchr, strrchr_eq_none_iff.2 hnb]

end LevelDbProofs.Env
