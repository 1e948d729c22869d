import LevelDbProofs.Format
import LevelDbProofs.Env.Locks

/-!
`MmapLimiter`, `PosixMmapReadableFile` and `NewRandomAccessFile` over any interleaving of threads,
whatever `open`, `stat` and `mmap` answer.
-/

namespace LevelDbProofs.Env

open LevelDbProofs.Util LevelDbProofs.Format

structure MmapLimiter where
  allowed : Int
  deriving DecidableEq, Repr

namespace MmapLimiter

def limit (ptrBytes : Nat) : Int := if 8 ≤ ptrBytes then 1000 else 0

def new (ptrBytes : Nat) : MmapLimiter := ⟨limit ptrBytes⟩

def acquire (l : MmapLimiter) : MmapLimiter × Bool := if l.allowed ≤ 0 then (l, false) else (⟨l.allowed - 1⟩, true)

def release (l : MmapLimiter) : MmapLimiter := ⟨l.allowed + 1⟩

end MmapLimiter

structure PosixMmapReadableFile where
  filename : String
  region : Bytes
  deriving DecidableEq, Repr

structure PosixRandomAccessFile where
  filename : String
  fd : Nat
  deriving DecidableEq, Repr

inductive PosixFile
  | mmap (f : PosixMmapReadableFile)
  | pread (f : PosixRandomAccessFile)
  deriving DecidableEq, Repr

structure MmapCall where
  thread : Nat
  fname : String
  deriving DecidableEq, Repr

structure MmapState where
  limiter : MmapLimiter
  inFlight : List MmapCall
  mapped : List PosixMmapReadableFile
  deriving DecidableEq, Repr

section Files

variable (strerror : Nat → String)

namespace MmapState

def new (ptrBytes : Nat) : MmapState := ⟨MmapLimiter.new ptrBytes, [], []⟩

def newBegin (e : MmapState) (t : Nat) (fname : String) (openFd : Except Nat Nat) :
    MmapState × Option (Status × Option PosixFile) :=
  match openFd with
  | .error err => (e, some (ioError strerror fname err, none))
  | .ok fd =>
    let r := e.limiter.acquire
    if r.2 then ({ e with limiter := r.1, inFlight := ⟨t, fname⟩ :: e.inFlight }, none)
    else (e, some (.ok, some (.pread ⟨fname, fd⟩)))

def newEnd (e : MmapState) (c : MmapCall) (stat : Except Nat Bytes) (mmapResult : Except Nat Unit) :
    MmapState × Status × Option PosixFile :=
  let e := { e with inFlight := e.inFlight.erase c }
  match stat, mmapResult with
  | .error err, _ => ({ e with limiter := e.limiter.release }, ioError strerror c.fname err, none)
  | .ok _, .error err => ({ e with limiter := e.limiter.release }, ioError strerror c.fname err, none)
  | .ok contents, .ok () =>
    ({ e with mapped := ⟨c.fname, contents⟩ :: e.mapped }, .ok, some (.mmap ⟨c.fname, contents⟩))

def destroy (e : MmapState) (f : PosixMmapReadableFile) : MmapState :=
  { e with limiter := e.limiter.release, mapped := e.mapped.erase f }

inductive Step (e : MmapState) : MmapState → Prop
  | newBegin (t : Nat) (fname : String) (openFd : Except Nat Nat) :
      t ∉ e.inFlight.map MmapCall.thread → Step e (e.newBegin strerror t fname openFd).1
  | newEnd (c : MmapCall) (stat : Except Nat Bytes) (mmapResult : Except Nat Unit) :
      c ∈ e.inFlight → Step e (e.newEnd strerror c stat mmapResult).1
  | destroy (f : PosixMmapReadableFile) : f ∈ e.mapped → Step e (e.destroy f)

inductive Reachable (ptrBytes : Nat) : MmapState → Prop
  | new : Reachable ptrBytes (new ptrBytes)
  | step {e e' : MmapState} : Reachable ptrBytes e → Step strerror e e' → Reachable ptrBytes e'

structure Inv (limit : Int) (e : MmapState) : Prop where
  total : e.limiter.allowed + e.inFlight.length + e.mapped.length = limit
  nonneg : 0 ≤ e.limiter.allowed

variable {strerror} {limit : Int} {e : MmapState}

theorem Inv.newBegin (h : Inv limit e) (t : Nat) (fname : String) (openFd : Except Nat Nat) :
    Inv limit (e.newBegin strerror t fname openFd).1 := by
  unfold MmapState.newBegin MmapLimiter.acquire
  rcases openFd with err | fd
  · exact h
  · by_cases ha : e.limiter.allowed ≤ 0
    · simpa [ha] using h
    · simp only [ha, if_false, if_true]
      have := h.total
      exact ⟨by simp only [List.length_cons]; omega, show 0 ≤ e.limiter.allowed - 1 by omega⟩

theorem Inv.newEnd (h : Inv limit e) {c : MmapCall} (hc : c ∈ e.inFlight) (stat : Except Nat Bytes)
    (mmapResult : Except Nat Unit) : Inv limit (e.newEnd strerror c stat mmapResult).1 := by
  have hlen : ((e.inFlight.erase c).length : Int) = e.inFlight.length - 1 := by
    rw [List.length_erase_of_mem hc]
    have := List.length_pos_of_mem hc
    omega
  have ht := h.total
  have hn := h.nonneg
  unfold MmapState.newEnd MmapLimiter.release
  rcases stat with err | contents
  · exact ⟨by simp only; omega, by simp only; omega⟩
  · rcases mmapResult with err | ⟨⟩
    · exact ⟨by simp only; omega, by simp only; omega⟩
    · exact ⟨by simp only [List.length_cons]; omega, hn⟩

theorem Inv.destroy (h : Inv limit e) {f : PosixMmapReadableFile} (hf : f ∈ e.mapped) :
    Inv limit (e.destroy f) := by
  have hlen : ((e.mapped.erase f).length : Int) = e.mapped.length - 1 := by
    rw [List.length_erase_of_mem hf]
    have := List.length_pos_of_mem hf
    omega
  have := h.total
  have := h.nonneg
  exact ⟨by simp only [MmapState.destroy, MmapLimiter.release]; omega,
    by simp only [MmapState.destroy, MmapLimiter.release]; omega⟩

theorem Inv.step {e' : MmapState} (h : Inv limit e) (hs : Step strerror e e') : Inv limit e' := by
  cases hs with
  | newBegin t fname openFd _ => exact h.newBegin t fname openFd
  | newEnd c stat mmapResult hc => exact h.newEnd hc stat mmapResult
  | destroy f hf => exact h.destroy hf

theorem Reachable.inv {ptrBytes : Nat} (hr : Reachable strerror ptrBytes e) :
    Inv (MmapLimiter.limit ptrBytes) e := by
  induction hr with
  | new =>
    refine ⟨by simp [MmapState.new, MmapLimiter.new], ?_⟩
    simp only [MmapState.new, MmapLimiter.new, MmapLimiter.limit]
    split_ifs <;> decide
  | step _ hs ih => exact ih.step hs

end MmapState

def PosixMmapReadableFile.read (einval : Nat) (f : PosixMmapReadableFile) (offset n : UInt64) :
    Option (Status × Bytes) :=
  if (offset + n).toNat > f.region.length then some (ioError strerror f.filename einval, [])
  else if offset.toNat + n.toNat ≤ f.region.length then some (.ok, (f.region.drop offset.toNat).take n.toNat)
  else none

end Files

open MmapState in
theorem posix_env_mmap_limit (strerror : Nat → String) (ptrBytes : Nat) {e : MmapState}
    (hr : e.Reachable strerror ptrBytes) :
    e.limiter.allowed + e.inFlight.length + e.mapped.length = MmapLimiter.limit ptrBytes ∧ 0 ≤ e.limiter.allowed ∧
    (e.mapped.length : Int) ≤ MmapLimiter.limit ptrBytes ∧
    ∀ t fname fd, e.limiter.allowed = 0 →
      e.newBegin strerror t fname (.ok fd) = (e, some (.ok, some (.pread ⟨fname, fd⟩))) := by
  have h := hr.inv
  refine ⟨h.total, h.nonneg, by have := h.total; have := h.nonneg; omega, fun t fname fd h0 => ?_⟩
  simp [MmapState.newBegin, MmapLimiter.acquire, h0]

theorem posix_env_mmap_limit_mapped :
    ∃ e : MmapState, e.Reachable (fun _ => "") 8 ∧ e.limiter.allowed = 998 ∧ e.inFlight = [⟨2, "000007.ldb"⟩] ∧
      e.mapped = [⟨"000005.ldb", [1, 2, 3]⟩] ∧
      (e.limiter.allowed + e.inFlight.length + e.mapped.length = MmapLimiter.limit 8 ∧ 0 ≤ e.limiter.allowed ∧
        (e.mapped.length : Int) ≤ MmapLimiter.limit 8 ∧
        ∀ t fname fd, e.limiter.allowed = 0 →
          e.newBegin (fun _ => "") t fname (.ok fd) = (e, some (.ok, some (.pread ⟨fname, fd⟩)))) := by
  have hr : MmapState.Reachable (fun _ => "") 8 _ :=
    .step (.step (.step .new (.newBegin 1 "000005.ldb" (.ok 3) (by decide)))
      (.newEnd ⟨1, "000005.ldb"⟩ (.ok [1, 2, 3]) (.ok ()) (by decide)))
      (.newBegin 2 "000007.ldb" (.ok 4) (by decide))
  exact ⟨_, hr, by decide, by decide, by decide, posix_env_mmap_limit (fun _ => "") 8 hr⟩

theorem posix_mmap_read_bounds (strerror : Nat → String) (einval : Nat) (f : PosixMmapReadableFile)
    (offset n : UInt64) :
    (offset.toNat + n.toNat ≤ f.region.length →
      f.read strerror einval offset n = some (.ok, (f.region.drop offset.toNat).take n.toNat)) ∧
    (f.region.length < offset.toNat + n.toNat → offset.toNat + n.toNat < 2 ^ 64 →
      f.read strerror einval offset n = some (ioError strerror f.filename einval, [])) ∧
    (f.region.length < 2 ^ 64 → 2 ^ 64 ≤ offset.toNat + n.toNat → offset.toNat + n.toNat - 2 ^ 64 ≤ f.region.length →
      f.read strerror einval offset n = none) ∧
    (f.region.length < 2 ^ 64 → ∃ input h, (⟨0, 0⟩ : BlockHandle).decodeFrom input = (.ok, h, []) ∧
      f.read strerror einval h.offset (h.size + 5) = none) := by
  have hsum : (offset + n).toNat = (offset.toNat + n.toNat) % 2 ^ 64 := uint64_toNat_add offset n
  have ho := uint64_toNat_lt offset
  have hn := uint64_toNat_lt n
  refine ⟨fun hle => ?_, fun hgt hlt => ?_, fun hlen hwrap hle => ?_, fun hlen => ?_⟩
  · have : ¬ (offset + n).toNat > f.region.length := by omega
    simp [PosixMmapReadableFile.read, this, hle]
  · have : (offset + n).toNat > f.region.length := by rw [hsum, Nat.mod_eq_of_lt hlt]; exact hgt
    simp [PosixMmapReadableFile.read, this]
  · have h1 : ¬ (offset + n).toNat > f.region.length := by omega
    have h2 : ¬ offset.toNat + n.toNat ≤ f.region.length := by omega
    simp [PosixMmapReadableFile.read, h1, h2]
  · let h : BlockHandle := ⟨UInt64.ofNat (2 ^ 64 - 5), 0⟩
    refine ⟨h.encodeTo [], h, by simpa using BlockHandle.decodeFrom_encodeTo h ⟨0, 0⟩ [], ?_⟩
    have hwrap : (h.offset + (h.size + 5)).toNat = 0 := by decide
    have hend : h.offset.toNat + (h.size + 5).toNat = 2 ^ 64 := by decide
    rw [PosixMmapReadableFile.read, if_neg (by omega), if_neg (by omega)]

end LevelDbProofs.Env
