import Mathlib.Data.List.Perm.Basic
import LevelDbProofs.Util

/-!
`PosixEnv::LockFile` and `UnlockFile` over any interleaving of threads, whatever `open` and `fcntl`
answer.
-/

namespace LevelDbProofs.Env

open LevelDbProofs.Util

def ioError (strerror : Nat → String) (context : String) (errNumber : Nat) : Status :=
  Status.ioErrorOf context (strerror errNumber)

structure PosixFileLock where
  fd : Nat
  name : String
  deriving DecidableEq, Repr

structure LockCall where
  thread : Nat
  fd : Nat
  name : String
  deriving DecidableEq, Repr

structure LockState where
  lockedFiles : List String
  inFlight : List LockCall
  held : List PosixFileLock
  deriving DecidableEq, Repr

namespace LockState

def new : LockState := ⟨[], [], []⟩

def insert (e : LockState) (fname : String) : LockState × Bool :=
  if fname ∈ e.lockedFiles then (e, false) else ({ e with lockedFiles := fname :: e.lockedFiles }, true)

def remove (e : LockState) (fname : String) : LockState := { e with lockedFiles := e.lockedFiles.erase fname }

variable (strerror : Nat → String)

def lockFileBegin (e : LockState) (t : Nat) (fname : String) (openFd : Except Nat Nat) :
    LockState × Option Status :=
  match openFd with
  | .error err => (e, some (ioError strerror fname err))
  | .ok fd =>
    let r := e.insert fname
    if r.2 then ({ r.1 with inFlight := ⟨t, fd, fname⟩ :: r.1.inFlight }, none)
    else (r.1, some (Status.ioErrorOf ("lock " ++ fname) "already held by process"))

def lockFileEnd (e : LockState) (c : LockCall) (fcntlResult : Except Nat Unit) :
    LockState × Status × Option PosixFileLock :=
  let e := { e with inFlight := e.inFlight.erase c }
  match fcntlResult with
  | .error err => (e.remove c.name, ioError strerror ("lock " ++ c.name) err, none)
  | .ok () => ({ e with held := ⟨c.fd, c.name⟩ :: e.held }, .ok, some ⟨c.fd, c.name⟩)

def unlockFile (e : LockState) (lock : PosixFileLock) (fcntlResult : Except Nat Unit) : LockState × Status :=
  ({ e.remove lock.name with held := e.held.erase lock },
    match fcntlResult with
    | .error err => ioError strerror "unlock" err
    | .ok () => .ok)

inductive Step (e : LockState) : LockState → Prop
  | lockFileBegin (t : Nat) (fname : String) (openFd : Except Nat Nat) :
      t ∉ e.inFlight.map LockCall.thread → Step e (e.lockFileBegin strerror t fname openFd).1
  | lockFileEnd (c : LockCall) (r : Except Nat Unit) : c ∈ e.inFlight → Step e (e.lockFileEnd strerror c r).1
  | unlockFile (lock : PosixFileLock) (r : Except Nat Unit) : lock ∈ e.held → Step e (e.unlockFile strerror lock r).1

inductive Reachable : LockState → Prop
  | new : Reachable new
  | step {e e' : LockState} : Reachable e → Step strerror e e' → Reachable e'

def owners (e : LockState) : List String := e.inFlight.map LockCall.name ++ e.held.map PosixFileLock.name

structure Inv (e : LockState) : Prop where
  nodup : e.lockedFiles.Nodup
  perm : e.lockedFiles.Perm e.owners

theorem Inv.new : Inv new := ⟨List.nodup_nil, List.Perm.refl _⟩

section Inv

variable {strerror} {e : LockState}

theorem owners_inFlight_erase {c : LockCall} (hc : c ∈ e.inFlight) :
    e.owners.Perm (c.name :: ({ e with inFlight := e.inFlight.erase c } : LockState).owners) := by
  unfold owners
  exact ((List.perm_cons_erase hc).map LockCall.name).append_right _

theorem owners_held_erase {lock : PosixFileLock} (hl : lock ∈ e.held) :
    e.owners.Perm (lock.name :: ({ e with held := e.held.erase lock } : LockState).owners) := by
  unfold owners
  exact (((List.perm_cons_erase hl).map PosixFileLock.name).append_left _).trans List.perm_middle

theorem Inv.remove {e' : LockState} (h : Inv e) {name : String} (hp : e.owners.Perm (name :: e'.owners))
    (hl : e'.lockedFiles = e.lockedFiles) : Inv (e'.remove name) := by
  have hperm : e.lockedFiles.Perm (name :: e'.owners) := h.perm.trans hp
  refine ⟨?_, ?_⟩
  · show (e'.lockedFiles.erase name).Nodup
    rw [hl]
    exact h.nodup.erase name
  · show (e'.lockedFiles.erase name).Perm e'.owners
    rw [hl]
    simpa using hperm.erase name

theorem Inv.lockFileBegin (h : Inv e) (t : Nat) (fname : String) (openFd : Except Nat Nat) :
    Inv (e.lockFileBegin strerror t fname openFd).1 := by
  unfold LockState.lockFileBegin LockState.insert
  rcases openFd with err | fd
  · exact h
  · by_cases hf : fname ∈ e.lockedFiles
    · simpa [hf] using h
    · simp only [hf, if_false, if_true]
      exact ⟨List.nodup_cons.2 ⟨hf, h.nodup⟩, by simpa [owners] using h.perm⟩

theorem Inv.lockFileEnd (h : Inv e) {c : LockCall} (hc : c ∈ e.inFlight) (r : Except Nat Unit) :
    Inv (e.lockFileEnd strerror c r).1 := by
  unfold LockState.lockFileEnd
  rcases r with err | ⟨⟩
  · exact h.remove (owners_inFlight_erase hc) rfl
  · refine ⟨h.nodup, h.perm.trans ((owners_inFlight_erase hc).trans ?_)⟩
    simp only [owners, List.map_cons]
    exact List.perm_middle.symm

theorem Inv.unlockFile (h : Inv e) {lock : PosixFileLock} (hl : lock ∈ e.held) (r : Except Nat Unit) :
    Inv (e.unlockFile strerror lock r).1 :=
  h.remove (owners_held_erase hl) rfl

theorem Inv.step {e' : LockState} (h : Inv e) (hs : Step strerror e e') : Inv e' := by
  cases hs with
  | lockFileBegin t fname openFd _ => exact h.lockFileBegin t fname openFd
  | lockFileEnd c r hc => exact h.lockFileEnd hc r
  | unlockFile lock r hl => exact h.unlockFile hl r

theorem Reachable.inv (hr : Reachable strerror e) : Inv e := by
  induction hr with
  | new => exact Inv.new
  | step _ hs ih => exact ih.step hs

end Inv

end LockState

end LevelDbProofs.Env
