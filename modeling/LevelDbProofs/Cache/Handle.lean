import LevelDbProofs.Util

/-!
`LRUHandle` cells of `util/cache.cc`, the heap that holds them, and the deleter calls `Unref` makes.
-/

namespace LevelDbProofs.Cache

open LevelDbProofs.Util

inductive Ptr
  | null
  | head
  | cell (addr : Nat)
  deriving DecidableEq, Repr

structure LRUHandle where
  value : Nat
  deleter : Nat
  nextHash : Ptr
  next : Ptr
  prev : Ptr
  charge : UInt64
  refs : UInt32
  hash : UInt32
  key : Bytes
  deriving DecidableEq, Repr

def LRUHandle.keyOf (h : LRUHandle) (self : Nat) : Option Bytes :=
  if h.next = .cell self then none else some h.key

structure DeleterCall where
  entry : Nat
  deleter : Nat
  key : Bytes
  value : Nat
  deriving DecidableEq, Repr

structure Mem where
  heap : Nat → Option LRUHandle
  nextAddr : Nat
  log : List DeleterCall

def Mem.empty : Mem := ⟨fun _ => none, 0, []⟩

def Mem.malloc (m : Mem) (c : LRUHandle) : Mem × Nat :=
  ({ m with heap := Function.update m.heap m.nextAddr (some c), nextAddr := m.nextAddr + 1 }, m.nextAddr)

def Mem.free (m : Mem) (a : Nat) : Mem := { m with heap := Function.update m.heap a none }

def Mem.modify (m : Mem) (a : Nat) (f : LRUHandle → LRUHandle) : Option Mem :=
  (m.heap a).map fun c => { m with heap := Function.update m.heap a (some (f c)) }

def Mem.Bounded (m : Mem) : Prop := ∀ a, m.heap a ≠ none → a < m.nextAddr

section Mem

variable {m m' : Mem} {a b : Nat} {c : LRUHandle} {f : LRUHandle → LRUHandle}

theorem Mem.modify_eq_some (h : m.heap a = some c) :
    m.modify a f = some { m with heap := Function.update m.heap a (some (f c)) } := by
  simp [Mem.modify, h]

theorem Mem.modify_heap (h : m.modify a f = some m') (b : Nat) :
    m'.heap b = if b = a then (m.heap a).map f else m.heap b := by
  unfold Mem.modify at h
  rcases hc : m.heap a with _ | c
  · simp [hc] at h
  · simp only [hc, Option.map_some', Option.some.injEq] at h
    subst h
    by_cases hb : b = a
    · subst hb; simp
    · simp [hb, Function.update_noteq hb]

theorem Mem.modify_nextAddr (h : m.modify a f = some m') : m'.nextAddr = m.nextAddr := by
  unfold Mem.modify at h
  rcases hc : m.heap a with _ | c <;> simp [hc] at h
  subst h; rfl

theorem Mem.modify_log (h : m.modify a f = some m') : m'.log = m.log := by
  unfold Mem.modify at h
  rcases hc : m.heap a with _ | c <;> simp [hc] at h
  subst h; rfl

theorem Mem.modify_heap_of_ne (h : m.modify a f = some m') (hb : b ≠ a) : m'.heap b = m.heap b := by
  rw [Mem.modify_heap h, if_neg hb]

theorem Mem.modify_map {α : Type} (h : m.modify a f = some m') (g : LRUHandle → α)
    (hg : ∀ c, g (f c) = g c) (b : Nat) : (m'.heap b).map g = (m.heap b).map g := by
  rw [Mem.modify_heap h]
  split
  · subst b; cases m.heap a <;> simp [hg]
  · rfl

theorem Mem.modify_isSome : (m.modify a f).isSome ↔ m.heap a ≠ none := by
  unfold Mem.modify
  rcases m.heap a <;> simp

@[simp] theorem Mem.malloc_heap (c : LRUHandle) (b : Nat) :
    (m.malloc c).1.heap b = if b = m.nextAddr then some c else m.heap b := by
  simp only [Mem.malloc, Function.update_apply]

@[simp] theorem Mem.malloc_snd (c : LRUHandle) : (m.malloc c).2 = m.nextAddr := rfl

@[simp] theorem Mem.malloc_nextAddr (c : LRUHandle) : (m.malloc c).1.nextAddr = m.nextAddr + 1 := rfl

@[simp] theorem Mem.malloc_log (c : LRUHandle) : (m.malloc c).1.log = m.log := rfl

@[simp] theorem Mem.free_heap (b : Nat) : (m.free a).heap b = if b = a then none else m.heap b := by
  simp only [Mem.free, Function.update_apply]

@[simp] theorem Mem.free_nextAddr : (m.free a).nextAddr = m.nextAddr := rfl

@[simp] theorem Mem.free_log : (m.free a).log = m.log := rfl

theorem Mem.Bounded.fresh (hm : m.Bounded) : m.heap m.nextAddr = none := by
  by_contra h
  exact absurd (hm _ h) (Nat.lt_irrefl _)

theorem Mem.Bounded.malloc (hm : m.Bounded) (c : LRUHandle) : (m.malloc c).1.Bounded := by
  intro b hb
  simp only [Mem.malloc_heap, Mem.malloc_nextAddr] at hb ⊢
  split at hb
  · omega
  · exact Nat.lt_succ_of_lt (hm b hb)

theorem Mem.Bounded.free (hm : m.Bounded) (a : Nat) : (m.free a).Bounded := by
  intro b hb
  simp only [Mem.free_heap, Mem.free_nextAddr] at hb ⊢
  split at hb
  · exact absurd rfl hb
  · exact hm b hb

theorem Mem.Bounded.modify (hm : m.Bounded) (h : m.modify a f = some m') : m'.Bounded := by
  intro b hb
  rw [Mem.modify_nextAddr h]
  rw [Mem.modify_heap h] at hb
  split at hb
  · subst b; exact hm _ (by simpa using hb)
  · exact hm b hb

theorem Mem.Bounded.length_le (hm : m.Bounded) {l : List Nat} (hnd : l.Nodup)
    (hl : ∀ a ∈ l, m.heap a ≠ none) : l.length ≤ m.nextAddr := by
  simpa using (List.subperm_of_subset hnd fun a ha => List.mem_range.2 (hm a (hl a ha))).length_le

end Mem

def LRUHandle.withoutNextHash (c : LRUHandle) : LRUHandle := { c with nextHash := .null }

def LRUHandle.withoutLinks (c : LRUHandle) : LRUHandle := { c with next := .null, prev := .null }

structure Mem.ChangedOnly (g : LRUHandle → LRUHandle) (S : List Nat) (m m' : Mem) : Prop where
  frame : ∀ b ∉ S, m'.heap b = m.heap b
  kept : ∀ b, (m'.heap b).map g = (m.heap b).map g
  nextAddr : m'.nextAddr = m.nextAddr
  log : m'.log = m.log

section ChangedOnly

variable {g : LRUHandle → LRUHandle} {S S' : List Nat} {m m' m'' : Mem}

theorem Mem.ChangedOnly.refl (g : LRUHandle → LRUHandle) (S : List Nat) (m : Mem) :
    m.ChangedOnly g S m :=
  ⟨fun _ _ => rfl, fun _ => rfl, rfl, rfl⟩

theorem Mem.ChangedOnly.trans (h : m.ChangedOnly g S m') (h' : m'.ChangedOnly g S m'') :
    m.ChangedOnly g S m'' :=
  ⟨fun b hb => (h'.frame b hb).trans (h.frame b hb), fun b => (h'.kept b).trans (h.kept b),
    h'.nextAddr.trans h.nextAddr, h'.log.trans h.log⟩

theorem Mem.ChangedOnly.mono (h : m.ChangedOnly g S m') (hS : S ⊆ S') : m.ChangedOnly g S' m' :=
  ⟨fun b hb => h.frame b (fun h' => hb (hS h')), h.kept, h.nextAddr, h.log⟩

theorem Mem.ChangedOnly.of_modify {a : Nat} {f : LRUHandle → LRUHandle} (h : m.modify a f = some m')
    (hf : ∀ c, g (f c) = g c) : m.ChangedOnly g [a] m' :=
  ⟨fun _ hb => Mem.modify_heap_of_ne h (by simpa using hb), Mem.modify_map h g hf,
    Mem.modify_nextAddr h, Mem.modify_log h⟩

theorem Mem.ChangedOnly.map {α : Type} (h : m.ChangedOnly g S m') (p : LRUHandle → α)
    (hp : ∀ c, p (g c) = p c) (b : Nat) : (m'.heap b).map p = (m.heap b).map p := by
  have := congrArg (Option.map p) (h.kept b)
  simpa only [Option.map_map, Function.comp_def, hp] using this

theorem Mem.ChangedOnly.heap_ne_none (h : m.ChangedOnly g S m') (b : Nat) :
    m'.heap b ≠ none ↔ m.heap b ≠ none := by
  have := congrArg Option.isSome (h.kept b)
  simp only [Option.isSome_map'] at this
  simp only [ne_eq, ← Option.not_isSome_iff_eq_none, this]

theorem Mem.ChangedOnly.bounded (h : m.ChangedOnly g S m') (hm : m.Bounded) : m'.Bounded := by
  intro b hb
  rw [h.nextAddr]
  exact hm b ((h.heap_ne_none b).1 hb)

end ChangedOnly

end LevelDbProofs.Cache
