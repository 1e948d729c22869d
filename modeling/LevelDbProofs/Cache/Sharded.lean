import LevelDbProofs.Cache.ShardRun

/-!
`ShardedLRUCache`: sixteen shards over one heap, and the client that holds its handles.
-/

namespace LevelDbProofs.Cache

open LevelDbProofs.Util

def numShardBits : Nat := 4

def numShards : Nat := 1 <<< numShardBits

theorem shard_lt (hash : UInt32) : (hash >>> (32 - numShardBits).toUInt32).toNat < numShards := by
  rw [uint32_toNat_shiftRight, show ((32 - numShardBits).toUInt32).toNat % 32 = 28 from rfl,
    Nat.shiftRight_eq_div_pow, show numShards = 16 from rfl, Nat.div_lt_iff_lt_mul (by decide)]
  exact uint32_toNat_lt hash

def shardOf (hash : UInt32) : Fin numShards := ⟨(hash >>> (32 - numShardBits).toUInt32).toNat, shard_lt hash⟩

structure ShardedLRUCache where
  shard : Fin numShards → LRUCache
  lastId : UInt64

namespace ShardedLRUCache

def perShard (capacity : UInt64) : UInt64 := (capacity + (numShards - 1).toUInt64) / numShards.toUInt64

def new (capacity : UInt64) : ShardedLRUCache := ⟨fun _ => LRUCache.new.setCapacity (perShard capacity), 0⟩

def setShard (c : ShardedLRUCache) (i : Fin numShards) (s : LRUCache) : ShardedLRUCache :=
  { c with shard := Function.update c.shard i s }

@[simp] theorem setShard_same (c : ShardedLRUCache) (i : Fin numShards) (s : LRUCache) :
    (c.setShard i s).shard i = s := Function.update_same _ _ _

@[simp] theorem setShard_ne (c : ShardedLRUCache) {i j : Fin numShards} (s : LRUCache) (h : j ≠ i) :
    (c.setShard i s).shard j = c.shard j := Function.update_noteq h _ _

def insert (Hash : Bytes → UInt32) (c : ShardedLRUCache) (m : Mem) (key : Bytes) (value : Nat)
    (charge : UInt64) (deleter : Nat) : Option (ShardedLRUCache × Mem × Ptr) := do
  let hash := Hash key
  let r ← (c.shard (shardOf hash)).insert m key hash value charge deleter
  some (c.setShard (shardOf hash) r.1, r.2)

def lookup (Hash : Bytes → UInt32) (c : ShardedLRUCache) (m : Mem) (key : Bytes) :
    Option (ShardedLRUCache × Mem × Ptr) := do
  let hash := Hash key
  let r ← (c.shard (shardOf hash)).lookup m key hash
  some (c.setShard (shardOf hash) r.1, r.2)

def release (c : ShardedLRUCache) (m : Mem) (handle : Ptr) : Option (ShardedLRUCache × Mem) := do
  let h ← m.deref handle
  let r ← (c.shard (shardOf h.hash)).release m handle
  some (c.setShard (shardOf h.hash) r.1, r.2)

def erase (Hash : Bytes → UInt32) (c : ShardedLRUCache) (m : Mem) (key : Bytes) :
    Option (ShardedLRUCache × Mem) := do
  let hash := Hash key
  let r ← (c.shard (shardOf hash)).erase m key hash
  some (c.setShard (shardOf hash) r.1, r.2)

def value (m : Mem) (handle : Ptr) : Option Nat := (m.deref handle).map LRUHandle.value

def newId (c : ShardedLRUCache) : ShardedLRUCache × UInt64 := ({ c with lastId := c.lastId + 1 }, c.lastId + 1)

def newIds : ShardedLRUCache → Nat → List UInt64
  | _, 0 => []
  | c, n + 1 => c.newId.2 :: newIds c.newId.1 n

theorem newIds_toNat : ∀ (c : ShardedLRUCache) (n : Nat), c.lastId.toNat + n < 2 ^ 64 →
    (newIds c n).map UInt64.toNat = List.range' (c.lastId.toNat + 1) n
  | _, 0, _ => rfl
  | c, n + 1, hn => by
    have hid : (c.lastId + 1).toNat = c.lastId.toNat + 1 := by
      rw [uint64_toNat_add, show (1 : UInt64).toNat = 1 from rfl, Nat.mod_eq_of_lt (by omega)]
    simp only [newIds, newId, List.map_cons, List.range'_succ, hid,
      newIds_toNat { c with lastId := c.lastId + 1 } n (by simp only [hid]; omega)]

theorem new_newIds_distinct (capacity : UInt64) (n : Nat) (hn : n < 2 ^ 64) :
    (newIds (new capacity) n).map UInt64.toNat = List.range' 1 n ∧ (newIds (new capacity) n).Nodup := by
  have h := newIds_toNat (new capacity) n (by rw [show (new capacity).lastId.toNat = 0 from rfl]; omega)
  exact ⟨h, List.Nodup.of_map _ (h ▸ List.nodup_range' 1 n)⟩

theorem new_newIds_distinct_three :
    3 < 2 ^ 64 ∧ ((newIds (new 0) 3).map UInt64.toNat = List.range' 1 3 ∧ (newIds (new 0) 3).Nodup) :=
  ⟨by decide, new_newIds_distinct 0 3 (by decide)⟩

def call (Hash : Bytes → UInt32) (c : ShardedLRUCache) (m : Mem) : ShardOp → Option (ShardedLRUCache × Mem × Ptr)
  | .insert key value charge deleter => c.insert Hash m key value charge deleter
  | .lookup key => c.lookup Hash m key
  | .release handle => (c.release m (.cell handle)).map fun r => (r.1, r.2, .null)
  | .erase key => (c.erase Hash m key).map fun r => (r.1, r.2, .null)

def run (Hash : Bytes → UInt32) : ShardedLRUCache → Mem → List ShardOp →
    Option (ShardedLRUCache × Mem × List Ptr)
  | c, m, [] => some (c, m, [])
  | c, m, op :: ops => do
    let r ← c.call Hash m op
    let r' ← run Hash r.1 r.2.1 ops
    some (r'.1, r'.2.1, r.2.2 :: r'.2.2)

theorem run_snoc (Hash : Bytes → UInt32) (c : ShardedLRUCache) (m : Mem) (ops : List ShardOp) (op : ShardOp) :
    run Hash c m (ops ++ [op]) = (run Hash c m ops).bind fun r =>
      (r.1.call Hash r.2.1 op).map fun r' => (r'.1, r'.2.1, r.2.2 ++ [r'.2.2]) := by
  induction ops generalizing c m with
  | nil => simp only [run, List.nil_append, bind, Option.some_bind]; cases c.call Hash m op <;> rfl
  | cons op' ops ih =>
    simp only [run, List.cons_append, bind, List.append_eq]
    cases c.call Hash m op' with
    | none => rfl
    | some r =>
      simp only [Option.some_bind]
      rw [ih]
      cases run Hash r.1 r.2.1 ops with
      | none => rfl
      | some r' => rcases hc : call Hash r'.1 r'.2.1 op with _ | r'' <;> simp [hc]

end ShardedLRUCache

structure CacheClient where
  cache : ShardedLRUCache
  mem : Mem
  handles : List Nat
  born : Nat → Option DeleterCall

namespace CacheClient

def init (capacity : UInt64) : CacheClient := ⟨ShardedLRUCache.new capacity, Mem.empty, [], fun _ => none⟩

def handlesAfter (handles : List Nat) : ShardOp → Ptr → List Nat
  | .insert .., .cell a => a :: handles
  | .lookup _, .cell a => a :: handles
  | .release a, _ => handles.erase a
  | _, _ => handles

def bornAfter (born : Nat → Option DeleterCall) : ShardOp → Ptr → Nat → Option DeleterCall
  | .insert key value _ deleter, .cell a => Function.update born a (some ⟨a, deleter, key, value⟩)
  | _, _ => born

@[simp] theorem handlesAfter_release (handles : List Nat) (a : Nat) (out : Ptr) :
    handlesAfter handles (.release a) out = handles.erase a := by cases out <;> rfl

@[simp] theorem handlesAfter_erase (handles : List Nat) (key : Bytes) (out : Ptr) :
    handlesAfter handles (.erase key) out = handles := by cases out <;> rfl

@[simp] theorem bornAfter_lookup (born : Nat → Option DeleterCall) (key : Bytes) (out : Ptr) :
    bornAfter born (.lookup key) out = born := by cases out <;> rfl

@[simp] theorem bornAfter_release (born : Nat → Option DeleterCall) (a : Nat) (out : Ptr) :
    bornAfter born (.release a) out = born := by cases out <;> rfl

@[simp] theorem bornAfter_erase (born : Nat → Option DeleterCall) (key : Bytes) (out : Ptr) :
    bornAfter born (.erase key) out = born := by cases out <;> rfl

def call (Hash : Bytes → UInt32) (w : CacheClient) (op : ShardOp) : Option (CacheClient × Ptr) := do
  let r ← w.cache.call Hash w.mem op
  some (⟨r.1, r.2.1, handlesAfter w.handles op r.2.2, bornAfter w.born op r.2.2⟩, r.2.2)

theorem call_eq_some {Hash : Bytes → UInt32} {w w' : CacheClient} {op : ShardOp} {out : Ptr}
    (h : w.call Hash op = some (w', out)) : w.cache.call Hash w.mem op = some (w'.cache, w'.mem, out) ∧
      w'.handles = handlesAfter w.handles op out ∧ w'.born = bornAfter w.born op out := by
  simp only [call, bind, Option.bind_eq_some, Option.some_inj, Prod.mk.injEq] at h
  obtain ⟨r, hr, rfl, rfl⟩ := h
  exact ⟨hr, rfl, rfl⟩

def Permits (Hash : Bytes → UInt32) (w : CacheClient) : ShardOp → Prop
  | .insert key .. => ((w.cache.shard (shardOf (Hash key))).table.elems.toNat < 2 ^ 31)
  | .lookup _ => w.handles.length + 2 < 2 ^ 32
  | .release a => a ∈ w.handles
  | .erase _ => True

inductive Reachable (Hash : Bytes → UInt32) (capacity : UInt64) : CacheClient → Prop
  | init : Reachable Hash capacity (init capacity)
  | step {w w' : CacheClient} {op : ShardOp} {out : Ptr} : Reachable Hash capacity w → w.Permits Hash op →
      w.call Hash op = some (w', out) → Reachable Hash capacity w'

def dictAfter (dict : Bytes → Option Nat) : ShardOp → Ptr → Bytes → Option Nat
  | .insert key .., .cell a => Function.update dict key (some a)
  | .erase key, _ => Function.update dict key none
  | _, _ => dict

@[simp] theorem dictAfter_lookup (dict : Bytes → Option Nat) (key : Bytes) (out : Ptr) :
    dictAfter dict (.lookup key) out = dict := by cases out <;> rfl

@[simp] theorem dictAfter_release (dict : Bytes → Option Nat) (a : Nat) (out : Ptr) :
    dictAfter dict (.release a) out = dict := by cases out <;> rfl

@[simp] theorem dictAfter_erase (dict : Bytes → Option Nat) (key : Bytes) (out : Ptr) :
    dictAfter dict (.erase key) out = Function.update dict key none := by cases out <;> rfl

inductive Remembers (Hash : Bytes → UInt32) (capacity : UInt64) : CacheClient → (Bytes → Option Nat) → Prop
  | init : Remembers Hash capacity (init capacity) fun _ => none
  | step {w w' : CacheClient} {dict : Bytes → Option Nat} {op : ShardOp} {out : Ptr} :
      Remembers Hash capacity w dict → w.Permits Hash op → w.call Hash op = some (w', out) →
      Remembers Hash capacity w' (dictAfter dict op out)

theorem Reachable.remembers {Hash : Bytes → UInt32} {capacity : UInt64} {w : CacheClient}
    (hw : w.Reachable Hash capacity) : ∃ dict, w.Remembers Hash capacity dict := by
  induction hw with
  | init => exact ⟨_, .init⟩
  | step _ hp hc ih =>
    obtain ⟨dict, hd⟩ := ih
    exact ⟨_, hd.step hp hc⟩

inductive Runs (Hash : Bytes → UInt32) : CacheClient → List ShardOp → CacheClient → Prop
  | nil (w : CacheClient) : Runs Hash w [] w
  | cons {w w₁ w' : CacheClient} {op : ShardOp} {ops : List ShardOp} {out : Ptr} : w.Permits Hash op →
      w.call Hash op = some (w₁, out) → Runs Hash w₁ ops w' → Runs Hash w (op :: ops) w'

theorem dictAfter_eq_none {dict : Bytes → Option Nat} {key : Bytes} (hk : dict key = none) {op : ShardOp}
    (hop : ∀ value charge deleter, op ≠ .insert key value charge deleter) (out : Ptr) :
    dictAfter dict op out key = none := by
  cases op with
  | insert k value charge deleter =>
    have hkey : k ≠ key := fun e => hop value charge deleter (e ▸ rfl)
    cases out <;> simp [dictAfter, Function.update_noteq hkey.symm, hk]
  | lookup _ => simpa using hk
  | release _ => simpa using hk
  | erase k => by_cases hkey : key = k <;> simp [Function.update_apply, hkey, hk]

theorem Remembers.runs {Hash : Bytes → UInt32} {capacity : UInt64} {w w' : CacheClient}
    {dict : Bytes → Option Nat} {ops : List ShardOp} {key : Bytes} (hw : w.Remembers Hash capacity dict)
    (hk : dict key = none) (hr : w.Runs Hash ops w')
    (hops : ∀ value charge deleter, .insert key value charge deleter ∉ ops) :
    ∃ dict', w'.Remembers Hash capacity dict' ∧ dict' key = none := by
  induction hr generalizing dict with
  | nil => exact ⟨dict, hw, hk⟩
  | cons hp hc _ ih =>
    refine ih (hw.step hp hc) (dictAfter_eq_none hk (fun v c d e => hops v c d ?_) _) fun v c d h =>
      hops v c d (List.mem_cons_of_mem _ h)
    exact e ▸ List.mem_cons_self _ _

instance (Hash : Bytes → UInt32) (w : CacheClient) : (op : ShardOp) → Decidable (w.Permits Hash op)
  | .insert key .. => inferInstanceAs (Decidable ((w.cache.shard (shardOf (Hash key))).table.elems.toNat < 2 ^ 31))
  | .lookup _ => inferInstanceAs (Decidable (w.handles.length + 2 < 2 ^ 32))
  | .release a => inferInstanceAs (Decidable (a ∈ w.handles))
  | .erase _ => inferInstanceAs (Decidable True)

def runAllowed (Hash : Bytes → UInt32) : CacheClient → (Bytes → Option Nat) → List ShardOp →
    Option (CacheClient × (Bytes → Option Nat))
  | w, dict, [] => some (w, dict)
  | w, dict, op :: ops =>
    if w.Permits Hash op then
      match w.call Hash op with
      | some (w', out) => runAllowed Hash w' (dictAfter dict op out) ops
      | none => none
    else none

section RunAllowed

variable {Hash : Bytes → UInt32} {capacity : UInt64}

theorem Remembers.reachable {w : CacheClient} {dict : Bytes → Option Nat} (hw : w.Remembers Hash capacity dict) :
    w.Reachable Hash capacity := by
  induction hw with
  | init => exact .init
  | step _ hp hc ih => exact ih.step hp hc

theorem Reachable.runs {w w' : CacheClient} {ops : List ShardOp} (hw : w.Reachable Hash capacity)
    (hr : w.Runs Hash ops w') : w'.Reachable Hash capacity := by
  induction hr with
  | nil => exact hw
  | cons hp hc _ ih => exact ih (hw.step hp hc)

theorem runAllowed_eq_some {w w' : CacheClient} {dict dict' : Bytes → Option Nat} {ops : List ShardOp}
    (h : runAllowed Hash w dict ops = some (w', dict')) :
    w.Runs Hash ops w' ∧ ∀ capacity, w.Remembers Hash capacity dict → w'.Remembers Hash capacity dict' := by
  induction ops generalizing w dict with
  | nil =>
    cases h
    exact ⟨.nil _, fun _ => id⟩
  | cons op ops ih =>
    simp only [runAllowed] at h
    split_ifs at h with hp
    rcases hc : w.call Hash op with _ | ⟨w₁, out⟩ <;> rw [hc] at h
    · cases h
    · exact ⟨.cons hp hc (ih h).1, fun capacity hw => (ih h).2 capacity (hw.step hp hc)⟩

end RunAllowed

theorem exists_of_runAllowed (Hash : Bytes → UInt32) (capacity : UInt64) (pre suf : List ShardOp)
    (p : CacheClient → (Bytes → Option Nat) → CacheClient → Bool)
    (h : ((runAllowed Hash (init capacity) (fun _ => none) pre).bind fun r =>
      (runAllowed Hash r.1 r.2 suf).map fun r' => p r.1 r.2 r'.1) = some true) :
    ∃ w dict w', w.Remembers Hash capacity dict ∧ w.Runs Hash suf w' ∧ p w dict w' = true := by
  obtain ⟨⟨w, dict⟩, h1, h2⟩ := Option.bind_eq_some.1 h
  obtain ⟨⟨w', dict'⟩, h3, h4⟩ := Option.map_eq_some'.1 h2
  exact ⟨w, dict, w', (runAllowed_eq_some h1).2 capacity .init, (runAllowed_eq_some h3).1, h4⟩

def inTable (Hash : Bytes → UInt32) (w : CacheClient) (a : Nat) : Bool :=
  match w.born a with
  | some d => (w.cache.shard (shardOf (Hash d.key))).table.lookup w.mem d.key (Hash d.key) == some (.cell a)
  | none => false

def Held (Hash : Bytes → UInt32) (w : CacheClient) (a : Nat) : Prop := w.inTable Hash a = true ∨ a ∈ w.handles

structure Good (Hash : Bytes → UInt32) (w : CacheClient) : Prop where
  refs : ∀ a d, w.born a = some d → a ∉ w.mem.log.map DeleterCall.entry →
    ∃ h, w.mem.heap a = some h ∧ h.refs.toNat = (if w.inTable Hash a then 1 else 0) + w.handles.count a
  ring : ∀ i, ∃ l, (w.cache.shard i).walk w.mem = some l ∧
    ∀ a, a ∈ l ↔ ∃ d, w.born a = some d ∧ shardOf (Hash d.key) = i ∧ w.inTable Hash a = true
  routed : ∀ a ∈ w.handles, ∃ d h, w.born a = some d ∧ w.mem.heap a = some h ∧
    shardOf h.hash = shardOf (Hash d.key)
  deleted_once : (w.mem.log.map DeleterCall.entry).Nodup
  deleted_born : ∀ d ∈ w.mem.log, w.born d.entry = some d
  deleted_iff : ∀ a, w.born a ≠ none →
    (a ∈ w.mem.log.map DeleterCall.entry ↔ w.inTable Hash a = false ∧ a ∉ w.handles)
  value : ∀ a ∈ w.handles, ∃ d, w.born a = some d ∧ a ∉ w.mem.log.map DeleterCall.entry ∧
    ShardedLRUCache.value w.mem (.cell a) = some d.value

end CacheClient

end LevelDbProofs.Cache
