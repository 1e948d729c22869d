import LevelDbProofs.Cache.ShardRep

/-!
Runs of one shard under its client, against runs of the abstract map.
-/

namespace LevelDbProofs.Cache

open LevelDbProofs.Util

inductive ShardOp
  | insert (key : Bytes) (value : Nat) (charge : UInt64) (deleter : Nat)
  | lookup (key : Bytes)
  | release (handle : Nat)
  | erase (key : Bytes)
  deriving DecidableEq, Repr

namespace LRUCache

def call (Hash : Bytes → UInt32) (c : LRUCache) (m : Mem) : ShardOp → Option (LRUCache × Mem × Ptr)
  | .insert key value charge deleter => c.insert m key (Hash key) value charge deleter
  | .lookup key => c.lookup m key (Hash key)
  | .release handle => (c.release m (.cell handle)).map fun r => (r.1, r.2, .null)
  | .erase key => (c.erase m key (Hash key)).map fun r => (r.1, r.2, .null)

def run (Hash : Bytes → UInt32) : LRUCache → Mem → List ShardOp → Option (LRUCache × Mem × List Ptr)
  | c, m, [] => some (c, m, [])
  | c, m, op :: ops => do
    let r ← c.call Hash m op
    let r' ← run Hash r.1 r.2.1 ops
    some (r'.1, r'.2.1, r.2.2 :: r'.2.2)

theorem run_snoc (Hash : Bytes → UInt32) (c : LRUCache) (m : Mem) (ops : List ShardOp) (op : ShardOp) :
    run Hash c m (ops ++ [op]) = (run Hash c m ops).bind fun r =>
      (r.1.call Hash r.2.1 op).map fun r' => (r'.1, r'.2.1, r.2.2 ++ [r'.2.2]) := by
  induction ops generalizing c m with
  | nil => simp only [run, List.nil_append, bind, Option.some_bind]; cases c.call Hash m op <;> rfl
  | cons op' ops ih =>
    simp only [run, List.cons_append, bind, List.append_eq]
    cases c.call Hash m op' with
    | none => rfl
    | some r =>
      simp only [Option.some_bind]
      rw [ih]
      cases run Hash r.1 r.2.1 ops with
      | none => rfl
      | some r' => rcases hc : call Hash r'.1 r'.2.1 op with _ | r'' <;> simp [hc]

end LRUCache

structure LruClient where
  map : LruMap
  next : Nat
  handles : List Nat

namespace LruClient

def init (capacity : UInt64) : LruClient := ⟨LruMap.empty capacity, 0, []⟩

def call (w : LruClient) : ShardOp → Option (LruClient × List DeleterCall × Ptr)
  | .insert key value charge deleter =>
    (w.map.insert w.next key value charge deleter).map fun r =>
      (⟨r.1, w.next + 1, w.next :: w.handles⟩, r.2, .cell w.next)
  | .lookup key =>
    some (⟨(w.map.lookup key).1, w.next, (w.map.lookup key).2.toList ++ w.handles⟩, [],
      Ptr.ofOption (w.map.lookup key).2)
  | .release a => (w.map.release a).map fun r => (⟨r.1, w.next, w.handles.erase a⟩, r.2, .null)
  | .erase key => (w.map.erase key).map fun r => (⟨r.1, w.next, w.handles⟩, r.2, .null)

def run : LruClient → List ShardOp → Option (LruClient × List DeleterCall × List Ptr)
  | w, [] => some (w, [], [])
  | w, op :: ops => do
    let r ← w.call op
    let r' ← run r.1 ops
    some (r'.1, r.2.1 ++ r'.2.1, r.2.2 :: r'.2.2)

theorem run_snoc (w : LruClient) (ops : List ShardOp) (op : ShardOp) :
    run w (ops ++ [op]) = (run w ops).bind fun r =>
      (r.1.call op).map fun r' => (r'.1, r.2.1 ++ r'.2.1, r.2.2 ++ [r'.2.2]) := by
  induction ops generalizing w with
  | nil => simp only [run, List.nil_append, bind, Option.some_bind]; cases w.call op <;> simp
  | cons op' ops ih =>
    simp only [run, List.cons_append, bind, List.append_eq]
    cases w.call op' with
    | none => rfl
    | some r =>
      simp only [Option.some_bind]
      rw [ih]
      cases run r.1 ops with
      | none => rfl
      | some r' => rcases hc : r'.1.call op with _ | r'' <;> simp [hc]

def Permits (w : LruClient) : ShardOp → Prop
  | .insert .. => w.map.lru.length < 2 ^ 31
  | .lookup _ => w.handles.length + 2 < 2 ^ 32
  | .release a => a ∈ w.handles
  | .erase _ => True

instance (w : LruClient) (op : ShardOp) : Decidable (w.Permits op) := by
  cases op <;> unfold Permits <;> infer_instance

def Allows : LruClient → List ShardOp → Prop
  | _, [] => True
  | w, op :: ops => w.Permits op ∧ match w.call op with
    | some r => r.1.Allows ops
    | none => True

instance decAllows : (w : LruClient) → (ops : List ShardOp) → Decidable (w.Allows ops)
  | _, [] => isTrue trivial
  | w, op :: ops =>
    match h : w.call op with
    | some r =>
      haveI := decAllows r.1 ops
      decidable_of_iff (w.Permits op ∧ r.1.Allows ops) (by simp [Allows, h])
    | none => decidable_of_iff (w.Permits op) (by simp [Allows, h])

end LruClient

structure ClientRep (Hash : Bytes → UInt32) (c : LRUCache) (m : Mem) (w : LruClient) : Prop where
  shard : ShardRep Hash c m w.map
  inv : w.map.Inv w.handles
  bounded : m.Bounded
  next : m.nextAddr = w.next

namespace ClientRep

variable {Hash : Bytes → UInt32} {c : LRUCache} {m : Mem} {w : LruClient}

theorem init (Hash : Bytes → UInt32) (capacity : UInt64) :
    ClientRep Hash (LRUCache.new.setCapacity capacity) Mem.empty (LruClient.init capacity) :=
  ⟨⟨rfl, rfl, ⟨rfl, rfl, List.nodup_nil⟩, TableRep.new _, fun _ _ h => (by cases h),
    fun _ h => absurd h (List.not_mem_nil _)⟩, LruMap.Inv.empty capacity, fun _ h => absurd rfl h, rfl⟩

theorem call (h : ClientRep Hash c m w) {op : ShardOp} (hp : w.Permits op) :
    ∃ c' m' w' calls out, c.call Hash m op = some (c', m', out) ∧ w.call op = some (w', calls, out) ∧
      ClientRep Hash c' m' w' ∧ m'.log = m.log ++ calls := by
  cases op with
  | insert key value charge deleter =>
    obtain ⟨s', calls, he, hinv, -⟩ :=
      h.inv.insert (h.shard.nextAddr_fresh h.bounded) key value charge deleter
    obtain ⟨c', m', hc, hrep, hm', hfr⟩ := h.shard.insert h.bounded h.inv hp key value charge deleter he
    rw [h.next] at hc he hinv
    exact ⟨c', m', ⟨s', w.next + 1, w.next :: w.handles⟩, calls, _, hc, by simp [LruClient.call, he],
      ⟨hrep, hinv, hm', by rw [hfr.nextAddr, h.next]⟩, hfr.log⟩
  | lookup key =>
    obtain ⟨hinv, -, -⟩ := h.inv.lookup hp key
    obtain ⟨c', m', hc, hrep, hm', hfr⟩ := h.shard.lookup h.bounded key
    exact ⟨c', m', ⟨(w.map.lookup key).1, w.next, (w.map.lookup key).2.toList ++ w.handles⟩, [], _, hc, rfl,
      ⟨hrep, hinv, hm', by rw [hfr.nextAddr, h.next]; rfl⟩, hfr.log⟩
  | release a =>
    obtain ⟨s', calls, hu, hinv, -, hlru⟩ := h.inv.release hp (h.inv.handles_live a hp)
    obtain ⟨c', m', hc, hrep, hm', hfr⟩ := h.shard.unref h.bounded hu hinv.lru_live
    exact ⟨c', m', ⟨s', w.next, w.handles.erase a⟩, calls, .null,
      by simp [LRUCache.call, LRUCache.release, hc], by simp [LruClient.call, hu], ⟨hrep, hinv, hm', by rw [hfr.nextAddr, h.next]; rfl⟩, hfr.log⟩
  | erase key =>
    obtain ⟨s', calls, he, hinv, -, -⟩ := h.inv.erase key
    obtain ⟨c', m', hc, hrep, hm', hfr⟩ := h.shard.erase h.bounded key he hinv.lru_live
    exact ⟨c', m', ⟨s', w.next, w.handles⟩, calls, .null, by simp [LRUCache.call, hc],
      by simp [LruClient.call, he],
      ⟨hrep, hinv, hm', by rw [hfr.nextAddr, h.next]; rfl⟩, hfr.log⟩

theorem run (h : ClientRep Hash c m w) {ops : List ShardOp} (ha : w.Allows ops) :
    ∃ c' m' w' calls outs, c.run Hash m ops = some (c', m', outs) ∧ w.run ops = some (w', calls, outs) ∧
      ClientRep Hash c' m' w' ∧ m'.log = m.log ++ calls := by
  induction ops generalizing c m w with
  | nil => exact ⟨c, m, w, [], [], rfl, rfl, h, (List.append_nil _).symm⟩
  | cons op ops ih =>
    obtain ⟨c1, m1, w1, calls1, out, hc, hw, h1, hlog1⟩ := h.call ha.1
    have ha' := ha.2
    rw [hw] at ha'
    obtain ⟨c', m', w', calls', outs, hc', hw', h', hlog'⟩ := ih h1 ha'
    exact ⟨c', m', w', calls1 ++ calls', out :: outs, by simp [LRUCache.run, hc, hc'],
      by simp [LruClient.run, hw, hw'], h', by rw [hlog', hlog1, List.append_assoc]⟩

end ClientRep

theorem lru_cache_refines_lru_map (Hash : Bytes → UInt32) (capacity : UInt64) (ops : List ShardOp)
    (ha : (LruClient.init capacity).Allows ops) :
    ∃ c m w calls outs,
      (LRUCache.new.setCapacity capacity).run Hash Mem.empty ops = some (c, m, outs) ∧
      (LruClient.init capacity).run ops = some (w, calls, outs) ∧
      w.map.lru.Pairwise (fun a b => (w.map.entries a).map Entry.key ≠ (w.map.entries b).map Entry.key) ∧
      c.walk m = some w.map.lru ∧ c.lruPrev = lastNode .head w.map.lru ∧
      (∀ key, c.table.lookup m key (Hash key) = some (Ptr.ofOption (w.map.find key))) ∧ m.log = calls := by
  obtain ⟨c, m, w, calls, outs, hc, hw, h, hlog⟩ := (ClientRep.init Hash capacity).run ha
  exact ⟨c, m, w, calls, outs, hc, hw, h.inv.keys, h.shard.ring.walk h.bounded, h.shard.ring.lruPrev,
    h.shard.table_lookup h.bounded, hlog⟩

theorem lru_cache_refines_lru_map_small_run :
    ∃ c m w calls outs,
      (LRUCache.new.setCapacity 10).run (fun _ => 0) Mem.empty
        [.insert [1] 7 1 0, .lookup [1], .release 0, .erase [1]] = some (c, m, outs) ∧
      (LruClient.init 10).run [.insert [1] 7 1 0, .lookup [1], .release 0, .erase [1]] = some (w, calls, outs) ∧
      w.map.lru.Pairwise (fun a b => (w.map.entries a).map Entry.key ≠ (w.map.entries b).map Entry.key) ∧
      c.walk m = some w.map.lru ∧ c.lruPrev = lastNode .head w.map.lru ∧
      (∀ key, c.table.lookup m key 0 = some (Ptr.ofOption (w.map.find key))) ∧ m.log = calls :=
  lru_cache_refines_lru_map (fun _ => 0) 10 _ (by decide)

theorem LruClient.Allows.snoc : ∀ {w : LruClient} {ops : List ShardOp} {op : ShardOp}, w.Allows (ops ++ [op]) →
    w.Allows ops ∧ ∀ w' calls outs, w.run ops = some (w', calls, outs) → w'.Permits op
  | w, [], op, h => ⟨trivial, fun w' calls outs hr => by
      simp only [LruClient.run, Option.some_inj, Prod.mk.injEq] at hr
      exact hr.1 ▸ h.1⟩
  | w, op' :: ops, op, h => by
    rcases hc : w.call op' with _ | r
    · exact ⟨⟨h.1, by rw [hc]; trivial⟩, fun _ _ _ hr => by simp [LruClient.run, hc] at hr⟩
    · have h2 : r.1.Allows (ops ++ [op]) := by
        have h' := h.2
        rw [hc] at h'
        exact h'
      obtain ⟨ha, hp⟩ := LruClient.Allows.snoc h2
      refine ⟨⟨h.1, by rw [hc]; exact ha⟩, fun w' calls outs hr => ?_⟩
      simp only [LruClient.run, hc, bind, Option.some_bind, Option.bind_eq_some] at hr
      obtain ⟨r', hr', he⟩ := hr
      simp only [Option.some_inj, Prod.mk.injEq] at he
      exact he.1 ▸ hp r'.1 r'.2.1 r'.2.2 hr'

theorem lru_cache_insert_within_capacity (Hash : Bytes → UInt32) (capacity : UInt64) (ops : List ShardOp)
    (key : Bytes) (value : Nat) (charge : UInt64) (deleter : Nat)
    (ha : (LruClient.init capacity).Allows (ops ++ [.insert key value charge deleter])) :
    ∃ c m outs, (LRUCache.new.setCapacity capacity).run Hash Mem.empty (ops ++ [.insert key value charge deleter]) =
      some (c, m, outs) ∧ (c.usage ≤ c.capacity ∨ c.lruNext = .head) := by
  obtain ⟨ha', hp⟩ := ha.snoc
  obtain ⟨c, m, w, calls, outs, hc, hw, h, -⟩ := (ClientRep.init Hash capacity).run ha'
  obtain ⟨c', m', w', calls', out, hc', hw', h', -⟩ := h.call (hp w calls outs hw)
  refine ⟨c', m', outs ++ [out], by rw [LRUCache.run_snoc, hc]; simp [hc'], ?_⟩
  simp only [LruClient.call, Option.map_eq_some', Prod.mk.injEq] at hw'
  obtain ⟨r, hr, rfl, -, -⟩ := hw'
  have hs : ShardRep Hash c' m' r.1 := h'.shard
  rw [hs.usage, hs.capacity, hs.ring.lruNext]
  rcases LruMap.insert_fits hr with hu | hl
  · exact Or.inl hu
  · exact Or.inr (by rw [hl]; rfl)

theorem lru_cache_insert_within_capacity_small_run :
    (LruClient.init 1).Allows ([.insert [1] 7 1 0] ++ [.insert [2] 8 1 0]) ∧
      ∃ c m outs, (LRUCache.new.setCapacity 1).run (fun _ => 0) Mem.empty ([.insert [1] 7 1 0] ++ [.insert [2] 8 1 0]) =
        some (c, m, outs) ∧ (c.usage ≤ c.capacity ∨ c.lruNext = .head) :=
  ⟨by decide, lru_cache_insert_within_capacity (fun _ => 0) 1 [.insert [1] 7 1 0] [2] 8 1 0 (by decide)⟩

theorem lru_cache_lookup_release_restores (Hash : Bytes → UInt32) (capacity : UInt64) (ops : List ShardOp)
    (key : Bytes) (ha : (LruClient.init capacity).Allows (ops ++ [.lookup key])) :
    ∃ c m outs l c₁ m₁ out,
      (LRUCache.new.setCapacity capacity).run Hash Mem.empty ops = some (c, m, outs) ∧ c.walk m = some l ∧
      c.lookup m key (Hash key) = some (c₁, m₁, out) ∧
      ∀ a, out = .cell a → ∃ c₂ m₂, c₁.release m₁ (.cell a) = some (c₂, m₂) ∧
        c₂.walk m₂ = some (l.erase a ++ [a]) ∧ c₂.usage = c.usage ∧ m₂.log = m.log ∧
        ∀ b, (m₂.heap b).map LRUHandle.view = (m.heap b).map LRUHandle.view := by
  obtain ⟨ha', hp⟩ := ha.snoc
  obtain ⟨c, m, w, calls, outs, hc, hw, h, -⟩ := (ClientRep.init Hash capacity).run ha'
  have hlen : w.handles.length + 2 < 2 ^ 32 := hp w calls outs hw
  obtain ⟨c₁, m₁, hl, hrep₁, hm₁, hfr₁⟩ := h.shard.lookup h.bounded key
  refine ⟨c, m, outs, w.map.lru, c₁, m₁, _, hc, h.shard.ring.walk h.bounded, hl, fun a hout => ?_⟩
  have hf : w.map.find key = some a := by
    rw [LruMap.lookup_snd] at hout
    revert hout
    cases w.map.find key <;> simp
  have hal := (LruMap.find_some hf).1
  obtain ⟨e, he⟩ := Option.ne_none_iff_exists'.1 (h.inv.lru_live a hal)
  have href := h.inv.refs a e he
  rw [if_pos hal] at href
  have hcount := List.count_le_length a w.handles
  have h0 : e.refs ≠ 0 := fun h0 => by
    rw [h0, show (0 : UInt32).toNat = 0 from rfl] at href
    omega
  have hlive : ∀ b ∈ w.map.lru.erase a ++ [a], w.map.entries b ≠ none := fun b hb => by
    rcases List.mem_append.1 hb with hb | hb
    · exact h.inv.lru_live b (List.mem_of_mem_erase hb)
    · exact List.mem_singleton.1 hb ▸ h.inv.lru_live a hal
  obtain ⟨c₂, m₂, hu, hrep₂, hm₂, hfr₂⟩ :=
    hrep₁.unref hm₁ (LruMap.release_lookup hf he h0 (by omega)) hlive
  refine ⟨c₂, m₂, hu, hrep₂.ring.walk hm₂, by rw [hrep₂.usage, h.shard.usage], by
    rw [hfr₂.log, hfr₁.log, List.append_nil, List.append_nil], fun b => ?_⟩
  rcases hb : w.map.entries b with _ | e'
  · have hba : b ≠ a := fun hba => by rw [hba, he] at hb; cases hb
    have hb₁ : (w.map.lookup key).1.entries b = none := by
      simpa [LruMap.lookup, hf, hba] using hb
    by_cases hlt : b < m.nextAddr
    · rw [hfr₂.frame b (by simp [hb₁]) (by rw [hfr₁.nextAddr]; exact hlt), hfr₁.frame b (by simp [hb]) hlt]
    · have hnone : ∀ {m' : Mem}, m'.Bounded → m'.nextAddr = m.nextAddr → m'.heap b = none :=
        fun hm' hn => by_contra fun h' => hlt (hn ▸ hm' b h')
      rw [hnone hm₂ (by rw [hfr₂.nextAddr, hfr₁.nextAddr]; rfl), hnone h.bounded rfl]
  · exact (hrep₂.cells b e' hb).trans (h.shard.cells b e' hb).symm

theorem lru_cache_lookup_release_restores_after_insert :
    (LruClient.init 4).Allows ([.insert [1] 7 1 0, .insert [2] 8 1 0] ++ [.lookup [1]]) ∧
      ∃ c m outs l c₁ m₁ out,
        (LRUCache.new.setCapacity 4).run (fun _ => 0) Mem.empty [.insert [1] 7 1 0, .insert [2] 8 1 0] =
          some (c, m, outs) ∧ c.walk m = some l ∧
        c.lookup m [1] 0 = some (c₁, m₁, out) ∧
        ∀ a, out = .cell a → ∃ c₂ m₂, c₁.release m₁ (.cell a) = some (c₂, m₂) ∧
          c₂.walk m₂ = some (l.erase a ++ [a]) ∧ c₂.usage = c.usage ∧ m₂.log = m.log ∧
          ∀ b, (m₂.heap b).map LRUHandle.view = (m.heap b).map LRUHandle.view :=
  ⟨by decide, lru_cache_lookup_release_restores (fun _ => 0) 4 _ [1] (by decide)⟩

def fillOps (n : Nat) : List ShardOp := (List.range n).map fun i => .insert (List.replicate i 0) 0 0 0

theorem fillOps_succ (n : Nat) : fillOps (n + 1) = fillOps n ++ [.insert (List.replicate n 0) 0 0 0] := by
  simp [fillOps, List.range_succ]

theorem LruMap.find_replicate {s : LruMap} {n : Nat}
    (h : ∀ b ∈ s.lru, ∃ e, s.entries b = some e ∧ e.key.length < n) : s.find (List.replicate n 0) = none :=
  List.find?_eq_none.2 fun b hb => by
    obtain ⟨e, he, hl⟩ := h b hb
    simp only [he, Option.map_some', decide_eq_true_eq, Option.some_inj]
    exact fun heq => by rw [heq, List.length_replicate] at hl; exact Nat.lt_irrefl n hl

theorem fillOps_run (Hash : Bytes → UInt32) (capacity : UInt64) : ∀ n ≤ 2 ^ 31, ∃ c m w calls outs,
    (LRUCache.new.setCapacity capacity).run Hash Mem.empty (fillOps n) = some (c, m, outs) ∧
    (LruClient.init capacity).run (fillOps n) = some (w, calls, outs) ∧ ClientRep Hash c m w ∧
    w.map.lru.length = n ∧ w.map.usage = 0 ∧ ∀ b ∈ w.map.lru, ∃ e, w.map.entries b = some e ∧ e.key.length < n
  | 0, _ => ⟨_, _, _, [], [], rfl, rfl, ClientRep.init Hash capacity, rfl, rfl,
    fun _ h => absurd h (List.not_mem_nil _)⟩
  | n + 1, hn => by
    obtain ⟨c, m, w, calls, outs, hc, hw, h, hlen, husage, hkeys⟩ := fillOps_run Hash capacity n (by omega)
    have hp : w.Permits (.insert (List.replicate n 0) 0 0 0) := show w.map.lru.length < 2 ^ 31 by omega
    obtain ⟨c1, m1, w1, calls1, out, hc1, hw1, h1, -⟩ := h.call hp
    have hins : w.map.insert w.next (List.replicate n 0) 0 0 0 =
        some (w.map.link w.map.lru w.next ⟨List.replicate n 0, 0, 0, 0, 2⟩, []) :=
      LruMap.insert_of_fits (LruMap.find_replicate hkeys) (by rw [husage]; exact fun h' => Nat.not_lt_zero _ h')
    simp only [LruClient.call, hins, Option.map_some', Option.some_inj, Prod.mk.injEq] at hw1
    obtain ⟨rfl, rfl, rfl⟩ := hw1
    refine ⟨c1, m1, _, calls ++ [], outs ++ [.cell w.next], ?_, ?_, h1, by simp [hlen], by simp [LruMap.link, husage],
      fun b hb => ?_⟩
    · rw [fillOps_succ, LRUCache.run_snoc, hc]; simp [hc1]
    · rw [fillOps_succ, LruClient.run_snoc, hw]; simp [LruClient.call, hins]
    · simp only [LruMap.link_lru, List.mem_append, List.mem_singleton] at hb
      rcases eq_or_ne b w.next with rfl | hba
      · exact ⟨⟨List.replicate n 0, 0, 0, 0, 2⟩, by simp, by simp⟩
      · obtain ⟨e, he, hl⟩ := hkeys b (hb.resolve_right hba)
        exact ⟨e, by simp [Function.update_noteq hba, he], by omega⟩

theorem fillOps_run_full (Hash : Bytes → UInt32) (capacity : UInt64) (n : Nat) (hn : n = 2 ^ 31) :
    (LRUCache.new.setCapacity capacity).run Hash Mem.empty (fillOps (n + 1)) = none ∧
      ((LruClient.init capacity).run (fillOps (n + 1))).isSome := by
  obtain ⟨c, m, w, calls, outs, hc, hw, h, hlen, -, hkeys⟩ := fillOps_run Hash capacity n hn.le
  have hf := LruMap.find_replicate hkeys
  obtain ⟨s', calls', he, -⟩ := h.inv.insert (h.shard.nextAddr_fresh h.bounded) (List.replicate n 0) 0 0 0
  rw [fillOps_succ, LRUCache.run_snoc, hc, LruClient.run_snoc, hw]
  rw [h.next] at he
  exact ⟨by simp only [Option.some_bind, LRUCache.call, h.shard.insert_full h.bounded (hlen.trans hn) _ 0 0 0 hf,
    Option.map_none'], by simp only [Option.some_bind, LruClient.call, he, Option.map_some', Option.isSome_some]⟩

theorem lru_cache_insert_full_table_hangs :
    (LRUCache.new.setCapacity 0).run (fun _ => 0) Mem.empty (fillOps (2 ^ 31 + 1)) = none ∧
      ((LruClient.init 0).run (fillOps (2 ^ 31 + 1))).isSome :=
  fillOps_run_full (fun _ => 0) 0 (2 ^ 31) rfl

end LevelDbProofs.Cache
