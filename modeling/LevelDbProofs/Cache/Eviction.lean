import LevelDbProofs.Cache.Sharded
import LevelDbProofs.Cache.Usage

/-!
The eviction loop of `Insert`, which drops the oldest entries of the ring whatever their references,
and the capacity `per_shard` gives each shard.
-/

namespace LevelDbProofs.Cache

open LevelDbProofs.Util

namespace LruMap

section Evict

variable {s s' : LruMap} {handles : List Nat} {a n : Nat} {calls : List DeleterCall}

theorem evictFrom_capacity : ∀ (l : List Nat) (s : LruMap) {s' : LruMap} {calls : List DeleterCall},
    s.evictFrom l = some (s', calls) → s'.capacity = s.capacity
  | [], s, _, _, h => (evictFrom_nil_eq_some h).1 ▸ rfl
  | b :: rest, s, _, _, h => by
    rcases evictFrom_cons_eq_some h with ⟨-, s₁, _, _, h1, h2, -⟩ | ⟨-, rfl, -⟩
    · exact (evictFrom_capacity rest s₁ h2).trans ((unref_capacity h1).trans rfl)
    · rfl

theorem evictFrom_empty_over : ∀ (l : List Nat) (s : LruMap) {s' : LruMap} {calls : List DeleterCall},
    n ∉ l → (∃ e, s.entries n = some e ∧ 2 ≤ e.refs.toNat) → s.evictFrom (l ++ [n]) = some (s', calls) →
    s'.lru = [] → s'.capacity < s'.usage
  | [], s, _, _, _, ⟨e, he, hr⟩, h, hl => by
    rcases evictFrom_cons_eq_some h with ⟨hu, s₁, _, _, h1, h2, -⟩ | ⟨-, rfl, -⟩
    · rw [unref_of_two_le (s := { s with lru := [] }) he hr, Option.some_inj, Prod.mk.injEq] at h1
      rw [(evictFrom_nil_eq_some h2).1, ← h1.1]
      exact hu
    · exact absurd hl (List.cons_ne_nil _ _)
  | b :: rest, s, _, _, hn, ⟨e, he, hr⟩, h, hl => by
    rcases evictFrom_cons_eq_some h with ⟨-, s₁, _, _, h1, h2, -⟩ | ⟨-, rfl, -⟩
    · have hnb : n ≠ b := fun h' => hn (h' ▸ List.mem_cons_self _ _)
      exact evictFrom_empty_over rest s₁ (fun h' => hn (List.mem_cons_of_mem _ h'))
        ⟨e, by rw [unref_entries_ne h1 hnb]; exact he, hr⟩ h2 hl
    · exact absurd hl (List.cons_ne_nil _ _)

theorem Inv.find_elim_eq_filter (h : Inv s handles) (key : Bytes) :
    (s.find key).elim s.lru s.lru.erase = s.lru.filter fun b => (s.entries b).map Entry.key ≠ some key := by
  rcases hf : s.find key with _ | b0
  · exact (List.filter_eq_self.2 fun b hb => by simpa using find_none hf b hb).symm
  · obtain ⟨hb0, hk0⟩ := find_some hf
    rw [Option.elim, h.nodup.erase_eq_filter]
    refine List.filter_congr fun b hb => ?_
    by_cases hbb : b = b0
    · simp [hbb, hk0]
    · rcases he : s.entries b with _ | e
      · simp [hbb]
      · have : e.key ≠ key := fun hk => hbb (Option.some_inj.1 (hf ▸ hk ▸ (h.find_eq_some_iff he).2 hb).symm)
        simp [hbb, this]

theorem drop_append_singleton_eq_nil {l : List Nat} {k : Nat} (hn : n ∉ (l ++ [n]).drop k) :
    (l ++ [n]).drop k = [] := by
  rcases Nat.lt_or_ge l.length k with hk | hk
  · exact List.drop_eq_nil_of_le (by simp only [List.length_append, List.length_singleton]; omega)
  · rw [List.drop_append_of_le_length hk] at hn
    exact absurd (List.mem_append_right _ (List.mem_singleton_self n)) hn

theorem Inv.insert_evicts (h : Inv s handles) (hfresh : s.entries n = none) {key : Bytes} {value : Nat}
    {charge : UInt64} {deleter : Nat} (hi : s.insert n key value charge deleter = some (s', calls)) :
    (∃ k, s'.lru = ((s.find key).elim s.lru s.lru.erase ++ [n]).drop k) ∧
      s'.find key = if s'.usage ≤ s'.capacity then some n else none := by
  obtain ⟨s2, calls2, hi2, hinv', hstep⟩ := h.insert hfresh key value charge deleter
  obtain ⟨rfl, rfl⟩ := Prod.mk.inj (Option.some_inj.1 (hi.symm.trans hi2))
  set rest := (s.find key).elim s.lru s.lru.erase
  have hrest : n ∉ rest := fun h' => h.lru_live n (by
    rcases hf : s.find key with _ | b <;> simp only [rest, hf, Option.elim] at h' <;>
      [exact h'; exact List.erase_subset _ _ h']) hfresh
  obtain ⟨s₁, _, _, hr, hlr, -, he, -⟩ := insert_eq_some hi
  have hn1 : s₁.entries n = some ⟨key, value, deleter, charge, 2⟩ := by
    rcases hf : s.find key with _ | b <;> rw [hf] at hr <;>
      simp only [Option.elim, Option.some_inj, Prod.mk.injEq] at hr
    · rw [← hr.1]; simp
    · have hbn : n ≠ b := fun h' => h.lru_live n (h' ▸ (find_some hf).1) hfresh
      rw [unref_entries_ne hr hbn]; simp
  obtain ⟨k, hk⟩ := evictFrom_lru_drop _ _ he
  rw [hlr] at hk
  refine ⟨⟨k, hk⟩, ?_⟩
  by_cases hn : n ∈ s'.lru
  · rw [if_pos ((evictFrom_fits _ _ he).resolve_right (List.ne_nil_of_mem hn))]
    obtain ⟨e', he'⟩ := Option.ne_none_iff_exists'.1 (hinv'.lru_live n hn)
    obtain ⟨e0, h0, hkey, -⟩ := hstep.origin he'
    simp only [Function.update_same, Option.some_inj] at h0
    rw [← (hinv'.find_eq_some_iff he').2 hn, hkey, ← h0]
  · have hnil : s'.lru = [] := hk.trans (drop_append_singleton_eq_nil (hk ▸ hn))
    have hover := evictFrom_empty_over rest s₁ hrest ⟨_, hn1, Nat.le_refl 2⟩ (hlr ▸ he) hnil
    rw [if_neg (show ¬ s'.usage ≤ s'.capacity from Nat.not_le.2 hover)]
    simp [LruMap.find, hnil]

theorem insert_capacity {key : Bytes} {value : Nat} {charge : UInt64} {deleter : Nat}
    (hi : s.insert n key value charge deleter = some (s', calls)) : s'.capacity = s.capacity := by
  obtain ⟨s₁, _, _, -, -, hc, he, -⟩ := insert_eq_some hi
  exact (evictFrom_capacity _ _ he).trans hc

theorem evictFrom_of_fits (hu : ¬ s.usage > s.capacity) (l : List Nat) :
    s.evictFrom l = some ({ s with lru := l }, []) := by
  cases l <;> simp [LruMap.evictFrom, hu]

theorem liveCharge_unref_le (h : s.unref a = some (s', calls)) (ha : a < n) : s'.liveCharge n ≤ s.liveCharge n := by
  obtain ⟨e, he, -, ⟨-, hs, -⟩ | ⟨-, hs, -⟩⟩ := unref_eq_some h <;>
    have := liveCharge_update ha (congrArg LruMap.entries hs)
  · simp only [Option.map_none', Option.getD_none, Nat.add_zero] at this
    exact this ▸ Nat.le_add_right _ _
  · simp only [charge, he, Option.map_some', Option.getD_some] at this
    omega

theorem Usage.insert_of_fits (h : Usage s n) (hinv : Inv s handles) {key : Bytes} {value : Nat} {charge : UInt64}
    {deleter : Nat} (hfit : s.liveCharge n + charge.toNat ≤ s.capacity.toNat)
    (hi : s.insert n key value charge deleter = some (s', calls)) :
    s'.lru = (s.find key).elim s.lru s.lru.erase ++ [n] := by
  obtain ⟨r, _, _, hr, hlr, hcap, hr', -⟩ := insert_eq_some hi
  set s1 := s.link ((s.find key).elim s.lru s.lru.erase) n ⟨key, value, deleter, charge, 2⟩
  have h1 : Usage s1 (n + 1) := h.link _ _
  have hr1 : Usage r (n + 1) ∧ r.liveCharge (n + 1) ≤ s1.liveCharge (n + 1) := by
    rcases hf : s.find key with _ | b <;> rw [hf] at hr <;>
      simp only [Option.elim, Option.some_inj, Prod.mk.injEq] at hr
    · obtain ⟨rfl, -⟩ := hr
      exact ⟨h1, le_rfl⟩
    · have hb : b < n + 1 := Nat.lt_succ_of_lt (h.lt (hinv.lru_live b (find_some hf).1))
      exact ⟨h1.unref hr, liveCharge_unref_le hr hb⟩
  have hfits : ¬ r.usage > r.capacity := fun hlt => by
    have hlc : s1.liveCharge (n + 1) = s.liveCharge n + charge.toNat := liveCharge_link _ _
    have hlt' : r.capacity.toNat < r.usage.toNat := hlt
    rw [hcap] at hlt'
    have := Nat.mod_le (r.liveCharge (n + 1)) (2 ^ 64)
    have := hr1.1.usage
    have := hr1.2
    omega
  rw [evictFrom_of_fits hfits, Option.some_inj, Prod.mk.injEq] at hr'
  rw [← hr'.1, ← hlr]

end Evict

end LruMap

theorem LruClient.capacity_call {w w' : LruClient} {op : ShardOp} {calls : List DeleterCall} {out : Ptr}
    (hc : w.call op = some (w', calls, out)) : w'.map.capacity = w.map.capacity := by
  rcases LruClient.call_eq_some hc with ⟨_, _, _, _, hi, -⟩ | ⟨_, hm, -⟩ | ⟨_, hu, -⟩ | ⟨_, he, -⟩
  · exact LruMap.insert_capacity hi
  · rw [hm, LruMap.lookup]
    split <;> rfl
  · exact LruMap.unref_capacity hu
  · unfold LruMap.erase at he
    split at he
    · exact (Prod.mk.inj (Option.some_inj.1 he)).1 ▸ rfl
    · exact (LruMap.unref_capacity he).trans rfl

theorem ShardRep.heap_key {Hash : Bytes → UInt32} {c : LRUCache} {m : Mem} {s : LruMap}
    (h : ShardRep Hash c m s) {b : Nat} (hb : b ∈ s.lru) : (m.heap b).map LRUHandle.key = (s.entries b).map Entry.key := by
  obtain ⟨e, he⟩ := Option.ne_none_iff_exists'.1 (h.lru_live b hb)
  obtain ⟨hc, hhc, rfl, -⟩ := h.heap_eq he
  simp [hhc, he]

theorem ShardRep.filter_key_eq {Hash : Bytes → UInt32} {c : LRUCache} {m : Mem} {s : LruMap} {handles : List Nat}
    (h : ShardRep Hash c m s) (hinv : s.Inv handles) (key : Bytes) :
    (s.lru.filter fun b => (m.heap b).map LRUHandle.key ≠ some key) = (s.find key).elim s.lru s.lru.erase := by
  rw [hinv.find_elim_eq_filter]
  exact List.filter_congr fun b hb => by rw [h.heap_key hb]

theorem lru_cache_insert_evicts_held_entry :
    ((LRUCache.new.setCapacity 0).run (fun _ => 0) Mem.empty [.insert [1] 7 1 0]).map
        (fun r => (r.1.lruNext, (r.2.1.heap 0).map LRUHandle.refs)) = some (.head, some 1) ∧
      ((LRUCache.new.setCapacity 0).run (fun _ => 0) Mem.empty [.insert [1] 7 1 0, .lookup [1]]).map
        (fun r => r.2.2) = some [.cell 0, .null] := by
  decide

theorem lru_cache_insert_evicts_oldest (Hash : Bytes → UInt32) (capacity : UInt64) (ops : List ShardOp)
    (key : Bytes) (value : Nat) (charge : UInt64) (deleter : Nat)
    (ha : (LruClient.init capacity).Allows (ops ++ [.insert key value charge deleter])) :
    ∃ c m outs l c' m',
      (LRUCache.new.setCapacity capacity).run Hash Mem.empty ops = some (c, m, outs) ∧ c.walk m = some l ∧
      c.insert m key (Hash key) value charge deleter = some (c', m', .cell m.nextAddr) ∧
      (∃ k, c'.walk m' =
        some (((l.filter fun b => (m.heap b).map LRUHandle.key ≠ some key) ++ [m.nextAddr]).drop k)) ∧
      ∃ c'' m'', c'.lookup m' key (Hash key) =
        some (c'', m'', if c'.usage ≤ c'.capacity then .cell m.nextAddr else .null) := by
  obtain ⟨ha', hp⟩ := ha.snoc
  obtain ⟨c, m, w, calls, outs, hc, hw, h, -⟩ := (ClientRep.init Hash capacity).run ha'
  have hfresh := h.shard.nextAddr_fresh h.bounded
  obtain ⟨s', calls', he, -, -⟩ := h.inv.insert hfresh key value charge deleter
  obtain ⟨c', m', hins, hrep, hm', -⟩ :=
    h.shard.insert h.bounded h.inv (hp w calls outs hw) key value charge deleter he
  obtain ⟨⟨k, hk⟩, hfind⟩ := h.inv.insert_evicts hfresh he
  obtain ⟨c'', m'', hl, -⟩ := hrep.lookup hm' key
  refine ⟨c, m, outs, w.map.lru, c', m', hc, h.shard.ring.walk h.bounded, hins, ⟨k, ?_⟩, c'', m'', ?_⟩
  · rw [hrep.ring.walk hm', hk, h.shard.filter_key_eq h.inv]
  · rw [hl, LruMap.lookup_snd, hfind, hrep.usage, hrep.capacity]
    split <;> rfl

theorem lru_cache_insert_evicts_oldest_after_release :
    (LruClient.init 2).Allows ([.insert [1] 7 1 0, .release 0, .insert [2] 8 1 0] ++ [.insert [3] 9 1 0]) ∧
    ∃ c m outs l c' m',
      (LRUCache.new.setCapacity 2).run (fun _ => 0) Mem.empty [.insert [1] 7 1 0, .release 0, .insert [2] 8 1 0] =
        some (c, m, outs) ∧ c.walk m = some l ∧
      c.insert m [3] 0 9 1 0 = some (c', m', .cell m.nextAddr) ∧
      (∃ k, c'.walk m' =
        some (((l.filter fun b => (m.heap b).map LRUHandle.key ≠ some [3]) ++ [m.nextAddr]).drop k)) ∧
      ∃ c'' m'', c'.lookup m' [3] 0 =
        some (c'', m'', if c'.usage ≤ c'.capacity then .cell m.nextAddr else .null) :=
  ⟨by decide, lru_cache_insert_evicts_oldest (fun _ => 0) 2 _ [3] 9 1 0 (by decide)⟩

theorem sharded_lru_cache_per_shard_wraps (capacity : UInt64) (hc : 2 ^ 64 - 15 ≤ capacity.toNat) :
    ShardedLRUCache.perShard capacity = 0 ∧
      ((ShardedLRUCache.new capacity).run (fun _ => 0) Mem.empty [.insert [1] 7 1 0, .lookup [1]]).map
        (fun r => r.2.2) = some [.cell 0, .null] := by
  have h0 : ShardedLRUCache.perShard capacity = 0 := by
    have := uint64_toNat_lt capacity
    rw [uint64_eq_iff]
    show (capacity.toNat + 15) % 2 ^ 64 / 16 = 0
    omega
  refine ⟨h0, ?_⟩
  rw [ShardedLRUCache.new, h0]
  decide

theorem sharded_lru_cache_per_shard_wraps_max :
    2 ^ 64 - 15 ≤ (UInt64.ofNat (2 ^ 64 - 1)).toNat ∧
      (ShardedLRUCache.perShard (UInt64.ofNat (2 ^ 64 - 1)) = 0 ∧
        ((ShardedLRUCache.new (UInt64.ofNat (2 ^ 64 - 1))).run (fun _ => 0) Mem.empty
          [.insert [1] 7 1 0, .lookup [1]]).map (fun r => r.2.2) = some [.cell 0, .null]) :=
  ⟨by decide, sharded_lru_cache_per_shard_wraps _ (by decide)⟩

theorem lru_cache_per_shard_insert_evicts_nothing (Hash : Bytes → UInt32) (capacity : UInt64)
    (hc : capacity.toNat + 15 < 2 ^ 64) (ops : List ShardOp) (key : Bytes) (value : Nat) (charge : UInt64)
    (deleter : Nat)
    (ha : (LruClient.init (ShardedLRUCache.perShard capacity)).Allows (ops ++ [.insert key value charge deleter])) :
    (ShardedLRUCache.perShard capacity).toNat = (capacity.toNat + 15) / 16 ∧
      capacity.toNat ≤ 16 * (ShardedLRUCache.perShard capacity).toNat ∧
      ∃ c m outs l c' m',
        (LRUCache.new.setCapacity (ShardedLRUCache.perShard capacity)).run Hash Mem.empty ops = some (c, m, outs) ∧
        c.walk m = some l ∧ c.insert m key (Hash key) value charge deleter = some (c', m', .cell m.nextAddr) ∧
        (∑ a ∈ Finset.range m.nextAddr, m.chargeAt a + charge.toNat ≤ (ShardedLRUCache.perShard capacity).toNat →
          c'.walk m' = some ((l.filter fun b => (m.heap b).map LRUHandle.key ≠ some key) ++ [m.nextAddr])) := by
  have hps : (ShardedLRUCache.perShard capacity).toNat = (capacity.toNat + 15) / 16 := by
    show (capacity.toNat + 15) % 2 ^ 64 / 16 = _
    rw [Nat.mod_eq_of_lt hc]
  refine ⟨hps, by omega, ?_⟩
  obtain ⟨ha', hp⟩ := ha.snoc
  obtain ⟨c, m, w, calls, outs, hc', hw, h, -⟩ := (ClientRep.init Hash _).run ha'
  obtain ⟨s', calls', he, -, -⟩ := h.inv.insert (h.shard.nextAddr_fresh h.bounded) key value charge deleter
  obtain ⟨c', m', hins, hrep, hm', -⟩ :=
    h.shard.insert h.bounded h.inv (hp w calls outs hw) key value charge deleter he
  have hu : w.map.Usage m.nextAddr := h.next ▸ LruClient.usage_run (LruMap.Usage.empty _) hw
  have hcap : w.map.capacity = ShardedLRUCache.perShard capacity :=
    LruClient.run_invariant (fun w => w.map.capacity = ShardedLRUCache.perShard capacity)
      (fun h' hc => (LruClient.capacity_call hc).trans h') rfl hw
  refine ⟨c, m, outs, w.map.lru, c', m', hc', h.shard.ring.walk h.bounded, hins, fun hfit => ?_⟩
  have hle : w.map.liveCharge m.nextAddr ≤ ∑ a ∈ Finset.range m.nextAddr, m.chargeAt a :=
    Finset.sum_le_sum fun a _ => by
      by_cases ha : w.map.entries a = none
      · simp [LruMap.charge, ha]
      · exact (h.shard.chargeAt_eq ha).ge
  have hlru := hu.insert_of_fits h.inv (by rw [hcap]; omega) he
  rw [hrep.ring.walk hm', hlru, h.shard.filter_key_eq h.inv]

theorem lru_cache_per_shard_insert_evicts_nothing_small :
    (32 : UInt64).toNat + 15 < 2 ^ 64 ∧
      (LruClient.init (ShardedLRUCache.perShard 32)).Allows ([.insert [1] 7 1 0] ++ [.insert [2] 8 1 0]) ∧
      ((ShardedLRUCache.perShard 32).toNat = ((32 : UInt64).toNat + 15) / 16 ∧
        (32 : UInt64).toNat ≤ 16 * (ShardedLRUCache.perShard 32).toNat ∧
        ∃ c m outs l c' m',
          (LRUCache.new.setCapacity (ShardedLRUCache.perShard 32)).run (fun _ => 0) Mem.empty [.insert [1] 7 1 0] =
            some (c, m, outs) ∧
          c.walk m = some l ∧ c.insert m [2] 0 8 1 0 = some (c', m', .cell m.nextAddr) ∧
          (∑ a ∈ Finset.range m.nextAddr, m.chargeAt a + (1 : UInt64).toNat ≤ (ShardedLRUCache.perShard 32).toNat →
            c'.walk m' = some ((l.filter fun b => (m.heap b).map LRUHandle.key ≠ some [2]) ++ [m.nextAddr]))) :=
  ⟨by decide, by decide, lru_cache_per_shard_insert_evicts_nothing (fun _ => 0) 32 (by decide) _ [2] 8 1 0 (by decide)⟩

end LevelDbProofs.Cache
