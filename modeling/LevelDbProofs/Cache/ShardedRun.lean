import LevelDbProofs.Cache.ShardedRep

/-!
Runs of the sharded cache under its client.
-/

namespace LevelDbProofs.Cache

open LevelDbProofs.Util

namespace CacheClient

variable {Hash : Bytes → UInt32} {w w' : CacheClient}

theorem Good.born_of_held (hg : w.Good Hash) {a : Nat} (hh : w.Held Hash a) : w.born a ≠ none := by
  rcases hh with hin | hh
  · intro hb
    simp [inTable, hb] at hin
  · obtain ⟨d, -, hd, -⟩ := hg.routed a hh
    simp [hd]

theorem Good.calls_iff (hg : w.Good Hash) (hg' : w'.Good Hash) {calls : List DeleterCall}
    (hlog : w'.mem.log = w.mem.log ++ calls) (hborn : ∀ a, w'.born a ≠ w.born a → a ∈ w'.handles) (a : Nat) :
    a ∈ calls.map DeleterCall.entry ↔ w.Held Hash a ∧ ¬ w'.Held Hash a := by
  have hnd := hg'.deleted_once
  rw [hlog, List.map_append, List.nodup_append] at hnd
  have hsame : ¬ w'.Held Hash a → w'.born a = w.born a := fun hn => by
    by_contra hne
    exact hn (Or.inr (hborn a hne))
  have hfreed : ∀ {v : CacheClient}, v.Good Hash → v.born a ≠ none →
      (a ∈ v.mem.log.map DeleterCall.entry ↔ ¬ v.Held Hash a) := fun hv hb => by
    rw [hv.deleted_iff a hb, Held, not_or, Bool.not_eq_true]
  constructor
  · intro hx
    have hnot : a ∉ w.mem.log.map DeleterCall.entry := fun h1 => hnd.2.2 h1 hx
    have hx' : a ∈ w'.mem.log.map DeleterCall.entry := by
      rw [hlog, List.map_append]
      exact List.mem_append_right _ hx
    obtain ⟨d, hd, rfl⟩ := List.mem_map.1 hx
    have hb' : w'.born d.entry ≠ none := by
      rw [hg'.deleted_born d (by rw [hlog]; exact List.mem_append_right _ hd)]
      exact Option.some_ne_none _
    have hnh' := (hfreed hg' hb').1 hx'
    refine ⟨by_contra fun hnh => hnot ((hfreed hg ?_).2 hnh), hnh'⟩
    rwa [← hsame hnh']
  · rintro ⟨hh, hnh'⟩
    have hb := hg.born_of_held hh
    have hx' := (hfreed hg' (by rwa [hsame hnh'])).2 hnh'
    rw [hlog, List.map_append] at hx'
    exact (List.mem_append.1 hx').resolve_left fun h1 => (hfreed hg hb).1 h1 hh

end CacheClient

theorem sharded_lru_cache_handles_safe (Hash : Bytes → UInt32) (capacity : UInt64) {w : CacheClient}
    (hw : w.Reachable Hash capacity) :
    w.Good Hash ∧ ∀ op, w.Permits Hash op → ∃ w' out calls, w.call Hash op = some (w', out) ∧
      w'.mem.log = w.mem.log ++ calls ∧
      ∀ a, a ∈ calls.map DeleterCall.entry ↔ w.Held Hash a ∧ ¬ w'.Held Hash a := by
  obtain ⟨s, h⟩ := hw.rep
  refine ⟨h.good, fun op hp => ?_⟩
  obtain ⟨w', out, s', calls, hc, h', hlog, hborn, -⟩ := h.call hp
  exact ⟨w', out, calls, hc, hlog, h.good.calls_iff h'.good hlog hborn⟩

theorem sharded_lru_cache_handles_safe_erased_held :
    ∃ w : CacheClient, w.Reachable (fun _ => 0) 64 ∧ w.handles = [0, 1, 0] ∧ w.inTable (fun _ => 0) 0 = false ∧
      w.inTable (fun _ => 0) 1 = true ∧
      (w.Good (fun _ => 0) ∧ ∀ op, w.Permits (fun _ => 0) op → ∃ w' out calls, w.call (fun _ => 0) op = some (w', out) ∧
        w'.mem.log = w.mem.log ++ calls ∧
        ∀ a, a ∈ calls.map DeleterCall.entry ↔ w.Held (fun _ => 0) a ∧ ¬ w'.Held (fun _ => 0) a) := by
  obtain ⟨w, _, _, hw, -, hp⟩ := CacheClient.exists_of_runAllowed (fun _ => 0) 64
    [.insert [1] 7 1 0, .insert [2] 8 1 0, .lookup [1], .erase [1]] []
    (fun w _ _ => decide (w.handles = [0, 1, 0] ∧ w.inTable (fun _ => 0) 0 = false ∧ w.inTable (fun _ => 0) 1 = true))
    (by decide)
  obtain ⟨h1, h2, h3⟩ := of_decide_eq_true hp
  exact ⟨w, hw.reachable, h1, h2, h3, sharded_lru_cache_handles_safe (fun _ => 0) 64 hw.reachable⟩

theorem sharded_lru_cache_lookup_sound (Hash : Bytes → UInt32) (capacity : UInt64) {w : CacheClient}
    (hw : w.Reachable Hash capacity) (key : Bytes) (hp : w.handles.length + 2 < 2 ^ 32) :
    ∃ w' out, w.call Hash (.lookup key) = some (w', out) ∧ ∀ a, out = .cell a →
      ∃ d, w.born a = some d ∧ d.key = key ∧ ShardedLRUCache.value w'.mem (.cell a) = some d.value := by
  obtain ⟨s, h⟩ := hw.rep
  obtain ⟨w', out, s', -, hc, h', -⟩ := h.lookup hp key
  refine ⟨w', out, hc, fun a hout => ?_⟩
  obtain ⟨-, hhandles, hborn⟩ := CacheClient.call_eq_some hc
  rw [h.lookup_out hc] at hout
  obtain ⟨e, he, hkey⟩ : ∃ e, (s (shardOf (Hash key))).entries a = some e ∧ e.key = key := by
    rcases hf : (s (shardOf (Hash key))).find key with _ | b <;> rw [hf] at hout <;> cases hout
    obtain ⟨e, he, hk⟩ := Option.map_eq_some'.1 (LruMap.find_some hf).2
    exact ⟨e, he, hk⟩
  have hd := h.born_entry _ a e he
  obtain ⟨d', hd', -, hv⟩ := h'.good.value a (by simp [hhandles, h.lookup_out hc, hout, CacheClient.handlesAfter])
  rw [hborn, CacheClient.bornAfter_lookup, hd, Option.some_inj] at hd'
  exact ⟨e.call a, hd, hkey, hd' ▸ hv⟩

theorem sharded_lru_cache_lookup_sound_held :
    ∃ w : CacheClient, w.Reachable (fun _ => 0) 64 ∧ w.handles = [0, 1, 0] ∧
      (w.call (fun _ => 0) (.lookup [2])).map Prod.snd = some (.cell 1) ∧
      ∃ w' out, w.call (fun _ => 0) (.lookup [2]) = some (w', out) ∧ ∀ a, out = .cell a →
        ∃ d, w.born a = some d ∧ d.key = [2] ∧ ShardedLRUCache.value w'.mem (.cell a) = some d.value := by
  obtain ⟨w, _, _, hw, -, hp⟩ := CacheClient.exists_of_runAllowed (fun _ => 0) 64
    [.insert [1] 7 1 0, .insert [2] 8 1 0, .lookup [1], .erase [1]] []
    (fun w _ _ => decide (w.handles = [0, 1, 0] ∧ (w.call (fun _ => 0) (.lookup [2])).map Prod.snd = some (.cell 1)))
    (by decide)
  obtain ⟨h1, h2⟩ := of_decide_eq_true hp
  exact ⟨w, hw.reachable, h1, h2, sharded_lru_cache_lookup_sound (fun _ => 0) 64 hw.reachable [2] (by rw [h1]; decide)⟩

theorem CacheClient.Remembers.lookup_out {Hash : Bytes → UInt32} {capacity : UInt64} {w w' : CacheClient}
    {dict : Bytes → Option Nat} (hw : w.Remembers Hash capacity dict) {key : Bytes} {out : Ptr}
    (hc : w.call Hash (.lookup key) = some (w', out)) :
    out = .null ∨ ∃ a, out = .cell a ∧ dict key = some a := by
  obtain ⟨s, h, hf⟩ := hw.rep
  rw [h.lookup_out hc]
  rcases hfk : (s (shardOf (Hash key))).find key with _ | b
  · exact .inl rfl
  · exact .inr ⟨b, rfl, hf key b hfk⟩

theorem sharded_lru_cache_never_stale (Hash : Bytes → UInt32) (capacity : UInt64) {w : CacheClient}
    {dict : Bytes → Option Nat} (hw : w.Remembers Hash capacity dict) (key : Bytes)
    (hp : w.handles.length + 2 < 2 ^ 32) :
    ∃ w' out, w.call Hash (.lookup key) = some (w', out) ∧ ∀ a, out = .cell a → dict key = some a := by
  obtain ⟨s, h, -⟩ := hw.rep
  obtain ⟨w', out, -, -, hc, -⟩ := h.lookup hp key
  refine ⟨w', out, hc, fun a ha => ?_⟩
  rcases hw.lookup_out hc with rfl | ⟨b, rfl, hb⟩
  · cases ha
  · cases ha
    exact hb

theorem sharded_lru_cache_never_stale_held :
    ∃ (w : CacheClient) (dict : Bytes → Option Nat), w.Remembers (fun _ => 0) 64 dict ∧ w.handles = [0, 1, 0] ∧
      dict [1] = none ∧ dict [2] = some 1 ∧
      ∃ w' out, w.call (fun _ => 0) (.lookup [2]) = some (w', out) ∧ ∀ a, out = .cell a → dict [2] = some a := by
  obtain ⟨w, dict, _, hw, -, hp⟩ := CacheClient.exists_of_runAllowed (fun _ => 0) 64
    [.insert [1] 7 1 0, .insert [2] 8 1 0, .lookup [1], .erase [1]] []
    (fun w dict _ => decide (w.handles = [0, 1, 0] ∧ dict [1] = none ∧ dict [2] = some 1)) (by decide)
  obtain ⟨h1, h2, h3⟩ := of_decide_eq_true hp
  exact ⟨w, dict, hw, h1, h2, h3, sharded_lru_cache_never_stale (fun _ => 0) 64 hw [2] (by rw [h1]; decide)⟩

theorem sharded_lru_cache_erase_forgets (Hash : Bytes → UInt32) (capacity : UInt64) {w w' : CacheClient}
    {ops : List ShardOp} {key : Bytes} (hw : w.Reachable Hash capacity) (hr : w.Runs Hash (.erase key :: ops) w')
    (hops : ∀ value charge deleter, .insert key value charge deleter ∉ ops)
    (hp : w'.handles.length + 2 < 2 ^ 32) :
    ∃ w'', w'.call Hash (.lookup key) = some (w'', .null) := by
  obtain ⟨dict, hd⟩ := hw.remembers
  cases hr with
  | cons hpe hc hr =>
    obtain ⟨dict', hd', hk⟩ := (hd.step hpe hc).runs (by simp) hr hops
    obtain ⟨s, h, -⟩ := hd'.rep
    obtain ⟨w'', out, -, -, hc', -⟩ := h.lookup hp key
    rcases hd'.lookup_out hc' with rfl | ⟨a, -, ha⟩
    · exact ⟨w'', hc'⟩
    · rw [hk] at ha
      cases ha

theorem sharded_lru_cache_erase_forgets_held :
    ∃ w w' : CacheClient, w.Reachable (fun _ => 0) 64 ∧ w.handles = [0, 1, 0] ∧
      w.Runs (fun _ => 0) [.erase [1], .insert [3] 9 1 0, .release 0, .lookup [2]] w' ∧ w'.handles = [1, 2, 1, 0] ∧
      ∃ w'', w'.call (fun _ => 0) (.lookup [1]) = some (w'', .null) := by
  obtain ⟨w, _, w', hw, hr, hp⟩ := CacheClient.exists_of_runAllowed (fun _ => 0) 64
    [.insert [1] 7 1 0, .insert [2] 8 1 0, .lookup [1]] [.erase [1], .insert [3] 9 1 0, .release 0, .lookup [2]]
    (fun w _ w' => decide (w.handles = [0, 1, 0] ∧ w'.handles = [1, 2, 1, 0])) (by decide)
  obtain ⟨h1, h2⟩ := of_decide_eq_true hp
  exact ⟨w, w', hw.reachable, h1, hr, h2,
    sharded_lru_cache_erase_forgets (fun _ => 0) 64 hw.reachable hr (by simp) (by rw [h2]; decide)⟩

theorem LruMap.lookup_link_single (capacity : UInt64) (key : Bytes) (r : UInt32) :
    ((LruMap.empty capacity).link [] 0 ⟨key, 0, 0, 0, r⟩).lookup key =
      ((LruMap.empty capacity).link [] 0 ⟨key, 0, 0, 0, r + 1⟩, some 0) := by
  simp [LruMap.lookup, LruMap.find, LruMap.link, LruMap.empty]

theorem insert_lookups_run (Hash : Bytes → UInt32) (capacity : UInt64) (key : Bytes) : ∀ n, ∃ c m,
    (ShardedLRUCache.new capacity).run Hash Mem.empty (.insert key 0 0 0 :: List.replicate n (.lookup key)) =
      some (c, m, List.replicate (n + 1) (.cell 0)) ∧
    ShardRep Hash (c.shard (shardOf (Hash key))) m
      ((LruMap.empty (ShardedLRUCache.perShard capacity)).link [] 0 ⟨key, 0, 0, 0, UInt32.ofNat (n + 2)⟩) ∧
    m.Bounded
  | 0 => by
    have he : (LruMap.empty (ShardedLRUCache.perShard capacity)).insert Mem.empty.nextAddr key 0 0 0 =
        some ((LruMap.empty _).link [] 0 ⟨key, 0, 0, 0, 2⟩, []) :=
      LruMap.insert_of_fits rfl fun h => Nat.not_lt_zero _ h
    obtain ⟨c', m', hc, hrep, hm', -⟩ := (ClientRep.init Hash (ShardedLRUCache.perShard capacity)).shard.insert
      (fun _ h => absurd rfl h) (LruMap.Inv.empty _) (Nat.two_pow_pos 31) key 0 0 0 he
    refine ⟨(ShardedLRUCache.new capacity).setShard (shardOf (Hash key)) c', m', ?_,
      by rw [ShardedLRUCache.setShard_same]; exact hrep, hm'⟩
    simp [ShardedLRUCache.run, ShardedLRUCache.call, ShardedLRUCache.insert, ShardedLRUCache.new, hc]
    rfl
  | n + 1 => by
    obtain ⟨c, m, hrun, hrep, hm⟩ := insert_lookups_run Hash capacity key n
    obtain ⟨c', m', hc, hrep', hm', -⟩ := hrep.lookup hm key
    have hr : UInt32.ofNat (n + 2) + 1 = UInt32.ofNat (n + 1 + 2) := by
      rw [show n + 1 + 2 = n + 2 + 1 by omega, uint32_ofNat_add (n + 2) 1]
      rfl
    rw [LruMap.lookup_link_single, hr] at hc hrep'
    refine ⟨c.setShard (shardOf (Hash key)) c', m', ?_, by rw [ShardedLRUCache.setShard_same]; exact hrep', hm'⟩
    rw [List.replicate_succ', ← List.cons_append, ShardedLRUCache.run_snoc, hrun]
    simp [ShardedLRUCache.call, ShardedLRUCache.lookup, hc, List.replicate_succ']

theorem sharded_lru_cache_lookups_wrap_refs :
    ∃ c m, (ShardedLRUCache.new 0).run (fun _ => 0) Mem.empty
        (.insert [] 0 0 0 :: List.replicate (2 ^ 32 - 2) (.lookup [])) =
          some (c, m, List.replicate (2 ^ 32 - 1) (.cell 0)) ∧
      (∃ h, m.heap 0 = some h ∧ h.refs = 0) ∧ c.release m (.cell 0) = none := by
  obtain ⟨c, m, hrun, hrep, -⟩ := insert_lookups_run (fun _ => 0) 0 [] (2 ^ 32 - 2)
  have hent : ((LruMap.empty (ShardedLRUCache.perShard 0)).link [] 0
      ⟨[], 0, 0, 0, UInt32.ofNat (2 ^ 32 - 2 + 2)⟩).entries 0 = some ⟨[], 0, 0, 0, UInt32.ofNat (2 ^ 32 - 2 + 2)⟩ := by
    simp
  obtain ⟨hc, hhc, he, -⟩ := hrep.heap_eq hent
  have hrefs : hc.refs = 0 := by rw [← LRUHandle.entry_refs, he]; rfl
  refine ⟨c, m, hrun, ⟨hc, hhc, hrefs⟩, ?_⟩
  simp [ShardedLRUCache.release, Mem.deref, hhc, LRUCache.release, LRUCache.unref_cell _ m hhc, hrefs]

end LevelDbProofs.Cache
