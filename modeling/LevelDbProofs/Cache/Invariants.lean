import LevelDbProofs.Cache.ShardRun

/-!
The bucket chains and the LRU ring at every state a shard's client reaches, and the end of every loop
of the shard.
-/

namespace LevelDbProofs.Cache

open LevelDbProofs.Util

section Ring

variable {f g : Ptr → Option Ptr} {x : Ptr} {c : LRUCache} {m : Mem} {l : List Nat}

theorem Path.inverse (hf : Path f x l x) (hg : Path g x l.reverse x) :
    ∀ u ∈ sources x l, ∃ v, f u = some v ∧ g v = some u := by
  intro u hu
  rcases List.mem_cons.1 hu with rfl | hu
  · exact ⟨_, hf.first, by rw [← lastNode_reverse]; exact hg.last⟩
  · obtain ⟨a, ha, rfl⟩ := List.mem_map.1 hu
    obtain ⟨pre, suf, rfl⟩ := List.append_of_mem ha
    rw [List.reverse_append, List.reverse_cons, List.append_assoc, List.singleton_append] at hg
    exact ⟨_, (path_append_cons.1 hf).2.first, by rw [← lastNode_reverse]; exact (path_append_cons.1 hg).1.last⟩

theorem Ring.next_prev (h : Ring c m l) : ∀ u ∈ sources .head l, ∃ v, c.next m u = some v ∧ c.prev m v = some u :=
  Path.inverse h.next h.prev

theorem Ring.prev_next (h : Ring c m l) : ∀ u ∈ sources .head l, ∃ v, c.prev m u = some v ∧ c.next m v = some u :=
  fun u hu => Path.inverse h.prev (by rw [List.reverse_reverse]; exact h.next) u (by
    simpa [sources, List.mem_reverse] using hu)

theorem Ring.next_ne_self (h : Ring c m l) {a : Nat} (ha : a ∈ l) : c.next m (.cell a) ≠ some (.cell a) := by
  obtain ⟨pre, suf, rfl⟩ := List.append_of_mem ha
  rw [(path_append_cons.1 h.next).2.first]
  cases suf with
  | nil => simp
  | cons b suf =>
    have hnd := (List.nodup_append.1 h.nodup).2.1
    simp only [firstNode_cons, ne_eq, Option.some_inj, Ptr.cell.injEq]
    rintro rfl
    exact (List.nodup_cons.1 hnd).1 (List.mem_cons_self _ _)

end Ring

def HandleTable.Holds (t : HandleTable) (m : Mem) (es : List Nat) : Prop :=
  t.list.length = t.length.toNat ∧ (∃ k ≤ 31, t.length.toNat = 2 ^ k) ∧ 4 ≤ t.length.toNat ∧
    t.elems.toNat = es.length ∧
    (∃ cs : List (List Nat), cs.length = t.list.length ∧ cs.flatten.Nodup ∧ cs.flatten.Perm es ∧
      ∀ i, Chain m (t.list.getD i .null) (cs.getD i []) ∧
        ∀ a ∈ cs.getD i [], ∃ c, m.heap a = some c ∧ (c.hash &&& (t.length - 1)).toNat = i) ∧
    es.Pairwise fun a b => m.ident a ≠ m.ident b

section Table

variable {t : HandleTable} {m : Mem} {es : List Nat}

theorem TableRep.holds (h : TableRep t m es) : t.Holds m es := by
  obtain ⟨cs, hb, hperm⟩ := h.buckets
  obtain ⟨k, hk, hlen⟩ := h.length_pow
  refine ⟨h.length_list, ⟨k, hk, hlen⟩, h.length_ge, h.elems_eq,
    ⟨cs, hb.length_eq, hb.nodup, hperm, fun i => ⟨hb.chains i, fun a ha => ?_⟩⟩, h.distinct⟩
  obtain ⟨c, hc, hi⟩ := hb.bucket i a ha
  exact ⟨c, hc, by rw [bucket_eq_mod hk hlen, ← h.length_list, ← hb.length_eq, hi]⟩

theorem HandleTable.Holds.buckets (h : t.Holds m es) : ∃ cs, Buckets t.list m cs ∧ cs.flatten.Perm es := by
  obtain ⟨hlist, ⟨k, hk, hlen⟩, -, -, ⟨cs, hcs, hnd, hperm, hch⟩, -⟩ := h
  refine ⟨cs, ⟨hcs, fun i => (hch i).1, fun i a ha => ?_, hnd⟩, hperm⟩
  obtain ⟨c, hc, hi⟩ := (hch i).2 a ha
  exact ⟨c, hc, by rw [hcs, hlist, ← bucket_eq_mod hk hlen, hi]⟩

theorem HandleTable.Holds.resize (h : t.Holds m es) (hle : es.length ≤ 2 ^ 31) (hm : m.Bounded) :
    ∃ t' m', t.resize m = some (t', m') ∧ t'.elems = t.elems ∧ t'.Holds m' es ∧ es.length ≤ t'.length.toNat := by
  obtain ⟨cs, hb, hperm⟩ := h.buckets
  obtain ⟨t', m', hres, hrep, he, -⟩ := hb.resize hperm h.2.2.2.1 hle h.2.2.2.2.2 hm
  exact ⟨t', m', hres, he, hrep.holds, hrep.elems_le⟩

end Table

theorem lru_cache_internal_invariants (Hash : Bytes → UInt32) (capacity : UInt64) (ops : List ShardOp)
    (ha : (LruClient.init capacity).Allows ops) :
    ∃ c m outs l,
      (LRUCache.new.setCapacity capacity).run Hash Mem.empty ops = some (c, m, outs) ∧ c.walk m = some l ∧
      c.table.Holds m l ∧ l.length ≤ c.table.length.toNat ∧
      (∀ (t : HandleTable) (m' : Mem) (es : List Nat), t.Holds m' es → es.length ≤ 2 ^ 31 → m'.Bounded →
        ∃ t' m'', t.resize m' = some (t', m'') ∧ t'.elems = t.elems ∧ t'.Holds m'' es ∧
          es.length ≤ t'.length.toNat) ∧
      Ring c m l ∧
      (∀ u ∈ sources .head l, (∃ v, c.next m u = some v ∧ c.prev m v = some u) ∧
        ∃ v, c.prev m u = some v ∧ c.next m v = some u) ∧
      (∀ a ∈ l, ∃ h, m.heap a = some h ∧ h.next ≠ .cell a ∧ h.keyOf a = some h.key) ∧
      (∀ key hash, ∃ slot, c.table.findPointer m key hash = some slot) ∧
      (l.length < 2 ^ 31 → ∀ key value charge deleter,
        ∃ r, c.insert m key (Hash key) value charge deleter = some r) := by
  obtain ⟨c, m, w, calls, outs, hc, -, h, -⟩ := (ClientRep.init Hash capacity).run ha
  have hring := h.shard.ring
  refine ⟨c, m, outs, w.map.lru, hc, hring.walk h.bounded, h.shard.table.holds, h.shard.table.elems_le,
    fun t m' es ht hle hm => ht.resize hle hm, hring,
    fun u hu => ⟨hring.next_prev u hu, hring.prev_next u hu⟩, fun a ha => ?_, fun key hash => ?_,
    fun hlen key value charge deleter => ?_⟩
  · obtain ⟨e, he⟩ := Option.ne_none_iff_exists'.1 (h.shard.lru_live a ha)
    obtain ⟨hc, hhc, -⟩ := h.shard.heap_eq he
    have hne : hc.next ≠ .cell a := fun e => hring.next_ne_self ha (by simp [LRUCache.next, hhc, e])
    exact ⟨hc, hhc, hne, if_neg hne⟩
  · obtain ⟨_, _, _, -, -, -, -, -, hfind, -⟩ := h.shard.table.findPointer h.bounded key hash
    exact ⟨_, hfind⟩
  · obtain ⟨s', calls', he, -, -⟩ := h.inv.insert (h.shard.nextAddr_fresh h.bounded) key value charge deleter
    obtain ⟨c', m', hins, -⟩ := h.shard.insert h.bounded h.inv hlen key value charge deleter he
    exact ⟨_, hins⟩

theorem lru_cache_internal_invariants_small_run :
    (LruClient.init 2).Allows [.insert [1] 7 1 0, .insert [2] 8 1 0, .lookup [1], .insert [3] 9 1 0] ∧
    ∃ c m outs l,
      (LRUCache.new.setCapacity 2).run (fun _ => 0) Mem.empty
        [.insert [1] 7 1 0, .insert [2] 8 1 0, .lookup [1], .insert [3] 9 1 0] = some (c, m, outs) ∧
      c.walk m = some l ∧
      c.table.Holds m l ∧ l.length ≤ c.table.length.toNat ∧
      (∀ (t : HandleTable) (m' : Mem) (es : List Nat), t.Holds m' es → es.length ≤ 2 ^ 31 → m'.Bounded →
        ∃ t' m'', t.resize m' = some (t', m'') ∧ t'.elems = t.elems ∧ t'.Holds m'' es ∧
          es.length ≤ t'.length.toNat) ∧
      Ring c m l ∧
      (∀ u ∈ sources .head l, (∃ v, c.next m u = some v ∧ c.prev m v = some u) ∧
        ∃ v, c.prev m u = some v ∧ c.next m v = some u) ∧
      (∀ a ∈ l, ∃ h, m.heap a = some h ∧ h.next ≠ .cell a ∧ h.keyOf a = some h.key) ∧
      (∀ key hash, ∃ slot, c.table.findPointer m key hash = some slot) ∧
      (l.length < 2 ^ 31 → ∀ key value charge deleter,
        ∃ r, c.insert m key 0 value charge deleter = some r) :=
  ⟨by decide, lru_cache_internal_invariants (fun _ => 0) 2 _ (by decide)⟩

end LevelDbProofs.Cache
