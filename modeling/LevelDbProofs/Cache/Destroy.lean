import Mathlib.Data.List.FinRange
import LevelDbProofs.Cache.ShardedRep

/-!
`~LRUCache` and `~ShardedLRUCache`: the asserts pass iff no handle is held to an entry still in a
table, and every entry is then freed once.
-/

namespace LevelDbProofs.Cache

open LevelDbProofs.Util

def LRUCache.destroyFrom (c : LRUCache) (m : Mem) : Nat → Ptr → Option Mem
  | 0, _ => none
  | _ + 1, .head => some m
  | fuel + 1, .cell a => do
    let next ← c.next m (.cell a)
    let h ← m.deref (.cell a)
    if h.refs = 1 then
      let r ← c.unref m (.cell a)
      r.1.destroyFrom r.2 fuel next
    else none
  | _ + 1, .null => none

def LRUCache.destroy (c : LRUCache) (m : Mem) : Option Mem := c.destroyFrom m (m.nextAddr + 1) c.lruNext

def ShardedLRUCache.destroy (c : ShardedLRUCache) (m : Mem) : Option Mem :=
  (List.finRange numShards).reverse.foldlM (fun m i => (c.shard i).destroy m) m

def Mem.freeAll (m : Mem) (l : List Nat) (calls : List DeleterCall) : Mem :=
  { m with heap := fun b => if b ∈ l then none else m.heap b, log := m.log ++ calls }

def LruMap.destroy (s : LruMap) : Option (List DeleterCall) :=
  if ∀ a ∈ s.lru, (s.entries a).map Entry.refs = some 1 then
    some (s.lru.filterMap fun a => (s.entries a).map fun e => e.call a)
  else none

section FreeAll

variable {m : Mem} {a : Nat} {l l' : List Nat} {d : DeleterCall} {calls calls' : List DeleterCall}

theorem Mem.freeAll_nil : m.freeAll [] [] = m := by
  cases m
  simp [Mem.freeAll]

theorem Mem.freeAll_cons :
    (({ m with log := m.log ++ [d] } : Mem).free a).freeAll l calls = m.freeAll (a :: l) (d :: calls) := by
  simp only [Mem.freeAll, Mem.free, List.mem_cons, List.append_assoc, List.singleton_append, Mem.mk.injEq,
    and_true]
  funext b
  by_cases hb : b = a
  · subst hb; simp
  · simp [hb]

theorem Mem.freeAll_freeAll : (m.freeAll l calls).freeAll l' calls' = m.freeAll (l ++ l') (calls ++ calls') := by
  simp only [Mem.freeAll, List.mem_append, List.append_assoc, Mem.mk.injEq, and_true]
  funext b
  by_cases hb : b ∈ l <;> simp [hb]

@[simp] theorem Mem.freeAll_heap (b : Nat) : (m.freeAll l calls).heap b = if b ∈ l then none else m.heap b := rfl

@[simp] theorem Mem.freeAll_nextAddr : (m.freeAll l calls).nextAddr = m.nextAddr := rfl

@[simp] theorem Mem.freeAll_log : (m.freeAll l calls).log = m.log ++ calls := rfl

theorem Mem.Bounded.freeAll (hm : m.Bounded) : (m.freeAll l calls).Bounded := fun b hb => by
  by_cases hl : b ∈ l
  · simp [hl] at hb
  · exact hm b (by simpa [hl] using hb)

end FreeAll

section Loop

variable {c : LRUCache} {m : Mem} {a : Nat} {h : LRUHandle}

theorem LRUCache.destroyFrom_cell {fuel : Nat} {y : Ptr} (hh : m.heap a = some h) (hy : c.next m (.cell a) = some y) :
    c.destroyFrom m (fuel + 1) (.cell a) =
      if h.refs = 1 then
        ({ c with usage := c.usage - h.charge } : LRUCache).destroyFrom
          (({ m with log := m.log ++ [h.entry.call a] } : Mem).free a) fuel y
      else none := by
  by_cases h1 : h.refs = 1
  · have hu := LRUCache.unref_cell c m hh
    rw [if_neg (by rw [h1]; decide), if_pos (by rw [h1]; decide)] at hu
    simp only [LRUCache.destroyFrom, hy, Mem.deref, hh, h1, hu, bind, Option.some_bind, if_true]
    rfl
  · simp only [LRUCache.destroyFrom, hy, Mem.deref, hh, h1, bind, Option.some_bind, if_false]

theorem LRUCache.destroyFrom_chain : ∀ (rest : List Nat) (a : Nat) (c : LRUCache) (m : Mem) (fuel : Nat),
    Path (c.next m) (.cell a) rest .head → (a :: rest).Nodup → rest.length < fuel →
    (∀ b ∈ a :: rest, m.heap b ≠ none) →
    c.destroyFrom m (fuel + 1) (.cell a) =
      if ∀ b ∈ a :: rest, (m.heap b).map LRUHandle.refs = some 1 then
        some (m.freeAll (a :: rest) ((a :: rest).filterMap fun b => (m.heap b).map fun x => x.entry.call b))
      else none
  | rest, a, c, m, fuel + 1, hp, hnd, hfuel, hlive => by
    obtain ⟨h, hh⟩ := Option.ne_none_iff_exists'.1 (hlive a (List.mem_cons_self a rest))
    set m1 : Mem := ({ m with log := m.log ++ [h.entry.call a] } : Mem).free a
    have hsame : ∀ b ∈ rest, m1.heap b = m.heap b := fun b hb => by
      have hba : b ≠ a := fun e => (List.nodup_cons.1 hnd).1 (e ▸ hb)
      simp [m1, hba]
    have hcond : (∀ b ∈ a :: rest, (m.heap b).map LRUHandle.refs = some 1) ↔
        h.refs = 1 ∧ ∀ b ∈ rest, (m1.heap b).map LRUHandle.refs = some 1 := by
      simp only [List.forall_mem_cons, hh, Option.map_some', Option.some_inj]
      exact and_congr Iff.rfl (forall₂_congr fun b hb => by rw [hsame b hb])
    have hcalls : (a :: rest).filterMap (fun b => (m.heap b).map fun x => x.entry.call b) =
        h.entry.call a :: rest.filterMap fun b => (m1.heap b).map fun x => x.entry.call b := by
      simp only [List.filterMap_cons, hh, Option.map_some']
      exact congrArg _ (List.filterMap_congr fun b hb => by rw [hsame b hb])
    cases rest with
    | nil =>
      rw [LRUCache.destroyFrom_cell hh hp]
      simp only [hcond, hcalls, List.filterMap_nil, ← Mem.freeAll_cons, Mem.freeAll_nil]
      by_cases h1 : h.refs = 1 <;> simp [h1, LRUCache.destroyFrom]
    | cons b rest =>
      rw [LRUCache.destroyFrom_cell hh hp.1]
      have hp1 : Path (({ c with usage := c.usage - h.charge } : LRUCache).next m1) (.cell b) rest .head :=
        hp.2.congr fun u hu => by
          rcases List.mem_cons.1 hu with rfl | hu
          · simp only [LRUCache.next, hsame b (List.mem_cons_self b rest)]
          · obtain ⟨b', hb', rfl⟩ := List.mem_map.1 hu
            simp only [LRUCache.next, hsame b' (List.mem_cons_of_mem b hb')]
      rw [LRUCache.destroyFrom_chain rest b _ m1 fuel hp1 (List.nodup_cons.1 hnd).2 (by simp at hfuel; omega)
        fun b' hb' => by rw [hsame b' hb']; exact hlive b' (List.mem_cons_of_mem a hb')]
      simp only [hcond, hcalls, ← Mem.freeAll_cons]
      rw [ite_and]

end Loop

namespace ShardRep

variable {Hash : Bytes → UInt32} {c : LRUCache} {m : Mem} {s : LruMap}

theorem map_entry (h : ShardRep Hash c m s) {a : Nat} (ha : a ∈ s.lru) :
    (m.heap a).map LRUHandle.entry = s.entries a := by
  obtain ⟨e, he⟩ := Option.ne_none_iff_exists'.1 (h.lru_live a ha)
  obtain ⟨hc, hhc, rfl, -⟩ := h.heap_eq he
  rw [hhc, he]
  rfl

theorem destroy (h : ShardRep Hash c m s) (hm : m.Bounded) : c.destroy m = s.destroy.map (m.freeAll s.lru) := by
  have hn := h.ring.next
  have hfirst := h.ring.lruNext
  rcases hl : s.lru with _ | ⟨a, rest⟩
  · rw [hl] at hfirst
    simp [LRUCache.destroy, hfirst, firstNode, LRUCache.destroyFrom, LruMap.destroy, hl, Mem.freeAll_nil]
  · rw [hl] at hn hfirst
    have hlen : (a :: rest).length ≤ m.nextAddr := hm.length_le (hl ▸ h.ring.nodup) fun b hb =>
      h.heap_ne_none (hl ▸ hb)
    have hentry : ∀ b ∈ a :: rest, (m.heap b).map LRUHandle.entry = s.entries b := fun b hb =>
      h.map_entry (hl ▸ hb)
    rw [LRUCache.destroy, hfirst, show firstNode (a :: rest) .head = .cell a from rfl,
      LRUCache.destroyFrom_chain rest a c m m.nextAddr hn.2 (hl ▸ h.ring.nodup) (by simp at hlen; omega)
        fun b hb => h.heap_ne_none (hl ▸ hb)]
    have hcond : (∀ b ∈ a :: rest, (m.heap b).map LRUHandle.refs = some 1) ↔
        ∀ b ∈ a :: rest, (s.entries b).map Entry.refs = some 1 :=
      forall₂_congr fun b hb => by rw [← hentry b hb, Option.map_map]; rfl
    have hcalls : (a :: rest).filterMap (fun b => (m.heap b).map fun x => x.entry.call b) =
        (a :: rest).filterMap fun b => (s.entries b).map fun e => e.call b :=
      List.filterMap_congr fun b hb => by rw [← hentry b hb, Option.map_map]; rfl
    simp only [LruMap.destroy, hl, hcond, hcalls]
    split_ifs <;> rfl

end ShardRep

namespace LruMap

variable {s : LruMap} {handles : List Nat} {calls : List DeleterCall}

theorem Inv.destroy_isSome (h : Inv s handles) : s.destroy.isSome ↔ ∀ a ∈ s.lru, a ∉ handles := by
  have hone : ∀ a ∈ s.lru, (s.entries a).map Entry.refs = some 1 ↔ a ∉ handles := fun a ha => by
    obtain ⟨e, he⟩ := Option.ne_none_iff_exists'.1 (h.lru_live a ha)
    have hr := h.refs a e he
    rw [if_pos ha] at hr
    rw [he, Option.map_some', Option.some_inj, uint32_eq_iff, hr, ← List.count_eq_zero]
    exact ⟨fun h1 => by simpa using h1, fun h0 => by rw [h0]; rfl⟩
  unfold destroy
  split_ifs with hc
  · exact ⟨fun _ a ha => (hone a ha).1 (hc a ha), fun _ => rfl⟩
  · exact ⟨fun h' => (by cases h'), fun h' => absurd (fun a ha => (hone a ha).2 (h' a ha)) hc⟩

theorem destroy_entries (hlive : ∀ a ∈ s.lru, s.entries a ≠ none) (hd : s.destroy = some calls) :
    calls.map DeleterCall.entry = s.lru := by
  unfold destroy at hd
  split_ifs at hd
  rw [← Option.some_inj.1 hd, List.map_filterMap]
  conv_rhs => rw [← List.filterMap_some s.lru]
  refine List.filterMap_congr fun a ha => ?_
  obtain ⟨e, he⟩ := Option.ne_none_iff_exists'.1 (hlive a ha)
  rw [he]
  rfl

theorem mem_destroy (hd : s.destroy = some calls) {d : DeleterCall} (hmem : d ∈ calls) :
    ∃ e, s.entries d.entry = some e ∧ d = e.call d.entry := by
  unfold destroy at hd
  split_ifs at hd
  rw [← Option.some_inj.1 hd, List.mem_filterMap] at hmem
  obtain ⟨a, -, hd⟩ := hmem
  obtain ⟨e, he, rfl⟩ := Option.map_eq_some'.1 hd
  exact ⟨e, he, rfl⟩

end LruMap

namespace CacheClient.Rep

variable {Hash : Bytes → UInt32} {w : CacheClient} {s : Fin numShards → LruMap}

theorem destroy_shards (h : Rep Hash w s) : ∀ (is : List (Fin numShards)) (m : Mem), is.Nodup →
    (∀ i ∈ is, ShardRep Hash (w.cache.shard i) m (s i)) → m.Bounded →
    is.foldlM (fun m i => (w.cache.shard i).destroy m) m =
      if ∀ i ∈ is, (s i).destroy.isSome then
        some (m.freeAll (is.map fun i => (s i).lru).flatten (is.map fun i => (s i).destroy.getD []).flatten)
      else none
  | [], m, _, _, _ => by simp [Mem.freeAll_nil]
  | i :: is, m, hnd, hrep, hm => by
    rw [List.foldlM_cons, (hrep i (List.mem_cons_self i is)).destroy hm]
    rcases hd : (s i).destroy with _ | calls
    · simp [hd]
    · have hrest : ∀ j ∈ is, ShardRep Hash (w.cache.shard j) (m.freeAll (s i).lru calls) (s j) := fun j hj =>
        (hrep j (List.mem_cons_of_mem i hj)).congr_heap fun a ha => by
          have hji : j ≠ i := fun e => (List.nodup_cons.1 hnd).1 (e ▸ hj)
          have hai : a ∉ (s i).lru := fun hai => ha (h.entries_of_ne ((h.inv i).lru_live a hai) hji)
          simp [hai]
      simp only [Option.map_some', bind, Option.some_bind,
        destroy_shards h is _ (List.nodup_cons.1 hnd).2 hrest hm.freeAll, Mem.freeAll_freeAll, List.forall_mem_cons,
        hd, Option.isSome_some, true_and, List.map_cons, List.flatten_cons, Option.getD_some]

theorem mem_lru_iff (h : Rep Hash w s) {a : Nat} : (∃ i, a ∈ (s i).lru) ↔ w.inTable Hash a = true := by
  constructor
  · rintro ⟨i, hi⟩
    obtain ⟨e, he⟩ := Option.ne_none_iff_exists'.1 ((h.inv i).lru_live a hi)
    rw [h.inTable_iff (h.born_entry i a e he), show (e.call a).key = e.key from rfl, h.routed i a e he]
    exact hi
  · intro ht
    rcases hb : w.born a with _ | d
    · simp [inTable, hb] at ht
    · exact ⟨_, (h.inTable_iff hb).1 ht⟩

theorem destroy_isSome_iff (h : Rep Hash w s) :
    (∀ i, (s i).destroy.isSome) ↔ ∀ a ∈ w.handles, w.inTable Hash a = false := by
  simp only [fun i => (h.inv i).destroy_isSome]
  constructor
  · intro hs a ha
    obtain ⟨d, -, hd, -, -, hmem⟩ := h.handle_entry ha
    rw [Bool.eq_false_iff]
    exact fun ht => hs _ a ((h.inTable_iff hd).1 ht) hmem
  · intro hs i a hi hmem
    have ht := h.mem_lru_iff.1 ⟨i, hi⟩
    rw [hs a (mem_handlesOf.1 hmem).1] at ht
    cases ht

theorem destroy_eq (h : Rep Hash w s) :
    w.cache.destroy w.mem =
      if ∀ i, (s i).destroy.isSome then
        some (w.mem.freeAll ((List.finRange numShards).reverse.map fun i => (s i).lru).flatten
          ((List.finRange numShards).reverse.map fun i => (s i).destroy.getD []).flatten)
      else none := by
  have hall : (∀ i ∈ (List.finRange numShards).reverse, (s i).destroy.isSome) ↔ ∀ i, (s i).destroy.isSome :=
    ⟨fun hs i => hs i (List.mem_reverse.2 (List.mem_finRange i)), fun hs i _ => hs i⟩
  rw [ShardedLRUCache.destroy, h.destroy_shards _ w.mem (List.nodup_reverse.2 (List.nodup_finRange _))
    (fun i _ => h.shard i) h.bounded]
  simp only [hall]

theorem destroy_isSome (h : Rep Hash w s) :
    (w.cache.destroy w.mem).isSome ↔ ∀ a ∈ w.handles, w.inTable Hash a = false := by
  rw [h.destroy_eq, ← h.destroy_isSome_iff]
  split_ifs with hs <;> simp [hs]

theorem destroy_log (h : Rep Hash w s) {m' : Mem} (hd : w.cache.destroy w.mem = some m') :
    ∃ calls, m'.log = w.mem.log ++ calls ∧ (m'.log.map DeleterCall.entry).Nodup ∧
      (∀ d ∈ calls, w.born d.entry = some d) ∧ ∀ a, a ∈ calls.map DeleterCall.entry ↔ w.inTable Hash a = true := by
  rw [h.destroy_eq] at hd
  split_ifs at hd with hs
  obtain rfl := Option.some_inj.1 hd
  set L := (List.finRange numShards).reverse
  have hget : ∀ i, (s i).destroy = some ((s i).destroy.getD []) := fun i => by
    obtain ⟨calls, hc⟩ := Option.isSome_iff_exists.1 (hs i)
    rw [hc]; rfl
  have hentries : ((L.map fun i => (s i).destroy.getD []).flatten).map DeleterCall.entry =
      (L.map fun i => (s i).lru).flatten := by
    rw [List.map_flatten, List.map_map]
    exact congrArg List.flatten (List.map_congr_left fun i _ =>
      LruMap.destroy_entries (h.inv i).lru_live (hget i))
  have hmem : ∀ a, a ∈ (L.map fun i => (s i).lru).flatten ↔ ∃ i, a ∈ (s i).lru := fun a => by
    simp [L, List.mem_flatten]
  refine ⟨_, rfl, ?_, fun d hd => ?_, fun a => by rw [hentries, hmem, h.mem_lru_iff]⟩
  · rw [Mem.freeAll_log, List.map_append, List.nodup_append, hentries]
    refine ⟨h.log_nodup, List.nodup_flatten.2 ⟨?_, ?_⟩, fun a hlog hcall => ?_⟩
    · simp only [List.mem_map]
      rintro _ ⟨i, -, rfl⟩
      exact (h.inv i).nodup
    · refine List.pairwise_map.2 ((List.nodup_reverse.2 (List.nodup_finRange _)).pairwise_of_forall_ne
        fun i _ j _ hij a hi hj => ?_)
      exact h.entries_of_ne ((h.inv i).lru_live a hi) (Ne.symm hij) |> ((h.inv j).lru_live a hj)
    · obtain ⟨i, hi⟩ := (hmem a).1 hcall
      exact h.not_mem_log ((h.inv i).lru_live a hi) hlog
  · simp only [L, List.mem_flatten, List.mem_map] at hd
    obtain ⟨_, ⟨i, -, rfl⟩, hdi⟩ := hd
    obtain ⟨e, he, hde⟩ := LruMap.mem_destroy (hget i) hdi
    rw [h.born_entry i _ e he, ← hde]

end CacheClient.Rep

theorem sharded_lru_cache_destroy (Hash : Bytes → UInt32) (capacity : UInt64) {w : CacheClient}
    (hw : w.Reachable Hash capacity) :
    ((w.cache.destroy w.mem).isSome ↔ ∀ a ∈ w.handles, w.inTable Hash a = false) ∧
    (∀ m', w.cache.destroy w.mem = some m' → ∃ calls, m'.log = w.mem.log ++ calls ∧
      (m'.log.map DeleterCall.entry).Nodup ∧ (∀ d ∈ calls, w.born d.entry = some d) ∧
      ∀ a, a ∈ calls.map DeleterCall.entry ↔ w.inTable Hash a = true) ∧
    (w.handles = [] → ∃ m', w.cache.destroy w.mem = some m' ∧
      ∀ a, w.born a ≠ none ↔ a ∈ m'.log.map DeleterCall.entry) := by
  obtain ⟨s, h⟩ := hw.rep
  refine ⟨h.destroy_isSome, fun m' hd => h.destroy_log hd, fun hnil => ?_⟩
  obtain ⟨m', hd⟩ := Option.isSome_iff_exists.1 (h.destroy_isSome.2 fun a ha => by simp [hnil] at ha)
  obtain ⟨calls, hlog, -, hborn, hcall⟩ := h.destroy_log hd
  refine ⟨m', hd, fun a => ⟨fun ha => ?_, fun ha => ?_⟩⟩
  · rw [hlog, List.map_append, List.mem_append, hcall]
    by_cases ht : w.inTable Hash a = true
    · exact Or.inr ht
    · exact Or.inl (((h.good).deleted_iff a ha).2 ⟨by simpa using ht, by simp [hnil]⟩)
  · rw [hlog, List.map_append, List.mem_append] at ha
    rcases ha with ha | ha
    · obtain ⟨d, hd, rfl⟩ := List.mem_map.1 ha
      simp [h.log_born d hd]
    · obtain ⟨d, hd, rfl⟩ := List.mem_map.1 ha
      simp [hborn d hd]

theorem sharded_lru_cache_destroy_held :
    ∃ w w' : CacheClient, w.Reachable (fun _ => 0) 64 ∧ w.handles = [0, 0] ∧ w.inTable (fun _ => 0) 0 = false ∧
      w.inTable (fun _ => 0) 1 = true ∧ w'.Reachable (fun _ => 0) 64 ∧ w'.handles = [] ∧
      w'.mem.log.map DeleterCall.entry = [0] ∧
      (((w.cache.destroy w.mem).isSome ↔ ∀ a ∈ w.handles, w.inTable (fun _ => 0) a = false) ∧
        (∀ m', w.cache.destroy w.mem = some m' → ∃ calls, m'.log = w.mem.log ++ calls ∧
          (m'.log.map DeleterCall.entry).Nodup ∧ (∀ d ∈ calls, w.born d.entry = some d) ∧
          ∀ a, a ∈ calls.map DeleterCall.entry ↔ w.inTable (fun _ => 0) a = true) ∧
        (w.handles = [] → ∃ m', w.cache.destroy w.mem = some m' ∧
          ∀ a, w.born a ≠ none ↔ a ∈ m'.log.map DeleterCall.entry)) ∧
      (((w'.cache.destroy w'.mem).isSome ↔ ∀ a ∈ w'.handles, w'.inTable (fun _ => 0) a = false) ∧
        (∀ m', w'.cache.destroy w'.mem = some m' → ∃ calls, m'.log = w'.mem.log ++ calls ∧
          (m'.log.map DeleterCall.entry).Nodup ∧ (∀ d ∈ calls, w'.born d.entry = some d) ∧
          ∀ a, a ∈ calls.map DeleterCall.entry ↔ w'.inTable (fun _ => 0) a = true) ∧
        (w'.handles = [] → ∃ m', w'.cache.destroy w'.mem = some m' ∧
          ∀ a, w'.born a ≠ none ↔ a ∈ m'.log.map DeleterCall.entry)) := by
  obtain ⟨w, _, w', hw, hr, hp⟩ := CacheClient.exists_of_runAllowed (fun _ => 0) 64
    [.insert [1] 7 1 0, .insert [2] 8 1 0, .lookup [1], .erase [1], .release 1] [.release 0, .release 0]
    (fun w _ w' => decide (w.handles = [0, 0] ∧ w.inTable (fun _ => 0) 0 = false ∧ w.inTable (fun _ => 0) 1 = true ∧
      w'.handles = [] ∧ w'.mem.log.map DeleterCall.entry = [0])) (by decide)
  obtain ⟨h1, h2, h3, h4, h5⟩ := of_decide_eq_true hp
  have hw' := hw.reachable.runs hr
  exact ⟨w, w', hw.reachable, h1, h2, h3, hw', h4, h5, sharded_lru_cache_destroy (fun _ => 0) 64 hw.reachable,
    sharded_lru_cache_destroy (fun _ => 0) 64 hw'⟩

end LevelDbProofs.Cache
