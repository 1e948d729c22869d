import LevelDbProofs.Cache.Sharded

/-!
One abstract map per shard (`Rep`), kept by every call the client may make.
-/

namespace LevelDbProofs.Cache

open LevelDbProofs.Util

namespace CacheClient

def handlesOf (Hash : Bytes → UInt32) (w : CacheClient) (i : Fin numShards) : List Nat :=
  w.handles.filter fun a => (w.born a).any fun d => shardOf (Hash d.key) = i

section Handles

variable {Hash : Bytes → UInt32} {w w' : CacheClient} {a : Nat} {d : DeleterCall}

theorem mem_handlesOf {i : Fin numShards} :
    a ∈ w.handlesOf Hash i ↔ a ∈ w.handles ∧ ∃ d, w.born a = some d ∧ shardOf (Hash d.key) = i := by
  rcases hb : w.born a with _ | d <;> simp [handlesOf, hb]

theorem count_handlesOf (hd : w.born a = some d) :
    (w.handlesOf Hash (shardOf (Hash d.key))).count a = w.handles.count a :=
  List.count_filter (by simp [hd])

theorem handlesOf_cons (hH : w'.handles = a :: w.handles) (hB : ∀ b ∈ w.handles, w'.born b = w.born b)
    (hd : w'.born a = some d) (j : Fin numShards) :
    w'.handlesOf Hash j = if shardOf (Hash d.key) = j then a :: w.handlesOf Hash j else w.handlesOf Hash j := by
  have htail : w.handles.filter (fun b => (w'.born b).any fun d => shardOf (Hash d.key) = j) =
      w.handlesOf Hash j := List.filter_congr fun b hb => by rw [hB b hb]
  show w'.handles.filter _ = _
  rw [hH, List.filter_cons, htail]
  simp [hd, handlesOf]

theorem handlesOf_erase (hH : w'.handles = w.handles.erase a) (hB : w'.born = w.born) (j : Fin numShards) :
    w'.handlesOf Hash j = (w.handlesOf Hash j).erase a := by
  unfold handlesOf
  rw [hH, hB, List.erase_filter]

end Handles

structure Rep (Hash : Bytes → UInt32) (w : CacheClient) (s : Fin numShards → LruMap) : Prop where
  shard : ∀ i, ShardRep Hash (w.cache.shard i) w.mem (s i)
  inv : ∀ i, (s i).Inv (w.handlesOf Hash i)
  bounded : w.mem.Bounded
  routed : ∀ i a e, (s i).entries a = some e → shardOf (Hash e.key) = i
  born_entry : ∀ i a e, (s i).entries a = some e → w.born a = some (e.call a)
  born_lt : ∀ a, w.born a ≠ none → a < w.mem.nextAddr
  born_live : ∀ a d, w.born a = some d → a ∉ w.mem.log.map DeleterCall.entry →
    (s (shardOf (Hash d.key))).entries a ≠ none
  handles_born : ∀ a ∈ w.handles, w.born a ≠ none
  log_nodup : (w.mem.log.map DeleterCall.entry).Nodup
  log_born : ∀ d ∈ w.mem.log, w.born d.entry = some d
  log_dead : ∀ d ∈ w.mem.log, ∀ i, (s i).entries d.entry = none

def Faithful (Hash : Bytes → UInt32) (s : Fin numShards → LruMap) (dict : Bytes → Option Nat) : Prop :=
  ∀ k a, (s (shardOf (Hash k))).find k = some a → dict k = some a

theorem Faithful.update {Hash : Bytes → UInt32} {s : Fin numShards → LruMap} {dict dict' : Bytes → Option Nat}
    (hf : Faithful Hash s dict) {i : Fin numShards} {s' : LruMap}
    (hin : ∀ k a, shardOf (Hash k) = i → s'.find k = some a → dict' k = some a)
    (hout : ∀ k, shardOf (Hash k) ≠ i → dict' k = dict k) : Faithful Hash (Function.update s i s') dict' := by
  intro k a hk
  by_cases hki : shardOf (Hash k) = i
  · rw [hki, Function.update_same] at hk
    exact hin k a hki hk
  · rw [Function.update_noteq hki] at hk
    rw [hout k hki]
    exact hf k a hk

def Answers (Hash : Bytes → UInt32) (w : CacheClient) (s : Fin numShards → LruMap) (op : ShardOp) : Prop :=
  ∃ w' out s' calls, w.call Hash op = some (w', out) ∧ Rep Hash w' s' ∧ w'.mem.log = w.mem.log ++ calls ∧
    (∀ a, w'.born a ≠ w.born a → a ∈ w'.handles) ∧
    ∀ dict, Faithful Hash s dict → Faithful Hash s' (dictAfter dict op out)

namespace Rep

variable {Hash : Bytes → UInt32} {w w' : CacheClient} {s : Fin numShards → LruMap}

theorem lt_of_entries (h : Rep Hash w s) {i : Fin numShards} {a : Nat} (ha : (s i).entries a ≠ none) :
    a < w.mem.nextAddr := by
  obtain ⟨e, he⟩ := Option.ne_none_iff_exists'.1 ha
  exact h.born_lt a (by simp [h.born_entry i a e he])

theorem entries_of_le (h : Rep Hash w s) {i : Fin numShards} {a : Nat} (ha : w.mem.nextAddr ≤ a) :
    (s i).entries a = none := by
  by_contra hne
  exact absurd (h.lt_of_entries hne) (Nat.not_lt.2 ha)

theorem log_lt (h : Rep Hash w s) {d : DeleterCall} (hd : d ∈ w.mem.log) : d.entry < w.mem.nextAddr :=
  h.born_lt _ (by simp [h.log_born d hd])

theorem entries_of_ne (h : Rep Hash w s) {i j : Fin numShards} {a : Nat} (ha : (s i).entries a ≠ none)
    (hji : j ≠ i) : (s j).entries a = none := by
  obtain ⟨e, he⟩ := Option.ne_none_iff_exists'.1 ha
  rcases he' : (s j).entries a with _ | e'
  · rfl
  · have hkey : e.key = e'.key := by
      have := (h.born_entry i a e he).symm.trans (h.born_entry j a e' he')
      simp only [Option.some_inj, Entry.call, DeleterCall.mk.injEq] at this
      exact this.2.2.1
    exact absurd ((h.routed j a e' he').symm.trans (hkey ▸ h.routed i a e he)) hji

theorem inTable_iff (h : Rep Hash w s) {a : Nat} {d : DeleterCall} (hd : w.born a = some d) :
    w.inTable Hash a = true ↔ a ∈ (s (shardOf (Hash d.key))).lru := by
  simp only [inTable, hd, (h.shard _).table_lookup h.bounded d.key, beq_iff_eq, Option.some_inj]
  constructor
  · intro hp
    rcases hf : (s (shardOf (Hash d.key))).find d.key with _ | b <;> rw [hf] at hp <;> cases hp
    exact (LruMap.find_some hf).1
  · intro ha
    obtain ⟨e, he⟩ := Option.ne_none_iff_exists'.1 ((h.inv _).lru_live a ha)
    have hk : d.key = e.key := by
      have := hd.symm.trans (h.born_entry _ a e he)
      rw [Option.some_inj] at this
      rw [this]; rfl
    rw [hk] at ha he ⊢
    rw [((h.inv _).find_eq_some_iff he).2 ha, Ptr.ofOption_some]

theorem handle_entry (h : Rep Hash w s) {a : Nat} (ha : a ∈ w.handles) :
    ∃ d e, w.born a = some d ∧ (s (shardOf (Hash d.key))).entries a = some e ∧ d = e.call a ∧
      a ∈ w.handlesOf Hash (shardOf (Hash d.key)) := by
  obtain ⟨d, hd⟩ := Option.ne_none_iff_exists'.1 (h.handles_born a ha)
  have hmem : a ∈ w.handlesOf Hash (shardOf (Hash d.key)) := mem_handlesOf.2 ⟨ha, d, hd, rfl⟩
  obtain ⟨e, he⟩ := Option.ne_none_iff_exists'.1 ((h.inv _).handles_live a hmem)
  exact ⟨d, e, hd, he, Option.some_inj.1 (hd.symm.trans (h.born_entry _ a e he)), hmem⟩

theorem not_mem_log (h : Rep Hash w s) {i : Fin numShards} {a : Nat} (ha : (s i).entries a ≠ none) :
    a ∉ w.mem.log.map DeleterCall.entry := fun hlog => by
  obtain ⟨d, hd, rfl⟩ := List.mem_map.1 hlog
  exact ha (h.log_dead d hd i)

theorem good (h : Rep Hash w s) : w.Good Hash where
  refs a d hd hlog := by
    obtain ⟨e, he⟩ := Option.ne_none_iff_exists'.1 (h.born_live a d hd hlog)
    obtain ⟨hc, hhc, rfl, -⟩ := (h.shard _).heap_eq he
    refine ⟨hc, hhc, ?_⟩
    rw [← LRUHandle.entry_refs, (h.inv _).refs a _ he, count_handlesOf hd]
    simp only [h.inTable_iff hd]
  ring i := by
    refine ⟨(s i).lru, (h.shard i).ring.walk h.bounded, fun a => ⟨fun ha => ?_, ?_⟩⟩
    · obtain ⟨e, he⟩ := Option.ne_none_iff_exists'.1 ((h.inv i).lru_live a ha)
      have hi := h.routed i a e he
      refine ⟨e.call a, h.born_entry i a e he, hi, (h.inTable_iff (h.born_entry i a e he)).2 ?_⟩
      rw [show (e.call a).key = e.key from rfl, hi]
      exact ha
    · rintro ⟨d, hd, rfl, hin⟩
      exact (h.inTable_iff hd).1 hin
  routed a ha := by
    obtain ⟨d, e, hd, he, rfl, -⟩ := h.handle_entry ha
    obtain ⟨hc, hhc, -, hh⟩ := (h.shard _).heap_eq he
    exact ⟨e.call a, hc, hd, hhc, by rw [hh]; exact h.routed _ a e he⟩
  deleted_once := h.log_nodup
  deleted_born := h.log_born
  deleted_iff a ha := by
    obtain ⟨d, hd⟩ := Option.ne_none_iff_exists'.1 ha
    constructor
    · intro hlog
      obtain ⟨d', hd', rfl⟩ := List.mem_map.1 hlog
      have hdead := h.log_dead d' hd'
      refine ⟨?_, fun hh => (h.inv _).handles_live _ (mem_handlesOf.2 ⟨hh, d, hd, rfl⟩) (hdead _)⟩
      cases hin : w.inTable Hash d'.entry
      · rfl
      · exact absurd (hdead _) ((h.inv _).lru_live _ ((h.inTable_iff hd).1 hin))
    · rintro ⟨hin, hh⟩
      by_contra hlog
      rcases (h.inv _).held a (h.born_live a d hd hlog) with hl | hl
      · rw [(h.inTable_iff hd).2 hl] at hin
        cases hin
      · exact hh (mem_handlesOf.1 hl).1
  value a ha := by
    obtain ⟨d, e, hd, he, rfl, -⟩ := h.handle_entry ha
    obtain ⟨hc, hhc, rfl, -⟩ := (h.shard _).heap_eq he
    exact ⟨_, hd, h.not_mem_log (Option.ne_none_iff_exists'.2 ⟨_, he⟩),
      by simp [ShardedLRUCache.value, Mem.deref, hhc]; rfl⟩

theorem not_born_of_le (h : Rep Hash w s) {a : Nat} {d : DeleterCall} (ha : w.mem.nextAddr ≤ a) :
    w.born a ≠ some d := fun hd => absurd (h.born_lt a (by simp [hd])) (Nat.not_lt.2 ha)

theorem update (h : Rep Hash w s) {i : Fin numShards} {c' : LRUCache} {s0 s' : LruMap}
    {calls : List DeleterCall} {k : Nat} (hc : w'.cache = w.cache.setShard i c')
    (hrep : ShardRep Hash c' w'.mem s') (hm' : w'.mem.Bounded)
    (hfr : w.mem.Frame (fun b => (s i).entries b ≠ none) k w'.mem calls) (hstep : s0.Step s' calls)
    (hold : ∀ a e, (s i).entries a = some e → s0.entries a = some e)
    (hnew : ∀ a e, (s i).entries a = none → s0.entries a = some e →
      w.mem.nextAddr ≤ a ∧ w'.born a = some (e.call a) ∧ shardOf (Hash e.key) = i)
    (hborn : ∀ a, a < w.mem.nextAddr → w'.born a = w.born a)
    (hborn' : ∀ a d, w.mem.nextAddr ≤ a → w'.born a = some d →
      a < w'.mem.nextAddr ∧ a ∈ w'.handles ∧ shardOf (Hash d.key) = i)
    (hinv : s'.Inv (w'.handlesOf Hash i)) (hH : ∀ j, j ≠ i → w'.handlesOf Hash j = w.handlesOf Hash j)
    (hHborn : ∀ a ∈ w'.handles, w'.born a ≠ none) : Rep Hash w' (Function.update s i s') := by
  have hs0 : ∀ a e, s0.entries a = some e → shardOf (Hash e.key) = i ∧ w'.born a = some (e.call a) := by
    intro a e he
    rcases hsi : (s i).entries a with _ | e1
    · exact ⟨(hnew a e hsi he).2.2, (hnew a e hsi he).2.1⟩
    · rw [hold a e1 hsi, Option.some_inj] at he
      subst he
      exact ⟨h.routed i a _ hsi,
        (hborn a (h.lt_of_entries (Option.ne_none_iff_exists'.2 ⟨_, hsi⟩))).trans (h.born_entry i a _ hsi)⟩
  have hlog : w'.mem.log = w.mem.log ++ calls := hfr.log
  have hlt : w.mem.nextAddr ≤ w'.mem.nextAddr := hfr.nextAddr ▸ Nat.le_add_right _ _
  refine ⟨fun j => ?_, fun j => ?_, hm', fun j a e he => ?_, fun j a e he => ?_, fun a ha => ?_,
    fun a d hd hlog' => ?_, hHborn, ?_, fun d hd => ?_, fun d hd j => ?_⟩
  · rw [hc]
    by_cases hji : j = i
    · subst hji; simpa using hrep
    · rw [ShardedLRUCache.setShard_ne _ _ hji, Function.update_noteq hji]
      exact (h.shard j).congr_heap fun a ha =>
        hfr.frame a (fun hi => hi (h.entries_of_ne ha (Ne.symm hji))) (h.lt_of_entries ha)
  · by_cases hji : j = i
    · subst hji; simpa using hinv
    · rw [Function.update_noteq hji, hH j hji]
      exact h.inv j
  · by_cases hji : j = i
    · subst hji
      rw [Function.update_same] at he
      obtain ⟨e0, h0, hk, -⟩ := hstep.origin he
      rw [hk]
      exact (hs0 a e0 h0).1
    · rw [Function.update_noteq hji] at he
      exact h.routed j a e he
  · by_cases hji : j = i
    · subst hji
      rw [Function.update_same] at he
      obtain ⟨e0, h0, -, hcall⟩ := hstep.origin he
      rw [hcall]
      exact (hs0 a e0 h0).2
    · rw [Function.update_noteq hji] at he
      rw [hborn a (h.lt_of_entries (Option.ne_none_iff_exists'.2 ⟨_, he⟩))]
      exact h.born_entry j a e he
  · by_cases ha' : a < w.mem.nextAddr
    · exact lt_of_lt_of_le ha' hlt
    · obtain ⟨d, hd⟩ := Option.ne_none_iff_exists'.1 ha
      exact (hborn' a d (Nat.not_lt.1 ha') hd).1
  · by_cases ha : a < w.mem.nextAddr
    · rw [hborn a ha] at hd
      have hold' := h.born_live a d hd fun hl => hlog' (by rw [hlog, List.map_append]; exact List.mem_append_left _ hl)
      by_cases hji : shardOf (Hash d.key) = i
      · rw [hji] at hold' ⊢
        rw [Function.update_same]
        intro hnone
        obtain ⟨e1, he1⟩ := Option.ne_none_iff_exists'.1 hold'
        apply hlog'
        rw [hlog, List.map_append]
        exact List.mem_append_right _ (hstep.freed_called a (by simp [hold a e1 he1]) hnone)
      · rwa [Function.update_noteq hji]
    · obtain ⟨-, hmem, hsh⟩ := hborn' a d (Nat.not_lt.1 ha) hd
      rw [hsh, Function.update_same]
      exact hinv.handles_live a (mem_handlesOf.2 ⟨hmem, d, hd, hsh⟩)
  · rw [hlog, List.map_append, List.nodup_append]
    refine ⟨h.log_nodup, hstep.calls_nodup, fun x hx hx' => ?_⟩
    obtain ⟨d, hd, rfl⟩ := List.mem_map.1 hx
    obtain ⟨d', hd', he⟩ := List.mem_map.1 hx'
    obtain ⟨e0, h0, -, -⟩ := hstep.calls_freed d' hd'
    rw [he] at h0
    exact absurd (hnew _ e0 (h.log_dead d hd i) h0).1 (Nat.not_le.2 (h.log_lt hd))
  · rw [hlog] at hd
    rcases List.mem_append.1 hd with hd | hd
    · rw [hborn _ (h.log_lt hd)]
      exact h.log_born d hd
    · obtain ⟨e0, h0, -, hd'⟩ := hstep.calls_freed d hd
      exact (hs0 _ e0 h0).2.trans (congrArg some hd'.symm)
  · rw [hlog] at hd
    rcases List.mem_append.1 hd with hd | hd
    · by_cases hji : j = i
      · subst hji
        rw [Function.update_same]
        apply hstep.unborn
        rcases h0 : s0.entries d.entry with _ | e0
        · rfl
        · exact absurd (hnew _ e0 (h.log_dead d hd j) h0).1 (Nat.not_le.2 (h.log_lt hd))
      · rw [Function.update_noteq hji]
        exact h.log_dead d hd j
    · obtain ⟨e0, h0, hnone, -⟩ := hstep.calls_freed d hd
      by_cases hji : j = i
      · subst hji; simpa using hnone
      · rw [Function.update_noteq hji]
        rcases hsi : (s i).entries d.entry with _ | e1
        · exact h.entries_of_le (hnew _ e0 hsi h0).1
        · exact h.entries_of_ne (by simp [hsi]) hji

theorem update_of_born_eq (h : Rep Hash w s) {i : Fin numShards} {c' : LRUCache} {s' : LruMap}
    {calls : List DeleterCall} {k : Nat} (hc : w'.cache = w.cache.setShard i c')
    (hrep : ShardRep Hash c' w'.mem s') (hm' : w'.mem.Bounded)
    (hfr : w.mem.Frame (fun b => (s i).entries b ≠ none) k w'.mem calls) (hstep : (s i).Step s' calls)
    (hborn : w'.born = w.born) (hinv : s'.Inv (w'.handlesOf Hash i))
    (hH : ∀ j, j ≠ i → w'.handlesOf Hash j = w.handlesOf Hash j) (hHborn : ∀ a ∈ w'.handles, w.born a ≠ none) :
    Rep Hash w' (Function.update s i s') :=
  h.update hc hrep hm' hfr hstep (fun _ _ he => he) (fun _ _ hn he => by rw [hn] at he; cases he)
    (fun _ _ => by rw [hborn]) (fun _ _ hb hd => absurd (hborn ▸ hd) (h.not_born_of_le hb)) hinv hH
    (hborn ▸ hHborn)

theorem lookup (h : Rep Hash w s) (hp : w.handles.length + 2 < 2 ^ 32) (key : Bytes) :
    Answers Hash w s (.lookup key) := by
  set i := shardOf (Hash key)
  have hlen : (w.handlesOf Hash i).length + 2 < 2 ^ 32 :=
    lt_of_le_of_lt (Nat.add_le_add_right (List.length_filter_le _ _) 2) hp
  obtain ⟨hinv, hstep, hfind⟩ := (h.inv i).lookup hlen key
  obtain ⟨c', m', hc, hrep, hm', hfr⟩ := (h.shard i).lookup h.bounded key
  rw [hfind] at hc hinv
  have hfound : ∀ a, (s i).find key = some a → ∃ e, (s i).entries a = some e := fun a hf =>
    Option.ne_none_iff_exists'.1 ((h.inv i).lru_live a (LruMap.find_some hf).1)
  set w' : CacheClient :=
    ⟨w.cache.setShard i c', m', handlesAfter w.handles (.lookup key) (Ptr.ofOption ((s i).find key)), w.born⟩
  have hcall : w.call Hash (.lookup key) = some (w', Ptr.ofOption ((s i).find key)) := by
    simp [w', call, ShardedLRUCache.call, ShardedLRUCache.lookup, hc, i]
  have hH : ∀ j, w'.handlesOf Hash j =
      if i = j then ((s i).find key).toList ++ w.handlesOf Hash j else w.handlesOf Hash j := by
    intro j
    rcases hf : (s i).find key with _ | a
    · split_ifs <;> simp [w', hf, handlesOf, handlesAfter]
    · obtain ⟨e, he⟩ := hfound a hf
      have hcons : w'.handlesOf Hash j = _ := handlesOf_cons
        (show w'.handles = a :: w.handles by simp [w', hf, handlesAfter]) (fun _ _ => rfl) (h.born_entry i a e he) j
      rw [hcons, show (e.call a).key = e.key from rfl, h.routed i a e he]
      rfl
  have hfaith : ∀ dict, Faithful Hash s dict → Faithful Hash (Function.update s i ((s i).lookup key).1)
      (dictAfter dict (.lookup key) (Ptr.ofOption ((s i).find key))) := fun dict hd => by
    rw [dictAfter_lookup]
    refine hd.update (fun k a hk hf' => hd k a ?_) fun _ _ => rfl
    rw [hk]
    exact (h.inv i).find_of_step hstep (fun _ _ => rfl) hf' (LruMap.lookup_lru_subset key (LruMap.find_some hf').1)
  refine ⟨w', _, _, [], hcall, h.update_of_born_eq rfl hrep hm' hfr hstep rfl
    (by rw [hH, if_pos rfl]; exact hinv) (fun j hj => by rw [hH, if_neg (Ne.symm hj)]) (fun a ha => ?_),
    by rw [hfr.log], fun _ h' => absurd rfl h', hfaith⟩
  rcases hf : (s i).find key with _ | b <;> simp only [w', hf, handlesAfter, Ptr.ofOption_none, Ptr.ofOption_some,
    List.mem_cons] at ha
  · exact h.handles_born a ha
  · rcases ha with rfl | ha
    · obtain ⟨e, he⟩ := hfound a hf
      simp [w', h.born_entry i a e he]
    · exact h.handles_born a ha

theorem release (h : Rep Hash w s) {a : Nat} (ha : a ∈ w.handles) : Answers Hash w s (.release a) := by
  obtain ⟨d, e, hd, he, rfl, hmem⟩ := h.handle_entry ha
  set i := shardOf (Hash (e.call a).key)
  obtain ⟨hc, hhc, rfl, hh⟩ := (h.shard i).heap_eq he
  obtain ⟨s', calls, hu, hinv, hstep, hlru⟩ := (h.inv i).release hmem (by simp [he])
  obtain ⟨c', m', hcu, hrep, hm', hfr⟩ := (h.shard i).unref h.bounded hu hinv.lru_live
  have hshard : shardOf hc.hash = i := by rw [hh]; rfl
  set w' : CacheClient := ⟨w.cache.setShard i c', m', w.handles.erase a, w.born⟩
  have hcall : w.call Hash (.release a) = some (w', .null) := by
    simp [w', call, ShardedLRUCache.call, ShardedLRUCache.release, Mem.deref, hhc, hshard, LRUCache.release, hcu]
  have hH : ∀ j, w'.handlesOf Hash j = (w.handlesOf Hash j).erase a := handlesOf_erase rfl rfl
  have hfaith : ∀ dict, Faithful Hash s dict → Faithful Hash (Function.update s i s')
      (dictAfter dict (.release a) .null) := fun dict hd => by
    rw [dictAfter_release]
    refine hd.update (fun k b hk hf' => hd k b ?_) fun _ _ => rfl
    rw [hk]
    exact (h.inv i).find_of_step hstep (fun _ _ => rfl) hf' (by rw [← hlru]; exact (LruMap.find_some hf').1)
  refine ⟨w', .null, _, calls, hcall, h.update_of_born_eq rfl hrep hm' hfr hstep rfl (by rw [hH]; exact hinv)
    (fun j hj => ?_) (fun b hb => h.handles_born b (List.mem_of_mem_erase hb)), hfr.log, fun _ h' => absurd rfl h',
    hfaith⟩
  rw [hH]
  refine List.erase_of_not_mem fun h' => hj ?_
  obtain ⟨-, d', hd', hj'⟩ := mem_handlesOf.1 h'
  rw [hd, Option.some_inj] at hd'
  rw [← hj', ← hd']

theorem erase (h : Rep Hash w s) (key : Bytes) : Answers Hash w s (.erase key) := by
  set i := shardOf (Hash key)
  obtain ⟨s', calls, he, hinv, hstep, hlru⟩ := (h.inv i).erase key
  obtain ⟨c', m', hce, hrep, hm', hfr⟩ := (h.shard i).erase h.bounded key he hinv.lru_live
  set w' : CacheClient := ⟨w.cache.setShard i c', m', w.handles, w.born⟩
  have hcall : w.call Hash (.erase key) = some (w', .null) := by
    simp [w', call, ShardedLRUCache.call, ShardedLRUCache.erase, hce, i, handlesAfter, bornAfter]
  obtain ⟨hsub, hrest, -⟩ := (h.inv i).insert_rest key
  rw [← hlru] at hsub hrest
  have hfaith : ∀ dict, Faithful Hash s dict → Faithful Hash (Function.update s i s')
      (dictAfter dict (.erase key) .null) := fun dict hd => by
    rw [dictAfter_erase]
    refine hd.update (fun k a hk hf' => ?_) fun k hk => Function.update_noteq (fun e => hk (by rw [e])) _ _
    by_cases hkey : k = key
    · subst hkey
      rw [LruMap.find_eq_none_of_step hstep hrest] at hf'
      cases hf'
    · rw [Function.update_noteq hkey]
      refine hd k a ?_
      rw [hk]
      exact (h.inv i).find_of_step hstep (fun _ _ => rfl) hf' (hsub.subset (LruMap.find_some hf').1)
  exact ⟨w', .null, _, calls, hcall, h.update_of_born_eq rfl hrep hm' hfr hstep rfl hinv (fun _ _ => rfl)
    h.handles_born, hfr.log, fun _ h' => absurd rfl h', hfaith⟩

theorem insert (h : Rep Hash w s) {key : Bytes}
    (hp : (w.cache.shard (shardOf (Hash key))).table.elems.toNat < 2 ^ 31) (value : Nat) (charge : UInt64)
    (deleter : Nat) : Answers Hash w s (.insert key value charge deleter) := by
  set i := shardOf (Hash key)
  set a := w.mem.nextAddr
  have hlen : (s i).lru.length < 2 ^ 31 := (h.shard i).table.elems_eq ▸ hp
  have hfresh := (h.shard i).nextAddr_fresh h.bounded
  obtain ⟨s', calls, he, hinv, hstep⟩ := (h.inv i).insert hfresh key value charge deleter
  obtain ⟨c', m', hci, hrep, hm', hfr⟩ := (h.shard i).insert h.bounded (h.inv i) hlen key value charge deleter he
  set d : DeleterCall := ⟨a, deleter, key, value⟩
  set w' : CacheClient := ⟨w.cache.setShard i c', m', a :: w.handles, Function.update w.born a (some d)⟩
  have hcall : w.call Hash (.insert key value charge deleter) = some (w', .cell a) := by
    simp [w', CacheClient.call, ShardedLRUCache.call, ShardedLRUCache.insert, hci, i, handlesAfter, bornAfter, d]
  have hB : ∀ b ∈ w.handles, w'.born b = w.born b := fun b hb =>
    Function.update_noteq (Nat.ne_of_lt (h.born_lt b (h.handles_born b hb))) _ _
  have hH : ∀ j, w'.handlesOf Hash j = if i = j then a :: w.handlesOf Hash j else w.handlesOf Hash j := by
    intro j
    have hcons : w'.handlesOf Hash j = _ := handlesOf_cons (show w'.handles = a :: w.handles from rfl) hB
      (show w'.born a = some d from Function.update_same _ _ _) j
    exact hcons
  have hfaith : ∀ dict, Faithful Hash s dict → Faithful Hash (Function.update s i s')
      (dictAfter dict (.insert key value charge deleter) (.cell a)) := fun dict hd => by
    obtain ⟨-, hrest, hmem⟩ := (h.inv i).insert_rest key
    refine hd.update (fun k b hk hf' => ?_) fun k hk => Function.update_noteq (fun e => hk (by rw [e])) _ _
    rcases List.mem_append.1 (LruMap.insert_lru_subset he (LruMap.find_some hf').1) with hb | hb
    · have hfk := (h.inv i).find_of_step hstep
        (fun c hc => Function.update_noteq (fun e => (h.inv i).lru_live c hc (by rw [e]; exact hfresh)) _ _) hf'
        ((hmem b).1 hb).1
      have hkk : k ≠ key := fun e => hrest b hb (by rw [← e]; exact (LruMap.find_some hfk).2)
      show Function.update dict key (some a) k = some b
      rw [Function.update_noteq hkk]
      exact hd k b (by rw [hk]; exact hfk)
    · rw [List.mem_singleton] at hb
      subst hb
      obtain ⟨e', he', hk'⟩ := Option.map_eq_some'.1 (LruMap.find_some hf').2
      obtain ⟨e0, h0, hke, -⟩ := hstep.origin he'
      simp only [Function.update_same, Option.some_inj] at h0
      have hkey : k = key := by rw [← hk', hke, ← h0]
      subst hkey
      exact Function.update_same _ _ _
  refine ⟨w', .cell a, _, calls, hcall, h.update rfl hrep hm' hfr hstep (fun b e hb => ?_) (fun b e hb h0 => ?_)
    (fun b hb => Function.update_noteq (Nat.ne_of_lt hb) _ _) (fun b d' hb hd' => ?_)
    (by rw [hH, if_pos rfl]; exact hinv) (fun j hj => by rw [hH, if_neg (Ne.symm hj)]) (fun b hb => ?_), hfr.log,
    fun b hb => ?_, hfaith⟩
  · have hba : b ≠ a := fun hba => by rw [hba, hfresh] at hb; cases hb
    simpa [Function.update_noteq hba] using hb
  · by_cases hba : b = a
    · subst hba
      simp only [Function.update_same, Option.some_inj] at h0
      subst h0
      exact ⟨le_refl _, Function.update_same _ _ _, rfl⟩
    · simp [Function.update_noteq hba, hb] at h0
  · by_cases hba : b = a
    · subst hba
      simp only [w', Function.update_same, Option.some_inj] at hd'
      subst hd'
      exact ⟨by rw [hfr.nextAddr]; exact Nat.lt_succ_self _, List.mem_cons_self _ _, rfl⟩
    · simp only [w', Function.update_noteq hba] at hd'
      exact absurd hd' (h.not_born_of_le hb)
  · by_cases hba : b = a
    · rw [hba]
      exact (Function.update_same _ _ _).trans_ne (Option.some_ne_none _)
    · rcases List.mem_cons.1 hb with rfl | hb
      · exact absurd rfl hba
      · rw [hB b hb]; exact h.handles_born b hb
  · by_cases hba : b = a
    · exact hba ▸ List.mem_cons_self _ _
    · exact absurd (Function.update_noteq hba _ _) hb

theorem init (Hash : Bytes → UInt32) (capacity : UInt64) :
    Rep Hash (CacheClient.init capacity) fun _ => LruMap.empty (ShardedLRUCache.perShard capacity) :=
  ⟨fun _ => (ClientRep.init Hash _).shard, fun _ => LruMap.Inv.empty _, fun _ h => absurd rfl h,
    fun _ _ _ h => (by cases h), fun _ _ _ h => (by cases h), fun _ h => absurd rfl h, fun _ _ h => (by cases h),
    fun _ h => (by cases h), List.nodup_nil, fun _ h => (by cases h), fun _ h => (by cases h)⟩

theorem lookup_out (h : Rep Hash w s) {key : Bytes} {w' : CacheClient} {out : Ptr}
    (hc : w.call Hash (.lookup key) = some (w', out)) : out = Ptr.ofOption ((s (shardOf (Hash key))).find key) := by
  obtain ⟨hcache, -, -⟩ := CacheClient.call_eq_some hc
  obtain ⟨c', m', hcl, -⟩ := (h.shard (shardOf (Hash key))).lookup h.bounded key
  simp only [ShardedLRUCache.call, ShardedLRUCache.lookup, hcl, bind, Option.some_bind, Option.some_inj,
    Prod.mk.injEq, LruMap.lookup_snd] at hcache
  exact hcache.2.2.symm

theorem call (h : Rep Hash w s) {op : ShardOp} (hp : w.Permits Hash op) : Answers Hash w s op := by
  cases op with
  | insert key value charge deleter => exact h.insert hp value charge deleter
  | lookup key => exact h.lookup hp key
  | release a => exact h.release hp
  | erase key => exact h.erase key

end Rep

theorem Reachable.rep {Hash : Bytes → UInt32} {capacity : UInt64} {w : CacheClient}
    (hw : w.Reachable Hash capacity) : ∃ s, Rep Hash w s := by
  induction hw with
  | init => exact ⟨_, Rep.init Hash capacity⟩
  | step _ hp hc ih =>
    obtain ⟨s, h⟩ := ih
    obtain ⟨w', out, s', -, hc', h', -⟩ := h.call hp
    rw [hc, Option.some_inj, Prod.mk.injEq] at hc'
    exact ⟨s', hc'.1 ▸ h'⟩

theorem Remembers.rep {Hash : Bytes → UInt32} {capacity : UInt64} {w : CacheClient} {dict : Bytes → Option Nat}
    (hw : w.Remembers Hash capacity dict) : ∃ s, Rep Hash w s ∧ Faithful Hash s dict := by
  induction hw with
  | init => exact ⟨_, Rep.init Hash capacity, fun _ _ h => by cases h⟩
  | step _ hp hc ih =>
    obtain ⟨s, h, hf⟩ := ih
    obtain ⟨w', out, s', -, hc', h', -, -, hfa⟩ := h.call hp
    rw [hc, Option.some_inj, Prod.mk.injEq] at hc'
    obtain ⟨rfl, rfl⟩ := hc'
    exact ⟨s', h', hfa _ hf⟩

end CacheClient

end LevelDbProofs.Cache
