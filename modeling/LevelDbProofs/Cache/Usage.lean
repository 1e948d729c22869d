import Mathlib.Algebra.Order.BigOperators.Group.Finset
import LevelDbProofs.Cache.ShardRun

/-!
`usage_` of a shard: the charges of the live entries, modulo `2^64`.
-/

namespace LevelDbProofs.Cache

open LevelDbProofs.Util

def Mem.chargeAt (m : Mem) (a : Nat) : Nat := ((m.heap a).map fun h => h.charge.toNat).getD 0

namespace LruMap

def charge (s : LruMap) (a : Nat) : Nat := ((s.entries a).map fun e => e.charge.toNat).getD 0

def liveCharge (s : LruMap) (n : Nat) : Nat := ∑ a ∈ Finset.range n, s.charge a

structure Usage (s : LruMap) (n : Nat) : Prop where
  bound : ∀ a, n ≤ a → s.entries a = none
  usage : s.usage.toNat = s.liveCharge n % 2 ^ 64

section Usage

variable {s s' : LruMap} {n a : Nat} {calls : List DeleterCall}

theorem Usage.lt (h : Usage s n) (ha : s.entries a ≠ none) : a < n :=
  Nat.lt_of_not_le fun hle => ha (h.bound a hle)

theorem Usage.of_eq (h : Usage s n) (he : s'.entries = s.entries) (hu : s'.usage = s.usage) : Usage s' n :=
  ⟨fun a ha => he ▸ h.bound a ha, by rw [hu, h.usage]; simp only [liveCharge, charge, he]⟩

theorem liveCharge_update (ha : a < n) {x : Option Entry} (he : s'.entries = Function.update s.entries a x) :
    s'.liveCharge n + s.charge a = s.liveCharge n + (x.map fun e => e.charge.toNat).getD 0 := by
  have hf : s'.charge = Function.update s.charge a ((x.map fun e => e.charge.toNat).getD 0) := by
    funext b
    by_cases hb : b = a
    · subst hb; simp [charge, he]
    · simp [charge, he, hb]
  have hmem : a ∈ Finset.range n := Finset.mem_range.2 ha
  rw [liveCharge, liveCharge, hf, Finset.sum_update_of_mem hmem, Finset.sum_eq_add_sum_diff_singleton hmem s.charge]
  omega

theorem Usage.of_refs (h : Usage s n) {e : Entry} (he : s.entries a = some e) {r : UInt32}
    (he' : s'.entries = Function.update s.entries a (some { e with refs := r })) (hu : s'.usage = s.usage) :
    Usage s' n := by
  have ha := h.lt (a := a) (by simp [he])
  have hl := liveCharge_update ha he'
  simp only [charge, he, Option.map_some', Option.getD_some] at hl
  refine ⟨fun b hb => ?_, by rw [hu, h.usage, Nat.add_right_cancel hl]⟩
  rw [he', Function.update_noteq (by omega)]
  exact h.bound b hb

theorem Usage.of_free (h : Usage s n) {e : Entry} (he : s.entries a = some e)
    (he' : s'.entries = Function.update s.entries a none) (hu : s'.usage = s.usage - e.charge) : Usage s' n := by
  have ha := h.lt (a := a) (by simp [he])
  have hl := liveCharge_update ha he'
  simp only [charge, he, Option.map_some', Option.getD_some, Option.map_none', Option.getD_none] at hl
  have hc := uint64_toNat_lt e.charge
  refine ⟨fun b hb => ?_, ?_⟩
  · rw [he', Function.update_noteq (by omega)]
    exact h.bound b hb
  · rw [hu, uint64_toNat_sub, h.usage]
    omega

theorem Usage.unref (h : Usage s n) (hu : s.unref a = some (s', calls)) : Usage s' n := by
  obtain ⟨e, he, -, ⟨-, rfl, -⟩ | ⟨-, rfl, -⟩⟩ := unref_eq_some hu
  · exact h.of_free he rfl rfl
  · exact h.of_refs he rfl rfl

theorem Usage.lookup (h : Usage s n) (key : Bytes) : Usage (s.lookup key).1 n := by
  unfold LruMap.lookup
  split
  · exact h
  · next a _ =>
    rcases he : s.entries a with _ | e
    · exact h.of_eq (by dsimp only; rw [Option.map_none', ← he, Function.update_eq_self]) rfl
    · exact h.of_refs (r := e.refs + 1) he rfl rfl

theorem Usage.evictFrom : ∀ (l : List Nat) {s s' : LruMap} {calls : List DeleterCall}, Usage s n →
    s.evictFrom l = some (s', calls) → Usage s' n
  | [], s, _, _, h, he => (evictFrom_nil_eq_some he).1 ▸ h.of_eq rfl rfl
  | b :: rest, s, _, _, h, he => by
    rcases evictFrom_cons_eq_some he with ⟨-, s₁, _, _, hr, hr', -⟩ | ⟨-, rfl, -⟩
    · exact Usage.evictFrom rest ((h.of_eq rfl rfl : Usage { s with lru := rest } n).unref hr) hr'
    · exact h.of_eq rfl rfl

theorem liveCharge_link (rest : List Nat) (e : Entry) :
    (s.link rest n e).liveCharge (n + 1) = s.liveCharge n + e.charge.toNat := by
  rw [liveCharge, Finset.sum_range_succ]
  congr 1
  · exact Finset.sum_congr rfl fun b hb => by
      simp [charge, LruMap.link, Function.update_noteq (Nat.ne_of_lt (Finset.mem_range.1 hb))]
  · simp [charge]

theorem Usage.link (h : Usage s n) (rest : List Nat) (e : Entry) : Usage (s.link rest n e) (n + 1) := by
  refine ⟨fun b hb => ?_, ?_⟩
  · rw [link_entries, Function.update_noteq (by omega)]
    exact h.bound b (by omega)
  · rw [liveCharge_link]
    show (s.usage + e.charge).toNat = _
    rw [uint64_toNat_add, h.usage, Nat.mod_add_mod]

theorem Usage.insert (h : Usage s n) {key : Bytes} {value : Nat} {charge : UInt64} {deleter : Nat}
    (hi : s.insert n key value charge deleter = some (s', calls)) : Usage s' (n + 1) := by
  obtain ⟨s₁, _, _, hr, -, -, he, -⟩ := insert_eq_some hi
  refine Usage.evictFrom _ ?_ he
  have hl := h.link ((s.find key).elim s.lru s.lru.erase) ⟨key, value, deleter, charge, 2⟩
  revert hr hl
  cases s.find key with
  | none => intro hr hl; simp only [Option.elim, Option.some_inj, Prod.mk.injEq] at hr; exact hr.1 ▸ hl
  | some b => intro hr hl; exact hl.unref hr

theorem Usage.erase (h : Usage s n) {key : Bytes} (he : s.erase key = some (s', calls)) : Usage s' n := by
  unfold LruMap.erase at he
  split at he
  · simp only [Option.some_inj, Prod.mk.injEq] at he
    exact he.1 ▸ h
  · next a _ => exact (h.of_eq rfl rfl : Usage { s with lru := s.lru.erase a } n).unref he

theorem Usage.empty (capacity : UInt64) : Usage (empty capacity) 0 := ⟨fun _ _ => rfl, rfl⟩

theorem Usage.liveCharge_eq {handles : List Nat} (h : Usage s n) (hinv : s.Inv handles) :
    s.liveCharge n = ∑ a ∈ (s.lru ++ handles).toFinset, s.charge a := by
  refine (Finset.sum_subset (fun a ha => ?_) fun a _ ha => ?_).symm
  · rw [List.mem_toFinset, List.mem_append] at ha
    exact Finset.mem_range.2 (h.lt (ha.elim (hinv.lru_live a) (hinv.handles_live a)))
  · rcases he : s.entries a with _ | e
    · simp [charge, he]
    · exact absurd (List.mem_toFinset.2 (List.mem_append.2 (hinv.held a (by simp [he])))) ha

end Usage

end LruMap

namespace LruClient

variable {w w' : LruClient} {calls : List DeleterCall}

theorem call_eq_some {op : ShardOp} {out : Ptr} (hc : w.call op = some (w', calls, out)) :
    (∃ key value charge deleter, w.map.insert w.next key value charge deleter = some (w'.map, calls) ∧
        w'.next = w.next + 1) ∨
      (∃ key, w'.map = (w.map.lookup key).1 ∧ w'.next = w.next) ∨
      (∃ a, w.map.release a = some (w'.map, calls) ∧ w'.next = w.next) ∨
      (∃ key, w.map.erase key = some (w'.map, calls) ∧ w'.next = w.next) := by
  cases op with
  | insert key value charge deleter =>
    obtain ⟨⟨s', calls'⟩, hi, he⟩ := Option.map_eq_some'.1 hc
    simp only [Prod.mk.injEq] at he
    obtain ⟨rfl, rfl, -⟩ := he
    exact .inl ⟨key, value, charge, deleter, hi, rfl⟩
  | lookup key =>
    simp only [LruClient.call, Option.some_inj, Prod.mk.injEq] at hc
    obtain ⟨rfl, rfl, -⟩ := hc
    exact .inr (.inl ⟨key, rfl, rfl⟩)
  | release a =>
    obtain ⟨⟨s', calls'⟩, hu, he⟩ := Option.map_eq_some'.1 hc
    simp only [Prod.mk.injEq] at he
    obtain ⟨rfl, rfl, -⟩ := he
    exact .inr (.inr (.inl ⟨a, hu, rfl⟩))
  | erase key =>
    obtain ⟨⟨s', calls'⟩, he', he⟩ := Option.map_eq_some'.1 hc
    simp only [Prod.mk.injEq] at he
    obtain ⟨rfl, rfl, -⟩ := he
    exact .inr (.inr (.inr ⟨key, he', rfl⟩))

theorem usage_call (h : w.map.Usage w.next) {op : ShardOp} {out : Ptr} (hc : w.call op = some (w', calls, out)) :
    w'.map.Usage w'.next := by
  rcases call_eq_some hc with ⟨_, _, _, _, hi, hn⟩ | ⟨key, hm, hn⟩ | ⟨_, hu, hn⟩ | ⟨_, he, hn⟩ <;> rw [hn]
  · exact h.insert hi
  · exact hm ▸ h.lookup key
  · exact h.unref hu
  · exact h.erase he

theorem run_invariant (P : LruClient → Prop)
    (hstep : ∀ {w w' : LruClient} {op : ShardOp} {calls : List DeleterCall} {out : Ptr}, P w →
      w.call op = some (w', calls, out) → P w') :
    ∀ {w w' : LruClient} {ops : List ShardOp} {calls : List DeleterCall} {outs : List Ptr},
      P w → w.run ops = some (w', calls, outs) → P w'
  | w, w', [], calls, outs, h, hr => by
    simp only [LruClient.run, Option.some_inj, Prod.mk.injEq] at hr
    exact hr.1 ▸ h
  | w, w', op :: ops, calls, outs, h, hr => by
    simp only [LruClient.run, bind, Option.bind_eq_some] at hr
    obtain ⟨r, hc, r', hr', he⟩ := hr
    simp only [Option.some_inj, Prod.mk.injEq] at he
    exact he.1 ▸ run_invariant P hstep (hstep h hc) hr'

theorem usage_run {ops : List ShardOp} {outs : List Ptr} (h : w.map.Usage w.next)
    (hr : w.run ops = some (w', calls, outs)) : w'.map.Usage w'.next :=
  run_invariant (fun w => w.map.Usage w.next) (fun h hc => usage_call h hc) h hr

end LruClient

theorem ShardRep.chargeAt_eq {Hash : Bytes → UInt32} {c : LRUCache} {m : Mem} {s : LruMap}
    (h : ShardRep Hash c m s) {a : Nat} (ha : s.entries a ≠ none) : m.chargeAt a = s.charge a := by
  obtain ⟨e, he⟩ := Option.ne_none_iff_exists'.1 ha
  obtain ⟨hc, hhc, rfl, -⟩ := h.heap_eq he
  simp [Mem.chargeAt, LruMap.charge, hhc, he]

theorem lru_cache_usage_eq_live_charge (Hash : Bytes → UInt32) (capacity : UInt64) (ops : List ShardOp)
    (ha : (LruClient.init capacity).Allows ops) :
    ∃ c m w calls outs,
      (LRUCache.new.setCapacity capacity).run Hash Mem.empty ops = some (c, m, outs) ∧
      (LruClient.init capacity).run ops = some (w, calls, outs) ∧ c.walk m = some w.map.lru ∧
      (∀ a ∈ w.map.lru ++ w.handles, m.heap a ≠ none) ∧
      c.usage.toNat = (∑ a ∈ (w.map.lru ++ w.handles).toFinset, m.chargeAt a) % 2 ^ 64 ∧
      (∑ a ∈ (w.map.lru ++ w.handles).toFinset, m.chargeAt a < 2 ^ 64 →
        ∀ a ∈ w.map.lru ++ w.handles, m.chargeAt a ≤ c.usage.toNat) ∧
      (w.map.lru = [] → w.handles = [] → c.usage = 0) := by
  obtain ⟨c, m, w, calls, outs, hc, hw, h, -⟩ := (ClientRep.init Hash capacity).run ha
  have hu : w.map.Usage w.next := LruClient.usage_run (LruMap.Usage.empty capacity) hw
  have hlive : ∀ a ∈ w.map.lru ++ w.handles, w.map.entries a ≠ none := fun a ha =>
    (List.mem_append.1 ha).elim (h.inv.lru_live a) (h.inv.handles_live a)
  have hsum : ∑ a ∈ (w.map.lru ++ w.handles).toFinset, m.chargeAt a = w.map.liveCharge w.next := by
    rw [hu.liveCharge_eq h.inv]
    exact Finset.sum_congr rfl fun a ha => h.shard.chargeAt_eq (hlive a (List.mem_toFinset.1 ha))
  have husage : c.usage.toNat = (∑ a ∈ (w.map.lru ++ w.handles).toFinset, m.chargeAt a) % 2 ^ 64 := by
    rw [h.shard.usage, hu.usage, hsum]
  refine ⟨c, m, w, calls, outs, hc, hw, h.shard.ring.walk h.bounded, fun a ha => ?_, husage,
    fun hlt a ha => ?_, fun hl hh => ?_⟩
  · obtain ⟨e, he⟩ := Option.ne_none_iff_exists'.1 (hlive a ha)
    obtain ⟨hc, hhc, -⟩ := h.shard.heap_eq he
    simp [hhc]
  · rw [husage, Nat.mod_eq_of_lt hlt]
    exact Finset.single_le_sum (fun _ _ => Nat.zero_le _) (List.mem_toFinset.2 ha)
  · rw [uint64_eq_iff, husage, hl, hh]
    rfl

theorem lru_cache_usage_eq_live_charge_after_erase :
    (LruClient.init 10).Allows [.insert [1] 7 3 0, .insert [2] 8 4 0, .erase [1]] ∧
    ∃ c m w calls outs,
      (LRUCache.new.setCapacity 10).run (fun _ => 0) Mem.empty [.insert [1] 7 3 0, .insert [2] 8 4 0, .erase [1]] =
        some (c, m, outs) ∧
      (LruClient.init 10).run [.insert [1] 7 3 0, .insert [2] 8 4 0, .erase [1]] = some (w, calls, outs) ∧
      c.walk m = some w.map.lru ∧
      (∀ a ∈ w.map.lru ++ w.handles, m.heap a ≠ none) ∧
      c.usage.toNat = (∑ a ∈ (w.map.lru ++ w.handles).toFinset, m.chargeAt a) % 2 ^ 64 ∧
      (∑ a ∈ (w.map.lru ++ w.handles).toFinset, m.chargeAt a < 2 ^ 64 →
        ∀ a ∈ w.map.lru ++ w.handles, m.chargeAt a ≤ c.usage.toNat) ∧
      (w.map.lru = [] → w.handles = [] → c.usage = 0) :=
  ⟨by decide, lru_cache_usage_eq_live_charge (fun _ => 0) 10 _ (by decide)⟩

end LevelDbProofs.Cache
