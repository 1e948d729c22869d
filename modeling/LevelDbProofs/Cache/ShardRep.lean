import LevelDbProofs.Cache.LRUCache
import LevelDbProofs.Cache.LruMap

/-!
A shard refines the abstract map: `ShardRep` relates an `LRUCache` and the heap to an `LruMap`.
-/

namespace LevelDbProofs.Cache

open LevelDbProofs.Util

def LRUHandle.entry (h : LRUHandle) : Entry := ⟨h.key, h.value, h.deleter, h.charge, h.refs⟩

@[simp] theorem LRUHandle.entry_key (h : LRUHandle) : h.entry.key = h.key := rfl

@[simp] theorem LRUHandle.entry_refs (h : LRUHandle) : h.entry.refs = h.refs := rfl

@[simp] theorem LRUHandle.entry_charge (h : LRUHandle) : h.entry.charge = h.charge := rfl

def LRUHandle.view (h : LRUHandle) : Entry × UInt32 := (h.entry, h.hash)

structure ShardRep (Hash : Bytes → UInt32) (c : LRUCache) (m : Mem) (s : LruMap) : Prop where
  capacity : c.capacity = s.capacity
  usage : c.usage = s.usage
  ring : Ring c m s.lru
  table : TableRep c.table m s.lru
  cells : ∀ a e, s.entries a = some e → (m.heap a).map LRUHandle.view = some (e, Hash e.key)
  lru_live : ∀ a ∈ s.lru, s.entries a ≠ none

structure Mem.Frame (own : Nat → Prop) (k : Nat) (m m' : Mem) (calls : List DeleterCall) : Prop where
  frame : ∀ b, ¬ own b → b < m.nextAddr → m'.heap b = m.heap b
  nextAddr : m'.nextAddr = m.nextAddr + k
  log : m'.log = m.log ++ calls

section Frame

variable {own own' : Nat → Prop} {k k' : Nat} {m m' m'' : Mem} {calls calls' : List DeleterCall}

theorem Mem.Frame.refl (own : Nat → Prop) (m : Mem) : m.Frame own 0 m [] :=
  ⟨fun _ _ _ => rfl, rfl, (List.append_nil _).symm⟩

theorem Mem.Frame.trans (h : m.Frame own k m' calls) (h' : m'.Frame own' k' m'' calls')
    (hown : ∀ b < m.nextAddr, own' b → own b) : m.Frame own (k + k') m'' (calls ++ calls') :=
  ⟨fun b hb hlt => (h'.frame b (fun h'' => hb (hown b hlt h''))
    (lt_of_lt_of_le hlt (h.nextAddr ▸ Nat.le_add_right _ _))).trans (h.frame b hb hlt),
    by rw [h'.nextAddr, h.nextAddr, Nat.add_assoc], by rw [h'.log, h.log, List.append_assoc]⟩

theorem Mem.Frame.of_modify {a : Nat} {f : LRUHandle → LRUHandle} (h : m.modify a f = some m') (ha : own a) :
    m.Frame own 0 m' [] :=
  ⟨fun _ hb _ => Mem.modify_heap_of_ne h fun e => hb (e ▸ ha), Mem.modify_nextAddr h,
    by rw [Mem.modify_log h, List.append_nil]⟩

theorem Mem.Frame.malloc (own : Nat → Prop) (m : Mem) (x : LRUHandle) : m.Frame own 1 (m.malloc x).1 [] :=
  ⟨fun b _ hb => by simp [Nat.ne_of_lt hb], rfl, (List.append_nil _).symm⟩

theorem Mem.ChangedOnly.frame_of {g : LRUHandle → LRUHandle} {S : List Nat} (h : m.ChangedOnly g S m')
    (hS : ∀ b ∈ S, own b) : m.Frame own 0 m' [] :=
  ⟨fun b hb _ => h.frame b fun h' => hb (hS b h'), h.nextAddr, by rw [h.log, List.append_nil]⟩

end Frame

section Views

variable {m m' : Mem} {S : List Nat}

theorem Mem.ChangedOnly.view_links (h : m.ChangedOnly LRUHandle.withoutLinks S m') (a : Nat) :
    (m'.heap a).map LRUHandle.view = (m.heap a).map LRUHandle.view :=
  h.map LRUHandle.view (fun _ => rfl) a

theorem Mem.ChangedOnly.tableView_links (h : m.ChangedOnly LRUHandle.withoutLinks S m') (a : Nat) :
    (m'.heap a).map LRUHandle.tableView = (m.heap a).map LRUHandle.tableView :=
  h.map LRUHandle.tableView (fun _ => rfl) a

theorem Mem.ChangedOnly.view_nextHash (h : m.ChangedOnly LRUHandle.withoutNextHash S m') (a : Nat) :
    (m'.heap a).map LRUHandle.view = (m.heap a).map LRUHandle.view :=
  h.map LRUHandle.view (fun _ => rfl) a

theorem Mem.ChangedOnly.links_nextHash (h : m.ChangedOnly LRUHandle.withoutNextHash S m') (a : Nat) :
    (m'.heap a).map LRUHandle.links = (m.heap a).map LRUHandle.links :=
  h.map LRUHandle.links (fun _ => rfl) a

theorem Mem.ident_congr {b : Nat} (h : (m'.heap b).map LRUHandle.view = (m.heap b).map LRUHandle.view) :
    m'.ident b = m.ident b := by
  have := congrArg (Option.map fun v : Entry × UInt32 => (v.1.key, v.2)) h
  simpa only [Option.map_map, Function.comp_def, LRUHandle.view, LRUHandle.entry_key] using this

end Views

theorem find_congr {α : Type} {p q : α → Bool} : ∀ {l : List α}, (∀ a ∈ l, p a = q a) → l.find? p = l.find? q
  | [], _ => rfl
  | a :: l, h => by
    simp only [List.find?_cons, h a (List.mem_cons_self a l), find_congr fun b hb => h b (List.mem_cons_of_mem a hb)]

namespace ShardRep

variable {Hash : Bytes → UInt32} {c c' : LRUCache} {m m' : Mem} {s : LruMap}

theorem heap_eq (h : ShardRep Hash c m s) {a : Nat} {e : Entry} (ha : s.entries a = some e) :
    ∃ hc, m.heap a = some hc ∧ hc.entry = e ∧ hc.hash = Hash e.key := by
  obtain ⟨hc, hhc, hv⟩ := Option.map_eq_some'.1 (h.cells a e ha)
  exact ⟨hc, hhc, congrArg Prod.fst hv, congrArg Prod.snd hv⟩

theorem heap_ne_none (h : ShardRep Hash c m s) {a : Nat} (ha : a ∈ s.lru) : m.heap a ≠ none := by
  obtain ⟨e, he⟩ := Option.ne_none_iff_exists'.1 (h.lru_live a ha)
  obtain ⟨hc, hhc, -⟩ := h.heap_eq he
  simp [hhc]

theorem ident_eq (h : ShardRep Hash c m s) {a : Nat} {e : Entry} (ha : s.entries a = some e) :
    m.ident a = some (e.key, Hash e.key) := by
  obtain ⟨hc, hhc, rfl, hh⟩ := h.heap_eq ha
  simp [Mem.ident, hhc, hh]

theorem findEntry_eq (h : ShardRep Hash c m s) (key : Bytes) :
    findEntry m s.lru key (Hash key) = s.find key := by
  refine find_congr fun a ha => ?_
  obtain ⟨e, he⟩ := Option.ne_none_iff_exists'.1 (h.lru_live a ha)
  rw [h.ident_eq he, he]
  by_cases hk : e.key = key <;> simp [hk]

theorem table_lookup (h : ShardRep Hash c m s) (hm : m.Bounded) (key : Bytes) :
    c.table.lookup m key (Hash key) = some (Ptr.ofOption (s.find key)) := by
  rw [h.table.lookup hm, h.findEntry_eq]

theorem congr_heap (h : ShardRep Hash c m s) (hm : ∀ a, s.entries a ≠ none → m'.heap a = m.heap a) :
    ShardRep Hash c m' s := by
  have hl : ∀ a ∈ s.lru, m'.heap a = m.heap a := fun a ha => hm a (h.lru_live a ha)
  refine ⟨h.capacity, h.usage, h.ring.congr rfl rfl fun a ha => by rw [hl a ha],
    h.table.congr fun a ha => by rw [hl a ha], fun a e ha => ?_, h.lru_live⟩
  rw [hm a (by simp [ha])]
  exact h.cells a e ha

theorem unref (h : ShardRep Hash c m s) (hm : m.Bounded) {a : Nat} {s' : LruMap} {calls : List DeleterCall}
    (hu : s.unref a = some (s', calls)) (hlive : ∀ b ∈ s'.lru, s'.entries b ≠ none) :
    ∃ c' m', c.unref m (.cell a) = some (c', m') ∧ ShardRep Hash c' m' s' ∧ m'.Bounded ∧
      m.Frame (fun b => s.entries b ≠ none) 0 m' calls := by
  rcases he : s.entries a with _ | e
  · simp [LruMap.unref, he] at hu
  obtain ⟨hc, hhc, rfl, hh⟩ := h.heap_eq he
  have hother : ∀ {x : Option Entry} b, b ≠ a → Function.update s.entries a x b = s.entries b :=
    fun b hb => Function.update_noteq hb _ _
  rw [LRUCache.unref_cell c m hhc]
  simp only [LruMap.unref, he, bind, Option.some_bind, LRUHandle.entry_refs] at hu
  by_cases h0 : hc.refs = 0
  · simp [h0] at hu
  by_cases h1 : hc.refs - 1 = 0
  · simp only [if_neg h0, if_pos h1, Option.some_inj, Prod.mk.injEq] at hu
    obtain ⟨rfl, rfl⟩ := hu
    have hne : ∀ b ∈ s.lru, b ≠ a := fun b hb e => hlive b hb (by subst e; simp)
    set m' : Mem := ({ m with log := m.log ++ [⟨a, hc.deleter, hc.key, hc.value⟩] } : Mem).free a
    have hfree : ∀ b, b ≠ a → m'.heap b = m.heap b := fun b hb => by simp [m', hb]
    refine ⟨{ c with usage := c.usage - hc.charge }, m', by rw [if_neg h0, if_pos h1],
      ⟨h.capacity, by simp [h.usage], ?_, ?_, fun b e hb => ?_, hlive⟩, hm.free a,
      ⟨fun b hb _ => hfree b fun e => hb (by simp [e, he]), rfl, rfl⟩⟩
    · exact h.ring.congr rfl rfl fun b hb => by rw [hfree b (hne b hb)]
    · exact h.table.congr fun b hb => by rw [hfree b (hne b hb)]
    · have hba : b ≠ a := fun e => by subst e; simp at hb
      rw [hfree b hba]
      exact h.cells b e (by simpa [hother b hba] using hb)
  · simp only [if_neg h0, if_neg h1, Option.some_inj, Prod.mk.injEq] at hu
    obtain ⟨rfl, rfl⟩ := hu
    set m' : Mem := { m with heap := Function.update m.heap a (some { hc with refs := hc.refs - 1 }) }
    have hsame : ∀ {α : Type} (p : LRUHandle → α), (∀ x : LRUHandle, p { x with refs := x.refs - 1 } = p x) →
        ∀ b, (m'.heap b).map p = (m.heap b).map p := fun p hp b => by
      by_cases hba : b = a
      · subst hba; simp [m', hhc, hp]
      · simp [m', hba]
    refine ⟨c, m', by rw [if_neg h0, if_neg h1], ⟨h.capacity, h.usage,
      h.ring.congr rfl rfl fun b _ => hsame LRUHandle.links (fun _ => rfl) b,
      h.table.congr fun b _ => hsame LRUHandle.tableView (fun _ => rfl) b,
      fun b e hb => ?_, hlive⟩, fun b hb => ?_, ⟨fun b hb _ => ?_, rfl, (List.append_nil _).symm⟩⟩
    · by_cases hba : b = a
      · subst hba
        simp only [Function.update_same, Option.some_inj] at hb
        subst hb
        simp [m', LRUHandle.view, LRUHandle.entry, hh]
      · simpa [m', hba] using h.cells b e (by simpa [hother b hba] using hb)
    · by_cases hba : b = a
      · subst hba; exact hm b (by simp [hhc])
      · exact hm b (by simpa [m', hba] using hb)
    · have hba : b ≠ a := fun e => hb (by simp [e, he])
      simp [m', hba]

theorem lookup (h : ShardRep Hash c m s) (hm : m.Bounded) (key : Bytes) :
    ∃ c' m', c.lookup m key (Hash key) = some (c', m', Ptr.ofOption (s.lookup key).2) ∧
      ShardRep Hash c' m' (s.lookup key).1 ∧ m'.Bounded ∧ m.Frame (fun b => s.entries b ≠ none) 0 m' [] := by
  have hl := h.table_lookup hm key
  rcases hf : s.find key with _ | a
  · exact ⟨c, m, by simp [LRUCache.lookup, hl, hf, LruMap.lookup], by simpa [LruMap.lookup, hf] using h, hm,
      .refl _ _⟩
  have hal := (LruMap.find_some hf).1
  obtain ⟨e, he⟩ := Option.ne_none_iff_exists'.1 (h.lru_live a hal)
  obtain ⟨hc, hhc, rfl, hh⟩ := h.heap_eq he
  have hmod := Mem.modify_eq_some (f := fun h => { h with refs := h.refs + 1 }) hhc
  set m1 : Mem := { m with heap := Function.update m.heap a (some { hc with refs := hc.refs + 1 }) }
  have hsame1 : ∀ {α : Type} (p : LRUHandle → α), (∀ x : LRUHandle, p { x with refs := x.refs + 1 } = p x) →
      ∀ b, (m1.heap b).map p = (m.heap b).map p := fun p hp b => Mem.modify_map hmod p hp b
  obtain ⟨pre, suf, hsplit⟩ := List.append_of_mem hal
  have hring1 : Ring c m1 (pre ++ a :: suf) :=
    hsplit ▸ h.ring.congr rfl rfl fun b _ => hsame1 LRUHandle.links (fun _ => rfl) b
  have hnd := hring1.nodup
  have hapre : a ∉ pre := fun h' => (List.nodup_append.1 hnd).2.2 h' (List.mem_cons_self a suf)
  have hanot : a ∉ pre ++ suf := by
    rw [List.mem_append]
    exact fun h' => h'.elim hapre (List.nodup_cons.1 (List.nodup_append.1 hnd).2.1).1
  obtain ⟨c2, m2, h2, hring2, hs2, hco2⟩ := hring1.lruRemove
  obtain ⟨c3, m3, h3, hring3, hs3, hco3⟩ := hring2.lruAppend ((hco2.heap_ne_none a).2 (by simp [m1])) hanot
  have herase : s.lru.erase a = pre ++ suf := by
    rw [hsplit, List.erase_append_right _ hapre, List.erase_cons_head]
  have hview : ∀ b, (m3.heap b).map LRUHandle.view = (m1.heap b).map LRUHandle.view := fun b => by
    rw [hco3.view_links, hco2.view_links]
  have hown : ∀ b ∈ a :: (pre ++ suf), s.entries b ≠ none := fun b hb =>
    h.lru_live b (by rw [hsplit]; simp only [List.mem_cons, List.mem_append] at hb ⊢; tauto)
  refine ⟨c3, m3, by simp [LRUCache.lookup, LruMap.lookup, hl, hf, hmod, h2, h3], ⟨?_, ?_, ?_, ?_, fun b e' hb => ?_, ?_⟩,
    hco3.bounded (hco2.bounded (hm.modify hmod)),
    ((Mem.Frame.of_modify hmod (h.lru_live a hal)).trans ((hco2.frame_of fun b hb => hown b (.tail _ hb)).trans
      (hco3.frame_of hown) fun _ _ => id) fun _ _ => id)⟩
  · simpa [LruMap.lookup, hf, hs3.capacity, hs2.capacity] using h.capacity
  · simpa [LruMap.lookup, hf, hs3.usage, hs2.usage] using h.usage
  · simpa [LruMap.lookup, hf, herase] using hring3
  · simp only [LruMap.lookup, hf, hs3.table, hs2.table]
    refine (h.table.congr fun b _ => ?_).perm ((List.perm_cons_erase hal).trans
      (List.perm_append_singleton _ _).symm)
    rw [hco3.tableView_links, hco2.tableView_links, hsame1 LRUHandle.tableView (fun _ => rfl)]
  · rw [hview]
    by_cases hba : b = a
    · subst hba
      simp only [LruMap.lookup, hf, he, Function.update_same, Option.map_some', Option.some_inj] at hb
      subst hb
      simp [m1, LRUHandle.view, LRUHandle.entry, hh]
    · simp only [LruMap.lookup, hf, Function.update_noteq hba] at hb
      simpa [m1, hba] using h.cells b e' hb
  · intro b hb
    by_cases hba : b = a
    · subst hba; simp [LruMap.lookup, hf, he]
    · simp only [LruMap.lookup, hf, Function.update_noteq hba]
      refine h.lru_live b ?_
      simp only [LruMap.lookup, hf, List.mem_append, List.mem_singleton, hba, or_false] at hb
      exact List.mem_of_mem_erase hb

theorem erase (h : ShardRep Hash c m s) (hm : m.Bounded) (key : Bytes) {s' : LruMap}
    {calls : List DeleterCall} (he : s.erase key = some (s', calls))
    (hlive : ∀ b ∈ s'.lru, s'.entries b ≠ none) :
    ∃ c' m', c.erase m key (Hash key) = some (c', m') ∧ ShardRep Hash c' m' s' ∧ m'.Bounded ∧
      m.Frame (fun b => s.entries b ≠ none) 0 m' calls := by
  obtain ⟨t', m1, hrem, htab, hco1⟩ := h.table.remove hm key (Hash key)
  rw [h.findEntry_eq] at hrem htab
  have hown : ∀ b ∈ s.lru, s.entries b ≠ none := h.lru_live
  have hring1 : Ring { c with table := t' } m1 s.lru := h.ring.congr rfl rfl fun b _ => hco1.links_nextHash b
  have hcells1 : ∀ b e, s.entries b = some e → (m1.heap b).map LRUHandle.view = some (e, Hash e.key) :=
    fun b e hb => by rw [hco1.view_nextHash]; exact h.cells b e hb
  rcases hf : s.find key with _ | a
  · simp only [LruMap.erase, hf, Option.some_inj, Prod.mk.injEq] at he
    obtain ⟨rfl, rfl⟩ := he
    rw [hf] at hrem htab
    exact ⟨{ c with table := t' }, m1, by simp [LRUCache.erase, hrem],
      ⟨h.capacity, h.usage, hring1, htab, hcells1, h.lru_live⟩, hco1.bounded hm, hco1.frame_of hown⟩
  rw [hf] at hrem htab
  have hal := (LruMap.find_some hf).1
  obtain ⟨pre, suf, hsplit⟩ := List.append_of_mem hal
  have hnd := h.ring.nodup
  have hapre : a ∉ pre := fun h' => (List.nodup_append.1 (hsplit ▸ hnd)).2.2 h' (List.mem_cons_self a suf)
  have herase : s.lru.erase a = pre ++ suf := by
    rw [hsplit, List.erase_append_right _ hapre, List.erase_cons_head]
  obtain ⟨c2, m2, h2, hring2, hs2, hco2⟩ := (hsplit ▸ hring1).lruRemove
  have hrep2 : ShardRep Hash c2 m2 { s with lru := s.lru.erase a } :=
    ⟨hs2.capacity.trans h.capacity, hs2.usage.trans h.usage, herase ▸ hring2,
      hs2.table ▸ htab.congr fun b _ => hco2.tableView_links b,
      fun b e hb => by rw [hco2.view_links]; exact hcells1 b e hb,
      fun b hb => h.lru_live b (List.mem_of_mem_erase hb)⟩
  simp only [LruMap.erase, hf] at he
  obtain ⟨c', m', hu, hrep', hm', hfr⟩ := hrep2.unref (hco2.bounded (hco1.bounded hm)) he hlive
  refine ⟨c', m', by simp [LRUCache.erase, hrem, h2, hu], hrep', hm', ?_⟩
  have hS : ∀ b ∈ pre ++ suf, s.entries b ≠ none := fun b hb =>
    hown b (by rw [hsplit]; simp only [List.mem_append, List.mem_cons] at hb ⊢; tauto)
  have hfr12 := (hco1.frame_of hown).trans (hco2.frame_of hS) fun _ _ => id
  simpa using hfr12.trans hfr fun _ _ => id

theorem evictFrom {handles : List Nat} : ∀ (l : List Nat) {c : LRUCache} {m : Mem} {s s' : LruMap}
    {calls : List DeleterCall} {fuel : Nat}, s.lru = l → l.length < fuel → ShardRep Hash c m s → m.Bounded →
    s.Inv handles → s.evictFrom l = some (s', calls) →
    ∃ c' m', c.evict m fuel = some (c', m') ∧ ShardRep Hash c' m' s' ∧ m'.Bounded ∧
      m.Frame (fun b => s.entries b ≠ none) 0 m' calls
  | _, _, _, _, _, _, 0, _, hfuel, _, _, _, _ => absurd hfuel (Nat.not_lt_zero _)
  | [], c, m, s, s', calls, fuel + 1, hl, _, h, hm, _, he => by
    simp only [LruMap.evictFrom, Option.some_inj, Prod.mk.injEq] at he
    obtain ⟨rfl, rfl⟩ := he
    have hhead : c.lruNext = .head := by rw [h.ring.lruNext, hl]; rfl
    refine ⟨c, m, by simp [LRUCache.evict, hhead], by rw [← hl]; exact h, hm, .refl _ _⟩
  | b :: rest, c, m, s, s', calls, fuel + 1, hl, hfuel, h, hm, hinv, he => by
    have hnext : c.lruNext = .cell b := by rw [h.ring.lruNext, hl]; rfl
    by_cases hu : s.usage > s.capacity
    swap
    · simp only [LruMap.evictFrom, if_neg hu, Option.some_inj, Prod.mk.injEq] at he
      obtain ⟨rfl, rfl⟩ := he
      refine ⟨c, m, ?_, by rw [← hl]; exact h, hm, .refl _ _⟩
      simp [LRUCache.evict, h.usage, h.capacity, hu]
    have hbut := hinv.unlink (hl ▸ List.mem_cons_self b rest)
    rw [hl, List.erase_cons_head] at hbut
    obtain ⟨s₁, calls₁, hu₁, hinv₁, hstep₁, hlru₁⟩ := hbut.unref
    simp only [LruMap.evictFrom, if_pos hu, hu₁, bind, Option.some_bind] at he
    obtain ⟨⟨s₂, calls₂⟩, he₂, hr⟩ := Option.bind_eq_some.1 he
    simp only [Option.some_inj, Prod.mk.injEq] at hr
    obtain ⟨rfl, rfl⟩ := hr
    obtain ⟨e, hbe⟩ := Option.ne_none_iff_exists'.1 (h.lru_live b (hl ▸ List.mem_cons_self b rest))
    obtain ⟨hc, hhc, rfl, hh⟩ := h.heap_eq hbe
    have hown : ∀ x ∈ b :: rest, s.entries x ≠ none := fun x hx => h.lru_live x (hl ▸ hx)
    have hring : Ring c m ([] ++ b :: rest) := by rw [List.nil_append, ← hl]; exact h.ring
    obtain ⟨c2, m2, h2, hring2, hs2, hco2⟩ := hring.lruRemove
    rw [List.nil_append] at hring2 hco2
    obtain ⟨hc2, hh2, -⟩ := Option.map_eq_some'.1 ((hco2.view_links b).trans (by rw [hhc]; rfl))
    have hm2 := hco2.bounded hm
    have htab2 : TableRep c2.table m2 (b :: rest) := hs2.table ▸ hl ▸ h.table.congr fun x _ => hco2.tableView_links x
    obtain ⟨t', m3, hrem, htab3, hco3⟩ := htab2.remove hm2 hc2.key hc2.hash
    have hfind : findEntry m2 (b :: rest) hc2.key hc2.hash = some b := by
      simp [findEntry, List.find?_cons, Mem.ident, hh2]
    rw [hfind] at hrem htab3
    simp only [Option.elim, List.erase_cons_head] at htab3
    have hrep3 : ShardRep Hash { c2 with table := t' } m3 { s with lru := rest } :=
      ⟨hs2.capacity.trans h.capacity, hs2.usage.trans h.usage,
        hring2.congr rfl rfl fun x _ => hco3.links_nextHash x, htab3,
        fun x e hx => by rw [hco3.view_nextHash, hco2.view_links]; exact h.cells x e hx,
        fun x hx => h.lru_live x (hl ▸ List.mem_cons_of_mem b hx)⟩
    obtain ⟨c4, m4, h4, hrep4, hm4, hfr4⟩ := hrep3.unref (hco3.bounded hm2) hu₁ hinv₁.lru_live
    obtain ⟨c5, m5, h5, hrep5, hm5, hfr5⟩ := evictFrom rest hlru₁ (Nat.lt_of_succ_lt_succ hfuel) hrep4 hm4
      hinv₁ he₂
    refine ⟨c5, m5, ?_, hrep5, hm5, ?_⟩
    · simp only [LRUCache.evict, h.usage, h.capacity, hu, hnext, ne_eq, reduceCtorEq, not_false_eq_true,
        and_self, if_true, h2, Mem.deref, hh2, hrem, h4, h5, bind, Option.some_bind]
    · have hS : ∀ x ∈ rest, s.entries x ≠ none := fun x hx => hown x (List.mem_cons_of_mem b hx)
      have hfr23 := (hco2.frame_of hS).trans (hco3.frame_of hown) fun _ _ => id
      simpa using (hfr23.trans hfr4 fun _ _ => id).trans hfr5 fun x _ hx hnone =>
        hx (hstep₁.unborn x hnone)

theorem link (h : ShardRep Hash c m s) {a : Nat} {x : LRUHandle} {rest : List Nat} {c' : LRUCache}
    {m' : Mem} (hx : x.hash = Hash x.key) (hcap : c'.capacity = c.capacity)
    (husage : c'.usage = c.usage + x.charge) (hrest : rest ⊆ s.lru) (hring : Ring c' m' (rest ++ [a]))
    (htab : TableRep c'.table m' (rest ++ [a]))
    (hview : ∀ b, (m'.heap b).map LRUHandle.view = (if b = a then some x else m.heap b).map LRUHandle.view) :
    ShardRep Hash c' m' (s.link rest a x.entry) := by
  refine ⟨hcap.trans h.capacity, by rw [husage, h.usage]; rfl, hring, htab, fun b e hb => ?_, fun b hb => ?_⟩
  · rw [hview]
    rcases eq_or_ne b a with rfl | hba
    · simp only [LruMap.link_entries, Function.update_same, Option.some_inj] at hb
      subst hb
      simp [LRUHandle.view, hx]
    · rw [LruMap.link_entries, Function.update_noteq hba] at hb
      simpa [hba] using h.cells b e hb
  · rcases eq_or_ne b a with rfl | hba
    · simp
    · rw [LruMap.link_entries, Function.update_noteq hba]
      exact h.lru_live b (hrest ((List.mem_append.1 hb).resolve_right fun h' => hba (List.mem_singleton.1 h')))

theorem nextAddr_fresh (h : ShardRep Hash c m s) (hm : m.Bounded) : s.entries m.nextAddr = none := by
  rcases hb : s.entries m.nextAddr with _ | e
  · rfl
  · obtain ⟨hc, hhc, -⟩ := h.heap_eq hb
    rw [hm.fresh] at hhc; cases hhc

theorem appendFresh (h : ShardRep Hash c m s) (hm : m.Bounded) (x : LRUHandle) :
    ∃ c1 m1 xa, c.lruAppend (m.malloc x).1 (.cell m.nextAddr) = some (c1, m1) ∧
      Ring c1 m1 (s.lru ++ [m.nextAddr]) ∧ c.SameExceptHead c1 ∧
      (m.malloc x).1.ChangedOnly LRUHandle.withoutLinks (m.nextAddr :: s.lru) m1 ∧
      m1.heap m.nextAddr = some xa ∧ xa.view = x.view ∧ TableRep c1.table m1 s.lru ∧
      ∀ key, findEntry m1 s.lru key (Hash key) = s.find key := by
  have hal : m.nextAddr ∉ s.lru := fun h' => h.lru_live _ h' (h.nextAddr_fresh hm)
  have hne : ∀ b ∈ s.lru, b ≠ m.nextAddr := fun b hb e => hal (e ▸ hb)
  have hring0 : Ring c (m.malloc x).1 s.lru := h.ring.congr rfl rfl fun b hb => by simp [hne b hb]
  obtain ⟨c1, m1, h1, hring1, hs1, hco1⟩ := hring0.lruAppend (by simp) hal
  have hold : ∀ b ∈ s.lru, (m1.heap b).map LRUHandle.view = (m.heap b).map LRUHandle.view := fun b hb => by
    rw [hco1.view_links]; simp [hne b hb]
  obtain ⟨xa, hxa, hvxa⟩ := Option.map_eq_some'.1 ((hco1.view_links m.nextAddr).trans (by simp; rfl))
  refine ⟨c1, m1, xa, h1, hring1, hs1, hco1, hxa, hvxa,
    hs1.table ▸ h.table.congr fun b hb => by rw [hco1.tableView_links]; simp [hne b hb], fun key => ?_⟩
  rw [← h.findEntry_eq]
  exact find_congr fun b hb => by rw [Mem.ident_congr (hold b hb)]

theorem insert_full (h : ShardRep Hash c m s) (hm : m.Bounded) (hfull : s.lru.length = 2 ^ 31) (key : Bytes)
    (value : Nat) (charge : UInt64) (deleter : Nat) (hnew : s.find key = none) :
    c.insert m key (Hash key) value charge deleter = none := by
  obtain ⟨c1, m1, xa, h1, -, -, hco1, hxa, hvxa, htab1, hfind⟩ :=
    h.appendFresh hm (LRUHandle.fresh key (Hash key) value charge deleter)
  have hkey : xa.key = key ∧ xa.hash = Hash key := by
    simp only [LRUHandle.view, LRUHandle.entry, LRUHandle.fresh, Prod.mk.injEq, Entry.mk.injEq] at hvxa
    exact ⟨hvxa.1.1, hvxa.2⟩
  have hal : m.nextAddr ∉ s.lru := fun h' => h.lru_live _ h' (h.nextAddr_fresh hm)
  have hins := htab1.insert_full (hco1.bounded (hm.malloc _)) hxa hal hfull
    (by rw [hkey.1, hkey.2, hfind, hnew])
  simp [LRUCache.insert, h1, hins]

theorem insert {handles : List Nat} (h : ShardRep Hash c m s) (hm : m.Bounded) (hinv : s.Inv handles)
    (hlen : s.lru.length < 2 ^ 31) (key : Bytes) (value : Nat) (charge : UInt64) (deleter : Nat)
    {s' : LruMap} {calls : List DeleterCall} (he : s.insert m.nextAddr key value charge deleter = some (s', calls)) :
    ∃ c' m', c.insert m key (Hash key) value charge deleter = some (c', m', .cell m.nextAddr) ∧
      ShardRep Hash c' m' s' ∧ m'.Bounded ∧ m.Frame (fun b => s.entries b ≠ none) 1 m' calls := by
  set a := m.nextAddr
  set x := LRUHandle.fresh key (Hash key) value charge deleter
  have hfresh := h.nextAddr_fresh hm
  have hal : a ∉ s.lru := fun h' => h.lru_live a h' hfresh
  obtain ⟨c1, m1, xa, h1, hring1, hs1, hco1, hxa, hvxa, htab1, hfind⟩ := h.appendFresh hm x
  have hm1 := hco1.bounded (hm.malloc x)
  have hkey : xa.key = key ∧ xa.hash = Hash key := by
    simp only [LRUHandle.view, LRUHandle.entry, x, LRUHandle.fresh, Prod.mk.injEq, Entry.mk.injEq] at hvxa
    exact ⟨hvxa.1.1, hvxa.2⟩
  obtain ⟨t', m2, hins, htab2, hco2⟩ := htab1.insert hm1 hxa hal hlen
  rw [hkey.1, hkey.2, hfind] at hins htab2
  have hm2 := hco2.bounded hm1
  set c2 : LRUCache := { { c1 with usage := c1.usage + charge } with table := t' }
  have hview2 : ∀ b, (m2.heap b).map LRUHandle.view = (if b = a then some x else m.heap b).map LRUHandle.view :=
    fun b => by rw [hco2.view_nextHash, hco1.view_links]; simp
  have hring2 : Ring c2 m2 (s.lru ++ [a]) := hring1.congr rfl rfl fun b _ => hco2.links_nextHash b
  have hlinked : ∀ {rest : List Nat}, rest ⊆ s.lru → ∀ b ∈ a :: s.lru,
      (s.link rest a x.entry).entries b ≠ none := fun _ b hb => by
    rcases eq_or_ne b a with rfl | hba
    · simp
    · rw [LruMap.link_entries, Function.update_noteq hba]
      exact h.lru_live b ((List.mem_cons.1 hb).resolve_left hba)
  have hown : ∀ {rest : List Nat}, ∀ b < a, (s.link rest a x.entry).entries b ≠ none → s.entries b ≠ none :=
    fun b hb => by rw [LruMap.link_entries, Function.update_noteq (Nat.ne_of_lt hb)]; exact id
  have hfuel : ∀ {s₁ : LruMap} {c' : LRUCache} {m' : Mem}, ShardRep Hash c' m' s₁ → m'.Bounded →
      s₁.lru.length < m'.nextAddr + 1 := fun hr hb =>
    Nat.lt_succ_of_le (hb.length_le hr.ring.nodup fun _ => hr.heap_ne_none)
  obtain ⟨hnew, hold⟩ := hinv.link hfresh key value charge deleter
  rcases hf : s.find key with _ | b
  · have hinvl := hnew hf
    simp only [hf, Option.elim, Ptr.ofOption_none] at hins htab2 hinvl
    have hrep : ShardRep Hash c2 m2 (s.link s.lru a x.entry) :=
      h.link rfl hs1.capacity (by simp [c2, hs1.usage]; rfl) (List.Subset.refl _) hring2 htab2 hview2
    simp only [LruMap.insert, hf, Option.elim, bind, Option.some_bind, LruMap.evict] at he
    obtain ⟨⟨s₂, calls₂⟩, he₂, hr⟩ := Option.bind_eq_some.1 he
    simp only [Option.some_inj, Prod.mk.injEq, List.nil_append] at hr
    obtain ⟨rfl, rfl⟩ := hr
    obtain ⟨c', m', hev, hrep', hm', hfr⟩ := hrep.evictFrom _ rfl (hfuel hrep hm2) hm2 hinvl he₂
    refine ⟨c', m', ?_, hrep', hm', ?_⟩
    · have hins' : c1.table.insert m1 m.nextAddr = some (t', m2, .null) := hins
      simp only [LRUCache.insert, Mem.malloc_snd, h1, hins', bind, Option.some_bind, ne_eq, not_true_eq_false,
        if_false]
      exact (congrArg (Option.bind · _) hev).trans rfl
    · simpa using (Mem.Frame.malloc _ m x).trans (((hco1.frame_of (hlinked (List.Subset.refl _))).trans
        (hco2.frame_of (hlinked (List.Subset.refl _))) fun _ _ => id).trans hfr fun _ _ => id) fun b hb => hown b hb
  · have hb := (LruMap.find_some hf).1
    have hbut := hold b hf
    simp only [hf, Option.elim, Ptr.ofOption_some] at hins htab2 hbut
    obtain ⟨pre, suf, hsplit⟩ := List.append_of_mem hb
    have hapre : b ∉ pre := fun h' => (List.nodup_append.1 (hsplit ▸ h.ring.nodup)).2.2 h' (List.mem_cons_self b suf)
    have herase : s.lru.erase b = pre ++ suf := by
      rw [hsplit, List.erase_append_right _ hapre, List.erase_cons_head]
    have hring2' : Ring c2 m2 (pre ++ b :: (suf ++ [a])) := by simpa [hsplit] using hring2
    obtain ⟨c3, m3, h3, hring3, hs3, hco3⟩ := hring2'.lruRemove
    have hrep3 : ShardRep Hash c3 m3 (s.link (s.lru.erase b) a x.entry) :=
      h.link rfl (hs3.capacity.trans hs1.capacity) (by rw [hs3.usage]; simp [c2, hs1.usage]; rfl)
        (List.erase_subset b s.lru) (by rw [herase]; simpa using hring3)
        (hs3.table ▸ htab2.congr fun x _ => hco3.tableView_links x) fun x => by rw [hco3.view_links, hview2]
    simp only [LruMap.insert, hf, Option.elim, bind, Option.some_bind, LruMap.evict] at he
    obtain ⟨s₁, calls₁, hu₁, hinv₁, hstep₁, hlru₁⟩ := hbut.unref
    rw [hu₁, Option.some_bind] at he
    obtain ⟨⟨s₂, calls₂⟩, he₂, hr⟩ := Option.bind_eq_some.1 he
    simp only [Option.some_inj, Prod.mk.injEq] at hr
    obtain ⟨rfl, rfl⟩ := hr
    obtain ⟨c4, m4, h4, hrep4, hm4, hfr4⟩ := hrep3.unref (hco3.bounded hm2) hu₁ hinv₁.lru_live
    obtain ⟨c', m', hev, hrep', hm', hfr⟩ := hrep4.evictFrom _ rfl (hfuel hrep4 hm4) hm4 hinv₁ he₂
    refine ⟨c', m', ?_, hrep', hm', ?_⟩
    · have hins' : c1.table.insert m1 m.nextAddr = some (t', m2, .cell b) := hins
      simp only [LRUCache.insert, Mem.malloc_snd, h1, hins', bind, Option.some_bind, ne_eq, reduceCtorEq,
        not_false_eq_true, if_true, Option.bind_eq_some]
      exact ⟨(c3, m3), h3, (c4, m4), h4, (c', m'), hev, rfl⟩
    · have hS : ∀ y ∈ pre ++ (suf ++ [a]), y ∈ a :: s.lru := fun y hy => by
        rw [hsplit]
        simp only [List.mem_append, List.mem_cons, List.not_mem_nil, or_false] at hy ⊢
        rcases hy with hy | hy | hy
        · exact Or.inr (Or.inl hy)
        · exact Or.inr (Or.inr (Or.inr hy))
        · exact Or.inl hy
      have hF := ((hco1.frame_of (hlinked (List.erase_subset b s.lru))).trans
        (hco2.frame_of (hlinked (List.erase_subset b s.lru))) fun _ _ => id).trans
        (hco3.frame_of fun y hy => hlinked (List.erase_subset b s.lru) y (hS y hy)) fun _ _ => id
      simpa using (Mem.Frame.malloc _ m x).trans ((hF.trans hfr4 fun _ _ => id).trans hfr
        fun y _ hy hnone => hy (hstep₁.unborn y hnone)) fun y hy => hown y hy

end ShardRep

end LevelDbProofs.Cache
