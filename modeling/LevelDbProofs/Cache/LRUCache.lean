import LevelDbProofs.Cache.HandleTable

/-!
`LRUCache`, one shard of `util/cache.cc`. A failed `assert`, a dereference of `NULL` and a loop that
never ends are `none`.
-/

namespace LevelDbProofs.Cache

open LevelDbProofs.Util

structure LRUCache where
  capacity : UInt64
  usage : UInt64
  lruNext : Ptr
  lruPrev : Ptr
  table : HandleTable
  deriving DecidableEq, Repr

def LRUCache.new : LRUCache := ⟨0, 0, .head, .head, HandleTable.new⟩

def LRUCache.setCapacity (c : LRUCache) (capacity : UInt64) : LRUCache := { c with capacity := capacity }

def Mem.deref (m : Mem) : Ptr → Option LRUHandle
  | .cell a => m.heap a
  | _ => none

def LRUCache.next (c : LRUCache) (m : Mem) : Ptr → Option Ptr
  | .head => some c.lruNext
  | .cell a => (m.heap a).map LRUHandle.next
  | .null => none

def LRUCache.prev (c : LRUCache) (m : Mem) : Ptr → Option Ptr
  | .head => some c.lruPrev
  | .cell a => (m.heap a).map LRUHandle.prev
  | .null => none

def LRUCache.setNext (c : LRUCache) (m : Mem) : Ptr → Ptr → Option (LRUCache × Mem)
  | .head, q => some ({ c with lruNext := q }, m)
  | .cell a, q => (m.modify a fun h => { h with next := q }).map fun m => (c, m)
  | .null, _ => none

def LRUCache.setPrev (c : LRUCache) (m : Mem) : Ptr → Ptr → Option (LRUCache × Mem)
  | .head, q => some ({ c with lruPrev := q }, m)
  | .cell a, q => (m.modify a fun h => { h with prev := q }).map fun m => (c, m)
  | .null, _ => none

def LRUCache.lruRemove (c : LRUCache) (m : Mem) (e : Ptr) : Option (LRUCache × Mem) := do
  let n ← c.next m e
  let p ← c.prev m e
  let r ← c.setPrev m n p
  let n ← r.1.next r.2 e
  let p ← r.1.prev r.2 e
  r.1.setNext r.2 p n

def LRUCache.lruAppend (c : LRUCache) (m : Mem) (e : Ptr) : Option (LRUCache × Mem) := do
  let r ← c.setNext m e .head
  let p ← r.1.prev r.2 .head
  let r ← r.1.setPrev r.2 e p
  let p ← r.1.prev r.2 e
  let r ← r.1.setNext r.2 p e
  let n ← r.1.next r.2 e
  r.1.setPrev r.2 n e

def LRUCache.unref (c : LRUCache) (m : Mem) : Ptr → Option (LRUCache × Mem)
  | .cell a => do
    let h ← m.heap a
    if h.refs > 0 then
      let m ← m.modify a fun h => { h with refs := h.refs - 1 }
      let h ← m.heap a
      if h.refs ≤ 0 then
        some ({ c with usage := c.usage - h.charge },
          ({ m with log := m.log ++ [⟨a, h.deleter, h.key, h.value⟩] } : Mem).free a)
      else some (c, m)
    else none
  | _ => none

def LRUCache.lookup (c : LRUCache) (m : Mem) (key : Bytes) (hash : UInt32) :
    Option (LRUCache × Mem × Ptr) := do
  match ← c.table.lookup m key hash with
  | .null => some (c, m, .null)
  | .cell a =>
    let m ← m.modify a fun h => { h with refs := h.refs + 1 }
    let r ← c.lruRemove m (.cell a)
    let r ← r.1.lruAppend r.2 (.cell a)
    some (r.1, r.2, .cell a)
  | .head => none

def LRUCache.release (c : LRUCache) (m : Mem) (handle : Ptr) : Option (LRUCache × Mem) :=
  c.unref m handle

def LRUCache.evict (c : LRUCache) (m : Mem) : Nat → Option (LRUCache × Mem)
  | 0 => none
  | fuel + 1 =>
    if c.usage > c.capacity ∧ c.lruNext ≠ .head then do
      let old := c.lruNext
      let r ← c.lruRemove m old
      let h ← r.2.deref old
      let t ← r.1.table.remove r.2 h.key h.hash
      let r ← ({ r.1 with table := t.1 } : LRUCache).unref t.2.1 old
      r.1.evict r.2 fuel
    else some (c, m)

def LRUHandle.fresh (key : Bytes) (hash : UInt32) (value : Nat) (charge : UInt64) (deleter : Nat) :
    LRUHandle :=
  ⟨value, deleter, .null, .null, .null, charge, 2, hash, key⟩

def LRUCache.insert (c : LRUCache) (m : Mem) (key : Bytes) (hash : UInt32) (value : Nat)
    (charge : UInt64) (deleter : Nat) : Option (LRUCache × Mem × Ptr) := do
  let e := m.malloc (LRUHandle.fresh key hash value charge deleter)
  let r ← c.lruAppend e.1 (.cell e.2)
  let c := { r.1 with usage := r.1.usage + charge }
  let t ← c.table.insert r.2 e.2
  let c := { c with table := t.1 }
  let r ← if t.2.2 ≠ .null then do
      let r ← c.lruRemove t.2.1 t.2.2
      r.1.unref r.2 t.2.2
    else some (c, t.2.1)
  let r ← r.1.evict r.2 (r.2.nextAddr + 1)
  some (r.1, r.2, .cell e.2)

def LRUCache.erase (c : LRUCache) (m : Mem) (key : Bytes) (hash : UInt32) : Option (LRUCache × Mem) := do
  let t ← c.table.remove m key hash
  let c := { c with table := t.1 }
  if t.2.2 ≠ .null then do
    let r ← c.lruRemove t.2.1 t.2.2
    r.1.unref r.2 t.2.2
  else some (c, t.2.1)

def Path (f : Ptr → Option Ptr) : Ptr → List Nat → Ptr → Prop
  | x, [], y => f x = some y
  | x, a :: l, y => f x = some (.cell a) ∧ Path f (.cell a) l y

def sources (x : Ptr) (l : List Nat) : List Ptr := x :: l.map .cell

def lastNode (x : Ptr) (l : List Nat) : Ptr := (l.getLast?.map .cell).getD x

def firstNode (l : List Nat) (y : Ptr) : Ptr := (l.head?.map .cell).getD y

section Path

variable {f f' : Ptr → Option Ptr} {x y : Ptr} {l pre suf : List Nat}

@[simp] theorem path_nil : Path f x [] y ↔ f x = some y := Iff.rfl

@[simp] theorem path_cons (a : Nat) :
    Path f x (a :: l) y ↔ f x = some (.cell a) ∧ Path f (.cell a) l y := Iff.rfl

@[simp] theorem lastNode_nil : lastNode x [] = x := rfl

@[simp] theorem lastNode_cons (a : Nat) : lastNode x (a :: l) = lastNode (.cell a) l := by
  cases l with
  | nil => rfl
  | cons b l =>
    simp only [lastNode, List.getLast?_cons_cons, List.getLast?_eq_getLast (b :: l) (List.cons_ne_nil b l),
      Option.map_some', Option.getD_some]

@[simp] theorem firstNode_nil : firstNode [] y = y := rfl

@[simp] theorem firstNode_cons (a : Nat) : firstNode (a :: l) y = .cell a := rfl

theorem lastNode_reverse : lastNode x l.reverse = firstNode l x := by
  rw [lastNode, firstNode, List.getLast?_reverse]

theorem firstNode_reverse : firstNode l.reverse y = lastNode y l := by
  rw [lastNode, firstNode, List.head?_reverse]

@[simp] theorem sources_cons (a : Nat) : sources x (a :: l) = x :: sources (.cell a) l := rfl

theorem lastNode_mem_sources : lastNode x l ∈ sources x l := by
  induction l generalizing x with
  | nil => exact .head _
  | cons a l ih => exact .tail _ (lastNode_cons (x := x) a ▸ ih)

theorem sources_subset_append : ∀ u ∈ sources x pre, u ∈ sources x (pre ++ suf) := by
  simp only [sources, List.mem_cons, List.mem_map, List.mem_append]
  rintro u (rfl | ⟨a, ha, rfl⟩)
  · exact .inl rfl
  · exact .inr ⟨a, .inl ha, rfl⟩

theorem path_append_cons {a : Nat} :
    Path f x (pre ++ a :: suf) y ↔ Path f x pre (.cell a) ∧ Path f (.cell a) suf y := by
  induction pre generalizing x with
  | nil => simp
  | cons b pre ih => simp [ih, and_assoc]

theorem Path.congr (h : Path f x l y) (hf : ∀ u ∈ sources x l, f' u = f u) : Path f' x l y := by
  induction l generalizing x with
  | nil => exact (hf x (.head _)).trans h
  | cons a l ih => exact ⟨(hf x (.head _)).trans h.1, ih h.2 fun u hu => hf u (.tail _ hu)⟩

theorem Path.bypass {a : Nat} (h : Path f x (pre ++ a :: suf) y) (hnd : (sources x (pre ++ suf)).Nodup)
    (hlast : f' (lastNode x pre) = some (firstNode suf y))
    (hf : ∀ u ∈ sources x (pre ++ suf), u ≠ lastNode x pre → f' u = f u) :
    Path f' x (pre ++ suf) y := by
  induction pre generalizing x with
  | nil =>
    rcases suf with _ | ⟨b, suf⟩
    · exact hlast
    · rw [List.nil_append, sources_cons, List.nodup_cons] at hnd
      exact ⟨hlast, h.2.2.congr fun u hu => hf u (.tail _ hu) fun e => hnd.1 (by
        rw [← show u = x from e]; exact hu)⟩
  | cons b pre ih =>
    rw [List.cons_append, sources_cons, List.nodup_cons] at hnd
    have hne : x ≠ lastNode (.cell b) pre := fun e =>
      hnd.1 (e ▸ sources_subset_append _ lastNode_mem_sources)
    exact ⟨(hf x (.head _) (by simpa using hne)).trans h.1,
      ih h.2 hnd.2 (by simpa using hlast) fun u hu hu' => hf u (.tail _ hu) (by simpa using hu')⟩

theorem Path.insert {a : Nat} (h : Path f x (pre ++ suf) y) (hnd : (sources x (pre ++ suf)).Nodup)
    (hlast : f' (lastNode x pre) = some (.cell a)) (ha : f' (.cell a) = some (firstNode suf y))
    (hf : ∀ u ∈ sources x (pre ++ suf), u ≠ lastNode x pre → f' u = f u) :
    Path f' x (pre ++ a :: suf) y := by
  induction pre generalizing x with
  | nil =>
    refine ⟨hlast, ?_⟩
    rcases suf with _ | ⟨b, suf⟩
    · exact ha
    · rw [List.nil_append, sources_cons, List.nodup_cons] at hnd
      exact ⟨ha, h.2.congr fun u hu => hf u (.tail _ hu) fun e => hnd.1 (by
        rw [← show u = x from e]; exact hu)⟩
  | cons b pre ih =>
    rw [List.cons_append, sources_cons, List.nodup_cons] at hnd
    have hne : x ≠ lastNode (.cell b) pre := fun e =>
      hnd.1 (e ▸ sources_subset_append _ lastNode_mem_sources)
    exact ⟨(hf x (.head _) (by simpa using hne)).trans h.1,
      ih h.2 hnd.2 (by simpa using hlast) fun u hu hu' => hf u (.tail _ hu) (by simpa using hu')⟩

end Path

def Ptr.cells : Ptr → List Nat
  | .cell a => [a]
  | _ => []

structure LRUCache.SameExceptHead (c c' : LRUCache) : Prop where
  capacity : c'.capacity = c.capacity
  usage : c'.usage = c.usage
  table : c'.table = c.table

theorem LRUCache.SameExceptHead.trans {c c' c'' : LRUCache} (h : c.SameExceptHead c')
    (h' : c'.SameExceptHead c'') : c.SameExceptHead c'' :=
  ⟨h'.capacity.trans h.capacity, h'.usage.trans h.usage, h'.table.trans h.table⟩

section Setters

variable {c : LRUCache} {m : Mem} {p : Ptr}

theorem LRUCache.next_ne_none_of_heap {a : Nat} (ha : m.heap a ≠ none) : c.next m (.cell a) ≠ none := by
  simpa [LRUCache.next] using ha

theorem LRUCache.setNext_spec (hp : c.next m p ≠ none) (q : Ptr) :
    ∃ c' m', c.setNext m p q = some (c', m') ∧
      (∀ u, c'.next m' u = if u = p then some q else c.next m u) ∧ (∀ u, c'.prev m' u = c.prev m u) ∧
      c.SameExceptHead c' ∧ m.ChangedOnly LRUHandle.withoutLinks p.cells m' := by
  rcases p with _ | _ | a
  · exact absurd rfl hp
  · refine ⟨{ c with lruNext := q }, m, rfl, fun u => ?_, fun u => ?_, ⟨rfl, rfl, rfl⟩, .refl _ _ _⟩ <;>
      rcases u <;> simp [LRUCache.next, LRUCache.prev]
  · obtain ⟨h, hh⟩ := Option.ne_none_iff_exists'.1 (by simpa [LRUCache.next] using hp)
    have hmod := Mem.modify_eq_some (f := fun h => { h with next := q }) hh
    refine ⟨c, _, by simp [LRUCache.setNext, hmod], fun u => ?_, fun u => ?_, ⟨rfl, rfl, rfl⟩,
      .of_modify hmod fun _ => rfl⟩ <;> rcases u with _ | _ | b <;>
      simp only [LRUCache.next, LRUCache.prev, Function.update_apply, reduceCtorEq, if_false,
        Ptr.cell.injEq] <;> split_ifs with hb <;> simp [hb, hh]

theorem LRUCache.setPrev_spec (hp : c.next m p ≠ none) (q : Ptr) :
    ∃ c' m', c.setPrev m p q = some (c', m') ∧
      (∀ u, c'.prev m' u = if u = p then some q else c.prev m u) ∧ (∀ u, c'.next m' u = c.next m u) ∧
      c.SameExceptHead c' ∧ m.ChangedOnly LRUHandle.withoutLinks p.cells m' := by
  rcases p with _ | _ | a
  · exact absurd rfl hp
  · refine ⟨{ c with lruPrev := q }, m, rfl, fun u => ?_, fun u => ?_, ⟨rfl, rfl, rfl⟩, .refl _ _ _⟩ <;>
      rcases u <;> simp [LRUCache.next, LRUCache.prev]
  · obtain ⟨h, hh⟩ := Option.ne_none_iff_exists'.1 (by simpa [LRUCache.next] using hp)
    have hmod := Mem.modify_eq_some (f := fun h => { h with prev := q }) hh
    refine ⟨c, _, by simp [LRUCache.setPrev, hmod], fun u => ?_, fun u => ?_, ⟨rfl, rfl, rfl⟩,
      .of_modify hmod fun _ => rfl⟩ <;> rcases u with _ | _ | b <;>
      simp only [LRUCache.next, LRUCache.prev, Function.update_apply, reduceCtorEq, if_false,
        Ptr.cell.injEq] <;> split_ifs with hb <;> simp [hb, hh]

end Setters

structure Ring (c : LRUCache) (m : Mem) (l : List Nat) : Prop where
  next : Path (c.next m) .head l .head
  prev : Path (c.prev m) .head l.reverse .head
  nodup : l.Nodup

section Ring

variable {f : Ptr → Option Ptr} {x y : Ptr} {c : LRUCache} {m : Mem} {l pre suf : List Nat} {a : Nat}

theorem Path.first (h : Path f x l y) : f x = some (firstNode l y) := by
  cases l with
  | nil => exact h
  | cons a l => exact h.1

theorem Path.last (h : Path f x l y) : f (lastNode x l) = some y := by
  induction l generalizing x with
  | nil => exact h
  | cons a l ih => simpa using ih h.2

theorem sources_head_nodup (hnd : l.Nodup) : (sources .head l).Nodup :=
  List.nodup_cons.2 ⟨by simp [sources], hnd.map fun _ _ h => Ptr.cell.inj h⟩

theorem mem_sources_head {u : Ptr} (hu : u ∈ sources .head l) : u = .head ∨ ∃ b ∈ l, u = .cell b := by
  simp only [sources, List.mem_cons, List.mem_map] at hu
  exact hu.imp id fun ⟨b, hb, e⟩ => ⟨b, hb, e.symm⟩

theorem cells_firstNode_head : ∀ b ∈ (firstNode l .head).cells, b ∈ l := by
  cases l <;> simp [firstNode, Ptr.cells]

theorem cells_lastNode_head : ∀ b ∈ (lastNode .head l).cells, b ∈ l := by
  rw [← firstNode_reverse]
  intro b hb
  exact List.mem_reverse.1 (cells_firstNode_head b hb)

theorem Ring.lruNext (h : Ring c m l) : c.lruNext = firstNode l .head :=
  Option.some_inj.1 h.next.first

theorem Ring.lruPrev (h : Ring c m l) : c.lruPrev = lastNode .head l := by
  have := h.prev.first
  rwa [firstNode_reverse, LRUCache.prev, Option.some_inj] at this

theorem Ring.next_ne_none (h : Ring c m l) {u : Ptr} (hu : u ∈ sources .head l) : c.next m u ≠ none := by
  rcases mem_sources_head hu with rfl | ⟨b, hb, rfl⟩
  · simp [LRUCache.next]
  · obtain ⟨pre, suf, rfl⟩ := List.append_of_mem hb
    rw [(path_append_cons.1 h.next).2.first]
    simp

theorem Ring.lruRemove (h : Ring c m (pre ++ a :: suf)) :
    ∃ c' m', c.lruRemove m (.cell a) = some (c', m') ∧ Ring c' m' (pre ++ suf) ∧ c.SameExceptHead c' ∧
      m.ChangedOnly LRUHandle.withoutLinks (pre ++ suf) m' := by
  have hnd := h.nodup
  have hasuf : a ∉ suf := (List.nodup_cons.1 (List.nodup_append.1 hnd).2.1).1
  have hapre : a ∉ pre := fun h' => (List.nodup_append.1 hnd).2.2 h' (.head _)
  obtain ⟨hnpre, hnsuf⟩ := path_append_cons.1 h.next
  have hrev : (pre ++ a :: suf).reverse = suf.reverse ++ a :: pre.reverse := by simp
  obtain ⟨-, hppre⟩ := path_append_cons.1 (hrev ▸ h.prev)
  set n := firstNode suf .head
  set p := lastNode .head pre
  have hn : c.next m (.cell a) = some n := hnsuf.first
  have hp : c.prev m (.cell a) = some p := by rw [hppre.first, firstNode_reverse]
  have hsub : (pre ++ suf).Sublist (pre ++ a :: suf) := (List.sublist_cons_self a suf).append_left pre
  have hsrc : ∀ u ∈ sources .head (pre ++ suf), u ∈ sources .head (pre ++ a :: suf) :=
    fun u hu => ((hsub.map Ptr.cell).cons₂ .head).subset hu
  have hnsrc : n ∈ sources .head (pre ++ suf) := by
    rcases suf with _ | ⟨b, suf⟩ <;> simp [n, sources]
  have hpsrc : p ∈ sources .head (pre ++ suf) := sources_subset_append _ lastNode_mem_sources
  have hna : n ≠ .cell a := by
    rcases suf with _ | ⟨b, suf⟩ <;> simp [n]
    exact fun e => hasuf (e ▸ .head _)
  obtain ⟨c1, m1, h1, hprev1, hnext1, hs1, hco1⟩ := LRUCache.setPrev_spec (h.next_ne_none (hsrc n hnsrc)) p
  have hp1 : c1.prev m1 (.cell a) = some p := by rw [hprev1, if_neg (Ne.symm hna), hp]
  obtain ⟨c2, m2, h2, hnext2, hprev2, hs2, hco2⟩ := LRUCache.setNext_spec
    (by rw [hnext1]; exact h.next_ne_none (hsrc p hpsrc)) n
  refine ⟨c2, m2, by simp [LRUCache.lruRemove, hn, hp, h1, hnext1, hp1, h2], ⟨?_, ?_, ?_⟩, hs1.trans hs2,
    (hco1.mono ?_).trans (hco2.mono ?_)⟩
  · refine h.next.bypass (sources_head_nodup (hnd.sublist hsub)) (by rw [hnext2, if_pos rfl])
      fun u _ hu => by rw [hnext2, if_neg hu, hnext1]
  · rw [List.reverse_append]
    refine (hrev ▸ h.prev).bypass ?_ ?_ fun u _ hu => ?_
    · simpa using sources_head_nodup (List.nodup_reverse.2 (hnd.sublist hsub))
    · rw [lastNode_reverse, hprev2, hprev1, if_pos rfl, firstNode_reverse]
    · rw [lastNode_reverse] at hu
      rw [hprev2, hprev1, if_neg hu]
  · exact hnd.sublist hsub
  · intro b hb
    exact List.mem_append_right _ (cells_firstNode_head b hb)
  · intro b hb
    exact List.mem_append_left _ (cells_lastNode_head b hb)

theorem Ring.lruAppend (h : Ring c m l) (ha : m.heap a ≠ none) (hal : a ∉ l) :
    ∃ c' m', c.lruAppend m (.cell a) = some (c', m') ∧ Ring c' m' (l ++ [a]) ∧ c.SameExceptHead c' ∧
      m.ChangedOnly LRUHandle.withoutLinks (a :: l) m' := by
  set p := lastNode .head l
  have hp : c.prev m .head = some p := by rw [h.prev.first, firstNode_reverse]
  have hpsrc : p ∈ sources .head l := lastNode_mem_sources
  have hnota : ∀ u ∈ sources .head l, u ≠ .cell a := fun u hu e => by
    rcases mem_sources_head hu with rfl | ⟨b, hb, rfl⟩
    · cases e
    · exact hal (Ptr.cell.inj e ▸ hb)
  have hpa := hnota p hpsrc
  obtain ⟨c1, m1, h1, hnext1, hprev1, hs1, hco1⟩ :=
    LRUCache.setNext_spec (LRUCache.next_ne_none_of_heap ha) .head
  have hp1 : c1.prev m1 .head = some p := by rw [hprev1, hp]
  obtain ⟨c2, m2, h2, hprev2, hnext2, hs2, hco2⟩ :=
    LRUCache.setPrev_spec (p := .cell a) (by rw [hnext1, if_pos rfl]; simp) p
  have hp2 : c2.prev m2 (.cell a) = some p := by rw [hprev2, if_pos rfl]
  obtain ⟨c3, m3, h3, hnext3, hprev3, hs3, hco3⟩ := LRUCache.setNext_spec (p := p)
    (by rw [hnext2, hnext1, if_neg hpa]; exact h.next_ne_none hpsrc) (.cell a)
  have hn3 : c3.next m3 (.cell a) = some .head := by
    rw [hnext3, if_neg (Ne.symm hpa), hnext2, hnext1, if_pos rfl]
  obtain ⟨c4, m4, h4, hprev4, hnext4, hs4, hco4⟩ := LRUCache.setPrev_spec (c := c3) (m := m3) (p := .head)
    (by simp [LRUCache.next]) (.cell a)
  have hnd : (l ++ [a]).Nodup :=
    List.nodup_append.2 ⟨h.nodup, List.nodup_singleton a, fun x hx hx' => hal (List.mem_singleton.1 hx' ▸ hx)⟩
  refine ⟨c4, m4, by simp [LRUCache.lruAppend, h1, hp1, h2, hp2, h3, hn3, h4], ⟨?_, ?_, hnd⟩,
    hs1.trans (hs2.trans (hs3.trans hs4)), (hco1.mono ?_).trans ((hco2.mono ?_).trans
      ((hco3.mono ?_).trans (hco4.mono ?_)))⟩
  · refine Path.insert (show Path (c.next m) .head (l ++ []) .head by simpa using h.next)
      (by simpa using sources_head_nodup h.nodup)
      (by rw [hnext4, hnext3, if_pos rfl]) (by rw [hnext4, hn3]; rfl) fun u hu hup => ?_
    rw [List.append_nil] at hu
    rw [hnext4, hnext3, if_neg hup, hnext2, hnext1, if_neg (hnota u hu)]
  · rw [List.reverse_append, List.reverse_singleton, List.singleton_append]
    refine Path.insert (show Path (c.prev m) .head ([] ++ l.reverse) .head by simpa using h.prev)
      (by simpa using sources_head_nodup (List.nodup_reverse.2 h.nodup))
      (by rw [lastNode_nil, hprev4, if_pos rfl])
      (by rw [hprev4, if_neg (by simp), hprev3, hp2, firstNode_reverse]) fun u hu hu' => ?_
    have hu'' : u ∈ sources .head l := by
      simp only [sources, List.nil_append, List.mem_cons, List.map_reverse, List.mem_reverse] at hu ⊢
      exact hu
    rw [lastNode_nil] at hu'
    rw [hprev4, if_neg hu', hprev3, hprev2, if_neg (hnota u hu''), hprev1]
  · simp [Ptr.cells]
  · simp [Ptr.cells]
  · intro b hb
    exact .tail _ (cells_lastNode_head b hb)
  · simp [Ptr.cells]

def LRUHandle.links (h : LRUHandle) : Ptr × Ptr := (h.next, h.prev)

theorem Ring.congr {c' : LRUCache} {m' : Mem} (h : Ring c m l) (hn : c'.lruNext = c.lruNext)
    (hp : c'.lruPrev = c.lruPrev)
    (hm : ∀ a ∈ l, (m'.heap a).map LRUHandle.links = (m.heap a).map LRUHandle.links) : Ring c' m' l := by
  have key : ∀ u ∈ sources .head l, c'.next m' u = c.next m u ∧ c'.prev m' u = c.prev m u := by
    intro u hu
    rcases mem_sources_head hu with rfl | ⟨b, hb, rfl⟩
    · exact ⟨by simp [LRUCache.next, hn], by simp [LRUCache.prev, hp]⟩
    · have e := hm b hb
      have e1 := congrArg (Option.map Prod.fst) e
      have e2 := congrArg (Option.map Prod.snd) e
      simp only [Option.map_map, Function.comp_def, LRUHandle.links] at e1 e2
      exact ⟨e1, e2⟩
  refine ⟨h.next.congr fun u hu => (key u hu).1, h.prev.congr fun u hu => (key u ?_).2, h.nodup⟩
  simpa [sources] using hu

end Ring

def LRUCache.walkFrom (c : LRUCache) (m : Mem) : Nat → Ptr → Option (List Nat)
  | 0, _ => none
  | _ + 1, .head => some []
  | fuel + 1, .cell a => do
    let n ← c.next m (.cell a)
    let l ← c.walkFrom m fuel n
    some (a :: l)
  | _ + 1, .null => none

def LRUCache.walk (c : LRUCache) (m : Mem) : Option (List Nat) := c.walkFrom m (m.nextAddr + 1) c.lruNext

theorem Path.walkFrom {c : LRUCache} {m : Mem} : ∀ {x y : Ptr} {l : List Nat} {fuel : Nat},
    Path (c.next m) x l .head → c.next m x = some y → l.length < fuel → c.walkFrom m fuel y = some l
  | _, _, [], fuel + 1, h, hy, _ => by
    rw [path_nil, hy, Option.some_inj] at h
    subst h
    rfl
  | _, _, a :: l, fuel + 1, h, hy, hl => by
    rw [path_cons, hy, Option.some_inj] at h
    obtain ⟨rfl, h'⟩ := h
    have hn := h'.first
    simp only [LRUCache.walkFrom, hn, Path.walkFrom h' hn (Nat.lt_of_succ_lt_succ hl), bind, Option.some_bind]

theorem Ring.walk {c : LRUCache} {m : Mem} {l : List Nat} (h : Ring c m l) (hm : m.Bounded) :
    c.walk m = some l :=
  h.next.walkFrom rfl (Nat.lt_succ_of_le (hm.length_le h.nodup fun a ha => by
    obtain ⟨pre, suf, rfl⟩ := List.append_of_mem ha
    have := (path_append_cons.1 h.next).2.first
    simp only [LRUCache.next, Option.map_eq_some'] at this
    obtain ⟨hc, hc', -⟩ := this
    simp [hc']))

theorem LRUCache.unref_cell (c : LRUCache) (m : Mem) {a : Nat} {h : LRUHandle} (ha : m.heap a = some h) :
    c.unref m (.cell a) =
      if h.refs = 0 then none
      else if h.refs - 1 = 0 then
        some ({ c with usage := c.usage - h.charge },
          ({ m with log := m.log ++ [⟨a, h.deleter, h.key, h.value⟩] } : Mem).free a)
      else some (c, { m with heap := Function.update m.heap a (some { h with refs := h.refs - 1 }) }) := by
  have hpos : (h.refs > 0) ↔ h.refs ≠ 0 := by
    rw [gt_iff_lt, uint32_lt_iff, ne_eq, uint32_eq_iff]
    exact Nat.pos_iff_ne_zero
  have hle : ∀ r : UInt32, r ≤ 0 ↔ r = 0 := fun r => by
    rw [uint32_le_iff, uint32_eq_iff]
    exact Nat.le_zero
  simp only [LRUCache.unref, ha, Mem.modify_eq_some ha, bind, Option.some_bind, Function.update_same,
    hle]
  by_cases h0 : h.refs = 0
  · simp [h0]
  · simp only [if_neg h0, if_pos ((hpos).2 h0)]
    split_ifs <;> simp [Mem.free, Function.update_idem]

end LevelDbProofs.Cache
