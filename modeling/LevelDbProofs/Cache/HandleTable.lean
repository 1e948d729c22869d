import Mathlib.Data.List.Nodup
import Mathlib.Data.List.Pairwise
import LevelDbProofs.Cache.Handle

/-!
`HandleTable` of `util/cache.cc`: bucket chains through `next_hash`, `FindPointer` and `Resize`.
A loop that never ends is `none`.
-/

namespace LevelDbProofs.Cache

open LevelDbProofs.Util

structure HandleTable where
  length : UInt32
  elems : UInt32
  list : List Ptr
  deriving DecidableEq, Repr

inductive Slot
  | bucket (i : Nat)
  | nextHash (addr : Nat)
  deriving DecidableEq, Repr

def HandleTable.readSlot (t : HandleTable) (m : Mem) : Slot → Option Ptr
  | .bucket i => t.list[i]?
  | .nextHash a => (m.heap a).map LRUHandle.nextHash

def HandleTable.writeSlot (t : HandleTable) (m : Mem) : Slot → Ptr → Option (HandleTable × Mem)
  | .bucket i, p => if i < t.list.length then some ({ t with list := t.list.set i p }, m) else none
  | .nextHash a, p => (m.modify a fun c => { c with nextHash := p }).map fun m => (t, m)

def HandleTable.findPointerFrom (t : HandleTable) (m : Mem) (key : Bytes) (hash : UInt32) :
    Nat → Slot → Option Slot
  | 0, _ => none
  | fuel + 1, ptr => do
    match ← t.readSlot m ptr with
    | .null => some ptr
    | .cell a =>
      let c ← m.heap a
      if c.hash ≠ hash ∨ key ≠ c.key then t.findPointerFrom m key hash fuel (.nextHash a) else some ptr
    | .head => none

def HandleTable.findPointer (t : HandleTable) (m : Mem) (key : Bytes) (hash : UInt32) : Option Slot :=
  t.findPointerFrom m key hash (m.nextAddr + 1) (.bucket (hash &&& (t.length - 1)).toNat)

def HandleTable.lookup (t : HandleTable) (m : Mem) (key : Bytes) (hash : UInt32) : Option Ptr :=
  (t.findPointer m key hash).bind (t.readSlot m)

def resizeLength (elems : UInt32) : Nat → UInt32 → Option UInt32
  | 0, _ => none
  | fuel + 1, n => if n < elems then resizeLength elems fuel (n * 2) else some n

def rehashChain (newLength : UInt32) : Nat → Ptr → List Ptr → Mem → UInt32 → Option (List Ptr × Mem × UInt32)
  | 0, _, _, _, _ => none
  | _ + 1, .null, newList, m, count => some (newList, m, count)
  | fuel + 1, .cell a, newList, m, count => do
    let c ← m.heap a
    let i := (c.hash &&& (newLength - 1)).toNat
    let p ← newList[i]?
    let m' ← m.modify a fun c => { c with nextHash := p }
    rehashChain newLength fuel c.nextHash (newList.set i (.cell a)) m' (count + 1)
  | _ + 1, .head, _, _, _ => none

def rehashBuckets (newLength : UInt32) (fuel : Nat) : List Ptr → List Ptr → Mem → UInt32 →
    Option (List Ptr × Mem × UInt32)
  | [], newList, m, count => some (newList, m, count)
  | h :: hs, newList, m, count => do
    let r ← rehashChain newLength fuel h newList m count
    rehashBuckets newLength fuel hs r.1 r.2.1 r.2.2

def HandleTable.resize (t : HandleTable) (m : Mem) : Option (HandleTable × Mem) := do
  let newLength ← resizeLength t.elems 33 4
  let r ← rehashBuckets newLength (m.nextAddr + 1) t.list (List.replicate newLength.toNat .null) m 0
  if t.elems = r.2.2 then some (⟨newLength, t.elems, r.1⟩, r.2.1) else none

def HandleTable.new : HandleTable := ⟨4, 0, List.replicate 4 .null⟩

def oldNextHash (m : Mem) : Ptr → Option Ptr
  | .null => some .null
  | .cell b => (m.heap b).map LRUHandle.nextHash
  | .head => none

def HandleTable.insert (t : HandleTable) (m : Mem) (a : Nat) : Option (HandleTable × Mem × Ptr) := do
  let h ← m.heap a
  let ptr ← t.findPointer m h.key h.hash
  let old ← t.readSlot m ptr
  let oldNext ← oldNextHash m old
  let m ← m.modify a fun c => { c with nextHash := oldNext }
  let r ← t.writeSlot m ptr (.cell a)
  if old = .null then
    let t := { r.1 with elems := r.1.elems + 1 }
    if t.elems > t.length then (t.resize r.2).map fun r => (r.1, r.2, old) else some (t, r.2, old)
  else some (r.1, r.2, old)

def HandleTable.remove (t : HandleTable) (m : Mem) (key : Bytes) (hash : UInt32) :
    Option (HandleTable × Mem × Ptr) := do
  let ptr ← t.findPointer m key hash
  match ← t.readSlot m ptr with
  | .null => some (t, m, .null)
  | .cell b =>
    let c ← m.heap b
    let r ← t.writeSlot m ptr c.nextHash
    some ({ r.1 with elems := r.1.elems - 1 }, r.2, .cell b)
  | .head => none

def Seg (m : Mem) : Ptr → List Nat → Ptr → Prop
  | p, [], q => p = q
  | p, a :: l, q => p = .cell a ∧ ∃ r, (m.heap a).map LRUHandle.nextHash = some r ∧ Seg m r l q

def Chain (m : Mem) (p : Ptr) (l : List Nat) : Prop := Seg m p l .null

def slotAfter : Slot → List Nat → Slot
  | s, [] => s
  | _, a :: l => slotAfter (.nextHash a) l

section Seg

variable {m m' : Mem} {p q r : Ptr} {l l₁ l₂ : List Nat}

@[simp] theorem seg_nil : Seg m p [] q ↔ p = q := Iff.rfl

@[simp] theorem seg_cons (a : Nat) :
    Seg m p (a :: l) q ↔ p = .cell a ∧ ∃ r, (m.heap a).map LRUHandle.nextHash = some r ∧ Seg m r l q :=
  Iff.rfl

theorem seg_append : Seg m p (l₁ ++ l₂) q ↔ ∃ r, Seg m p l₁ r ∧ Seg m r l₂ q := by
  induction l₁ generalizing p with
  | nil => simp
  | cons a l₁ ih =>
    simp only [List.cons_append, seg_cons, ih]
    constructor
    · rintro ⟨rfl, r, hr, s, h₁, h₂⟩; exact ⟨s, ⟨rfl, r, hr, h₁⟩, h₂⟩
    · rintro ⟨s, ⟨rfl, r, hr, h₁⟩, h₂⟩; exact ⟨rfl, r, hr, s, h₁, h₂⟩

theorem Seg.allocated (h : Seg m p l q) : ∀ a ∈ l, m.heap a ≠ none := by
  induction l generalizing p with
  | nil => simp
  | cons b l ih =>
    obtain ⟨-, r, hr, hl⟩ := h
    rintro a (_ | ⟨_, ha⟩)
    · intro hb; simp [hb] at hr
    · exact ih hl a ha

theorem Seg.congr (h : Seg m p l q)
    (hm : ∀ a ∈ l, (m'.heap a).map LRUHandle.nextHash = (m.heap a).map LRUHandle.nextHash) :
    Seg m' p l q := by
  induction l generalizing p with
  | nil => exact h
  | cons a l ih =>
    obtain ⟨rfl, r, hr, hl⟩ := h
    exact ⟨rfl, r, (hm a (.head _)).trans hr, ih hl fun b hb => hm b (.tail _ hb)⟩

theorem HandleTable.readSlot_slotAfter {t : HandleTable} {s : Slot} (hs : t.readSlot m s = some p)
    (h : Seg m p l q) : t.readSlot m (slotAfter s l) = some q := by
  induction l generalizing s p with
  | nil => exact hs.trans (congrArg some h)
  | cons a l ih =>
    obtain ⟨rfl, r, hr, hl⟩ := h
    exact ih hr hl

end Seg

def Mem.ident (m : Mem) (a : Nat) : Option (Bytes × UInt32) := (m.heap a).map fun c => (c.key, c.hash)

theorem Mem.ident_eq_some {m : Mem} {a : Nat} {key : Bytes} {hash : UInt32} :
    m.ident a = some (key, hash) ↔ ∃ c, m.heap a = some c ∧ c.key = key ∧ c.hash = hash := by
  simp [Mem.ident]

section FindPointer

variable {t : HandleTable} {m : Mem} {key : Bytes} {hash : UInt32}

theorem findPointerFrom_slotAfter : ∀ {pre suf : List Nat} {s : Slot} {p : Ptr} {fuel : Nat},
    t.readSlot m s = some p → Chain m p (pre ++ suf) →
    (∀ b ∈ pre, m.ident b ≠ some (key, hash)) → (∀ b ∈ suf.head?, m.ident b = some (key, hash)) →
    pre.length < fuel → t.findPointerFrom m key hash fuel (slotAfter s []) = some (slotAfter s pre)
  | [], suf, s, p, fuel + 1, hs, hc, _, hsuf, _ => by
    simp only [slotAfter, HandleTable.findPointerFrom, hs, bind, Option.some_bind]
    rcases suf with _ | ⟨b, suf⟩
    · rw [show p = .null from hc]
    · obtain ⟨rfl, r, hr, -⟩ := hc
      have hb := hsuf b rfl
      rcases hc : m.heap b with _ | c
      · simp [Mem.ident, hc] at hb
      · simp only [Mem.ident, hc, Option.map_some', Option.some.injEq, Prod.mk.injEq] at hb
        simp [hc, hb]
  | b :: pre, suf, s, p, fuel + 1, hs, hc, hpre, hsuf, hlen => by
    obtain ⟨rfl, r, hr, hl⟩ := hc
    simp only [slotAfter, HandleTable.findPointerFrom, hs, bind, Option.some_bind]
    rcases hc : m.heap b with _ | c
    · simp [hc] at hr
    · have hb := hpre b (.head _)
      simp only [Mem.ident, hc, Option.map_some', ne_eq, Option.some.injEq, Prod.mk.injEq] at hb hr
      have hne : c.hash ≠ hash ∨ key ≠ c.key := by tauto
      simp only [Option.some_bind, hc, if_pos hne]
      exact findPointerFrom_slotAfter (s := .nextHash b) (by simp [HandleTable.readSlot, hc, hr]) hl
        (fun a ha => hpre a (.tail _ ha)) hsuf (by simpa using hlen)

end FindPointer

structure Buckets (list : List Ptr) (m : Mem) (cs : List (List Nat)) : Prop where
  length_eq : cs.length = list.length
  chains : ∀ i, Chain m (list.getD i .null) (cs.getD i [])
  bucket : ∀ i, ∀ a ∈ cs.getD i [], ∃ c, m.heap a = some c ∧ c.hash.toNat % cs.length = i
  nodup : cs.flatten.Nodup

structure TableRep (t : HandleTable) (m : Mem) (es : List Nat) : Prop where
  buckets : ∃ cs, Buckets t.list m cs ∧ cs.flatten.Perm es
  length_list : t.list.length = t.length.toNat
  length_pow : ∃ k ≤ 31, t.length.toNat = 2 ^ k
  length_ge : 4 ≤ t.length.toNat
  elems_eq : t.elems.toNat = es.length
  elems_le : es.length ≤ t.length.toNat
  distinct : es.Pairwise fun a b => m.ident a ≠ m.ident b

def Ptr.ofOption : Option Nat → Ptr
  | none => .null
  | some a => .cell a

@[simp] theorem Ptr.ofOption_none : Ptr.ofOption none = .null := rfl

@[simp] theorem Ptr.ofOption_some (a : Nat) : Ptr.ofOption (some a) = .cell a := rfl

def findEntry (m : Mem) (es : List Nat) (key : Bytes) (hash : UInt32) : Option Nat :=
  es.find? fun a => m.ident a = some (key, hash)

theorem bucket_eq_mod {n : UInt32} {k : Nat} (hk : k ≤ 31) (hn : n.toNat = 2 ^ k) (hash : UInt32) :
    (hash &&& (n - 1)).toNat = hash.toNat % n.toNat := by
  have hpos : 1 ≤ 2 ^ k := Nat.one_le_two_pow
  have hle : 2 ^ k ≤ 2 ^ 31 := Nat.pow_le_pow_right (by norm_num) hk
  have h1 : (n - 1).toNat = 2 ^ k - 1 := by
    rw [uint32_toNat_sub, hn, show (1 : UInt32).toNat = 1 from rfl]
    omega
  rw [UInt32.and_toNat, h1, hn]
  exact Nat.and_pow_two_sub_one_eq_mod _ k

section Lists

variable {α : Type} {cs : List (List α)} {i : Nat}

theorem mem_flatten_getD {a : α} : a ∈ cs.flatten ↔ ∃ i, a ∈ cs.getD i [] := by
  simp only [List.mem_flatten, List.getD_eq_getElem?_getD]
  constructor
  · rintro ⟨l, hl, ha⟩
    obtain ⟨i, hi⟩ := List.mem_iff_getElem?.1 hl
    exact ⟨i, by simpa [hi] using ha⟩
  · rintro ⟨i, ha⟩
    rcases hi : cs[i]? with _ | l
    · simp [hi] at ha
    · exact ⟨l, List.getElem?_mem hi, by simpa [hi] using ha⟩

theorem getD_set_eq {β : Type} {l : List β} {d x : β} {j : Nat} (hi : i < l.length) :
    (l.set i x).getD j d = if j = i then x else l.getD j d := by
  simp only [List.getD_eq_getElem?_getD, List.getElem?_set]
  by_cases hj : j = i
  · subst hj; simp [hi]
  · simp [Ne.symm hj, hj]

theorem set_getD_self {β : Type} {l : List β} {d : β} (hi : i < l.length) : l.set i (l.getD i d) = l := by
  apply List.ext_getElem?
  intro j
  rw [List.getElem?_set]
  split_ifs with hj
  · subst hj; simp [List.getElem?_eq_getElem hi]
  · rfl

theorem flatten_set_perm (hi : i < cs.length) (x : List α) :
    ((cs.set i x).flatten ++ cs.getD i []).Perm (cs.flatten ++ x) := by
  induction cs generalizing i with
  | nil => simp at hi
  | cons c cs ih =>
    cases i with
    | zero =>
      simp only [List.set_cons_zero, List.flatten_cons, List.getD_cons_zero, List.append_assoc]
      exact (List.perm_append_comm.append_left x).trans (List.perm_append_comm.trans (by simp))
    | succ i =>
      simp only [List.set_cons_succ, List.flatten_cons, List.getD_cons_succ, List.append_assoc]
      exact (ih (by simpa using hi)).append_left c

end Lists

section Buckets

variable {list : List Ptr} {m m' : Mem} {cs : List (List Nat)} {i : Nat}

theorem Buckets.mem_bucket (hb : Buckets list m cs) {a : Nat} {c : LRUHandle} (ha : a ∈ cs.flatten)
    (hc : m.heap a = some c) : a ∈ cs.getD (c.hash.toNat % cs.length) [] := by
  obtain ⟨i, hi⟩ := mem_flatten_getD.1 ha
  obtain ⟨c', hc', rfl⟩ := hb.bucket i a hi
  rw [hc, Option.some_inj] at hc'
  rwa [hc']

theorem Buckets.disjoint (hb : Buckets list m cs) {j : Nat} (hji : j ≠ i) {a : Nat}
    (ha : a ∈ cs.getD j []) (ha' : a ∈ cs.getD i []) : False := by
  obtain ⟨c, hc, hj⟩ := hb.bucket j a ha
  obtain ⟨c', hc', hi⟩ := hb.bucket i a ha'
  rw [hc, Option.some_inj] at hc'
  exact hji (hj.symm.trans (hc' ▸ hi))

theorem Buckets.readSlot_bucket {t : HandleTable} (hb : Buckets t.list m cs) (hi : i < cs.length) :
    t.readSlot m (.bucket i) = some (t.list.getD i .null) := by
  have : i < t.list.length := hb.length_eq ▸ hi
  simp [HandleTable.readSlot, List.getElem?_eq_getElem this]

theorem Buckets.set (hb : Buckets list m cs) (hi : i < cs.length) {x : List Nat} {p : Ptr}
    (hch : Chain m' p x) (hx : ∀ a ∈ x, ∃ c, m'.heap a = some c ∧ c.hash.toNat % cs.length = i)
    (hnd : (cs.set i x).flatten.Nodup) (hframe : ∀ j ≠ i, ∀ a ∈ cs.getD j [], m'.heap a = m.heap a) :
    Buckets (list.set i p) m' (cs.set i x) where
  length_eq := by simp [hb.length_eq]
  chains j := by
    have hil : i < list.length := hb.length_eq ▸ hi
    rw [getD_set_eq hi, getD_set_eq hil]
    split
    · exact hch
    · exact (hb.chains j).congr fun a ha => by rw [hframe j ‹_› a ha]
  bucket j a ha := by
    rw [getD_set_eq hi] at ha
    rw [List.length_set]
    split at ha
    · subst j; exact hx a ha
    · rw [hframe j ‹_› a ha]; exact hb.bucket j a ha
  nodup := hnd

end Buckets

section Lookup

variable {t : HandleTable} {m : Mem} {es : List Nat}

theorem TableRep.length_pos (h : TableRep t m es) {cs : List (List Nat)} (hb : Buckets t.list m cs) :
    0 < cs.length := by
  obtain ⟨k, -, hk⟩ := h.length_pow
  rw [hb.length_eq, h.length_list, hk]
  exact Nat.two_pow_pos k

theorem TableRep.nodup (h : TableRep t m es) : es.Nodup := by
  obtain ⟨cs, hb, hperm⟩ := h.buckets
  exact hperm.nodup_iff.1 hb.nodup

theorem TableRep.eq_of_ident (h : TableRep t m es) {a b : Nat} (ha : a ∈ es) (hb : b ∈ es)
    (hab : m.ident a = m.ident b) : a = b := by
  by_contra hne
  have hsymm : Symmetric fun a b => m.ident a ≠ m.ident b := fun _ _ h' e => h' e.symm
  exact h.distinct.forall hsymm ha hb hne hab

theorem TableRep.findPointer (h : TableRep t m es) (hm : m.Bounded) (key : Bytes) (hash : UInt32) :
    ∃ cs pre suf, Buckets t.list m cs ∧ cs.flatten.Perm es ∧
      cs.getD (hash.toNat % cs.length) [] = pre ++ suf ∧ (∀ b ∈ pre, m.ident b ≠ some (key, hash)) ∧
      findEntry m es key hash = suf.head? ∧
      t.findPointer m key hash = some (slotAfter (.bucket (hash.toNat % cs.length)) pre) ∧
      t.readSlot m (slotAfter (.bucket (hash.toNat % cs.length)) pre) = some (Ptr.ofOption suf.head?) := by
  obtain ⟨cs, hb, hperm⟩ := h.buckets
  obtain ⟨k, hk31, hk⟩ := h.length_pow
  have hi : hash.toNat % cs.length < cs.length := Nat.mod_lt _ (h.length_pos hb)
  set i := hash.toNat % cs.length
  set l := cs.getD i []
  let P : Nat → Bool := fun b => m.ident b ≠ some (key, hash)
  have hchain : Chain m (t.list.getD i .null) l := hb.chains i
  have hsplit : l = l.takeWhile P ++ l.dropWhile P := (List.takeWhile_append_dropWhile P l).symm
  have hpre : ∀ b ∈ l.takeWhile P, m.ident b ≠ some (key, hash) := fun b hb' => by
    simpa [P] using List.mem_takeWhile_imp hb'
  have hsuf : ∀ b ∈ (l.dropWhile P).head?, m.ident b = some (key, hash) := fun b hb' => by
    have h := List.head?_dropWhile_not P l
    rw [Option.mem_def.1 hb'] at h
    simpa [P] using h
  have hnd : l.Nodup := (List.nodup_flatten.1 hb.nodup).1 l (by simp [l, List.getElem?_eq_getElem hi])
  have hlen : (l.takeWhile P).length < m.nextAddr + 1 :=
    Nat.lt_succ_of_le ((List.takeWhile_prefix P).length_le.trans (hm.length_le hnd hchain.allocated))
  have hslot := hb.readSlot_bucket hi
  rw [hsplit] at hchain
  obtain ⟨r, hseg, hrest⟩ := seg_append.1 hchain
  refine ⟨cs, _, _, hb, hperm, hsplit, hpre, ?_, ?_, ?_⟩
  · rcases hd : l.dropWhile P with _ | ⟨b, suf⟩
    · refine List.find?_eq_none.2 fun a ha hid => ?_
      have hid := of_decide_eq_true hid
      obtain ⟨c, hc, -, hh⟩ := Mem.ident_eq_some.1 hid
      have hmem : a ∈ l := by have := hb.mem_bucket (hperm.symm.subset ha) hc; rwa [hh] at this
      rw [hsplit, hd, List.append_nil] at hmem
      exact hpre a hmem hid
    · have hbid := hsuf b (by simp [hd])
      have hbl : b ∈ l := by rw [hsplit, hd]; simp
      have hbes : b ∈ es := hperm.subset (mem_flatten_getD.2 ⟨i, hbl⟩)
      rcases hf : findEntry m es key hash with _ | a
      · exact absurd hbid (by simpa using List.find?_eq_none.1 hf b hbes)
      · have hida : m.ident a = some (key, hash) := by simpa using List.find?_some hf
        rw [h.eq_of_ident (List.mem_of_find?_eq_some hf) hbes (hida.trans hbid.symm)]
        rfl
  · rw [HandleTable.findPointer, bucket_eq_mod hk31 hk, ← h.length_list, ← hb.length_eq]
    exact findPointerFrom_slotAfter hslot hchain hpre hsuf hlen
  · rw [HandleTable.readSlot_slotAfter hslot hseg]
    rcases hd : l.dropWhile P with _ | ⟨b, suf⟩ <;> rw [hd] at hrest
    · exact congrArg some hrest
    · exact congrArg some hrest.1

theorem TableRep.lookup (h : TableRep t m es) (hm : m.Bounded) (key : Bytes) (hash : UInt32) :
    t.lookup m key hash = some (Ptr.ofOption (findEntry m es key hash)) := by
  obtain ⟨_, _, suf, _, _, _, _, hfe, hfind, hread⟩ := h.findPointer hm key hash
  rw [HandleTable.lookup, hfind, Option.some_bind, hread, hfe]

end Lookup

theorem slotAfter_concat (s : Slot) (l : List Nat) (b : Nat) : slotAfter s (l ++ [b]) = .nextHash b := by
  induction l generalizing s with
  | nil => rfl
  | cons a l ih => exact ih _

section Relink

variable {t : HandleTable} {m m' : Mem} {es pre : List Nat} {i : Nat} {r : Ptr}

theorem writeSlot_slotAfter (hi : i < t.list.length) (hnd : pre.Nodup)
    (hseg : Seg m (t.list.getD i .null) pre r) (q : Ptr) :
    ∃ p' m', t.writeSlot m (slotAfter (.bucket i) pre) q = some ({ t with list := t.list.set i p' }, m') ∧
      Seg m' p' pre q ∧ m.ChangedOnly LRUHandle.withoutNextHash pre m' := by
  rcases List.eq_nil_or_concat pre with rfl | ⟨L, b, rfl⟩
  · exact ⟨q, m, by simp [slotAfter, HandleTable.writeSlot, hi], rfl, .refl _ _ _⟩
  rw [List.concat_eq_append] at hseg hnd ⊢
  obtain ⟨s, hL, rfl, r', hr', -⟩ := seg_append.1 hseg
  obtain ⟨c, hc, -⟩ := Option.map_eq_some'.1 hr'
  have hmod := Mem.modify_eq_some (f := fun c => { c with nextHash := q }) hc
  have hco : m.ChangedOnly LRUHandle.withoutNextHash [b] _ := .of_modify hmod fun _ => rfl
  have hbL : b ∉ L := fun h => (List.nodup_append.1 hnd).2.2 h (List.mem_singleton_self b)
  refine ⟨t.list.getD i .null, _, ?_, seg_append.2 ⟨.cell b, hL.congr fun a ha => ?_, ?_⟩,
    hco.mono (by simp)⟩
  · rw [set_getD_self hi]
    simp [slotAfter_concat, HandleTable.writeSlot, hmod]
  · rw [hco.frame a fun h => hbL (List.mem_singleton.1 h ▸ ha)]
  · simp

theorem Mem.ChangedOnly.hash_of_withoutNextHash (hco : m.ChangedOnly LRUHandle.withoutNextHash pre m')
    {a : Nat} {c : LRUHandle} (hc : m.heap a = some c) : ∃ c', m'.heap a = some c' ∧ c'.hash = c.hash := by
  have := hco.map LRUHandle.hash (fun _ => rfl) a
  rw [hc] at this
  exact Option.map_eq_some'.1 this

theorem Mem.ChangedOnly.ident_of_withoutNextHash (hco : m.ChangedOnly LRUHandle.withoutNextHash pre m')
    (a : Nat) : m'.ident a = m.ident a :=
  hco.map (fun c => (c.key, c.hash)) (fun _ => rfl) a

theorem Buckets.relink {list : List Ptr} {cs : List (List Nat)} (hb : Buckets list m cs)
    (hi : i < cs.length) (hco : m.ChangedOnly LRUHandle.withoutNextHash pre m')
    (hpre : ∀ a ∈ pre, a ∈ cs.getD i []) {x : List Nat} {p : Ptr} (hch : Chain m' p x)
    (hx : ∀ a ∈ x, a ∈ cs.getD i [] ∨ ∃ c, m'.heap a = some c ∧ c.hash.toNat % cs.length = i)
    (hnd : (cs.set i x).flatten.Nodup) : Buckets (list.set i p) m' (cs.set i x) := by
  refine hb.set hi hch (fun a ha => ?_) hnd fun j hj a ha => hco.frame a fun ha' => ?_
  · rcases hx a ha with ha | h
    · obtain ⟨c, hc, hci⟩ := hb.bucket i a ha
      obtain ⟨c', hc', hh⟩ := hco.hash_of_withoutNextHash hc
      exact ⟨c', hc', hh ▸ hci⟩
    · exact h
  · exact hb.disjoint hj ha (hpre a ha')

end Relink

section Remove

variable {t : HandleTable} {m : Mem} {es : List Nat}

theorem TableRep.remove (h : TableRep t m es) (hm : m.Bounded) (key : Bytes) (hash : UInt32) :
    ∃ t' m', t.remove m key hash = some (t', m', Ptr.ofOption (findEntry m es key hash)) ∧
      TableRep t' m' ((findEntry m es key hash).elim es es.erase) ∧
      m.ChangedOnly LRUHandle.withoutNextHash es m' := by
  obtain ⟨cs, pre, suf, hb, hperm, hl, -, hfe, hfind, hread⟩ := h.findPointer hm key hash
  rw [hfe]
  rcases suf with _ | ⟨b, rest⟩
  · exact ⟨t, m, by simp [HandleTable.remove, hfind, hread], h, .refl _ _ _⟩
  simp only [List.head?_cons, Option.elim, Ptr.ofOption_some]
  have hi : hash.toNat % cs.length < cs.length := Nat.mod_lt _ (h.length_pos hb)
  have hchain := hb.chains (hash.toNat % cs.length)
  rw [hl] at hchain
  obtain ⟨r, hseg, rfl, r', hr', hrest⟩ := seg_append.1 hchain
  obtain ⟨c, hc, rfl⟩ := Option.map_eq_some'.1 hr'
  have hndl : (pre ++ b :: rest).Nodup :=
    hl ▸ (List.nodup_flatten.1 hb.nodup).1 _ (by simp [List.getElem?_eq_getElem hi])
  obtain ⟨p', m', hw, hseg', hco⟩ :=
    writeSlot_slotAfter (hb.length_eq ▸ hi) (hndl.sublist (List.sublist_append_left _ _)) hseg c.nextHash
  have hnew : ((cs.set (hash.toNat % cs.length) (pre ++ rest)).flatten).Perm (es.erase b) := by
    have hp := flatten_set_perm hi (pre ++ rest)
    rw [hl] at hp
    rw [List.perm_iff_count] at hp hperm ⊢
    intro a
    have h1 := hp a
    have h2 := hperm a
    simp only [List.count_append, List.count_cons, List.count_erase] at h1 h2 ⊢
    split_ifs at h1 ⊢ <;> omega
  have hbes : b ∈ es := hperm.subset (mem_flatten_getD.2 ⟨_, by rw [hl]; simp⟩)
  have hnd : es.Nodup := hperm.nodup_iff.1 hb.nodup
  refine ⟨{ t with list := t.list.set (hash.toNat % cs.length) p', elems := t.elems - 1 }, m',
    by simp [HandleTable.remove, hfind, hread, hc, hw], ⟨⟨_, hb.relink hi hco
    (fun a ha => by rw [hl]; simp [ha]) (seg_append.2 ⟨_, hseg', hrest.congr fun a ha => ?_⟩)
    (fun a ha => .inl (by rw [hl]; exact List.mem_append.2 ((List.mem_append.1 ha).imp id (List.mem_cons_of_mem b))))
    (hnew.nodup_iff.2 (hnd.erase b)), hnew⟩, by simp [h.length_list], h.length_pow, h.length_ge, ?_, ?_, ?_⟩,
    hco.mono fun a ha => hperm.subset (mem_flatten_getD.2 ⟨_, by rw [hl]; simp [ha]⟩)⟩
  · rw [hco.frame a fun ha' => (List.nodup_append.1 hndl).2.2 ha' (List.mem_cons_of_mem b ha)]
  · have := h.elems_eq
    have := List.length_erase_of_mem hbes
    have := List.length_pos_of_mem hbes
    have := uint32_toNat_lt t.elems
    rw [uint32_toNat_sub, show (1 : UInt32).toNat = 1 from rfl]
    omega
  · have := List.length_erase_of_mem hbes
    have := h.elems_le
    simp only
    omega
  · exact ((h.distinct.sublist (List.erase_sublist b es)).imp id).imp fun hne => by
      rwa [hco.ident_of_withoutNextHash, hco.ident_of_withoutNextHash]

end Remove

section ResizeLength

variable {elems : UInt32}

theorem resizeLength_pow_aux (helems : elems.toNat ≤ 2 ^ 31) :
    ∀ fuel j, j ≤ 31 → 31 < j + fuel → ∃ k n, j ≤ k ∧ k ≤ 31 ∧
      resizeLength elems fuel (UInt32.ofNat (2 ^ j)) = some n ∧ n.toNat = 2 ^ k ∧ elems.toNat ≤ 2 ^ k
  | 0, j, hj, hf => absurd hf (by omega)
  | fuel + 1, j, hj, hf => by
    have hjlt : 2 ^ j < 2 ^ 32 := Nat.pow_lt_pow_right (by norm_num) (by omega)
    have hjn : (UInt32.ofNat (2 ^ j)).toNat = 2 ^ j := by rw [uint32_toNat_ofNat, Nat.mod_eq_of_lt hjlt]
    rw [resizeLength]
    split_ifs with hlt
    · rw [uint32_lt_iff, hjn] at hlt
      have hj31 : j < 31 := by
        by_contra hj'
        have : 2 ^ 31 ≤ 2 ^ j := Nat.pow_le_pow_right (by norm_num) (by omega)
        omega
      have hdouble : UInt32.ofNat (2 ^ j) * 2 = UInt32.ofNat (2 ^ (j + 1)) := by
        rw [uint32_eq_iff, uint32_toNat_mul, hjn, uint32_toNat_ofNat, pow_succ]
        rfl
      obtain ⟨k, n, hjk, hk, hr, hn, hle⟩ := resizeLength_pow_aux helems fuel (j + 1) (by omega) (by omega)
      exact ⟨k, n, by omega, hk, hdouble ▸ hr, hn, hle⟩
    · rw [uint32_lt_iff, hjn] at hlt
      exact ⟨j, _, le_rfl, hj, rfl, hjn, by omega⟩

theorem resizeLength_pow (helems : elems.toNat ≤ 2 ^ 31) :
    ∃ k n, 2 ≤ k ∧ k ≤ 31 ∧ resizeLength elems 33 4 = some n ∧ n.toNat = 2 ^ k ∧ elems.toNat ≤ 2 ^ k :=
  resizeLength_pow_aux helems 33 2 (by omega) (by omega)

theorem resizeLength_none_aux (helems : 2 ^ 31 < elems.toNat) :
    ∀ fuel (n : UInt32), (n.toNat = 0 ∨ ∃ j ≤ 31, n.toNat = 2 ^ j) → resizeLength elems fuel n = none
  | 0, _, _ => rfl
  | fuel + 1, n, hn => by
    have hle : n.toNat ≤ 2 ^ 31 := by
      rcases hn with hn | ⟨j, hj, hn⟩
      · omega
      · exact hn ▸ Nat.pow_le_pow_right (by norm_num) hj
    rw [resizeLength, if_pos ((uint32_lt_iff _ _).2 (by omega))]
    refine resizeLength_none_aux helems fuel _ ?_
    rw [uint32_toNat_mul, show (2 : UInt32).toNat = 2 from rfl]
    rcases hn with hn | ⟨j, hj, hn⟩
    · left; omega
    · rcases Nat.lt_or_ge j 31 with hj' | hj'
      · have : 2 ^ (j + 1) < 2 ^ 32 := Nat.pow_lt_pow_right (by norm_num) (by omega)
        exact .inr ⟨j + 1, hj', by rw [hn, ← pow_succ, Nat.mod_eq_of_lt this]⟩
      · left; rw [hn, show j = 31 by omega]; rfl

theorem resizeLength_none (helems : 2 ^ 31 < elems.toNat) : resizeLength elems 33 4 = none :=
  resizeLength_none_aux helems 33 4 (.inr ⟨2, by omega, rfl⟩)

end ResizeLength

section Rehash

variable {L : UInt32} {k : Nat}

theorem rehashChain_spec (hk : k ≤ 31) (hL : L.toNat = 2 ^ k) :
    ∀ (l : List Nat) (fuel : Nat) (h : Ptr) (newList : List Ptr) (m : Mem) (count : UInt32)
      (ncs : List (List Nat)), Chain m h l → l.length < fuel → Buckets newList m ncs →
      ncs.length = L.toNat → (ncs.flatten ++ l).Nodup →
      ∃ newList' m' ncs', rehashChain L fuel h newList m count =
          some (newList', m', count + UInt32.ofNat l.length) ∧
        Buckets newList' m' ncs' ∧ ncs'.length = L.toNat ∧ ncs'.flatten.Perm (ncs.flatten ++ l) ∧
        m.ChangedOnly LRUHandle.withoutNextHash l m'
  | [], fuel + 1, h, newList, m, count, ncs, hch, _, hb, hlen, _ => by
    refine ⟨newList, m, ncs, ?_, hb, hlen, by simp, .refl _ _ _⟩
    rw [show h = .null from hch, rehashChain, List.length_nil, show UInt32.ofNat 0 = 0 from rfl,
      uint32_add_zero]
  | a :: l, fuel + 1, h, newList, m, count, ncs, hch, hfuel, hb, hlen, hnd => by
    obtain ⟨rfl, r, hr, hl⟩ := hch
    obtain ⟨c, hc, rfl⟩ := Option.map_eq_some'.1 hr
    have hj : c.hash.toNat % L.toNat < ncs.length := by
      rw [hlen]; exact Nat.mod_lt _ (by rw [hL]; exact Nat.two_pow_pos k)
    set j := c.hash.toNat % L.toNat
    have hjl : j < newList.length := hb.length_eq ▸ hj
    have hp : newList[j]? = some (newList.getD j .null) := by simp [List.getElem?_eq_getElem hjl]
    have hnda : a ∉ ncs.flatten := fun h' => (List.nodup_append.1 hnd).2.2 h' (.head _)
    have hal : a ∉ l := (List.nodup_cons.1 (List.nodup_append.1 hnd).2.1).1
    have hmod := Mem.modify_eq_some (f := fun c' => { c' with nextHash := newList.getD j .null }) hc
    have hco : m.ChangedOnly LRUHandle.withoutNextHash [a] _ := .of_modify hmod fun _ => rfl
    have hframe : ∀ b ≠ a, _ := fun b hb => hco.frame b (by simpa using hb)
    have hnew : (ncs.set j (a :: ncs.getD j [])).flatten.Perm (a :: ncs.flatten) := by
      have hp := flatten_set_perm hj (a :: ncs.getD j [])
      rw [List.perm_iff_count] at hp ⊢
      intro x
      have := hp x
      simp only [List.count_append, List.count_cons] at this ⊢
      omega
    have hb1 := hb.set hj (p := .cell a) ((seg_cons a).2 ⟨rfl, _, by simp, (hb.chains j).congr fun b hb' => by
        rw [hframe b fun e => hnda (e ▸ mem_flatten_getD.2 ⟨j, hb'⟩)]⟩)
      (fun b hb' => by
        rcases List.mem_cons.1 hb' with rfl | hb'
        · exact ⟨{ c with nextHash := newList.getD j .null }, by simp, by
            show c.hash.toNat % ncs.length = j
            rw [hlen]⟩
        · rw [hframe b fun e => hnda (e ▸ mem_flatten_getD.2 ⟨j, hb'⟩)]
          exact hb.bucket j b hb')
      (hnew.nodup_iff.2 (List.nodup_cons.2 ⟨hnda, hb.nodup⟩))
      (fun j' _ b hb' => hframe b fun e => hnda (e ▸ mem_flatten_getD.2 ⟨j', hb'⟩))
    have hnd1 : ((ncs.set j (a :: ncs.getD j [])).flatten ++ l).Nodup := by
      refine ((hnew.append_right l).nodup_iff).2 ?_
      have : (ncs.flatten ++ a :: l).Perm (a :: (ncs.flatten ++ l)) := List.perm_middle
      exact this.nodup_iff.1 hnd
    obtain ⟨newList', m', ncs', hrun, hb', hlen', hperm', hco'⟩ :=
      rehashChain_spec hk hL l fuel _ _ _ (count + 1) _
        (hl.congr fun b hb' => by rw [hframe b fun e => hal (e ▸ hb')]) (by simpa using hfuel) hb1
        (by simpa using hlen) hnd1
    refine ⟨newList', m', ncs', ?_, hb', hlen', ?_, (hco.mono (by simp)).trans (hco'.mono (by simp))⟩
    · have hcount : count + 1 + UInt32.ofNat l.length = count + UInt32.ofNat (l.length + 1) := by
        rw [uint32_eq_iff, uint32_toNat_add, uint32_toNat_add, uint32_toNat_add, uint32_toNat_ofNat,
          uint32_toNat_ofNat, show (1 : UInt32).toNat = 1 from rfl]
        omega
      simp only [rehashChain, hc, bind, Option.some_bind, bucket_eq_mod hk hL, hp, hmod, hrun,
        List.length_cons, hcount]
    · exact hperm'.trans ((hnew.append_right l).trans List.perm_middle.symm)

theorem rehashBuckets_spec (hk : k ≤ 31) (hL : L.toNat = 2 ^ k) (fuel : Nat) :
    ∀ (hs : List Ptr) (cs : List (List Nat)) (newList : List Ptr) (m : Mem) (count : UInt32)
      (ncs : List (List Nat)), hs.length = cs.length → (∀ i, Chain m (hs.getD i .null) (cs.getD i [])) →
      (∀ l ∈ cs, l.length < fuel) → Buckets newList m ncs → ncs.length = L.toNat →
      (ncs.flatten ++ cs.flatten).Nodup →
      ∃ newList' m' ncs', rehashBuckets L fuel hs newList m count =
          some (newList', m', count + UInt32.ofNat cs.flatten.length) ∧
        Buckets newList' m' ncs' ∧ ncs'.length = L.toNat ∧ ncs'.flatten.Perm (ncs.flatten ++ cs.flatten) ∧
        m.ChangedOnly LRUHandle.withoutNextHash cs.flatten m'
  | [], [], newList, m, count, ncs, _, _, _, hb, hlen, _ =>
    ⟨newList, m, ncs, by simp [rehashBuckets, show UInt32.ofNat 0 = 0 from rfl, uint32_add_zero], hb, hlen,
      by simp, .refl _ _ _⟩
  | h :: hs, l :: cs, newList, m, count, ncs, hlen0, hch, hfuel, hb, hlen, hnd => by
    rw [List.flatten_cons, ← List.append_assoc] at hnd
    obtain ⟨newList1, m1, ncs1, hrun1, hb1, hlen1, hperm1, hco1⟩ :=
      rehashChain_spec hk hL l fuel h newList m count ncs (by simpa using hch 0) (hfuel l (.head _)) hb
        hlen (List.nodup_append.1 hnd).1
    have hnd1 : (ncs1.flatten ++ cs.flatten).Nodup := ((hperm1.append_right _).nodup_iff).2 hnd
    have hdisj : ∀ b ∈ cs.flatten, b ∉ l := fun b hb' hbl =>
      (List.nodup_append.1 hnd).2.2 (List.mem_append_right _ hbl) hb'
    obtain ⟨newList', m', ncs', hrun, hb', hlen', hperm', hco'⟩ :=
      rehashBuckets_spec hk hL fuel hs cs newList1 m1 (count + UInt32.ofNat l.length) ncs1 (by simpa using hlen0)
        (fun i => (hch (i + 1)).congr fun b hb' => by
          rw [hco1.frame b (hdisj b (mem_flatten_getD.2 ⟨i, hb'⟩))])
        (fun l' hl' => hfuel l' (.tail _ hl')) hb1 hlen1 hnd1
    refine ⟨newList', m', ncs', ?_, hb', hlen', ?_, ?_⟩
    · simp only [rehashBuckets, bind, Option.some_bind, hrun1, hrun, List.flatten_cons, List.length_append,
        uint32_ofNat_add, uint32_add_assoc]
    · rw [List.flatten_cons, ← List.append_assoc]
      exact hperm'.trans (hperm1.append_right _)
    · rw [List.flatten_cons]
      exact (hco1.mono (List.subset_append_left _ _)).trans (hco'.mono (List.subset_append_right _ _))

end Rehash

section Resize

variable {t : HandleTable} {m : Mem} {cs : List (List Nat)} {es : List Nat}

theorem Buckets.replicate (m : Mem) (n : Nat) :
    Buckets (List.replicate n .null) m (List.replicate n []) where
  length_eq := by simp
  chains i := by
    simp only [List.getD_eq_getElem?_getD, List.getElem?_replicate]
    split <;> rfl
  bucket i a ha := by
    simp only [List.getD_eq_getElem?_getD, List.getElem?_replicate] at ha
    split at ha <;> simp at ha
  nodup := by simp

theorem Buckets.length_lt (hb : Buckets t.list m cs) (hm : m.Bounded) :
    ∀ l ∈ cs, l.length < m.nextAddr + 1 := by
  intro l hl
  obtain ⟨i, hi⟩ := List.mem_iff_getElem?.1 hl
  have hch : Chain m (t.list.getD i .null) l := by simpa [hi] using hb.chains i
  exact Nat.lt_succ_of_le (hm.length_le ((List.nodup_flatten.1 hb.nodup).1 l hl) hch.allocated)

theorem Buckets.resize (hb : Buckets t.list m cs) (hperm : cs.flatten.Perm es)
    (helems : t.elems.toNat = es.length) (hle : es.length ≤ 2 ^ 31)
    (hdist : es.Pairwise fun a b => m.ident a ≠ m.ident b) (hm : m.Bounded) :
    ∃ t' m', t.resize m = some (t', m') ∧ TableRep t' m' es ∧ t'.elems = t.elems ∧
      m.ChangedOnly LRUHandle.withoutNextHash es m' := by
  obtain ⟨k, L, hk2, hk, hrl, hL, hlek⟩ := resizeLength_pow (show t.elems.toNat ≤ 2 ^ 31 by omega)
  obtain ⟨newList', m', ncs', hrun, hb', hlen', hperm', hco⟩ :=
    rehashBuckets_spec hk hL (m.nextAddr + 1) t.list cs _ m 0 _ hb.length_eq.symm hb.chains
      (hb.length_lt hm) (Buckets.replicate m L.toNat) (by simp) (by simpa using hb.nodup)
  have hcount : (0 : UInt32) + UInt32.ofNat cs.flatten.length = t.elems := by
    have := uint32_toNat_lt t.elems
    rw [uint32_eq_iff, uint32_toNat_add, uint32_toNat_ofNat, hperm.length_eq, ← helems,
      show (0 : UInt32).toNat = 0 from rfl]
    omega
  refine ⟨⟨L, t.elems, newList'⟩, m', by
      simp only [HandleTable.resize, hrl, hrun, bind, Option.some_bind, hcount, if_pos], 
    ⟨⟨ncs', hb', hperm'.trans (by simpa using hperm)⟩, by rw [← hb'.length_eq, hlen'], ⟨k, hk, hL⟩,
      hL ▸ Nat.pow_le_pow_right (Nat.succ_pos 1) hk2, helems, by rw [hL]; omega, hdist.imp fun hne => ?_⟩, rfl, hco.mono fun a ha => hperm.subset ha⟩
  rwa [hco.ident_of_withoutNextHash, hco.ident_of_withoutNextHash]

end Resize

section Insert

variable {t : HandleTable} {m : Mem} {es : List Nat} {a : Nat} {c : LRUHandle}

theorem Buckets.congr_outside {list : List Ptr} {cs : List (List Nat)} {S : List Nat} {m' : Mem}
    (hb : Buckets list m cs) (hco : m.ChangedOnly LRUHandle.withoutNextHash S m')
    (hS : ∀ b ∈ S, b ∉ cs.flatten) : Buckets list m' cs where
  length_eq := hb.length_eq
  chains i := (hb.chains i).congr fun b hb' => by
    rw [hco.frame b fun h => hS b h (mem_flatten_getD.2 ⟨i, hb'⟩)]
  bucket i b hb' := by
    rw [hco.frame b fun h => hS b h (mem_flatten_getD.2 ⟨i, hb'⟩)]
    exact hb.bucket i b hb'
  nodup := hb.nodup

theorem TableRep.insert_link (h : TableRep t m es) (hm : m.Bounded) (ha : m.heap a = some c)
    (hnot : a ∉ es) :
    ∃ (i : Nat) (p' : Ptr) (m' : Mem) (cs : List (List Nat)),
      t.insert m a =
        (if Ptr.ofOption (findEntry m es c.key c.hash) = .null then
          if t.elems + 1 > t.length then
            ((⟨t.length, t.elems + 1, t.list.set i p'⟩ : HandleTable).resize m').map fun r =>
              (r.1, r.2, Ptr.ofOption (findEntry m es c.key c.hash))
          else some (⟨t.length, t.elems + 1, t.list.set i p'⟩, m', Ptr.ofOption (findEntry m es c.key c.hash))
        else some (⟨t.length, t.elems, t.list.set i p'⟩, m', Ptr.ofOption (findEntry m es c.key c.hash))) ∧
      Buckets (t.list.set i p') m' cs ∧
      cs.flatten.Perm ((findEntry m es c.key c.hash).elim es es.erase ++ [a]) ∧
      m.ChangedOnly LRUHandle.withoutNextHash (a :: es) m' := by
  obtain ⟨cs, pre, suf, hb, hperm, hl, -, hfe, hfind, hread⟩ := h.findPointer hm c.key c.hash
  have hi : c.hash.toNat % cs.length < cs.length := Nat.mod_lt _ (h.length_pos hb)
  set i := c.hash.toNat % cs.length
  have hchain := hb.chains i
  rw [hl] at hchain
  obtain ⟨r, hseg, hsuf⟩ := seg_append.1 hchain
  have hndl : (pre ++ suf).Nodup := hl ▸ (List.nodup_flatten.1 hb.nodup).1 _ (by
    simp [i, List.getElem?_eq_getElem hi])
  have hmem : ∀ b ∈ pre ++ suf, b ∈ cs.flatten := fun b hb' => mem_flatten_getD.2 ⟨i, hl ▸ hb'⟩
  have hacs : a ∉ cs.flatten := fun h' => hnot (hperm.subset h')
  obtain ⟨oldNext, hold, hnext⟩ : ∃ oldNext, oldNextHash m (Ptr.ofOption suf.head?) = some oldNext ∧
      Chain m oldNext suf.tail := by
    rcases suf with _ | ⟨b, rest⟩
    · exact ⟨.null, rfl, rfl⟩
    · obtain ⟨rfl, r', hr', hrest⟩ := hsuf
      exact ⟨r', hr', hrest⟩
  have hmod := Mem.modify_eq_some (f := fun c' => { c' with nextHash := oldNext }) ha
  have hco1 : m.ChangedOnly LRUHandle.withoutNextHash [a] _ := .of_modify hmod fun _ => rfl
  have hne : ∀ b ∈ pre ++ suf, b ≠ a := fun b hb' e => hacs (e ▸ hmem b hb')
  have hb1 := hb.congr_outside hco1 (by simpa using hacs)
  obtain ⟨p', m', hw, hseg', hco2⟩ := writeSlot_slotAfter (hb.length_eq ▸ hi)
    (List.nodup_append.1 hndl).1 (hseg.congr fun b hb' => by
      rw [hco1.frame b (by simpa using hne b (List.mem_append_left _ hb'))]) (.cell a)
  have hapre : a ∉ pre := fun h' => hne a (List.mem_append_left _ h') rfl
  have htail : ∀ b ∈ suf.tail, b ∈ suf := fun b hb' => List.mem_of_mem_tail hb'
  have hchain' : Chain m' (.cell a) (a :: suf.tail) := (seg_cons a).2 ⟨rfl, oldNext,
    by rw [hco2.frame a hapre]; simp, hnext.congr fun b hb' => by
      have hbs := List.mem_append_right pre (htail b hb')
      rw [hco2.frame b fun h' => (List.nodup_append.1 hndl).2.2 h' (htail b hb'),
        hco1.frame b (by simpa using hne b hbs)]⟩
  have hsufes : ∀ b ∈ suf, b ∈ es := fun b hb' => hperm.subset (hmem b (List.mem_append_right _ hb'))
  have hnew : (cs.set i (pre ++ a :: suf.tail)).flatten.Perm (suf.head?.elim es es.erase ++ [a]) := by
    have hp := flatten_set_perm hi (pre ++ a :: suf.tail)
    rw [hl] at hp
    rw [List.perm_iff_count] at hp hperm ⊢
    intro x
    have h1 := hp x
    have h2 := hperm x
    rcases suf with _ | ⟨b, rest⟩
    · simp only [List.count_append, List.count_cons, List.tail_nil, List.head?_nil, Option.elim,
        List.count_nil, List.append_nil] at h1 h2 ⊢
      omega
    · have h3 := List.count_pos_iff.2 (hsufes b (.head _))
      simp only [List.count_append, List.count_cons, List.count_erase, List.tail_cons, List.head?_cons,
        Option.elim, List.count_nil, beq_iff_eq] at h1 h2 h3 ⊢
      split_ifs at h1 ⊢ <;> subst_vars <;> omega
  refine ⟨i, p', m', cs.set i (pre ++ a :: suf.tail), ?_,
    hb1.relink hi hco2 (fun b hb' => by rw [hl]; exact List.mem_append_left _ hb') (seg_append.2 ⟨_, hseg', hchain'⟩)
      (fun b hb' => ?_) (hnew.nodup_iff.2 ?_), by rw [hfe]; exact hnew,
    (hco1.mono (by simp)).trans (hco2.mono fun b hb' =>
      .tail _ (hperm.subset (hmem b (List.mem_append_left _ hb'))))⟩
  · rw [hfe]
    simp only [HandleTable.insert, ha, bind, Option.some_bind, hfind, hread, hold, hmod, hw]
  · rcases List.mem_append.1 hb' with hb' | hb'
    · exact .inl (by rw [hl]; exact List.mem_append_left _ hb')
    · rcases List.mem_cons.1 hb' with rfl | hb'
      · exact .inr ⟨{ c with nextHash := oldNext }, by rw [hco2.frame _ hapre]; simp, rfl⟩
      · exact .inl (by rw [hl]; exact List.mem_append_right _ (htail b hb'))
  · have hnd : es.Nodup := hperm.nodup_iff.1 hb.nodup
    rcases suf with _ | ⟨b, rest⟩
    · exact List.nodup_append.2 ⟨hnd, by simp, by simpa using hnot⟩
    · exact List.nodup_append.2 ⟨hnd.erase b, by simp, by
        simpa using fun h' => hnot (List.mem_of_mem_erase h')⟩

theorem TableRep.insert (h : TableRep t m es) (hm : m.Bounded) (ha : m.heap a = some c) (hnot : a ∉ es)
    (hlen : es.length < 2 ^ 31) :
    ∃ t' m', t.insert m a = some (t', m', Ptr.ofOption (findEntry m es c.key c.hash)) ∧
      TableRep t' m' ((findEntry m es c.key c.hash).elim es es.erase ++ [a]) ∧
      m.ChangedOnly LRUHandle.withoutNextHash (a :: es) m' := by
  obtain ⟨i, p', m', cs, heq, hb, hperm, hco⟩ := h.insert_link hm ha hnot
  rw [heq]
  have hid : ∀ b, m'.ident b = m.ident b := hco.ident_of_withoutNextHash
  have hida : m.ident a = some (c.key, c.hash) := by simp [Mem.ident, ha]
  have helt := uint32_toNat_lt t.elems
  rcases hf : findEntry m es c.key c.hash with _ | b <;> rw [hf] at hperm
  · have hnone : ∀ b ∈ es, m.ident b ≠ m.ident a := fun b hb' e => by
      simpa [hida, e] using List.find?_eq_none.1 hf b hb'
    have hdist : (es ++ [a]).Pairwise fun x y => m'.ident x ≠ m'.ident y := by
      simp only [hid]
      exact List.pairwise_append.2 ⟨h.distinct, by simp, fun x hx y hy => by
        rw [List.mem_singleton.1 hy]; exact hnone x hx⟩
    have helems : (t.elems + 1).toNat = (es ++ [a]).length := by
      rw [uint32_toNat_add, h.elems_eq, List.length_append, List.length_singleton,
        show (1 : UInt32).toNat = 1 from rfl]
      omega
    simp only [Ptr.ofOption_none, if_true, Option.elim]
    split_ifs with hgt
    · obtain ⟨t', m'', hres, hrep, -, hco'⟩ := Buckets.resize (t := ⟨t.length, t.elems + 1, t.list.set i p'⟩)
        hb hperm helems (by simp; omega) hdist (hco.bounded hm)
      exact ⟨t', m'', by rw [hres]; rfl, hrep, hco.trans (hco'.mono fun x hx => by simpa [or_comm] using hx)⟩
    · refine ⟨_, m', rfl, ⟨⟨cs, hb, hperm⟩, by simp [h.length_list], h.length_pow, h.length_ge, helems, ?_, hdist⟩, hco⟩
      rw [gt_iff_lt, uint32_lt_iff] at hgt
      dsimp only at hgt ⊢
      omega
  · have hbes := List.mem_of_find?_eq_some hf
    have hidb : m.ident b = m.ident a := by rw [hida]; simpa using List.find?_some hf
    have hlen' := List.length_erase_of_mem hbes
    have hpos := List.length_pos_of_mem hbes
    have hnd := h.nodup
    refine ⟨_, m', rfl, ⟨⟨cs, hb, hperm⟩, by simp [h.length_list], h.length_pow, h.length_ge, ?_, ?_, ?_⟩, hco⟩
    · simp only [Option.elim, List.length_append, List.length_singleton, hlen']
      have := h.elems_eq
      omega
    · simp only [Option.elim, List.length_append, List.length_singleton, hlen']
      have := h.elems_le
      omega
    · simp only [hid]
      refine List.pairwise_append.2 ⟨h.distinct.sublist (List.erase_sublist b es), by simp,
        fun x hx y hy => ?_⟩
      rw [List.mem_singleton.1 hy, ← hidb]
      exact fun e => (hnd.mem_erase_iff.1 hx).1 (h.eq_of_ident (List.mem_of_mem_erase hx) hbes e)

theorem TableRep.insert_full (h : TableRep t m es) (hm : m.Bounded) (ha : m.heap a = some c)
    (hnot : a ∉ es) (hfull : es.length = 2 ^ 31) (hnew : findEntry m es c.key c.hash = none) :
    t.insert m a = none := by
  obtain ⟨i, p', m', cs, heq, -⟩ := h.insert_link hm ha hnot
  obtain ⟨k, hk, hlen⟩ := h.length_pow
  have hle := h.elems_le
  have hpow : 2 ^ k ≤ 2 ^ 31 := Nat.pow_le_pow_right (by omega) hk
  have helems : (t.elems + 1).toNat = 2 ^ 31 + 1 := by
    rw [uint32_toNat_add, h.elems_eq, hfull, show (1 : UInt32).toNat = 1 from rfl]
    rfl
  rw [heq, hnew]
  simp only [Ptr.ofOption_none, if_true]
  rw [if_pos (by rw [gt_iff_lt, uint32_lt_iff, helems]; omega)]
  simp [HandleTable.resize, resizeLength_none (by rw [helems]; omega)]

theorem TableRep.new (m : Mem) : TableRep HandleTable.new m [] :=
  ⟨⟨List.replicate 4 [], Buckets.replicate m 4, by simp⟩, rfl, ⟨2, by omega, rfl⟩, Nat.le_refl 4, rfl, by simp, by simp⟩

def LRUHandle.tableView (c : LRUHandle) : Ptr × Bytes × UInt32 := (c.nextHash, c.key, c.hash)

theorem TableRep.congr {m' : Mem} (h : TableRep t m es)
    (hv : ∀ a ∈ es, (m'.heap a).map LRUHandle.tableView = (m.heap a).map LRUHandle.tableView) :
    TableRep t m' es := by
  obtain ⟨cs, hb, hperm⟩ := h.buckets
  have hv' : ∀ a ∈ es, ∀ {α : Type} (p : Ptr × Bytes × UInt32 → α),
      (m'.heap a).map (p ∘ LRUHandle.tableView) = (m.heap a).map (p ∘ LRUHandle.tableView) :=
    fun a ha _ p => by rw [← Option.map_map, hv a ha, Option.map_map]
  have hin : ∀ i, ∀ a ∈ cs.getD i [], a ∈ es := fun i a ha => hperm.subset (mem_flatten_getD.2 ⟨i, ha⟩)
  refine ⟨⟨cs, ⟨hb.length_eq, fun i => (hb.chains i).congr fun a ha => hv' a (hin i a ha) Prod.fst,
    fun i a ha => ?_, hb.nodup⟩, hperm⟩, h.length_list, h.length_pow, h.length_ge, h.elems_eq, h.elems_le,
    h.distinct.imp_of_mem fun ha hb' hne => ?_⟩
  · obtain ⟨c, hc, hci⟩ := hb.bucket i a ha
    have := hv' a (hin i a ha) (fun v => v.2.2)
    rw [hc] at this
    obtain ⟨c', hc', hh⟩ := Option.map_eq_some'.1 this
    have hh' : c'.hash = c.hash := hh
    exact ⟨c', hc', hh' ▸ hci⟩
  · have e1 := hv' _ ha (fun v => v.2)
    have e2 := hv' _ hb' (fun v => v.2)
    simp only [Function.comp_def, LRUHandle.tableView] at e1 e2
    rwa [Mem.ident, Mem.ident, e1, e2]

theorem TableRep.perm {es' : List Nat} (h : TableRep t m es) (hp : es.Perm es') : TableRep t m es' := by
  obtain ⟨cs, hb, hperm⟩ := h.buckets
  exact ⟨⟨cs, hb, hperm.trans hp⟩, h.length_list, h.length_pow, h.length_ge, hp.length_eq ▸ h.elems_eq,
    hp.length_eq ▸ h.elems_le, h.distinct.perm hp fun h' e => h' e.symm⟩

end Insert

end LevelDbProofs.Cache
