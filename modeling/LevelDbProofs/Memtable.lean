import LevelDbProofs.InternalKey
import Mathlib.Data.List.Pairwise

/-!
The `MemTable` part of `db/leveldb_main.cc`: length-prefixed records in a skiplist ordered by the
internal key comparator, `Add` and `Get`. `db/skiplist.h` is not in the repository: the skiplist is
its records in order, with `Insert` and `Seek` as the spec describes them.
-/

namespace LevelDbProofs.Memtable

open LevelDbProofs.Util LevelDbProofs.InternalKey

def getLengthPrefixedSlice (data : Bytes) : Option Bytes :=
  (getVarint32 data).bind fun r => if r.1.toNat ≤ r.2.length then some (r.2.take r.1.toNat) else none

def keyComparator (icmp : InternalKeyComparator) (a b : Bytes) : Option Int := do
  let ka ← getLengthPrefixedSlice a
  let kb ← getLengthPrefixedSlice b
  pure (icmp.compare ka kb)

def encodeKey (target : Bytes) : Bytes := putVarint32 [] (UInt32.ofNat target.length) ++ target

/-- Modelled from the spec: `SkipList::Insert` puts the record before the first one not less than it. -/
def skipListInsert (cmp : Bytes → Bytes → Option Int) (x : Bytes) : List Bytes → Option (List Bytes)
  | [] => some [x]
  | r :: rs => do
    let c ← cmp r x
    if c < 0 then (skipListInsert cmp x rs).map (r :: ·) else pure (x :: r :: rs)

/-- Modelled from the spec: `SkipList::Iterator::Seek`, the first record not less than `target`; the
inner `none` is an iterator past the last record. -/
def skipListSeek (cmp : Bytes → Bytes → Option Int) (target : Bytes) : List Bytes → Option (Option Bytes)
  | [] => some none
  | r :: rs => do
    let c ← cmp r target
    if c < 0 then skipListSeek cmp target rs else pure (some r)

structure MemTable where
  table : List Bytes
  deriving DecidableEq, Repr

def MemTable.new : MemTable := ⟨[]⟩

def MemTable.entry (s : UInt64) (type : UInt8) (key value : Bytes) : Bytes :=
  encodeVarint32 (UInt32.ofNat (key.length + 8)) ++ key ++ encodeFixed64 ((s <<< 8) ||| type.toUInt64) ++
    encodeVarint32 (UInt32.ofNat value.length) ++ value

def MemTable.encodedLen (key value : Bytes) : Nat :=
  varintLength (key.length + 8) + (key.length + 8) + varintLength value.length + value.length

def MemTableIterator.key (entry : Bytes) : Option Bytes := getLengthPrefixedSlice entry

def MemTableIterator.value (entry : Bytes) : Option Bytes := do
  let r ← getVarint32 entry
  if r.1.toNat ≤ r.2.length then getLengthPrefixedSlice (r.2.drop r.1.toNat) else none

section Operations

variable (icmp : InternalKeyComparator)

def MemTable.add (mt : MemTable) (s : UInt64) (type : UInt8) (key value : Bytes) : Option MemTable :=
  (skipListInsert (keyComparator icmp) (MemTable.entry s type key value) mt.table).map MemTable.mk

def MemTable.getEntry (key : LookupKey) (entry value : Bytes) (s : Status) : Option (Bool × Bytes × Status) := do
  let r ← getVarint32 entry
  let keyLength := r.1.toNat
  let keyPtr := r.2
  if keyLength < 8 ∨ keyPtr.length < keyLength then none
  else if icmp.userComparator.compare (keyPtr.take (keyLength - 8)) key.userKey = 0 then
    let tag := decodeFixed64 (keyPtr.drop (keyLength - 8))
    if (tag &&& 0xff).toUInt8 = kTypeValue then
      let v ← getLengthPrefixedSlice (keyPtr.drop keyLength)
      pure (true, v, s)
    else if (tag &&& 0xff).toUInt8 = kTypeDeletion then pure (true, value, .notFound "")
    else pure (false, value, s)
  else pure (false, value, s)

def MemTable.get (mt : MemTable) (key : LookupKey) (value : Bytes) (s : Status) : Option (Bool × Bytes × Status) :=
  (skipListSeek (keyComparator icmp) key.memtableKey mt.table).bind fun
    | none => some (false, value, s)
    | some entry => MemTable.getEntry icmp key entry value s

end Operations

structure Write where
  sequence : UInt64
  type : UInt8
  userKey : Bytes
  value : Bytes
  deriving DecidableEq, Repr

structure Write.Valid (w : Write) : Prop where
  sequence_le : w.sequence ≤ kMaxSequenceNumber
  type_eq : w.type = kTypeDeletion ∨ w.type = kTypeValue
  userKey_lt : w.userKey.length + 8 < 2 ^ 32
  value_lt : w.value.length < 2 ^ 32

def Write.record (w : Write) : Bytes := MemTable.entry w.sequence w.type w.userKey w.value

def Write.internalKey (w : Write) : Bytes := appendInternalKey [] ⟨w.userKey, w.sequence, w.type⟩

def MemTable.addAll (icmp : InternalKeyComparator) (mt : MemTable) : List Write → Option MemTable
  | [] => some mt
  | w :: ws => (mt.add icmp w.sequence w.type w.userKey w.value).bind fun mt => mt.addAll icmp ws

section Records

theorem shiftLeft_or_eq_packSequenceAndType (s : UInt64) (t : UInt8) (hs : s ≤ kMaxSequenceNumber) :
    (s <<< 8) ||| t.toUInt64 = packSequenceAndType s t := by
  have hs' : s.toNat < 2 ^ 56 := by
    rw [uint64_le_iff] at hs; simpa [kMaxSequenceNumber] using Nat.lt_succ_of_le hs
  have ht : t.toNat < 2 ^ 8 := uint8_toNat_lt t
  rw [uint64_eq_iff, uint64_toNat_or, uint64_toNat_shiftLeft, toNat_packSequenceAndType s t hs,
    uint8_toNat_toUInt64, show (8 : UInt64).toNat % 64 = 8 from rfl, Nat.shiftLeft_eq,
    Nat.mod_eq_of_lt (by omega), Nat.mul_comm, ← Nat.mul_add_lt_is_or ht]

theorem length_internalKey (w : Write) : w.internalKey.length = w.userKey.length + 8 := by
  simp [Write.internalKey, appendInternalKey, putFixed64]

theorem Write.record_eq (w : Write) (hw : w.Valid) :
    w.record = encodeVarint32 (UInt32.ofNat w.internalKey.length) ++ w.internalKey ++
      encodeVarint32 (UInt32.ofNat w.value.length) ++ w.value := by
  simp [Write.record, MemTable.entry, length_internalKey, Write.internalKey, appendInternalKey, putFixed64,
    shiftLeft_or_eq_packSequenceAndType _ _ hw.sequence_le]

theorem getLengthPrefixedSlice_append (x rest : Bytes) (hx : x.length < 2 ^ 32) :
    getLengthPrefixedSlice (encodeVarint32 (UInt32.ofNat x.length) ++ x ++ rest) = some x := by
  have h : (UInt32.ofNat x.length).toNat = x.length := by simp only [uint32_toNat_ofNat]; omega
  simp [getLengthPrefixedSlice, List.append_assoc, h]

theorem getLengthPrefixedSlice_record (w : Write) (hw : w.Valid) :
    getLengthPrefixedSlice w.record = some w.internalKey := by
  rw [w.record_eq hw, List.append_assoc, List.append_assoc, ← List.append_assoc,
    getLengthPrefixedSlice_append _ _ (by rw [length_internalKey]; exact hw.userKey_lt)]

theorem keyComparator_record (icmp : InternalKeyComparator) (w : Write) (hw : w.Valid) (target : Bytes) :
    keyComparator icmp w.record target = (getLengthPrefixedSlice target).map (icmp.compare w.internalKey) := by
  simp only [keyComparator, getLengthPrefixedSlice_record w hw]
  cases getLengthPrefixedSlice target <;> rfl

end Records

section Table

variable {icmp : InternalKeyComparator}

def Sorted (icmp : InternalKeyComparator) (ws : List Write) : Prop :=
  ws.Pairwise fun a b => icmp.compare a.internalKey b.internalKey ≤ 0

theorem skipListInsert_records (hlaw : Comparator.Lawful icmp.compare) (w : Write) (hw : w.Valid) :
    ∀ es : List Write, (∀ e ∈ es, e.Valid) → Sorted icmp es →
      ∃ es', skipListInsert (keyComparator icmp) w.record (es.map Write.record) = some (es'.map Write.record) ∧
        es'.Perm (w :: es) ∧ Sorted icmp es'
  | [], _, _ => ⟨[w], rfl, List.Perm.refl _, List.pairwise_singleton _ _⟩
  | e :: es, hv, hs => by
    have he := hv e (List.mem_cons_self _ _)
    rw [List.map_cons, skipListInsert, keyComparator_record icmp e he, getLengthPrefixedSlice_record w hw]
    simp only [Option.map_some', bind, Option.bind]
    by_cases hc : icmp.compare e.internalKey w.internalKey < 0
    · obtain ⟨es', hins, hperm, hsorted⟩ :=
        skipListInsert_records hlaw w hw es (fun x hx => hv x (List.mem_cons_of_mem _ hx)) hs.of_cons
      refine ⟨e :: es', by simp [hc, hins], (hperm.cons e).trans (List.Perm.swap w e es), ?_⟩
      rw [Sorted, List.pairwise_cons]
      refine ⟨fun x hx => ?_, hsorted⟩
      rcases List.mem_cons.mp (hperm.subset hx) with rfl | hx'
      · omega
      · exact List.rel_of_pairwise_cons hs hx'
    · have hwe : icmp.compare w.internalKey e.internalKey ≤ 0 := (hlaw.nonneg_iff_nonpos _ _).mp (by omega)
      refine ⟨w :: e :: es, by simp [hc], List.Perm.refl _, ?_⟩
      rw [Sorted, List.pairwise_cons]
      refine ⟨fun x hx => ?_, hs⟩
      rcases List.mem_cons.mp hx with rfl | hx'
      · exact hwe
      · exact hlaw.le_trans _ _ _ hwe (List.rel_of_pairwise_cons hs hx')

theorem addAll_records (hlaw : Comparator.Lawful icmp.compare) :
    ∀ (ws es : List Write), (∀ w ∈ ws, w.Valid) → (∀ e ∈ es, e.Valid) → Sorted icmp es →
      ∃ es', (MemTable.mk (es.map Write.record)).addAll icmp ws = some ⟨es'.map Write.record⟩ ∧
        es'.Perm (es ++ ws) ∧ Sorted icmp es'
  | [], es, _, _, hs => ⟨es, rfl, by simp, hs⟩
  | w :: ws, es, hws, hes, hs => by
    obtain ⟨es1, hins, hperm1, hs1⟩ :=
      skipListInsert_records hlaw w (hws w (List.mem_cons_self _ _)) es hes hs
    have hv1 : ∀ e ∈ es1, e.Valid := fun e he => by
      rcases List.mem_cons.mp (hperm1.subset he) with rfl | he'
      · exact hws e (List.mem_cons_self _ _)
      · exact hes e he'
    obtain ⟨es', hrun, hperm', hs'⟩ :=
      addAll_records hlaw ws es1 (fun x hx => hws x (List.mem_cons_of_mem _ hx)) hv1 hs1
    refine ⟨es', ?_, hperm'.trans ((hperm1.append_right ws).trans List.perm_middle.symm), hs'⟩
    change ((skipListInsert (keyComparator icmp) w.record (es.map Write.record)).map MemTable.mk).bind
      (fun mt => mt.addAll icmp ws) = _
    rw [hins]
    exact hrun

theorem skipListSeek_records (target tk : Bytes) (ht : getLengthPrefixedSlice target = some tk) :
    ∀ es : List Write, (∀ e ∈ es, e.Valid) →
      skipListSeek (keyComparator icmp) target (es.map Write.record) =
        some ((es.find? fun e => decide (0 ≤ icmp.compare e.internalKey tk)).map Write.record)
  | [], _ => rfl
  | e :: es, hv => by
    rw [List.map_cons, skipListSeek, keyComparator_record icmp e (hv e (List.mem_cons_self _ _)), ht]
    simp only [Option.map_some', bind, Option.bind]
    by_cases hc : icmp.compare e.internalKey tk < 0
    · rw [if_pos hc, skipListSeek_records target tk ht es (fun x hx => hv x (List.mem_cons_of_mem _ hx)),
        List.find?_cons_of_neg _ (by simp; omega)]
    · rw [if_neg hc, List.find?_cons_of_pos _ (by simp; omega)]
      rfl

theorem find?_first {α : Type} {R : α → α → Prop} {p : α → Bool} :
    ∀ {l : List α} {f : α}, l.Pairwise R → l.find? p = some f → ∀ x ∈ l, p x = true → f = x ∨ R f x
  | [], _, _, h, _, _, _ => by simp at h
  | a :: l, f, hl, h, x, hx, hpx => by
    by_cases ha : p a = true
    · rw [List.find?_cons_of_pos _ ha, Option.some.injEq] at h
      subst h
      rcases List.mem_cons.mp hx with rfl | hx'
      · exact .inl rfl
      · exact .inr (List.rel_of_pairwise_cons hl hx')
    · rw [List.find?_cons_of_neg _ ha] at h
      rcases List.mem_cons.mp hx with rfl | hx'
      · exact absurd hpx ha
      · exact find?_first hl.of_cons h x hx' hpx

end Table

section Get

variable (icmp : InternalKeyComparator)

theorem userKey_new (u : Bytes) (s : UInt64) : (LookupKey.new u s).userKey = u := by
  simp [LookupKey.new, LookupKey.userKey]

theorem getLengthPrefixedSlice_memtableKey (u : Bytes) (s : UInt64) :
    getLengthPrefixedSlice (LookupKey.new u s).memtableKey =
      some ((appendInternalKey [] ⟨u, s, kValueTypeForSeek⟩).take ((u.length + 8) % 2 ^ 32)) := by
  have hl : (appendInternalKey [] ⟨u, s, kValueTypeForSeek⟩).length = u.length + 8 := by
    simp [appendInternalKey, putFixed64]
  have h := getVarint32_encodeVarint32 (UInt32.ofNat (u.length + 8)) (appendInternalKey [] ⟨u, s, kValueTypeForSeek⟩)
  simp only [appendInternalKey, putFixed64, List.nil_append] at h hl
  simp only [getLengthPrefixedSlice, LookupKey.memtableKey, LookupKey.new, List.append_assoc, h, Option.some_bind,
    uint32_toNat_ofNat, appendInternalKey, putFixed64, List.nil_append, hl]
  rw [if_pos (Nat.mod_le _ _)]

theorem getLengthPrefixedSlice_memtableKey_of_lt (u : Bytes) (s : UInt64) (hu : u.length + 8 < 2 ^ 32) :
    getLengthPrefixedSlice (LookupKey.new u s).memtableKey = some (appendInternalKey [] ⟨u, s, kValueTypeForSeek⟩) := by
  rw [getLengthPrefixedSlice_memtableKey, Nat.mod_eq_of_lt hu, List.take_of_length_le]
  simp [appendInternalKey, putFixed64]

theorem getEntry_record (w : Write) (hw : w.Valid) (key : LookupKey) (value : Bytes) (st : Status) :
    MemTable.getEntry icmp key w.record value st =
      some (if icmp.userComparator.compare w.userKey key.userKey = 0 then
        (if w.type = kTypeValue then (true, w.value, st) else (true, value, .notFound "")) else (false, value, st)) := by
  have hk := hw.userKey_lt
  have hlen : (UInt32.ofNat w.internalKey.length).toNat = w.userKey.length + 8 := by
    rw [uint32_toNat_ofNat, length_internalKey]; omega
  have hptr : w.internalKey ++ (encodeVarint32 (UInt32.ofNat w.value.length) ++ w.value) =
      w.userKey ++ (encodeFixed64 (packSequenceAndType w.sequence w.type) ++
        (encodeVarint32 (UInt32.ofNat w.value.length) ++ w.value)) := by
    simp [Write.internalKey, appendInternalKey, putFixed64]
  have htag : ((packSequenceAndType w.sequence w.type &&& 0xff).toUInt8) = w.type := by
    rw [uint8_eq_iff, uint64_toNat_toUInt8, uint64_toNat_and_0xff, toNat_packSequenceAndType _ _ hw.sequence_le]
    have := uint8_toNat_lt w.type
    omega
  rw [w.record_eq hw, MemTable.getEntry, List.append_assoc, List.append_assoc, getVarint32_encodeVarint32]
  simp only [bind, Option.bind, hlen, hptr]
  rw [if_neg (by simp), Nat.add_sub_cancel, List.take_left, List.drop_left, decodeFixed64_encodeFixed64, htag]
  have hval : getLengthPrefixedSlice (encodeVarint32 (UInt32.ofNat w.value.length) ++ w.value) = some w.value := by
    simpa using getLengthPrefixedSlice_append w.value [] hw.value_lt
  split_ifs with hu hv hd
  · rw [show w.userKey.length + 8 = w.userKey.length + (encodeFixed64 (packSequenceAndType w.sequence w.type)).length
      by simp, ← List.drop_drop, List.drop_left, List.drop_left, hval]
    rfl
  · rfl
  · rcases hw.type_eq with h | h <;> contradiction
  · rfl

theorem not_lt_lookupKey_iff (w : Write) (hw : w.Valid) (u : Bytes) (s : UInt64) (hs : s ≤ kMaxSequenceNumber) :
    0 ≤ icmp.compare w.internalKey (appendInternalKey [] ⟨u, s, kValueTypeForSeek⟩) ↔
      0 < icmp.userComparator.compare w.userKey u ∨ (icmp.userComparator.compare w.userKey u = 0 ∧ w.sequence ≤ s) := by
  have h := compare_appendInternalKey_lt_iff icmp ⟨w.userKey, w.sequence, w.type⟩ ⟨u, s, kValueTypeForSeek⟩
    hw.sequence_le hs
  have ht : w.type.toNat ≤ 1 := by rcases hw.type_eq with h | h <;> rw [h] <;> decide
  rw [Write.internalKey, ← not_lt, h, uint64_le_iff]
  simp only [show kValueTypeForSeek.toNat = 1 from rfl]
  omega

theorem get_records (es : List Write) (hv : ∀ e ∈ es, e.Valid) (key : LookupKey) (tk : Bytes)
    (htk : getLengthPrefixedSlice key.memtableKey = some tk) (value : Bytes) (st : Status) :
    MemTable.get icmp ⟨es.map Write.record⟩ key value st =
      match es.find? (fun e => decide (0 ≤ icmp.compare e.internalKey tk)) with
      | none => some (false, value, st)
      | some f => some (if icmp.userComparator.compare f.userKey key.userKey = 0 then
          (if f.type = kTypeValue then (true, f.value, st) else (true, value, .notFound "")) else (false, value, st)) := by
  rw [MemTable.get, skipListSeek_records key.memtableKey tk htk es hv]
  rcases hf : es.find? (fun e => decide (0 ≤ icmp.compare e.internalKey tk)) with _ | f
  · simp only [hf]; rfl
  · simp only [hf, Option.map_some', Option.some_bind]
    exact getEntry_record icmp f (hv f (List.mem_of_find?_eq_some hf)) key value st

theorem find?_newest (hu : Comparator.Lawful icmp.userComparator.compare) (es : List Write)
    (hv : ∀ e ∈ es, e.Valid) (hsorted : Sorted icmp es)
    (hdistinct : es.Pairwise fun a b => ¬ (icmp.userComparator.compare a.userKey b.userKey = 0 ∧ a.sequence = b.sequence))
    (u : Bytes) (s : UInt64) (hs : s ≤ kMaxSequenceNumber) (w : Write) (hw : w ∈ es)
    (hwu : icmp.userComparator.compare w.userKey u = 0) (hws : w.sequence ≤ s)
    (hmax : ∀ e ∈ es, icmp.userComparator.compare e.userKey u = 0 → e.sequence ≤ s → e.sequence ≤ w.sequence) :
    es.find? (fun e => decide (0 ≤ icmp.compare e.internalKey (appendInternalKey [] ⟨u, s, kValueTypeForSeek⟩))) =
      some w := by
  have hpw : decide (0 ≤ icmp.compare w.internalKey (appendInternalKey [] ⟨u, s, kValueTypeForSeek⟩)) = true := by
    simpa using (not_lt_lookupKey_iff icmp w (hv w hw) u s hs).mpr (.inr ⟨hwu, hws⟩)
  obtain ⟨f, hf⟩ : ∃ f, es.find? (fun e => decide (0 ≤ icmp.compare e.internalKey
      (appendInternalKey [] ⟨u, s, kValueTypeForSeek⟩))) = some f := by
    rcases h : es.find? _ with _ | f
    · exact absurd hpw (by simpa using List.find?_eq_none.mp h w hw)
    · exact ⟨f, rfl⟩
  have hfmem := List.mem_of_find?_eq_some hf
  have hfv := hv f hfmem
  have hpf := (not_lt_lookupKey_iff icmp f hfv u s hs).mp (by simpa using List.find?_some hf)
  rw [hf]
  rcases find?_first hsorted hf w hw hpw with rfl | hle
  · rfl
  have hlt := compare_appendInternalKey_lt_iff icmp ⟨f.userKey, f.sequence, f.type⟩ ⟨w.userKey, w.sequence, w.type⟩
    hfv.sequence_le (hv w hw).sequence_le
  have heq := compare_appendInternalKey_eq_zero_iff icmp ⟨f.userKey, f.sequence, f.type⟩
    ⟨w.userKey, w.sequence, w.type⟩ hfv.sequence_le (hv w hw).sequence_le
  simp only [Write.internalKey] at hle
  dsimp only at hlt heq
  have hfw : icmp.userComparator.compare f.userKey w.userKey = 0 ∧
      w.sequence.toNat * 256 + w.type.toNat ≤ f.sequence.toNat * 256 + f.type.toNat := by
    have hwu' := (hu.eq_zero_comm _ _).mp hwu
    rcases hpf with hgt | ⟨hfu, _⟩
    · have := (hu.neg_iff_pos _ _).mpr hgt
      have := hu.lt_of_le_of_lt (le_of_eq hwu) this
      have := (hu.neg_iff_pos _ _).mp this
      rcases lt_or_eq_of_le hle with h | h
      · rcases hlt.mp h with h | ⟨h, _⟩ <;> omega
      · have := (heq.mp h).1; omega
    · have hfw := hu.eq_zero_trans hfu hwu'
      refine ⟨hfw, ?_⟩
      rcases lt_or_eq_of_le hle with h | h
      · rcases hlt.mp h with h | ⟨_, h⟩ <;> omega
      · exact le_of_eq (heq.mp h).2.symm
  have hfs : f.sequence ≤ s := by
    rcases hpf with hgt | ⟨_, h⟩
    · have := hu.eq_zero_trans hfw.1 hwu; omega
    · exact h
  have hseq : f.sequence = w.sequence := by
    have h1 := hmax f hfmem (hu.eq_zero_trans hfw.1 hwu) hfs
    have ht := (hv w hw).type_eq
    have hft := uint8_toNat_lt f.type
    rw [uint64_le_iff] at h1
    rw [uint64_eq_iff]
    rcases ht with h | h <;> rw [h] at hfw <;> simp only [kTypeDeletion, kTypeValue] at hfw <;>
      have := hfw.2 <;> simp at this <;> omega
  congr 1
  by_contra hne
  have hsymm : Symmetric fun a b : Write =>
      ¬ (icmp.userComparator.compare a.userKey b.userKey = 0 ∧ a.sequence = b.sequence) :=
    fun _ _ h h' => h ⟨(hu.eq_zero_comm _ _).mp h'.1, h'.2.symm⟩
  exact hdistinct.forall hsymm hfmem hw hne ⟨hfw.1, hseq⟩

end Get

theorem memtable_get_newest (icmp : InternalKeyComparator) (hu : Comparator.Lawful icmp.userComparator.compare)
    (htotal : ∀ a b, icmp.userComparator.compare a b = 0 → a = b) (ws : List Write) (hv : ∀ w ∈ ws, w.Valid)
    (hdistinct : ws.Pairwise fun a b =>
      ¬ (icmp.userComparator.compare a.userKey b.userKey = 0 ∧ a.sequence = b.sequence))
    (u : Bytes) (s : UInt64) (hs : s ≤ kMaxSequenceNumber) (value : Bytes) (st : Status) :
    ∃ mt, MemTable.new.addAll icmp ws = some mt ∧
      ((∀ w ∈ ws, icmp.userComparator.compare w.userKey u = 0 → s < w.sequence) →
        mt.get icmp (LookupKey.new u s) value st = some (false, value, st)) ∧
      ∀ w ∈ ws, icmp.userComparator.compare w.userKey u = 0 → w.sequence ≤ s →
        (∀ w' ∈ ws, icmp.userComparator.compare w'.userKey u = 0 → w'.sequence ≤ s → w'.sequence ≤ w.sequence) →
        mt.get icmp (LookupKey.new u s) value st =
          some (if w.type = kTypeValue then (true, w.value, st) else (true, value, .notFound "")) := by
  obtain ⟨es, hrun, hperm, hsorted⟩ :=
    addAll_records (compare_lawful icmp hu) ws [] hv (fun _ h => absurd h (List.not_mem_nil _)) List.Pairwise.nil
  rw [List.nil_append] at hperm
  have hmem : ∀ e, e ∈ es ↔ e ∈ ws := fun e => hperm.mem_iff
  have hves : ∀ e ∈ es, e.Valid := fun e he => hv e ((hmem e).mp he)
  have hdis := hperm.symm.pairwise hdistinct fun h h' => h ⟨(hu.eq_zero_comm _ _).mp h'.1, h'.2.symm⟩
  refine ⟨⟨es.map Write.record⟩, hrun, fun hnone => ?_, fun w hw hwu hws hmax => ?_⟩
  · rw [get_records icmp es hves _ _ (getLengthPrefixedSlice_memtableKey u s), userKey_new]
    rcases hf : es.find? _ with _ | f
    · rfl
    · have hfmem := List.mem_of_find?_eq_some hf
      have hfv := hves f hfmem
      refine congrArg some (if_neg fun hfu => ?_)
      by_cases hsmall : u.length + 8 < 2 ^ 32
      · have hpf := List.find?_some hf
        rw [Nat.mod_eq_of_lt hsmall, List.take_of_length_le (by simp [appendInternalKey, putFixed64])] at hpf
        rcases (not_lt_lookupKey_iff icmp f hfv u s hs).mp (by simpa using hpf) with h | ⟨_, h⟩
        · omega
        · have hlt := hnone f ((hmem f).mp hfmem) hfu
          rw [uint64_lt_iff] at hlt
          rw [uint64_le_iff] at h
          omega
      · have := hfv.userKey_lt
        rw [htotal _ _ hfu] at this
        exact hsmall this
  · have hsmall : u.length + 8 < 2 ^ 32 := htotal _ _ hwu ▸ (hv w hw).userKey_lt
    rw [get_records icmp es hves _ _ (getLengthPrefixedSlice_memtableKey_of_lt u s hsmall), userKey_new,
      find?_newest icmp hu es hves hsorted hdis u s hs w ((hmem w).mpr hw) hwu hws
        fun e he => hmax e ((hmem e).mp he)]
    simp only [hwu, if_true]

section Encodings

variable (s : UInt64) (u : Bytes)

theorem length_entry (t : UInt8) (v : Bytes) (hu : u.length + 8 < 2 ^ 32) (hv : v.length < 2 ^ 32) :
    (MemTable.entry s t u v).length = MemTable.encodedLen u v := by
  simp only [MemTable.entry, MemTable.encodedLen, List.length_append, length_encodeVarint32, uint32_toNat_ofNat,
    length_encodeFixed64, Nat.mod_eq_of_lt hu, Nat.mod_eq_of_lt hv]
  omega

theorem entry_eq (t : UInt8) (v : Bytes) :
    MemTable.entry s t u v = encodeVarint32 (UInt32.ofNat (u ++ encodeFixed64 ((s <<< 8) ||| t.toUInt64)).length) ++
      (u ++ encodeFixed64 ((s <<< 8) ||| t.toUInt64)) ++ (encodeVarint32 (UInt32.ofNat v.length) ++ v) := by
  simp [MemTable.entry]

theorem iteratorKey_entry (t : UInt8) (v : Bytes) (hu : u.length + 8 < 2 ^ 32) :
    MemTableIterator.key (MemTable.entry s t u v) = some (u ++ encodeFixed64 ((s <<< 8) ||| t.toUInt64)) :=
  (entry_eq s u t v).symm ▸ getLengthPrefixedSlice_append _ _ (by simpa using hu)

theorem iteratorValue_entry (t : UInt8) (v : Bytes) (hu : u.length + 8 < 2 ^ 32) (hv : v.length < 2 ^ 32) :
    MemTableIterator.value (MemTable.entry s t u v) = some v := by
  have hk : (UInt32.ofNat (u ++ encodeFixed64 ((s <<< 8) ||| t.toUInt64)).length).toNat =
      (u ++ encodeFixed64 ((s <<< 8) ||| t.toUInt64)).length := by
    simp only [uint32_toNat_ofNat, List.length_append, length_encodeFixed64]; omega
  rw [entry_eq, MemTableIterator.value, List.append_assoc, getVarint32_encodeVarint32]
  simp only [bind, Option.some_bind]
  rw [hk, if_pos (by simp only [List.length_append]; omega), List.drop_left]
  simpa using getLengthPrefixedSlice_append v [] hv

theorem length_lookupKey_le : (LookupKey.new u s).buf.length ≤ u.length + 13 := by
  have := length_varintBytes_le 5 (UInt32.ofNat (u.length + 8)).toNat
  simp only [LookupKey.new, encodeVarint32, List.length_append, length_encodeFixed64]
  omega

variable {s} (hs : s ≤ kMaxSequenceNumber)
include hs

theorem internalKey_lookupKey :
    (LookupKey.new u s).internalKey = u ++ encodeFixed64 ((s <<< 8) ||| kValueTypeForSeek.toUInt64) := by
  simp [LookupKey.new, LookupKey.internalKey, shiftLeft_or_eq_packSequenceAndType s _ hs]

theorem entry_eq_memtableKey_append (v : Bytes) :
    MemTable.entry s kValueTypeForSeek u v =
      (LookupKey.new u s).memtableKey ++ (encodeVarint32 (UInt32.ofNat v.length) ++ v) := by
  simp [MemTable.entry, LookupKey.memtableKey, LookupKey.new, shiftLeft_or_eq_packSequenceAndType s _ hs]

theorem encodeKey_internalKey : encodeKey (LookupKey.new u s).internalKey = (LookupKey.new u s).memtableKey := by
  rw [internalKey_lookupKey u hs]
  simp [encodeKey, putVarint32, LookupKey.memtableKey, LookupKey.new, shiftLeft_or_eq_packSequenceAndType s _ hs]

end Encodings

theorem memtable_record_encoding (s : UInt64) (t : UInt8) (u v : Bytes) (hs : s ≤ kMaxSequenceNumber)
    (hu : u.length + 8 < 2 ^ 32) (hv : v.length < 2 ^ 32) :
    (MemTable.entry s t u v).length = MemTable.encodedLen u v ∧
      MemTableIterator.key (MemTable.entry s t u v) = some (u ++ encodeFixed64 ((s <<< 8) ||| t.toUInt64)) ∧
      MemTableIterator.value (MemTable.entry s t u v) = some v ∧
      (LookupKey.new u s).buf.length ≤ u.length + 13 ∧
      (∀ v' : Bytes, MemTable.entry s kValueTypeForSeek u v' =
        (LookupKey.new u s).memtableKey ++ (encodeVarint32 (UInt32.ofNat v'.length) ++ v')) ∧
      encodeKey (LookupKey.new u s).internalKey = (LookupKey.new u s).memtableKey ∧
      (LookupKey.new u s).internalKey = u ++ encodeFixed64 ((s <<< 8) ||| kValueTypeForSeek.toUInt64) ∧
      (LookupKey.new u s).userKey = u :=
  ⟨length_entry s u t v hu hv, iteratorKey_entry s u t v hu, iteratorValue_entry s u t v hu hv,
    length_lookupKey_le s u, entry_eq_memtableKey_append u hs, encodeKey_internalKey u hs,
    internalKey_lookupKey u hs, userKey_new u s⟩

theorem memtable_record_encoding_small :
    (7 : UInt64) ≤ kMaxSequenceNumber ∧ ([1, 2] : Bytes).length + 8 < 2 ^ 32 ∧ ([3] : Bytes).length < 2 ^ 32 ∧
      (MemTable.entry 7 kTypeValue [1, 2] [3]).length = MemTable.encodedLen [1, 2] [3] ∧
      MemTableIterator.key (MemTable.entry 7 kTypeValue [1, 2] [3]) =
        some (([1, 2] : Bytes) ++ encodeFixed64 (((7 : UInt64) <<< 8) ||| kTypeValue.toUInt64)) ∧
      MemTableIterator.value (MemTable.entry 7 kTypeValue [1, 2] [3]) = some [3] ∧
      (LookupKey.new [1, 2] 7).buf.length ≤ ([1, 2] : Bytes).length + 13 ∧
      (∀ v' : Bytes, MemTable.entry 7 kValueTypeForSeek [1, 2] v' =
        (LookupKey.new [1, 2] 7).memtableKey ++ (encodeVarint32 (UInt32.ofNat v'.length) ++ v')) ∧
      encodeKey (LookupKey.new [1, 2] 7).internalKey = (LookupKey.new [1, 2] 7).memtableKey ∧
      (LookupKey.new [1, 2] 7).internalKey =
        ([1, 2] : Bytes) ++ encodeFixed64 (((7 : UInt64) <<< 8) ||| kValueTypeForSeek.toUInt64) ∧
      (LookupKey.new [1, 2] 7).userKey = [1, 2] :=
  ⟨by decide, by decide, by decide,
    memtable_record_encoding 7 kTypeValue [1, 2] [3] (by decide) (by decide) (by decide)⟩

theorem memtable_get_newest_bytewise :
    Comparator.Lawful bytewiseCompare ∧ (∀ a b, bytewiseCompare a b = 0 → a = b) ∧
      (∀ w ∈ [(⟨5, kTypeValue, [1], [9]⟩ : Write), ⟨3, kTypeDeletion, [1], []⟩, ⟨4, kTypeValue, [2], [7]⟩],
        w.Valid) ∧
      [(⟨5, kTypeValue, [1], [9]⟩ : Write), ⟨3, kTypeDeletion, [1], []⟩, ⟨4, kTypeValue, [2], [7]⟩].Pairwise
        (fun a b => ¬ (bytewiseCompare a.userKey b.userKey = 0 ∧ a.sequence = b.sequence)) ∧
      (4 : UInt64) ≤ kMaxSequenceNumber ∧
      ∃ mt, MemTable.new.addAll ⟨⟨bytewiseCompare, fun a _ => a, id⟩⟩
          [⟨5, kTypeValue, [1], [9]⟩, ⟨3, kTypeDeletion, [1], []⟩, ⟨4, kTypeValue, [2], [7]⟩] = some mt ∧
        ((∀ w ∈ [(⟨5, kTypeValue, [1], [9]⟩ : Write), ⟨3, kTypeDeletion, [1], []⟩, ⟨4, kTypeValue, [2], [7]⟩],
            bytewiseCompare w.userKey [1] = 0 → 4 < w.sequence) →
          mt.get ⟨⟨bytewiseCompare, fun a _ => a, id⟩⟩ (LookupKey.new [1] 4) [] .ok = some (false, [], .ok)) ∧
        ∀ w ∈ [(⟨5, kTypeValue, [1], [9]⟩ : Write), ⟨3, kTypeDeletion, [1], []⟩, ⟨4, kTypeValue, [2], [7]⟩],
          bytewiseCompare w.userKey [1] = 0 → w.sequence ≤ 4 →
          (∀ w' ∈ [(⟨5, kTypeValue, [1], [9]⟩ : Write), ⟨3, kTypeDeletion, [1], []⟩, ⟨4, kTypeValue, [2], [7]⟩],
            bytewiseCompare w'.userKey [1] = 0 → w'.sequence ≤ 4 → w'.sequence ≤ w.sequence) →
          mt.get ⟨⟨bytewiseCompare, fun a _ => a, id⟩⟩ (LookupKey.new [1] 4) [] .ok =
            some (if w.type = kTypeValue then (true, w.value, .ok) else (true, [], .notFound "")) := by
  have hv : ∀ w ∈ [(⟨5, kTypeValue, [1], [9]⟩ : Write), ⟨3, kTypeDeletion, [1], []⟩, ⟨4, kTypeValue, [2], [7]⟩],
      w.Valid := by
    intro w hw
    simp only [List.mem_cons, List.mem_singleton, List.not_mem_nil, or_false] at hw
    rcases hw with rfl | rfl | rfl <;> exact ⟨by decide, by decide, by decide, by decide⟩
  exact ⟨bytewiseCompare_lawful, bytewiseCompare_eq_zero, hv, by decide, by decide,
    memtable_get_newest ⟨⟨bytewiseCompare, fun a _ => a, id⟩⟩ bytewiseCompare_lawful bytewiseCompare_eq_zero _ hv
      (by decide) [1] 4 (by decide) [] .ok⟩

end LevelDbProofs.Memtable
