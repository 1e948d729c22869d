import LevelDbProofs.Util

/-!
`table/block_builder.cc`: prefix-compressed records, restart points, and the restart array as trailer.
The block reader is not in the repository; `decodeBlock` follows the format comment of the file.
-/

namespace LevelDbProofs.Block

open LevelDbProofs.Util

structure BlockBuilder where
  blockRestartInterval : Nat
  buffer : Bytes
  restarts : List UInt32
  counter : Nat
  finished : Bool
  lastKey : Bytes
  deriving DecidableEq, Repr

def BlockBuilder.new (blockRestartInterval : Nat) : BlockBuilder :=
  ⟨blockRestartInterval, [], [0], 0, false, []⟩

def BlockBuilder.reset (b : BlockBuilder) : BlockBuilder :=
  { b with buffer := [], restarts := [0], counter := 0, finished := false, lastKey := [] }

def BlockBuilder.currentSizeEstimate (b : BlockBuilder) : Nat :=
  b.buffer.length + b.restarts.length * 4 + 4

def BlockBuilder.finish (b : BlockBuilder) : Bytes × BlockBuilder :=
  let buffer := putFixed32 (b.restarts.foldl putFixed32 b.buffer) (UInt32.ofNat b.restarts.length)
  (buffer, { b with buffer, finished := true })

def sharedPrefixLength : Bytes → Bytes → Nat
  | x :: xs, y :: ys => if x = y then sharedPrefixLength xs ys + 1 else 0
  | _, _ => 0

def BlockBuilder.addRecord (b : BlockBuilder) (shared : Nat) (key value : Bytes) : BlockBuilder :=
  let nonShared := key.length - shared
  let buffer := putVarint32 (putVarint32 (putVarint32 b.buffer (UInt32.ofNat shared))
    (UInt32.ofNat nonShared)) (UInt32.ofNat value.length)
  { b with buffer := buffer ++ key.drop shared ++ value, lastKey := resize b.lastKey shared ++ key.drop shared,
           counter := b.counter + 1 }

def BlockBuilder.add (b : BlockBuilder) (key value : Bytes) : BlockBuilder :=
  if b.counter < b.blockRestartInterval then b.addRecord (sharedPrefixLength b.lastKey key) key value
  else { b with restarts := b.restarts ++ [UInt32.ofNat b.buffer.length], counter := 0 }.addRecord 0 key value

def BlockBuilder.addAll (b : BlockBuilder) (kvs : List (Bytes × Bytes)) : BlockBuilder :=
  kvs.foldl (fun b kv => b.add kv.1 kv.2) b

theorem BlockBuilder.reset_eq_new (b : BlockBuilder) : b.reset = BlockBuilder.new b.blockRestartInterval := rfl

theorem BlockBuilder.finish_fst (b : BlockBuilder) :
    b.finish.1 = b.buffer ++ (b.restarts.map encodeFixed32).flatten ++ encodeFixed32 (UInt32.ofNat b.restarts.length) := by
  simp only [BlockBuilder.finish, putFixed32, foldl_putFixed32]

theorem BlockBuilder.length_finish (b : BlockBuilder) : b.finish.1.length = b.currentSizeEstimate := by
  rw [b.finish_fst]
  simp only [List.length_append, length_table, length_encodeFixed32, BlockBuilder.currentSizeEstimate]
  omega

section SharedPrefix

theorem sharedPrefixLength_le_left (a b : Bytes) : sharedPrefixLength a b ≤ a.length := by
  induction a generalizing b with
  | nil => simp [sharedPrefixLength]
  | cons x xs ih =>
    cases b with
    | nil => simp [sharedPrefixLength]
    | cons y ys => unfold sharedPrefixLength; split <;> simp [ih ys]

theorem sharedPrefixLength_le_right (a b : Bytes) : sharedPrefixLength a b ≤ b.length := by
  induction a generalizing b with
  | nil => simp [sharedPrefixLength]
  | cons x xs ih =>
    cases b with
    | nil => simp [sharedPrefixLength]
    | cons y ys => unfold sharedPrefixLength; split <;> simp [ih ys]

theorem take_sharedPrefixLength (a b : Bytes) :
    a.take (sharedPrefixLength a b) = b.take (sharedPrefixLength a b) := by
  induction a generalizing b with
  | nil => simp [sharedPrefixLength]
  | cons x xs ih =>
    cases b with
    | nil => simp [sharedPrefixLength]
    | cons y ys =>
      unfold sharedPrefixLength
      split
      · rename_i h; simp [h, ih ys]
      · simp

theorem le_sharedPrefixLength (a b : Bytes) (n : Nat) (ha : n ≤ a.length) (hb : n ≤ b.length)
    (h : a.take n = b.take n) : n ≤ sharedPrefixLength a b := by
  induction a generalizing b n with
  | nil => simp only [List.length_nil, Nat.le_zero] at ha; simp [ha]
  | cons x xs ih =>
    cases b with
    | nil => simp only [List.length_nil, Nat.le_zero] at hb; simp [hb]
    | cons y ys =>
      cases n with
      | zero => exact Nat.zero_le _
      | succ n =>
        simp only [List.take_succ_cons, List.cons.injEq] at h
        simp only [sharedPrefixLength, h.1, if_true]
        exact Nat.succ_le_succ (ih ys n (by simpa using ha) (by simpa using hb) h.2)

theorem resize_sharedPrefixLength (a b : Bytes) :
    resize a (sharedPrefixLength a b) ++ b.drop (sharedPrefixLength a b) = b := by
  rw [resize, Nat.sub_eq_zero_of_le (sharedPrefixLength_le_left a b), List.replicate_zero, List.append_nil,
    take_sharedPrefixLength, List.take_append_drop]

end SharedPrefix

structure Entry where
  shared : Nat
  key : Bytes
  value : Bytes
  deriving DecidableEq, Repr

def Entry.encode (e : Entry) : Bytes :=
  encodeVarint32 (UInt32.ofNat e.shared) ++ encodeVarint32 (UInt32.ofNat (e.key.length - e.shared)) ++
    encodeVarint32 (UInt32.ofNat e.value.length) ++ e.key.drop e.shared ++ e.value

def entriesFrom (R : Nat) : Bytes → Nat → List (Bytes × Bytes) → List Entry
  | _, _, [] => []
  | prev, i, (k, v) :: kvs => ⟨if i % R = 0 then 0 else sharedPrefixLength prev k, k, v⟩ :: entriesFrom R k (i + 1) kvs

def blockEntries (R : Nat) (kvs : List (Bytes × Bytes)) : List Entry := entriesFrom R [] 0 kvs

def entryOffset (es : List Entry) (i : Nat) : Nat := ((es.take i).map Entry.encode).flatten.length

/-- Modelled from the format comment of `block_builder.cc`: one record at the front of `input`, its key
rebuilt from the previous key `prev`; `none` where the record does not fit. -/
def decodeEntry (prev input : Bytes) : Option (Entry × Bytes) := do
  let (shared, input) ← getVarint32 input
  let (nonShared, input) ← getVarint32 input
  let (valueLength, input) ← getVarint32 input
  if shared.toNat ≤ prev.length ∧ nonShared.toNat + valueLength.toNat ≤ input.length then
    some (⟨shared.toNat, prev.take shared.toNat ++ input.take nonShared.toNat,
      (input.drop nonShared.toNat).take valueLength.toNat⟩, input.drop (nonShared.toNat + valueLength.toNat))
  else none

/-- Modelled from the format comment: records one after another to the end of `input`, reading at most
`fuel` of them. -/
def decodeEntriesFuel (prev : Bytes) : Nat → Bytes → Option (List Entry)
  | 0, input => if input = [] then some [] else none
  | fuel + 1, input =>
    if input = [] then some []
    else (decodeEntry prev input).bind fun r => (decodeEntriesFuel r.1.key fuel r.2).map (r.1 :: ·)

def decodeEntries (prev input : Bytes) : Option (List Entry) := decodeEntriesFuel prev input.length input

/-- Modelled from the format comment: the restart array and `num_restarts` at the end of the block, and
the records before them. -/
def decodeBlock (block : Bytes) : Option (List Nat × List Entry) :=
  if block.length < 4 then none
  else
    let numRestarts := (decodeFixed32 (block.drop (block.length - 4))).toNat
    if block.length < 4 * (numRestarts + 1) then none
    else
      let dataSize := block.length - 4 * (numRestarts + 1)
      let restarts := (List.range numRestarts).map fun j => (decodeFixed32 (block.drop (dataSize + 4 * j))).toNat
      (decodeEntries [] (block.take dataSize)).map fun es => (restarts, es)

section Entries

variable {R : Nat}

@[simp] theorem length_entriesFrom (prev : Bytes) (i : Nat) (kvs : List (Bytes × Bytes)) :
    (entriesFrom R prev i kvs).length = kvs.length := by
  induction kvs generalizing prev i with
  | nil => rfl
  | cons kv kvs ih => simp [entriesFrom, ih]

theorem map_entriesFrom (prev : Bytes) (i : Nat) (kvs : List (Bytes × Bytes)) :
    (entriesFrom R prev i kvs).map (fun e => (e.key, e.value)) = kvs := by
  induction kvs generalizing prev i with
  | nil => rfl
  | cons kv kvs ih => simp [entriesFrom, ih]

theorem entriesFrom_append_singleton (prev : Bytes) (i : Nat) (kvs : List (Bytes × Bytes)) (k v : Bytes) :
    entriesFrom R prev i (kvs ++ [(k, v)]) = entriesFrom R prev i kvs ++
      [⟨if (i + kvs.length) % R = 0 then 0 else sharedPrefixLength ((kvs.map Prod.fst).getLastD prev) k, k, v⟩] := by
  induction kvs generalizing prev i with
  | nil => simp [entriesFrom]
  | cons kv kvs ih =>
    obtain ⟨k', v'⟩ := kv
    rw [List.cons_append]
    simp only [entriesFrom, ih, List.map_cons, List.getLastD_cons, List.length_cons, List.cons_append,
      show i + 1 + kvs.length = i + (kvs.length + 1) by omega]

theorem take_entriesFrom (prev : Bytes) (i n : Nat) (kvs : List (Bytes × Bytes)) :
    (entriesFrom R prev i kvs).take n = entriesFrom R prev i (kvs.take n) := by
  induction kvs generalizing prev i n with
  | nil => simp [entriesFrom]
  | cons kv kvs ih => cases n <;> simp [entriesFrom, ih]

theorem drop_entriesFrom (prev : Bytes) (i n : Nat) (kvs : List (Bytes × Bytes)) :
    (entriesFrom R prev i kvs).drop n =
      entriesFrom R (((kvs.take n).map Prod.fst).getLastD prev) (i + n) (kvs.drop n) := by
  induction kvs generalizing prev i n with
  | nil => simp [entriesFrom]
  | cons kv kvs ih =>
    cases n with
    | zero => rfl
    | succ n =>
      obtain ⟨k, v⟩ := kv
      simp only [entriesFrom, List.drop_succ_cons, List.take_succ_cons, List.map_cons, List.getLastD_cons, ih,
        show i + (n + 1) = i + 1 + n by omega]

theorem shared_entriesFrom_succ (prev : Bytes) (i : Nat) (kvs : List (Bytes × Bytes)) (n : Nat)
    (hn : n + 1 < (entriesFrom R prev i kvs).length) :
    (entriesFrom R prev i kvs)[n + 1].shared =
      if (i + n + 1) % R = 0 then 0
      else sharedPrefixLength (entriesFrom R prev i kvs)[n].key (entriesFrom R prev i kvs)[n + 1].key := by
  induction kvs generalizing prev i n with
  | nil => simp at hn
  | cons kv kvs ih =>
    obtain ⟨k, v⟩ := kv
    cases n with
    | zero =>
      cases kvs with
      | nil => simp at hn
      | cons kv' kvs' => obtain ⟨k', v'⟩ := kv'; simp [entriesFrom]
    | succ n =>
      simp only [entriesFrom, List.getElem_cons_succ]
      rw [ih _ _ n (by simpa [entriesFrom] using hn), show i + 1 + n + 1 = i + (n + 1) + 1 by omega]

theorem shared_blockEntries_zero (kvs : List (Bytes × Bytes)) (h : 0 < (blockEntries R kvs).length) :
    (blockEntries R kvs)[0].shared = 0 := by
  cases kvs with
  | nil => simp [blockEntries] at h
  | cons kv kvs => simp [blockEntries, entriesFrom]

theorem shared_blockEntries_succ (kvs : List (Bytes × Bytes)) (n : Nat) (hn : n + 1 < (blockEntries R kvs).length) :
    (blockEntries R kvs)[n + 1].shared =
      if (n + 1) % R = 0 then 0 else sharedPrefixLength (blockEntries R kvs)[n].key (blockEntries R kvs)[n + 1].key := by
  simpa using shared_entriesFrom_succ [] 0 kvs n hn

end Entries

section Decode

theorem encodeVarint32_ne_nil (v : UInt32) : encodeVarint32 v ≠ [] := by
  unfold encodeVarint32 varintBytes
  split <;> simp

theorem length_encode_pos (e : Entry) : 0 < e.encode.length := by
  have := List.length_pos.mpr (encodeVarint32_ne_nil (UInt32.ofNat e.shared))
  simp only [Entry.encode, List.length_append]
  omega

theorem length_le_length_flatten_encode (es : List Entry) : es.length ≤ (es.map Entry.encode).flatten.length := by
  induction es with
  | nil => simp
  | cons e es ih =>
    have := length_encode_pos e
    simp only [List.map_cons, List.flatten_cons, List.length_append, List.length_cons]
    omega

theorem decodeEntry_encode (e : Entry) (prev rest : Bytes) (hs : e.shared ≤ prev.length)
    (hp : prev.take e.shared = e.key.take e.shared) (hsk : e.shared ≤ e.key.length)
    (hk : e.key.length < 2 ^ 32) (hv : e.value.length < 2 ^ 32) :
    decodeEntry prev (e.encode ++ rest) = some (e, rest) := by
  have h1 : (UInt32.ofNat e.shared).toNat = e.shared := by simp only [uint32_toNat_ofNat]; omega
  have h2 : (UInt32.ofNat (e.key.length - e.shared)).toNat = e.key.length - e.shared := by
    simp only [uint32_toNat_ofNat]; omega
  have h3 : (UInt32.ofNat e.value.length).toNat = e.value.length := by simp only [uint32_toNat_ofNat]; omega
  have hd : (e.key.drop e.shared).length = e.key.length - e.shared := List.length_drop _ _
  simp only [decodeEntry, Entry.encode, List.append_assoc, getVarint32_encodeVarint32, h1, h2, h3, bind,
    Option.bind]
  rw [if_pos ⟨hs, by simp only [List.length_append, hd]; omega⟩, ← hd, ← List.drop_drop, List.take_left,
    List.drop_left, List.take_left, List.drop_left, hp, List.take_append_drop]

variable {R : Nat}

theorem shared_fits (prev dprev k : Bytes) (i : Nat) (h : i % R = 0 ∨ dprev = prev) :
    let s := if i % R = 0 then 0 else sharedPrefixLength prev k
    s ≤ dprev.length ∧ dprev.take s = k.take s ∧ s ≤ k.length := by
  by_cases hi : i % R = 0
  · simp [hi]
  · obtain rfl := h.resolve_left hi
    simp only [hi, if_false]
    exact ⟨sharedPrefixLength_le_left _ _, take_sharedPrefixLength _ _, sharedPrefixLength_le_right _ _⟩

theorem decodeEntriesFuel_entriesFrom (kvs : List (Bytes × Bytes))
    (hkv : ∀ kv ∈ kvs, kv.1.length < 2 ^ 32 ∧ kv.2.length < 2 ^ 32) :
    ∀ (prev dprev : Bytes) (i fuel : Nat), (i % R = 0 ∨ dprev = prev) → kvs.length ≤ fuel →
      decodeEntriesFuel dprev fuel ((entriesFrom R prev i kvs).map Entry.encode).flatten =
        some (entriesFrom R prev i kvs) := by
  induction kvs with
  | nil => intro prev dprev i fuel _ _; cases fuel <;> rfl
  | cons kv kvs ih =>
    obtain ⟨k, v⟩ := kv
    intro prev dprev i fuel hprev hfuel
    obtain ⟨fuel, rfl⟩ : ∃ f, fuel = f + 1 := ⟨fuel - 1, by simp only [List.length_cons] at hfuel; omega⟩
    obtain ⟨hk, hv⟩ := hkv (k, v) (List.mem_cons_self _ _)
    obtain ⟨h1, h2, h3⟩ := shared_fits prev dprev k i hprev
    have hne := List.ne_nil_of_length_pos (length_encode_pos ⟨if i % R = 0 then 0 else sharedPrefixLength prev k, k, v⟩)
    simp only [entriesFrom, List.map_cons, List.flatten_cons]
    rw [decodeEntriesFuel, if_neg (List.append_ne_nil_of_left_ne_nil hne _), decodeEntry_encode _ _ _ h1 h2 h3 hk hv]
    simp only [Option.some_bind]
    rw [ih (fun kv h => hkv kv (List.mem_cons_of_mem _ h)) k k (i + 1) fuel (Or.inr rfl)
      (by simp only [List.length_cons] at hfuel; omega)]
    rfl

theorem decodeEntries_entriesFrom (kvs : List (Bytes × Bytes))
    (hkv : ∀ kv ∈ kvs, kv.1.length < 2 ^ 32 ∧ kv.2.length < 2 ^ 32) (prev dprev : Bytes) (i : Nat)
    (h : i % R = 0 ∨ dprev = prev) :
    decodeEntries dprev ((entriesFrom R prev i kvs).map Entry.encode).flatten = some (entriesFrom R prev i kvs) :=
  decodeEntriesFuel_entriesFrom kvs hkv prev dprev i _ h
    (by simpa using length_le_length_flatten_encode (entriesFrom R prev i kvs))

theorem decodeBlock_eq (data : Bytes) (rs : List UInt32) (hr : rs.length < 2 ^ 32) :
    decodeBlock (data ++ (rs.map encodeFixed32).flatten ++ encodeFixed32 (UInt32.ofNat rs.length)) =
      (decodeEntries [] data).map fun es => (rs.map UInt32.toNat, es) := by
  have hT : ((rs.map encodeFixed32).flatten).length = 4 * rs.length := length_table rs
  have hL : (data ++ (rs.map encodeFixed32).flatten ++ encodeFixed32 (UInt32.ofNat rs.length)).length =
      data.length + 4 * rs.length + 4 := by
    simp only [List.length_append, hT, length_encodeFixed32]
  have hlast : (data ++ (rs.map encodeFixed32).flatten ++ encodeFixed32 (UInt32.ofNat rs.length)).drop
      (data.length + 4 * rs.length + 4 - 4) = encodeFixed32 (UInt32.ofNat rs.length) := by
    rw [Nat.add_sub_cancel, List.drop_left' (by simp only [List.length_append, hT])]
  have hnum : (decodeFixed32 (encodeFixed32 (UInt32.ofNat rs.length))).toNat = rs.length := by
    have h := decodeFixed32_encodeFixed32 (UInt32.ofNat rs.length) []
    rw [List.append_nil] at h
    rw [h, uint32_toNat_ofNat, Nat.mod_eq_of_lt hr]
  have hds : data.length + 4 * rs.length + 4 - 4 * (rs.length + 1) = data.length := by omega
  have hrs : (List.range rs.length).map (fun j => (decodeFixed32 ((data ++ ((rs.map encodeFixed32).flatten ++
      encodeFixed32 (UInt32.ofNat rs.length))).drop (data.length + 4 * j))).toNat) = rs.map UInt32.toNat := by
    apply List.ext_getElem (by simp)
    intro j h1 h2
    have hj : j < rs.length := by simpa using h1
    rw [List.getElem_map, List.getElem_range, ← List.drop_drop, List.drop_left, Nat.mul_comm,
      decodeFixed32_table rs _ j hj, List.getD_eq_getElem?_getD, List.getElem?_eq_getElem hj, Option.getD_some,
      List.getElem_map]
  unfold decodeBlock
  simp only [hL, hlast, hnum, hds]
  rw [if_neg (by omega), if_neg (by omega), List.append_assoc, List.take_left, hrs]

end Decode

section Builder

variable {R : Nat} {b : BlockBuilder} {kvs : List (Bytes × Bytes)} {q : Nat}

structure BlockInv (R : Nat) (b : BlockBuilder) (kvs : List (Bytes × Bytes)) (q : Nat) : Prop where
  interval_eq : b.blockRestartInterval = R
  buffer_eq : b.buffer = ((blockEntries R kvs).map Entry.encode).flatten
  restarts_eq : b.restarts = (List.range (q + 1)).map fun j => UInt32.ofNat (entryOffset (blockEntries R kvs) (j * R))
  lastKey_eq : b.lastKey = (kvs.map Prod.fst).getLastD []
  counter_le : b.counter ≤ R
  length_eq : kvs.length = R * q + b.counter
  counter_pos : kvs ≠ [] → 0 < b.counter

theorem blockInv_new (R : Nat) : BlockInv R (BlockBuilder.new R) [] 0 :=
  ⟨rfl, rfl, by simp [BlockBuilder.new, entryOffset, blockEntries, entriesFrom], rfl, Nat.zero_le _, by simp [BlockBuilder.new],
    fun h => absurd rfl h⟩

theorem BlockBuilder.addRecord_buffer (b : BlockBuilder) (shared : Nat) (key value : Bytes) :
    (b.addRecord shared key value).buffer = b.buffer ++ (⟨shared, key, value⟩ : Entry).encode := by
  simp [BlockBuilder.addRecord, putVarint32, Entry.encode]

theorem entryOffset_append (es es' : List Entry) (n : Nat) (hn : n ≤ es.length) :
    entryOffset (es ++ es') n = entryOffset es n := by
  simp [entryOffset, List.take_append_of_le_length hn]

theorem entryOffset_length (es es' : List Entry) :
    entryOffset (es ++ es') es.length = (es.map Entry.encode).flatten.length := by
  simp [entryOffset]

theorem blockEntries_append_singleton (kvs : List (Bytes × Bytes)) (k v : Bytes) :
    blockEntries R (kvs ++ [(k, v)]) = blockEntries R kvs ++
      [⟨if kvs.length % R = 0 then 0 else sharedPrefixLength ((kvs.map Prod.fst).getLastD []) k, k, v⟩] := by
  simp [blockEntries, entriesFrom_append_singleton]

theorem restarts_append (kvs : List (Bytes × Bytes)) (e : List Entry) (q : Nat) (hq : R * q ≤ kvs.length) :
    ((List.range (q + 1)).map fun j => UInt32.ofNat (entryOffset (blockEntries R kvs ++ e) (j * R))) =
      (List.range (q + 1)).map fun j => UInt32.ofNat (entryOffset (blockEntries R kvs) (j * R)) := by
  apply List.map_congr_left
  intro j hj
  have : j * R ≤ R * q := by rw [Nat.mul_comm]; exact Nat.mul_le_mul_left _ (by simpa [Nat.lt_succ_iff] using hj)
  rw [entryOffset_append _ _ _ (by simp [blockEntries]; omega)]

theorem BlockInv.add (hR : 1 ≤ R) (h : BlockInv R b kvs q) (k v : Bytes) :
    BlockInv R (b.add k v) (kvs ++ [(k, v)]) (if b.counter < R then q else q + 1) := by
  have hmod : kvs.length % R = b.counter % R := by rw [h.length_eq, Nat.mul_add_mod]
  have hlast : ((kvs ++ [(k, v)]).map Prod.fst).getLastD [] = k := by simp
  unfold BlockBuilder.add
  rw [h.interval_eq]
  by_cases hc : b.counter < R
  · have hshared : (if kvs.length % R = 0 then 0 else sharedPrefixLength ((kvs.map Prod.fst).getLastD []) k) =
        sharedPrefixLength b.lastKey k := by
      rw [hmod, Nat.mod_eq_of_lt hc, ← h.lastKey_eq]
      split
      · rename_i h0
        have : kvs = [] := by by_contra hne; have := h.counter_pos hne; omega
        simp [h.lastKey_eq, this, sharedPrefixLength]
      · rfl
    simp only [hc, if_true]
    refine ⟨h.interval_eq, ?_, ?_, ?_, ?_, ?_, fun _ => ?_⟩
    · rw [BlockBuilder.addRecord_buffer, blockEntries_append_singleton, hshared, h.buffer_eq]; simp
    · rw [blockEntries_append_singleton, restarts_append _ _ _ (by have := h.length_eq; omega)]
      exact h.restarts_eq
    · rw [hlast]; exact resize_sharedPrefixLength _ _
    · show b.counter + 1 ≤ R; omega
    · show (kvs ++ [(k, v)]).length = R * q + (b.counter + 1); simp [h.length_eq]; omega
    · show 0 < b.counter + 1; omega
  · have hcR : b.counter = R := by have := h.counter_le; omega
    have hN : kvs.length = R * q + R := by rw [h.length_eq, hcR]
    have hshared : (if kvs.length % R = 0 then 0 else sharedPrefixLength ((kvs.map Prod.fst).getLastD []) k) = 0 := by
      rw [hmod, hcR, Nat.mod_self, if_pos rfl]
    simp only [hc, if_false]
    refine ⟨rfl, ?_, ?_, ?_, ?_, ?_, fun _ => ?_⟩
    · rw [BlockBuilder.addRecord_buffer, blockEntries_append_singleton, hshared, h.buffer_eq]; simp
    · show b.restarts ++ [UInt32.ofNat b.buffer.length] = _
      rw [List.range_succ, List.map_append, blockEntries_append_singleton,
        restarts_append _ _ _ (by omega), ← h.restarts_eq, h.buffer_eq, List.map_singleton,
        show (q + 1) * R = (blockEntries R kvs).length by simp [blockEntries, hN, Nat.succ_mul, Nat.mul_comm],
        entryOffset_length]
    · rw [hlast]; simp [BlockBuilder.addRecord, resize]
    · show 0 + 1 ≤ R; omega
    · show (kvs ++ [(k, v)]).length = R * (q + 1) + (0 + 1); simp [hN, Nat.mul_succ]
    · show 0 < 0 + 1; omega

theorem BlockInv.addAll (hR : 1 ≤ R) (kvs' : List (Bytes × Bytes)) :
    ∀ (b : BlockBuilder) (kvs : List (Bytes × Bytes)) (q : Nat), BlockInv R b kvs q →
      ∃ q', BlockInv R (b.addAll kvs') (kvs ++ kvs') q' := by
  induction kvs' with
  | nil => intro b kvs q h; exact ⟨q, by simpa [BlockBuilder.addAll] using h⟩
  | cons kv kvs' ih =>
    intro b kvs q h
    obtain ⟨q', h'⟩ := ih _ _ _ (h.add hR kv.1 kv.2)
    exact ⟨q', by simpa [BlockBuilder.addAll] using h'⟩

end Builder

section Finish

variable {R : Nat} {b : BlockBuilder} {kvs : List (Bytes × Bytes)} {q : Nat}

theorem flatten_encode_split (es : List Entry) (n : Nat) :
    (es.map Entry.encode).flatten = ((es.take n).map Entry.encode).flatten ++ ((es.drop n).map Entry.encode).flatten := by
  rw [← List.flatten_append, ← List.map_append, List.take_append_drop]

theorem take_flatten_entryOffset (es : List Entry) (n : Nat) :
    (es.map Entry.encode).flatten.take (entryOffset es n) = ((es.take n).map Entry.encode).flatten := by
  rw [flatten_encode_split es n, entryOffset, List.take_left]

theorem drop_flatten_entryOffset (es : List Entry) (n : Nat) :
    (es.map Entry.encode).flatten.drop (entryOffset es n) = ((es.drop n).map Entry.encode).flatten := by
  rw [flatten_encode_split es n, entryOffset, List.drop_left]

theorem entryOffset_le (es : List Entry) (n : Nat) : entryOffset es n ≤ (es.map Entry.encode).flatten.length := by
  rw [flatten_encode_split es n, List.length_append, entryOffset]; omega

theorem entryOffset_lt (es : List Entry) (m n : Nat) (hmn : m < n) (hn : n ≤ es.length) :
    entryOffset es m < entryOffset es n := by
  have h := length_le_length_flatten_encode ((es.drop m).take (n - m))
  have hl : ((es.drop m).take (n - m)).length = n - m := by simp; omega
  rw [entryOffset, entryOffset, show n = m + (n - m) by omega, List.take_add, List.map_append, List.flatten_append,
    List.length_append]
  omega

theorem restart_count (hR : 1 ≤ R) (N c : Nat) (hN : N = R * q + c) (hc : c ≤ R) (hpos : N ≠ 0 → 0 < c) :
    q + 1 = max 1 ((N + R - 1) / R) := by
  rcases Nat.eq_zero_or_pos c with rfl | hc0
  · have hq : q = 0 := by
      by_contra hq
      have : 0 < R * q := Nat.mul_pos hR (Nat.pos_of_ne_zero hq)
      exact absurd (hpos (by omega)) (by omega)
    subst hq
    rw [Nat.div_eq_of_lt (by simp at hN; omega)]
    rfl
  · rw [hN, show R * q + c + R - 1 = R * q + (c + R - 1) by omega, Nat.mul_add_div (by omega),
      Nat.div_eq_of_lt_le (k := 1) (by omega) (by omega)]
    omega

theorem BlockInv.decodeBlock_finish (h : BlockInv R b kvs q)
    (hkv : ∀ kv ∈ kvs, kv.1.length < 2 ^ 32 ∧ kv.2.length < 2 ^ 32) (hB : b.finish.1.length < 2 ^ 32) :
    decodeBlock b.finish.1 =
      some ((List.range (q + 1)).map (fun j => entryOffset (blockEntries R kvs) (j * R)), blockEntries R kvs) := by
  have hlen := b.length_finish
  rw [BlockBuilder.currentSizeEstimate] at hlen
  rw [b.finish_fst, decodeBlock_eq _ _ (by omega), h.buffer_eq, blockEntries,
    decodeEntries_entriesFrom kvs hkv [] [] 0 (Or.inr rfl), Option.map_some', h.restarts_eq, List.map_map]
  congr 2
  apply List.map_congr_left
  intro j _
  have := entryOffset_le (blockEntries R kvs) (j * R)
  rw [← h.buffer_eq] at this
  simp only [Function.comp, uint32_toNat_ofNat]
  exact Nat.mod_eq_of_lt (by omega)

theorem BlockInv.take_finish (h : BlockInv R b kvs q) :
    b.finish.1.take (b.finish.1.length - 4 * (q + 1 + 1)) = ((blockEntries R kvs).map Entry.encode).flatten := by
  have hlen := b.length_finish
  have hrl : b.restarts.length = q + 1 := by simp [h.restarts_eq]
  rw [BlockBuilder.currentSizeEstimate, hrl] at hlen
  rw [hlen, show b.buffer.length + (q + 1) * 4 + 4 - 4 * (q + 1 + 1) = b.buffer.length by omega,
    b.finish_fst, List.append_assoc, List.take_left, h.buffer_eq]

theorem BlockInv.addAll_new (hR : 1 ≤ R) (kvs : List (Bytes × Bytes)) :
    ∃ q, BlockInv R ((BlockBuilder.new R).addAll kvs) kvs q := by
  simpa using BlockInv.addAll hR kvs _ [] 0 (blockInv_new R)

theorem block_round_trip (R : Nat) (hR : 1 ≤ R) (b : BlockBuilder)
    (hb : b = BlockBuilder.new R ∨ ∃ b0 : BlockBuilder, b0.blockRestartInterval = R ∧ b = b0.reset)
    (kvs : List (Bytes × Bytes)) (hkv : ∀ kv ∈ kvs, kv.1.length < 2 ^ 32 ∧ kv.2.length < 2 ^ 32)
    (hB : (b.addAll kvs).finish.1.length < 2 ^ 32) :
    (decodeBlock (b.addAll kvs).finish.1).map (fun d => d.2.map fun e => (e.key, e.value)) = some kvs := by
  have hnew : b = BlockBuilder.new R := by
    rcases hb with rfl | ⟨b0, rfl, rfl⟩
    · rfl
    · exact b0.reset_eq_new
  subst hnew
  obtain ⟨q, h⟩ := BlockInv.addAll_new hR kvs
  rw [h.decodeBlock_finish hkv hB, Option.map_some', blockEntries, map_entriesFrom]

theorem block_round_trip_two_groups :
    1 ≤ 2 ∧ (BlockBuilder.new 2 = BlockBuilder.new 2 ∨
        ∃ b0 : BlockBuilder, b0.blockRestartInterval = 2 ∧ BlockBuilder.new 2 = b0.reset) ∧
      (∀ kv ∈ [([1], [7]), ([1, 2], []), ([3], [8, 9])], kv.1.length < 2 ^ 32 ∧ kv.2.length < 2 ^ 32) ∧
      ((BlockBuilder.new 2).addAll [([1], [7]), ([1, 2], []), ([3], [8, 9])]).finish.1.length < 2 ^ 32 ∧
      (decodeBlock ((BlockBuilder.new 2).addAll [([1], [7]), ([1, 2], []), ([3], [8, 9])]).finish.1).map
        (fun d => d.2.map fun e => (e.key, e.value)) = some [([1], [7]), ([1, 2], []), ([3], [8, 9])] :=
  ⟨by decide, Or.inl rfl, by decide, by decide,
    block_round_trip 2 (by decide) _ (Or.inl rfl) _ (by decide) (by decide)⟩

theorem block_restart_points (R : Nat) (hR : 1 ≤ R) (kvs : List (Bytes × Bytes))
    (hkv : ∀ kv ∈ kvs, kv.1.length < 2 ^ 32 ∧ kv.2.length < 2 ^ 32)
    (hB : ((BlockBuilder.new R).addAll kvs).finish.1.length < 2 ^ 32) :
    let B := ((BlockBuilder.new R).addAll kvs).finish.1
    ∃ restarts entries, decodeBlock B = some (restarts, entries) ∧
      entries.map (fun e => (e.key, e.value)) = kvs ∧
      restarts.length = max 1 ((kvs.length + R - 1) / R) ∧
      restarts.head? = some 0 ∧ restarts.Pairwise (· < ·) ∧
      (∀ j (hj : j < restarts.length),
        decodeEntries [] ((B.take (B.length - 4 * (restarts.length + 1))).take restarts[j]) =
          some (entries.take (j * R)) ∧
        decodeEntries [] ((B.take (B.length - 4 * (restarts.length + 1))).drop restarts[j]) =
          some (entries.drop (j * R))) ∧
      (∀ i (hi : i < entries.length), (i % R = 0 → entries[i].shared = 0) ∧
        (i % R ≠ 0 → entries[i].shared ≤ min entries[i - 1].key.length entries[i].key.length ∧
          entries[i - 1].key.take entries[i].shared = entries[i].key.take entries[i].shared ∧
          ∀ n ≤ min entries[i - 1].key.length entries[i].key.length,
            entries[i - 1].key.take n = entries[i].key.take n → n ≤ entries[i].shared)) := by
  intro B
  obtain ⟨q, h⟩ := BlockInv.addAll_new hR kvs
  have hN : kvs.length = (blockEntries R kvs).length := by simp [blockEntries]
  refine ⟨_, blockEntries R kvs, h.decodeBlock_finish hkv hB, map_entriesFrom _ _ _, ?_, ?_, ?_, ?_, ?_⟩
  · simp only [List.length_map, List.length_range]
    exact restart_count hR _ _ h.length_eq h.counter_le fun hN0 => h.counter_pos (List.ne_nil_of_length_pos (by omega))
  · simp [List.range_succ_eq_map, entryOffset]
  · rw [List.pairwise_map]
    refine (List.pairwise_lt_range _).imp_of_mem fun {a c} _ hc hac => entryOffset_lt _ _ _ ?_ ?_
    · exact Nat.mul_lt_mul_of_pos_right hac hR
    · have hc' : c ≤ q := Nat.lt_succ_iff.mp (List.mem_range.mp hc)
      have := h.length_eq
      rw [← hN, Nat.mul_comm]
      exact le_trans (Nat.mul_le_mul_left R hc') (by omega)
  · intro j hj
    simp only [List.length_map, List.length_range, B, h.take_finish, List.getElem_map, List.getElem_range]
    rw [take_flatten_entryOffset, drop_flatten_entryOffset, blockEntries, take_entriesFrom, drop_entriesFrom]
    exact ⟨decodeEntries_entriesFrom _ (fun kv hm => hkv kv (List.mem_of_mem_take hm)) [] [] 0 (Or.inr rfl),
      decodeEntries_entriesFrom _ (fun kv hm => hkv kv (List.mem_of_mem_drop hm)) _ [] _
        (Or.inl (by simp [Nat.mul_mod_left]))⟩
  · intro i hi
    cases i with
    | zero => exact ⟨fun _ => shared_blockEntries_zero kvs hi, fun h0 => absurd (Nat.zero_mod R) h0⟩
    | succ n =>
      have hs := shared_blockEntries_succ kvs n hi
      refine ⟨fun hz => by rw [hs, if_pos hz], fun hz => ?_⟩
      simp only [Nat.add_sub_cancel, hs, if_neg hz]
      exact ⟨le_min (sharedPrefixLength_le_left _ _) (sharedPrefixLength_le_right _ _), take_sharedPrefixLength _ _,
        fun m hm hm' => le_sharedPrefixLength _ _ m (hm.trans (min_le_left _ _)) (hm.trans (min_le_right _ _)) hm'⟩

theorem block_restart_points_five_records :
    1 ≤ 2 ∧
      (∀ kv ∈ [([1], []), ([1, 2], [5]), ([1, 3], []), ([2], [6]), ([2, 1], [])],
        kv.1.length < 2 ^ 32 ∧ kv.2.length < 2 ^ 32) ∧
      ((BlockBuilder.new 2).addAll [([1], []), ([1, 2], [5]), ([1, 3], []), ([2], [6]), ([2, 1], [])]).finish.1.length <
        2 ^ 32 ∧
      let B := ((BlockBuilder.new 2).addAll [([1], []), ([1, 2], [5]), ([1, 3], []), ([2], [6]), ([2, 1], [])]).finish.1
      ∃ restarts entries, decodeBlock B = some (restarts, entries) ∧
        entries.map (fun e => (e.key, e.value)) = [([1], []), ([1, 2], [5]), ([1, 3], []), ([2], [6]), ([2, 1], [])] ∧
        restarts.length = max 1 ((5 + 2 - 1) / 2) ∧
        restarts.head? = some 0 ∧ restarts.Pairwise (· < ·) ∧
        (∀ j (hj : j < restarts.length),
          decodeEntries [] ((B.take (B.length - 4 * (restarts.length + 1))).take restarts[j]) =
            some (entries.take (j * 2)) ∧
          decodeEntries [] ((B.take (B.length - 4 * (restarts.length + 1))).drop restarts[j]) =
            some (entries.drop (j * 2))) ∧
        (∀ i (hi : i < entries.length), (i % 2 = 0 → entries[i].shared = 0) ∧
          (i % 2 ≠ 0 → entries[i].shared ≤ min entries[i - 1].key.length entries[i].key.length ∧
            entries[i - 1].key.take entries[i].shared = entries[i].key.take entries[i].shared ∧
            ∀ n ≤ min entries[i - 1].key.length entries[i].key.length,
              entries[i - 1].key.take n = entries[i].key.take n → n ≤ entries[i].shared)) :=
  ⟨by decide, by decide, by decide, block_restart_points 2 (by decide) _ (by decide) (by decide)⟩

end Finish

theorem BlockBuilder.currentSizeEstimate_lt_add (b : BlockBuilder) (key value : Bytes) :
    b.currentSizeEstimate < (b.add key value).currentSizeEstimate := by
  have hrec : ∀ (b : BlockBuilder) shared, b.currentSizeEstimate < (b.addRecord shared key value).currentSizeEstimate :=
    fun b shared => by
      have := length_encode_pos ⟨shared, key, value⟩
      simp only [BlockBuilder.currentSizeEstimate, BlockBuilder.addRecord_buffer, List.length_append]
      exact Nat.add_lt_add_right (Nat.add_lt_add_right (Nat.lt_add_of_pos_right this) _) _
  unfold BlockBuilder.add
  split
  · exact hrec b _
  · refine Nat.lt_of_le_of_lt ?_ (hrec _ 0)
    simp [BlockBuilder.currentSizeEstimate]

theorem BlockBuilder.addAll_append_singleton (b : BlockBuilder) (kvs : List (Bytes × Bytes)) (kv : Bytes × Bytes) :
    b.addAll (kvs ++ [kv]) = (b.addAll kvs).add kv.1 kv.2 := by
  simp [BlockBuilder.addAll, List.foldl_append]

theorem block_size_estimate_exact (b : BlockBuilder) (kvs : List (Bytes × Bytes)) :
    (b.addAll kvs).finish.1.length = (b.addAll kvs).currentSizeEstimate ∧
      ∀ i < kvs.length,
        (b.addAll (kvs.take i)).currentSizeEstimate < (b.addAll (kvs.take (i + 1))).currentSizeEstimate := by
  refine ⟨(b.addAll kvs).length_finish, fun i hi => ?_⟩
  rw [List.take_succ, List.getElem?_eq_getElem hi, Option.toList_some, b.addAll_append_singleton]
  exact BlockBuilder.currentSizeEstimate_lt_add _ _ _

end LevelDbProofs.Block
