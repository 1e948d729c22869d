import LevelDbProofs.InternalKey

/-!
`table/filter_block.cc`: the filter block builder, which emits one filter per 2 KiB of data-block
offsets, and its reader.
-/

namespace LevelDbProofs.FilterBlock

open LevelDbProofs.Util LevelDbProofs.InternalKey

def kFilterBaseLg : Nat := 11

def kFilterBase : Nat := 2 ^ kFilterBaseLg

structure FilterBlockBuilder where
  keys : Bytes
  start : List Nat
  result : Bytes
  filterOffsets : List UInt32
  deriving DecidableEq, Repr

def FilterBlockBuilder.new : FilterBlockBuilder := ⟨[], [], [], []⟩

section Policy

variable (policy : FilterPolicy)

def FilterBlockBuilder.generateFilter (b : FilterBlockBuilder) : FilterBlockBuilder :=
  let numKeys := b.start.length
  if numKeys = 0 then { b with filterOffsets := b.filterOffsets ++ [UInt32.ofNat b.result.length] }
  else
    let start := b.start ++ [b.keys.length]
    let tmpKeys := (List.range numKeys).map fun i =>
      (b.keys.drop (start.getD i 0)).take (start.getD (i + 1) 0 - start.getD i 0)
    { keys := [], start := [], filterOffsets := b.filterOffsets ++ [UInt32.ofNat b.result.length],
      result := policy.createFilter tmpKeys b.result }

def FilterBlockBuilder.generateFiltersUpTo (filterIndex : Nat) : Nat → FilterBlockBuilder → FilterBlockBuilder
  | 0, b => b
  | fuel + 1, b =>
    if filterIndex > b.filterOffsets.length then
      generateFiltersUpTo filterIndex fuel (b.generateFilter policy)
    else b

def FilterBlockBuilder.startBlock (b : FilterBlockBuilder) (blockOffset : UInt64) : FilterBlockBuilder :=
  b.generateFiltersUpTo policy (blockOffset.toNat / kFilterBase) (blockOffset.toNat / kFilterBase)

def FilterBlockBuilder.addKey (b : FilterBlockBuilder) (key : Bytes) : FilterBlockBuilder :=
  { b with start := b.start ++ [b.keys.length], keys := b.keys ++ key }

def FilterBlockBuilder.finish (b : FilterBlockBuilder) : Bytes × FilterBlockBuilder :=
  let b := if b.start ≠ [] then b.generateFilter policy else b
  let arrayOffset := UInt32.ofNat b.result.length
  let result := putFixed32 (b.filterOffsets.foldl putFixed32 b.result) arrayOffset ++ [UInt8.ofNat kFilterBaseLg]
  (result, { b with result })

end Policy

structure FilterBlockReader where
  data : Bytes
  offset : Nat
  num : Nat
  baseLg : UInt8
  deriving DecidableEq, Repr

def FilterBlockReader.new (contents : Bytes) : FilterBlockReader :=
  let n := contents.length
  if n < 5 then ⟨[], 0, 0, 0⟩
  else
    let baseLg := contents.getD (n - 1) 0
    let lastWord := (decodeFixed32 (contents.drop (n - 5))).toNat
    if lastWord > n - 5 then ⟨[], 0, 0, baseLg⟩
    else ⟨contents, lastWord, (n - 5 - lastWord) / 4, baseLg⟩

/-- `block_offset >> base_lg_`; a shift by 64 or more is undefined, and the model takes it modulo 64. -/
def FilterBlockReader.bucket (r : FilterBlockReader) (blockOffset : UInt64) : Nat :=
  (blockOffset >>> r.baseLg.toUInt64).toNat

def FilterBlockReader.filterRange (r : FilterBlockReader) (index : Nat) : Nat × Nat :=
  ((decodeFixed32 (r.data.drop (r.offset + index * 4))).toNat,
    (decodeFixed32 (r.data.drop (r.offset + index * 4 + 4))).toNat)

def FilterBlockReader.keyMayMatch (policy : FilterPolicy) (r : FilterBlockReader) (blockOffset : UInt64)
    (key : Bytes) : Bool :=
  let index := r.bucket blockOffset
  if index < r.num then
    let start := (r.filterRange index).1
    let limit := (r.filterRange index).2
    if start ≤ limit ∧ limit ≤ r.offset then policy.keyMayMatch key ((r.data.drop start).take (limit - start))
    else if start = limit then false
    else true
  else true

theorem keyMayMatch_eq_false_iff (policy : FilterPolicy) (r : FilterBlockReader) (blockOffset : UInt64)
    (key : Bytes) :
    r.keyMayMatch policy blockOffset key = false ↔ r.bucket blockOffset < r.num ∧
      (((r.filterRange (r.bucket blockOffset)).1 ≤ (r.filterRange (r.bucket blockOffset)).2 ∧
          (r.filterRange (r.bucket blockOffset)).2 ≤ r.offset ∧
          policy.keyMayMatch key ((r.data.drop (r.filterRange (r.bucket blockOffset)).1).take
            ((r.filterRange (r.bucket blockOffset)).2 - (r.filterRange (r.bucket blockOffset)).1)) = false) ∨
        ((r.filterRange (r.bucket blockOffset)).1 = (r.filterRange (r.bucket blockOffset)).2 ∧
          r.offset < (r.filterRange (r.bucket blockOffset)).2)) := by
  simp only [FilterBlockReader.keyMayMatch]
  split_ifs <;> simp_all

def equalOffsetsPastData : Bytes := [50, 0, 0, 0, 50, 0, 0, 0, 0, 0, 0, 0, 11]

theorem keyMayMatch_equal_offsets_past_data :
    (FilterBlockReader.new equalOffsetsPastData).num = 2 ∧
      (FilterBlockReader.new equalOffsetsPastData).offset = 0 ∧
      (FilterBlockReader.new equalOffsetsPastData).filterRange 0 = (50, 50) ∧
      (FilterBlockReader.new equalOffsetsPastData).keyMayMatch ⟨fun _ dst => dst, fun _ _ => true⟩ 0 [1] = false :=
  ⟨rfl, rfl, rfl, rfl⟩

def FilterBlockReader.newReads (contents : Bytes) : List Nat :=
  if contents.length < 5 then [] else List.range' (contents.length - 5) 5

def FilterBlockReader.offsetReads (r : FilterBlockReader) (blockOffset : UInt64) : List Nat :=
  if r.bucket blockOffset < r.num then List.range' (r.offset + r.bucket blockOffset * 4) 8 else []

def FilterBlockReader.policySlice (r : FilterBlockReader) (blockOffset : UInt64) : Option (Nat × Nat) :=
  if r.bucket blockOffset < r.num ∧ (r.filterRange (r.bucket blockOffset)).1 ≤ (r.filterRange (r.bucket blockOffset)).2 ∧
      (r.filterRange (r.bucket blockOffset)).2 ≤ r.offset then
    some (r.filterRange (r.bucket blockOffset))
  else none

section Reads

theorem take_drop_congr {xs ys : Bytes} {a k : Nat} (h : ∀ i, a ≤ i → i < a + k → xs[i]? = ys[i]?) :
    (xs.drop a).take k = (ys.drop a).take k := by
  apply List.ext_getElem?
  intro j
  simp only [List.getElem?_take, List.getElem?_drop]
  split_ifs
  · exact h _ (Nat.le_add_right _ _) (by omega)
  · rfl

theorem FilterBlockReader.new_of_num_pos {contents : Bytes} (h : 0 < (FilterBlockReader.new contents).num) :
    5 ≤ contents.length ∧ (FilterBlockReader.new contents).data = contents ∧
      (FilterBlockReader.new contents).offset = (decodeFixed32 (contents.drop (contents.length - 5))).toNat ∧
      (FilterBlockReader.new contents).offset ≤ contents.length - 5 ∧
      (FilterBlockReader.new contents).num =
        (contents.length - 5 - (FilterBlockReader.new contents).offset) / 4 := by
  dsimp only [FilterBlockReader.new] at h ⊢
  split_ifs at h ⊢ with h5 hlw
  · exact absurd h (Nat.lt_irrefl 0)
  · exact absurd h (Nat.lt_irrefl 0)
  · dsimp only at h ⊢
    exact ⟨by omega, rfl, rfl, by omega, rfl⟩

theorem FilterBlockReader.new_congr {contents other : Bytes} (hlen : other.length = contents.length)
    (h : ∀ i ∈ FilterBlockReader.newReads contents, other[i]? = contents[i]?) :
    (FilterBlockReader.new other).offset = (FilterBlockReader.new contents).offset ∧
      (FilterBlockReader.new other).num = (FilterBlockReader.new contents).num ∧
      (FilterBlockReader.new other).baseLg = (FilterBlockReader.new contents).baseLg := by
  unfold FilterBlockReader.newReads at h
  by_cases hn : contents.length < 5
  · simp [FilterBlockReader.new, hn, hlen]
  rw [if_neg hn] at h
  have hw : (other.drop (contents.length - 5)).take 4 = (contents.drop (contents.length - 5)).take 4 :=
    take_drop_congr fun i h1 h2 => h i (List.mem_range'_1.2 ⟨h1, by omega⟩)
  have hb : other.getD (contents.length - 1) 0 = contents.getD (contents.length - 1) 0 := by
    rw [List.getD_eq_getElem?_getD, List.getD_eq_getElem?_getD, h _ (List.mem_range'_1.2 ⟨by omega, by omega⟩)]
  have hd : decodeFixed32 (other.drop (contents.length - 5)) = decodeFixed32 (contents.drop (contents.length - 5)) := by
    simp only [decodeFixed32, hw]
  simp only [FilterBlockReader.new, hlen, hn, hb, hd, if_false]
  split_ifs <;> exact ⟨rfl, rfl, rfl⟩

theorem FilterBlockReader.filterRange_congr (r : FilterBlockReader) {data : Bytes} (index : Nat)
    (h : ∀ i, r.offset + index * 4 ≤ i → i < r.offset + index * 4 + 8 → data[i]? = r.data[i]?) :
    { r with data }.filterRange index = r.filterRange index := by
  have h1 : (data.drop (r.offset + index * 4)).take 4 = (r.data.drop (r.offset + index * 4)).take 4 :=
    take_drop_congr fun i h1 h2 => h i h1 (by omega)
  have h2 : (data.drop (r.offset + index * 4 + 4)).take 4 = (r.data.drop (r.offset + index * 4 + 4)).take 4 :=
    take_drop_congr fun i h1 h2 => h i (by omega) (by omega)
  simp only [FilterBlockReader.filterRange, decodeFixed32, h1, h2]

theorem FilterBlockReader.keyMayMatch_congr (policy : FilterPolicy) (r : FilterBlockReader) (blockOffset : UInt64)
    (key : Bytes) {data : Bytes} (hreads : ∀ i ∈ r.offsetReads blockOffset, data[i]? = r.data[i]?)
    (hslice : ∀ s l, r.policySlice blockOffset = some (s, l) → ∀ i, s ≤ i → i < l → data[i]? = r.data[i]?) :
    { r with data }.keyMayMatch policy blockOffset key = r.keyMayMatch policy blockOffset key := by
  have hbucket : { r with data }.bucket blockOffset = r.bucket blockOffset := rfl
  unfold FilterBlockReader.keyMayMatch
  rw [hbucket]
  by_cases hb : r.bucket blockOffset < r.num
  swap
  · simp only [if_neg hb]
  unfold FilterBlockReader.offsetReads at hreads
  rw [if_pos hb] at hreads
  have hrange := r.filterRange_congr (r.bucket blockOffset) fun i h1 h2 =>
    hreads i (List.mem_range'_1.2 ⟨h1, h2⟩)
  simp only [if_pos hb, hrange]
  by_cases hc : (r.filterRange (r.bucket blockOffset)).1 ≤ (r.filterRange (r.bucket blockOffset)).2 ∧
      (r.filterRange (r.bucket blockOffset)).2 ≤ r.offset
  · have hs := hslice (r.filterRange (r.bucket blockOffset)).1 (r.filterRange (r.bucket blockOffset)).2
      (if_pos ⟨hb, hc⟩)
    rw [if_pos hc, if_pos hc, take_drop_congr fun i h1 h2 => hs i h1 (by omega)]
  · rw [if_neg hc, if_neg hc]

end Reads

theorem filter_block_reader_reads_in_bounds (contents : Bytes) (blockOffset : UInt64) :
    let n := contents.length
    let r := FilterBlockReader.new contents
    let lastWord := (decodeFixed32 (contents.drop (n - 5))).toNat
    (∀ i ∈ FilterBlockReader.newReads contents, 5 ≤ n ∧ n - 5 ≤ i ∧ i < n) ∧
    (∀ other : Bytes, other.length = n → (∀ i ∈ FilterBlockReader.newReads contents, other[i]? = contents[i]?) →
      (FilterBlockReader.new other).offset = r.offset ∧ (FilterBlockReader.new other).num = r.num ∧
        (FilterBlockReader.new other).baseLg = r.baseLg) ∧
    (∀ i ∈ r.offsetReads blockOffset, lastWord ≤ i ∧ i < n - 1) ∧
    (∀ s l, r.policySlice blockOffset = some (s, l) → s ≤ l ∧ l ≤ lastWord) ∧
    (∀ (policy : FilterPolicy) (key data : Bytes), (∀ i ∈ r.offsetReads blockOffset, data[i]? = contents[i]?) →
      (∀ s l, r.policySlice blockOffset = some (s, l) → ∀ i, s ≤ i → i < l → data[i]? = contents[i]?) →
      { r with data }.keyMayMatch policy blockOffset key = r.keyMayMatch policy blockOffset key) := by
  intro n r lastWord
  have hdata : r.bucket blockOffset < r.num → r.data = contents ∧ r.offset = lastWord ∧
      r.offset ≤ n - 5 ∧ r.num = (n - 5 - r.offset) / 4 := fun hb =>
    (FilterBlockReader.new_of_num_pos (Nat.lt_of_le_of_lt (Nat.zero_le _) hb)).2
  refine ⟨fun i hi => ?_, fun other hlen h => FilterBlockReader.new_congr hlen h, fun i hi => ?_,
    fun s l hsl => ?_, fun policy key data hreads hslice => ?_⟩
  · unfold FilterBlockReader.newReads at hi
    split_ifs at hi with h5
    · exact absurd hi (List.not_mem_nil i)
    · have := List.mem_range'_1.1 hi; omega
  · unfold FilterBlockReader.offsetReads at hi
    split_ifs at hi with hb
    · obtain ⟨-, ho, hle, hnum⟩ := hdata hb
      have := List.mem_range'_1.1 hi
      rw [hnum] at hb
      have : (r.bucket blockOffset + 1) * 4 ≤ n - 5 - r.offset := by
        have := Nat.mul_le_of_le_div 4 _ _ (Nat.succ_le_of_lt hb); omega
      omega
    · exact absurd hi (List.not_mem_nil i)
  · unfold FilterBlockReader.policySlice at hsl
    split_ifs at hsl with hc
    · rw [Option.some_inj] at hsl
      rw [hsl] at hc
      exact ⟨hc.2.1, (hdata hc.1).2.1 ▸ hc.2.2⟩
  · by_cases hb : r.bucket blockOffset < r.num
    · rw [← (hdata hb).1] at hreads hslice
      exact r.keyMayMatch_congr policy blockOffset key hreads hslice
    · exact r.keyMayMatch_congr policy blockOffset key
        (fun i hi => by simp [FilterBlockReader.offsetReads, hb] at hi)
        (fun s l h => by simp [FilterBlockReader.policySlice, hb] at h)

inductive FilterOp
  | startBlock (blockOffset : UInt64)
  | addKey (key : Bytes)
  deriving DecidableEq, Repr

def FilterBlockBuilder.apply (policy : FilterPolicy) (b : FilterBlockBuilder) : FilterOp → FilterBlockBuilder
  | .startBlock o => b.startBlock policy o
  | .addKey k => b.addKey k

def FilterBlockBuilder.run (policy : FilterPolicy) (b : FilterBlockBuilder) (ops : List FilterOp) :
    FilterBlockBuilder :=
  ops.foldl (FilterBlockBuilder.apply policy) b

def startsInOrder (policy : FilterPolicy) : FilterBlockBuilder → List FilterOp → Bool
  | _, [] => true
  | b, .startBlock o :: ops =>
    decide (b.filterOffsets.length ≤ o.toNat / kFilterBase) && startsInOrder policy (b.startBlock policy o) ops
  | b, .addKey k :: ops => startsInOrder policy (b.addKey k) ops

def bucketAfter (c : Nat) : List FilterOp → Nat
  | [] => c
  | .startBlock o :: ops => bucketAfter (o.toNat / kFilterBase) ops
  | .addKey _ :: ops => bucketAfter c ops

def keysIn (c : Nat) : List FilterOp → Nat → List Bytes
  | [], _ => []
  | .startBlock o :: ops, i => keysIn (o.toNat / kFilterBase) ops i
  | .addKey k :: ops, i => (if c = i then [k] else []) ++ keysIn c ops i

def filterCount (ops : List FilterOp) : Nat :=
  if keysIn 0 ops (bucketAfter 0 ops) = [] then bucketAfter 0 ops else bucketAfter 0 ops + 1

def filterOf (policy : FilterPolicy) (keys : List Bytes) : Bytes :=
  if keys = [] then [] else policy.createFilter keys []

def filterList (policy : FilterPolicy) (ops : List FilterOp) : List Bytes :=
  (List.range (filterCount ops)).map fun i => filterOf policy (keysIn 0 ops i)

def prefixOffsets {α : Type} (xs : List (List α)) : List Nat :=
  (List.range xs.length).map fun i => (xs.take i).flatten.length

section Slices

variable {α : Type}

theorem prefixOffsets_append_singleton (xs : List (List α)) (x : List α) :
    prefixOffsets (xs ++ [x]) = prefixOffsets xs ++ [xs.flatten.length] := by
  simp only [prefixOffsets, List.length_append, List.length_singleton, List.range_succ, List.map_append,
    List.map_singleton, List.take_left' rfl]
  congr 1
  apply List.map_congr_left
  intro i hi
  rw [List.take_append_of_le_length (by simpa using (List.mem_range.mp hi).le)]

theorem length_prefixOffsets (xs : List (List α)) : (prefixOffsets xs).length = xs.length := by
  simp [prefixOffsets]

theorem getD_prefixOffsets (xs : List (List α)) (i : Nat) (hi : i ≤ xs.length) :
    (prefixOffsets xs ++ [xs.flatten.length]).getD i 0 = (xs.take i).flatten.length := by
  rcases Nat.lt_or_eq_of_le hi with hi | rfl
  · rw [List.getD_eq_getElem?_getD, List.getElem?_append_left (by simpa [length_prefixOffsets] using hi)]
    simp [prefixOffsets, hi]
  · rw [List.getD_eq_getElem?_getD, List.getElem?_append_right (by simp [length_prefixOffsets])]
    simp [length_prefixOffsets, List.take_length]

theorem length_flatten_take_le (xs : List (List α)) (i j : Nat) (hij : i ≤ j) :
    (xs.take i).flatten.length ≤ (xs.take j).flatten.length := by
  have h := congrArg (fun l => (List.flatten l).length) (List.take_append_drop i (xs.take j))
  simp only [List.flatten_append, List.length_append, List.take_take, Nat.min_eq_left hij] at h
  omega

theorem length_flatten_take_le_flatten (xs : List (List α)) (i : Nat) :
    (xs.take i).flatten.length ≤ xs.flatten.length := by
  have h := congrArg (fun l => (List.flatten l).length) (List.take_append_drop i xs)
  simp only [List.flatten_append, List.length_append] at h
  omega

theorem slice_flatten (xs : List (List α)) (t : List α) (i : Nat) (hi : i < xs.length) :
    ((xs.flatten ++ t).drop (xs.take i).flatten.length).take
      ((xs.take (i + 1)).flatten.length - (xs.take i).flatten.length) = xs[i] := by
  have hflat : xs.flatten = (xs.take i).flatten ++ (xs[i] ++ (xs.drop (i + 1)).flatten) := by
    have h := List.take_append_drop i xs
    rw [List.drop_eq_getElem_cons hi] at h
    calc xs.flatten = (xs.take i ++ xs[i] :: xs.drop (i + 1)).flatten := congrArg List.flatten h.symm
      _ = _ := by simp only [List.flatten_append, List.flatten_cons]
  have htake : xs.take (i + 1) = xs.take i ++ [xs[i]] := by
    rw [List.take_succ, List.getElem?_eq_getElem hi]; rfl
  have hlen : (xs.take (i + 1)).flatten.length - (xs.take i).flatten.length = xs[i].length := by
    rw [htake, List.flatten_append]; simp
  rw [hlen, hflat, List.append_assoc, List.drop_left, List.append_assoc, List.take_left]

theorem slices_eq (xs : List (List α)) :
    ((List.range xs.length).map fun i =>
      (xs.flatten.drop ((prefixOffsets xs ++ [xs.flatten.length]).getD i 0)).take
        ((prefixOffsets xs ++ [xs.flatten.length]).getD (i + 1) 0 -
          (prefixOffsets xs ++ [xs.flatten.length]).getD i 0)) = xs := by
  apply List.ext_getElem (by simp)
  intro i h1 h2
  simp only [List.getElem_map, List.getElem_range]
  have hi : i < xs.length := by simpa using h1
  rw [getD_prefixOffsets xs i hi.le, getD_prefixOffsets xs (i + 1) hi]
  simpa using slice_flatten xs [] i hi

end Slices

def offsetArray (filters : List Bytes) : List UInt32 :=
  (prefixOffsets filters).map UInt32.ofNat ++ [UInt32.ofNat filters.flatten.length]

def encodeFilterBlock (filters : List Bytes) : Bytes :=
  filters.flatten ++ ((offsetArray filters).map encodeFixed32).flatten ++ [UInt8.ofNat kFilterBaseLg]

def closedFilters (policy : FilterPolicy) (K : Nat → List Bytes) (c : Nat) : List Bytes :=
  (List.range c).map fun i => filterOf policy (K i)

structure BuilderInv (policy : FilterPolicy) (b : FilterBlockBuilder) (K : Nat → List Bytes) (c : Nat) : Prop where
  result_eq : b.result = (closedFilters policy K c).flatten
  filterOffsets_eq : b.filterOffsets = (prefixOffsets (closedFilters policy K c)).map UInt32.ofNat
  keys_eq : b.keys = (K c).flatten
  start_eq : b.start = prefixOffsets (K c)
  later_empty : ∀ i, c < i → K i = []

section Builder

variable {policy : FilterPolicy} {b : FilterBlockBuilder} {K : Nat → List Bytes} {c : Nat}

theorem length_closedFilters : (closedFilters policy K c).length = c := by
  simp [closedFilters]

theorem closedFilters_succ : closedFilters policy K (c + 1) = closedFilters policy K c ++ [filterOf policy (K c)] := by
  simp [closedFilters, List.range_succ]

theorem BuilderInv.length_filterOffsets (h : BuilderInv policy b K c) : b.filterOffsets.length = c := by
  rw [h.filterOffsets_eq]; simp [length_prefixOffsets, length_closedFilters]

theorem builderInv_new : BuilderInv policy FilterBlockBuilder.new (fun _ => []) 0 :=
  ⟨rfl, rfl, rfl, rfl, fun _ _ => rfl⟩

theorem BuilderInv.generateFilter (happ : policy.AppendsOnly) (h : BuilderInv policy b K c) :
    BuilderInv policy (b.generateFilter policy) K (c + 1) := by
  have hnext : K (c + 1) = [] := h.later_empty _ (Nat.lt_succ_self c)
  have hoff : b.filterOffsets ++ [UInt32.ofNat b.result.length] =
      (prefixOffsets (closedFilters policy K (c + 1))).map UInt32.ofNat := by
    rw [closedFilters_succ, prefixOffsets_append_singleton, h.filterOffsets_eq, h.result_eq]; simp
  unfold FilterBlockBuilder.generateFilter
  dsimp only
  split
  · rename_i h0
    have hK : K c = [] := by
      rw [h.start_eq, List.length_eq_zero, ← List.length_eq_zero, length_prefixOffsets, List.length_eq_zero] at h0
      exact h0
    refine ⟨?_, hoff, ?_, ?_, fun i hi => h.later_empty i (by omega)⟩
    · rw [h.result_eq, closedFilters_succ, hK]; simp [filterOf]
    · rw [h.keys_eq, hK, hnext]
    · rw [h.start_eq, hK, hnext]
  · rename_i h0
    have hK : K c ≠ [] := by
      intro hK; apply h0; rw [h.start_eq, length_prefixOffsets, hK]; rfl
    have hlen : b.start.length = (K c).length := by rw [h.start_eq, length_prefixOffsets]
    have htmp := slices_eq (K c)
    rw [← h.keys_eq, ← h.start_eq, ← hlen] at htmp
    refine ⟨?_, hoff, ?_, ?_, fun i hi => h.later_empty i (by omega)⟩
    · dsimp only
      rw [htmp, happ, h.result_eq, closedFilters_succ]
      simp [filterOf, hK]
    · rw [hnext]; rfl
    · rw [hnext]; rfl

theorem BuilderInv.generateFiltersUpTo (happ : policy.AppendsOnly) (j : Nat) :
    ∀ (fuel : Nat) (b : FilterBlockBuilder) (c : Nat), BuilderInv policy b K c → c ≤ j → j - c ≤ fuel →
      BuilderInv policy (b.generateFiltersUpTo policy j fuel) K j := by
  intro fuel
  induction fuel with
  | zero =>
    intro b c h hcj hf
    rwa [show j = c by omega]
  | succ fuel ih =>
    intro b c h hcj hf
    unfold FilterBlockBuilder.generateFiltersUpTo
    rw [h.length_filterOffsets]
    split
    · exact ih _ (c + 1) (h.generateFilter happ) (by omega) (by omega)
    · rwa [show j = c by omega]

theorem BuilderInv.startBlock (happ : policy.AppendsOnly) (h : BuilderInv policy b K c) (o : UInt64)
    (ho : c ≤ o.toNat / kFilterBase) : BuilderInv policy (b.startBlock policy o) K (o.toNat / kFilterBase) :=
  BuilderInv.generateFiltersUpTo happ _ _ b c h ho (by omega)

theorem BuilderInv.addKey (h : BuilderInv policy b K c) (k : Bytes) :
    BuilderInv policy (b.addKey k) (Function.update K c (K c ++ [k])) c := by
  have hclosed : closedFilters policy (Function.update K c (K c ++ [k])) c = closedFilters policy K c := by
    apply List.map_congr_left
    intro i hi
    rw [Function.update_noteq (by have := List.mem_range.mp hi; omega)]
  refine ⟨?_, ?_, ?_, ?_, fun i hi => ?_⟩
  · rw [hclosed]; exact h.result_eq
  · rw [hclosed]; exact h.filterOffsets_eq
  · simp [FilterBlockBuilder.addKey, h.keys_eq]
  · simp [FilterBlockBuilder.addKey, h.start_eq, h.keys_eq, prefixOffsets_append_singleton]
  · rw [Function.update_noteq (by omega)]; exact h.later_empty i hi

theorem BuilderInv.run (happ : policy.AppendsOnly) (ops : List FilterOp) :
    ∀ (b : FilterBlockBuilder) (K : Nat → List Bytes) (c : Nat), BuilderInv policy b K c →
      startsInOrder policy b ops = true →
      BuilderInv policy (b.run policy ops) (fun i => K i ++ keysIn c ops i) (bucketAfter c ops) := by
  induction ops with
  | nil =>
    intro b K c h _
    simpa [FilterBlockBuilder.run, keysIn, bucketAfter] using h
  | cons op ops ih =>
    intro b K c h hv
    cases op with
    | startBlock o =>
      simp only [startsInOrder, Bool.and_eq_true, decide_eq_true_eq, h.length_filterOffsets] at hv
      exact ih _ K _ (h.startBlock happ o hv.1) hv.2
    | addKey k =>
      have hK : (fun i => Function.update K c (K c ++ [k]) i ++ keysIn c ops i) =
          fun i => K i ++ keysIn c (.addKey k :: ops) i := by
        funext i
        by_cases hi : i = c
        · subst hi; simp [keysIn]
        · simp [keysIn, Function.update_noteq hi, Ne.symm hi]
      have := ih _ _ c (h.addKey k) hv
      rwa [hK] at this

theorem BuilderInv.finish (happ : policy.AppendsOnly) (h : BuilderInv policy b K c) :
    (b.finish policy).1 = encodeFilterBlock (closedFilters policy K (if K c = [] then c else c + 1)) := by
  have hstart : b.start = [] ↔ K c = [] := by
    rw [h.start_eq, ← List.length_eq_zero, length_prefixOffsets, List.length_eq_zero]
  unfold FilterBlockBuilder.finish
  by_cases hK : K c = []
  · simp only [hstart.not, hK, ne_eq, not_true_eq_false, if_false, if_true]
    rw [putFixed32, foldl_putFixed32, h.filterOffsets_eq, h.result_eq, encodeFilterBlock, offsetArray]
    simp [List.append_assoc]
  · have h' := h.generateFilter happ
    simp only [hstart.not, hK, ne_eq, not_false_eq_true, if_true, if_false]
    rw [putFixed32, foldl_putFixed32, h'.filterOffsets_eq, h'.result_eq, encodeFilterBlock, offsetArray]
    simp [List.append_assoc]

end Builder

section Reader

variable (filters : List Bytes) (hT : filters.flatten.length < 2 ^ 32)
include hT

theorem toNat_offsetArray (i : Nat) (hi : i ≤ filters.length) :
    ((offsetArray filters).getD i 0).toNat = (filters.take i).flatten.length := by
  have hle := length_flatten_take_le_flatten filters i
  rw [List.getD_eq_getElem?_getD]
  rcases Nat.lt_or_eq_of_le hi with hi | rfl
  · rw [offsetArray, List.getElem?_append_left (by simpa [length_prefixOffsets] using hi), List.getElem?_map,
      prefixOffsets, List.getElem?_map, List.getElem?_range hi]
    simp only [Option.map_some', Option.getD_some, uint32_toNat_ofNat]
    exact Nat.mod_eq_of_lt (lt_of_le_of_lt hle hT)
  · rw [offsetArray, List.getElem?_append_right (by simp [length_prefixOffsets])]
    simp only [List.length_map, length_prefixOffsets, Nat.sub_self, List.getElem?_cons_zero, Option.getD_some,
      uint32_toNat_ofNat, List.take_length]
    exact Nat.mod_eq_of_lt hT

theorem new_encodeFilterBlock :
    FilterBlockReader.new (encodeFilterBlock filters) =
      ⟨encodeFilterBlock filters, filters.flatten.length, filters.length, UInt8.ofNat kFilterBaseLg⟩ := by
  let X := filters.flatten ++ (((prefixOffsets filters).map UInt32.ofNat).map encodeFixed32).flatten
  have hsplit : encodeFilterBlock filters = X ++ (encodeFixed32 (UInt32.ofNat filters.flatten.length) ++
      [UInt8.ofNat kFilterBaseLg]) := by
    simp [X, encodeFilterBlock, offsetArray, List.append_assoc]
  have hX : X.length = filters.flatten.length + 4 * filters.length := by
    simp only [X, List.length_append, length_table, List.length_map, length_prefixOffsets]
  have hlen : (encodeFilterBlock filters).length = X.length + 5 := by rw [hsplit]; simp
  have hlast : (decodeFixed32 ((encodeFilterBlock filters).drop (X.length + 5 - 5))).toNat =
      filters.flatten.length := by
    rw [Nat.add_sub_cancel, hsplit, List.drop_left' rfl, decodeFixed32_encodeFixed32, uint32_toNat_ofNat]
    exact Nat.mod_eq_of_lt hT
  have hlg : (encodeFilterBlock filters).getD (X.length + 5 - 1) 0 = UInt8.ofNat kFilterBaseLg := by
    rw [hsplit, List.getD_eq_getElem?_getD, List.getElem?_append_right (by omega)]
    simp
  unfold FilterBlockReader.new
  simp only [hlen, hlast, hlg]
  rw [if_neg (by omega), if_neg (by omega)]
  congr 1
  omega

theorem filterRange_encodeFilterBlock (i : Nat) (hi : i < filters.length) :
    (FilterBlockReader.new (encodeFilterBlock filters)).filterRange i =
      ((filters.take i).flatten.length, (filters.take (i + 1)).flatten.length) := by
  have hdrop : ∀ j, (encodeFilterBlock filters).drop (filters.flatten.length + j * 4) =
      (((offsetArray filters).map encodeFixed32).flatten ++ [UInt8.ofNat kFilterBaseLg]).drop (j * 4) := by
    intro j; rw [encodeFilterBlock, List.append_assoc, List.drop_append]
  have hn : (offsetArray filters).length = filters.length + 1 := by simp [offsetArray, length_prefixOffsets]
  rw [new_encodeFilterBlock filters hT, FilterBlockReader.filterRange]
  dsimp only
  rw [hdrop, show filters.flatten.length + i * 4 + 4 = filters.flatten.length + (i + 1) * 4 by ring, hdrop,
    decodeFixed32_table _ _ _ (by omega), decodeFixed32_table _ _ _ (by omega),
    toNat_offsetArray filters hT i hi.le, toNat_offsetArray filters hT (i + 1) hi]

theorem keyMayMatch_encodeFilterBlock (policy : FilterPolicy) (o : UInt64) (q : Bytes) :
    (FilterBlockReader.new (encodeFilterBlock filters)).keyMayMatch policy o q =
      if h : o.toNat >>> kFilterBaseLg < filters.length then policy.keyMayMatch q filters[o.toNat >>> kFilterBaseLg]
      else true := by
  have hb : (FilterBlockReader.new (encodeFilterBlock filters)).bucket o = o.toNat >>> kFilterBaseLg := by
    rw [new_encodeFilterBlock filters hT]; rfl
  unfold FilterBlockReader.keyMayMatch
  rw [hb]
  split
  · rename_i hi
    have hr := filterRange_encodeFilterBlock filters hT _ hi
    have hmono := length_flatten_take_le filters (o.toNat >>> kFilterBaseLg) (o.toNat >>> kFilterBaseLg + 1)
      (Nat.le_succ _)
    have htot := length_flatten_take_le_flatten filters (o.toNat >>> kFilterBaseLg + 1)
    have hs := slice_flatten filters ((((offsetArray filters).map encodeFixed32).flatten ++
      [UInt8.ofNat kFilterBaseLg])) _ hi
    rw [new_encodeFilterBlock filters hT] at hr ⊢
    simp only [hr, hmono, htot, and_self, if_true, dif_pos hi]
    rw [encodeFilterBlock, List.append_assoc, hs, if_pos hi]
  · rename_i hi
    rw [new_encodeFilterBlock filters hT]
    exact if_neg hi

end Reader

section RoundTrip

variable {policy : FilterPolicy} {ops : List FilterOp}

theorem length_filterList : (filterList policy ops).length = filterCount ops := by
  simp [filterList]

theorem finish_run (happ : policy.AppendsOnly) (hv : startsInOrder policy FilterBlockBuilder.new ops = true) :
    ((FilterBlockBuilder.new.run policy ops).finish policy).1 = encodeFilterBlock (filterList policy ops) := by
  rw [(BuilderInv.run happ ops _ _ 0 builderInv_new hv).finish happ]
  simp only [List.nil_append]
  rfl

theorem keyMayMatch_filterOf (hnf : policy.NoFalseNegatives) {keys : List Bytes} {k : Bytes} (hk : k ∈ keys) :
    policy.keyMayMatch k (filterOf policy keys) = true := by
  rw [filterOf, if_neg (List.ne_nil_of_mem hk)]
  exact hnf keys k hk

theorem keyMayMatch_run (happ : policy.AppendsOnly) (hv : startsInOrder policy FilterBlockBuilder.new ops = true)
    (hb : (filterList policy ops).flatten.length < 2 ^ 32) (o : UInt64) (q : Bytes) :
    (FilterBlockReader.new ((FilterBlockBuilder.new.run policy ops).finish policy).1).keyMayMatch policy o q =
      if o.toNat >>> kFilterBaseLg < filterCount ops then
        policy.keyMayMatch q (filterOf policy (keysIn 0 ops (o.toNat >>> kFilterBaseLg)))
      else true := by
  rw [finish_run happ hv, keyMayMatch_encodeFilterBlock _ hb]
  simp only [length_filterList]
  split_ifs <;> simp [filterList]

theorem filter_block_round_trip (policy : FilterPolicy) (happ : policy.AppendsOnly)
    (hnf : policy.NoFalseNegatives) (ops : List FilterOp)
    (hv : startsInOrder policy FilterBlockBuilder.new ops = true)
    (hb : (filterList policy ops).flatten.length < 2 ^ 32) :
    let r := FilterBlockReader.new ((FilterBlockBuilder.new.run policy ops).finish policy).1
    r.num = filterCount ops ∧
      (∀ i < filterCount ops, (r.filterRange i).1 ≤ (r.filterRange i).2 ∧ (r.filterRange i).2 ≤ r.offset ∧
        (r.data.drop (r.filterRange i).1).take ((r.filterRange i).2 - (r.filterRange i).1) =
          filterOf policy (keysIn 0 ops i)) ∧
      (∀ (o : UInt64) (q : Bytes), r.keyMayMatch policy o q =
        if o.toNat >>> kFilterBaseLg < filterCount ops then
          policy.keyMayMatch q (filterOf policy (keysIn 0 ops (o.toNat >>> kFilterBaseLg)))
        else true) ∧
      (∀ i, ∀ k ∈ keysIn 0 ops i, ∀ o : UInt64, o.toNat >>> kFilterBaseLg = i →
        r.keyMayMatch policy o k = true) ∧
      (∀ userPolicy : FilterPolicy, userPolicy.AppendsOnly → userPolicy.NoFalseNegatives →
        startsInOrder (internalFilterPolicy userPolicy) FilterBlockBuilder.new ops = true →
        (filterList (internalFilterPolicy userPolicy) ops).flatten.length < 2 ^ 32 →
        ∀ i, ∀ k ∈ keysIn 0 ops i, ∀ q, extractUserKey q = extractUserKey k →
          ∀ o : UInt64, o.toNat >>> kFilterBaseLg = i →
          (FilterBlockReader.new ((FilterBlockBuilder.new.run (internalFilterPolicy userPolicy) ops).finish
            (internalFilterPolicy userPolicy)).1).keyMayMatch (internalFilterPolicy userPolicy) o q = true) := by
  intro r
  have hr : r = FilterBlockReader.new (encodeFilterBlock (filterList policy ops)) :=
    congrArg FilterBlockReader.new (finish_run happ hv)
  refine ⟨?_, fun i hi => ?_, keyMayMatch_run happ hv hb, fun i k hk o ho => ?_,
    fun U hUa hUn hv' hb' i k hk q hq o ho => ?_⟩
  · rw [hr, new_encodeFilterBlock _ hb, length_filterList]
  · have hi' : i < (filterList policy ops).length := by rwa [length_filterList]
    rw [hr, filterRange_encodeFilterBlock _ hb i hi', new_encodeFilterBlock _ hb]
    dsimp only
    rw [encodeFilterBlock, List.append_assoc, slice_flatten _ _ _ hi']
    exact ⟨length_flatten_take_le _ i (i + 1) (Nat.le_succ i), length_flatten_take_le_flatten _ (i + 1),
      by simp [filterList]⟩
  · rw [keyMayMatch_run happ hv hb, ho]
    split_ifs
    · exact keyMayMatch_filterOf hnf hk
    · rfl
  · rw [keyMayMatch_run (internalFilterPolicy_appendsOnly hUa) hv' hb', ho]
    split_ifs
    · rw [filterOf, if_neg (List.ne_nil_of_mem hk)]
      exact internalFilterPolicy_keyMayMatch hUn hk q hq
    · rfl

def countingPolicy : FilterPolicy := ⟨fun keys dst => dst ++ [UInt8.ofNat keys.length], fun _ _ => true⟩

theorem filter_block_round_trip_two_buckets :
    countingPolicy.AppendsOnly ∧ countingPolicy.NoFalseNegatives ∧
      startsInOrder countingPolicy FilterBlockBuilder.new [.addKey [1], .startBlock 4096, .addKey [2]] = true ∧
      (filterList countingPolicy [.addKey [1], .startBlock 4096, .addKey [2]]).flatten.length < 2 ^ 32 ∧
      filterCount [.addKey [1], .startBlock 4096, .addKey [2]] = 3 :=
  have happ : countingPolicy.AppendsOnly := fun _ _ => by simp [countingPolicy]
  have hnf : countingPolicy.NoFalseNegatives := fun _ _ _ => rfl
  ⟨happ, hnf, by decide, by decide,
    (filter_block_round_trip countingPolicy happ hnf [.addKey [1], .startBlock 4096, .addKey [2]] (by decide)
      (by decide)).1.symm.trans (by decide)⟩

end RoundTrip

end LevelDbProofs.FilterBlock