import Mathlib.NumberTheory.LucasLehmer
import Mathlib.Tactic.ReduceModChar
import Mathlib.Tactic.NormNum.Prime
import Mathlib.FieldTheory.Finite.Basic
import LevelDbProofs.Util

/-!
`Random` of `util/random.h`, the Lehmer generator `seed_ = (seed_ * 16807) % (2^31 - 1)`. Undefined
behaviour is `none`.
-/

namespace LevelDbProofs

open LevelDbProofs.Util

@[ext] structure Random where
  seed : UInt32
  deriving DecidableEq, Repr

namespace Random

def M : UInt32 := 2147483647

def A : UInt64 := 16807

def new (s : UInt32) : Random :=
  let seed := s &&& 0x7fffffff
  ⟨if seed = 0 ∨ seed = 2147483647 then 1 else seed⟩

def next (r : Random) : Random × UInt32 :=
  let product := r.seed.toUInt64 * A
  let seed := ((product >>> 31) + (product &&& M.toUInt64)).toUInt32
  let seed := if seed > M then seed - M else seed
  (⟨seed⟩, seed)

def uniform (r : Random) (n : Int) : Option (Random × UInt32) :=
  let d := UInt32.ofNat (n % 2 ^ 32).toNat
  if d = 0 then none else some (r.next.1, r.next.2 % d)

def oneIn (r : Random) (n : Int) : Option (Random × Bool) :=
  (r.uniform n).map fun p => (p.1, p.2 == 0)

def skewed (r : Random) (maxLog : Int) : Option (Random × UInt32) :=
  if 2 ^ 31 ≤ maxLog + 1 then none
  else match r.uniform (maxLog + 1) with
    | none => none
    | some (r, base) => if 32 ≤ base.toNat then none else r.uniform (2 ^ base.toNat)

inductive Reachable : Random → Prop
  | new (s : UInt32) : Reachable (new s)
  | next {r : Random} : Reachable r → Reachable r.next.1

def calls {α : Type} (call : Random → Option (Random × α)) (r : Random) : Nat → Option (Random × List α)
  | 0 => some (r, [])
  | m + 1 => do
    let (r, xs) ← calls call r m
    let (r, x) ← call r
    return (r, xs ++ [x])

@[simp] theorem next_fst_seed (r : Random) : r.next.1.seed = r.next.2 := rfl

theorem toNat_new (s : UInt32) :
    (new s).seed.toNat =
      if s.toNat % 2 ^ 31 = 0 ∨ s.toNat % 2 ^ 31 = 2147483647 then 1 else s.toNat % 2 ^ 31 := by
  have hand : (s &&& 0x7fffffff).toNat = s.toNat % 2 ^ 31 := by
    rw [UInt32.and_toNat]
    exact Nat.and_pow_two_sub_one_eq_mod _ 31
  have h0 : (0 : UInt32).toNat = 0 := rfl
  have hM : (2147483647 : UInt32).toNat = 2147483647 := rfl
  simp only [new, uint32_eq_iff, hand, h0, hM]
  split_ifs
  · rfl
  · exact hand

theorem prime_M : Nat.Prime 2147483647 := by
  simpa [mersenne] using lucas_lehmer_sufficiency 31 (by norm_num) (by norm_num)

instance : Fact (Nat.Prime 2147483647) := ⟨prime_M⟩

theorem mul_A_mod_ne_zero {s : Nat} (h1 : 1 ≤ s) (h2 : s < 2147483647) : s * 16807 % 2147483647 ≠ 0 := by
  intro h
  rcases (Nat.Prime.dvd_mul prime_M).1 (Nat.dvd_of_mod_eq_zero h) with hs | hs
  · exact Nat.not_le_of_lt h2 (Nat.le_of_dvd h1 hs)
  · exact absurd (Nat.le_of_dvd (by decide) hs) (by decide)

theorem fold_mod_M (p : Nat) (hp : p % 2147483647 ≠ 0) (hb : p < 2 ^ 46) :
    (if 2147483647 < p / 2 ^ 31 + p % 2 ^ 31 then p / 2 ^ 31 + p % 2 ^ 31 - 2147483647
      else p / 2 ^ 31 + p % 2 ^ 31) = p % 2147483647 := by
  obtain ⟨s, hs⟩ : ∃ s, s = p / 2 ^ 31 + p % 2 ^ 31 := ⟨_, rfl⟩
  have hps : p % 2147483647 = s % 2147483647 := by
    have hp' : p = s + 2147483647 * (p / 2 ^ 31) := by omega
    rw [hp', Nat.add_mul_mod_self_left]
  have hlt : s < 2 * 2147483647 := by omega
  rw [← hs, hps]
  rw [hps] at hp
  split_ifs with h
  · rw [Nat.mod_eq_sub_mod (by omega), Nat.mod_eq_of_lt (by omega)]
  · have : s ≠ 2147483647 := fun he => hp (by rw [he, Nat.mod_self])
    exact (Nat.mod_eq_of_lt (by omega)).symm

theorem next_spec (r : Random) (h1 : 1 ≤ r.seed.toNat) (h2 : r.seed.toNat < 2147483647) :
    r.next.2.toNat = r.seed.toNat * 16807 % 2147483647 := by
  have hprod : (r.seed.toUInt64 * A).toNat = r.seed.toNat * 16807 :=
    show r.seed.toNat * 16807 % 2 ^ 64 = _ from Nat.mod_eq_of_lt (by omega)
  have hM : M.toNat = 2147483647 := rfl
  have hhi : ((r.seed.toUInt64 * A) >>> 31).toNat = r.seed.toNat * 16807 / 2 ^ 31 := by
    rw [uint64_toNat_shiftRight, hprod]
    exact Nat.shiftRight_eq_div_pow _ 31
  have hlo : ((r.seed.toUInt64 * A) &&& M.toUInt64).toNat = r.seed.toNat * 16807 % 2 ^ 31 := by
    rw [UInt64.and_toNat, hprod]
    exact Nat.and_pow_two_sub_one_eq_mod _ 31
  have hsum : (((r.seed.toUInt64 * A) >>> 31) + ((r.seed.toUInt64 * A) &&& M.toUInt64)).toUInt32.toNat =
      r.seed.toNat * 16807 / 2 ^ 31 + r.seed.toNat * 16807 % 2 ^ 31 := by
    show (_ + _ : UInt64).toNat % 2 ^ 32 = _
    rw [uint64_toNat_add, hhi, hlo]
    omega
  have hfold := fold_mod_M (r.seed.toNat * 16807) (mul_A_mod_ne_zero h1 h2) (by omega)
  simp only [next]
  split_ifs with hgt <;> simp only [gt_iff_lt, uint32_lt_iff, hsum, hM] at hgt
  · rw [uint32_toNat_sub, hsum, hM, ← hfold, if_pos hgt]
    omega
  · rw [hsum, ← hfold, if_neg hgt]

theorem Reachable.seed_mem {r : Random} (hr : r.Reachable) : 1 ≤ r.seed.toNat ∧ r.seed.toNat < 2147483647 := by
  induction hr with
  | new s =>
    rw [toNat_new]
    split_ifs with h <;> omega
  | next _ ih =>
    rw [next_fst_seed, next_spec _ ih.1 ih.2]
    exact ⟨Nat.one_le_iff_ne_zero.2 (mul_A_mod_ne_zero ih.1 ih.2), Nat.mod_lt _ (by norm_num)⟩

theorem Reachable.iterate {r : Random} (hr : r.Reachable) (k : Nat) :
    ((fun r : Random => r.next.1)^[k] r).Reachable := by
  induction k with
  | zero => exact hr
  | succ k ih => rw [Function.iterate_succ_apply']; exact ih.next

theorem Reachable.seed_iterate {r : Random} (hr : r.Reachable) (k : Nat) :
    ((fun r : Random => r.next.1)^[k] r).seed.toNat = r.seed.toNat * 16807 ^ k % 2147483647 := by
  induction k with
  | zero => simp [Nat.mod_eq_of_lt hr.seed_mem.2]
  | succ k ih =>
    have h := (hr.iterate k).seed_mem
    rw [Function.iterate_succ_apply', next_fst_seed, next_spec _ h.1 h.2, ih, Nat.mod_mul_mod, pow_succ,
      Nat.mul_assoc]

theorem toNat_divisor {n : Int} (h0 : 0 < n) (h1 : n < 2 ^ 32) : (UInt32.ofNat (n % 2 ^ 32).toNat).toNat = n.toNat := by
  rw [uint32_toNat_ofNat, Int.emod_eq_of_lt (by omega) (by omega)]
  omega

theorem uniform_eq_some {n : Int} (h0 : 0 < n) (h1 : n < 2 ^ 32) (r : Random) :
    r.uniform n = some (r.next.1, r.next.2 % UInt32.ofNat (n % 2 ^ 32).toNat) :=
  if_neg (by rw [uint32_eq_iff, toNat_divisor h0 h1]; simp; omega)

theorem uniform_eq {n : Int} (h0 : 0 < n) (h1 : n < 2 ^ 32) (r : Random) :
    ∃ v, r.uniform n = some (r.next.1, v) ∧ v.toNat = r.next.2.toNat % n.toNat :=
  ⟨_, uniform_eq_some h0 h1 r, by rw [UInt32.toNat_mod, toNat_divisor h0 h1]⟩

theorem calls_eq {α : Type} {call : Random → Option (Random × α)} {g : Random → α}
    (hcall : ∀ r, call r = some (r.next.1, g r)) (r : Random) (m : Nat) :
    r.calls call m = some ((fun r : Random => r.next.1)^[m] r,
      (List.range m).map fun k => g ((fun r : Random => r.next.1)^[k] r)) := by
  induction m with
  | zero => rfl
  | succ m ih =>
    simp only [calls, ih, hcall, Option.bind_eq_bind, Option.some_bind]
    rw [Function.iterate_succ_apply', List.range_succ, List.map_append]
    rfl

section Period

theorem prime_dvd_M_sub_one {q : Nat} (hq : q.Prime) (h : q ∣ 2147483646) :
    q = 2 ∨ q = 3 ∨ q = 7 ∨ q = 11 ∨ q = 31 ∨ q = 151 ∨ q = 331 := by
  have e : 2147483646 = 2 * (3 * (3 * (7 * (11 * (31 * (151 * 331)))))) := by norm_num
  rw [e] at h
  simp only [hq.dvd_mul] at h
  have hp : ∀ {r : Nat}, r.Prime → q ∣ r → q = r := fun hr h => (Nat.prime_dvd_prime_iff_eq hq hr).1 h
  rcases h with h | h | h | h | h | h | h | h
  · exact .inl (hp Nat.prime_two h)
  · exact .inr (.inl (hp Nat.prime_three h))
  · exact .inr (.inl (hp Nat.prime_three h))
  · exact .inr (.inr (.inl (hp (by norm_num) h)))
  · exact .inr (.inr (.inr (.inl (hp (by norm_num) h))))
  · exact .inr (.inr (.inr (.inr (.inl (hp (by norm_num) h)))))
  · exact .inr (.inr (.inr (.inr (.inr (.inl (hp (by norm_num) h))))))
  · exact .inr (.inr (.inr (.inr (.inr (.inr (hp (by norm_num) h))))))

theorem orderOf_A : orderOf (16807 : ZMod 2147483647) = 2147483646 := by
  refine orderOf_eq_of_pow_and_pow_div_prime (by norm_num)
    (ZMod.pow_card_sub_one_eq_one (by reduce_mod_char; decide)) fun q hq hd => ?_
  rcases prime_dvd_M_sub_one hq hd with rfl | rfl | rfl | rfl | rfl | rfl | rfl <;>
    simp only [Nat.reduceSub, Nat.reduceDiv] <;> reduce_mod_char <;> decide

theorem pow_A_inj {i j : Nat} (hi : i < 2147483646) (hj : j < 2147483646)
    (h : (16807 : ZMod 2147483647) ^ i = 16807 ^ j) : i = j :=
  pow_injOn_Iio_orderOf (by rw [Set.mem_Iio, orderOf_A]; exact hi) (by rw [Set.mem_Iio, orderOf_A]; exact hj) h

theorem exists_pow_A_eq {u : ZMod 2147483647} (hu : u ≠ 0) : ∃ k < 2147483646, (16807 : ZMod 2147483647) ^ k = u := by
  let S := (Finset.range 2147483646).image fun k => (16807 : ZMod 2147483647) ^ k
  have hcard : S.card = 2147483646 := by
    rw [Finset.card_image_of_injOn fun i hi j hj h =>
      pow_A_inj (Finset.mem_range.1 hi) (Finset.mem_range.1 hj) h, Finset.card_range]
  have hsub : S ⊆ Finset.univ.erase 0 := fun x hx => by
    obtain ⟨k, -, rfl⟩ := Finset.mem_image.1 hx
    exact Finset.mem_erase.2 ⟨pow_ne_zero _ (by decide), Finset.mem_univ _⟩
  have hS : S = Finset.univ.erase 0 := Finset.eq_of_subset_of_card_le hsub (by
    rw [Finset.card_erase_of_mem (Finset.mem_univ _), Finset.card_univ, ZMod.card, hcard])
  obtain ⟨k, hk, hku⟩ := Finset.mem_image.1 (hS ▸ Finset.mem_erase.2 ⟨hu, Finset.mem_univ u⟩ : u ∈ S)
  exact ⟨k, Finset.mem_range.1 hk, hku⟩

theorem seed_eq_iff_cast {u v : UInt32} (hu : u.toNat < 2147483647) (hv : v.toNat < 2147483647) :
    u = v ↔ (u.toNat : ZMod 2147483647) = v.toNat := by
  rw [uint32_eq_iff, ZMod.natCast_eq_natCast_iff' _ _ 2147483647, Nat.mod_eq_of_lt hu, Nat.mod_eq_of_lt hv]

theorem Reachable.cast_seed_iterate {r : Random} (hr : r.Reachable) (k : Nat) :
    ((((fun r : Random => r.next.1)^[k] r).seed.toNat : Nat) : ZMod 2147483647) =
      (r.seed.toNat : ZMod 2147483647) * 16807 ^ k := by
  rw [hr.seed_iterate, ZMod.natCast_mod]
  push_cast
  rfl

theorem natCast_ne_zero {v : Nat} (h1 : 1 ≤ v) (h2 : v < 2147483647) : (v : ZMod 2147483647) ≠ 0 := by
  rw [Ne, ZMod.natCast_zmod_eq_zero_iff_dvd]
  exact fun h => Nat.not_le_of_lt h2 (Nat.le_of_dvd h1 h)

theorem Reachable.seed_iterate_eq_iff {r : Random} (hr : r.Reachable) (k : Nat) {v : UInt32}
    (hv : v.toNat < 2147483647) :
    ((fun r : Random => r.next.1)^[k] r).seed = v ↔ (r.seed.toNat : ZMod 2147483647) * 16807 ^ k = v.toNat := by
  rw [seed_eq_iff_cast (hr.iterate k).seed_mem.2 hv, hr.cast_seed_iterate]

theorem Reachable.iterate_period {r : Random} (hr : r.Reachable) :
    (fun r : Random => r.next.1)^[2147483646] r = r :=
  Random.ext ((hr.seed_iterate_eq_iff _ hr.seed_mem.2).2 (by rw [← orderOf_A, pow_orderOf_eq_one, mul_one]))

theorem Reachable.existsUnique_seed {r : Random} (hr : r.Reachable) {v : UInt32} (hv1 : 1 ≤ v.toNat)
    (hv2 : v.toNat < 2147483647) :
    ∃! k, k < 2147483646 ∧ ((fun r : Random => r.next.1)^[k] r).seed = v := by
  have hs0 := natCast_ne_zero hr.seed_mem.1 hr.seed_mem.2
  obtain ⟨k, hk, hku⟩ := exists_pow_A_eq (div_ne_zero (natCast_ne_zero hv1 hv2) hs0)
  refine ⟨k, ⟨hk, (hr.seed_iterate_eq_iff k hv2).2 (by rw [hku, mul_div_cancel₀ _ hs0])⟩, ?_⟩
  rintro j ⟨hj, hjv⟩
  refine pow_A_inj hj hk (mul_left_cancel₀ hs0 ?_)
  rw [(hr.seed_iterate_eq_iff j hv2).1 hjv, hku, mul_div_cancel₀ _ hs0]

end Period

section Balance

theorem Reachable.card_filter_seed {r : Random} (hr : r.Reachable) (p : Nat → Prop) [DecidablePred p] :
    ((Finset.range 2147483646).filter fun k => p ((fun r : Random => r.next.1)^[k] r).seed.toNat).card =
      ((Finset.Icc 1 2147483646).filter p).card := by
  refine Finset.card_nbij (fun k => ((fun r : Random => r.next.1)^[k] r).seed.toNat) ?_ ?_ ?_
  · intro k hk
    simp only [Finset.mem_filter, Finset.mem_range, Finset.mem_Icc] at hk ⊢
    have := (hr.iterate k).seed_mem
    exact ⟨⟨this.1, by omega⟩, hk.2⟩
  · intro k1 hk1 k2 hk2 h
    simp only [Finset.coe_filter, Finset.mem_range, Set.mem_setOf_eq] at hk1 hk2
    have hs := (hr.iterate k1).seed_mem
    obtain ⟨k, -, hk⟩ := hr.existsUnique_seed hs.1 hs.2
    exact (hk k1 ⟨hk1.1, rfl⟩).trans (hk k2 ⟨hk2.1, (uint32_eq_iff _ _).2 h.symm⟩).symm
  · intro v hv
    simp only [Finset.coe_filter, Finset.mem_Icc, Set.mem_setOf_eq] at hv
    have hv1 : 1 ≤ (UInt32.ofNat v).toNat := by rw [uint32_toNat_ofNat]; omega
    have hv2 : (UInt32.ofNat v).toNat < 2147483647 := by rw [uint32_toNat_ofNat]; omega
    obtain ⟨k, ⟨hk, hkv⟩, -⟩ := hr.existsUnique_seed hv1 hv2
    have hseed : ((fun r : Random => r.next.1)^[k] r).seed.toNat = v := by rw [hkv, uint32_toNat_ofNat]; omega
    exact ⟨k, by simp only [Finset.coe_filter, Finset.mem_range, Set.mem_setOf_eq, hseed]; exact ⟨hk, hv.2⟩, hseed⟩

theorem card_filter_mod_bounds {n j : Nat} (N : Nat) (hn : 0 < n) (hj : j < n) :
    N / n ≤ ((Finset.Icc 1 N).filter (· % n = j)).card ∧
      ((Finset.Icc 1 N).filter (· % n = j)).card ≤ N / n + 1 := by
  constructor
  · calc N / n = (Finset.range (N / n)).card := (Finset.card_range _).symm
      _ ≤ _ := Finset.card_le_card_of_injOn (fun i => n * i + if j = 0 then n else j) ?_ ?_
    · intro i hi
      have hle : n * (i + 1) ≤ N := (Nat.mul_le_mul_left n (Finset.mem_range.1 hi)).trans (Nat.mul_div_le N n)
      simp only [Finset.mem_filter, Finset.mem_Icc, Nat.mul_add_mod]
      split_ifs with h0
      · rw [Nat.mod_self, h0]
        exact ⟨⟨by omega, by rw [Nat.mul_add_one] at hle; omega⟩, rfl⟩
      · exact ⟨⟨by omega, by rw [Nat.mul_add_one] at hle; omega⟩, Nat.mod_eq_of_lt hj⟩
    · intro i1 _ i2 _ h
      exact Nat.eq_of_mul_eq_mul_left hn (Nat.add_right_cancel h)
  · calc _ ≤ (Finset.range (N / n + 1)).card := Finset.card_le_card_of_injOn (· / n) ?_ ?_
      _ = N / n + 1 := Finset.card_range _
    · intro v hv
      simp only [Finset.mem_filter, Finset.mem_Icc] at hv
      exact Finset.mem_range.2 (Nat.lt_succ_of_le (Nat.div_le_div_right hv.1.2))
    · intro v1 hv1 v2 hv2 h
      simp only [Finset.coe_filter, Finset.mem_Icc, Set.mem_setOf_eq] at hv1 hv2
      rw [← Nat.div_add_mod v1 n, ← Nat.div_add_mod v2 n, hv1.2, hv2.2]
      exact congrArg (n * · + j) h

theorem card_filter_mod_zero (n N : Nat) : ((Finset.Icc 1 N).filter (· % n = 0)).card = N / n := by
  rw [← Nat.Ioc_filter_dvd_card_eq_div N n]
  congr 1
  ext v
  simp only [Finset.mem_filter, Finset.mem_Icc, Finset.mem_Ioc, Nat.dvd_iff_mod_eq_zero]
  omega

theorem Reachable.card_filter_uniform {r : Random} (hr : r.Reachable) {n : Int} (h0 : 0 < n) (h1 : n < 2 ^ 32)
    (j : Nat) :
    ((Finset.range 2147483646).filter fun k =>
        (((fun r : Random => r.next.1)^[k] r).next.2 % UInt32.ofNat (n % 2 ^ 32).toNat).toNat = j).card =
      ((Finset.Icc 1 2147483646).filter (· % n.toNat = j)).card := by
  have hval (k : Nat) : (((fun r : Random => r.next.1)^[k] r).next.2 % UInt32.ofNat (n % 2 ^ 32).toNat).toNat =
      ((fun r : Random => r.next.1)^[k] r.next.1).seed.toNat % n.toNat := by
    rw [UInt32.toNat_mod, toNat_divisor h0 h1, ← next_fst_seed,
      ← Function.iterate_succ_apply' (fun r : Random => r.next.1), Function.iterate_succ_apply]
  simp only [hval]
  exact hr.next.card_filter_seed (· % n.toNat = j)

theorem count_map_range {α : Type} [DecidableEq α] (g : Nat → α) (m : Nat) (a : α) :
    ((List.range m).map g).count a = ((Finset.range m).filter fun k => g k = a).card := by
  simp only [List.count, List.countP_eq_length_filter, List.filter_map, List.length_map, Finset.card,
    Finset.filter_val, Finset.range_val, Multiset.range, Multiset.filter_coe, Multiset.coe_card]
  rfl

end Balance

theorem skewed_lt {maxLog : Int} (h0 : 0 ≤ maxLog) (h31 : maxLog ≤ 31) (r : Random) :
    ∃ v, r.skewed maxLog = some (r.next.1.next.1, v) ∧ v.toNat < 2 ^ maxLog.toNat := by
  obtain ⟨base, hb, hbv⟩ := uniform_eq (show (0 : Int) < maxLog + 1 by omega) (by omega) r
  have hbase : base.toNat < (maxLog + 1).toNat := hbv ▸ Nat.mod_lt _ (by omega)
  have hpow : (2 : Int) ^ base.toNat < 2 ^ 32 := pow_lt_pow_right₀ (by norm_num) (by omega)
  have hpn : ((2 : Int) ^ base.toNat).toNat = 2 ^ base.toNat := by
    exact_mod_cast Int.toNat_natCast (2 ^ base.toNat)
  obtain ⟨v, hv, hvv⟩ := uniform_eq (pow_pos (by norm_num) _) hpow r.next.1
  refine ⟨v, ?_, ?_⟩
  · simp only [skewed, hb, hv, if_neg (show ¬ (2 : Int) ^ 31 ≤ maxLog + 1 by omega),
      if_neg (show ¬ 32 ≤ base.toNat by omega)]
  · rw [hvv]
    calc r.next.1.next.2.toNat % ((2 : Int) ^ base.toNat).toNat
        < 2 ^ base.toNat := hpn ▸ Nat.mod_lt _ (by rw [hpn]; positivity)
      _ ≤ 2 ^ maxLog.toNat := Nat.pow_le_pow_right (by norm_num) (by omega)

theorem skewed_new_shift_32 {maxLog : Int} (h32 : 32 ≤ maxLog) (hlt : maxLog + 1 < 2 ^ 31) :
    (Random.new 2095991060).skewed maxLog = none := by
  have h32v : (Random.new 2095991060).next.2.toNat = 32 := by decide
  obtain ⟨base, hb, hbv⟩ := uniform_eq (show (0 : Int) < maxLog + 1 by omega) (by omega) (Random.new 2095991060)
  rw [h32v, Nat.mod_eq_of_lt (by omega)] at hbv
  simp only [skewed, hb, if_neg (show ¬ (2 : Int) ^ 31 ≤ maxLog + 1 by omega), hbv, le_refl, if_true]

end Random

open Random in
theorem random_next_lehmer (s : UInt32) (k : Nat) :
    (Random.new s).seed.toNat =
      (if s.toNat % 2 ^ 31 = 0 ∨ s.toNat % 2 ^ 31 = 2147483647 then 1 else s.toNat % 2 ^ 31) ∧
    ((fun r : Random => r.next.1)^[k] (Random.new s)).next.2.toNat =
      (Random.new s).seed.toNat * 16807 ^ (k + 1) % 2147483647 ∧
    1 ≤ ((fun r : Random => r.next.1)^[k] (Random.new s)).next.2.toNat ∧
    ((fun r : Random => r.next.1)^[k] (Random.new s)).next.2.toNat < 2147483647 := by
  have hr := Reachable.new s
  have h := (hr.iterate (k + 1)).seed_mem
  rw [Function.iterate_succ_apply', next_fst_seed] at h
  refine ⟨toNat_new s, ?_, h⟩
  rw [← next_fst_seed, ← Function.iterate_succ_apply' (fun r : Random => r.next.1)]
  exact hr.seed_iterate (k + 1)

open Random in
theorem random_full_period {r : Random} (hr : r.Reachable) :
    (fun r : Random => r.next.1)^[2 ^ 31 - 2] r = r ∧
    ∀ v : UInt32, 1 ≤ v.toNat → v.toNat < 2 ^ 31 - 1 →
      ∃! k, k < 2 ^ 31 - 2 ∧ ((fun r : Random => r.next.1)^[k] r).seed = v := by
  have h2 : (2 ^ 31 - 2 : Nat) = 2147483646 := by norm_num
  rw [h2]
  exact ⟨hr.iterate_period, fun v hv1 hv2 => hr.existsUnique_seed hv1 (by omega)⟩

open Random in
theorem random_uniform_balanced {r : Random} (hr : r.Reachable) {n : Int} (h0 : 0 < n) (h1 : n < 2 ^ 32) :
    ∃ vs bs, r.calls (fun r => r.uniform n) (2 ^ 31 - 2) = some (r, vs) ∧
      r.calls (fun r => r.oneIn n) (2 ^ 31 - 2) = some (r, bs) ∧
      (∀ j < n.toNat, (2 ^ 31 - 2) / n.toNat ≤ vs.count (UInt32.ofNat j) ∧
        vs.count (UInt32.ofNat j) ≤ (2 ^ 31 - 2) / n.toNat + 1) ∧
      bs.count true = (2 ^ 31 - 2) / n.toNat := by
  have h2 : (2 ^ 31 - 2 : Nat) = 2147483646 := by norm_num
  have hone (r : Random) : r.oneIn n = some (r.next.1, r.next.2 % UInt32.ofNat (n % 2 ^ 32).toNat == 0) := by
    simp only [oneIn, uniform_eq_some h0 h1, Option.map_some']
  rw [h2, calls_eq (uniform_eq_some h0 h1), calls_eq hone, hr.iterate_period]
  refine ⟨_, _, rfl, rfl, fun j hj => ?_, ?_⟩
  · have hj32 : j < 2 ^ 32 := by omega
    rw [count_map_range]
    simp only [uint32_eq_iff, uint32_toNat_ofNat, Nat.mod_eq_of_lt hj32]
    rw [hr.card_filter_uniform h0 h1 j]
    exact card_filter_mod_bounds _ (by omega) hj
  · rw [count_map_range]
    simp only [beq_iff_eq, uint32_eq_iff, UInt32.toNat_zero]
    rw [hr.card_filter_uniform h0 h1 0, card_filter_mod_zero]

theorem random_uniform_balanced_new :
    (Random.new 1).Reachable ∧ (0 : Int) < 7 ∧ (7 : Int) < 2 ^ 32 ∧
    ∃ vs bs, (Random.new 1).calls (fun r => r.uniform 7) (2 ^ 31 - 2) = some (Random.new 1, vs) ∧
      (Random.new 1).calls (fun r => r.oneIn 7) (2 ^ 31 - 2) = some (Random.new 1, bs) ∧
      (∀ j < (7 : Int).toNat, (2 ^ 31 - 2) / (7 : Int).toNat ≤ vs.count (UInt32.ofNat j) ∧
        vs.count (UInt32.ofNat j) ≤ (2 ^ 31 - 2) / (7 : Int).toNat + 1) ∧
      bs.count true = (2 ^ 31 - 2) / (7 : Int).toNat :=
  ⟨.new 1, by decide, by decide, random_uniform_balanced (.new 1) (by decide) (by decide)⟩

open Random in
theorem random_skewed_range (maxLog : Int) :
    (0 ≤ maxLog → maxLog ≤ 31 → ∀ r : Random,
      ∃ v, r.skewed maxLog = some (r.next.1.next.1, v) ∧ v.toNat < 2 ^ maxLog.toNat) ∧
    (32 ≤ maxLog → maxLog + 1 < 2 ^ 31 → ∃ r : Random, r.Reachable ∧ r.skewed maxLog = none) :=
  ⟨fun h0 h31 r => skewed_lt h0 h31 r, fun h32 hlt => ⟨_, .new 2095991060, skewed_new_shift_32 h32 hlt⟩⟩

end LevelDbProofs
