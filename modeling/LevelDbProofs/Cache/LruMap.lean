import Mathlib.Data.List.Nodup
import Mathlib.Data.List.Pairwise
import LevelDbProofs.Cache.Handle

/-!
What a shard is for: a map from keys to entries in order of use, named by their addresses.
-/

namespace LevelDbProofs.Cache

open LevelDbProofs.Util

structure Entry where
  key : Bytes
  value : Nat
  deleter : Nat
  charge : UInt64
  refs : UInt32
  deriving DecidableEq, Repr

def Entry.call (e : Entry) (a : Nat) : DeleterCall := ⟨a, e.deleter, e.key, e.value⟩

structure LruMap where
  capacity : UInt64
  usage : UInt64
  lru : List Nat
  entries : Nat → Option Entry

namespace LruMap

def empty (capacity : UInt64) : LruMap := ⟨capacity, 0, [], fun _ => none⟩

def find (s : LruMap) (key : Bytes) : Option Nat :=
  s.lru.find? fun a => (s.entries a).map Entry.key = some key

def unref (s : LruMap) (a : Nat) : Option (LruMap × List DeleterCall) := do
  let e ← s.entries a
  if e.refs = 0 then none
  else if e.refs - 1 = 0 then
    some ({ s with usage := s.usage - e.charge, entries := Function.update s.entries a none }, [e.call a])
  else some ({ s with entries := Function.update s.entries a (some { e with refs := e.refs - 1 }) }, [])

def lookup (s : LruMap) (key : Bytes) : LruMap × Option Nat :=
  match s.find key with
  | none => (s, none)
  | some a =>
    ({ s with
        lru := s.lru.erase a ++ [a]
        entries := Function.update s.entries a ((s.entries a).map fun e => { e with refs := e.refs + 1 }) },
      some a)

def evictFrom (s : LruMap) : List Nat → Option (LruMap × List DeleterCall)
  | [] => some ({ s with lru := [] }, [])
  | b :: rest =>
    if s.usage > s.capacity then do
      let r ← ({ s with lru := rest } : LruMap).unref b
      let r' ← r.1.evictFrom rest
      some (r'.1, r.2 ++ r'.2)
    else some ({ s with lru := b :: rest }, [])

def evict (s : LruMap) : Option (LruMap × List DeleterCall) := s.evictFrom s.lru

def link (s : LruMap) (rest : List Nat) (a : Nat) (e : Entry) : LruMap :=
  { s with lru := rest ++ [a], usage := s.usage + e.charge, entries := Function.update s.entries a (some e) }

@[simp] theorem link_lru (s : LruMap) (rest : List Nat) (a : Nat) (e : Entry) : (s.link rest a e).lru = rest ++ [a] :=
  rfl

@[simp] theorem link_entries (s : LruMap) (rest : List Nat) (a : Nat) (e : Entry) :
    (s.link rest a e).entries = Function.update s.entries a (some e) := rfl

def insert (s : LruMap) (a : Nat) (key : Bytes) (value : Nat) (charge : UInt64) (deleter : Nat) :
    Option (LruMap × List DeleterCall) := do
  let old := s.find key
  let s' := s.link (old.elim s.lru s.lru.erase) a ⟨key, value, deleter, charge, 2⟩
  let r ← old.elim (some (s', [])) s'.unref
  let r' ← r.1.evict
  some (r'.1, r.2 ++ r'.2)

def erase (s : LruMap) (key : Bytes) : Option (LruMap × List DeleterCall) :=
  match s.find key with
  | none => some (s, [])
  | some a => ({ s with lru := s.lru.erase a } : LruMap).unref a

def release (s : LruMap) (a : Nat) : Option (LruMap × List DeleterCall) := s.unref a

structure Inv (s : LruMap) (handles : List Nat) : Prop where
  refs : ∀ a e, s.entries a = some e → e.refs.toNat = (if a ∈ s.lru then 1 else 0) + handles.count a
  lru_live : ∀ a ∈ s.lru, s.entries a ≠ none
  held : ∀ a, s.entries a ≠ none → a ∈ s.lru ∨ a ∈ handles
  handles_live : ∀ a ∈ handles, s.entries a ≠ none
  nodup : s.lru.Nodup
  keys : s.lru.Pairwise fun a b => (s.entries a).map Entry.key ≠ (s.entries b).map Entry.key

structure InvBut (s : LruMap) (handles : List Nat) (a : Nat) : Prop where
  refs : ∀ b e, s.entries b = some e →
    e.refs.toNat = (if b ∈ s.lru then 1 else 0) + handles.count b + (if b = a then 1 else 0)
  lru_live : ∀ b ∈ s.lru, s.entries b ≠ none
  held : ∀ b, s.entries b ≠ none → b ∈ s.lru ∨ b ∈ handles ∨ b = a
  handles_live : ∀ b ∈ handles, s.entries b ≠ none
  nodup : s.lru.Nodup
  keys : s.lru.Pairwise fun a b => (s.entries a).map Entry.key ≠ (s.entries b).map Entry.key
  live : s.entries a ≠ none

structure Step (s s' : LruMap) (calls : List DeleterCall) : Prop where
  kept : ∀ a e e', s.entries a = some e → s'.entries a = some e' → e' = { e with refs := e'.refs }
  unborn : ∀ a, s.entries a = none → s'.entries a = none
  calls_nodup : (calls.map DeleterCall.entry).Nodup
  calls_freed : ∀ d ∈ calls, ∃ e, s.entries d.entry = some e ∧ s'.entries d.entry = none ∧ d = e.call d.entry
  freed_called : ∀ a, s.entries a ≠ none → s'.entries a = none → a ∈ calls.map DeleterCall.entry
  capacity : s'.capacity = s.capacity

section Step

variable {s s' s'' : LruMap} {calls calls' : List DeleterCall}

theorem Step.of_entries (he : s'.entries = s.entries) (hc : s'.capacity = s.capacity) : Step s s' [] :=
  ⟨fun _ _ _ h h' => by rw [he, h, Option.some_inj] at h'; subst h'; rfl, fun _ h => he ▸ h, List.nodup_nil,
    fun _ h => absurd h (List.not_mem_nil _), fun _ h h' => absurd (he ▸ h') h, hc⟩

theorem Step.refl (s : LruMap) : Step s s [] := .of_entries rfl rfl

theorem Step.trans (h : Step s s' calls) (h' : Step s' s'' calls') : Step s s'' (calls ++ calls') := by
  refine ⟨fun a e e'' he he'' => ?_, fun a ha => h'.unborn a (h.unborn a ha), ?_, ?_, ?_,
    h'.capacity.trans h.capacity⟩
  · rcases hs' : s'.entries a with _ | e'
    · rw [h'.unborn a hs'] at he''; cases he''
    · rw [h'.kept a e' e'' hs' he'', h.kept a e e' he hs']
  · rw [List.map_append, List.nodup_append]
    refine ⟨h.calls_nodup, h'.calls_nodup, fun x hx hx' => ?_⟩
    obtain ⟨d, hd, rfl⟩ := List.mem_map.1 hx
    obtain ⟨d', hd', e⟩ := List.mem_map.1 hx'
    obtain ⟨-, -, hnone, -⟩ := h.calls_freed d hd
    obtain ⟨e', he', -, -⟩ := h'.calls_freed d' hd'
    rw [e, hnone] at he'
    cases he'
  · intro d hd
    rcases List.mem_append.1 hd with hd | hd
    · obtain ⟨e, he, hnone, hd'⟩ := h.calls_freed d hd
      exact ⟨e, he, h'.unborn _ hnone, hd'⟩
    · obtain ⟨e, he, hnone, hd'⟩ := h'.calls_freed d hd
      rcases hs : s.entries d.entry with _ | e0
      · rw [h.unborn _ hs] at he; cases he
      · refine ⟨e0, rfl, hnone, hd'.trans ?_⟩
        rw [h.kept _ e0 e hs he]
        rfl
  · intro a ha ha''
    rw [List.map_append, List.mem_append]
    by_cases ha' : s'.entries a = none
    · exact .inl (h.freed_called a ha ha')
    · exact .inr (h'.freed_called a ha' ha'')

theorem Step.of_update_refs {a : Nat} {e : Entry} (he : s.entries a = some e) {r : UInt32}
    (he' : s'.entries = Function.update s.entries a (some { e with refs := r }))
    (hc : s'.capacity = s.capacity) : Step s s' [] := by
  refine ⟨fun b e₁ e₂ hb hb' => ?_, fun b hb => ?_, List.nodup_nil, fun _ h => absurd h (List.not_mem_nil _),
    fun b hb hb' => ?_, hc⟩ <;> rw [he'] at * <;> rcases eq_or_ne b a with rfl | hba
  · rw [he, Option.some_inj] at hb; subst hb
    rw [Function.update_same, Option.some_inj] at hb'; subst hb'; rfl
  · rw [Function.update_noteq hba, hb, Option.some_inj] at hb'; subst hb'; rfl
  · rw [he] at hb; cases hb
  · rwa [Function.update_noteq hba]
  · simp at hb'
  · rw [Function.update_noteq hba] at hb'; exact absurd hb' hb

theorem Step.of_free {a : Nat} {e : Entry} (he : s.entries a = some e)
    (he' : s'.entries = Function.update s.entries a none) (hc : s'.capacity = s.capacity) :
    Step s s' [e.call a] := by
  refine ⟨fun b e₁ e₂ hb hb' => ?_, fun b hb => ?_, by simp, ?_, fun b hb hb' => ?_, hc⟩
  · rw [he'] at hb'
    rcases eq_or_ne b a with rfl | hba
    · simp at hb'
    · rw [Function.update_noteq hba, hb, Option.some_inj] at hb'; subst hb'; rfl
  · rw [he']
    rcases eq_or_ne b a with rfl | hba
    · simp
    · rwa [Function.update_noteq hba]
  · simp only [List.mem_singleton, forall_eq]
    exact ⟨e, he, by simp [he', Entry.call], rfl⟩
  · rw [he'] at hb'
    rcases eq_or_ne b a with rfl | hba
    · simp [Entry.call]
    · rw [Function.update_noteq hba] at hb'; exact absurd hb' hb

theorem Step.of_entries_left (s' : LruMap) (he : s'.entries = s.entries) (hc : s'.capacity = s.capacity)
    (h : Step s' s'' calls) : Step s s'' calls := by
  simpa using (Step.of_entries he hc).trans h

theorem Step.origin (h : Step s s' calls) {a : Nat} {e : Entry} (he : s'.entries a = some e) :
    ∃ e0, s.entries a = some e0 ∧ e.key = e0.key ∧ e.call a = e0.call a := by
  rcases h0 : s.entries a with _ | e0
  · rw [h.unborn a h0] at he; cases he
  · rw [h.kept a e0 e h0 he]
    exact ⟨e0, rfl, rfl, rfl⟩

end Step

section Ops

variable {s : LruMap} {handles : List Nat} {a : Nat}

theorem find_some {key : Bytes} {b : Nat} (h : s.find key = some b) :
    b ∈ s.lru ∧ (s.entries b).map Entry.key = some key :=
  ⟨List.mem_of_find?_eq_some h, by simpa using List.find?_some h⟩

theorem find_none {key : Bytes} (h : s.find key = none) :
    ∀ b ∈ s.lru, (s.entries b).map Entry.key ≠ some key := fun b hb => by
  simpa using List.find?_eq_none.1 h b hb

theorem Inv.find_eq_some_iff (h : Inv s handles) {e : Entry} (he : s.entries a = some e) :
    s.find e.key = some a ↔ a ∈ s.lru := by
  refine ⟨fun hf => (find_some hf).1, fun ha => ?_⟩
  rcases hf : s.find e.key with _ | b
  · exact absurd (by simp [he]) (find_none hf a ha)
  · obtain ⟨hb, hkey⟩ := find_some hf
    by_contra hba
    have hsymm : Symmetric fun a b => (s.entries a).map Entry.key ≠ (s.entries b).map Entry.key :=
      fun _ _ h' e => h' e.symm
    exact h.keys.forall hsymm hb ha (fun e => hba (congrArg some e)) (hkey.trans (by simp [he]))

theorem uint32_toNat_pred {r : UInt32} (h : r ≠ 0) : (r - 1).toNat = r.toNat - 1 := by
  rw [UInt32.toNat_sub_of_le _ _ ((uint32_le_iff _ _).2 (by
    have : r.toNat ≠ 0 := fun h' => h (UInt32.toNat.inj h')
    show 1 ≤ r.toNat
    omega))]
  rfl

theorem keys_update {l : List Nat} {x : Option Entry} (hl : l.Pairwise fun a b =>
    (s.entries a).map Entry.key ≠ (s.entries b).map Entry.key)
    (hx : x.map Entry.key = (s.entries a).map Entry.key ∨ a ∉ l) :
    l.Pairwise fun b b' => ((Function.update s.entries a x) b).map Entry.key ≠
      ((Function.update s.entries a x) b').map Entry.key := by
  refine hl.imp_of_mem fun {b b'} hb hb' hne => ?_
  have key : ∀ c ∈ l, ((Function.update s.entries a x) c).map Entry.key = (s.entries c).map Entry.key :=
    fun c hc => by
      rcases eq_or_ne c a with rfl | hca
      · rcases hx with hx | hx
        · simpa using hx
        · exact absurd hc hx
      · rw [Function.update_noteq hca]
  rwa [key b hb, key b' hb']

theorem InvBut.update (h : InvBut s handles a) (x : Option Entry) (u : UInt64)
    (hsome : ∀ e, x = some e →
      e.refs.toNat = (if a ∈ s.lru then 1 else 0) + handles.count a ∧ (a ∈ s.lru ∨ a ∈ handles))
    (hnone : x = none → a ∉ s.lru ∧ a ∉ handles)
    (hkey : x.map Entry.key = (s.entries a).map Entry.key ∨ a ∉ s.lru) :
    Inv { s with usage := u, entries := Function.update s.entries a x } handles := by
  have hother : ∀ b, b ≠ a → Function.update s.entries a x b = s.entries b :=
    fun b hb => Function.update_noteq hb _ _
  have hx : ∀ b, b = a → (b ∈ s.lru ∨ b ∈ handles) → Function.update s.entries a x b ≠ none := by
    rintro b rfl hb hnx
    rw [Function.update_same] at hnx
    obtain ⟨h1, h2⟩ := hnone hnx
    exact hb.elim h1 h2
  refine ⟨fun b e hb => ?_, fun b hb => ?_, fun b hb => ?_, fun b hb => ?_, h.nodup,
    keys_update h.keys hkey⟩
  · dsimp only at hb ⊢
    rcases eq_or_ne b a with rfl | hba
    · exact (hsome e (by rwa [Function.update_same] at hb)).1
    · rw [hother b hba] at hb
      simpa [hba] using h.refs b e hb
  · rcases eq_or_ne b a with rfl | hba
    · exact hx b rfl (.inl hb)
    · dsimp only; rw [hother b hba]; exact h.lru_live b hb
  · dsimp only at hb ⊢
    rcases eq_or_ne b a with rfl | hba
    · obtain ⟨e, he⟩ := Option.ne_none_iff_exists'.1 hb
      exact (hsome e (by rwa [Function.update_same] at he)).2
    · rw [hother b hba] at hb
      exact (h.held b hb).elim .inl fun h' => h'.elim .inr fun e => absurd e hba
  · rcases eq_or_ne b a with rfl | hba
    · exact hx b rfl (.inr hb)
    · dsimp only; rw [hother b hba]; exact h.handles_live b hb

theorem InvBut.unref (h : InvBut s handles a) :
    ∃ s' calls, s.unref a = some (s', calls) ∧ Inv s' handles ∧ Step s s' calls ∧ s'.lru = s.lru := by
  obtain ⟨e, he⟩ := Option.ne_none_iff_exists'.1 h.live
  have hr := h.refs a e he
  rw [if_pos rfl] at hr
  have hne : e.refs ≠ 0 := fun h0 => by rw [h0] at hr; simp at hr
  have hpred := uint32_toNat_pred hne
  by_cases h1 : e.refs - 1 = 0
  · have hlast : e.refs.toNat = 1 := by
      have := congrArg UInt32.toNat h1; rw [hpred] at this; simp at this; omega
    have hal : a ∉ s.lru := fun h' => by rw [if_pos h'] at hr; omega
    have hah : a ∉ handles := fun h' => by
      have := List.count_pos_iff.2 h'; rw [if_neg hal] at hr; omega
    refine ⟨_, [e.call a], by simp only [LruMap.unref, he, bind, Option.some_bind, if_neg hne, if_pos h1],
      h.update none (s.usage - e.charge) (fun _ h => by cases h) (fun _ => ⟨hal, hah⟩) (.inr hal), .of_free he rfl rfl, rfl⟩
  · have hpos : (e.refs - 1).toNat ≠ 0 := fun h' => h1 (UInt32.toNat.inj h')
    refine ⟨_, [], by simp only [LruMap.unref, he, bind, Option.some_bind, if_neg hne, if_neg h1],
      h.update (some { e with refs := e.refs - 1 }) s.usage (fun e' he' => ?_) (fun h => by cases h)
        (.inl (by simp [he])), .of_update_refs he rfl rfl, rfl⟩
    rw [Option.some_inj] at he'
    subst he'
    refine ⟨by simp only [hpred, hr]; omega, ?_⟩
    by_cases hal : a ∈ s.lru
    · exact .inl hal
    · rw [if_neg hal] at hr
      exact .inr (List.count_pos_iff.1 (by omega))

theorem Inv.release (h : Inv s handles) (ha : a ∈ handles) (hlive : s.entries a ≠ none) :
    ∃ s' calls, s.release a = some (s', calls) ∧ Inv s' (handles.erase a) ∧ Step s s' calls ∧
      s'.lru = s.lru := by
  have hc := List.count_pos_iff.2 ha
  refine InvBut.unref ⟨fun b e hb => ?_, h.lru_live, fun b hb => ?_,
    fun b hb => h.handles_live b (List.mem_of_mem_erase hb), h.nodup, h.keys, hlive⟩
  · rw [h.refs b e hb, List.count_erase]
    by_cases hba : b = a
    · subst hba; simp; omega
    · simp [Ne.symm hba, hba]
  · rcases h.held b hb with h' | h'
    · exact .inl h'
    · by_cases hba : b = a
      · exact .inr (.inr hba)
      · exact .inr (.inl ((List.mem_erase_of_ne hba).2 h'))

theorem Inv.unlink (h : Inv s handles) (ha : a ∈ s.lru) : InvBut { s with lru := s.lru.erase a } handles a := by
  have hsub := List.erase_sublist a s.lru
  refine ⟨fun b e hb => ?_, fun b hb => h.lru_live b (hsub.subset hb), fun b hb => ?_, h.handles_live,
    h.nodup.sublist hsub, h.keys.sublist hsub, h.lru_live a ha⟩
  · rw [h.refs b e hb]
    dsimp only
    simp only [h.nodup.mem_erase_iff]
    by_cases hba : b = a
    · subst hba; simp [ha, Nat.add_comm]
    · simp [hba]
  · rcases h.held b hb with h' | h'
    · by_cases hba : b = a
      · exact .inr (.inr hba)
      · exact .inl ((h.nodup.mem_erase_iff).2 ⟨hba, h'⟩)
    · exact .inr (.inl h')

theorem Inv.erase (h : Inv s handles) (key : Bytes) :
    ∃ s' calls, s.erase key = some (s', calls) ∧ Inv s' handles ∧ Step s s' calls ∧
      s'.lru = (s.find key).elim s.lru s.lru.erase := by
  rcases hf : s.find key with _ | a
  · exact ⟨s, [], by simp [LruMap.erase, hf], h, .refl s, rfl⟩
  obtain ⟨s', calls, hu, hinv, hstep, hlru⟩ := (h.unlink (find_some hf).1).unref
  exact ⟨s', calls, by simp [LruMap.erase, hf, hu], hinv,
    Step.of_entries_left { s with lru := s.lru.erase a } rfl rfl hstep, hlru⟩

theorem Inv.lookup (h : Inv s handles) (hlen : handles.length + 2 < 2 ^ 32) (key : Bytes) :
    Inv (s.lookup key).1 ((s.lookup key).2.toList ++ handles) ∧ Step s (s.lookup key).1 [] ∧
      (s.lookup key).2 = s.find key := by
  rcases hf : s.find key with _ | a
  · simp only [LruMap.lookup, hf, Option.toList_none, List.nil_append]
    exact ⟨h, .refl s, trivial⟩
  have hal := (find_some hf).1
  obtain ⟨e, he⟩ := Option.ne_none_iff_exists'.1 (h.lru_live a hal)
  have hcount := List.count_le_length a handles
  have hr := h.refs a e he
  rw [if_pos hal] at hr
  have hsucc : (e.refs + 1).toNat = e.refs.toNat + 1 := by
    rw [uint32_toNat_add]; exact Nat.mod_eq_of_lt (by show e.refs.toNat + 1 < 2 ^ 32; omega)
  have hother : ∀ {x : Option Entry} b, b ≠ a → Function.update s.entries a x b = s.entries b :=
    fun b hb => Function.update_noteq hb _ _
  have hmem : ∀ b, b ∈ s.lru.erase a ++ [a] ↔ b ∈ s.lru := fun b => by
    rw [List.mem_append, h.nodup.mem_erase_iff, List.mem_singleton]
    by_cases hba : b = a
    · simp [hba, hal]
    · simp [hba]
  have hperm : (s.lru.erase a ++ [a]).Perm s.lru :=
    (List.perm_append_singleton _ _).trans (List.perm_cons_erase hal).symm
  simp only [LruMap.lookup, hf, Option.toList_some, List.singleton_append, he, Option.map_some']
  refine ⟨⟨fun b e' hb => ?_, fun b hb => ?_, fun b hb => ?_, fun b hb => ?_,
    (h.nodup.erase a).append (List.nodup_singleton a) (List.disjoint_singleton.2 (h.nodup.not_mem_erase)),
    (keys_update h.keys (.inl (by simp [he]))).perm hperm.symm fun h' e => h' e.symm⟩,
    .of_update_refs he rfl rfl, trivial⟩
  · dsimp only at *
    simp only [hmem]
    rcases eq_or_ne b a with rfl | hba
    · simp only [Function.update_same, Option.some_inj] at hb
      subst hb
      simp only [hsucc, hr, hal, if_true, List.count_cons_self]
      omega
    · rw [hother b hba] at hb
      simpa [hba] using h.refs b e' hb
  · dsimp only at *
    rcases eq_or_ne b a with rfl | hba
    · simp
    · rw [hother b hba]; exact h.lru_live b ((hmem b).1 hb)
  · dsimp only at *
    simp only [hmem]
    rcases eq_or_ne b a with rfl | hba
    · exact .inl hal
    · rw [hother b hba] at hb
      exact (h.held b hb).elim .inl fun h' => .inr (List.mem_cons_of_mem _ h')
  · dsimp only
    rcases eq_or_ne b a with rfl | hba
    · simp
    · rw [hother b hba]; exact h.handles_live b ((List.mem_cons.1 hb).resolve_left hba)

theorem Inv.evictFrom : ∀ (l : List Nat) (s : LruMap), s.lru = l → Inv s handles →
    ∃ s' calls, s.evictFrom l = some (s', calls) ∧ Inv s' handles ∧ Step s s' calls
  | [], s, hl, h => ⟨{ s with lru := [] }, [], rfl, by rw [← hl]; exact h, .of_entries rfl rfl⟩
  | b :: rest, s, hl, h => by
    by_cases hu : s.usage > s.capacity
    · have hbut := h.unlink (hl ▸ List.mem_cons_self b rest)
      rw [hl, List.erase_cons_head] at hbut
      obtain ⟨s₁, calls₁, hu₁, hinv₁, hstep₁, hlru₁⟩ := hbut.unref
      obtain ⟨s₂, calls₂, he₂, hinv₂, hstep₂⟩ := Inv.evictFrom rest s₁ hlru₁ hinv₁
      refine ⟨s₂, calls₁ ++ calls₂, ?_, hinv₂,
        Step.of_entries_left { s with lru := rest } rfl rfl (hstep₁.trans hstep₂)⟩
      simp only [LruMap.evictFrom, if_pos hu, hu₁, he₂, bind, Option.some_bind]
    · refine ⟨{ s with lru := b :: rest }, [], by simp [LruMap.evictFrom, hu], ?_, .of_entries rfl rfl⟩
      rw [← hl]
      exact h

theorem Inv.insert_rest (h : Inv s handles) (key : Bytes) :
    let rest := (s.find key).elim s.lru s.lru.erase
    rest.Sublist s.lru ∧ (∀ c ∈ rest, (s.entries c).map Entry.key ≠ some key) ∧
      ∀ c, c ∈ rest ↔ c ∈ s.lru ∧ s.find key ≠ some c := by
  rcases hf : s.find key with _ | b
  · exact ⟨List.Sublist.refl _, find_none hf, fun c => by simp⟩
  obtain ⟨hb, hkey⟩ := find_some hf
  refine ⟨List.erase_sublist b s.lru, fun c hc hck => ?_, fun c => ?_⟩
  · have hcb : c ≠ b := fun e => h.nodup.not_mem_erase (e ▸ hc)
    exact h.keys.forall (by intro _ _ h; exact Ne.symm h) ((List.erase_sublist b _).subset hc) hb hcb
      (hck.trans hkey.symm)
  · simp only [Option.elim, h.nodup.mem_erase_iff, ne_eq, Option.some_inj]
    exact ⟨fun h' => ⟨h'.2, Ne.symm h'.1⟩, fun h' => ⟨Ne.symm h'.2, h'.1⟩⟩

theorem Inv.link (h : Inv s handles) (hfresh : s.entries a = none) (key : Bytes) (value : Nat)
    (charge : UInt64) (deleter : Nat) :
    let s' := s.link ((s.find key).elim s.lru s.lru.erase) a ⟨key, value, deleter, charge, 2⟩
    (s.find key = none → Inv s' (a :: handles)) ∧ ∀ b, s.find key = some b → InvBut s' (a :: handles) b := by
  obtain ⟨hsub, hkeys, hgone⟩ := h.insert_rest key
  set rest := (s.find key).elim s.lru s.lru.erase
  set e : Entry := ⟨key, value, deleter, charge, 2⟩
  have hal : a ∉ s.lru := fun h' => h.lru_live a h' hfresh
  have ha : a ∉ handles := fun h' => h.handles_live a h' hfresh
  have hnd : rest.Nodup := h.nodup.sublist hsub
  have hother : ∀ {x : Option Entry} b, b ≠ a → Function.update s.entries a x b = s.entries b :=
    fun b hb => Function.update_noteq hb _ _
  have hne : ∀ b ∈ s.lru, b ≠ a := fun b hb e => hal (e ▸ hb)
  have hmem : ∀ b, b ∈ rest ++ [a] ↔ b ∈ rest ∨ b = a := fun b => by simp
  have hlive : ∀ b ∈ (s.link rest a e).lru, (s.link rest a e).entries b ≠ none := fun b hb => by
    rcases eq_or_ne b a with rfl | hba
    · simp
    · rw [link_entries, hother b hba]
      exact h.lru_live b (hsub.subset (((hmem b).1 hb).resolve_right hba))
  have hnd' : (s.link rest a e).lru.Nodup :=
    hnd.append (List.nodup_singleton a) (List.disjoint_singleton.2 fun h' => hal (hsub.subset h'))
  have hkeys' : (s.link rest a e).lru.Pairwise fun b b' =>
      ((s.link rest a e).entries b).map Entry.key ≠ ((s.link rest a e).entries b').map Entry.key := by
    refine List.pairwise_append.2 ⟨(keys_update h.keys (.inr hal)).sublist hsub, List.pairwise_singleton _ _,
      fun b hb b' hb' => ?_⟩
    rw [List.mem_singleton.1 hb', link_entries, Function.update_same, hother b (hne b (hsub.subset hb))]
    exact hkeys b hb
  have hrefs : ∀ c e', (s.link rest a e).entries c = some e' → e'.refs.toNat =
      (if c ∈ rest ++ [a] then 1 else 0) + (a :: handles).count c + (if s.find key = some c then 1 else 0) := by
    intro c e' hc
    rcases eq_or_ne c a with rfl | hca
    · simp only [link_entries, Function.update_same, Option.some_inj] at hc
      subst hc
      have : s.find key ≠ some c := fun h' => hal (find_some h').1
      simp [this, List.count_eq_zero_of_not_mem ha]
    · rw [link_entries, hother c hca] at hc
      rw [h.refs c e' hc]
      simp only [hmem, or_iff_left hca, hgone]
      by_cases hf : s.find key = some c
      · simp [(find_some hf).1, hf, List.count_cons, hca, Nat.add_comm]
      · simp [hf, List.count_cons, hca]
  have hheld : ∀ c, (s.link rest a e).entries c ≠ none →
      c ∈ (s.link rest a e).lru ∨ c ∈ a :: handles ∨ s.find key = some c := by
    intro c hc
    rcases eq_or_ne c a with rfl | hca
    · exact .inl (by simp)
    rw [link_entries, hother c hca] at hc
    rcases h.held c hc with h' | h'
    · by_cases hf : s.find key = some c
      · exact .inr (.inr hf)
      · exact .inl ((hmem c).2 (.inl ((hgone c).2 ⟨h', hf⟩)))
    · exact .inr (.inl (List.mem_cons_of_mem _ h'))
  have hhl : ∀ c ∈ a :: handles, (s.link rest a e).entries c ≠ none := fun c hc => by
    rcases eq_or_ne c a with rfl | hca
    · simp
    · rw [link_entries, hother c hca]; exact h.handles_live c ((List.mem_cons.1 hc).resolve_left hca)
  refine ⟨fun hf => ⟨fun c e' hc => by simpa [hf] using hrefs c e' hc, hlive,
    fun c hc => (hheld c hc).imp_right fun h' => h'.resolve_right (by simp [hf]), hhl, hnd', hkeys'⟩,
    fun b hf => ⟨fun c e' hc => by simpa [hf, eq_comm] using hrefs c e' hc, hlive,
      fun c hc => by simpa [hf, eq_comm] using hheld c hc, hhl, hnd', hkeys', ?_⟩⟩
  have hb := (find_some hf).1
  rw [link_entries, hother b (hne b hb)]
  exact h.lru_live b hb

theorem Inv.insert (h : Inv s handles) (hfresh : s.entries a = none) (key : Bytes)
    (value : Nat) (charge : UInt64) (deleter : Nat) :
    ∃ s' calls, s.insert a key value charge deleter = some (s', calls) ∧ Inv s' (a :: handles) ∧
      Step { s with entries := Function.update s.entries a (some ⟨key, value, deleter, charge, 2⟩) } s' calls := by
  obtain ⟨hnew, hold⟩ := h.link hfresh key value charge deleter
  have hstep₀ : ∀ {rest s'' calls}, Step (s.link rest a ⟨key, value, deleter, charge, 2⟩) s'' calls →
      Step { s with entries := Function.update s.entries a (some ⟨key, value, deleter, charge, 2⟩) } s'' calls :=
    Step.of_entries_left _ rfl rfl
  rcases hf : s.find key with _ | b
  · obtain ⟨s₂, calls, he, hinv₂, hstep⟩ := Inv.evictFrom _ _ rfl (hnew hf)
    refine ⟨s₂, calls, ?_, hinv₂, hstep₀ hstep⟩
    simp only [hf, Option.elim] at he
    simp only [LruMap.insert, hf, Option.elim, LruMap.evict, bind, Option.some_bind, he, List.nil_append]
  · obtain ⟨s₁, calls₁, hu₁, hinv₁, hstep₁, hlru₁⟩ := (hold b hf).unref
    obtain ⟨s₂, calls₂, he₂, hinv₂, hstep₂⟩ := Inv.evictFrom _ s₁ rfl hinv₁
    refine ⟨s₂, calls₁ ++ calls₂, ?_, hinv₂, hstep₀ (hstep₁.trans hstep₂)⟩
    simp only [hf, Option.elim] at hu₁
    simp only [LruMap.insert, hf, Option.elim, LruMap.evict, bind, Option.some_bind, hu₁, he₂]

theorem unref_eq_some {s' : LruMap} {calls : List DeleterCall} (h : s.unref a = some (s', calls)) :
    ∃ e, s.entries a = some e ∧ e.refs ≠ 0 ∧
      (e.refs - 1 = 0 ∧ s' = { s with usage := s.usage - e.charge, entries := Function.update s.entries a none } ∧
          calls = [e.call a] ∨
        e.refs - 1 ≠ 0 ∧ s' = { s with entries := Function.update s.entries a (some { e with refs := e.refs - 1 }) } ∧
          calls = []) := by
  simp only [LruMap.unref, bind, Option.bind_eq_some] at h
  obtain ⟨e, he, h⟩ := h
  split_ifs at h with h0 h1 <;> simp only [Option.some_inj, Prod.mk.injEq, reduceCtorEq] at h
  · exact ⟨e, he, h0, .inl ⟨h1, h.1.symm, h.2.symm⟩⟩
  · exact ⟨e, he, h0, .inr ⟨h1, h.1.symm, h.2.symm⟩⟩

theorem unref_lru {s' : LruMap} {calls : List DeleterCall} (h : s.unref a = some (s', calls)) : s'.lru = s.lru := by
  obtain ⟨e, -, -, ⟨-, rfl, -⟩ | ⟨-, rfl, -⟩⟩ := unref_eq_some h <;> rfl

theorem unref_capacity {s' : LruMap} {calls : List DeleterCall} (h : s.unref a = some (s', calls)) :
    s'.capacity = s.capacity := by
  obtain ⟨e, -, -, ⟨-, rfl, -⟩ | ⟨-, rfl, -⟩⟩ := unref_eq_some h <;> rfl

theorem unref_entries_ne {s' : LruMap} {calls : List DeleterCall} (h : s.unref a = some (s', calls)) {b : Nat}
    (hb : b ≠ a) : s'.entries b = s.entries b := by
  obtain ⟨e, -, -, ⟨-, rfl, -⟩ | ⟨-, rfl, -⟩⟩ := unref_eq_some h <;> exact Function.update_noteq hb _ _

theorem unref_of_two_le {e : Entry} (he : s.entries a = some e) (hr : 2 ≤ e.refs.toNat) :
    s.unref a = some ({ s with entries := Function.update s.entries a (some { e with refs := e.refs - 1 }) }, []) := by
  have h0 : e.refs ≠ 0 := fun h => by simp [h] at hr
  have h1 : e.refs - 1 ≠ 0 := fun h => by
    have := uint32_toNat_pred h0
    rw [h, show (0 : UInt32).toNat = 0 from rfl] at this
    omega
  simp [LruMap.unref, he, h0, h1]

theorem evictFrom_cons_eq_some {b : Nat} {rest : List Nat} {s' : LruMap} {calls : List DeleterCall}
    (h : s.evictFrom (b :: rest) = some (s', calls)) :
    (s.capacity < s.usage ∧ ∃ s₁ calls₁ calls₂, ({ s with lru := rest } : LruMap).unref b = some (s₁, calls₁) ∧
        s₁.evictFrom rest = some (s', calls₂) ∧ calls = calls₁ ++ calls₂) ∨
      (¬ s.capacity < s.usage ∧ s' = { s with lru := b :: rest } ∧ calls = []) := by
  unfold LruMap.evictFrom at h
  split_ifs at h with hu
  · obtain ⟨⟨s₁, calls₁⟩, h1, h⟩ := Option.bind_eq_some.1 h
    obtain ⟨⟨s₂, calls₂⟩, h2, h⟩ := Option.bind_eq_some.1 h
    simp only [Option.some_inj, Prod.mk.injEq] at h
    exact .inl ⟨hu, s₁, calls₁, calls₂, h1, h.1 ▸ h2, h.2.symm⟩
  · simp only [Option.some_inj, Prod.mk.injEq] at h
    exact .inr ⟨hu, h.1.symm, h.2.symm⟩

theorem evictFrom_nil_eq_some {s' : LruMap} {calls : List DeleterCall} (h : s.evictFrom [] = some (s', calls)) :
    s' = { s with lru := [] } ∧ calls = [] := by
  simp only [LruMap.evictFrom, Option.some_inj, Prod.mk.injEq] at h
  exact ⟨h.1.symm, h.2.symm⟩

theorem evictFrom_fits : ∀ (l : List Nat) (s : LruMap) {s' : LruMap} {calls : List DeleterCall},
    s.evictFrom l = some (s', calls) → s'.usage ≤ s'.capacity ∨ s'.lru = []
  | [], s, _, _, h => .inr ((evictFrom_nil_eq_some h).1 ▸ rfl)
  | b :: rest, s, s', calls, h => by
    rcases evictFrom_cons_eq_some h with ⟨-, s₁, _, _, -, h', -⟩ | ⟨hu, rfl, -⟩
    · exact evictFrom_fits rest s₁ h'
    · exact .inl (Nat.not_lt.1 hu)

theorem evictFrom_lru_drop : ∀ (l : List Nat) (s : LruMap) {s' : LruMap} {calls : List DeleterCall},
    s.evictFrom l = some (s', calls) → ∃ k, s'.lru = l.drop k
  | [], s, _, _, h => ⟨0, (evictFrom_nil_eq_some h).1 ▸ rfl⟩
  | b :: rest, s, s', calls, h => by
    rcases evictFrom_cons_eq_some h with ⟨-, s₁, _, _, -, h', -⟩ | ⟨-, rfl, -⟩
    · obtain ⟨k, hk⟩ := evictFrom_lru_drop rest s₁ h'
      exact ⟨k + 1, hk⟩
    · exact ⟨0, rfl⟩

theorem evictFrom_lru_subset (l : List Nat) (s : LruMap) {s' : LruMap} {calls : List DeleterCall}
    (h : s.evictFrom l = some (s', calls)) : s'.lru ⊆ l := by
  obtain ⟨k, hk⟩ := evictFrom_lru_drop l s h
  exact hk ▸ List.drop_subset k l

theorem insert_eq_some {key : Bytes} {value : Nat} {charge : UInt64} {deleter : Nat} {s' : LruMap}
    {calls : List DeleterCall} (h : s.insert a key value charge deleter = some (s', calls)) :
    ∃ s₁ calls₁ calls₂, (s.find key).elim
        (some (s.link ((s.find key).elim s.lru s.lru.erase) a ⟨key, value, deleter, charge, 2⟩, []))
        (s.link ((s.find key).elim s.lru s.lru.erase) a ⟨key, value, deleter, charge, 2⟩).unref =
        some (s₁, calls₁) ∧
      s₁.lru = (s.find key).elim s.lru s.lru.erase ++ [a] ∧ s₁.capacity = s.capacity ∧
      s₁.evictFrom s₁.lru = some (s', calls₂) ∧ calls = calls₁ ++ calls₂ := by
  simp only [LruMap.insert, LruMap.evict, bind, Option.bind_eq_some] at h
  obtain ⟨⟨s₁, calls₁⟩, hr, ⟨s₂, calls₂⟩, hr', he⟩ := h
  simp only [Option.some_inj, Prod.mk.injEq] at he
  refine ⟨s₁, calls₁, calls₂, hr, ?_, ?_, he.1 ▸ hr', he.2.symm⟩ <;>
    rcases hf : s.find key with _ | b <;> rw [hf] at hr <;> simp only [Option.elim, Option.some_inj, Prod.mk.injEq] at hr
  · rw [← hr.1]; rfl
  · rw [unref_lru hr]; rfl
  · rw [← hr.1]; rfl
  · rw [unref_capacity hr]; rfl

theorem insert_fits {key : Bytes} {value : Nat} {charge : UInt64} {deleter : Nat} {s' : LruMap}
    {calls : List DeleterCall} (h : s.insert a key value charge deleter = some (s', calls)) :
    s'.usage ≤ s'.capacity ∨ s'.lru = [] := by
  obtain ⟨s₁, _, _, -, -, -, h', -⟩ := insert_eq_some h
  exact evictFrom_fits _ _ h'

theorem insert_lru_subset {key : Bytes} {value : Nat} {charge : UInt64} {deleter : Nat} {s' : LruMap}
    {calls : List DeleterCall} (h : s.insert a key value charge deleter = some (s', calls)) :
    s'.lru ⊆ (s.find key).elim s.lru s.lru.erase ++ [a] := by
  obtain ⟨s₁, _, _, -, hlr, -, h', -⟩ := insert_eq_some h
  exact hlr ▸ evictFrom_lru_subset _ _ h'

theorem lookup_lru_subset (key : Bytes) : (s.lookup key).1.lru ⊆ s.lru := by
  unfold LruMap.lookup
  rcases hf : s.find key with _ | b
  · exact List.Subset.refl _
  · intro c hc
    rcases List.mem_append.1 hc with hc | hc
    · exact List.erase_subset _ _ hc
    · rw [List.mem_singleton.1 hc]
      exact (find_some hf).1

theorem Inv.find_of_step (h : Inv s handles) {s0 s' : LruMap} {calls : List DeleterCall} (hstep : Step s0 s' calls)
    (hs0 : ∀ b ∈ s.lru, s0.entries b = s.entries b) {k : Bytes} (hf : s'.find k = some a) (ha : a ∈ s.lru) :
    s.find k = some a := by
  obtain ⟨e', he', hk'⟩ := Option.map_eq_some'.1 (find_some hf).2
  obtain ⟨e0, h0, hk, -⟩ := hstep.origin he'
  rw [hs0 a ha] at h0
  rw [← hk', hk]
  exact (h.find_eq_some_iff h0).2 ha

theorem find_eq_none_of_step {s0 s' : LruMap} {calls : List DeleterCall} (hstep : Step s0 s' calls) {k : Bytes}
    (hk : ∀ b ∈ s'.lru, (s0.entries b).map Entry.key ≠ some k) : s'.find k = none :=
  List.find?_eq_none.2 fun b hb => by
    rcases he' : s'.entries b with _ | e'
    · simp
    · obtain ⟨e0, h0, hkey, -⟩ := hstep.origin he'
      have := hk b hb
      rw [h0] at this
      simpa [hkey] using this

theorem lookup_snd (key : Bytes) : (s.lookup key).2 = s.find key := by
  unfold LruMap.lookup
  cases s.find key <;> rfl

theorem release_lookup {key : Bytes} {e : Entry} (hf : s.find key = some a) (he : s.entries a = some e)
    (h0 : e.refs ≠ 0) (hw : e.refs.toNat + 1 < 2 ^ 32) :
    (s.lookup key).1.release a = some ({ s with lru := s.lru.erase a ++ [a] }, []) := by
  have hr : e.refs.toNat ≠ 0 := fun h => h0 ((uint32_eq_iff _ _).2 h)
  have hadd : (e.refs + 1).toNat = e.refs.toNat + 1 := by
    rw [uint32_toNat_add]; exact Nat.mod_eq_of_lt hw
  have hsub : e.refs + 1 - 1 = e.refs := by
    rw [uint32_eq_iff, uint32_toNat_sub, hadd]; show (2 ^ 32 - 1 + (e.refs.toNat + 1)) % 2 ^ 32 = _; omega
  have he1 : (s.lookup key).1.entries a = some { e with refs := e.refs + 1 } := by
    simp [lookup, hf, he]
  rw [release, unref_of_two_le he1 (by show 2 ≤ (e.refs + 1).toNat; omega)]
  simp only [lookup, hf, he, Function.update_idem, hsub, Option.map_some']
  have hid : Function.update s.entries a (some { e with refs := e.refs }) = s.entries :=
    Function.update_eq_self_iff.2 he.symm
  rw [hid]

theorem insert_of_fits {key : Bytes} {value : Nat} {charge : UInt64} {deleter : Nat} (hf : s.find key = none)
    (hu : ¬ s.usage + charge > s.capacity) :
    s.insert a key value charge deleter = some (s.link s.lru a ⟨key, value, deleter, charge, 2⟩, []) := by
  obtain ⟨b, rest, hl⟩ : ∃ b rest, s.lru ++ [a] = b :: rest := by
    cases hs : s.lru with
    | nil => exact ⟨a, [], rfl⟩
    | cons b rest => exact ⟨b, rest ++ [a], rfl⟩
  have : (s.link s.lru a ⟨key, value, deleter, charge, 2⟩).evictFrom (s.lru ++ [a]) =
      some (s.link s.lru a ⟨key, value, deleter, charge, 2⟩, []) := by
    have hu' : ¬ (s.link s.lru a ⟨key, value, deleter, charge, 2⟩).usage >
        (s.link s.lru a ⟨key, value, deleter, charge, 2⟩).capacity := hu
    rw [hl, evictFrom, if_neg hu', ← hl]
    rfl
  simp only [LruMap.insert, hf, Option.elim, evict, link_lru, this, bind, Option.some_bind, List.append_nil]

theorem Inv.empty (capacity : UInt64) : Inv (empty capacity) [] :=
  ⟨fun _ _ h => (by cases h), fun _ h => absurd h (List.not_mem_nil _), fun _ h => absurd rfl h,
    fun _ h => absurd h (List.not_mem_nil _), List.nodup_nil, List.Pairwise.nil⟩

end Ops

end LruMap

end LevelDbProofs.Cache
