import Mathlib.Data.List.Basic

/-!
`PosixEnv::Schedule` and `BGThread`: each critical section under `mu_` is one step, and
`pthread_cond_wait` may return without a signal.
-/

namespace LevelDbProofs.Env

structure BGItem where
  function : Nat
  arg : Nat
  deriving DecidableEq, Repr

inductive BGPc
  | lock
  | wait
  | run (item : BGItem)
  deriving DecidableEq, Repr

structure PosixEnv where
  startedBgthread : Bool
  queue : List BGItem
  bg : Option BGPc
  created : Nat
  scheduled : List BGItem
  taken : List BGItem
  deriving DecidableEq, Repr

inductive Event
  | schedule (item : BGItem)
  | bgTest
  | spuriousWake
  | bgDone
  deriving DecidableEq, Repr

namespace PosixEnv

def new : PosixEnv := ⟨false, [], none, 0, [], []⟩

def signal : Option BGPc → Option BGPc
  | some .wait => some .lock
  | bg => bg

def schedule (e : PosixEnv) (item : BGItem) : PosixEnv :=
  { e with
    startedBgthread := true
    bg :=
      let bg := if e.startedBgthread then e.bg else some .lock
      if e.queue.isEmpty then signal bg else bg
    created := if e.startedBgthread then e.created else e.created + 1
    queue := e.queue ++ [item]
    scheduled := e.scheduled ++ [item] }

def bgTest (e : PosixEnv) : PosixEnv :=
  match e.queue with
  | [] => { e with bg := some .wait }
  | item :: rest => { e with bg := some (.run item), queue := rest, taken := e.taken ++ [item] }

def step (e : PosixEnv) : Event → Option PosixEnv
  | .schedule item => some (e.schedule item)
  | .bgTest => if e.bg = some .lock then some e.bgTest else none
  | .spuriousWake => if e.bg = some .wait then some { e with bg := some .lock } else none
  | .bgDone => match e.bg with
    | some (.run _) => some { e with bg := some .lock }
    | _ => none

inductive Reachable : PosixEnv → Prop
  | new : Reachable new
  | step {e e' : PosixEnv} {ev : Event} : Reachable e → e.step ev = some e' → Reachable e'

inductive BgRuns : PosixEnv → PosixEnv → Prop
  | refl (e : PosixEnv) : BgRuns e e
  | test {e e' : PosixEnv} : e.bg = some .lock → BgRuns e.bgTest e' → BgRuns e e'
  | done {e e' : PosixEnv} {item : BGItem} : e.bg = some (.run item) → BgRuns { e with bg := some .lock } e' →
      BgRuns e e'

structure Inv (e : PosixEnv) : Prop where
  fifo : e.taken ++ e.queue = e.scheduled
  started : e.startedBgthread = true ↔ e.bg ≠ none
  created : e.created = if e.startedBgthread then 1 else 0
  waitEmpty : e.bg = some .wait → e.queue = []
  queueStarted : e.queue ≠ [] → e.startedBgthread = true

theorem Inv.new : Inv new :=
  ⟨rfl, by simp [PosixEnv.new], rfl, fun h => (by cases h), fun h => absurd rfl h⟩

@[simp] theorem signal_ne_none {bg : Option BGPc} : signal bg ≠ none ↔ bg ≠ none := by
  rcases bg with _ | (_ | _ | _) <;> simp [signal]

theorem Inv.schedule {e : PosixEnv} (h : Inv e) (item : BGItem) : Inv (e.schedule item) where
  fifo := by simp [PosixEnv.schedule, ← h.fifo]
  started := by
    cases hs : e.startedBgthread
    · simp [PosixEnv.schedule, hs]
      split_ifs <;> simp [signal]
    · simp only [PosixEnv.schedule, hs, if_true]
      have hbg := h.started.1 hs
      split_ifs <;> simp [hbg]
  created := by
    cases hs : e.startedBgthread <;> simp [PosixEnv.schedule, hs, h.created]
  waitEmpty := by
    intro hw
    exfalso
    rcases hbg : e.bg with _ | (_ | _ | _) <;> cases hs : e.startedBgthread <;> cases hq : e.queue.isEmpty <;>
      simp [PosixEnv.schedule, hs, hq, hbg, signal] at hw
    exact absurd (h.waitEmpty hbg) (by simpa using hq)
  queueStarted := fun _ => rfl

theorem Inv.bgTest {e : PosixEnv} (h : Inv e) (hbg : e.bg = some .lock) : Inv e.bgTest := by
  unfold PosixEnv.bgTest
  split
  · next hq => exact ⟨h.fifo, by simp [h.started.2 (by simp [hbg])], h.created, fun _ => hq,
      fun hne => absurd hq hne⟩
  · next item rest hq =>
    have hs := h.queueStarted (by simp [hq])
    exact ⟨by simp [← h.fifo, hq], by simp [hs], h.created, fun hw => (by cases hw), fun _ => hs⟩

theorem Inv.toLock {e : PosixEnv} (h : Inv e) (hbg : e.bg ≠ none) : Inv { e with bg := some .lock } :=
  ⟨h.fifo, by simp [h.started.2 hbg], h.created, fun hw => (by cases hw), h.queueStarted⟩

theorem Inv.step {e e' : PosixEnv} {ev : Event} (h : Inv e) (hs : e.step ev = some e') : Inv e' := by
  cases ev with
  | schedule item => exact Option.some_inj.1 hs ▸ h.schedule item
  | bgTest =>
    simp only [PosixEnv.step] at hs
    split_ifs at hs with hbg
    exact Option.some_inj.1 hs ▸ h.bgTest hbg
  | spuriousWake =>
    simp only [PosixEnv.step] at hs
    split_ifs at hs with hbg
    exact Option.some_inj.1 hs ▸ h.toLock (by simp [hbg])
  | bgDone =>
    simp only [PosixEnv.step] at hs
    split at hs
    · next item hbg => exact Option.some_inj.1 hs ▸ h.toLock (by simp [hbg])
    · cases hs

theorem Reachable.inv {e : PosixEnv} (hr : Reachable e) : Inv e := by
  induction hr with
  | new => exact Inv.new
  | step _ hs ih => exact ih.step hs

theorem Inv.bgRuns_all : ∀ (q : List BGItem) {e : PosixEnv}, Inv e → e.queue = q →
    ∃ e', BgRuns e e' ∧ e'.queue = [] ∧ e'.taken = e.scheduled
  | [], e, h, hq => ⟨e, .refl e, hq, by rw [← h.fifo, hq, List.append_nil]⟩
  | item :: rest, e, h, hq => by
    have atLock : ∀ {e₁ : PosixEnv}, Inv e₁ → e₁.bg = some .lock → e₁.queue = item :: rest →
        e₁.scheduled = e.scheduled → ∃ e', BgRuns e₁ e' ∧ e'.queue = [] ∧ e'.taken = e.scheduled :=
      fun h₁ hb hq₁ hs₁ => by
        obtain ⟨e', hr, hq', ht'⟩ := Inv.bgRuns_all rest (h₁.bgTest hb) (by simp [PosixEnv.bgTest, hq₁])
        exact ⟨e', .test hb hr, hq', ht'.trans (by simp [PosixEnv.bgTest, hq₁, hs₁])⟩
    rcases hbg : e.bg with _ | (_ | _ | x)
    · exact absurd (h.started.1 (h.queueStarted (by simp [hq]))) (by simp [hbg])
    · exact atLock h hbg hq rfl
    · exact absurd (h.waitEmpty hbg) (by simp [hq])
    · obtain ⟨e', hr, hq', ht'⟩ := atLock (h.toLock (by simp [hbg])) rfl hq rfl
      exact ⟨e', .done hbg hr, hq', ht'⟩

end PosixEnv

theorem posix_env_schedule_fifo {e : PosixEnv} (hr : e.Reachable) :
    e.taken ++ e.queue = e.scheduled ∧ e.created = (if e.startedBgthread then 1 else 0) ∧
      (e.bg = some .wait → e.queue = []) ∧ ∃ e', e.BgRuns e' ∧ e'.taken = e.scheduled := by
  have h := hr.inv
  obtain ⟨e', hr', -, ht⟩ := h.bgRuns_all _ rfl
  exact ⟨h.fifo, h.created, h.waitEmpty, e', hr', ht⟩

theorem posix_env_schedule_fifo_running :
    ∃ e : PosixEnv, e.Reachable ∧ e.taken = [⟨1, 2⟩] ∧ e.queue = [⟨3, 4⟩] ∧ e.bg = some (.run ⟨1, 2⟩) ∧
      (e.taken ++ e.queue = e.scheduled ∧ e.created = (if e.startedBgthread then 1 else 0) ∧
        (e.bg = some .wait → e.queue = []) ∧ ∃ e', e.BgRuns e' ∧ e'.taken = e.scheduled) := by
  have hr : PosixEnv.Reachable _ :=
    @PosixEnv.Reachable.step _ _ .bgTest (@PosixEnv.Reachable.step _ _ (.schedule ⟨3, 4⟩)
      (@PosixEnv.Reachable.step _ _ (.schedule ⟨1, 2⟩) .new rfl) rfl) rfl
  exact ⟨_, hr, rfl, rfl, rfl, posix_env_schedule_fifo hr⟩

end LevelDbProofs.Env
