import Sylar.Proofs.Scheduler

/-! What `stopping` sees. A worker takes its task off `m_activeThreadCount` before it queues
the fiber again that has yielded to `READY`. In between the fiber is neither queued nor
counted. -/

namespace Sylar

open Lib

namespace Scheduler

variable {n : ℕ} {Cb : Type} {tid : Fin n → ℤ} {s s' : Scheduler n Cb}

/-- The fiber of the worker has yielded to `READY` and is not queued again yet. -/
def toBeRequeued (states : ℕ → FiberState) : Pc Cb → Bool
  | .running .leaving _ f _ | .running .returned _ f _ | .after .testReady f _ =>
      states f = .READY
  | .after .requeue _ _ => true
  | _ => false

def uncounted (states : ℕ → FiberState) (pc : Pc Cb) : Bool :=
  toBeRequeued states pc && (held pc).isNone

/-- Nothing is queued, executed or to be queued again. -/
structure Quiet (s : Scheduler n Cb) : Prop where
  queued : s.m_fibers = []
  executed : ∀ w, held (s.workers w).pc = none
  requeued : ∀ w, ¬ toBeRequeued s.states (s.workers w).pc

def StopsQuiet (s : Scheduler n Cb) : Prop :=
  ∀ m_autoStop m_stopping, s.stopping m_autoStop m_stopping → Quiet s

/-- When a worker takes its task off the count and its fiber or another one is to be queued
again without being counted, some task is left that is queued or counted. -/
def LeavesTask (s : Scheduler n Cb) : Move n Cb → Prop
  | .decrement w =>
      (toBeRequeued s.states (s.workers w).pc ∨ ∃ v, uncounted s.states (s.workers v).pc) →
        s.m_fibers ≠ [] ∨ ∃ v, v ≠ w ∧ (held (s.workers v).pc).isSome
  | _ => True

instance [DecidableEq Cb] (s : Scheduler n Cb) : Decidable (Quiet s) :=
  decidable_of_iff (s.m_fibers = [] ∧ (∀ w, held (s.workers w).pc = none) ∧
      ∀ w, ¬ toBeRequeued s.states (s.workers w).pc)
    ⟨fun h => ⟨h.1, h.2.1, h.2.2⟩, fun h => ⟨h.queued, h.executed, h.requeued⟩⟩

instance [DecidableEq Cb] (s : Scheduler n Cb) : Decidable (StopsQuiet s) :=
  inferInstanceAs (Decidable (∀ m_autoStop m_stopping,
    s.stopping m_autoStop m_stopping → Quiet s))

instance [DecidableEq Cb] (s : Scheduler n Cb) : ∀ m : Move n Cb, Decidable (LeavesTask s m)
  | .decrement w => inferInstanceAs (Decidable (
      (toBeRequeued s.states (s.workers w).pc ∨ ∃ v, uncounted s.states (s.workers v).pc) →
        s.m_fibers ≠ [] ∨ ∃ v, v ≠ w ∧ (held (s.workers v).pc).isSome))
  | .schedule _ | .newFiber | .dequeue _ | .check _ | .prepare _ | .swapIn _ | .yieldToReady _
  | .yieldToHold _ | .finish _ _ | .swapOut _ | .settle _ | .idleIn _ | .idleOut _ _ =>
      .isTrue trivial

def Busy (s : Scheduler n Cb) : Prop :=
  s.m_fibers ≠ [] ∨ ∃ w, (held (s.workers w).pc).isSome

/-- While a fiber is neither queued nor counted, some other is. -/
def Covered (s : Scheduler n Cb) : Prop :=
  (∃ w, uncounted s.states (s.workers w).pc) → Busy s

theorem not_busy_iff : ¬ Busy s ↔ s.m_fibers = [] ∧ ∀ w, held (s.workers w).pc = none := by
  simp [Busy]

theorem stopping_iff (hn : n < 2 ^ 64)
    (h : Pool.Balanced (2 ^ 64) (mayTake tid) mayEnd (pool s)) (m_autoStop m_stopping : Bool) :
    s.stopping m_autoStop m_stopping ↔ m_autoStop ∧ m_stopping ∧ ¬ Busy s := by
  have hzero : s.m_activeThreadCount = 0 ↔ ∀ w, held (s.workers w).pc = none := by
    rw [active_eq hn h, Finset.card_eq_zero, Finset.filter_eq_empty_iff]
    simp
  rw [not_busy_iff, ← hzero]
  simp [stopping, and_assoc]

theorem quiet_iff (h : ¬ Busy s) :
    Quiet s ↔ ∀ w, ¬ uncounted s.states (s.workers w).pc := by
  obtain ⟨hq, hheld⟩ := not_busy_iff.mp h
  constructor
  · intro hquiet w
    simpa [uncounted, hheld w] using hquiet.requeued w
  · intro hall
    refine ⟨hq, hheld, fun w => ?_⟩
    simpa [uncounted, hheld w] using hall w

theorem stopsQuiet_iff (hn : n < 2 ^ 64)
    (h : Pool.Balanced (2 ^ 64) (mayTake tid) mayEnd (pool s)) : StopsQuiet s ↔ Covered s := by
  constructor
  · rintro hs ⟨w, hw⟩
    by_contra hbusy
    have hquiet := hs true true ((stopping_iff hn h true true).mpr ⟨rfl, rfl, hbusy⟩)
    exact (quiet_iff hbusy).mp hquiet w hw
  · intro hc a b hs
    obtain ⟨-, -, hbusy⟩ := (stopping_iff hn h a b).mp hs
    exact (quiet_iff hbusy).mpr fun w hw => hbusy (hc ⟨w, hw⟩)

theorem covered_worker {w : Fin n} {x : Worker Cb}
    (hw : s'.workers = Function.update s.workers w x) :
    Covered s' ↔ ((uncounted s'.states x.pc ∨ ∃ v ≠ w, uncounted s'.states (s.workers v).pc) →
      s'.m_fibers ≠ [] ∨ (held x.pc).isSome ∨ ∃ v ≠ w, (held (s.workers v).pc).isSome) := by
  unfold Covered Busy
  rw [hw, Function.exists_update_iff s.workers fun _ (y : Worker Cb) => uncounted s'.states y.pc,
    Function.exists_update_iff s.workers fun _ (y : Worker Cb) => (held y.pc).isSome]

theorem covered_of_held {w : Fin n} {x : Worker Cb} {t : Task Cb}
    (hw : s'.workers = Function.update s.workers w x) (hx : held x.pc = some t) : Covered s' :=
  (covered_worker hw).mpr fun _ => .inr (.inl (by simp [hx]))

theorem uncounted_mono {states states' : ℕ → FiberState} {pc : Pc Cb}
    (hst : ∀ f, states' f = .READY → states f = .READY) (h : uncounted states' pc) :
    uncounted states pc := by
  simp only [uncounted, Bool.and_eq_true] at h ⊢
  refine ⟨?_, h.2⟩
  have hready := h.1
  unfold toBeRequeued at hready ⊢
  split at hready
  · exact decide_eq_true (hst _ (of_decide_eq_true hready))
  · exact decide_eq_true (hst _ (of_decide_eq_true hready))
  · exact decide_eq_true (hst _ (of_decide_eq_true hready))
  · rfl
  · cases hready

theorem covered_of_none {w : Fin n} {x : Worker Cb} (h : Covered s)
    (hw : s'.workers = Function.update s.workers w x) (hq : s'.m_fibers = s.m_fibers)
    (hheld : held (s.workers w).pc = none)
    (hx : uncounted s'.states x.pc → uncounted s.states (s.workers w).pc)
    (hst : ∀ f, s'.states f = .READY → s.states f = .READY) : Covered s' := by
  rw [covered_worker hw, hq]
  intro hu
  have hbusy : Busy s := by
    apply h
    rcases hu with hu | ⟨v, -, hu⟩
    · exact ⟨w, hx hu⟩
    · exact ⟨v, uncounted_mono hst hu⟩
  rcases hbusy with hne | ⟨v, hv⟩
  · exact .inl hne
  · refine .inr (.inr ⟨v, ?_, hv⟩)
    rintro rfl
    rw [hheld] at hv
    cases hv

theorem ready_of_update {states : ℕ → FiberState} {g : ℕ} {st : FiberState} (hst : st ≠ .READY)
    (f : ℕ) (h : Function.update states g st f = .READY) : states f = .READY := by
  by_cases hf : f = g
  · subst hf
    rw [Function.update_self] at h
    exact absurd h hst
  · rwa [Function.update_of_ne hf] at h

theorem covered_decrement {w : Fin n} {x : Worker Cb}
    (hw : s'.workers = Function.update s.workers w x) (hq : s'.m_fibers = s.m_fibers)
    (hst : s'.states = s.states) (hheld : (held (s.workers w).pc).isSome)
    (hx : held x.pc = none)
    (hready : toBeRequeued s.states x.pc = toBeRequeued s.states (s.workers w).pc) :
    Covered s' ↔ LeavesTask s (.decrement w) := by
  have hcounted : ¬ uncounted s.states (s.workers w).pc := by
    simp [uncounted, Option.isNone_eq_false_iff.mpr hheld]
  have hothers : (∃ v ≠ w, uncounted s.states (s.workers v).pc) ↔
      ∃ v, uncounted s.states (s.workers v).pc := by
    constructor
    · rintro ⟨v, -, hv⟩
      exact ⟨v, hv⟩
    · rintro ⟨v, hv⟩
      refine ⟨v, ?_, hv⟩
      rintro rfl
      exact hcounted hv
  have hown : uncounted s.states x.pc = toBeRequeued s.states (s.workers w).pc := by
    simp [uncounted, hx, hready]
  rw [covered_worker hw, hq, hst, hothers, hown, hx]
  simp [LeavesTask]

theorem covered_keeps (h : Covered s) (hw : s'.workers = s.workers)
    (hst : ∀ f, s'.states f = .READY → s.states f = .READY)
    (hq : s.m_fibers ≠ [] → s'.m_fibers ≠ []) : Covered s' := by
  unfold Covered Busy
  rw [hw]
  rintro ⟨w, hu⟩
  exact (h ⟨w, uncounted_mono hst hu⟩).imp_left hq

theorem covered_schedule (h : Covered s) (works : List (Option (Work Cb) × ℤ)) :
    Covered (works.foldl (fun s x => s.scheduleNoLock x.1 x.2) s) := by
  apply foldl_scheduleNoLock h
  intro r work thread _ hr
  exact covered_keeps hr rfl (fun _ => id) fun _ => by simp [push]

theorem covered_effect {m : Move n Cb} (h : Covered s) (he : Effect tid s m s') :
    Covered s' ↔ LeavesTask s m := by
  cases he with
  | ran w t f cb hw => exact covered_decrement rfl rfl rfl (by simp [hw, held]) rfl (by rw [hw]; rfl)
  | dropped w t state hw =>
    exact covered_decrement rfl rfl rfl (by simp [hw, held]) rfl (by rw [hw]; rfl)
  | schedule works hworks => exact iff_of_true (covered_schedule h works) trivial
  | newFiber =>
    exact iff_of_true (covered_keeps h rfl (ready_of_update (by decide)) id) trivial
  | requeue w f cb hw =>
    refine iff_of_true (fun _ => .inl ?_) trivial
    simp [push, release]
  | takeNone w hw =>
    refine iff_of_true (covered_of_none h rfl rfl (by simp [hw, held]) ?_ fun _ => id) trivial
    dsimp only
    split <;> exact fun hu => absurd hu (by simp [uncounted, toBeRequeued])
  | testReady w f cb hw =>
    refine iff_of_true (covered_of_none h rfl rfl (by simp [hw, held]) ?_ fun _ => id) trivial
    rw [hw]
    dsimp only
    split
    · next hf => exact fun _ => by simp [uncounted, toBeRequeued, held, hf]
    · exact fun hu => absurd hu (by simp [uncounted, toBeRequeued])
  | testEnded w f cb hw hf =>
    refine iff_of_true (covered_of_none h rfl rfl (by simp [hw, held]) ?_ fun _ => id) trivial
    dsimp only
    split <;> exact fun hu => absurd hu (by simp [uncounted, toBeRequeued])
  | testOther w f cb hw hf =>
    exact iff_of_true (covered_of_none h rfl rfl (by simp [hw, held])
      (fun hu => absurd hu (by simp [uncounted, toBeRequeued])) fun _ => id) trivial
  | hold w f cb hw =>
    exact iff_of_true (covered_of_none h rfl rfl (by simp [hw, held])
      (fun hu => absurd hu (by simp [uncounted, toBeRequeued]))
      (ready_of_update (by decide))) trivial
  | reset w f cb hw hf =>
    exact iff_of_true (covered_of_none h rfl rfl (by simp [hw, held])
      (fun hu => absurd hu (by simp [uncounted, toBeRequeued]))
      (ready_of_update (by decide))) trivial
  | idleIn w hw =>
    exact iff_of_true (covered_of_none h rfl rfl (by simp [hw, held])
      (fun hu => absurd hu (by simp [uncounted, toBeRequeued])) fun _ => id) trivial
  | idleOut w term hw =>
    exact iff_of_true (covered_of_none h rfl rfl (by simp [hw, held])
      (fun hu => absurd hu (by simp [uncounted, toBeRequeued])) fun _ => id) trivial
  | _ => exact iff_of_true (covered_of_held rfl rfl) trivial

theorem stopping_quiet_iff (hn : n < 2 ^ 64) (tid : Fin n → ℤ) (ms : List (Move n Cb)) :
    Along (step tid) StopsQuiet init ms ↔ Each (step tid) LeavesTask init ms := by
  refine along_iff_each (fun s => Sound s ∧ Pool.Balanced (2 ^ 64) (mayTake tid) mayEnd (pool s))
    StopsQuiet (fun _ _ => True) LeavesTask ?_ ms init ⟨sound_init, Pool.balanced_start⟩ ?_
    (each_true ms init)
  · intro s m s' hI hP _ hs
    have hI' := balanced_step hI hs
    refine ⟨hI', ?_⟩
    rw [stopsQuiet_iff hn hI'.2]
    exact covered_effect ((stopsQuiet_iff hn hI.2).mp hP) (step_effect hs)
  · have hstart : Pool.Balanced (2 ^ 64) (mayTake tid) mayEnd (pool (init : Scheduler n Cb)) :=
      Pool.balanced_start
    apply (stopsQuiet_iff hn hstart).mpr
    rintro ⟨w, hw⟩
    cases hw

/-- The first worker's fiber yields to `READY` while the second has a task. -/
def countedYield : List (Move 2 Unit) :=
  [.newFiber, .schedule [(some (.fiber 0), -1), (some (.cb ()), -1)], .dequeue first,
    .check first, .swapIn first, .dequeue second, .yieldToReady first, .swapOut first,
    .decrement first, .check second, .settle first, .settle first, .prepare second,
    .swapIn second, .finish second false, .swapOut second, .decrement second]

theorem stopping_quiet_iff_counted :
    (countedYield.foldlM (step ![10, 11]) init).isOk ∧
      Along (step ![10, 11]) StopsQuiet init countedYield :=
  ⟨by decide +kernel, (stopping_quiet_iff (by decide) ![10, 11] countedYield).mpr (by decide +kernel)⟩

/-- Between the last two steps the only fiber is neither queued nor counted. -/
def lonelyYield : List (Move 2 Unit) :=
  [.newFiber, .schedule [(some (.fiber 0), -1)], .dequeue first, .check first, .swapIn first,
    .yieldToReady first, .swapOut first, .decrement first, .settle first]

theorem stopping_overlooks_yielded_fiber :
    ¬ ∀ (n : ℕ) (tid : Fin n → ℤ) (ms : List (Move n Unit)), n < 2 ^ 64 →
      Along (step tid) StopsQuiet init ms := by
  intro hall
  have halong := hall 2 ![10, 11] lonelyYield (by decide)
  revert halong
  decide +kernel

end Scheduler

end Sylar
