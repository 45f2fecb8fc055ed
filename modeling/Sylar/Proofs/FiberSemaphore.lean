import Sylar.Lib.Partial
import Sylar.Spec.Worker

/-! The permits of a `FiberSemaphore`. `notify` gives a permit to the first waiter and not to
the counter, so the counter is positive only when nobody waits. -/

namespace Sylar

open Lib

inductive SemMove (S F : Type) where
  | tryWait (this : Option S)
  | wait (this : Option S) (fiber : F)
  | notify

/-- The semaphore with a record: the waits that were granted, at once or later, the calls of
`notify`, and who came to wait and who was resumed, in that order. -/
structure SemRun (S F : Type) where
  sem : FiberSemaphore S F
  granted : ℕ
  notifies : ℕ
  arrived : List (S × F)
  resumed : List (S × F)

namespace FiberSemaphore

variable {S F : Type} {sem : FiberSemaphore S F} {this : Option S} {fiber : F}

/-- The counter is positive only when nobody waits. -/
def Idle (sem : FiberSemaphore S F) : Prop := 0 < sem.m_concurrency → sem.m_waiters = []

/-- What `wait` does: it takes a permit, or waits. -/
inductive Waited (sem : FiberSemaphore S F) (this : Option S) (fiber : F) :
    FiberSemaphore S F × Bool → Prop
  | granted (h : 0 < sem.m_concurrency) :
      Waited sem this fiber ({ sem with m_concurrency := sem.m_concurrency - 1 }, false)
  | suspended (scheduler : S) (hthis : this = some scheduler) (h : sem.m_concurrency = 0) :
      Waited sem this fiber ({ sem with m_waiters := sem.m_waiters ++ [(scheduler, fiber)] }, true)

theorem wait_waited {r : FiberSemaphore S F × Bool} (h : sem.wait this fiber = .ok r) :
    Waited sem this fiber r := by
  unfold wait at h
  split at h
  · cases h
  · next scheduler =>
    split at h
    · next hpos =>
      cases h
      exact .granted hpos
    · next hpos =>
      cases h
      exact .suspended scheduler rfl (Nat.eq_zero_of_not_pos hpos)

/-- What `notify` does: it resumes the first waiter, or counts the permit. -/
inductive Notified (sem : FiberSemaphore S F) : FiberSemaphore S F × Option (S × F) → Prop
  | handed (next : S × F) (rest : List (S × F)) (h : sem.m_waiters = next :: rest) :
      Notified sem ({ sem with m_waiters := rest }, some next)
  | counted (h : sem.m_waiters = []) :
      Notified sem ({ sem with m_concurrency := incr sem.m_concurrency }, none)

theorem notify_notified (sem : FiberSemaphore S F) : Notified sem sem.notify := by
  unfold notify
  split
  · next next rest h => exact .handed next rest h
  · next h => exact .counted h

end FiberSemaphore

namespace SemRun

open FiberSemaphore

variable {S F : Type} {r r' : SemRun S F} {n : ℕ}

def init (n : ℕ) : SemRun S F := ⟨.new n, 0, 0, [], []⟩

def tryWait (r : SemRun S F) (this : Option S) : Except StepFault (SemRun S F) :=
  match r.sem.tryWait this with
  | .error fault => .error fault
  | .ok x => .ok { r with
      sem := x.1
      granted := if x.2 then r.granted + 1 else r.granted }

def wait (r : SemRun S F) (this : Option S) (fiber : F) : Except StepFault (SemRun S F) :=
  match r.sem.wait this fiber with
  | .error fault => .error fault
  | .ok x => .ok { r with
      sem := x.1
      granted := if x.2 then r.granted else r.granted + 1
      arrived := if x.2 then r.arrived ++ this.toList.map fun s => (s, fiber) else r.arrived }

def notify (r : SemRun S F) : SemRun S F :=
  { r with
    sem := r.sem.notify.1
    notifies := r.notifies + 1
    granted := r.granted + r.sem.notify.2.toList.length
    resumed := r.resumed ++ r.sem.notify.2.toList }

def step (r : SemRun S F) : SemMove S F → Except StepFault (SemRun S F)
  | .tryWait this => r.tryWait this
  | .wait this fiber => r.wait this fiber
  | .notify => .ok r.notify

/-- The permits are those of the start and those given back, as a `size_t` counts them, and
the waiters are resumed in the order in which they came. -/
structure Lawful (n : ℕ) (r : SemRun S F) : Prop where
  idle : r.sem.Idle
  conserved : n + r.notifies ≡ r.sem.m_concurrency + r.granted [MOD 2 ^ 64]
  in_order : r.arrived = r.resumed ++ r.sem.m_waiters

def Conserved (n : ℕ) (r : SemRun S F) : Prop :=
  n + r.notifies = r.sem.m_concurrency + r.granted

/-- `notify` does not find the counter at its maximum. -/
def NoWrap (r : SemRun S F) : SemMove S F → Prop
  | .notify => r.sem.m_concurrency + 1 < 2 ^ 64
  | .tryWait _ | .wait _ _ => True

instance (r : SemRun S F) : ∀ m : SemMove S F, Decidable (NoWrap r m)
  | .notify => inferInstanceAs (Decidable (r.sem.m_concurrency + 1 < 2 ^ 64))
  | .tryWait _ | .wait _ _ => .isTrue trivial

/-- What a step does to the record. -/
inductive Effect (r : SemRun S F) : SemMove S F → SemRun S F → Prop
  | granted (m : SemMove S F) (hm : m ≠ .notify) (hpos : 0 < r.sem.m_concurrency) : Effect r m { r with
      sem := { r.sem with m_concurrency := r.sem.m_concurrency - 1 }
      granted := r.granted + 1 }
  | refused (this : Option S) (hzero : r.sem.m_concurrency = 0) : Effect r (.tryWait this) r
  | suspended (scheduler : S) (fiber : F) (hzero : r.sem.m_concurrency = 0) :
      Effect r (.wait (some scheduler) fiber) { r with
        sem := { r.sem with m_waiters := r.sem.m_waiters ++ [(scheduler, fiber)] }
        arrived := r.arrived ++ [(scheduler, fiber)] }
  | handed (next : S × F) (rest : List (S × F)) (h : r.sem.m_waiters = next :: rest) :
      Effect r .notify { r with
        sem := { r.sem with m_waiters := rest }
        notifies := r.notifies + 1
        granted := r.granted + 1
        resumed := r.resumed ++ [next] }
  | counted (h : r.sem.m_waiters = []) : Effect r .notify { r with
      sem := { r.sem with m_concurrency := incr r.sem.m_concurrency }
      notifies := r.notifies + 1 }

theorem step_effect {m : SemMove S F} (h : r.step m = .ok r') : Effect r m r' := by
  cases m with
  | tryWait this =>
    change r.tryWait this = .ok r' at h
    unfold tryWait FiberSemaphore.tryWait at h
    cases this with
    | none => cases h
    | some scheduler =>
      by_cases hpos : r.sem.m_concurrency > 0
      · simp only [hpos, if_true] at h
        cases h
        exact .granted _ (by simp) hpos
      · simp only [hpos, if_false] at h
        cases h
        exact .refused _ (Nat.eq_zero_of_not_pos hpos)
  | wait this fiber =>
    change r.wait this fiber = .ok r' at h
    unfold wait at h
    cases hw : r.sem.wait this fiber with
    | error fault =>
      rw [hw] at h
      cases h
    | ok x =>
      rw [hw] at h
      cases wait_waited hw with
      | granted hpos =>
        cases h
        exact .granted _ (by simp) hpos
      | suspended scheduler hthis hzero =>
        subst hthis
        cases h
        exact .suspended scheduler fiber hzero
  | notify =>
    cases h
    have hn := notify_notified r.sem
    unfold notify
    generalize r.sem.notify = x at hn ⊢
    cases hn with
    | handed next rest hwaiters => exact .handed next rest hwaiters
    | counted hwaiters =>
      simp only [Option.toList_none, List.append_nil, List.length_nil, Nat.add_zero]
      exact .counted hwaiters

theorem lawful_effect {m : SemMove S F} (h : Lawful n r) (he : Effect r m r') : Lawful n r' := by
  cases he with
  | granted m hm hpos =>
    refine ⟨fun _ => h.idle hpos, ?_, h.in_order⟩
    have heq : r.sem.m_concurrency - 1 + (r.granted + 1) = r.sem.m_concurrency + r.granted := by
      omega
    exact heq ▸ h.conserved
  | refused this hzero => exact h
  | suspended scheduler fiber hzero =>
    refine ⟨fun hpos => absurd hpos (by simp [hzero]), h.conserved, ?_⟩
    show r.arrived ++ [(scheduler, fiber)] = r.resumed ++ (r.sem.m_waiters ++ [(scheduler, fiber)])
    rw [h.in_order, List.append_assoc]
  | handed next rest hwaiters =>
    refine ⟨?_, ?_, ?_⟩
    · intro hpos
      have hnone := h.idle hpos
      rw [hwaiters] at hnone
      cases hnone
    · exact h.conserved.add_right 1
    · show r.arrived = r.resumed ++ [next] ++ rest
      rw [h.in_order, hwaiters, List.append_assoc]
      rfl
  | counted hwaiters =>
    refine ⟨fun _ => hwaiters, ?_, h.in_order⟩
    calc n + (r.notifies + 1)
        ≡ r.sem.m_concurrency + r.granted + 1 [MOD 2 ^ 64] := h.conserved.add_right 1
      _ = r.sem.m_concurrency + 1 + r.granted := by omega
      _ ≡ incr r.sem.m_concurrency + r.granted [MOD 2 ^ 64] :=
          (Nat.mod_modEq (r.sem.m_concurrency + 1) (2 ^ 64)).symm.add_right _

theorem lawful_init (n : ℕ) : Lawful n (init n : SemRun S F) where
  idle := fun _ => rfl
  conserved := rfl
  in_order := rfl

theorem conserved_iff {m : SemMove S F} (hl : Lawful n r) (h : Conserved n r) (he : Effect r m r') :
    Conserved n r' ↔ NoWrap r m := by
  unfold Conserved at h ⊢
  cases he with
  | granted m hm hpos =>
    have hwrap : NoWrap r m := by
      cases m with
      | notify => exact absurd rfl hm
      | tryWait this | wait this fiber => trivial
    refine iff_of_true ?_ hwrap
    dsimp only
    omega
  | refused this hzero => exact iff_of_true h trivial
  | suspended scheduler fiber hzero => exact iff_of_true h trivial
  | handed next rest hwaiters =>
    -- while somebody waits the counter is zero
    have hzero : r.sem.m_concurrency = 0 := by
      by_contra hne
      have hnone := hl.idle (Nat.pos_of_ne_zero hne)
      rw [hwaiters] at hnone
      cases hnone
    refine iff_of_true ?_ ?_
    · dsimp only
      omega
    · show r.sem.m_concurrency + 1 < 2 ^ 64
      omega
  | counted hwaiters =>
    show n + (r.notifies + 1) = (r.sem.m_concurrency + 1) % 2 ^ 64 + r.granted ↔
      r.sem.m_concurrency + 1 < 2 ^ 64
    omega

/-- The counter is positive only when nobody waits, no permit is lost or made, and the waiters are
resumed in the order in which they came. -/
structure Kept (n : ℕ) (r : SemRun S F) : Prop where
  idle : r.sem.Idle
  conserved : Conserved n r
  in_order : r.arrived = r.resumed ++ r.sem.m_waiters

theorem kept_along_iff (n : ℕ) (ms : List (SemMove S F)) :
    Along step (Kept n) (init n) ms ↔ Each step NoWrap (init n) ms := by
  refine along_iff_each (Lawful n) (Kept n) (fun _ _ => True) NoWrap ?_ ms (init n) (lawful_init n)
    ⟨fun _ => rfl, rfl, rfl⟩ (each_true ms _)
  intro r m r' hl h _ hs
  have hl' := lawful_effect hl (step_effect hs)
  refine ⟨hl', ?_⟩
  rw [← conserved_iff hl h.conserved (step_effect hs)]
  exact ⟨Kept.conserved, fun hconserved => ⟨hl'.idle, hconserved, hl'.in_order⟩⟩

end SemRun

end Sylar
