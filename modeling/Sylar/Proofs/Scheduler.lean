import Sylar.Lib.Partial
import Sylar.Lib.Pool
import Sylar.Spec.Scheduler

/-! A task that `schedule` accepted is queued, held by one worker, or done with. The
scheduler is a pool whose items are the tasks. A worker holds its task from the dequeue to
the decrement of `m_activeThreadCount`. -/

namespace Sylar

open Lib

open scoped List

namespace Scheduler

variable {n : ℕ} {Cb : Type} {tid : Fin n → ℤ} {s s' : Scheduler n Cb}

/-- What a step that succeeds has done. -/
inductive Effect (tid : Fin n → ℤ) (s : Scheduler n Cb) : Move n Cb → Scheduler n Cb → Prop
  | schedule (works : List (Option (Work Cb) × ℤ)) (h : ∀ x ∈ works, s.exists_ x.1) :
      Effect tid s (.schedule works) (works.foldl (fun s x => s.scheduleNoLock x.1 x.2) s)
  | newFiber : Effect tid s .newFiber { s.setState s.made .INIT with made := s.made + 1 }
  | take (w : Fin n) (t : Task Cb) (rest : List (Task Cb)) (hw : (s.workers w).pc = .top)
      (ht : takeFirst (tid w) s.states s.m_fibers = some (t, rest)) :
      Effect tid s (.dequeue w) { s.setPc w (.took t) with
        m_fibers := rest
        m_activeThreadCount := incr s.m_activeThreadCount
        dequeued := (t, w) :: s.dequeued }
  | takeNone (w : Fin n) (hw : (s.workers w).pc = .top) :
      Effect tid s (.dequeue w)
        (s.setPc w (if (s.workers w).idle_term then .stopped else .toIdle))
  | drop (w : Fin n) (t : Task Cb) (f : ℕ) (hw : (s.workers w).pc = .took t)
      (ht : t.ft.work = .fiber f) (hf : (s.states f).ended) :
      Effect tid s (.check w) (s.setPc w (.dropping t (s.states f)))
  | enter (w : Fin n) (t : Task Cb) (f : ℕ) (hw : (s.workers w).pc = .took t)
      (ht : t.ft.work = .fiber f) (hf : ¬ (s.states f).ended) :
      Effect tid s (.check w) (s.setPc w (.running .entering t f false))
  | checkCb (w : Fin n) (t : Task Cb) (c : Cb) (hw : (s.workers w).pc = .took t)
      (ht : t.ft.work = .cb c) : Effect tid s (.check w) (s.setPc w (.preparing t))
  | reuse (w : Fin n) (t : Task Cb) (f : ℕ) (hw : (s.workers w).pc = .preparing t)
      (hcb : (s.workers w).cb_fiber = some f) (hf : resettable (s.states f)) :
      Effect tid s (.prepare w) ((s.setState f .INIT).setPc w (.running .entering t f true))
  | make (w : Fin n) (t : Task Cb) (hw : (s.workers w).pc = .preparing t)
      (hcb : (s.workers w).cb_fiber = none) :
      Effect tid s (.prepare w) { s.setState s.made .INIT with
        made := s.made + 1
        workers := Function.update s.workers w { s.workers w with
          pc := .running .entering t s.made true
          cb_fiber := some s.made } }
  | swapIn (w : Fin n) (t : Task Cb) (f : ℕ) (cb : Bool)
      (hw : (s.workers w).pc = .running .entering t f cb) (hf : s.states f ≠ .EXEC) :
      Effect tid s (.swapIn w) { (s.setState f .EXEC).setPc w (.running .inside t f cb) with
        wakes := Function.update s.wakes f 0 }
  | yieldToReady (w : Fin n) (t : Task Cb) (f : ℕ) (cb : Bool)
      (hw : (s.workers w).pc = .running .inside t f cb) (hf : s.states f = .EXEC) :
      Effect tid s (.yieldToReady w)
        ((s.setState f .READY).setPc w (.running .leaving t f cb))
  | yieldToHold (w : Fin n) (t : Task Cb) (f : ℕ) (cb : Bool)
      (hw : (s.workers w).pc = .running .inside t f cb) (hf : s.states f = .EXEC) :
      Effect tid s (.yieldToHold w) (s.setPc w (.running .leaving t f cb))
  | finish (w : Fin n) (threw : Bool) (t : Task Cb) (f : ℕ) (cb : Bool)
      (hw : (s.workers w).pc = .running .inside t f cb) :
      Effect tid s (.finish w threw)
        ((s.setState f (if threw then .EXCEPT else .TERM)).setPc w (.running .leaving t f cb))
  | swapOut (w : Fin n) (t : Task Cb) (f : ℕ) (cb : Bool)
      (hw : (s.workers w).pc = .running .leaving t f cb) :
      Effect tid s (.swapOut w) (s.setPc w (.running .returned t f cb))
  | ran (w : Fin n) (t : Task Cb) (f : ℕ) (cb : Bool)
      (hw : (s.workers w).pc = .running .returned t f cb) :
      Effect tid s (.decrement w) { s.setPc w (.after .testReady f cb) with
        m_activeThreadCount := decr s.m_activeThreadCount
        finished := (t, .ran) :: s.finished }
  | dropped (w : Fin n) (t : Task Cb) (state : FiberState)
      (hw : (s.workers w).pc = .dropping t state) :
      Effect tid s (.decrement w) { s.setPc w .top with
        m_activeThreadCount := decr s.m_activeThreadCount
        finished := (t, .dropped state) :: s.finished }
  | testReady (w : Fin n) (f : ℕ) (cb : Bool) (hw : (s.workers w).pc = .after .testReady f cb) :
      Effect tid s (.settle w)
        (s.setPc w (.after (if s.states f = .READY then .requeue else .testEnded) f cb))
  | testEnded (w : Fin n) (f : ℕ) (cb : Bool) (hw : (s.workers w).pc = .after .testEnded f cb)
      (hf : (s.states f).ended) :
      Effect tid s (.settle w) (s.setPc w (if cb then .after .reset f cb else .top))
  | testOther (w : Fin n) (f : ℕ) (cb : Bool) (hw : (s.workers w).pc = .after .testEnded f cb)
      (hf : ¬ (s.states f).ended) : Effect tid s (.settle w) (s.setPc w (.after .hold f cb))
  | requeue (w : Fin n) (f : ℕ) (cb : Bool) (hw : (s.workers w).pc = .after .requeue f cb) :
      Effect tid s (.settle w) ((s.push ⟨.fiber f, -1⟩).release w cb)
  | hold (w : Fin n) (f : ℕ) (cb : Bool) (hw : (s.workers w).pc = .after .hold f cb) :
      Effect tid s (.settle w) ((s.setState f .HOLD).release w cb)
  | reset (w : Fin n) (f : ℕ) (cb : Bool) (hw : (s.workers w).pc = .after .reset f cb)
      (hf : resettable (s.states f)) :
      Effect tid s (.settle w) ((s.setState f .INIT).setPc w .top)
  | idleIn (w : Fin n) (hw : (s.workers w).pc = .toIdle) :
      Effect tid s (.idleIn w) { s.setPc w .idling with
        m_idleThreadCount := incr s.m_idleThreadCount }
  | idleOut (w : Fin n) (term : Bool) (hw : (s.workers w).pc = .idling) :
      Effect tid s (.idleOut w term) { s with
        m_idleThreadCount := decr s.m_idleThreadCount
        workers := Function.update s.workers w { s.workers w with
          pc := .top
          idle_term := term } }

/-- The assertions of `swapIn`, of `YieldToReady` and `YieldToHold`, and of `reset`. -/
inductive Fault (s : Scheduler n Cb) : Prop
  | swapIn (w : Fin n) (t : Task Cb) (f : ℕ) (cb : Bool)
      (hw : (s.workers w).pc = .running .entering t f cb) (hf : s.states f = .EXEC)
  | yield (w : Fin n) (t : Task Cb) (f : ℕ) (cb : Bool)
      (hw : (s.workers w).pc = .running .inside t f cb) (hf : s.states f ≠ .EXEC)
  | prepare (w : Fin n) (t : Task Cb) (f : ℕ) (hw : (s.workers w).pc = .preparing t)
      (hcb : (s.workers w).cb_fiber = some f) (hf : ¬ resettable (s.states f))
  | reset (w : Fin n) (f : ℕ) (cb : Bool) (hw : (s.workers w).pc = .after .reset f cb)
      (hf : ¬ resettable (s.states f))

inductive Outcome (tid : Fin n → ℤ) (s : Scheduler n Cb) (m : Move n Cb) :
    Except StepFault (Scheduler n Cb) → Prop
  | ok {s' : Scheduler n Cb} (h : Effect tid s m s') : Outcome tid s m (.ok s')
  | notEnabled : Outcome tid s m (.error .notEnabled)
  | assertFailed (h : Fault s) : Outcome tid s m (.error .assertFailed)

theorem step_outcome (tid : Fin n → ℤ) (s : Scheduler n Cb) (m : Move n Cb) :
    Outcome tid s m (step tid s m) := by
  cases m with
  | schedule works =>
    change Outcome tid s _ (s.schedule works)
    unfold schedule
    split
    · next hall => exact .ok (.schedule works fun x hx => List.all_eq_true.mp hall x hx)
    · exact .notEnabled
  | newFiber => exact .ok .newFiber
  | dequeue w =>
    change Outcome tid s _ (s.dequeue tid w)
    unfold dequeue
    split
    · next hw =>
      split
      · next t rest ht => exact .ok (.take w t rest hw ht)
      · exact .ok (.takeNone w hw)
    · exact .notEnabled
  | check w =>
    change Outcome tid s _ (s.check w)
    unfold check
    split
    · next t hw =>
      split
      · next f ht =>
        split
        · next hf => exact .ok (.drop w t f hw ht hf)
        · next hf => exact .ok (.enter w t f hw ht hf)
      · next c ht => exact .ok (.checkCb w t c hw ht)
    · exact .notEnabled
  | prepare w =>
    change Outcome tid s _ (s.prepare w)
    unfold prepare
    split
    · next t hw =>
      split
      · next f hcb =>
        split
        · next hf => exact .ok (.reuse w t f hw hcb hf)
        · next hf => exact .assertFailed (.prepare w t f hw hcb hf)
      · next hcb => exact .ok (.make w t hw hcb)
    · exact .notEnabled
  | swapIn w =>
    change Outcome tid s _ (s.swapIn w)
    unfold swapIn
    split
    · next t f cb hw =>
      split
      · next hf => exact .assertFailed (.swapIn w t f cb hw hf)
      · next hf => exact .ok (.swapIn w t f cb hw hf)
    · exact .notEnabled
  | yieldToReady w =>
    change Outcome tid s _ (s.yieldToReady w)
    unfold yieldToReady
    split
    · next t f cb hw =>
      split
      · next hf => exact .ok (.yieldToReady w t f cb hw hf)
      · next hf => exact .assertFailed (.yield w t f cb hw hf)
    · exact .notEnabled
  | yieldToHold w =>
    change Outcome tid s _ (s.yieldToHold w)
    unfold yieldToHold
    split
    · next t f cb hw =>
      split
      · next hf => exact .ok (.yieldToHold w t f cb hw hf)
      · next hf => exact .assertFailed (.yield w t f cb hw hf)
    · exact .notEnabled
  | finish w threw =>
    change Outcome tid s _ (s.finish w threw)
    unfold finish
    split
    · next t f cb hw => exact .ok (.finish w threw t f cb hw)
    · exact .notEnabled
  | swapOut w =>
    change Outcome tid s _ (s.swapOut w)
    unfold swapOut
    split
    · next t f cb hw => exact .ok (.swapOut w t f cb hw)
    · exact .notEnabled
  | decrement w =>
    change Outcome tid s _ (s.decrement w)
    unfold decrement
    split
    · next t f cb hw => exact .ok (.ran w t f cb hw)
    · next t state hw => exact .ok (.dropped w t state hw)
    · exact .notEnabled
  | settle w =>
    change Outcome tid s _ (s.settle w)
    unfold settle
    split
    · next f cb hw => exact .ok (.testReady w f cb hw)
    · next f cb hw =>
      split
      · next hf => exact .ok (.testEnded w f cb hw hf)
      · next hf => exact .ok (.testOther w f cb hw hf)
    · next f cb hw => exact .ok (.requeue w f cb hw)
    · next f cb hw => exact .ok (.hold w f cb hw)
    · next f cb hw =>
      split
      · next hf => exact .ok (.reset w f cb hw hf)
      · next hf => exact .assertFailed (.reset w f cb hw hf)
    · exact .notEnabled
  | idleIn w =>
    change Outcome tid s _ (s.idleIn w)
    unfold idleIn
    split
    · next hw => exact .ok (.idleIn w hw)
    · exact .notEnabled
  | idleOut w term =>
    change Outcome tid s _ (s.idleOut w term)
    unfold idleOut
    split
    · next hw => exact .ok (.idleOut w term hw)
    · exact .notEnabled

theorem step_effect {m : Move n Cb} (h : step tid s m = .ok s') : Effect tid s m s' := by
  have houtcome := step_outcome tid s m
  rw [h] at houtcome
  cases houtcome with
  | ok heffect => exact heffect

theorem fault_of_step {m : Move n Cb} (h : step tid s m = .error .assertFailed) : Fault s := by
  have houtcome := step_outcome tid s m
  rw [h] at houtcome
  cases houtcome with
  | assertFailed hfault => exact hfault

theorem foldl_scheduleNoLock {P : Scheduler n Cb → Prop} {works : List (Option (Work Cb) × ℤ)}
    (hs : P s)
    (hpush : ∀ r work thread, (some work, thread) ∈ works → P r → P (r.push ⟨work, thread⟩)) :
    P (works.foldl (fun s x => s.scheduleNoLock x.1 x.2) s) := by
  refine List.foldlRecOn works _ hs fun r hr x hx => ?_
  obtain ⟨work, thread⟩ := x
  cases work with
  | none => exact hr
  | some work => exact hpush r work thread hx hr

/-- The task that a worker has dequeued and not yet counted as done. -/
def held : Pc Cb → Option (Task Cb)
  | .took t | .preparing t | .dropping t _ | .running _ t _ _ => some t
  | .top | .after _ _ _ | .toIdle | .idling | .stopped => none

def pool (s : Scheduler n Cb) : Pool (Fin n) (Task Cb) Fate where
  queue := s.m_fibers
  held := fun w => held (s.workers w).pc
  taken := s.dequeued
  done := s.finished
  accepted := s.accepted
  active := s.m_activeThreadCount

def mayTake (tid : Fin n → ℤ) (t : Task Cb) (w : Fin n) : Prop :=
  t.ft.thread = -1 ∨ t.ft.thread = tid w

/-- A task is dropped only if it is a fiber that was seen to have ended. -/
def mayEnd (t : Task Cb) : Fate → Prop
  | .ran => True
  | .dropped state => (∃ f, t.ft.work = .fiber f) ∧ state.ended

/-- The steps of the pool that the scheduler takes. -/
abbrev PoolStep (tid : Fin n → ℤ) :
    Pool (Fin n) (Task Cb) Fate → Pool (Fin n) (Task Cb) Fate → Prop :=
  Pool.Step (2 ^ 64) (mayTake tid) mayEnd

theorem held_update (ws : Fin n → Worker Cb) (w : Fin n) (x : Worker Cb) :
    (fun v => held (Function.update ws w x v).pc) =
      Function.update (fun v => held (ws v).pc) w (held x.pc) := by
  funext v
  exact Function.apply_update (fun _ (y : Worker Cb) => held y.pc) ws w x v

theorem held_update_eq {ws : Fin n → Worker Cb} {w : Fin n} {x : Worker Cb}
    (h : held x.pc = held (ws w).pc) :
    (fun v => held (Function.update ws w x v).pc) = fun v => held (ws v).pc := by
  rw [held_update, h]
  exact Function.update_eq_self w fun v => held (ws v).pc

theorem pool_keeps {w : Fin n} {x : Worker Cb} (hx : held x.pc = held (s.workers w).pc)
    (hw : s'.workers = Function.update s.workers w x) (hq : s'.m_fibers = s.m_fibers)
    (hd : s'.dequeued = s.dequeued) (hf : s'.finished = s.finished)
    (ha : s'.accepted = s.accepted) (hc : s'.m_activeThreadCount = s.m_activeThreadCount) :
    Relation.ReflTransGen (PoolStep tid) (pool s) (pool s') := by
  have heq : pool s' = pool s := by
    unfold pool
    rw [hw, hq, hd, hf, ha, hc, held_update_eq hx]
  rw [heq]

theorem pool_held {w : Fin n} {pc : Pc Cb} (hw : (s.workers w).pc = pc) :
    (pool s).held w = held pc := by
  rw [← hw]
  rfl

theorem pool_take (s : Scheduler n Cb) (w : Fin n) (t : Task Cb) (rest : List (Task Cb)) :
    pool { s.setPc w (.took t) with
      m_fibers := rest
      m_activeThreadCount := incr s.m_activeThreadCount
      dequeued := (t, w) :: s.dequeued } = (pool s).take (2 ^ 64) w t rest := by
  unfold pool setPc Pool.take
  dsimp only
  rw [held_update]
  rfl

theorem pool_retire (s : Scheduler n Cb) (w : Fin n) {pc : Pc Cb} (hpc : held pc = none)
    (t : Task Cb) (fate : Fate) :
    pool { s.setPc w pc with
      m_activeThreadCount := decr s.m_activeThreadCount
      finished := (t, fate) :: s.finished } = (pool s).retire (2 ^ 64) w t fate := by
  unfold pool setPc Pool.retire
  dsimp only
  rw [held_update, hpc]
  rfl

theorem takeFirst_some {thread : ℤ} {states : ℕ → FiberState} {t : Task Cb} :
    ∀ {q rest : List (Task Cb)}, takeFirst thread states q = some (t, rest) →
      q ~ t :: rest ∧ (t.ft.thread = -1 ∨ t.ft.thread = thread) ∧
        ¬ executing states t.ft.work := by
  intro q
  induction q with
  | nil => intro rest h; cases h
  | cons x q ih =>
    intro rest h
    unfold takeFirst at h
    split at h
    · obtain ⟨⟨t', rest'⟩, hr, heq⟩ := Option.map_eq_some_iff.mp h
      cases heq
      obtain ⟨hperm, hx⟩ := ih hr
      exact ⟨(hperm.cons x).trans (.swap t' x rest'), hx⟩
    · next hskip =>
      cases h
      rw [not_or] at hskip
      exact ⟨.refl _, by tauto, hskip.2⟩

def mayDrop : Pc Cb → Prop
  | .dropping t state => mayEnd t (.dropped state)
  | _ => True

structure Sound (s : Scheduler n Cb) : Prop where
  number_lt : ∀ t ∈ s.accepted, t.number < s.accepted.length
  mayDrop : ∀ w, mayDrop (s.workers w).pc

theorem sound_init : Sound (init : Scheduler n Cb) where
  number_lt := by simp [init]
  mayDrop := fun _ => trivial

theorem sound_push (h : Sound s) (ft : FiberAndThread Cb) : Sound (s.push ft) where
  number_lt := by
    intro t ht
    have hlen : (s.push ft).accepted.length = s.accepted.length + 1 := List.length_append
    rw [hlen]
    rcases List.mem_append.mp ht with ht | ht
    · exact (h.number_lt t ht).trans (Nat.lt_succ_self _)
    · rw [List.mem_singleton.mp ht]
      exact Nat.lt_succ_self _
  mayDrop := h.mayDrop

theorem sound_worker (h : Sound s) {w : Fin n} {x : Worker Cb} (hx : mayDrop x.pc)
    (hw : s'.workers = Function.update s.workers w x) (ha : s'.accepted = s.accepted) :
    Sound s' where
  number_lt := by
    rw [ha]
    exact h.number_lt
  mayDrop := by
    rw [hw]
    exact (Function.forall_update_iff s.workers fun _ y => Scheduler.mayDrop y.pc).mpr
      ⟨hx, fun v _ => h.mayDrop v⟩

theorem sound_effect {m : Move n Cb} (h : Sound s) (he : Effect tid s m s') : Sound s' := by
  cases he with
  | schedule works hworks =>
    exact foldl_scheduleNoLock h fun r work thread _ hr => sound_push hr ⟨work, thread⟩
  | newFiber => exact ⟨h.number_lt, h.mayDrop⟩
  | drop w t f hw ht hf =>
    have hdrop : mayDrop (.dropping t (s.states f)) := ⟨⟨f, ht⟩, hf⟩
    exact sound_worker h hdrop rfl rfl
  | requeue w f cb hw => exact sound_worker (sound_push h _) (by trivial) rfl rfl
  | takeNone w hw =>
    refine sound_worker h ?_ rfl rfl
    dsimp only
    split <;> trivial
  | testEnded w f cb hw hf =>
    refine sound_worker h ?_ rfl rfl
    dsimp only
    split <;> trivial
  | _ => exact sound_worker h (by trivial) rfl rfl

theorem pool_submit (h : Sound s) (ft : FiberAndThread Cb) :
    PoolStep tid (pool s) (pool (s.push ft)) := by
  apply Pool.Step.submit
  intro hmem
  exact (h.number_lt _ hmem).ne rfl

theorem pool_effect {m : Move n Cb} (h : Sound s) (he : Effect tid s m s') :
    Relation.ReflTransGen (PoolStep tid) (pool s) (pool s') := by
  cases he with
  | schedule works hworks =>
    have hall : Sound (works.foldl (fun s x => s.scheduleNoLock x.1 x.2) s) ∧
        Relation.ReflTransGen (PoolStep tid) (pool s)
          (pool (works.foldl (fun s x => s.scheduleNoLock x.1 x.2) s)) := by
      apply foldl_scheduleNoLock (P := fun r => Sound r ∧
        Relation.ReflTransGen (PoolStep tid) (pool s) (pool r)) ⟨h, .refl⟩
      intro r work thread _ hr
      exact ⟨sound_push hr.1 _, hr.2.tail (pool_submit hr.1 _)⟩
    exact hall.2
  | newFiber => exact .refl
  | take w t rest hw ht =>
    obtain ⟨hperm, hthread, -⟩ := takeFirst_some ht
    rw [pool_take]
    exact .single (.take w t rest (pool_held hw) hperm hthread)
  | ran w t f cb hw =>
    rw [pool_retire s w rfl]
    exact .single (.retire w t .ran (pool_held hw) trivial)
  | dropped w t state hw =>
    have hdrop := h.mayDrop w
    rw [hw] at hdrop
    rw [pool_retire s w rfl]
    exact .single (.retire w t (.dropped state) (pool_held hw) hdrop)
  | takeNone w hw =>
    refine pool_keeps ?_ rfl rfl rfl rfl rfl rfl
    rw [hw]
    dsimp only
    split <;> rfl
  | testEnded w f cb hw hf =>
    refine pool_keeps ?_ rfl rfl rfl rfl rfl rfl
    rw [hw]
    dsimp only
    split <;> rfl
  | requeue w f cb hw =>
    have hheld : held .top = held ((s.push ⟨.fiber f, -1⟩).workers w).pc := by
      show none = held (s.workers w).pc
      rw [hw]
      rfl
    exact .head (pool_submit h _) (pool_keeps hheld rfl rfl rfl rfl rfl rfl)
  | _ =>
    refine pool_keeps ?_ rfl rfl rfl rfl rfl rfl
    rw [‹(s.workers _).pc = _›]
    rfl

theorem balanced_step {m : Move n Cb}
    (h : Sound s ∧ Pool.Balanced (2 ^ 64) (mayTake tid) mayEnd (pool s))
    (hs : step tid s m = .ok s') :
    Sound s' ∧ Pool.Balanced (2 ^ 64) (mayTake tid) mayEnd (pool s') :=
  ⟨sound_effect h.1 (step_effect hs), h.2.run (pool_effect h.1 (step_effect hs))⟩

/-- Every accepted task is in one place, where nothing else is; it is dequeued once, by a
thread it is for; and the busy workers are counted. -/
structure Orderly (tid : Fin n → ℤ) (s : Scheduler n Cb) : Prop where
  one_place : ∀ t ∈ s.accepted, ∃! place, (pool s).At t place
  accepted : ∀ t place, (pool s).At t place → t ∈ s.accepted
  queued_once : s.m_fibers.Nodup
  dequeued_once : (s.dequeued.map Prod.fst).Nodup
  finished_once : (s.finished.map Prod.fst).Nodup
  dequeued_iff : ∀ t ∈ s.accepted, (∃ w, (t, w) ∈ s.dequeued) ↔ t ∉ s.m_fibers
  held_dequeued : ∀ w t, held (s.workers w).pc = some t → (t, w) ∈ s.dequeued
  pinned : ∀ t w, (t, w) ∈ s.dequeued → t.ft.thread = -1 ∨ t.ft.thread = tid w
  dropped : ∀ t state, (t, .dropped state) ∈ s.finished →
    (∃ f, t.ft.work = .fiber f) ∧ state.ended
  active : s.m_activeThreadCount =
    (Finset.univ.filter fun w => (held (s.workers w).pc).isSome).card
  no_wrap : ∀ w, (held (s.workers w).pc).isSome → 0 < s.m_activeThreadCount

theorem active_eq (hn : n < 2 ^ 64)
    (h : Pool.Balanced (2 ^ 64) (mayTake tid) mayEnd (pool s)) : s.m_activeThreadCount =
      (Finset.univ.filter fun w => (held (s.workers w).pc).isSome).card := by
  have hcard : Fintype.card (Fin n) < 2 ^ 64 := by rwa [Fintype.card_fin]
  exact (h.active_eq hcard).trans (Pool.card_inHand (pool s))

theorem orderly_of_balanced (hn : n < 2 ^ 64)
    (h : Pool.Balanced (2 ^ 64) (mayTake tid) mayEnd (pool s)) : Orderly tid s where
  one_place := fun _ ht => h.existsUnique_place ht
  accepted := fun _ _ hplace => h.mem_accepted hplace
  queued_once := h.queue_nodup
  dequeued_once := h.taken_nodup
  finished_once := h.done_nodup
  dequeued_iff := fun _ ht => h.mem_taken_iff ht
  held_dequeued := h.held_taken
  pinned := fun t w ht => h.may_take (t, w) ht
  dropped := fun t state ht => h.may_end (t, .dropped state) ht
  active := active_eq hn h
  no_wrap := by
    intro w hw
    rw [active_eq hn h]
    exact Finset.card_pos.mpr ⟨w, Finset.mem_filter.mpr ⟨Finset.mem_univ w, hw⟩⟩

theorem tasks_in_one_place (hn : n < 2 ^ 64) (tid : Fin n → ℤ) (ms : List (Move n Cb)) :
    Along (step tid) (Orderly tid) init ms := by
  apply Along.mono fun s (h : Sound s ∧ Pool.Balanced (2 ^ 64) (mayTake tid) mayEnd (pool s)) =>
    orderly_of_balanced hn h.2
  apply along_of_each _ (fun _ _ => True) (fun s m s' h _ hs => balanced_step h hs)
  · exact ⟨sound_init, Pool.balanced_start⟩
  · exact each_true ms init

def first : Fin 2 := 0

def second : Fin 2 := 1

/-- The first worker drops a fiber that has ended, the second runs a function. -/
def twoWorkers : List (Move 2 Unit) :=
  [.schedule [(some (.cb ()), 11)], .newFiber, .schedule [(some (.fiber 0), -1), (none, -1)],
    .dequeue first, .check first, .dequeue second, .swapIn first, .check second, .prepare second,
    .finish first false, .schedule [(some (.fiber 0), 10)], .swapIn second, .swapOut first,
    .decrement first, .settle first, .finish second true, .settle first, .dequeue first,
    .check first, .decrement first, .swapOut second, .decrement second]

theorem tasks_in_one_place_two_workers :
    ((twoWorkers.foldlM (step ![10, 11]) init).toOption.map fun s =>
      (s.m_activeThreadCount, s.finished.map fun x => (x.1.number, x.2))) =
        some (0, [(0, .ran), (2, .dropped .TERM), (1, .ran)]) ∧
      Along (step ![10, 11]) (Orderly ![10, 11]) init twoWorkers :=
  ⟨by decide +kernel, tasks_in_one_place (by decide) ![10, 11] twoWorkers⟩

end Scheduler

end Sylar
