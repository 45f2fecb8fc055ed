import Sylar.Proofs.SchedulerFibers

/-! The thread that a fiber or a function is scheduled on. `run` keeps it with the entry of
the queue and not with the fiber, and queues a fiber that has yielded to `READY` for any
thread. -/

namespace Sylar

open Lib

open scoped List

namespace Scheduler

variable {n : ℕ} {Cb : Type} {tid : Fin n → ℤ} {s s' : Scheduler n Cb} {f : ℕ}

def fiberOf : Option (Work Cb) → Option ℕ
  | some (.fiber f) => some f
  | some (.cb _) | none => none

/-- The fiber in which a worker runs the function it has taken. -/
def cbFiber (s : Scheduler n Cb) (w : Fin n) : ℕ := (s.workers w).cb_fiber.getD s.made

/-- `pin` is the thread on which each fiber was last scheduled. It is a record and not part
of the program. A function gives its thread to the fiber that it is run in. -/
structure Pinned (n : ℕ) (Cb : Type) where
  scheduler : Scheduler n Cb
  pin : ℕ → ℤ

def pinWork (pin : ℕ → ℤ) (x : Option (Work Cb) × ℤ) : ℕ → ℤ :=
  match fiberOf x.1 with
  | some f => Function.update pin f x.2
  | none => pin

def repin (s : Scheduler n Cb) (pin : ℕ → ℤ) : Move n Cb → ℕ → ℤ
  | .schedule works => works.foldl pinWork pin
  | .prepare w =>
      match (s.workers w).pc with
      | .preparing t => Function.update pin (s.cbFiber w) t.ft.thread
      | _ => pin
  | _ => pin

namespace Pinned

def init : Pinned n Cb := ⟨Scheduler.init, fun _ => -1⟩

def step (tid : Fin n → ℤ) (p : Pinned n Cb) (m : Move n Cb) : Except StepFault (Pinned n Cb) :=
  (p.scheduler.step tid m).map fun s' => ⟨s', p.scheduler.repin p.pin m⟩

end Pinned

def toEnter : Pc Cb → Option ℕ
  | .running .entering _ f _ => some f
  | _ => none

/-- The task for whose function a worker is about to get its fiber ready. -/
def toPrepare : Pc Cb → Option (Task Cb)
  | .preparing t => some t
  | _ => none

/-- The fiber that a worker is about to queue again. -/
def toRequeue : Pc Cb → Option ℕ
  | .after .requeue f _ => some f
  | _ => none

def brings (f : ℕ) : Pc Cb → Bool
  | .took t => isFiber f t.ft.work
  | .running .entering _ g _ => g = f
  | _ => false

/-- The worker is on its way into the fiber or may take an entry of it. -/
def mayEnter (tid : Fin n → ℤ) (s : Scheduler n Cb) (f : ℕ) (w : Fin n) : Bool :=
  brings f (s.workers w).pc ||
    s.m_fibers.any fun t => isFiber f t.ft.work && (t.ft.thread = -1 || t.ft.thread = tid w)

def Reserved (tid : Fin n → ℤ) (s : Scheduler n Cb) (f : ℕ) (thread : ℤ) : Prop :=
  thread = -1 ∨ ∀ w, mayEnter tid s f w → tid w = thread

/-- What is scheduled together is not scheduled on different threads. -/
def Agrees (works : List (Option (Work Cb) × ℤ)) (f : ℕ) (thread : ℤ) : Prop :=
  thread = -1 ∨ ∀ y ∈ works, fiberOf y.1 = some f → y.2 = thread

/-- A fiber that is scheduled on a thread, or gets a function for that thread, has no entry
that another thread may take. A fiber with a thread of its own is not queued again after
`YieldToReady`, unless there is no other thread. -/
def KeepsPins (tid : Fin n → ℤ) (p : Pinned n Cb) : Move n Cb → Prop
  | .schedule works => ∀ x ∈ works, ∀ f ∈ fiberOf x.1,
      Reserved tid p.scheduler f x.2 ∧ Agrees works f x.2
  | .prepare w => ∀ t ∈ toPrepare (p.scheduler.workers w).pc,
      Reserved tid p.scheduler (p.scheduler.cbFiber w) t.ft.thread
  | .settle w => ∀ f ∈ toRequeue (p.scheduler.workers w).pc, p.pin f = -1 ∨ ∀ v, tid v = p.pin f
  | _ => True

/-- A slice of a fiber is on the thread that the fiber was last scheduled on. -/
def OnItsThread (tid : Fin n → ℤ) (p : Pinned n Cb) : Move n Cb → Prop
  | .swapIn w => ∀ f ∈ toEnter (p.scheduler.workers w).pc, p.pin f = -1 ∨ tid w = p.pin f
  | _ => True

instance (thread : ℤ) : Decidable (Reserved tid s f thread) :=
  inferInstanceAs (Decidable (_ ∨ _))

instance (works : List (Option (Work Cb) × ℤ)) (thread : ℤ) : Decidable (Agrees works f thread) :=
  inferInstanceAs (Decidable (_ ∨ _))

instance (p : Pinned n Cb) : ∀ m : Move n Cb, Decidable (KeepsPins tid p m)
  | .schedule works => inferInstanceAs (Decidable (∀ x ∈ works, ∀ f ∈ fiberOf x.1,
      Reserved tid p.scheduler f x.2 ∧ Agrees works f x.2))
  | .prepare w => inferInstanceAs (Decidable (∀ t ∈ toPrepare (p.scheduler.workers w).pc,
      Reserved tid p.scheduler (p.scheduler.cbFiber w) t.ft.thread))
  | .settle w => inferInstanceAs (Decidable (∀ f ∈ toRequeue (p.scheduler.workers w).pc,
      p.pin f = -1 ∨ ∀ v, tid v = p.pin f))
  | .newFiber | .dequeue _ | .check _ | .swapIn _ | .yieldToReady _ | .yieldToHold _
  | .finish _ _ | .swapOut _ | .decrement _ | .idleIn _ | .idleOut _ _ => .isTrue trivial

instance (p : Pinned n Cb) : ∀ m : Move n Cb, Decidable (OnItsThread tid p m)
  | .swapIn w => inferInstanceAs (Decidable (∀ f ∈ toEnter (p.scheduler.workers w).pc,
      p.pin f = -1 ∨ tid w = p.pin f))
  | .schedule _ | .newFiber | .dequeue _ | .check _ | .prepare _ | .yieldToReady _
  | .yieldToHold _ | .finish _ _ | .swapOut _ | .decrement _ | .settle _ | .idleIn _
  | .idleOut _ _ => .isTrue trivial

theorem mayEnter_iff {w : Fin n} : mayEnter tid s f w ↔
    brings f (s.workers w).pc ∨ ∃ t ∈ s.m_fibers, isFiber f t.ft.work ∧ mayTake tid t w := by
  simp [mayEnter, mayTake]

theorem Reserved.mono {thread : ℤ} (h : Reserved tid s f thread)
    (hs : ∀ w, mayEnter tid s' f w → mayEnter tid s f w) : Reserved tid s' f thread := by
  apply h.imp_right
  intro hall w hw
  exact hall w (hs w hw)

/-- No entry is added, and a worker that is now on its way in was so, or had an entry to
take. -/
theorem mayEnter_of_worker {w v : Fin n} {x : Worker Cb}
    (hw : s'.workers = Function.update s.workers w x) (hq : s'.m_fibers ⊆ s.m_fibers)
    (hx : brings f x.pc → mayEnter tid s f w) (h : mayEnter tid s' f v) : mayEnter tid s f v := by
  rcases mayEnter_iff.mp h with hb | ⟨t, ht, hft, hmay⟩
  · rw [hw] at hb
    by_cases hv : v = w
    · subst hv
      rw [Function.update_self] at hb
      exact hx hb
    · rw [Function.update_of_ne hv] at hb
      exact mayEnter_iff.mpr (.inl hb)
  · exact mayEnter_iff.mpr (.inr ⟨t, hq ht, hft, hmay⟩)

/-- Every fiber is reserved for the thread it is to run on. -/
def Home (tid : Fin n → ℤ) (p : Pinned n Cb) : Prop :=
  ∀ f, Reserved tid p.scheduler f (p.pin f)

theorem home_worker {w : Fin n} {x : Worker Cb} {pin : ℕ → ℤ} (h : Home tid ⟨s, pin⟩)
    (hw : s'.workers = Function.update s.workers w x) (hq : s'.m_fibers ⊆ s.m_fibers)
    (hx : ∀ f, brings f x.pc → mayEnter tid s f w) : Home tid ⟨s', pin⟩ := by
  intro f
  exact (h f).mono fun v => mayEnter_of_worker hw hq (hx f)

theorem pinWork_of_ne {x : Option (Work Cb) × ℤ} (hx : fiberOf x.1 ≠ some f) (pin : ℕ → ℤ) :
    pinWork pin x f = pin f := by
  unfold pinWork
  cases hg : fiberOf x.1 with
  | none => rfl
  | some g =>
    apply Function.update_of_ne
    rintro rfl
    exact hx hg

theorem foldl_pinWork (f : ℕ) (works : List (Option (Work Cb) × ℤ)) (pin : ℕ → ℤ) :
    (works.foldl pinWork pin f = pin f ∧ ∀ x ∈ works, fiberOf x.1 ≠ some f) ∨
      ∃ x ∈ works, fiberOf x.1 = some f ∧ works.foldl pinWork pin f = x.2 := by
  induction works generalizing pin with
  | nil => exact .inl ⟨rfl, by simp⟩
  | cons x works ih =>
    rw [List.foldl_cons]
    rcases ih (pinWork pin x) with ⟨hpin, hnone⟩ | ⟨y, hy, hf, hpin⟩
    · by_cases hx : fiberOf x.1 = some f
      · refine .inr ⟨x, List.mem_cons_self, hx, ?_⟩
        rw [hpin]
        simp [pinWork, hx]
      · refine .inl ⟨hpin.trans (pinWork_of_ne hx pin), ?_⟩
        intro y hy
        rcases List.mem_cons.mp hy with rfl | hy
        · exact hx
        · exact hnone y hy
    · exact .inr ⟨y, List.mem_cons_of_mem x hy, hf, hpin⟩

theorem mem_scheduled {works : List (Option (Work Cb) × ℤ)} {t : Task Cb}
    (ht : t ∈ (works.foldl (fun s x => s.scheduleNoLock x.1 x.2) s).m_fibers) :
    t ∈ s.m_fibers ∨ (some t.ft.work, t.ft.thread) ∈ works := by
  revert ht
  apply foldl_scheduleNoLock (P := fun r => t ∈ r.m_fibers →
    t ∈ s.m_fibers ∨ (some t.ft.work, t.ft.thread) ∈ works)
  · exact .inl
  · intro r work thread hwork hr ht
    rcases List.mem_append.mp ht with ht | ht
    · exact hr ht
    · rw [List.mem_singleton.mp ht]
      exact .inr hwork

theorem workers_schedule (works : List (Option (Work Cb) × ℤ)) :
    (works.foldl (fun s x => s.scheduleNoLock x.1 x.2) s).workers = s.workers :=
  foldl_scheduleNoLock (P := fun r => r.workers = s.workers) rfl fun _ _ _ _ hr => hr

theorem home_schedule {pin : ℕ → ℤ} {works : List (Option (Work Cb) × ℤ)} (h : Home tid ⟨s, pin⟩)
    (hC : KeepsPins tid ⟨s, pin⟩ (.schedule works)) :
    Home tid ⟨works.foldl (fun s x => s.scheduleNoLock x.1 x.2) s, works.foldl pinWork pin⟩ := by
  intro f
  have hmay : ∀ w, mayEnter tid (works.foldl (fun s x => s.scheduleNoLock x.1 x.2) s) f w →
      mayEnter tid s f w ∨ ∃ y ∈ works, fiberOf y.1 = some f ∧ (y.2 = -1 ∨ y.2 = tid w) := by
    intro w hw
    rcases mayEnter_iff.mp hw with hb | ⟨t, ht, hft, htake⟩
    · rw [workers_schedule] at hb
      exact .inl (mayEnter_iff.mpr (.inl hb))
    · rcases mem_scheduled ht with ht | ht
      · exact .inl (mayEnter_iff.mpr (.inr ⟨t, ht, hft, htake⟩))
      · refine .inr ⟨_, ht, ?_, htake⟩
        rw [isFiber_iff.mp hft]
        rfl
  show Reserved tid _ f (works.foldl pinWork pin f)
  rcases foldl_pinWork f works pin with ⟨hpin, hnone⟩ | ⟨x, hx, hf, hpin⟩
  · rw [hpin]
    apply (h f).mono
    intro w hw
    rcases hmay w hw with hw | ⟨y, hy, hfy, -⟩
    · exact hw
    · exact absurd hfy (hnone y hy)
  · rw [hpin]
    obtain ⟨hres, hagree⟩ := hC x hx f hf
    by_cases hany : x.2 = -1
    · exact .inl hany
    · refine .inr fun w hw => ?_
      rcases hmay w hw with hw | ⟨y, hy, hfy, htake⟩
      · exact hres.resolve_left hany w hw
      · have hyx : y.2 = x.2 := hagree.resolve_left hany y hy hfy
        rw [← hyx]
        exact (htake.resolve_left (hyx ▸ hany)).symm

theorem home_prepare {w : Fin n} {t : Task Cb} {pin : ℕ → ℤ} {x : Worker Cb} {g : ℕ}
    (h : Home tid ⟨s, pin⟩) (ht : mayTake tid t w) (hg : Reserved tid s g t.ft.thread)
    (hw : s'.workers = Function.update s.workers w x) (hq : s'.m_fibers = s.m_fibers)
    (hx : x.pc = .running .entering t g true) :
    Home tid ⟨s', Function.update pin g t.ft.thread⟩ := by
  intro f
  show Reserved tid s' f (Function.update pin g t.ft.thread f)
  by_cases hf : f = g
  · subst hf
    rw [Function.update_self]
    by_cases hany : t.ft.thread = -1
    · exact .inl hany
    · refine .inr fun v hv => ?_
      by_cases hvw : v = w
      · rw [hvw]
        exact (ht.resolve_left hany).symm
      · rcases mayEnter_iff.mp hv with hb | hrest
        · rw [hw, Function.update_of_ne hvw] at hb
          exact hg.resolve_left hany v (mayEnter_iff.mpr (.inl hb))
        · rw [hq] at hrest
          exact hg.resolve_left hany v (mayEnter_iff.mpr (.inr hrest))
  · rw [Function.update_of_ne hf]
    refine (h f).mono fun v => mayEnter_of_worker hw (hq ▸ List.Subset.refl _) fun hb => ?_
    rw [hx] at hb
    exact absurd (of_decide_eq_true hb).symm hf

theorem home_requeue {w : Fin n} {cb : Bool} {pin : ℕ → ℤ} {g : ℕ} (h : Home tid ⟨s, pin⟩)
    (hg : pin g = -1 ∨ ∀ v, tid v = pin g) :
    Home tid ⟨(s.push ⟨.fiber g, -1⟩).release w cb, pin⟩ := by
  have hpush : Home tid ⟨s.push ⟨.fiber g, -1⟩, pin⟩ := by
    intro f
    by_cases hf : f = g
    · subst hf
      exact hg.imp_right fun hall v _ => hall v
    · apply (h f).mono
      intro v hv
      rcases mayEnter_iff.mp hv with hb | ⟨t, ht, hft, htake⟩
      · exact mayEnter_iff.mpr (.inl hb)
      · rcases List.mem_append.mp ht with ht | ht
        · exact mayEnter_iff.mpr (.inr ⟨t, ht, hft, htake⟩)
        · rw [List.mem_singleton.mp ht] at hft
          exact absurd (of_decide_eq_true hft).symm hf
  exact home_worker hpush rfl (List.Subset.refl _) fun _ hb => absurd hb (by simp [brings])

theorem home_effect {m : Move n Cb} {pin : ℕ → ℤ}
    (hheld : ∀ w t, held (s.workers w).pc = some t → mayTake tid t w) (h : Home tid ⟨s, pin⟩)
    (hC : KeepsPins tid ⟨s, pin⟩ m) (he : Effect tid s m s') : Home tid ⟨s', s.repin pin m⟩ := by
  cases he with
  | schedule works hworks => exact home_schedule h hC
  | newFiber => exact fun f => h f
  | take w t rest hw ht =>
    obtain ⟨hperm, hthread, -⟩ := takeFirst_some ht
    refine home_worker h rfl (fun u hu => hperm.symm.subset (List.mem_cons_of_mem t hu)) ?_
    intro f hb
    exact mayEnter_iff.mpr (.inr ⟨t, hperm.symm.subset List.mem_cons_self, hb, hthread⟩)
  | enter w t g hw ht hf =>
    refine home_worker h rfl (List.Subset.refl _) fun f hb => mayEnter_iff.mpr (.inl ?_)
    rw [hw]
    show isFiber f t.ft.work
    rw [ht]
    exact hb
  | reuse w t g hw hcb hf =>
    have hpin : s.repin pin (.prepare w) = Function.update pin g t.ft.thread := by
      simp [repin, hw, cbFiber, hcb]
    have hres := hC t (by rw [hw]; rfl)
    rw [show s.cbFiber w = g by simp [cbFiber, hcb]] at hres
    rw [hpin]
    exact home_prepare h (hheld w t (by rw [hw]; rfl)) hres rfl rfl rfl
  | make w t hw hcb =>
    have hpin : s.repin pin (.prepare w) = Function.update pin s.made t.ft.thread := by
      simp [repin, hw, cbFiber, hcb]
    have hres := hC t (by rw [hw]; rfl)
    rw [show s.cbFiber w = s.made by simp [cbFiber, hcb]] at hres
    rw [hpin]
    exact home_prepare h (hheld w t (by rw [hw]; rfl)) hres rfl rfl rfl
  | requeue w g cb hw => exact home_requeue h (hC g (by rw [hw]; rfl))
  | takeNone w hw =>
    refine home_worker h rfl (List.Subset.refl _) fun f hb => absurd hb ?_
    dsimp only
    split <;> simp [brings]
  | testEnded w g cb hw hf =>
    refine home_worker h rfl (List.Subset.refl _) fun f hb => absurd hb ?_
    dsimp only
    split <;> simp [brings]
  | _ => exact home_worker h rfl (List.Subset.refl _) fun f hb => absurd hb (by simp [brings])

theorem step_pinned {p p' : Pinned n Cb} {m : Move n Cb} (h : p.step tid m = .ok p') :
    ∃ s', p.scheduler.step tid m = .ok s' ∧ p' = ⟨s', p.scheduler.repin p.pin m⟩ := by
  unfold Pinned.step at h
  cases hs : p.scheduler.step tid m with
  | error fault =>
    rw [hs] at h
    cases h
  | ok s' =>
    rw [hs] at h
    cases h
    exact ⟨s', rfl, rfl⟩

theorem onItsThread_of_home {p : Pinned n Cb} (h : Home tid p) (m : Move n Cb) :
    OnItsThread tid p m := by
  cases m with
  | swapIn w =>
    intro f hf
    have hb : brings f (p.scheduler.workers w).pc := by
      unfold toEnter at hf
      split at hf
      · next hw =>
        cases hf
        rw [hw]
        exact decide_eq_true rfl
      · cases hf
    exact (h f).imp_right fun hall => hall w (mayEnter_iff.mpr (.inl hb))
  | _ => trivial

/-- The tasks are in order and every fiber is reserved for its thread. -/
structure Kept (tid : Fin n → ℤ) (p : Pinned n Cb) : Prop where
  tasks : Sound p.scheduler ∧ Pool.Balanced (2 ^ 64) (mayTake tid) mayEnd (pool p.scheduler)
  home : Home tid p

theorem kept_init : Kept tid (Pinned.init : Pinned n Cb) where
  tasks := ⟨sound_init, Pool.balanced_start⟩
  home := fun _ => .inl rfl

theorem kept_step {p p' : Pinned n Cb} {m : Move n Cb} (h : Kept tid p) (hC : KeepsPins tid p m)
    (hs : p.step tid m = .ok p') : Kept tid p' := by
  obtain ⟨s', hs', rfl⟩ := step_pinned hs
  refine ⟨balanced_step h.tasks hs', home_effect ?_ h.home hC (step_effect hs')⟩
  intro w t hw
  exact h.tasks.2.may_take _ (h.tasks.2.held_taken w t hw)

theorem slices_on_its_thread (tid : Fin n → ℤ) (ms : List (Move n Cb))
    (hC : Each (Pinned.step tid) (KeepsPins tid) Pinned.init ms) :
    Each (Pinned.step tid) (OnItsThread tid) Pinned.init ms := by
  have halong : Along (Pinned.step tid) (Kept tid) Pinned.init ms :=
    along_of_each (Kept tid) (KeepsPins tid) (fun _ _ _ => kept_step) ms Pinned.init kept_init hC
  exact halong.each_of fun p m h => onItsThread_of_home h.home m

/-- A fiber for thread 11 holds and is scheduled for thread 10. A function for thread 11
holds, and its fiber is scheduled for any thread and then yields to `READY`. -/
def movedRuns : List (Move 2 Unit) :=
  [.newFiber, .schedule [(some (.fiber 0), 11)], .dequeue first, .dequeue second, .check second,
    .swapIn second, .yieldToHold second, .schedule [(some (.fiber 0), 10)], .swapOut second,
    .decrement second, .settle second, .settle second, .settle second, .idleIn first,
    .idleOut first false, .dequeue first, .check first, .swapIn first,
    .schedule [(some (.cb ()), 11)], .dequeue second, .check second, .prepare second,
    .swapIn second, .yieldToHold second, .swapOut second, .decrement second, .settle second,
    .settle second, .settle second, .schedule [(some (.fiber 1), -1)], .dequeue second,
    .check second, .swapIn second, .yieldToReady second, .swapOut second, .decrement second,
    .settle second, .settle second, .dequeue second, .check second, .swapIn second]

theorem slices_on_its_thread_moved :
    (movedRuns.foldlM (Pinned.step ![10, 11]) Pinned.init).isOk ∧
      Each (Pinned.step ![10, 11]) (OnItsThread ![10, 11]) Pinned.init movedRuns :=
  ⟨by decide +kernel, slices_on_its_thread ![10, 11] movedRuns (by decide +kernel)⟩

/-- A fiber for thread 10 yields to `READY` and the worker on thread 11 takes it. -/
def pinnedYield : List (Move 2 Unit) :=
  [.newFiber, .schedule [(some (.fiber 0), 10)], .dequeue first, .check first, .swapIn first,
    .yieldToReady first, .swapOut first, .decrement first, .settle first, .settle first,
    .dequeue second, .check second, .swapIn second]

theorem yielding_fiber_leaves_its_thread :
    ¬ ∀ (n : ℕ) (tid : Fin n → ℤ) (ms : List (Move n Unit)),
      Each (Pinned.step tid) (OnItsThread tid) Pinned.init ms := by
  intro hall
  have heach := hall 2 ![10, 11] pinnedYield
  revert heach
  decide +kernel

def pinnedCbYield : List (Move 2 Unit) :=
  [.schedule [(some (.cb ()), 10)], .dequeue first, .check first, .prepare first, .swapIn first,
    .yieldToReady first, .swapOut first, .decrement first, .settle first, .settle first,
    .dequeue second, .check second, .swapIn second]

example : ¬ Each (Pinned.step ![10, 11]) (OnItsThread ![10, 11]) Pinned.init pinnedCbYield := by
  decide +kernel

end Scheduler

end Sylar
