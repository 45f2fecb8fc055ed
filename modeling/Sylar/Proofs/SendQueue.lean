import Sylar.Proofs.AsyncSocketStream

/-! No message is stranded in `m_queue`. `enqueue` signals only when it found the queue empty,
and every place that empties the queue leaves it to the next `enqueue` to signal. -/

namespace Sylar

open Lib FiberSemaphore

namespace AsyncSocketStream

variable {S : Type}

/-- Someone will look at the queue: an `enqueue` before its `notify`, or `doWrite` with the
permit it was granted. -/
inductive Looks : Role S → Instr S → Prop
  | wake (role : Role S) : Looks role .wake
  | swapQueue (this : Option S) : Looks (.doWrite this) .swapQueue

/-- Whenever there is a message, there is a permit or someone who looks. -/
def NotStranded (f : Fibers S) : Prop :=
  f.shared.m_queue ≠ [] → 0 < f.shared.m_sem.m_concurrency ∨
    ∃ k role i rest, look f.threads k = some ⟨role, i :: rest⟩ ∧ Looks role i

/-- `m_sem.notify` does not find the counter at its maximum. -/
def NoWrap (f : Fibers S) : Move S → Prop
  | .turn k _ => (f.code k).head? = some .wake ∨ (f.code k).head? = some .notifySem →
      f.shared.m_sem.m_concurrency + 1 < 2 ^ 64
  | _ => True

variable {f : Fibers S} {k : ℕ} {role : Role S} {i : Instr S} {w : World} {t : FiberTurn S}
  {rest : List (Instr S)}

namespace NotStranded

theorem start (h : NotStranded f) {shared : AsyncSocketStream S} (role : Role S)
    (code : List (Instr S)) (hqueue : shared.m_queue = f.shared.m_queue)
    (hsem : shared.m_sem = f.shared.m_sem) : NotStranded (f.start shared role code) := by
  intro hne
  change shared.m_queue ≠ [] at hne
  rw [hqueue] at hne
  show 0 < shared.m_sem.m_concurrency ∨ _
  rw [hsem]
  refine (h hne).imp_right ?_
  rintro ⟨j, r, i, c, hlook, hlooks⟩
  exact ⟨j, r, i, c, Threads.look_start_old shared role code hlook, hlooks⟩

variable [DecidableEq S]

theorem looks_turn (hwaiters : Waiters f) (hran : Threads.Ran exec f k w role i rest t)
    (hi : ¬ Looks role i)
    (h : ∃ k role i rest, look f.threads k = some ⟨role, i :: rest⟩ ∧ Looks role i) :
    ∃ j r i c, look (f.after resume k role rest t).threads j = some ⟨r, i :: c⟩ ∧ Looks r i := by
  obtain ⟨j, r, i', c, hlook, hlooks⟩ := h
  have hk := hran.look_eq
  have hj : j ≠ k := by
    rintro rfl
    cases hk.symm.trans hlook
    exact hi hlooks
  have hres : t.resumed ≠ some j := by
    intro hres
    obtain ⟨r', i'', c', hlook', hwaits⟩ := hwaiters.resumed hran hres
    cases hlook.symm.trans hlook'
    rcases hwaits with ⟨hwaits, -⟩ | ⟨⟨second, hwaits⟩, -⟩ <;> cases hwaits <;> cases hlooks
  exact ⟨j, r, i', c, Threads.look_after_other hk hres hj hlook, hlooks⟩

theorem keep (h : NotStranded f) (hwaiters : Waiters f)
    (hran : Threads.Ran exec f k w role i rest t) (hi : ¬ Looks role i)
    (hqueue : t.shared.m_queue = f.shared.m_queue)
    (hsem : t.shared.m_sem.m_concurrency = f.shared.m_sem.m_concurrency) :
    NotStranded (f.after resume k role rest t) := by
  intro hne
  change t.shared.m_queue ≠ [] at hne
  rw [hqueue] at hne
  show 0 < t.shared.m_sem.m_concurrency ∨ _
  rw [hsem]
  exact (h hne).imp_right (looks_turn hwaiters hran hi)

theorem turn (h : NotStranded f) (hwaiters : Waiters f) (hroles : Roles f)
    (hran : Threads.Ran exec f k w role i rest t) (hwrap : NoWrap f (.turn k w)) :
    NotStranded (f.after resume k role rest t) := by
  have hk := hran.look_eq
  have hrole : inRole role i := hroles k _ hk i List.mem_cons_self
  have hself := hwaiters.resumed_ne hran
  rcases exec_cases hran.exec_eq with ⟨s', next, rfl, hctxs⟩ | hflow
  · refine h.keep hwaiters hran ?_ hctxs.frame.m_queue (congrArg _ hctxs.frame.m_sem)
    intro hlooks
    cases hlooks <;> cases hctxs with
    | writes w hw => cases hw
  · cases hflow with
    | control hcontrol =>
      refine h.keep hwaiters hran ?_ hcontrol.frame.1 (congrArg _ hcontrol.frame.2.1)
      intro hlooks
      cases hlooks <;> cases hcontrol
    | pushed m =>
      by_cases hempty : f.shared.m_queue = []
      · intro _
        right
        refine ⟨k, role, .wake, rest, ?_, .wake role⟩
        rw [Threads.look_after_self hk hself]
        simp [Turn.only, hempty]
      · intro _
        refine (h hempty).imp_right (looks_turn hwaiters hran ?_)
        intro hlooks
        cases hlooks
    | notified hi hnotify =>
      intro _
      cases hnotify with
      | handed next rest' hwaiting =>
        -- the fiber that is resumed is `doWrite`
        right
        have hmem : next.2 ∈ f.shared.m_sem.m_waiters.map Prod.snd := by
          rw [hwaiting]
          exact List.mem_map_of_mem List.mem_cons_self
        obtain ⟨r, j, c, hlook, hj⟩ := hwaiters.sem.waits _ hmem
        cases hj
        have hne : next.2 ≠ k := fun heq => hself (congrArg some heq)
        have hr : inRole r .waitingSem := hroles _ _ hlook _ List.mem_cons_self
        cases r <;> cases hr
        exact ⟨next.2, _, .swapQueue, c, Threads.look_after_resumed hk rfl hne hlook, .swapQueue _⟩
      | counted hwaiting =>
        left
        have hlt : f.shared.m_sem.m_concurrency + 1 < 2 ^ 64 := by
          apply hwrap
          rw [Threads.code_of_look hk]
          exact hi.imp (congrArg some) (congrArg some)
        show 0 < incr f.shared.m_sem.m_concurrency
        rw [incr, Nat.mod_eq_of_lt hlt]
        exact Nat.succ_pos _
    | cleared => exact fun hne => absurd rfl hne
    | swapped => exact fun hne => absurd rfl hne
    | waited hw =>
      cases hw with
      | granted hpos =>
        intro _
        right
        cases role <;> cases hrole
        exact ⟨k, _, .swapQueue, rest, Threads.look_after_self hk (Option.some_ne_none k).symm, .swapQueue _⟩
      | suspended scheduler hthis hzero =>
        refine h.keep hwaiters hran ?_ rfl rfl
        intro hlooks
        cases hlooks
    | collected second hw =>
      refine h.keep hwaiters hran ?_ rfl rfl
      intro hlooks
      cases hlooks
    | gave hnotify =>
      refine h.keep hwaiters hran ?_ rfl rfl
      intro hlooks
      cases hlooks
    | startRead | startWrite =>
      refine h.keep hwaiters hran ?_ rfl rfl
      intro hlooks
      cases hlooks

omit [DecidableEq S] in
theorem threw (h : NotStranded f) {old new : List (Instr S)}
    (hk : look f.threads k = some ⟨role, old⟩) (hthrown : Thrown old new) :
    NotStranded (f.put k role new) := by
  intro hne
  refine (h hne).imp_right ?_
  rintro ⟨j, r, i, c, hlook, hlooks⟩
  refine ⟨j, r, i, c, Threads.look_put_other hk new hlook fun heq => ?_, hlooks⟩
  obtain ⟨i', rest, rfl, hi⟩ := hthrown.head
  cases heq
  rcases hi with rfl | rfl <;> cases hlooks

theorem step {f' : Fibers S} {m : Move S} (h : NotStranded f) (hwaiters : Waiters f)
    (hroles : Roles f) (hm : NoWrap f m) (hs : Stepped f m f') : NotStranded f' := by
  cases hs with
  | returned hm => exact h
  | request this sn => exact h.start _ _ rfl rfl
  | sendMessage => exact h.start _ _ rfl rfl
  | start this => exact h.start _ _ rfl rfl
  | onTimeOut hc hx => exact h.start _ _ rfl rfl
  | close => exact h
  | turn hran => exact h.turn hwaiters hroles hran hm
  | threw hk hthrown => exact h.threw hk hthrown

end NotStranded

theorem messages_not_stranded [DecidableEq S] (connected : Bool) (iomanager : Option S)
    (ms : List (Move S)) (hms : Each step NoWrap (init connected iomanager) ms) :
    Along step NotStranded (init connected iomanager) ms := by
  have hall := along_of_each (fun f => NotStranded f ∧ Waiters f ∧ Roles f) NoWrap
    (fun f m f' hf hm hs => ⟨hf.1.step hf.2.1 hf.2.2 hm (step_stepped hs),
      hf.2.1.step (step_stepped hs), hf.2.2.step hf.2.1 (step_stepped hs)⟩) ms
    (init connected iomanager)
    ⟨fun hne => absurd rfl hne, .init connected iomanager, .init connected iomanager⟩ hms
  exact hall.mono fun _ hf => hf.1

instance (f : Fibers S) [DecidableEq S] : ∀ m : Move S, Decidable (NoWrap f m)
  | .turn k _ => inferInstanceAs (Decidable
      ((f.code k).head? = some .wake ∨ (f.code k).head? = some .notifySem →
        f.shared.m_sem.m_concurrency + 1 < 2 ^ 64))
  | .request _ _ | .sendMessage | .start _ | .onTimeOut _ | .close | .threw _ => .isTrue trivial

/-- A message is sent, the next cannot be, and a third comes while `doWrite` closes the
stream. -/
def sendFails : List (Move ℕ) :=
  [.start (some 7), .turn 0 .quiet, .turn 0 .quiet, .turn 0 (.outcome true),
    .turn 0 (.outcome true), .turn 0 .quiet, .turn 0 .quiet, .turn 2 .quiet, .turn 2 .quiet,
    .sendMessage, .sendMessage, .turn 3 .quiet, .turn 4 .quiet, .turn 3 .quiet, .turn 2 .quiet,
    .turn 2 (.sent .sent), .turn 2 (.sent .failed), .sendMessage, .turn 2 .quiet, .turn 5 .quiet,
    .turn 2 .quiet]

theorem messages_not_stranded_sendFails :
    (sendFails.foldlM step (init true none)).isOk ∧
      Along step NotStranded (init true none) sendFails :=
  ⟨by decide, messages_not_stranded true none sendFails (by decide)⟩

theorem step_last [DecidableEq S] {s s' : AsyncSocketStream S} {next : List (Instr S)}
    {ts : List (Thread (Role S) (Instr S))}
    (h : s.exec ts.length role i w = .ok (.only s' next)) :
    step ⟨s, ts ++ [⟨role, i :: rest⟩]⟩ (.turn ts.length w) =
      .ok ⟨s', ts ++ [⟨role, next ++ rest⟩]⟩ := by
  show Threads.run resume exec .notEnabled _ ts.length w = _
  unfold Threads.run
  have hget : (ts ++ [⟨role, i :: rest⟩])[ts.length]? = some ⟨role, i :: rest⟩ := by simp
  simp only [hget, h]
  simp [Threads.after, Threads.wake, Turn.only]

def failingStart (n : ℕ) : List (Move ℕ) :=
  [.start (some 7), .turn n .quiet, .turn n .quiet, .turn n (.outcome false), .turn n .quiet,
    .turn n .quiet, .turn n (.order []), .turn n .quiet, .turn n .quiet, .turn n .quiet]

/-- A stream that is not connected, with `n` permits of `m_sem`. -/
def unconnected (n : ℕ) (refused gaveBack : List ℕ) (ts : List (Thread (Role ℕ) (Instr ℕ))) :
    Fibers ℕ where
  shared :=
    { m_isConnected := false
      m_ctxs := []
      m_queue := []
      m_sem := ⟨[], n⟩
      m_waitSem := ⟨[], 2⟩
      m_iomanager := some 7
      heap := []
      refused := refused
      gaveBack := gaveBack }
  threads := ts

theorem run_failingStart (n : ℕ) (refused gaveBack : List ℕ)
    (ts : List (Thread (Role ℕ) (Instr ℕ))) :
    (failingStart ts.length).foldlM step (unconnected n refused gaveBack ts) =
      .ok (unconnected (incr n) (refused ++ [ts.length]) (gaveBack ++ [ts.length] ++ [ts.length])
        (ts ++ [⟨.start (some 7), []⟩])) := by
  refine (foldlM_cons_ok rfl _).trans ?_
  -- the two waits, `reconnect` and the steps of `innerClose`
  refine (foldlM_cons_ok (step_last rfl) _).trans ?_
  refine (foldlM_cons_ok (step_last rfl) _).trans ?_
  refine (foldlM_cons_ok (step_last rfl) _).trans ?_
  refine (foldlM_cons_ok (step_last rfl) _).trans ?_
  refine (foldlM_cons_ok (step_last rfl) _).trans ?_
  refine (foldlM_cons_ok (step_last rfl) _).trans ?_
  refine (foldlM_cons_ok (step_last rfl) _).trans ?_
  refine (foldlM_cons_ok (step_last rfl) _).trans ?_
  refine (foldlM_cons_ok (step_last rfl) _).trans ?_
  rfl

theorem run_failingStarts (n : ℕ) (hn : n < 2 ^ 64) :
    ∃ (ms : List (Move ℕ)) (refused gaveBack : List ℕ) (ts : List (Thread (Role ℕ) (Instr ℕ))),
      ts.length = n ∧ (∀ u ∈ ts, u.code = []) ∧
      ms.foldlM step (init false (some 7)) = .ok (unconnected n refused gaveBack ts) := by
  induction n with
  | zero => exact ⟨[], [], [], [], rfl, nofun, rfl⟩
  | succ n ih =>
    obtain ⟨ms, refused, gaveBack, ts, hlen, hended, hrun⟩ := ih (by omega)
    refine ⟨ms ++ failingStart n, refused ++ [n], gaveBack ++ [n] ++ [n],
      ts ++ [⟨.start (some 7), []⟩], ?_, ?_, ?_⟩
    · rw [List.length_append, hlen]
      rfl
    · intro u hu
      rcases List.mem_append.mp hu with hu | hu
      · exact hended u hu
      · rw [List.mem_singleton.mp hu]
    · have hcycle := run_failingStart n refused gaveBack ts
      rw [hlen, incr, Nat.mod_eq_of_lt hn] at hcycle
      exact (foldlM_append_ok hrun _).trans hcycle

/-- `start` connects, and a message is sent before `doWrite` comes to wait. -/
def sendsAtOnce (n : ℕ) : List (Move ℕ) :=
  [.start (some 7), .turn n .quiet, .turn n .quiet, .turn n (.outcome true), .turn n (.outcome true),
    .sendMessage, .turn (n + 1) .quiet, .turn (n + 1) .quiet]

theorem run_sendsAtOnce (n : ℕ) (refused gaveBack : List ℕ)
    (ts : List (Thread (Role ℕ) (Instr ℕ))) :
    (sendsAtOnce ts.length).foldlM step (unconnected n refused gaveBack ts) =
      .ok ⟨{ (unconnected n refused gaveBack ts).shared with
          m_isConnected := true
          m_queue := [.message]
          m_sem := ⟨[], incr n⟩
          m_waitSem := ⟨[], 0⟩ },
        ts ++ [⟨.start (some 7), [.startRead, .startWrite]⟩] ++ [⟨.sendMessage, []⟩]⟩ := by
  refine (foldlM_cons_ok rfl _).trans ?_
  refine (foldlM_cons_ok (step_last rfl) _).trans ?_
  refine (foldlM_cons_ok (step_last rfl) _).trans ?_
  refine (foldlM_cons_ok (step_last rfl) _).trans ?_
  refine (foldlM_cons_ok (step_last rfl) _).trans ?_
  refine (foldlM_cons_ok rfl _).trans ?_
  have hlen : ts.length + 1 =
      (ts ++ [(⟨.start (some 7), [.startRead, .startWrite]⟩ : Thread (Role ℕ) (Instr ℕ))]).length := by
    simp
  rw [hlen]
  refine (foldlM_cons_ok (step_last rfl) _).trans ?_
  refine (foldlM_cons_ok (step_last rfl) _).trans ?_
  rfl

/-- With the permits that `innerClose` leaves behind the counter can be at its maximum when a
message comes. -/
theorem message_stranded :
    ¬ ∀ ms : List (Move ℕ), Along step NotStranded (init false (some 7)) ms := by
  intro hall
  obtain ⟨ms, refused, gaveBack, ts, hlen, hended, hrun⟩ :=
    run_failingStarts (2 ^ 64 - 1) (by norm_num)
  have hsends := run_sendsAtOnce (2 ^ 64 - 1) refused gaveBack ts
  have hwrap : incr (2 ^ 64 - 1) = 0 := by norm_num [incr]
  rw [hwrap] at hsends
  have hlast := (foldlM_append_ok hrun _).trans hsends
  rcases (hall _).last hlast nofun with hpos | ⟨k, role, i, rest, hlook, hlooks⟩
  · exact absurd hpos (Nat.lt_irrefl 0)
  · rcases List.mem_append.mp (List.mem_of_getElem? hlook) with hmem | hmem
    · rcases List.mem_append.mp hmem with hmem | hmem
      · cases hended _ hmem
      · cases List.mem_singleton.mp hmem
        cases hlooks
    · cases List.mem_singleton.mp hmem

end AsyncSocketStream

end Sylar
