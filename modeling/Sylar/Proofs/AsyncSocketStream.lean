import Sylar.Lib.Partial
import Sylar.Proofs.FiberSemaphore
import Sylar.Spec.AsyncSocketStream

/-! What a step of an `AsyncSocketStream` can do. A step works on the contexts or leaves them
alone, and a fiber that waits at a semaphore is at the place where it waits. -/

namespace Sylar

open Lib FiberSemaphore

namespace AsyncSocketStream

variable {S : Type}

/-- The steps that only write a field of a context. -/
inductive Writes : Instr S → ℕ → (Ctx S → Ctx S) → Prop
  | addTimer (c : ℕ) : Writes (.addTimer c) c fun x => { x with armed := true }
  | setTimer (c : ℕ) : Writes (.setTimer c) c fun x => { x with timer := true }
  | setTimed (c : ℕ) : Writes (.setTimed c) c fun x => { x with timed := true }
  | ioError (c : ℕ) : Writes (.ioError c) c fun x => { x with result := IO_ERROR }
  | setResponse (c r : ℕ) (result : UInt32) :
      Writes (.setResponse c r result) c fun x => { x with result := result, response := some r }

/-- What `doRecv` does with what it found for a response. -/
def answer (r : ℕ) (result : UInt32) : Option ℕ → List (Instr S)
  | none => [.readLoop]
  | some c => [.setResponse c r result] ++ doRspCode c ++ [.readLoop]

inductive OnCtxs [DecidableEq S] (s : AsyncSocketStream S) (k : ℕ) :
    Instr S → World → AsyncSocketStream S → List (Instr S) → Prop
  | added {c : ℕ} {x : Ctx S} (w : World) (hc : look s.heap c = some x)
      (hfind : Assoc.find s.m_ctxs x.sn = none) :
      OnCtxs s k (.addCtx c) w { s with m_ctxs := (x.sn, c) :: s.m_ctxs } []
  | present {c d : ℕ} {x : Ctx S} (w : World) (hc : look s.heap c = some x)
      (hfind : Assoc.find s.m_ctxs x.sn = some d) : OnCtxs s k (.addCtx c) w s []
  | writes {i : Instr S} {c : ℕ} {f : Ctx S → Ctx S} (w : World) (hi : Writes i c f) :
      OnCtxs s k i w (s.setCtx c f) []
  | erased {c : ℕ} {x : Ctx S} (w : World) (hc : look s.heap c = some x) :
      OnCtxs s k (.eraseCtx c) w (s.erase k x.sn) []
  | responded {r : ℕ} {x : Ctx S} (result : UInt32) (hr : look s.heap r = some x) :
      OnCtxs s k .doRecv (.received (.response r result)) (s.erase k x.sn)
        (answer r result (Assoc.find s.m_ctxs x.sn))
  | rsp {c : ℕ} {x : Ctx S} (stage : Rsp S) (w : World) (hc : look s.heap c = some x) :
      OnCtxs s k (.rsp c stage) w (s.setCtx c fun _ => (x.doRsp stage).1)
        ((x.doRsp stage).2.map (.rsp c))
  | swapped {ctxs : List ℕ} (hctxs : ctxs.Perm (s.m_ctxs.map Prod.snd)) :
      OnCtxs s k .swapCtxs (.order ctxs) (s.swapCtxs k)
        ([.clearQueue] ++ ctxs.flatMap fun c => [.ioError c] ++ doRspCode c)

/-- The steps between the others: they see or change the connection, or send. -/
inductive Control (s : AsyncSocketStream S) (k : ℕ) :
    Instr S → AsyncSocketStream S → List (Instr S) → Prop
  | close : Control s k .close { s with m_isConnected := false } []
  | connected : Control s k .connect s [.connectCb]
  | reconnected : Control s k .connect { s with m_isConnected := true } [.connectCb]
  | unconnected : Control s k .connect { s with refused := s.refused ++ [k] } startFails
  | accepted : Control s k .connectCb s [.startRead, .startWrite]
  | refused : Control s k .connectCb { s with refused := s.refused ++ [k] } startFails
  | reads : Control s k .readLoop s [.doRecv]
  | readStops : Control s k .readLoop s readEnds
  | other : Control s k .doRecv s [.readLoop]
  | null : Control s k .doRecv s (innerCloseCode ++ [.readLoop])
  | readThrew : Control s k .doRecv s readEnds
  | writes : Control s k .writeLoop s [.waitSem]
  | writeStops : Control s k .writeLoop s writeEnds
  | sends (ctxs : List SendCtx) (how : Sent) : Control s k (.doSend ctxs) s (doSend ctxs how)

/-- The steps that leave the contexts alone. -/
inductive Flow (s : AsyncSocketStream S) (k : ℕ) (role : Role S) : Instr S → FiberTurn S → Prop
  | control {i : Instr S} {s' : AsyncSocketStream S} {next : List (Instr S)}
      (h : Control s k i s' next) : Flow s k role i (.only s' next)
  | pushed (m : SendCtx) : Flow s k role (.push m)
      (.only { s with m_queue := s.m_queue ++ [m] } (if s.m_queue = [] then [.wake] else []))
  | notified {i : Instr S} {r : FiberSemaphore S ℕ × Option (S × ℕ)}
      (hi : i = .wake ∨ i = .notifySem) (h : Notified s.m_sem r) :
      Flow s k role i ⟨{ s with m_sem := r.1 }, [], [], r.2.map Prod.snd⟩
  | cleared : Flow s k role .clearQueue (.only { s with m_queue := [] } [])
  | swapped : Flow s k role .swapQueue (.only { s with m_queue := [] } [.doSend s.m_queue])
  | waited {r : FiberSemaphore S ℕ × Bool} (h : Waited s.m_sem role.this k r) :
      Flow s k role .waitSem
        (.only { s with m_sem := r.1 } [if r.2 then .waitingSem else .swapQueue])
  | collected (second : Bool) {r : FiberSemaphore S ℕ × Bool}
      (h : Waited s.m_waitSem role.this k r) : Flow s k role (.waitFiber second)
        (.only { s with m_waitSem := r.1 }
          [if r.2 then .waitingFiber second else resume (.waitingFiber second)])
  | gave {r : FiberSemaphore S ℕ × Option (S × ℕ)} (h : Notified s.m_waitSem r) :
      Flow s k role .notifyWait
        ⟨{ s with m_waitSem := r.1, gaveBack := s.gaveBack ++ [k] }, [], [], r.2.map Prod.snd⟩
  | startRead : Flow s k role .startRead ⟨s, [], [⟨.doRead s.m_iomanager, [.readLoop]⟩], none⟩
  | startWrite : Flow s k role .startWrite ⟨s, [], [⟨.doWrite s.m_iomanager, [.writeLoop]⟩], none⟩

variable {s : AsyncSocketStream S} {k : ℕ} {role : Role S} {i : Instr S} {w : World}
  {t : FiberTurn S}

theorem wait_turn {sem : FiberSemaphore S ℕ} {set : FiberSemaphore S ℕ → AsyncSocketStream S}
    {this : Option S} {granted waiting : Instr S}
    (h : wait sem set k this granted waiting = .ok t) :
    ∃ r, Waited sem this k r ∧ t = .only (set r.1) [if r.2 then waiting else granted] := by
  unfold wait at h
  split at h
  · cases h
  · next r hr => exact ⟨r, wait_waited hr, (Except.ok.inj h).symm⟩

theorem doRecv_cases [DecidableEq S] {msg : Received} (h : s.doRecv k msg = .ok t) :
    (∃ s' next, t = .only s' next ∧ OnCtxs s k .doRecv (.received msg) s' next) ∨
      Flow s k role .doRecv t := by
  unfold doRecv at h
  split at h
  · next r result =>
    split at h
    · cases h
    · next x hx =>
      left
      refine ⟨_, _, ?_, .responded result hx⟩
      rw [← Except.ok.inj h]
      unfold getAndDelCtx answer
      rfl
  · exact .inr (Except.ok.inj h ▸ .control .other)
  · exact .inr (Except.ok.inj h ▸ .control .null)
  · exact .inr (Except.ok.inj h ▸ .control .readThrew)

theorem exec_cases [DecidableEq S] (h : s.exec k role i w = .ok t) :
    (∃ s' next, t = .only s' next ∧ OnCtxs s k i w s' next) ∨ Flow s k role i t := by
  unfold exec at h
  split at h
  · next c =>
    left
    unfold addCtx at h
    cases hx : s.heap[c]? with
    | none =>
      rw [hx] at h
      cases h
    | some x =>
      simp only [hx] at h
      cases hfind : Assoc.find s.m_ctxs x.sn with
      | none =>
        simp only [hfind] at h
        exact ⟨_, _, (Except.ok.inj h).symm, .added _ hx hfind⟩
      | some d =>
        simp only [hfind] at h
        exact ⟨_, _, (Except.ok.inj h).symm, .present _ hx hfind⟩
  · exact .inl ⟨_, _, (Except.ok.inj h).symm, .writes _ (.addTimer _)⟩
  · exact .inl ⟨_, _, (Except.ok.inj h).symm, .writes _ (.setTimer _)⟩
  · exact .inr (Except.ok.inj h ▸ .pushed _)
  · exact .inr (Except.ok.inj h ▸ .notified (.inl rfl) (notify_notified _))
  · split at h
    · cases h
    · next x hx => exact .inl ⟨_, _, (Except.ok.inj h).symm, .erased _ hx⟩
  · exact .inl ⟨_, _, (Except.ok.inj h).symm, .writes _ (.setTimed _)⟩
  · split at h
    · cases h
    · next x hx => exact .inl ⟨_, _, (Except.ok.inj h).symm, .rsp _ _ hx⟩
  · split at h
    · exact .inr (Except.ok.inj h ▸ .control .close)
    · cases h
  · exact .inr (Except.ok.inj h ▸ .notified (.inr rfl) (notify_notified _))
  · split at h
    · next hctxs => exact .inl ⟨_, _, (Except.ok.inj h).symm, .swapped hctxs⟩
    · cases h
  · exact .inr (Except.ok.inj h ▸ .cleared)
  · exact .inl ⟨_, _, (Except.ok.inj h).symm, .writes _ (.ioError _)⟩
  · obtain ⟨r, hr, rfl⟩ := wait_turn h
    exact .inr (.collected _ hr)
  · split at h
    · exact .inr (Except.ok.inj h ▸ .control .connected)
    · split at h
      · exact .inr (Except.ok.inj h ▸ .control .reconnected)
      · exact .inr (Except.ok.inj h ▸ .control .unconnected)
  · split at h
    · exact .inr (Except.ok.inj h ▸ .control .accepted)
    · exact .inr (Except.ok.inj h ▸ .control .refused)
  · exact .inr (Except.ok.inj h ▸ .startRead)
  · exact .inr (Except.ok.inj h ▸ .startWrite)
  · rw [← Except.ok.inj h]
    split
    · exact .inr (.control .reads)
    · exact .inr (.control .readStops)
  · exact doRecv_cases h
  · exact .inl ⟨_, _, (Except.ok.inj h).symm, .writes _ (.setResponse _ _ _)⟩
  · rw [← Except.ok.inj h]
    split
    · exact .inr (.control .writes)
    · exact .inr (.control .writeStops)
  · obtain ⟨r, hr, rfl⟩ := wait_turn h
    exact .inr (.waited hr)
  · exact .inr (Except.ok.inj h ▸ .swapped)
  · exact .inr (Except.ok.inj h ▸ .control (.sends _ _))
  · exact .inr (Except.ok.inj h ▸ .gave (notify_notified _))
  · cases h

/-- What the steps on the contexts leave as it was. -/
structure Frame (s s' : AsyncSocketStream S) : Prop where
  m_queue : s'.m_queue = s.m_queue
  m_sem : s'.m_sem = s.m_sem
  m_waitSem : s'.m_waitSem = s.m_waitSem
  refused : s'.refused = s.refused
  gaveBack : s'.gaveBack = s.gaveBack

theorem erase_frame (s : AsyncSocketStream S) (k : ℕ) (sn : UInt32) : Frame s (s.erase k sn) := by
  unfold erase
  split
  · exact ⟨rfl, rfl, rfl, rfl, rfl⟩
  · exact ⟨rfl, rfl, rfl, rfl, rfl⟩

theorem OnCtxs.frame [DecidableEq S] {s' : AsyncSocketStream S} {next : List (Instr S)}
    (h : OnCtxs s k i w s' next) : Frame s s' := by
  cases h with
  | erased w hc => exact erase_frame s k _
  | responded result hr => exact erase_frame s k _
  | _ => exact ⟨rfl, rfl, rfl, rfl, rfl⟩

theorem Control.frame {s' : AsyncSocketStream S} {next : List (Instr S)}
    (h : Control s k i s' next) :
    s'.m_queue = s.m_queue ∧ s'.m_sem = s.m_sem ∧ s'.m_waitSem = s.m_waitSem := by
  cases h with
  | _ => exact ⟨rfl, rfl, rfl⟩

theorem Flow.heap_eq (h : Flow s k role i t) :
    t.shared.heap = s.heap ∧ t.shared.m_ctxs = s.m_ctxs := by
  cases h with
  | control h => cases h <;> exact ⟨rfl, rfl⟩
  | _ => exact ⟨rfl, rfl⟩

def ofCtx : Instr S → Bool
  | .addCtx _ | .addTimer _ | .setTimer _ | .eraseCtx _ | .setTimed _ | .rsp _ _ | .ioError _
  | .setResponse _ _ _ => true
  | _ => false

theorem Control.ofCtx_next {s' : AsyncSocketStream S} {next : List (Instr S)}
    (h : Control s k i s' next) : ∀ j ∈ next, ofCtx j = false := by
  cases h with
  | sends ctxs how =>
    unfold doSend
    split <;> simp [innerCloseCode, writeEnds, ofCtx]
  | _ => simp [startFails, readEnds, writeEnds, innerCloseCode, ofCtx]

theorem Flow.ofCtx_next (h : Flow s k role i t) : ∀ j ∈ t.next, ofCtx j = false := by
  cases h with
  | control hcontrol => exact hcontrol.ofCtx_next
  | pushed m =>
    simp only [Turn.only]
    split <;> simp [ofCtx]
  | waited hw => cases hw <;> simp [Turn.only, ofCtx]
  | collected second hw => cases hw <;> cases second <;> simp [Turn.only, resume, ofCtx]
  | _ => simp [Turn.only, ofCtx]

theorem Flow.ofCtx_born (h : Flow s k role i t) : ∀ u ∈ t.born, ∀ j ∈ u.code, ofCtx j = false := by
  cases h with
  | _ => simp [Turn.only, ofCtx]

theorem eq_of_resume {i j : Instr S} (hj : ofCtx j = true) (h : resume i = j) : i = j := by
  cases i with
  | waitingFiber second =>
    subst h
    cases second <;> cases hj
  | waitingSem =>
    subst h
    cases hj
  | _ => exact h

theorem exec_not_waiting [DecidableEq S] (h : s.exec k role i w = .ok t) :
    i ≠ .waitingSem ∧ ∀ second, i ≠ .waitingFiber second := by
  constructor
  · intro hi
    subst hi
    cases w <;> cases h
  · intro second hi
    subst hi
    cases w <;> cases h

/-- What an exception of a callback leaves of a fiber. -/
inductive Thrown : List (Instr S) → List (Instr S) → Prop
  | connectCb : Thrown [.connectCb] []
  | startFails : Thrown startFails []
  | readEnds : Thrown readEnds []
  | readLoop : Thrown (innerCloseCode ++ [.readLoop]) readEnds
  | writeLoop : Thrown (innerCloseCode ++ [.writeLoop]) writeEnds

namespace Thrown

variable {old new : List (Instr S)}

theorem of_unwind [DecidableEq S] (h : unwind old = some new) : Thrown old new := by
  unfold unwind at h
  split at h
  · next hold =>
    obtain rfl := Option.some.inj h
    rcases hold with rfl | rfl | rfl
    · exact .connectCb
    · exact .startFails
    · exact .readEnds
  · split at h
    · next hold =>
      subst hold
      exact Option.some.inj h ▸ .readLoop
    · split at h
      · next hold =>
        subst hold
        exact Option.some.inj h ▸ .writeLoop
      · cases h

theorem head (h : Thrown old new) :
    ∃ i rest, old = i :: rest ∧ (i = .connectCb ∨ i = .close) := by
  cases h with
  | connectCb => exact ⟨_, _, rfl, .inl rfl⟩
  | _ => exact ⟨_, _, rfl, .inr rfl⟩

theorem ofCtx_eq (h : Thrown old new) : (∀ i ∈ old, ofCtx i = false) ∧ ∀ i ∈ new, ofCtx i = false := by
  cases h <;> simp [AsyncSocketStream.startFails, AsyncSocketStream.readEnds, innerCloseCode,
    writeEnds, ofCtx]

end Thrown

theorem threw_thrown [DecidableEq S] {f f' : Fibers S} (h : threw f k = .ok f') :
    ∃ role old new, look f.threads k = some ⟨role, old⟩ ∧ Thrown old new ∧ f' = f.put k role new := by
  unfold threw at h
  split at h
  · cases h
  · next u hu =>
    split at h
    · cases h
    · next new hnew =>
      split at h
      · exact ⟨u.role, u.code, new, hu, .of_unwind hnew, (Except.ok.inj h).symm⟩
      · cases h

/-- What a move is: a call that makes a fiber or returns at once, `close`, a turn or an
exception. -/
inductive Stepped [DecidableEq S] (f : Fibers S) : Move S → Fibers S → Prop
  | returned {m : Move S} (hm : ∀ k w, m ≠ .turn k w) : Stepped f m f
  | request (this : S) (sn : UInt32) : Stepped f (.request this sn)
      (f.start { f.shared with heap := f.shared.heap ++ [.new sn this f.threads.length] }
        (.request f.shared.heap.length) (requestCode f.shared.heap.length))
  | sendMessage : Stepped f .sendMessage (f.start f.shared .sendMessage [.push .message])
  | start (this : Option S) : Stepped f (.start this) (start f this)
  | onTimeOut {c : ℕ} {x : Ctx S} (hc : look f.shared.heap c = some x) (hx : x.armed) :
      Stepped f (.onTimeOut c)
        (f.start (f.shared.setCtx c fun x => { x with armed := false }) (.onTimeOut c)
          (onTimeOutCode c))
  | close : Stepped f .close { f with shared := { f.shared with m_isConnected := false } }
  | turn {k : ℕ} {w : World} {role : Role S} {i : Instr S} {rest : List (Instr S)}
      {t : FiberTurn S} (h : Threads.Ran exec f k w role i rest t) :
      Stepped f (.turn k w) (f.after resume k role rest t)
  | threw {k : ℕ} {role : Role S} {old new : List (Instr S)}
      (hk : look f.threads k = some ⟨role, old⟩) (h : Thrown old new) :
      Stepped f (.threw k) (f.put k role new)

theorem step_stepped [DecidableEq S] {f f' : Fibers S} {m : Move S} (h : step f m = .ok f') :
    Stepped f m f' := by
  cases m with
  | request this sn =>
    rw [← Except.ok.inj h]
    unfold request
    split
    · exact .request this sn
    · exact .returned nofun
  | sendMessage =>
    rw [← Except.ok.inj h]
    unfold sendMessage
    split
    · exact .sendMessage
    · exact .returned nofun
  | start this => exact Except.ok.inj h ▸ .start this
  | onTimeOut c =>
    change onTimeOut f c = .ok f' at h
    unfold onTimeOut at h
    split at h
    · cases h
    · next x hx =>
      split at h
      · next harmed => exact Except.ok.inj h ▸ .onTimeOut hx harmed
      · cases h
  | close => exact Except.ok.inj h ▸ .close
  | turn k w =>
    obtain ⟨role, i, rest, t, hran, rfl⟩ := Threads.run_ran h
    exact .turn hran
  | threw k =>
    obtain ⟨role, old, new, hk, hthrown, rfl⟩ := threw_thrown h
    exact .threw hk hthrown

/-- The fibers that wait at a semaphore, each once and where it waits. -/
structure Queue (p : Instr S → Prop) (sem : FiberSemaphore S ℕ)
    (ts : List (Thread (Role S) (Instr S))) : Prop where
  nodup : (sem.m_waiters.map Prod.snd).Nodup
  waits : ∀ n ∈ sem.m_waiters.map Prod.snd, ∃ r i c, look ts n = some ⟨r, i :: c⟩ ∧ p i

namespace Queue

variable {p : Instr S → Prop} {sem : FiberSemaphore S ℕ} {f : Fibers S} {rest : List (Instr S)}

theorem start (h : Queue p sem f.threads) (shared : AsyncSocketStream S) (role : Role S)
    (code : List (Instr S)) : Queue p sem (f.start shared role code).threads := by
  refine ⟨h.nodup, fun n hn => ?_⟩
  obtain ⟨r, i, c, hlook, hi⟩ := h.waits n hn
  exact ⟨r, i, c, Threads.look_start_old shared role code hlook, hi⟩

theorem put {old : List (Instr S)} (h : Queue p sem f.threads)
    (hk : look f.threads k = some ⟨role, old⟩) (hold : ∀ i c, old = i :: c → ¬ p i)
    (new : List (Instr S)) : Queue p sem (f.put k role new).threads := by
  refine ⟨h.nodup, fun n hn => ?_⟩
  obtain ⟨r, i, c, hlook, hi⟩ := h.waits n hn
  refine ⟨r, i, c, Threads.look_put_other hk new hlook fun heq => ?_, hi⟩
  cases heq
  exact hold i c rfl hi

/-- A turn after which the waiters are some of those before, without the one that is resumed. -/
theorem turn {sem' : FiberSemaphore S ℕ} (h : Queue p sem f.threads)
    (hk : look f.threads k = some ⟨role, i :: rest⟩) (hi : ¬ p i)
    (hsub : sem'.m_waiters.Sublist sem.m_waiters)
    (hres : ∀ n, t.resumed = some n → n ∉ sem'.m_waiters.map Prod.snd) :
    Queue p sem' (f.after resume k role rest t).threads := by
  have hmap := hsub.map Prod.snd
  refine ⟨hmap.nodup h.nodup, fun n hn => ?_⟩
  obtain ⟨r, j, c, hlook, hj⟩ := h.waits n (hmap.subset hn)
  have hnk : n ≠ k := by
    rintro rfl
    cases hk.symm.trans hlook
    exact hi hj
  exact ⟨r, j, c, Threads.look_after_other hk (fun heq => hres n heq hn) hnk hlook, hj⟩

theorem suspend (h : Queue p sem f.threads) (hk : look f.threads k = some ⟨role, i :: rest⟩)
    (hi : ¬ p i) {j : Instr S} (hj : p j) (scheduler : S) (s' : AsyncSocketStream S) :
    Queue p { sem with m_waiters := sem.m_waiters ++ [(scheduler, k)] }
      (f.after resume k role rest (.only s' [j])).threads := by
  have hnew : k ∉ sem.m_waiters.map Prod.snd := by
    intro hmem
    obtain ⟨r, j', c, hlook, hj'⟩ := h.waits k hmem
    cases hk.symm.trans hlook
    exact hi hj'
  refine ⟨?_, fun n hn => ?_⟩
  · rw [List.map_append, List.map_singleton]
    exact (List.concat_eq_append ▸ h.nodup.concat hnew :)
  · rw [List.map_append, List.mem_append] at hn
    rcases hn with hn | hn
    · have hstay := h.turn (t := .only s' [j]) hk hi (List.Sublist.refl _) nofun
      exact hstay.waits n hn
    · rw [List.map_singleton, List.mem_singleton] at hn
      subst hn
      exact ⟨role, j, rest, Threads.look_after_self hk nofun, hj⟩

end Queue

def AtSem (i : Instr S) : Prop := i = .waitingSem

def AtWaitSem (i : Instr S) : Prop := ∃ second, i = .waitingFiber second

structure Waiters (f : Fibers S) : Prop where
  sem : Queue AtSem f.shared.m_sem f.threads
  waitSem : Queue AtWaitSem f.shared.m_waitSem f.threads

namespace Waiters

variable {f : Fibers S} {rest : List (Instr S)}

theorem init (connected : Bool) (iomanager : Option S) :
    Waiters (AsyncSocketStream.init connected iomanager) where
  sem := ⟨List.nodup_nil, fun _ hn => absurd hn List.not_mem_nil⟩
  waitSem := ⟨List.nodup_nil, fun _ hn => absurd hn List.not_mem_nil⟩

theorem start (h : Waiters f) {shared : AsyncSocketStream S} (role : Role S)
    (code : List (Instr S)) (hsem : shared.m_sem = f.shared.m_sem)
    (hwaitSem : shared.m_waitSem = f.shared.m_waitSem) : Waiters (f.start shared role code) where
  sem := by
    show Queue AtSem shared.m_sem _
    rw [hsem]
    exact h.sem.start shared role code
  waitSem := by
    show Queue AtWaitSem shared.m_waitSem _
    rw [hwaitSem]
    exact h.waitSem.start shared role code

theorem disjoint (h : Waiters f) {n : ℕ} (hn : n ∈ f.shared.m_sem.m_waiters.map Prod.snd) :
    n ∉ f.shared.m_waitSem.m_waiters.map Prod.snd := by
  intro hn'
  obtain ⟨r, i, c, hlook, hi⟩ := h.sem.waits n hn
  obtain ⟨r', i', c', hlook', second, hi'⟩ := h.waitSem.waits n hn'
  cases hlook.symm.trans hlook'
  cases hi.symm.trans hi'

/-- A turn that resumes none and leaves the waiters as they were. -/
theorem only (h : Waiters f) (hk : look f.threads k = some ⟨role, i :: rest⟩) (hi : ¬ AtSem i)
    (hi' : ¬ AtWaitSem i) (hres : t.resumed = none)
    (hsem : t.shared.m_sem.m_waiters = f.shared.m_sem.m_waiters)
    (hwaitSem : t.shared.m_waitSem.m_waiters = f.shared.m_waitSem.m_waiters) :
    Waiters (f.after resume k role rest t) where
  sem := h.sem.turn hk hi (hsem ▸ List.Sublist.refl _) fun _ hn => absurd (hres.symm.trans hn) nofun
  waitSem := h.waitSem.turn hk hi' (hwaitSem ▸ List.Sublist.refl _) fun _ hn =>
    absurd (hres.symm.trans hn) nofun

theorem turn [DecidableEq S] (h : Waiters f) (hran : Threads.Ran exec f k w role i rest t) :
    Waiters (f.after resume k role rest t) := by
  obtain ⟨hk, hexec⟩ := hran
  obtain ⟨hi, hi'⟩ := exec_not_waiting hexec
  have hat : ¬ AtWaitSem i := fun ⟨second, heq⟩ => hi' second heq
  rcases exec_cases hexec with ⟨s', next, rfl, hctxs⟩ | hflow
  · exact h.only hk hi hat rfl (congrArg _ hctxs.frame.m_sem) (congrArg _ hctxs.frame.m_waitSem)
  · cases hflow with
    | control hcontrol =>
      exact h.only hk hi hat rfl (congrArg _ hcontrol.frame.2.1) (congrArg _ hcontrol.frame.2.2)
    | pushed m => exact h.only hk hi hat rfl rfl rfl
    | notified hnotify hn =>
      cases hn with
      | handed next rest' hwaiters =>
        have hnodup : ((next :: rest').map Prod.snd).Nodup := hwaiters ▸ h.sem.nodup
        rw [List.map_cons, List.nodup_cons] at hnodup
        refine ⟨h.sem.turn hk hi (hwaiters ▸ List.sublist_cons_self next rest') ?_,
          h.waitSem.turn hk hat (List.Sublist.refl _) ?_⟩
        · intro n hn
          cases hn
          exact hnodup.1
        · intro n hn
          cases hn
          exact h.disjoint (hwaiters ▸ List.mem_map_of_mem List.mem_cons_self)
      | counted hwaiters => exact h.only hk hi hat rfl rfl rfl
    | cleared => exact h.only hk hi hat rfl rfl rfl
    | swapped => exact h.only hk hi hat rfl rfl rfl
    | waited hw =>
      cases hw with
      | granted hpos => exact h.only hk hi hat rfl rfl rfl
      | suspended scheduler hthis hzero =>
        exact ⟨h.sem.suspend hk hi rfl scheduler _,
          h.waitSem.turn hk hat (List.Sublist.refl _) nofun⟩
    | collected second hw =>
      cases hw with
      | granted hpos => exact h.only hk hi hat rfl rfl rfl
      | suspended scheduler hthis hzero =>
        exact ⟨h.sem.turn hk hi (List.Sublist.refl _) nofun,
          h.waitSem.suspend hk hat ⟨second, rfl⟩ scheduler _⟩
    | gave hn =>
      cases hn with
      | handed next rest' hwaiters =>
        have hnodup : ((next :: rest').map Prod.snd).Nodup := hwaiters ▸ h.waitSem.nodup
        rw [List.map_cons, List.nodup_cons] at hnodup
        refine ⟨h.sem.turn hk hi (List.Sublist.refl _) ?_,
          h.waitSem.turn hk hat (hwaiters ▸ List.sublist_cons_self next rest') ?_⟩
        · intro n hn hmem
          cases hn
          exact h.disjoint hmem (hwaiters ▸ List.mem_map_of_mem List.mem_cons_self)
        · intro n hn
          cases hn
          exact hnodup.1
      | counted hwaiters => exact h.only hk hi hat rfl rfl rfl
    | startRead => exact h.only hk hi hat rfl rfl rfl
    | startWrite => exact h.only hk hi hat rfl rfl rfl

theorem resumed [DecidableEq S] (h : Waiters f) (hran : Threads.Ran exec f k w role i rest t)
    {n : ℕ} (hn : t.resumed = some n) :
    ∃ r j c, look f.threads n = some ⟨r, j :: c⟩ ∧
      (AtSem j ∧ i ≠ .notifyWait ∨ AtWaitSem j ∧ i = .notifyWait) := by
  rcases exec_cases hran.exec_eq with ⟨s', next, rfl, hctxs⟩ | hflow
  · cases hn
  · cases hflow with
    | notified hi hnotify =>
      cases hnotify with
      | handed next rest' hwaiters =>
        cases hn
        have hmem : next.2 ∈ f.shared.m_sem.m_waiters.map Prod.snd := by
          rw [hwaiters]
          exact List.mem_map_of_mem List.mem_cons_self
        obtain ⟨r, j, c, hlook, hj⟩ := h.sem.waits _ hmem
        refine ⟨r, j, c, hlook, .inl ⟨hj, ?_⟩⟩
        rintro rfl
        rcases hi with hi | hi <;> cases hi
      | counted hwaiters => cases hn
    | gave hnotify =>
      cases hnotify with
      | handed next rest' hwaiters =>
        cases hn
        have hmem : next.2 ∈ f.shared.m_waitSem.m_waiters.map Prod.snd := by
          rw [hwaiters]
          exact List.mem_map_of_mem List.mem_cons_self
        obtain ⟨r, j, c, hlook, hj⟩ := h.waitSem.waits _ hmem
        exact ⟨r, j, c, hlook, .inr ⟨hj, rfl⟩⟩
      | counted hwaiters => cases hn
    | _ => cases hn

theorem resumed_ne [DecidableEq S] (h : Waiters f) (hran : Threads.Ran exec f k w role i rest t) :
    t.resumed ≠ some k := by
  intro hn
  obtain ⟨r, j, c, hlook, hj⟩ := h.resumed hran hn
  obtain ⟨hi, hi'⟩ := exec_not_waiting hran.exec_eq
  cases hran.look_eq.symm.trans hlook
  rcases hj with ⟨hj, -⟩ | ⟨⟨second, hj⟩, -⟩
  · exact hi hj
  · exact hi' second hj

theorem threw (h : Waiters f) {old new : List (Instr S)} (hk : look f.threads k = some ⟨role, old⟩)
    (hthrown : Thrown old new) : Waiters (f.put k role new) := by
  obtain ⟨i, rest, rfl, hi⟩ := hthrown.head
  refine ⟨h.sem.put hk ?_ new, h.waitSem.put hk ?_ new⟩
  · rintro j c heq rfl
    rcases hi with rfl | rfl <;> cases heq
  · rintro j c heq ⟨second, rfl⟩
    rcases hi with rfl | rfl <;> cases heq

theorem step [DecidableEq S] {f' : Fibers S} {m : Move S} (h : Waiters f) (hs : Stepped f m f') :
    Waiters f' := by
  cases hs with
  | returned hm => exact h
  | request this sn => exact h.start _ _ rfl rfl
  | sendMessage => exact h.start _ _ rfl rfl
  | start this => exact h.start _ _ rfl rfl
  | onTimeOut hc hx => exact h.start _ _ rfl rfl
  | close => exact ⟨h.sem, h.waitSem⟩
  | turn hran => exact h.turn hran
  | threw hk hthrown => exact h.threw hk hthrown

end Waiters

/-- The steps of `innerClose`, and the end of `doRead` and `doWrite`. -/
def closes : Instr S → Bool
  | .close | .notifySem | .swapCtxs | .clearQueue | .ioError _ | .rsp _ _ | .notifyWait => true
  | _ => false

def inRole : Role S → Instr S → Bool
  | .request _, i =>
      match i with
      | .addCtx _ | .addTimer _ | .setTimer _ | .push _ | .wake => true
      | _ => false
  | .sendMessage, i =>
      match i with
      | .push _ | .wake => true
      | _ => false
  | .onTimeOut _, i =>
      match i with
      | .eraseCtx _ | .setTimed _ | .rsp _ _ => true
      | _ => false
  | .start _, i => closes i ||
      match i with
      | .waitFiber _ | .waitingFiber _ | .connect | .connectCb | .startRead | .startWrite => true
      | _ => false
  | .doRead _, i => closes i ||
      match i with
      | .readLoop | .doRecv | .setResponse _ _ _ => true
      | _ => false
  | .doWrite _, i => closes i ||
      match i with
      | .writeLoop | .waitSem | .waitingSem | .swapQueue | .doSend _ => true
      | _ => false

theorem inRole_resume (role : Role S) (i : Instr S) : inRole role (resume i) = inRole role i := by
  cases i with
  | waitingFiber second => cases role <;> cases second <;> rfl
  | waitingSem => cases role <;> rfl
  | _ => rfl

theorem inRole_onCtxs [DecidableEq S] {s' : AsyncSocketStream S} {next : List (Instr S)}
    (h : OnCtxs s k i w s' next) (hi : inRole role i) : ∀ j ∈ next, inRole role j := by
  cases h with
  | responded result hr =>
    unfold answer
    cases role <;> cases hi
    split <;> simp [doRspCode, inRole, closes]
  | rsp stage w hc =>
    intro j hj
    obtain ⟨stage', -, rfl⟩ := List.mem_map.mp hj
    cases role <;> cases hi <;> rfl
  | swapped hctxs =>
    intro j hj
    have hclose : closes j = true := by
      simp only [doRspCode, List.mem_append, List.mem_singleton, List.mem_flatMap] at hj
      rcases hj with rfl | ⟨d, -, rfl | rfl⟩ <;> rfl
    cases role <;> cases hi <;> simp [inRole, hclose]
  | _ => nofun

theorem inRole_of_closes {s' : AsyncSocketStream S} {next : List (Instr S)} (h : Control s k i s' next)
    (hi : inRole role i) {j : Instr S} (hj : closes j = true) : inRole role j := by
  cases role with
  | request c => cases h <;> cases hi
  | sendMessage => cases h <;> cases hi
  | onTimeOut c => cases h <;> cases hi
  | _ => exact Bool.or_eq_true_iff.mpr (.inl hj)

theorem inRole_control {s' : AsyncSocketStream S} {next : List (Instr S)} (h : Control s k i s' next)
    (hi : inRole role i) : ∀ j ∈ next, inRole role j := by
  have hstart : ∀ j ∈ startFails (S := S), closes j = true := by
    simp [startFails, innerCloseCode, closes]
  have hread : ∀ j ∈ readEnds (S := S), closes j = true := by simp [readEnds, innerCloseCode, closes]
  have hwrite : ∀ j ∈ writeEnds (S := S), closes j = true := by simp [writeEnds, closes]
  have hinner : ∀ j ∈ innerCloseCode (S := S), closes j = true := by simp [innerCloseCode, closes]
  have hends : ∀ j : Instr S, closes j = true → inRole role j := fun j => inRole_of_closes h hi
  cases h with
  | close => nofun
  | unconnected | refused => exact fun j hj => hends j (hstart j hj)
  | readStops | readThrew => exact fun j hj => hends j (hread j hj)
  | writeStops => exact fun j hj => hends j (hwrite j hj)
  | null =>
    rw [List.forall_mem_append]
    refine ⟨fun j hj => hends j (hinner j hj), ?_⟩
    cases role <;> cases hi
    simp [inRole]
  | sends ctxs how =>
    cases role <;> cases hi
    unfold doSend
    split
    · simp [inRole]
    · simp [inRole]
    · rw [List.forall_mem_append]
      exact ⟨fun j hj => hends j (hinner j hj), by simp [inRole]⟩
    · exact fun j hj => hends j (hwrite j hj)
  | connected | reconnected | accepted | reads | other | writes =>
    cases role <;> cases hi
    simp [inRole]

theorem inRole_exec [DecidableEq S] (h : s.exec k role i w = .ok t) (hi : inRole role i) :
    (∀ j ∈ t.next, inRole role j) ∧ ∀ u ∈ t.born, ∀ j ∈ u.code, inRole u.role j := by
  rcases exec_cases h with ⟨s', next, rfl, hctxs⟩ | hflow
  · exact ⟨inRole_onCtxs hctxs hi, nofun⟩
  · cases hflow with
    | control hcontrol => exact ⟨inRole_control hcontrol hi, nofun⟩
    | pushed m =>
      refine ⟨?_, nofun⟩
      simp only [Turn.only]
      cases role <;> cases hi <;> split <;> simp [inRole]
    | waited hw =>
      refine ⟨?_, nofun⟩
      cases role <;> cases hi
      rw [Turn.only, List.forall_mem_singleton]
      split <;> rfl
    | collected second hw =>
      refine ⟨?_, nofun⟩
      cases role <;> cases hi
      rw [Turn.only, List.forall_mem_singleton]
      split
      · rfl
      · rw [inRole_resume]
        rfl
    | swapped =>
      refine ⟨?_, nofun⟩
      cases role <;> cases hi
      simp [Turn.only, inRole]
    | startRead | startWrite => exact ⟨nofun, by simp [inRole]⟩
    | _ => exact ⟨nofun, nofun⟩

theorem inRole_thrown {old new : List (Instr S)} (h : Thrown old new)
    (hold : ∀ j ∈ old, inRole role j) : ∀ j ∈ new, inRole role j := by
  cases h with
  | readLoop =>
    have hrole : inRole role .readLoop := hold _ (by simp)
    cases role <;> cases hrole
    simp [readEnds, innerCloseCode, inRole, closes]
  | writeLoop =>
    have hrole : inRole role .writeLoop := hold _ (by simp)
    cases role <;> cases hrole
    simp [writeEnds, inRole, closes]
  | _ => nofun

def Roles (f : Fibers S) : Prop :=
  ∀ k u, look f.threads k = some u → ∀ i ∈ u.code, inRole u.role i

namespace Roles

variable {f : Fibers S} {rest : List (Instr S)}

theorem init (connected : Bool) (iomanager : Option S) :
    Roles (AsyncSocketStream.init connected iomanager) := by
  intro k u hu
  simp [AsyncSocketStream.init, look] at hu

theorem start (h : Roles f) (shared : AsyncSocketStream S) {role : Role S} {code : List (Instr S)}
    (hcode : ∀ i ∈ code, inRole role i) : Roles (f.start shared role code) := by
  intro j u hu
  rcases Threads.look_start_cases hu with ⟨-, rfl⟩ | hu
  · exact hcode
  · exact h j u hu

theorem turn [DecidableEq S] (h : Roles f) (hwaiters : Waiters f)
    (hran : Threads.Ran exec f k w role i rest t) : Roles (f.after resume k role rest t) := by
  have hk := hran.look_eq
  have hown := h k _ hk
  obtain ⟨hnext, hborn⟩ := inRole_exec hran.exec_eq (hown i List.mem_cons_self)
  apply Threads.forall_after (P := fun _ u => ∀ i ∈ u.code, inRole u.role i) hk
    (hwaiters.resumed_ne hran)
  · intro j hj
    rcases List.mem_append.mp hj with hj | hj
    · exact hnext j hj
    · exact hown j (List.mem_cons_of_mem i hj)
  · exact fun u hu _ _ => hborn u hu
  · intro n u hn _ hu j hj
    obtain ⟨r, j', c, hlook, -⟩ := hwaiters.resumed hran hn
    cases hu.symm.trans hlook
    rcases List.mem_cons.mp hj with rfl | hj
    · exact (inRole_resume r j').trans (h n _ hu j' List.mem_cons_self)
    · exact h n _ hu j (List.mem_cons_of_mem j' hj)
  · exact fun j u _ _ hu => h j u hu

theorem step [DecidableEq S] {f' : Fibers S} {m : Move S} (h : Roles f) (hwaiters : Waiters f)
    (hs : Stepped f m f') : Roles f' := by
  cases hs with
  | returned hm => exact h
  | request this sn => exact h.start _ (by simp [requestCode, inRole])
  | sendMessage => exact h.start _ (by simp [inRole])
  | start this => exact h.start _ (by simp [inRole])
  | onTimeOut hc hx => exact h.start _ (by simp [onTimeOutCode, doRspCode, inRole])
  | close => exact h
  | turn hran => exact h.turn hwaiters hran
  | threw hk hthrown =>
    exact Threads.forall_put (P := fun _ u => ∀ i ∈ u.code, inRole u.role i) hk
      (inRole_thrown hthrown (h _ _ hk)) h

end Roles

end AsyncSocketStream

end Sylar
