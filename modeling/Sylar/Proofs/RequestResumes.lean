import Sylar.Proofs.RequestContexts

/-! A request is resumed once. Whoever takes its context out of `m_ctxs` calls `doRsp`, and of
all calls of `doRsp` on it one wins the compare-and-swap and schedules its fiber. -/

namespace Sylar

open Lib

variable {S : Type}

def Rsp.schedules : Rsp S → ℕ
  | .schedule _ => 1
  | _ => 0

/-- The times the fiber was scheduled, and one more while the compare-and-swap can be won. -/
def Ctx.due (x : Ctx S) : ℕ := x.scheduled.length + x.scheduler.isSome.toNat

theorem Ctx.Kept.due_eq {k : ℕ} {took : Prop} {x x' : Ctx S} (h : Ctx.Kept k took x x') :
    x'.due = x.due := by
  unfold Ctx.due
  rw [h.scheduled, h.scheduler]

theorem Ctx.due_doRsp [DecidableEq S] {x : Ctx S} (hx : x.fiber = none → x.scheduler = none)
    (stage : Rsp S) :
    (x.doRsp stage).1.due + ((x.doRsp stage).2.map Rsp.schedules).sum =
      x.due + stage.schedules := by
  cases stage with
  | load => rfl
  | compareAndSwap scd =>
    simp only [doRsp]
    split
    · next hscd =>
      subst hscd
      cases hs : x.scheduler with
      | none => simp [due, hs, Rsp.schedules]
      | some scd =>
        have hfiber : x.fiber ≠ none := by
          intro hnone
          rw [hx hnone] at hs
          cases hs
        simp [due, hs, hfiber, Rsp.schedules]
    · rfl
  | cancel =>
    simp only [doRsp]
    split <;> rfl
  | setTimeout =>
    simp only [doRsp]
    split <;> rfl
  | schedule scd => simp [doRsp, due, Rsp.schedules]; omega

theorem Ctx.scheduler_doRsp [DecidableEq S] (x : Ctx S) (stage : Rsp S) :
    (x.doRsp stage).1.scheduler = x.scheduler ∨ (x.doRsp stage).1.scheduler = none := by
  cases stage with
  | load => exact .inl rfl
  | compareAndSwap scd =>
    simp only [doRsp]
    split
    · exact .inr rfl
    · exact .inl rfl
  | cancel =>
    simp only [doRsp]
    split <;> exact .inl rfl
  | setTimeout =>
    simp only [doRsp]
    split <;> exact .inl rfl
  | schedule scd => exact .inl rfl

/-- A compare-and-swap with what `scheduler` is, or when it is null already. -/
theorem Ctx.scheduler_compareAndSwap [DecidableEq S] {x : Ctx S} {scd : Option S}
    (h : x.scheduler = scd ∨ x.scheduler = none) :
    (x.doRsp (.compareAndSwap scd)).1.scheduler = none := by
  simp only [doRsp]
  split
  · rfl
  · next hne => exact h.resolve_left hne

theorem Ctx.fiber_doRsp [DecidableEq S] {x : Ctx S} {stage : Rsp S}
    (h : ∀ scd, stage ≠ .schedule scd) : (x.doRsp stage).1.fiber = x.fiber := by
  cases stage with
  | load => rfl
  | schedule scd => exact absurd rfl (h scd)
  | _ =>
    simp only [doRsp]
    split <;> rfl

theorem Ctx.mem_doRsp [DecidableEq S] {x : Ctx S} {stage : Rsp S} {scd : Option S}
    (h : .compareAndSwap scd ∈ (x.doRsp stage).2) : stage = .load ∧ scd = x.scheduler := by
  cases stage with
  | load =>
    simp only [doRsp, List.mem_singleton, Rsp.compareAndSwap.injEq] at h
    exact ⟨rfl, h⟩
  | compareAndSwap scd' =>
    simp only [doRsp] at h
    split at h
    · cases scd' with
      | none => cases h
      | some scd' =>
        dsimp only at h
        split at h <;> simp at h
    · cases h
  | _ => cases h

namespace AsyncSocketStream

/-- Where a `doRsp` on the context `c` is about to schedule its fiber. -/
def scheduling (c : ℕ) (_ : Role S) : Instr S → ℕ
  | .rsp d stage => if d = c then stage.schedules else 0
  | _ => 0

theorem scheduling_resume (c : ℕ) (r : Role S) (i : Instr S) :
    scheduling c r (resume i) = scheduling c r i := by
  cases i with
  | waitingFiber second => cases second <;> rfl
  | _ => rfl

/-- The fiber `j` is in a `doRsp` on the context `c`, before the compare-and-swap. -/
def Calls (f : Fibers S) (c j : ℕ) : Prop :=
  .rsp c .load ∈ f.code j ∨ ∃ scd, .rsp c (.compareAndSwap scd) ∈ f.code j

structure Resumes (f : Fibers S) : Prop where
  waiters : Waiters f
  keyed : Keyed f.shared
  once : ∀ c x, look f.shared.heap c = some x →
    x.due + Threads.total (scheduling c) f.threads = 1
  fiber : ∀ c x, look f.shared.heap c = some x → x.fiber = none → x.scheduler = none
  swaps : ∀ c x, look f.shared.heap c = some x → ∀ j scd,
    .rsp c (.compareAndSwap scd) ∈ f.code j → x.scheduler = scd ∨ x.scheduler = none
  takers : ∀ c x, look f.shared.heap c = some x → ∀ j ∈ x.takers,
    x.scheduler = none ∨ Calls f c j
  known : ∀ j c stage, .rsp c stage ∈ f.code j → c < f.shared.heap.length
  erases : ∀ j c, .eraseCtx c ∈ f.code j → f.code j = onTimeOutCode c
  distinct : ∀ c d x y, look f.shared.heap c = some x → look f.shared.heap d = some y →
    x.sn = y.sn → c = d

variable {s : AsyncSocketStream S} {k : ℕ} {role : Role S} {i : Instr S} {w : World}
  {t : FiberTurn S} {rest : List (Instr S)}

/-- A turn that is not one of `doRsp`: what it does to the contexts, and that it starts `doRsp`
only at its beginning. -/
structure Quiet (s : AsyncSocketStream S) (k : ℕ) (i : Instr S) (t : FiberTurn S) : Prop where
  heap : Changes (fun d => Ctx.Kept k (.rsp d .load ∈ t.next ∨
    ∃ c x, i = .eraseCtx c ∧ look s.heap c = some x ∧ Assoc.find s.m_ctxs x.sn = some d))
    s.heap t.shared.heap
  next : ∀ c stage, .rsp c stage ∈ t.next → stage = .load ∧ c < s.heap.length
  born : ∀ u ∈ t.born, ∀ c stage, .rsp c stage ∉ u.code

theorem sum_next {next : List (Instr S)} (h : ∀ c stage, .rsp c stage ∈ next → stage = .load)
    (c : ℕ) (role : Role S) : (next.map (scheduling c role)).sum = 0 := by
  refine List.sum_eq_zero fun n hn => ?_
  obtain ⟨j, hj, rfl⟩ := List.mem_map.mp hn
  cases j with
  | rsp d stage =>
    rw [h d stage hj]
    simp [scheduling, Rsp.schedules]
  | _ => rfl

theorem sum_rsp (stages : List (Rsp S)) (c d : ℕ) (role : Role S) :
    ((stages.map (.rsp c)).map (scheduling d role)).sum =
      if c = d then (stages.map Rsp.schedules).sum else 0 := by
  induction stages with
  | nil => simp
  | cons stage stages ih =>
    simp only [List.map_cons, List.sum_cons, ih, scheduling]
    split <;> rfl

theorem total_born {born : List (Thread (Role S) (Instr S))}
    (h : ∀ u ∈ born, ∀ c stage, .rsp c stage ∉ u.code) (c : ℕ) :
    Threads.total (scheduling c) born = 0 := by
  refine Threads.total_eq_zero fun u hu j hj => ?_
  cases j with
  | rsp d stage => exact absurd hj (h u hu d stage)
  | _ => rfl

namespace Resumes

variable {f : Fibers S}

theorem start (h : Resumes f) {shared : AsyncSocketStream S} (role : Role S)
    {code : List (Instr S)} (hsem : shared.m_sem = f.shared.m_sem)
    (hwaitSem : shared.m_waitSem = f.shared.m_waitSem) (hctxs : shared.m_ctxs = f.shared.m_ctxs)
    (hheap : Changes (fun _ => Ctx.Kept 0 False) f.shared.heap shared.heap)
    (hrsp : ∀ c stage, .rsp c stage ∈ code → stage = .load ∧ c < f.shared.heap.length)
    (herase : ∀ c, .eraseCtx c ∈ code → code = onTimeOutCode c) :
    Resumes (f.start shared role code) := by
  refine
    { waiters := h.waiters.start role code hsem hwaitSem
      keyed := h.keyed.of_changes hheap (fun _ _ _ hx => hx.sn) (hctxs ▸ List.Sublist.refl _)
      once := ?_
      fiber := ?_
      swaps := ?_
      takers := ?_
      known := ?_
      erases := ?_
      distinct := ?_ }
  · intro c x' hx'
    obtain ⟨x, hx, hkept⟩ := hheap.old hx'
    rw [Threads.total_start, sum_next (fun c stage hmem => (hrsp c stage hmem).1), hkept.due_eq]
    exact h.once c x hx
  · intro c x' hx' hfiber
    obtain ⟨x, hx, hkept⟩ := hheap.old hx'
    rw [hkept.scheduler]
    exact h.fiber c x hx (hkept.fiber ▸ hfiber)
  · intro c x' hx' j scd hmem
    obtain ⟨x, hx, hkept⟩ := hheap.old hx'
    rw [hkept.scheduler]
    rcases Threads.mem_code_start hmem with hin | ⟨-, hin⟩
    · exact h.swaps c x hx j scd hin
    · cases (hrsp c _ hin).1
  · intro c x' hx' j hj
    obtain ⟨x, hx, hkept⟩ := hheap.old hx'
    rw [hkept.scheduler]
    rcases hkept.takers j hj with hj | ⟨-, hfalse⟩
    · refine (h.takers c x hx j hj).imp_right ?_
      rintro (hmem | ⟨scd, hmem⟩)
      · exact .inl (Threads.code_start_of_mem shared role code hmem ▸ hmem)
      · exact .inr ⟨scd, Threads.code_start_of_mem shared role code hmem ▸ hmem⟩
    · exact hfalse.elim
  · intro j c stage hmem
    show c < shared.heap.length
    rw [hheap.length_eq]
    rcases Threads.mem_code_start hmem with hin | ⟨-, hin⟩
    · exact h.known j c stage hin
    · exact (hrsp c stage hin).2
  · intro j c hmem
    rcases Threads.mem_code_start hmem with hin | ⟨hj, hin⟩
    · rw [Threads.code_start_of_mem shared role code hin]
      exact h.erases j c hin
    · rw [Threads.code_start, if_pos hj]
      exact herase c hin
  · intro c d x' y' hx' hy' hsn
    obtain ⟨x, hx, hkept⟩ := hheap.old hx'
    obtain ⟨y, hy, hkept'⟩ := hheap.old hy'
    exact h.distinct c d x y hx hy (hkept.sn.symm.trans (hsn.trans hkept'.sn))

theorem add (h : Resumes f) (this : S) (n : ℕ) {sn : UInt32}
    (hsn : ∀ x ∈ f.shared.heap, x.sn ≠ sn) :
    Resumes (⟨{ f.shared with heap := f.shared.heap ++ [.new sn this n] }, f.threads⟩ :
      Fibers S) := by
  have hnew : ∀ j stage, .rsp f.shared.heap.length stage ∉ f.code j := fun j stage hmem =>
    absurd (h.known j _ stage hmem) (Nat.lt_irrefl _)
  refine
    { waiters := ⟨h.waiters.sem, h.waiters.waitSem⟩
      keyed := ⟨h.keyed.nodup, ?_⟩
      once := ?_
      fiber := ?_
      swaps := ?_
      takers := ?_
      known := ?_
      erases := h.erases
      distinct := ?_ }
  · intro e he
    obtain ⟨x, hx, hkey⟩ := h.keyed.sn e he
    exact ⟨x, look_append_old hx _, hkey⟩
  · intro c x hx
    rcases look_append_cases hx with ⟨rfl, rfl⟩ | hx
    · have hzero : Threads.total (scheduling f.shared.heap.length) f.threads = 0 := by
        refine Threads.total_eq_zero fun u hu i hi => ?_
        obtain ⟨j, hj⟩ := List.mem_iff_getElem?.mp hu
        cases i with
        | rsp d stage =>
          have hne : d ≠ f.shared.heap.length := by
            rintro rfl
            exact hnew j stage (Threads.code_of_look hj ▸ hi)
          exact if_neg hne
        | _ => rfl
      show 0 + 1 + Threads.total _ f.threads = 1
      omega
    · exact h.once c x hx
  · intro c x hx hfiber
    rcases look_append_cases hx with ⟨rfl, rfl⟩ | hx
    · cases hfiber
    · exact h.fiber c x hx hfiber
  · intro c x hx j scd hmem
    rcases look_append_cases hx with ⟨rfl, rfl⟩ | hx
    · exact absurd hmem (hnew j _)
    · exact h.swaps c x hx j scd hmem
  · intro c x hx j hj
    rcases look_append_cases hx with ⟨rfl, rfl⟩ | hx
    · cases hj
    · exact h.takers c x hx j hj
  · intro j c stage hmem
    have hlt := h.known j c stage hmem
    show c < (f.shared.heap ++ [_]).length
    rw [List.length_append]
    omega
  · intro c d x y hx hy heq
    rcases look_append_cases hx with ⟨rfl, rfl⟩ | hx
    · rcases look_append_cases hy with ⟨rfl, rfl⟩ | hy
      · rfl
      · exact absurd heq.symm (hsn y (List.mem_of_getElem? hy))
    · rcases look_append_cases hy with ⟨rfl, rfl⟩ | hy
      · exact absurd heq (hsn x (List.mem_of_getElem? hx))
      · exact h.distinct c d x y hx hy heq

theorem init (connected : Bool) (iomanager : Option S) :
    Resumes (AsyncSocketStream.init connected iomanager) := by
  have hheap : ∀ c x, look (AsyncSocketStream.init connected iomanager).shared.heap c ≠ some x := by
    intro c x hx
    simp [AsyncSocketStream.init, look] at hx
  have hcode : ∀ j i, i ∉ (AsyncSocketStream.init connected iomanager).code j := by
    intro j i hi
    simp [AsyncSocketStream.init, Threads.code, look] at hi
  exact
    { waiters := .init connected iomanager
      keyed := .init connected iomanager
      once := fun c x hx => absurd hx (hheap c x)
      fiber := fun c x hx => absurd hx (hheap c x)
      swaps := fun c x hx => absurd hx (hheap c x)
      takers := fun c x hx => absurd hx (hheap c x)
      known := fun j _ _ hmem => absurd hmem (hcode j _)
      erases := fun j _ hmem => absurd hmem (hcode j _)
      distinct := fun c _ x _ hx => absurd hx (hheap c x) }

end Resumes

variable [DecidableEq S]

theorem not_mem_exec (h : s.exec k role i w = .ok t) (c : ℕ) :
    .eraseCtx c ∉ t.next ∧ ∀ u ∈ t.born, .eraseCtx c ∉ u.code := by
  rcases exec_cases h with ⟨s', next, rfl, hctxs⟩ | hflow
  · refine ⟨?_, fun u hu => absurd hu List.not_mem_nil⟩
    show .eraseCtx c ∉ next
    cases hctxs with
    | responded result hr =>
      unfold answer
      split <;> simp [doRspCode]
    | _ => simp [doRspCode]
  · constructor
    · intro hmem
      cases hflow.ofCtx_next _ hmem
    · intro u hu hmem
      cases hflow.ofCtx_born u hu _ hmem

theorem exec_quiet (hs : Keyed s) (h : s.exec k role i w = .ok t)
    (hi : ∀ c stage, i ≠ .rsp c stage) : Quiet s k i t := by
  rcases exec_cases h with ⟨s', next, rfl, hctxs⟩ | hflow
  · refine ⟨hctxs.kept hi, ?_, fun u hu => absurd hu List.not_mem_nil⟩
    intro c stage hmem
    change .rsp c stage ∈ next at hmem
    cases hctxs with
    | responded result hr =>
      cases hfind : Assoc.find s.m_ctxs _ with
      | none =>
        rw [hfind] at hmem
        simp [answer] at hmem
      | some d =>
        rw [hfind] at hmem
        simp only [answer, doRspCode, List.mem_append, List.mem_singleton, reduceCtorEq, false_or,
          or_false, Instr.rsp.injEq] at hmem
        obtain ⟨rfl, rfl⟩ := hmem
        obtain ⟨-, x, hx, -⟩ := hs.listed_find hfind
        exact ⟨rfl, lt_length_of_look hx⟩
    | swapped hctxs =>
      simp only [doRspCode, List.mem_append, List.mem_singleton, reduceCtorEq, false_or,
        List.mem_flatMap, Instr.rsp.injEq] at hmem
      obtain ⟨d, hd, rfl, rfl⟩ := hmem
      obtain ⟨e, he, rfl⟩ := List.mem_map.mp (hctxs.mem_iff.mp hd)
      obtain ⟨x, hx, -⟩ := hs.sn e he
      exact ⟨rfl, lt_length_of_look hx⟩
    | rsp stage w hc => exact absurd rfl (hi _ _)
    | _ => cases hmem
  · refine ⟨?_, ?_, ?_⟩
    · rw [hflow.heap_eq.1]
      exact .refl (fun _ => .refl k _) s.heap
    · intro c stage hmem
      cases hflow.ofCtx_next _ hmem
    · intro u hu c stage hmem
      cases hflow.ofCtx_born u hu _ hmem

namespace Resumes

variable {f : Fibers S}

theorem erases_turn (h : Resumes f) (hran : Threads.Ran exec f k w role i rest t) (j c : ℕ)
    (hmem : .eraseCtx c ∈ (f.after resume k role rest t).code j) :
    (f.after resume k role rest t).code j = onTimeOutCode c := by
  have hk := hran.look_eq
  have hself := h.waiters.resumed_ne hran
  obtain ⟨hnext, hborn⟩ := not_mem_exec hran.exec_eq c
  rcases Threads.mem_code_after (fun _ => eq_of_resume rfl) hk hself hmem with
    ⟨-, hin⟩ | ⟨hj, hin⟩ | ⟨-, u, hu, hin⟩
  · rcases List.mem_append.mp hin with hin | hin
    · exact absurd hin hnext
    · have hcode := h.erases k c (Threads.code_of_look hk ▸ List.mem_cons_of_mem i hin)
      rw [Threads.code_of_look hk] at hcode
      rw [(List.cons.inj hcode).2] at hin
      simp [doRspCode] at hin
  · have hcode := h.erases j c hin
    obtain ⟨u, hu, -⟩ := Threads.look_of_mem_code hin
    have hres : t.resumed ≠ some j := by
      intro hres
      obtain ⟨r, y, ys, hlook, hy⟩ := h.waiters.resumed hran hres
      rw [Threads.code_of_look hlook] at hcode
      rw [(List.cons.inj hcode).1] at hy
      rcases hy with ⟨hy, -⟩ | ⟨⟨second, hy⟩, -⟩ <;> cases hy
    rw [Threads.code_of_look (Threads.look_after_other hk hres hj hu),
      ← Threads.code_of_look hu, hcode]
  · exact absurd hin (hborn u hu)

section QuietTurn

variable (hran : Threads.Ran exec f k w role i rest t)
include hran

/-- What is to be done in `doRsp` was there before, or is its beginning. -/
theorem mem_code_quiet (h : Resumes f) (hborn : ∀ u ∈ t.born, ∀ c stage, .rsp c stage ∉ u.code) {j c : ℕ}
    {stage : Rsp S} (hmem : .rsp c stage ∈ (f.after resume k role rest t).code j) :
    .rsp c stage ∈ f.code j ∨ .rsp c stage ∈ t.next := by
  have hk := hran.look_eq
  rcases Threads.mem_code_after (fun _ => eq_of_resume rfl) hk (h.waiters.resumed_ne hran) hmem with
    ⟨hj, hin⟩ | ⟨-, hin⟩ | ⟨-, u, hu, hin⟩
  · rw [hj, Threads.code_of_look hk]
    rcases List.mem_append.mp hin with hin | hin
    · exact .inr hin
    · exact .inl (List.mem_cons_of_mem i hin)
  · exact .inl hin
  · exact absurd hin (hborn u hu c stage)

variable (hi : ∀ c stage, i ≠ .rsp c stage)
include hi

theorem code_quiet_of_mem (h : Resumes f) {j c : ℕ} {stage : Rsp S} (hmem : .rsp c stage ∈ f.code j) :
    .rsp c stage ∈ (f.after resume k role rest t).code j := by
  have hk := hran.look_eq
  by_cases hj : j = k
  · subst hj
    rw [Threads.code_of_look hk] at hmem
    rw [Threads.code_after_self hk (h.waiters.resumed_ne hran)]
    rcases List.mem_cons.mp hmem with heq | hmem
    · exact absurd heq.symm (hi c stage)
    · exact List.mem_append_right _ hmem
  · exact Threads.mem_after_of_ne rfl hk hj hmem

theorem calls_quiet (h : Resumes f) {c j : ℕ} (hcalls : Calls f c j) :
    Calls (f.after resume k role rest t) c j := by
  rcases hcalls with hmem | ⟨scd, hmem⟩
  · exact .inl (code_quiet_of_mem hran hi h hmem)
  · exact .inr ⟨scd, code_quiet_of_mem hran hi h hmem⟩

theorem once_quiet (h : Resumes f) (hq : Quiet f.shared k i t) {c : ℕ} {x' : Ctx S}
    (hx' : look t.shared.heap c = some x') :
    x'.due + Threads.total (scheduling c) (f.after resume k role rest t).threads = 1 := by
  obtain ⟨x, hx, hkept⟩ := hq.heap.old hx'
  have htotal := Threads.total_after_turn (t := t) (scheduling_resume c) hran.look_eq
  rw [sum_next (fun c stage hmem => (hq.next c stage hmem).1), total_born hq.born] at htotal
  have hzero : scheduling c role i = 0 := by
    cases i with
    | rsp d stage => exact absurd rfl (hi d stage)
    | _ => rfl
  have honce := h.once c x hx
  rw [hkept.due_eq]
  omega

theorem takers_quiet (h : Resumes f) (hq : Quiet f.shared k i t) {c j : ℕ} {x' : Ctx S}
    (hx' : look t.shared.heap c = some x') (hj : j ∈ x'.takers) :
    x'.scheduler = none ∨ Calls (f.after resume k role rest t) c j := by
  have hk := hran.look_eq
  have hself := h.waiters.resumed_ne hran
  obtain ⟨x, hx, hkept⟩ := hq.heap.old hx'
  rw [hkept.scheduler]
  rcases hkept.takers j hj with hj | ⟨rfl, hmem | ⟨d, y, rfl, hy, hfind⟩⟩
  · exact (h.takers c x hx j hj).imp_right (calls_quiet hran hi h)
  · right
    left
    rw [Threads.code_after_self hk hself]
    exact List.mem_append_left _ hmem
  · -- the timeout of another request would have to have the same `sn`
    obtain ⟨-, x₁, hx₁, hsn⟩ := h.keyed.listed_find hfind
    obtain rfl : c = d := h.distinct c d x₁ y hx₁ hy hsn
    have hcode := h.erases j c (Threads.code_of_look hk ▸ List.mem_cons_self)
    rw [Threads.code_of_look hk] at hcode
    right
    left
    rw [Threads.code_after_self hk hself, (List.cons.inj hcode).2]
    simp [doRspCode]

theorem quiet (h : Resumes f) : Resumes (f.after resume k role rest t) := by
  have hq := exec_quiet h.keyed hran.exec_eq hi
  refine
    { waiters := h.waiters.turn hran
      keyed := h.keyed.exec hran.exec_eq
      once := fun c x' hx' => once_quiet hran hi h hq hx'
      fiber := ?_
      swaps := ?_
      takers := fun c x' hx' j hj => takers_quiet hran hi h hq hx' hj
      known := ?_
      erases := h.erases_turn hran
      distinct := ?_ }
  · intro c x' hx' hfiber
    obtain ⟨x, hx, hkept⟩ := hq.heap.old hx'
    rw [hkept.scheduler]
    exact h.fiber c x hx (hkept.fiber ▸ hfiber)
  · intro c x' hx' j scd hmem
    obtain ⟨x, hx, hkept⟩ := hq.heap.old hx'
    rw [hkept.scheduler]
    rcases mem_code_quiet hran h hq.born hmem with hmem | hmem
    · exact h.swaps c x hx j scd hmem
    · cases (hq.next c _ hmem).1
  · intro j c stage hmem
    show c < t.shared.heap.length
    rw [hq.heap.length_eq]
    rcases mem_code_quiet hran h hq.born hmem with hmem | hmem
    · exact h.known j c stage hmem
    · exact (hq.next c stage hmem).2
  · intro c d x' y' hx' hy' hsn
    obtain ⟨x, hx, hkept⟩ := hq.heap.old hx'
    obtain ⟨y, hy, hkept'⟩ := hq.heap.old hy'
    exact h.distinct c d x y hx hy (hkept.sn.symm.trans (hsn.trans hkept'.sn))

end QuietTurn

section RspTurn

variable {c : ℕ} {x : Ctx S} {stage : Rsp S}

theorem look_rsp (hx : look f.shared.heap c = some x) {d : ℕ} {z : Ctx S}
    (hz : look (rspTurn f.shared c x stage).shared.heap d = some z) :
    d = c ∧ z = (x.doRsp stage).1 ∨ d ≠ c ∧ look f.shared.heap d = some z := by
  change look (f.shared.heap.modify c _) d = some z at hz
  rw [look_modify] at hz
  by_cases hd : c = d
  · rw [if_pos hd, ← hd, hx] at hz
    exact .inl ⟨hd.symm, (Option.some.inj hz).symm⟩
  · rw [if_neg hd] at hz
    exact .inr ⟨Ne.symm hd, hz⟩

theorem changes_rspTurn (hx : look f.shared.heap c = some x) :
    Changes (fun _ x x' => x'.sn = x.sn ∧ x'.takers = x.takers ∧
      (x'.scheduler = x.scheduler ∨ x'.scheduler = none)) f.shared.heap
      (rspTurn f.shared c x stage).shared.heap :=
  changes_rsp (R := fun _ x x' => x'.sn = x.sn ∧ x'.takers = x.takers ∧
    (x'.scheduler = x.scheduler ∨ x'.scheduler = none)) (fun _ _ => ⟨rfl, rfl, .inl rfl⟩) hx
    ⟨doRsp_sn x stage, doRsp_takers x stage, x.scheduler_doRsp stage⟩

variable (hk : look f.threads k = some ⟨role, .rsp c stage :: rest⟩)
include hk

theorem mem_code_rsp {j d : ℕ} {stage' : Rsp S}
    (h : .rsp d stage' ∈ (f.after resume k role rest (rspTurn f.shared c x stage)).code j) :
    .rsp d stage' ∈ f.code j ∨ d = c ∧ stage' ∈ (x.doRsp stage).2 := by
  rcases Threads.mem_code_after (fun _ => eq_of_resume rfl) hk (resumed_rspTurn _ _ _ _ k) h with
    ⟨hj, hin⟩ | ⟨-, hin⟩ | ⟨-, u, hu, -⟩
  · rw [hj, Threads.code_of_look hk]
    rcases List.mem_append.mp hin with hin | hin
    · obtain ⟨stage'', hstage, heq⟩ := List.mem_map.mp hin
      cases heq
      exact .inr ⟨rfl, hstage⟩
    · exact .inl (List.mem_cons_of_mem _ hin)
  · exact .inl hin
  · cases hu

theorem code_rsp_of_mem {j d : ℕ} {stage' : Rsp S} (h : .rsp d stage' ∈ f.code j) :
    .rsp d stage' ∈ (f.after resume k role rest (rspTurn f.shared c x stage)).code j ∨
      j = k ∧ d = c ∧ stage' = stage := by
  by_cases hj : j = k
  · subst hj
    rw [Threads.code_of_look hk] at h
    rcases List.mem_cons.mp h with heq | hmem
    · cases heq
      exact .inr ⟨rfl, rfl, rfl⟩
    · left
      rw [Threads.code_after_self hk (resumed_rspTurn _ _ _ _ _)]
      exact List.mem_append_right _ hmem
  · exact .inl (Threads.mem_after_of_ne rfl hk hj h)

variable (hx : look f.shared.heap c = some x)
include hx

theorem once_rsp (h : Resumes f) {d : ℕ} {z : Ctx S}
    (hz : look (rspTurn f.shared c x stage).shared.heap d = some z) :
    z.due + Threads.total (scheduling d)
      (f.after resume k role rest (rspTurn f.shared c x stage)).threads = 1 := by
  have htotal := Threads.total_after_turn (t := rspTurn f.shared c x stage) (scheduling_resume d) hk
  have hborn : Threads.total (scheduling d) (rspTurn f.shared c x stage).born = 0 := rfl
  have hnext : ((rspTurn f.shared c x stage).next.map (scheduling d role)).sum =
      if c = d then ((x.doRsp stage).2.map Rsp.schedules).sum else 0 := sum_rsp _ c d role
  rw [hborn, hnext] at htotal
  rcases look_rsp hx hz with ⟨rfl, rfl⟩ | ⟨hd, hz⟩
  · have hdue := x.due_doRsp (h.fiber d x hx) stage
    have honce := h.once d x hx
    simp only [scheduling, if_true] at htotal
    omega
  · have honce := h.once d z hz
    simp only [scheduling, if_neg (Ne.symm hd)] at htotal
    omega

theorem fiber_rsp (h : Resumes f) {d : ℕ} {z : Ctx S}
    (hz : look (rspTurn f.shared c x stage).shared.heap d = some z) (hfiber : z.fiber = none) :
    z.scheduler = none := by
  rcases look_rsp hx hz with ⟨rfl, rfl⟩ | ⟨-, hz⟩
  · by_cases hstage : ∃ scd, stage = .schedule scd
    · -- the fiber is scheduled by the call that won the compare-and-swap
      obtain ⟨scd, rfl⟩ := hstage
      have hle := Threads.le_total (scheduling d) hk
      have honce := h.once d x hx
      simp only [scheduling, if_true, Rsp.schedules] at hle
      cases hs : x.scheduler with
      | none => exact hs
      | some scd' =>
        simp only [Ctx.due, hs, Option.isSome_some, Bool.toNat_true] at honce
        omega
    · push Not at hstage
      rw [Ctx.fiber_doRsp hstage] at hfiber
      have hnone := h.fiber d x hx hfiber
      rcases x.scheduler_doRsp stage with heq | heq
      · exact heq.trans hnone
      · exact heq
  · exact h.fiber d z hz hfiber

theorem takers_rsp (h : Resumes f) {d j : ℕ} {z : Ctx S}
    (hz : look (rspTurn f.shared c x stage).shared.heap d = some z) (hj : j ∈ z.takers) :
    z.scheduler = none ∨ Calls (f.after resume k role rest (rspTurn f.shared c x stage)) d j := by
  obtain ⟨y, hy, -, htakers, hscheduler⟩ := (changes_rspTurn hx).old hz
  rcases h.takers d y hy j (htakers ▸ hj) with hnone | hmem | ⟨scd, hmem⟩
  · rcases hscheduler with heq | heq
    · exact .inl (heq.trans hnone)
    · exact .inl heq
  · rcases code_rsp_of_mem (x := x) hk hmem with hmem | ⟨rfl, rfl, rfl⟩
    · exact .inr (.inl hmem)
    · right
      right
      refine ⟨x.scheduler, ?_⟩
      rw [Threads.code_after_self hk (resumed_rspTurn _ _ _ _ _)]
      exact List.mem_append_left _ List.mem_cons_self
  · rcases code_rsp_of_mem (x := x) hk hmem with hmem' | ⟨rfl, rfl, rfl⟩
    · exact .inr (.inr ⟨scd, hmem'⟩)
    · left
      rcases look_rsp hx hz with ⟨-, rfl⟩ | ⟨hne, -⟩
      · exact Ctx.scheduler_compareAndSwap (h.swaps d x hx j scd hmem)
      · exact absurd rfl hne

end RspTurn

theorem rsp {c : ℕ} {stage : Rsp S} (h : Resumes f)
    (hran : Threads.Ran exec f k w role (.rsp c stage) rest t) :
    Resumes (f.after resume k role rest t) := by
  have hk := hran.look_eq
  obtain ⟨x, hx, rfl⟩ := exec_rsp hran.exec_eq
  refine
    { waiters := h.waiters.turn hran
      keyed := h.keyed.exec hran.exec_eq
      once := fun d z hz => once_rsp hk hx h hz
      fiber := fun d z hz hfiber => fiber_rsp hk hx h hz hfiber
      swaps := ?_
      takers := fun d z hz j hj => takers_rsp hk hx h hz hj
      known := ?_
      erases := h.erases_turn hran
      distinct := ?_ }
  · intro d z hz j scd hmem
    obtain ⟨y, hy, -, -, hscheduler⟩ := (changes_rspTurn hx).old hz
    rcases mem_code_rsp hk hmem with hin | ⟨rfl, hin⟩
    · rcases hscheduler with heq | heq
      · rw [heq]
        exact h.swaps d y hy j scd hin
      · exact .inr heq
    · obtain ⟨rfl, rfl⟩ := Ctx.mem_doRsp hin
      cases hx.symm.trans hy
      exact hscheduler
  · intro j d stage' hmem
    show d < (rspTurn f.shared c x stage).shared.heap.length
    rw [(changes_rspTurn hx).length_eq]
    rcases mem_code_rsp hk hmem with hmem | ⟨rfl, -⟩
    · exact h.known j d stage' hmem
    · exact lt_length_of_look hx
  · intro d e z z' hz hz' hsn
    obtain ⟨y, hy, hsny, -⟩ := (changes_rspTurn hx).old hz
    obtain ⟨y', hy', hsny', -⟩ := (changes_rspTurn hx).old hz'
    exact h.distinct d e y y' hy hy' (hsny.symm.trans (hsn.trans hsny'))

theorem turn (h : Resumes f) (hran : Threads.Ran exec f k w role i rest t) :
    Resumes (f.after resume k role rest t) := by
  by_cases hi : ∃ c stage, i = .rsp c stage
  · obtain ⟨c, stage, rfl⟩ := hi
    exact h.rsp hran
  · push Not at hi
    exact quiet hran hi h

end Resumes

omit [DecidableEq S] in
theorem Resumes.threw {f : Fibers S} (h : Resumes f) {old new : List (Instr S)}
    (hk : look f.threads k = some ⟨role, old⟩) (hthrown : Thrown old new) :
    Resumes (f.put k role new) := by
  obtain ⟨hold, hnew⟩ := hthrown.ofCtx_eq
  have hsum : ∀ c (code : List (Instr S)), (∀ i ∈ code, ofCtx i = false) →
      (code.map (scheduling c role)).sum = 0 := by
    intro c code hcode
    refine sum_next (fun d stage hmem => ?_) c role
    cases hcode _ hmem
  have hback : ∀ j i, ofCtx i = true → i ∈ (f.put k role new).code j → i ∈ f.code j := by
    intro j i hi hmem
    refine (Threads.mem_code_put hk hmem).resolve_right fun hin => ?_
    cases hi.symm.trans (hnew i hin)
  have hsame : ∀ j i, ofCtx i = true → i ∈ f.code j →
      (f.put k role new).code j = f.code j := by
    intro j i hi hmem
    refine Threads.code_put_of_mem hk (fun hin => ?_) hmem
    cases hi.symm.trans (hold i hin)
  refine
    { waiters := h.waiters.threw hk hthrown
      keyed := h.keyed
      once := ?_
      fiber := h.fiber
      swaps := fun c x hx j scd hmem => h.swaps c x hx j scd (hback j _ rfl hmem)
      takers := ?_
      known := fun j c stage hmem => h.known j c stage (hback j _ rfl hmem)
      erases := ?_
      distinct := h.distinct }
  · intro c x hx
    have htotal := Threads.total_put (scheduling c) hk new
    rw [hsum c old hold, hsum c new hnew] at htotal
    have honce := h.once c x hx
    omega
  · intro c x hx j hj
    refine (h.takers c x hx j hj).imp_right ?_
    rintro (hmem | ⟨scd, hmem⟩)
    · exact .inl (hsame j _ rfl hmem ▸ hmem)
    · exact .inr ⟨scd, hsame j _ rfl hmem ▸ hmem⟩
  · intro j c hmem
    have hin := hback j _ rfl hmem
    rw [hsame j _ rfl hin]
    exact h.erases j c hin

/-- A request has an `sn` that no request before it had. -/
def Distinct (f : Fibers S) : Move S → Prop
  | .request _ sn => ∀ x ∈ f.shared.heap, x.sn ≠ sn
  | _ => True

theorem Resumes.step {f f' : Fibers S} {m : Move S} (h : Resumes f) (hm : Distinct f m)
    (hs : Stepped f m f') : Resumes f' := by
  cases hs with
  | returned hm => exact h
  | request this sn =>
    refine (h.add this f.threads.length hm).start _ rfl rfl rfl (.refl (fun _ => .refl 0 _) _) ?_ ?_
    · intro c stage hmem
      simp [requestCode] at hmem
    · intro c hmem
      simp [requestCode] at hmem
  | sendMessage =>
    refine h.start _ rfl rfl rfl (.refl (fun _ => .refl 0 _) _) ?_ ?_
    · intro c stage hmem
      simp at hmem
    · intro c hmem
      simp at hmem
  | start this =>
    refine h.start _ rfl rfl rfl (.refl (fun _ => .refl 0 _) _) ?_ ?_
    · intro c stage hmem
      simp at hmem
    · intro c hmem
      simp at hmem
  | onTimeOut hc hx =>
    refine h.start _ rfl rfl rfl (.modify (fun _ => .refl 0 _) fun x _ =>
      ⟨rfl, rfl, rfl, rfl, fun _ hj => .inl hj⟩) ?_ ?_
    · intro d stage hmem
      simp only [onTimeOutCode, doRspCode, List.mem_append, List.mem_cons, reduceCtorEq,
        List.not_mem_nil, or_self, false_or, or_false, Instr.rsp.injEq] at hmem
      obtain ⟨rfl, rfl⟩ := hmem
      exact ⟨rfl, lt_length_of_look hc⟩
    · intro d hmem
      simp only [onTimeOutCode, doRspCode, List.mem_append, List.mem_cons, reduceCtorEq,
        List.not_mem_nil, or_self, or_false, Instr.eraseCtx.injEq] at hmem
      rw [hmem]
  | close =>
    exact ⟨⟨h.waiters.sem, h.waiters.waitSem⟩, ⟨h.keyed.nodup, h.keyed.sn⟩, h.once, h.fiber,
      h.swaps, h.takers, h.known, h.erases, h.distinct⟩
  | turn hran => exact h.turn hran
  | threw hk hthrown => exact h.threw hk hthrown

/-- The fiber `k` is not in a `doRsp` on the context `c`. -/
def Finished (f : Fibers S) (c k : ℕ) : Prop := ∀ stage, .rsp c stage ∉ f.code k

/-- Every fiber is scheduled at most once. When one that took the context out has finished its
`doRsp`, it is scheduled, or another call of `doRsp` has won and is about to schedule it. -/
def Resumed (f : Fibers S) : Prop :=
  ∀ c x, look f.shared.heap c = some x → x.scheduled.length ≤ 1 ∧
    ∀ k ∈ x.takers, Finished f c k → x.scheduled.length = 1 ∨
      x.scheduled = [] ∧ ∃ j scd, j ≠ k ∧ .rsp c (.schedule scd) ∈ f.code j

omit [DecidableEq S] in
theorem resumed_of_resumes {f : Fibers S} (h : Resumes f) : Resumed f := by
  intro c x hx
  have honce := h.once c x hx
  unfold Ctx.due at honce
  refine ⟨by omega, fun k hk hfinished => ?_⟩
  have hnone : x.scheduler = none := by
    rcases h.takers c x hx k hk with hnone | hmem | ⟨scd, hmem⟩
    · exact hnone
    · exact absurd hmem (hfinished _)
    · exact absurd hmem (hfinished _)
  simp only [hnone, Option.isSome_none, Bool.toNat_false, Nat.add_zero] at honce
  by_cases hzero : x.scheduled = []
  · right
    rw [hzero, List.length_nil] at honce
    obtain ⟨j, u, i, hu, hi, hpos⟩ := Threads.exists_of_total_pos (s := f) (w := scheduling c)
      (by omega)
    refine ⟨hzero, j, ?_⟩
    cases i with
    | rsp d stage =>
      have hd : d = c := by
        by_contra hne
        exact absurd hpos (by simp [scheduling, hne])
      subst hd
      have hin : .rsp d stage ∈ f.code j := Threads.code_of_look hu ▸ hi
      cases stage with
      | schedule scd =>
        refine ⟨scd, ?_, hin⟩
        rintro rfl
        exact hfinished _ hin
      | _ => simp [scheduling, Rsp.schedules] at hpos
    | _ => cases hpos
  · left
    have hpos := List.length_pos_iff.mpr hzero
    omega

theorem requests_resumed_once (connected : Bool) (iomanager : Option S) (ms : List (Move S))
    (hms : Each step Distinct (init connected iomanager) ms) :
    Along step Resumed (init connected iomanager) ms := by
  apply Along.mono fun _ => resumed_of_resumes
  apply along_of_each Resumes Distinct
  · intro f m f' h hm hs
    exact h.step hm (step_stepped hs)
  · exact Resumes.init connected iomanager
  · exact hms

instance (f : Fibers S) : ∀ m : Move S, Decidable (Distinct f m)
  | .request _ sn => inferInstanceAs (Decidable (∀ x ∈ f.shared.heap, x.sn ≠ sn))
  | .sendMessage | .start _ | .onTimeOut _ | .close | .turn _ _ | .threw _ => .isTrue trivial

/-- `doRead` takes the context out for a response, and `onTimeOut` wins the compare-and-swap
before `doRead` reads `scheduler`. -/
def lateResponse : List (Move ℕ) :=
  [.start (some 7), .turn 0 .quiet, .turn 0 .quiet, .turn 0 (.outcome true),
    .turn 0 (.outcome true), .turn 0 .quiet, .turn 0 .quiet,
    .request 8 5, .turn 3 .quiet, .turn 3 .quiet, .turn 3 .quiet, .turn 3 .quiet, .turn 3 .quiet,
    .turn 1 .quiet, .turn 1 (.received (.response 0 200)),
    .onTimeOut 0, .turn 4 .quiet, .turn 4 .quiet, .turn 4 .quiet, .turn 4 .quiet,
    .turn 1 .quiet, .turn 1 .quiet, .turn 1 .quiet]

theorem requests_resumed_once_late :
    (lateResponse.foldlM step (init true none)).isOk ∧
      Along step Resumed (init true none) lateResponse :=
  ⟨by decide, requests_resumed_once true none lateResponse (by decide)⟩

/-- Whoever takes a context out and has finished does not know that its fiber is scheduled. -/
theorem taken_not_yet_resumed :
    ¬ ∀ ms : List (Move ℕ), Each step Distinct (init true none) ms →
      Along step (fun f => ∀ c x, look f.shared.heap c = some x → x.scheduled.length ≤ 1 ∧
        ∀ k ∈ x.takers, Finished f c k → x.scheduled.length = 1) (init true none) ms := by
  intro hall
  have hlast := (hall lateResponse (by decide)).last rfl
  have hfinished := (hlast 0 _ rfl).2 1 (by decide)
  refine absurd (hfinished fun stage hmem => ?_) (by decide)
  cases List.mem_singleton.mp hmem

end AsyncSocketStream

end Sylar
