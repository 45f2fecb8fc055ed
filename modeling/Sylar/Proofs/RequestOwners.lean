import Sylar.Proofs.RequestContexts

/-! Contexts are known by `sn` alone. A request is added to `m_ctxs`, answered and timed out by
its `sn`, and what that does to other requests depends on whether one of them has the same. -/

namespace Sylar

open Lib

namespace AsyncSocketStream

variable {S : Type}

/-- What a move does to `m_ctxs` in the name of one request: `addCtx`, the `erase` of
`onTimeOut`, or the `getAndDelCtx` for its response. -/
inductive Handles (f : Fibers S) : Move S → ℕ → Prop
  | addCtx {k c : ℕ} {w : World} (h : (f.code k).head? = some (.addCtx c)) :
      Handles f (.turn k w) c
  | onTimeOut {k c : ℕ} {w : World} (h : (f.code k).head? = some (.eraseCtx c)) :
      Handles f (.turn k w) c
  | response {k r : ℕ} {result : UInt32} (h : (f.code k).head? = some .doRecv) :
      Handles f (.turn k (.received (.response r result))) r

/-- No other request in `m_ctxs` has the `sn` of the request that is handled. -/
def NoNamesake (f : Fibers S) (m : Move S) : Prop :=
  ∀ c, Handles f m c → ∀ d x y, look f.shared.heap c = some x → look f.shared.heap d = some y →
    Listed f.shared d → y.sn = x.sn → d = c

/-- The other requests stay in `m_ctxs`, and one that is added is there. -/
def Owned [DecidableEq S] (f : Fibers S) (m : Move S) : Prop :=
  ∀ f', step f m = .ok f' → ∀ c, Handles f m c →
    (∀ d, d ≠ c → (Listed f'.shared d ↔ Listed f.shared d)) ∧
    (∀ k w, m = .turn k w → (f.code k).head? = some (.addCtx c) → Listed f'.shared c)

/-- The steps of `onTimeOut` are about its own context. -/
def OfTimeOut (c : ℕ) (i : Instr S) : Prop :=
  i = .eraseCtx c ∨ i = .setTimed c ∨ ∃ stage, i = .rsp c stage

def SameResponse (x x' : Ctx S) : Prop := x'.response = x.response

theorem SameResponse.refl (x : Ctx S) : SameResponse x x := rfl

/-- A request has only its own response, and is completed only by its own timeout. -/
structure Answers (f : Fibers S) : Prop where
  response : ∀ c x r, look f.shared.heap c = some x → x.response = some r → r = c
  pending : ∀ k c r result, .setResponse c r result ∈ f.code k → r = c
  timeout : ∀ k u, look f.threads k = some u → ∀ c, u.role = .onTimeOut c →
    ∀ i ∈ u.code, OfTimeOut c i

variable {s s' : AsyncSocketStream S} {f : Fibers S} {k : ℕ} {role : Role S} {i : Instr S}
  {w : World} {t : FiberTurn S} {rest : List (Instr S)}

theorem head_code (hk : look f.threads k = some ⟨role, i :: rest⟩) : (f.code k).head? = some i := by
  rw [Threads.code_of_look hk]
  rfl

theorem listed_cons {c d : ℕ} {sn : UInt32} :
    Listed { s with m_ctxs := (sn, c) :: s.m_ctxs } d ↔ d = c ∨ Listed s d := by
  show d ∈ ((sn, c) :: s.m_ctxs).map Prod.snd ↔ _
  rw [List.map_cons, List.mem_cons]
  rfl

theorem erase_owned_iff (hs : Keyed s) (c : ℕ) (x : Ctx S) :
    (∀ d, d ≠ c → (Listed (s.erase k x.sn) d ↔ Listed s d)) ↔
      ∀ d y, look s.heap d = some y → Listed s d → y.sn = x.sn → d = c := by
  constructor
  · intro howned d y hy hlisted hsn
    by_contra hne
    have hfind := hs.find_listed hy hlisted
    rw [hsn] at hfind
    exact (hs.listed_erase.mp ((howned d hne).mpr hlisted)).2 hfind
  · intro halone d hne
    rw [hs.listed_erase]
    refine ⟨And.left, fun hlisted => ⟨hlisted, fun hfind => hne ?_⟩⟩
    obtain ⟨-, y, hy, hsn⟩ := hs.listed_find hfind
    exact halone d y hy hlisted hsn

theorem listed_sn_ne (hs : Keyed s) {sn : UInt32} (hfind : Assoc.find s.m_ctxs sn = none) {d : ℕ}
    {y : Ctx S} (hy : look s.heap d = some y) (hlisted : Listed s d) : y.sn ≠ sn := by
  intro hsn
  have hd := hs.find_listed hy hlisted
  rw [hsn, hfind] at hd
  cases hd

theorem erased_owned_iff (hs : Keyed s) {c : ℕ} {x : Ctx S} (hx : look s.heap c = some x)
    (hshared : t.shared = s.erase k x.sn) :
    (∀ d, d ≠ c → (Listed t.shared d ↔ Listed s d)) ↔
      ∀ d x y, look s.heap c = some x → look s.heap d = some y → Listed s d → y.sn = x.sn →
        d = c := by
  rw [hshared, erase_owned_iff hs c x]
  constructor
  · intro h d x' y hx' hy
    cases hx.symm.trans hx'
    exact h d y hy
  · exact fun h d y hy => h d x y hx hy

variable [DecidableEq S]

theorem exec_addCtx {c : ℕ} (h : s.exec k role (.addCtx c) w = .ok t) :
    ∃ x, look s.heap c = some x ∧
      (Assoc.find s.m_ctxs x.sn = none ∧ t.shared = { s with m_ctxs := (x.sn, c) :: s.m_ctxs } ∨
        ∃ d, Assoc.find s.m_ctxs x.sn = some d ∧ t.shared = s) := by
  rcases exec_cases h with ⟨s', next, rfl, hctxs⟩ | hflow
  · cases hctxs with
    | added w hc hfind => exact ⟨_, hc, .inl ⟨hfind, rfl⟩⟩
    | present w hc hfind => exact ⟨_, hc, .inr ⟨_, hfind, rfl⟩⟩
    | writes w hw => cases hw
  · cases hflow with
    | control hcontrol => cases hcontrol
    | notified hi hn => rcases hi with hi | hi <;> cases hi

theorem exec_eraseCtx {c : ℕ} (h : s.exec k role (.eraseCtx c) w = .ok t) :
    ∃ x, look s.heap c = some x ∧ t = .only (s.erase k x.sn) [] := by
  rcases exec_cases h with ⟨s', next, rfl, hctxs⟩ | hflow
  · cases hctxs with
    | erased w hc => exact ⟨_, hc, rfl⟩
    | writes w hw => cases hw
  · cases hflow with
    | control hcontrol => cases hcontrol
    | notified hi hn => rcases hi with hi | hi <;> cases hi

theorem exec_response {r : ℕ} {result : UInt32}
    (h : s.exec k role .doRecv (.received (.response r result)) = .ok t) :
    ∃ x, look s.heap r = some x ∧ t.shared = s.erase k x.sn ∧
      t.next = answer r result (Assoc.find s.m_ctxs x.sn) := by
  change s.doRecv k (.response r result) = .ok t at h
  unfold doRecv at h
  dsimp only at h
  split at h
  · cases h
  · next x hx =>
    rw [← Except.ok.inj h]
    exact ⟨x, hx, rfl, rfl⟩

theorem added_owned_iff (hs : Keyed s) {c : ℕ} (h : s.exec k role (.addCtx c) w = .ok t) :
    ((∀ d, d ≠ c → (Listed t.shared d ↔ Listed s d)) ∧ Listed t.shared c) ↔
      ∀ d x y, look s.heap c = some x → look s.heap d = some y → Listed s d → y.sn = x.sn →
        d = c := by
  obtain ⟨x, hx, hcase⟩ := exec_addCtx h
  constructor
  · rintro ⟨-, hc⟩ d x' y hx' hy hlisted hsn
    cases hx.symm.trans hx'
    rcases hcase with ⟨hfind, -⟩ | ⟨e, hfind, hshared⟩
    · exact absurd hsn (listed_sn_ne hs hfind hy hlisted)
    · -- both are under one `sn`, which has one entry
      rw [hshared] at hc
      have hfindc := hs.find_listed hx hc
      have hfindd := hs.find_listed hy hlisted
      rw [hsn, hfindc] at hfindd
      exact (Option.some.inj hfindd).symm
  · intro halone
    rcases hcase with ⟨hfind, hshared⟩ | ⟨e, hfind, hshared⟩
    · rw [hshared]
      refine ⟨fun d hne => ?_, listed_cons.mpr (.inl rfl)⟩
      rw [listed_cons]
      exact ⟨fun hd => hd.resolve_left hne, .inr⟩
    · obtain ⟨hlisted, y, hy, hsn⟩ := hs.listed_find hfind
      obtain rfl : e = c := halone e x y hx hy hlisted hsn
      rw [hshared]
      exact ⟨fun _ _ => Iff.rfl, hlisted⟩

/-- Requests keep to themselves in a step exactly when the one that is handled has no
namesake. -/
theorem owned_iff_noNamesake {f' : Fibers S} {m : Move S} (hf : Keyed f.shared)
    (hs : step f m = .ok f') : Owned f m ↔ NoNamesake f m := by
  have hone : Owned f m ↔ ∀ c, Handles f m c →
      (∀ d, d ≠ c → (Listed f'.shared d ↔ Listed f.shared d)) ∧
      (∀ k w, m = .turn k w → (f.code k).head? = some (.addCtx c) → Listed f'.shared c) := by
    refine ⟨fun h => h f' hs, fun h f'' hs'' => ?_⟩
    cases hs.symm.trans hs''
    exact h
  rw [hone]
  refine forall_congr' fun c => forall_congr' fun hhandles => ?_
  cases step_stepped hs with
  | returned hm => cases hhandles <;> exact absurd rfl (hm _ _)
  | turn hran =>
    have hhead := head_code hran.look_eq
    cases hhandles with
    | addCtx h =>
      cases Option.some.inj (hhead.symm.trans h)
      rw [← added_owned_iff hf hran.exec_eq]
      exact and_congr_right fun _ => ⟨fun hadd => hadd _ _ rfl h, fun hadd _ _ _ _ => hadd⟩
    | onTimeOut h =>
      cases Option.some.inj (hhead.symm.trans h)
      obtain ⟨x, hx, ht⟩ := exec_eraseCtx hran.exec_eq
      rw [← erased_owned_iff hf hx (congrArg Turn.shared ht)]
      refine and_iff_left fun k' w' heq h' => ?_
      cases heq
      cases h.symm.trans h'
    | response h =>
      cases Option.some.inj (hhead.symm.trans h)
      obtain ⟨x, hx, hshared, -⟩ := exec_response hran.exec_eq
      rw [← erased_owned_iff hf hx hshared]
      refine and_iff_left fun k' w' heq h' => ?_
      cases heq
      cases h.symm.trans h'
  | _ => cases hhandles

theorem OnCtxs.response {next : List (Instr S)} (h : OnCtxs s k i w s' next) :
    Changes (fun d x x' => x'.response = x.response ∨
      ∃ r result, i = .setResponse d r result ∧ x'.response = some r) s.heap s'.heap := by
  cases h with
  | added w hc hfind => exact .refl (fun _ _ => .inl rfl) s.heap
  | present w hc hfind => exact .refl (fun _ _ => .inl rfl) s.heap
  | writes w hw =>
    refine .modify (fun _ _ => .inl rfl) fun x _ => ?_
    cases hw with
    | setResponse c r result => exact .inr ⟨r, result, rfl, rfl⟩
    | _ => exact .inl rfl
  | erased w hc => exact (changes_erase s k _).mono fun _ _ _ hx => .inl hx.2
  | responded result hr => exact (changes_erase s k _).mono fun _ _ _ hx => .inl hx.2
  | rsp stage w hc =>
    refine .modify (fun _ _ => .inl rfl) fun x hx => .inl ?_
    cases hc.symm.trans hx
    exact doRsp_response _ stage
  | swapped hctxs => exact (changes_swapCtxs s k).mono fun _ _ _ hx => .inl hx.2

theorem exec_setResponse (c r : ℕ) (result : UInt32) (h : s.exec k role i w = .ok t) :
    (.setResponse c r result ∈ t.next → i = .doRecv ∧ w = .received (.response r result) ∧
      ∃ x, look s.heap r = some x ∧ Assoc.find s.m_ctxs x.sn = some c) ∧
    ∀ u ∈ t.born, .setResponse c r result ∉ u.code := by
  rcases exec_cases h with ⟨s', next, rfl, hctxs⟩ | hflow
  · refine ⟨fun hmem => ?_, fun u hu => absurd hu List.not_mem_nil⟩
    change .setResponse c r result ∈ next at hmem
    cases hctxs with
    | responded result' hr =>
      unfold answer at hmem
      split at hmem
      · simp at hmem
      · next d hfind =>
        simp only [doRspCode, List.mem_append, List.mem_singleton, Instr.setResponse.injEq,
          reduceCtorEq, or_false] at hmem
        obtain ⟨rfl, rfl, rfl⟩ := hmem
        exact ⟨rfl, rfl, _, hr, hfind⟩
    | rsp stage w hc => simp at hmem
    | swapped hctxs => simp [doRspCode] at hmem
    | _ => cases hmem
  · constructor
    · intro hmem
      cases hflow.ofCtx_next _ hmem
    · intro u hu hmem
      cases hflow.ofCtx_born u hu _ hmem

theorem ofTimeOut_exec {c : ℕ} (hi : OfTimeOut c i) (h : s.exec k role i w = .ok t) :
    ∀ j ∈ t.next, OfTimeOut c j := by
  rcases hi with rfl | rfl | ⟨stage, rfl⟩
  · obtain ⟨x, -, rfl⟩ := exec_eraseCtx h
    nofun
  · cases w with
    | quiet =>
      cases h
      nofun
    | _ => cases h
  · obtain ⟨x, -, rfl⟩ := exec_rsp h
    intro j hj
    obtain ⟨stage', -, rfl⟩ := List.mem_map.mp hj
    exact .inr (.inr ⟨stage', rfl⟩)

theorem role_born (h : s.exec k role i w = .ok t) : ∀ u ∈ t.born, ∀ c, u.role ≠ .onTimeOut c := by
  rcases exec_cases h with ⟨s', next, rfl, hctxs⟩ | hflow
  · nofun
  · cases hflow with
    | _ => simp [Turn.only]

namespace Answers

theorem turn (h : Answers f) (hwaiters : Waiters f) (hkeyed : Keyed f.shared)
    (hran : Threads.Ran exec f k w role i rest t) (halone : NoNamesake f (.turn k w)) :
    Answers (f.after resume k role rest t) := by
  have hk := hran.look_eq
  have hself := hwaiters.resumed_ne hran
  refine ⟨?_, ?_, ?_⟩
  · intro c x' r hx' hr
    rcases exec_cases hran.exec_eq with ⟨s', next, rfl, hctxs⟩ | hflow
    · obtain ⟨x, hx, hsame | ⟨r', result, rfl, hr'⟩⟩ := hctxs.response.old hx'
      · exact h.response c x r hx (hsame ▸ hr)
      · cases hr'.symm.trans hr
        exact h.pending k c r result (Threads.code_of_look hk ▸ List.mem_cons_self)
    · change look t.shared.heap c = some x' at hx'
      rw [hflow.heap_eq.1] at hx'
      exact h.response c x' r hx' hr
  · intro j c r result hmem
    obtain ⟨hnext, hborn⟩ := exec_setResponse c r result hran.exec_eq
    rcases Threads.mem_code_after (fun _ => eq_of_resume rfl) hk hself hmem with
      ⟨hj, hin⟩ | ⟨-, hin⟩ | ⟨-, u, hu, hin⟩
    · rcases List.mem_append.mp hin with hin | hin
      · obtain ⟨rfl, rfl, x, hx, hfind⟩ := hnext hin
        obtain ⟨hlisted, y, hy, hsn⟩ := hkeyed.listed_find hfind
        exact (halone r (.response (head_code hk)) c x y hx hy hlisted hsn).symm
      · exact h.pending k c r result (Threads.code_of_look hk ▸ List.mem_cons_of_mem i hin)
    · exact h.pending j c r result hin
    · exact absurd hin (hborn u hu)
  · apply Threads.forall_after
      (P := fun _ u => ∀ c, u.role = .onTimeOut c → ∀ i ∈ u.code, OfTimeOut c i) hk hself
    · intro c hrole j hj
      have hown := h.timeout k _ hk c hrole
      rcases List.mem_append.mp hj with hj | hj
      · exact ofTimeOut_exec (hown i List.mem_cons_self) hran.exec_eq j hj
      · exact hown j (List.mem_cons_of_mem i hj)
    · exact fun u hu _ _ c hrole => absurd hrole (role_born hran.exec_eq u hu c)
    · intro n u hn _ hu c hrole
      obtain ⟨r, j, cs, hlook, hj⟩ := hwaiters.resumed hran hn
      cases hu.symm.trans hlook
      -- the fiber waits, and `onTimeOut` does not
      rcases h.timeout n _ hu c hrole j List.mem_cons_self with rfl | rfl | ⟨stage, rfl⟩ <;>
        rcases hj with ⟨hj, -⟩ | ⟨⟨second, hj⟩, -⟩ <;> cases hj
    · exact fun j u _ _ hu => h.timeout j u hu

omit [DecidableEq S] in
theorem start (h : Answers f) {shared : AsyncSocketStream S} {code : List (Instr S)}
    (hheap : Changes (fun _ => SameResponse) f.shared.heap shared.heap)
    (hcode : ∀ c r result, .setResponse c r result ∉ code)
    (hrole : ∀ c, role = .onTimeOut c → ∀ i ∈ code, OfTimeOut c i) :
    Answers (f.start shared role code) := by
  refine ⟨?_, ?_, ?_⟩
  · intro c x' r hx' hr
    obtain ⟨x, hx, hsame⟩ := hheap.old hx'
    exact h.response c x r hx (hsame ▸ hr)
  · intro j c r result hmem
    rcases Threads.mem_code_start hmem with hin | ⟨-, hin⟩
    · exact h.pending j c r result hin
    · exact absurd hin (hcode c r result)
  · intro j u hu
    rcases Threads.look_start_cases hu with ⟨-, rfl⟩ | hu
    · exact hrole
    · exact h.timeout j u hu

omit [DecidableEq S] in
theorem init (connected : Bool) (iomanager : Option S) :
    Answers (AsyncSocketStream.init connected iomanager) := by
  refine ⟨?_, ?_, ?_⟩
  · intro c x r hx
    simp [AsyncSocketStream.init, look] at hx
  · intro j c r result hmem
    simp [AsyncSocketStream.init, Threads.code, look] at hmem
  · intro j u hu
    simp [AsyncSocketStream.init, look] at hu

omit [DecidableEq S] in
theorem threw (h : Answers f) {old new : List (Instr S)} (hk : look f.threads k = some ⟨role, old⟩)
    (hthrown : Thrown old new) : Answers (f.put k role new) := by
  refine ⟨h.response, ?_, ?_⟩
  · intro j c r result hmem
    rcases Threads.mem_code_put hk hmem with hin | hin
    · exact h.pending j c r result hin
    · cases hthrown.ofCtx_eq.2 _ hin
  · apply Threads.forall_put (P := fun _ u => ∀ c, u.role = .onTimeOut c → ∀ i ∈ u.code, OfTimeOut c i) hk
    · intro c hrole
      -- `onTimeOut` calls no callback
      obtain ⟨i, rest, rfl, hi⟩ := hthrown.head
      rcases h.timeout k _ hk c hrole i List.mem_cons_self with rfl | rfl | ⟨stage, rfl⟩ <;>
        rcases hi with hi | hi <;> cases hi
    · exact h.timeout

theorem step {f' : Fibers S} {m : Move S} (h : Answers f) (hwaiters : Waiters f)
    (hkeyed : Keyed f.shared) (hm : NoNamesake f m) (hs : Stepped f m f') : Answers f' := by
  cases hs with
  | returned hm => exact h
  | request this sn =>
    have hadd : Answers (⟨{ f.shared with heap := f.shared.heap ++ [.new sn this f.threads.length] },
        f.threads⟩ : Fibers S) := by
      refine ⟨fun c x r hx hr => ?_, h.pending, h.timeout⟩
      rcases look_append_cases hx with ⟨-, rfl⟩ | hx
      · cases hr
      · exact h.response c x r hx hr
    exact hadd.start (.refl (fun _ => SameResponse.refl) _) (by simp [requestCode]) (by simp)
  | sendMessage => exact h.start (.refl (fun _ => SameResponse.refl) _) (by simp) (by simp)
  | start this => exact h.start (.refl (fun _ => SameResponse.refl) _) (by simp) (by simp)
  | onTimeOut hc hx =>
    refine h.start (.modify (fun _ => SameResponse.refl) fun _ _ => rfl) (by simp [onTimeOutCode, doRspCode]) ?_
    intro c hrole i hi
    cases hrole
    simp only [onTimeOutCode, doRspCode, List.mem_append, List.mem_cons, List.not_mem_nil,
      or_false] at hi
    rcases hi with (rfl | rfl) | rfl
    · exact .inl rfl
    · exact .inr (.inl rfl)
    · exact .inr (.inr ⟨.load, rfl⟩)
  | close => exact ⟨h.response, h.pending, h.timeout⟩
  | turn hran => exact h.turn hwaiters hkeyed hran hm
  | threw hk hthrown => exact h.threw hk hthrown

end Answers

/-- Requests keep to themselves in a run exactly when none is handled that has a namesake in
`m_ctxs`. -/
theorem requests_kept_apart_iff (connected : Bool) (iomanager : Option S) (ms : List (Move S)) :
    Each step Owned (init connected iomanager) ms ∧ Along step Answers (init connected iomanager) ms ↔
      Each step NoNamesake (init connected iomanager) ms := by
  have hiff : Each step Owned (init connected iomanager) ms ↔
      Each step NoNamesake (init connected iomanager) ms := by
    apply each_iff_each fun f => Keyed f.shared
    · intro f m f' hf hs
      exact ⟨hf.step (step_stepped hs), owned_iff_noNamesake hf hs⟩
    · exact Keyed.init connected iomanager
  refine ⟨fun h => hiff.mp h.1, fun h => ⟨hiff.mpr h, ?_⟩⟩
  have hall := along_of_each (fun f => Answers f ∧ Waiters f ∧ Keyed f.shared) NoNamesake
    (fun f m f' hf hm hs => ⟨hf.1.step hf.2.1 hf.2.2 hm (step_stepped hs),
      hf.2.1.step (step_stepped hs), hf.2.2.step (step_stepped hs)⟩) ms
    (init connected iomanager)
    ⟨.init connected iomanager, .init connected iomanager, .init connected iomanager⟩ h
  exact hall.mono fun _ hf => hf.1

/-- A request times out, another one with the same `sn` is made, and the response to the first
comes. -/
def lateAnswer : List (Move ℕ) :=
  [.start (some 7), .turn 0 .quiet, .turn 0 .quiet, .turn 0 (.outcome true),
    .turn 0 (.outcome true), .turn 0 .quiet, .turn 0 .quiet,
    .request 8 5, .turn 3 .quiet, .turn 3 .quiet, .turn 3 .quiet, .turn 3 .quiet, .turn 3 .quiet,
    .turn 2 .quiet, .turn 2 .quiet, .turn 2 .quiet, .turn 2 (.sent .sent),
    .onTimeOut 0, .turn 4 .quiet, .turn 4 .quiet, .turn 4 .quiet, .turn 4 .quiet, .turn 4 .quiet,
    .turn 4 .quiet, .turn 4 .quiet, .request 8 5, .turn 5 .quiet,
    .turn 1 .quiet, .turn 1 (.received (.response 0 200)), .turn 1 .quiet]

theorem request_given_another_response :
    ¬ ∀ ms : List (Move ℕ), Each step Owned (init true none) ms ∧
      Along step Answers (init true none) ms := by
  intro hall
  have hlast := (hall lateAnswer).2.last rfl
  exact absurd (hlast.response 1 _ 0 rfl rfl) (by decide)

end AsyncSocketStream

end Sylar
