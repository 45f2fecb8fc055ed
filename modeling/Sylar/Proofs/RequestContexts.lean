import Sylar.Proofs.AsyncSocketStream

/-! The contexts of the requests and `m_ctxs`. Every entry is under the `sn` of its context,
and only `doRsp` changes what it is about: the scheduler, the fiber and where it was scheduled. -/

namespace Sylar

open Lib

variable {S : Type}

/-- What stays of a context, and who took it out of `m_ctxs`. -/
structure Ctx.Kept (k : ℕ) (took : Prop) (x x' : Ctx S) : Prop where
  sn : x'.sn = x.sn
  scheduler : x'.scheduler = x.scheduler
  fiber : x'.fiber = x.fiber
  scheduled : x'.scheduled = x.scheduled
  takers : ∀ j ∈ x'.takers, j ∈ x.takers ∨ j = k ∧ took

theorem Ctx.Kept.refl (k : ℕ) (took : Prop) (x : Ctx S) : Ctx.Kept k took x x :=
  ⟨rfl, rfl, rfl, rfl, fun _ hj => .inl hj⟩

theorem Ctx.Kept.mono {k : ℕ} {took took' : Prop} {x x' : Ctx S} (h : Ctx.Kept k took x x')
    (himp : took → took') : Ctx.Kept k took' x x' :=
  ⟨h.sn, h.scheduler, h.fiber, h.scheduled, fun j hj => (h.takers j hj).imp_right (And.imp_right himp)⟩

namespace AsyncSocketStream

variable {s s' : AsyncSocketStream S} {k : ℕ} {role : Role S} {i : Instr S} {w : World}
  {next : List (Instr S)} {sn : UInt32} {t : FiberTurn S}

theorem m_ctxs_erase (s : AsyncSocketStream S) (k : ℕ) (sn : UInt32) :
    (s.erase k sn).m_ctxs = Assoc.without s.m_ctxs sn := by
  unfold erase
  split
  · next hnone =>
    refine (List.filter_eq_self.mpr fun e he => ?_).symm
    exact decide_eq_true (Assoc.find_eq_none.mp hnone e he)
  · rfl

def Took (k : ℕ) (took : Prop) (x x' : Ctx S) : Prop :=
  Ctx.Kept k took x x' ∧ x'.response = x.response

theorem Took.refl (k : ℕ) (took : Prop) (x : Ctx S) : Took k took x x := ⟨.refl k took x, rfl⟩

theorem Took.take {took : Prop} (h : took) (k : ℕ) (x : Ctx S) :
    Took k took x { x with takers := x.takers ++ [k] } := by
  refine ⟨⟨rfl, rfl, rfl, rfl, fun j hj => ?_⟩, rfl⟩
  rcases List.mem_append.mp hj with hj | hj
  · exact .inl hj
  · exact .inr ⟨List.mem_singleton.mp hj, h⟩

theorem changes_erase (s : AsyncSocketStream S) (k : ℕ) (sn : UInt32) :
    Changes (fun d => Took k (Assoc.find s.m_ctxs sn = some d)) s.heap (s.erase k sn).heap := by
  unfold erase
  split
  · exact .refl (fun _ => .refl k _) s.heap
  · next c hc => exact .modify (fun _ => .refl k _) fun x _ => .take hc k x

theorem changes_swapCtxs (s : AsyncSocketStream S) (k : ℕ) :
    Changes (fun d => Took k (d ∈ s.m_ctxs.map Prod.snd)) s.heap (s.swapCtxs k).heap := by
  show Changes _ s.heap ((s.m_ctxs.map Prod.snd).foldl _ s.heap)
  generalize s.m_ctxs.map Prod.snd = cs
  generalize s.heap = heap
  induction cs generalizing heap with
  | nil => exact .refl (fun _ => .refl k _) heap
  | cons c cs ih =>
    have hfirst : Changes (fun d => Took k (d = c)) heap
        (heap.modify c fun x => { x with takers := x.takers ++ [k] }) :=
      .modify (fun _ => .refl k _) fun x _ => .take rfl k x
    refine hfirst.trans ?_ (ih _)
    rintro d x y z ⟨hxy, hr⟩ ⟨hyz, hr'⟩
    refine ⟨⟨hyz.sn.trans hxy.sn, hyz.scheduler.trans hxy.scheduler, hyz.fiber.trans hxy.fiber,
      hyz.scheduled.trans hxy.scheduled, ?_⟩, hr'.trans hr⟩
    intro j hj
    rcases hyz.takers j hj with hj | ⟨hj, hd⟩
    · rcases hxy.takers j hj with hj | ⟨hj, hd⟩
      · exact .inl hj
      · exact .inr ⟨hj, List.mem_cons.mpr (.inl hd)⟩
    · exact .inr ⟨hj, List.mem_cons_of_mem c hd⟩

/-- Every entry is under the `sn` of its context, and no `sn` has two. -/
structure Keyed (s : AsyncSocketStream S) : Prop where
  nodup : (s.m_ctxs.map Prod.fst).Nodup
  sn : ∀ e ∈ s.m_ctxs, ∃ x, look s.heap e.2 = some x ∧ x.sn = e.1

def Listed (s : AsyncSocketStream S) (c : ℕ) : Prop := c ∈ s.m_ctxs.map Prod.snd

namespace Keyed

theorem init (connected : Bool) (iomanager : Option S) :
    Keyed (AsyncSocketStream.init connected iomanager).shared :=
  ⟨List.nodup_nil, fun _ he => absurd he List.not_mem_nil⟩

theorem find_listed (h : Keyed s) {c : ℕ} {x : Ctx S} (hx : look s.heap c = some x)
    (hc : Listed s c) : Assoc.find s.m_ctxs x.sn = some c := by
  obtain ⟨e, he, rfl⟩ := List.mem_map.mp hc
  obtain ⟨y, hy, hsn⟩ := h.sn e he
  obtain rfl : y = x := Option.some.inj (hy.symm.trans hx)
  rw [hsn]
  exact Assoc.find_of_mem h.nodup he

theorem listed_find (h : Keyed s) {c : ℕ} (hfind : Assoc.find s.m_ctxs sn = some c) :
    Listed s c ∧ ∃ x, look s.heap c = some x ∧ x.sn = sn := by
  have hmem := Assoc.mem_of_find hfind
  exact ⟨List.mem_map.mpr ⟨_, hmem, rfl⟩, h.sn _ hmem⟩

theorem listed_erase (h : Keyed s) {d : ℕ} :
    Listed (s.erase k sn) d ↔ Listed s d ∧ Assoc.find s.m_ctxs sn ≠ some d := by
  unfold Listed
  rw [m_ctxs_erase, List.mem_map, List.mem_map]
  constructor
  · rintro ⟨e, he, rfl⟩
    obtain ⟨hmem, hne⟩ := Assoc.mem_without.mp he
    refine ⟨⟨e, hmem, rfl⟩, fun hfind => hne ?_⟩
    obtain ⟨x, hx, hsn⟩ := h.sn e hmem
    obtain ⟨y, hy, hsn'⟩ := (h.listed_find hfind).2
    obtain rfl : x = y := Option.some.inj (hx.symm.trans hy)
    exact hsn.symm.trans hsn'
  · rintro ⟨⟨e, hmem, rfl⟩, hfind⟩
    refine ⟨e, Assoc.mem_without.mpr ⟨hmem, fun hsn => hfind ?_⟩, rfl⟩
    rw [← hsn]
    exact Assoc.find_of_mem h.nodup hmem

theorem of_changes {R : ℕ → Ctx S → Ctx S → Prop} (h : Keyed s)
    (hch : Changes R s.heap s'.heap) (hR : ∀ d x x', R d x x' → x'.sn = x.sn)
    (hsub : s'.m_ctxs.Sublist s.m_ctxs) : Keyed s' := by
  refine ⟨(hsub.map Prod.fst).nodup h.nodup, fun e he => ?_⟩
  obtain ⟨x, hx, hsn⟩ := h.sn e (hsub.subset he)
  obtain ⟨x', hx', hxx'⟩ := hch.new hx
  exact ⟨x', hx', (hR _ _ _ hxx').trans hsn⟩

end Keyed

/-- A step that is not of `doRsp` leaves of every context what `doRsp` is about. A context is
taken out by `eraseCtx`, or its `doRsp` comes next. -/
theorem OnCtxs.kept [DecidableEq S] (h : OnCtxs s k i w s' next) (hi : ∀ c stage, i ≠ .rsp c stage) :
    Changes (fun d => Ctx.Kept k (.rsp d .load ∈ next ∨
      ∃ c x, i = .eraseCtx c ∧ look s.heap c = some x ∧ Assoc.find s.m_ctxs x.sn = some d))
      s.heap s'.heap := by
  cases h with
  | added w hc hfind => exact .refl (fun _ => .refl k _) s.heap
  | present w hc hfind => exact .refl (fun _ => .refl k _) s.heap
  | writes w hw =>
    refine .modify (fun _ => .refl k _) fun x _ => ?_
    cases hw <;> exact ⟨rfl, rfl, rfl, rfl, fun _ hj => .inl hj⟩
  | erased w hc =>
    exact (changes_erase s k _).mono fun d x x' hx =>
      hx.1.mono fun hfind => .inr ⟨_, _, rfl, hc, hfind⟩
  | responded result hr =>
    refine (changes_erase s k _).mono fun d x x' hx => hx.1.mono fun hfind => .inl ?_
    rw [hfind]
    simp [answer, doRspCode]
  | rsp stage w hc => exact absurd rfl (hi _ _)
  | swapped hctxs =>
    refine (changes_swapCtxs s k).mono fun d x x' hx => hx.1.mono fun hmem => .inl ?_
    refine List.mem_append_right _ (List.mem_flatMap.mpr ⟨d, hctxs.mem_iff.mpr hmem, ?_⟩)
    simp [doRspCode]

section

variable [DecidableEq S]

theorem doRsp_sn (x : Ctx S) (stage : Rsp S) : (x.doRsp stage).1.sn = x.sn := by
  cases stage <;> simp only [Ctx.doRsp] <;> split <;> rfl

theorem doRsp_response (x : Ctx S) (stage : Rsp S) : (x.doRsp stage).1.response = x.response := by
  cases stage <;> simp only [Ctx.doRsp] <;> split <;> rfl

theorem doRsp_takers (x : Ctx S) (stage : Rsp S) : (x.doRsp stage).1.takers = x.takers := by
  cases stage <;> simp only [Ctx.doRsp] <;> split <;> rfl

theorem OnCtxs.rsp_inv {c : ℕ} {stage : Rsp S} (h : OnCtxs s k (.rsp c stage) w s' next) :
    ∃ x, look s.heap c = some x ∧ s' = s.setCtx c (fun _ => (x.doRsp stage).1) ∧
      next = (x.doRsp stage).2.map (.rsp c) := by
  cases h with
  | writes w hw => cases hw
  | rsp stage w hc => exact ⟨_, hc, rfl, rfl⟩

/-- A step of `doRsp` on the context `c`, which is `x`. -/
def rspTurn (s : AsyncSocketStream S) (c : ℕ) (x : Ctx S) (stage : Rsp S) : FiberTurn S :=
  .only (s.setCtx c fun _ => (x.doRsp stage).1) ((x.doRsp stage).2.map (.rsp c))

theorem resumed_rspTurn (s : AsyncSocketStream S) (c : ℕ) (x : Ctx S) (stage : Rsp S) (n : ℕ) :
    (rspTurn s c x stage).resumed ≠ some n :=
  show (none : Option ℕ) ≠ some n from nofun

theorem exec_rsp {c : ℕ} {stage : Rsp S} (h : s.exec k role (.rsp c stage) w = .ok t) :
    ∃ x, look s.heap c = some x ∧ t = rspTurn s c x stage := by
  rcases exec_cases h with ⟨s', next, rfl, hctxs⟩ | hflow
  · obtain ⟨x, hx, rfl, rfl⟩ := hctxs.rsp_inv
    exact ⟨x, hx, rfl⟩
  · cases hflow with
    | control hcontrol => cases hcontrol
    | notified hi hn => rcases hi with hi | hi <;> cases hi

theorem changes_rsp {R : ℕ → Ctx S → Ctx S → Prop} (hR : ∀ d x, R d x x) {c : ℕ} {x : Ctx S}
    (hc : look s.heap c = some x) {stage : Rsp S} (hx : R c x (x.doRsp stage).1) :
    Changes R s.heap (s.setCtx c fun _ => (x.doRsp stage).1).heap := by
  refine .modify hR fun y hy => ?_
  cases hc.symm.trans hy
  exact hx

theorem OnCtxs.changes_sn (h : OnCtxs s k i w s' next) :
    Changes (fun _ x x' => x'.sn = x.sn) s.heap s'.heap := by
  by_cases hi : ∃ c stage, i = .rsp c stage
  · obtain ⟨c, stage, rfl⟩ := hi
    obtain ⟨x, hx, rfl, -⟩ := h.rsp_inv
    exact changes_rsp (R := fun _ x x' => x'.sn = x.sn) (fun _ _ => rfl) hx (doRsp_sn x stage)
  · push Not at hi
    exact (h.kept hi).mono fun _ _ _ hx => hx.sn

theorem OnCtxs.m_ctxs (h : OnCtxs s k i w s' next) :
    s'.m_ctxs.Sublist s.m_ctxs ∨ ∃ c x, i = .addCtx c ∧ look s.heap c = some x ∧
      Assoc.find s.m_ctxs x.sn = none ∧ s' = { s with m_ctxs := (x.sn, c) :: s.m_ctxs } := by
  cases h with
  | added w hc hfind => exact .inr ⟨_, _, rfl, hc, hfind, rfl⟩
  | erased w hc => exact .inl (m_ctxs_erase s k _ ▸ List.filter_sublist)
  | responded result hr => exact .inl (m_ctxs_erase s k _ ▸ List.filter_sublist)
  | swapped hctxs => exact .inl (List.nil_sublist _)
  | _ => exact .inl (List.Sublist.refl _)

theorem Keyed.onCtxs (hs : Keyed s) (h : OnCtxs s k i w s' next) : Keyed s' := by
  rcases h.m_ctxs with hsub | ⟨c, x, rfl, hx, hfind, rfl⟩
  · exact hs.of_changes h.changes_sn (fun _ _ _ hsn => hsn) hsub
  · refine ⟨?_, fun e he => ?_⟩
    · rw [List.map_cons, List.nodup_cons]
      refine ⟨fun hmem => ?_, hs.nodup⟩
      obtain ⟨e, he, hsn⟩ := List.mem_map.mp hmem
      exact Assoc.find_eq_none.mp hfind e he hsn
    · rcases List.mem_cons.mp he with rfl | he
      · exact ⟨x, hx, rfl⟩
      · exact hs.sn e he

theorem Keyed.exec (hs : Keyed s) (h : s.exec k role i w = .ok t) :
    Keyed t.shared := by
  rcases exec_cases h with ⟨s', next, rfl, hctxs⟩ | hflow
  · exact hs.onCtxs hctxs
  · obtain ⟨hheap, hm⟩ := hflow.heap_eq
    exact ⟨hm ▸ hs.nodup, fun e he => hheap ▸ hs.sn e (hm ▸ he)⟩

theorem Keyed.step {f f' : Fibers S} {m : Move S} (hf : Keyed f.shared) (h : Stepped f m f') :
    Keyed f'.shared := by
  cases h with
  | request this sn =>
    refine ⟨hf.nodup, fun e he => ?_⟩
    obtain ⟨x, hx, hsn⟩ := hf.sn e he
    exact ⟨x, look_append_old hx _, hsn⟩
  | onTimeOut hc hx =>
    exact hf.of_changes (R := fun _ x x' => x'.sn = x.sn) (.modify (fun _ _ => rfl) fun _ _ => rfl)
      (fun _ _ _ hsn => hsn) (List.Sublist.refl _)
  | turn hran => exact hf.exec hran.exec_eq
  | _ => exact ⟨hf.nodup, hf.sn⟩

end

end AsyncSocketStream

end Sylar
