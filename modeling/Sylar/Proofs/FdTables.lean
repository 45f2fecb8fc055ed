import Sylar.Lib.Partial
import Sylar.Spec.FdContexts

/-! The two tables that are indexed by descriptors. Both decide under the read lock what they do
under the write lock, without looking again. So the table of the `FdContext`s can shrink, and a
second `FdCtx` can take the place of a first. -/

namespace Sylar

open Lib

namespace FdContexts

variable {s s' : FdContexts}

theorem length_fill (l : List (Option ℕ)) (made : ℕ) : (fill l made).1.length = l.length := by
  induction l generalizing made with
  | nil => rfl
  | cons slot l ih =>
    cases slot with
    | none => simp [fill, ih]
    | some ctx => simp [fill, ih]

theorem look_fill {l : List (Option ℕ)} {c ctx : ℕ} (made : ℕ) (hc : look l c = some (some ctx)) :
    look (fill l made).1 c = some (some ctx) := by
  induction l generalizing c made with
  | nil => cases hc
  | cons slot l ih =>
    cases c with
    | zero =>
      cases hc
      rfl
    | succ c =>
      cases slot with
      | none => exact ih (made + 1) hc
      | some _ => exact ih made hc

theorem fill_isSome (l : List (Option ℕ)) (made : ℕ) : ∀ slot ∈ (fill l made).1, slot.isSome := by
  induction l generalizing made with
  | nil => simp [fill]
  | cons slot l ih =>
    cases slot with
    | none =>
      intro x hx
      rcases List.mem_cons.mp hx with rfl | hx
      · rfl
      · exact ih (made + 1) x hx
    | some ctx =>
      intro x hx
      rcases List.mem_cons.mp hx with rfl | hx
      · rfl
      · exact ih made x hx

theorem length_contextResize (s : FdContexts) (size : ℕ) :
    (s.contextResize size).m_fdContexts.length = size :=
  (length_fill _ _).trans (length_resize _ _)

def NeverShrinks (s : FdContexts) (m : ContextMove) : Prop :=
  ∀ s', s.step m = .ok s' → s.m_fdContexts.length ≤ s'.m_fdContexts.length

/-- A descriptor that was given an `FdContext` has it. -/
def KeepsGiven (s : FdContexts) : Prop :=
  ∀ x ∈ s.given, x.2.isSome ∧ s.m_fdContexts[x.1]? = some x.2

instance (s : FdContexts) : Decidable (KeepsGiven s) :=
  inferInstanceAs (Decidable (∀ x ∈ s.given, x.2.isSome ∧ s.m_fdContexts[x.1]? = some x.2))

/-- The table is not larger than what `contextResize` is asked for. -/
def Widens (s : FdContexts) : ContextMove → Prop
  | .check _ => True
  | .grow fd => s.m_fdContexts.length ≤ 3 * fd.toNat / 2

theorem find_ok {fd : ℕ} (hs : s.find fd = .ok s') :
    ∃ ctx, look s.m_fdContexts fd = some ctx ∧ s' = { s with given := s.given ++ [(fd, ctx)] } := by
  unfold find at hs
  split at hs
  · cases hs
  · next ctx hctx =>
    cases hs
    exact ⟨ctx, hctx, rfl⟩

theorem grow_ok {fd : ℤ} (hs : s.grow fd = .ok s') :
    FdContexts.find { s.contextResize (3 * fd.toNat / 2) with growing := s.growing.erase fd }
      fd.toNat = .ok s' := by
  unfold grow at hs
  split at hs
  · split at hs
    · cases hs
    · exact hs
  · cases hs

theorem check_length {fd : ℤ} (hs : s.check fd = .ok s') : s'.m_fdContexts = s.m_fdContexts := by
  unfold check at hs
  split at hs
  · obtain ⟨ctx, -, rfl⟩ := find_ok hs
    rfl
  · cases hs
    rfl

theorem grow_length {fd : ℤ} (hs : s.grow fd = .ok s') :
    s'.m_fdContexts.length = 3 * fd.toNat / 2 := by
  obtain ⟨ctx, -, rfl⟩ := find_ok (grow_ok hs)
  exact length_contextResize s _

theorem widens_iff {m : ContextMove} (hs : s.step m = .ok s') : Widens s m ↔ NeverShrinks s m := by
  cases m with
  | check fd =>
    refine ⟨fun _ s₁ hs₁ => ?_, fun _ => trivial⟩
    rw [check_length hs₁]
  | grow fd =>
    constructor
    · intro hwidens s₁ hs₁
      rw [grow_length hs₁]
      exact hwidens
    · intro hkeeps
      have hle := hkeeps s' hs
      rw [grow_length hs] at hle
      exact hle

structure Inv (s : FdContexts) : Prop where
  made : ∀ slot ∈ s.m_fdContexts, slot.isSome
  given : KeepsGiven s

theorem inv_init : Inv init := ⟨fill_isSome _ _, nofun⟩

theorem inv_find {fd : ℕ} (h : Inv s) (hs : s.find fd = .ok s') : Inv s' := by
  obtain ⟨ctx, hctx, rfl⟩ := find_ok hs
  refine ⟨h.made, fun x hx => ?_⟩
  rcases List.mem_append.mp hx with hx | hx
  · exact h.given x hx
  · rw [List.mem_singleton.mp hx]
    exact ⟨h.made ctx (List.mem_of_getElem? hctx), hctx⟩

theorem inv_contextResize {size : ℕ} (h : Inv s) (hsize : s.m_fdContexts.length ≤ size) :
    Inv (s.contextResize size) := by
  refine ⟨fill_isSome _ _, fun x hx => ?_⟩
  obtain ⟨hsome, hlook⟩ := h.given x hx
  obtain ⟨ctx, hctx⟩ := Option.isSome_iff_exists.mp hsome
  refine ⟨hsome, ?_⟩
  rw [hctx] at hlook ⊢
  exact look_fill s.made (look_resize hsize hlook)

theorem inv_step {m : ContextMove} (h : Inv s) (hm : Widens s m) (hs : s.step m = .ok s') :
    Inv s' := by
  cases m with
  | check fd =>
    change s.check fd = .ok s' at hs
    unfold check at hs
    split at hs
    · exact inv_find h hs
    · cases hs
      exact ⟨h.made, h.given⟩
  | grow fd =>
    obtain ⟨hmade, hgiven⟩ := inv_contextResize h hm
    apply inv_find ?_ (grow_ok hs)
    exact ⟨hmade, hgiven⟩

/-- The table keeps its size and what it gave exactly if every resize asks for enough. -/
theorem keeps_contexts_iff (ms : List ContextMove) :
    (Each step NeverShrinks init ms ∧ Along step KeepsGiven init ms) ↔ Each step Widens init ms := by
  have hiff : Each step Widens init ms ↔ Each step NeverShrinks init ms :=
    each_iff_each (fun _ => True) Widens NeverShrinks
      (fun _ _ _ _ hs => ⟨trivial, widens_iff hs⟩) ms init trivial
  constructor
  · rintro ⟨hsize, -⟩
    exact hiff.mpr hsize
  · intro hwidens
    refine ⟨hiff.mp hwidens, ?_⟩
    apply Along.mono fun _ => Inv.given
    exact along_of_each Inv Widens (fun _ _ _ => inv_step) ms init inv_init hwidens

/-- Two calls find the table too small, and the one with the smaller descriptor is last. The
waiter of the other is in a context that its descriptor no longer has. -/
def growBackwards : List ContextMove := [.check 100, .check 40, .grow 100, .grow 40]

theorem grow_backwards_fails :
    ¬ ∀ ms : List ContextMove, Each step NeverShrinks init ms ∧ Along step KeepsGiven init ms := by
  intro hall
  have hkeeps := (hall growBackwards).2
  revert hkeeps
  decide +kernel

end FdContexts

namespace FdCtx

theorem getTimeout_setTimeout (ctx : FdCtx) (type : ℕ) (v : UInt64) :
    (ctx.setTimeout type v).getTimeout type = v := by
  unfold setTimeout getTimeout
  split <;> rfl

end FdCtx

namespace FdManager

variable {s s' : FdManager}

/-- What was returned for a descriptor since it was last removed is one `FdCtx`, and what is set
through one handle is seen through another. -/
structure Shared (s : FdManager) : Prop where
  same : ∀ x ∈ s.given, ∀ y ∈ s.given, x.1 = y.1 → x.2 = y.2
  timeouts : ∀ x ∈ s.given, ∀ y ∈ s.given, x.1 = y.1 → ∀ type v,
    (s.setTimeout x.2 type v).getTimeout y.2 type = some v
  userNonblock : ∀ x ∈ s.given, ∀ y ∈ s.given, x.1 = y.1 → ∀ v,
    (s.setUserNonblock x.2 v).getUserNonblock y.2 = some v
  sysNonblock : ∀ x ∈ s.given, ∀ y ∈ s.given, x.1 = y.1 → ∀ v,
    (s.setSysNonblock x.2 v).getSysNonblock y.2 = some v

/-- A call that has decided to create finds nothing in its place, and drops nothing. -/
def Vacant (s : FdManager) : FdMove → Prop
  | .create fd _ =>
      (∀ slot ∈ s.m_datas[fd.toNat]?, slot = none) ∧ s.m_datas.length ≤ s.resized fd
  | _ => True

instance (s : FdManager) : ∀ m : FdMove, Decidable (Vacant s m)
  | .create fd _ => inferInstanceAs (Decidable
      ((∀ slot ∈ s.m_datas[fd.toNat]?, slot = none) ∧ s.m_datas.length ≤ s.resized fd))
  | .get _ _ | .del _ | .setTimeout _ _ _ | .setUserNonblock _ _ | .setSysNonblock _ _ =>
      .isTrue trivial

/-- What is in the table was made, and what was given is in the table. -/
structure Inv (s : FdManager) : Prop where
  made : ∀ c a, look s.m_datas c = some (some a) → a < s.ctxs.length
  given : ∀ x ∈ s.given, 0 ≤ x.1 ∧ look s.m_datas x.1.toNat = some (some x.2)

theorem inv_init : Inv init where
  made := by
    intro c a hc
    have hmem := List.mem_of_getElem? hc
    exact absurd (List.eq_of_mem_replicate hmem) nofun
  given := nofun

theorem Inv.same (h : Inv s) {x y : ℤ × ℕ} (hx : x ∈ s.given) (hy : y ∈ s.given)
    (heq : x.1 = y.1) : x.2 = y.2 := by
  have hlook := (h.given y hy).2
  rw [← heq, (h.given x hx).2] at hlook
  exact Option.some.inj (Option.some.inj hlook)

theorem Inv.object (h : Inv s) {x : ℤ × ℕ} (hx : x ∈ s.given) : ∃ ctx, s.ctxs[x.2]? = some ctx :=
  ⟨_, List.getElem?_eq_getElem (h.made _ _ (h.given x hx).2)⟩

theorem shared_of_inv (h : Inv s) : Shared s where
  same := fun _ hx _ hy heq => h.same hx hy heq
  timeouts := by
    intro x hx y hy heq type v
    obtain ⟨ctx, hctx⟩ := h.object hx
    rw [← h.same hx hy heq]
    simp [setTimeout, getTimeout, hctx, FdCtx.getTimeout_setTimeout]
  userNonblock := by
    intro x hx y hy heq v
    obtain ⟨ctx, hctx⟩ := h.object hx
    rw [← h.same hx hy heq]
    simp [setUserNonblock, getUserNonblock, hctx, FdCtx.setUserNonblock, FdCtx.getUserNonblock]
  sysNonblock := by
    intro x hx y hy heq v
    obtain ⟨ctx, hctx⟩ := h.object hx
    rw [← h.same hx hy heq]
    simp [setSysNonblock, getSysNonblock, hctx, FdCtx.setSysNonblock, FdCtx.getSysNonblock]

theorem slot_ok {fd : ℤ} {slot : Option ℕ} (hslot : s.slot fd = .ok slot) :
    0 ≤ fd ∧ look s.m_datas fd.toNat = some slot := by
  unfold FdManager.slot at hslot
  split at hslot
  · cases hslot
  · split at hslot
    · cases hslot
    · next x hx =>
      cases hslot
      exact ⟨by omega, hx⟩

theorem inv_give {fd : ℤ} {slot : Option ℕ} (h : Inv s) (hslot : s.slot fd = .ok slot) :
    Inv (s.give fd slot) := by
  refine ⟨h.made, fun x hx => ?_⟩
  rcases List.mem_append.mp hx with hx | hx
  · exact h.given x hx
  · cases slot with
    | none => cases hx
    | some a =>
      rw [List.mem_singleton.mp hx]
      exact slot_ok hslot

theorem inv_get {fd : ℤ} {auto_create : Bool} (h : Inv s) (hs : s.get fd auto_create = .ok s') :
    Inv s' := by
  unfold get at hs
  split at hs
  · cases hs
    exact h
  · split at hs
    · split at hs
      · cases hs
        exact ⟨h.made, h.given⟩
      · cases hs
        exact h
    · obtain ⟨slot, hslot, hs⟩ := ok_of_bind hs
      split at hs
      · cases hs
        exact inv_give h hslot
      · cases hs
        exact ⟨h.made, h.given⟩

theorem inv_create {fd : ℤ} {fstat : Option Bool} (h : Inv s) (hm : Vacant s (.create fd fstat))
    (hs : s.create fd fstat = .ok s') : Inv s' := by
  obtain ⟨hempty, hsize⟩ := hm
  unfold create at hs
  split at hs
  · split at hs
    · cases hs
    · split at hs
      · next hfd hlt =>
        cases hs
        obtain ⟨old, hold⟩ : ∃ old, look (resize s.m_datas (s.resized fd)) fd.toNat = some old :=
          ⟨_, List.getElem?_eq_getElem (by rwa [length_resize])⟩
        refine ⟨fun c a hc => ?_, fun x hx => ?_⟩
        · rw [look_set hold] at hc
          rw [List.length_append, List.length_singleton]
          by_cases hcfd : c = fd.toNat
          · rw [hcfd, Function.update_self] at hc
            cases hc
            omega
          · rw [Function.update_of_ne hcfd] at hc
            exact Nat.lt_succ_of_lt (h.made c a (look_of_resize hc))
        · rw [look_set hold]
          rcases List.mem_append.mp hx with hx | hx
          · obtain ⟨hnonneg, hlook⟩ := h.given x hx
            -- a handle that was given for this descriptor would be in its place
            have hne : x.1.toNat ≠ fd.toNat := by
              intro heq
              rw [heq] at hlook
              exact absurd (hempty _ hlook) nofun
            rw [Function.update_of_ne hne]
            exact ⟨hnonneg, look_resize hsize hlook⟩
          · rw [List.mem_singleton.mp hx, Function.update_self]
            exact ⟨by omega, rfl⟩
      · cases hs
  · cases hs

theorem inv_del {fd : ℤ} (h : Inv s) (hs : s.del fd = .ok s') : Inv s' := by
  unfold del at hs
  split at hs
  · cases hs
    exact ⟨h.made, fun x hx => h.given x (List.mem_filter.mp hx).1⟩
  · obtain ⟨slot, hslot, hs⟩ := ok_of_bind hs
    obtain ⟨hfd, hlook⟩ := slot_ok hslot
    cases hs
    refine ⟨fun c a hc => ?_, fun x hx => ?_⟩
    · rw [look_set hlook] at hc
      by_cases hcfd : c = fd.toNat
      · rw [hcfd, Function.update_self] at hc
        cases hc
      · rw [Function.update_of_ne hcfd] at hc
        exact h.made c a hc
    · obtain ⟨hx, hne⟩ := List.mem_filter.mp hx
      obtain ⟨hnonneg, hxlook⟩ := h.given x hx
      have hne : x.1 ≠ fd := of_decide_eq_true hne
      rw [look_set hlook, Function.update_of_ne (by omega)]
      exact ⟨hnonneg, hxlook⟩

theorem inv_modify (h : Inv s) (c : ℕ) (f : FdCtx → FdCtx) :
    Inv { s with ctxs := s.ctxs.modify c f } := by
  refine ⟨fun d a hd => ?_, h.given⟩
  rw [List.length_modify]
  exact h.made d a hd

theorem inv_step {m : FdMove} (h : Inv s) (hm : Vacant s m) (hs : s.step m = .ok s') : Inv s' := by
  cases m with
  | get fd auto_create => exact inv_get h hs
  | create fd fstat => exact inv_create h hm hs
  | del fd => exact inv_del h hs
  | setTimeout ctx type v =>
    cases hs
    exact inv_modify h ctx _
  | setUserNonblock ctx v =>
    cases hs
    exact inv_modify h ctx _
  | setSysNonblock ctx v =>
    cases hs
    exact inv_modify h ctx _

theorem shares_contexts (ms : List FdMove) (hms : Each step Vacant init ms) :
    Along step Shared init ms := by
  apply Along.mono fun _ => shared_of_inv
  exact along_of_each Inv Vacant (fun _ _ _ => inv_step) ms init inv_init hms

/-- A descriptor beyond the table, one that is removed and used again, and calls for it that
overlap where nothing is left to create. -/
def oneCreator : List FdMove :=
  [.get 70 true, .create 70 (some true), .get 70 true, .setTimeout 0 SO_RCVTIMEO 1000, .get 70 false,
    .get 3 true, .create 3 none, .del 70, .get 70 false, .get 70 true, .create 70 (some true),
    .get 70 true, .setUserNonblock 2 true, .get (-1) true]

theorem shares_contexts_one_creator :
    (oneCreator.foldlM step init).map given = .ok [(3, 1), (70, 2), (70, 2)] ∧
      Along step Shared init oneCreator :=
  ⟨by decide +kernel, shares_contexts oneCreator (by decide +kernel)⟩

/-- Two calls find nothing, and the second creator takes the place of the first. -/
def twoCreators : List FdMove :=
  [.get 7 true, .get 7 true, .create 7 (some true), .setTimeout 0 SO_RCVTIMEO 1000,
    .create 7 (some true)]

theorem two_creators_fail : ¬ ∀ ms : List FdMove, Along step Shared init ms := by
  intro hall
  have hgiven : (twoCreators.foldlM step init).map given = .ok [(7, 0), (7, 1)] := by
    decide +kernel
  cases hrun : twoCreators.foldlM step init with
  | error fault =>
    rw [hrun] at hgiven
    cases hgiven
  | ok s =>
    rw [hrun] at hgiven
    have hs : s.given = [(7, 0), (7, 1)] := Except.ok.inj hgiven
    have hsame := ((hall twoCreators).last hrun).same (7, 0) (by simp [hs]) (7, 1) (by simp [hs]) rfl
    cases hsame

end FdManager

end Sylar
