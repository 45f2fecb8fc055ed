import Mathlib.Algebra.BigOperators.Group.List.Basic
import Mathlib.Logic.Function.Basic
import Mathlib.Tactic

/-! Records in a list, numbered as they were added and replaced in place. What is under each
number is a function, and adding or replacing a record is an update of it. -/

namespace Lib

variable {α : Type*} {l : List α} {c : ℕ} {y : α}

def look (l : List α) (c : ℕ) : Option α := l[c]?

theorem look_append (l : List α) (x : α) :
    look (l ++ [x]) = Function.update (look l) l.length (some x) := by
  funext d
  unfold look
  by_cases hd : d = l.length
  · simp [hd]
  · rw [Function.update_of_ne hd]
    by_cases hlt : d < l.length
    · exact List.getElem?_append_left hlt
    · rw [List.getElem?_eq_none (by simp; omega), List.getElem?_eq_none (by omega)]

theorem look_append_old (hc : look l c = some y) (x : α) : look (l ++ [x]) c = some y :=
  (List.getElem?_append_left (List.getElem?_eq_some_iff.mp hc).1).trans hc

theorem look_append_cases {x : α} (hc : look (l ++ [x]) c = some y) :
    c = l.length ∧ y = x ∨ look l c = some y := by
  rw [look_append, Function.update_apply] at hc
  split at hc
  · next heq => exact .inl ⟨heq, (Option.some.inj hc).symm⟩
  · exact .inr hc

theorem look_set (hc : look l c = some y) (x : α) :
    look (l.set c x) = Function.update (look l) c (some x) := by
  funext d
  unfold look at hc ⊢
  obtain ⟨hlt, -⟩ := List.getElem?_eq_some_iff.mp hc
  by_cases hd : d = c
  · simp [hd, hlt]
  · rw [Function.update_of_ne hd, List.getElem?_set_ne (Ne.symm hd)]

theorem look_length_le {d : ℕ} (hd : l.length ≤ d) : look l d = none := List.getElem?_eq_none hd

theorem lt_length_of_look (hc : look l c = some y) : c < l.length :=
  (List.getElem?_eq_some_iff.mp hc).1

theorem modify_eq_set (f : α → α) (hc : look l c = some y) : l.modify c f = l.set c (f y) := by
  have hget : l[c]? = some y := hc
  rw [List.modify_eq_set_getElem?, hget]
  rfl

theorem look_modify (l : List α) (c d : ℕ) (f : α → α) :
    look (l.modify c f) d = if c = d then (look l d).map f else look l d := by
  unfold look
  rw [List.getElem?_modify]
  by_cases h : c = d
  · simp [h]
  · simp [h]

/-- Some records are updated, and an update made twice is one made once. -/
theorem look_foldl_modify {f : ℕ → α → α} (hf : ∀ c x, f c (f c x) = f c x) (cs : List ℕ)
    (l : List α) (d : ℕ) : look (cs.foldl (fun l c => l.modify c (f c)) l) d =
      (look l d).map fun x => if d ∈ cs then f d x else x := by
  induction cs generalizing l with
  | nil => simp
  | cons c cs ih =>
    rw [List.foldl_cons, ih, look_modify]
    by_cases h : c = d
    · subst h
      simp [hf, Function.comp_def]
    · simp [h, Ne.symm h]

/-- Each record is replaced by one that `R` allows, and none is added. -/
def Changes (R : ℕ → α → α → Prop) (l l' : List α) : Prop :=
  ∀ d, Option.Rel (R d) (look l d) (look l' d)

namespace Changes

variable {R : ℕ → α → α → Prop} {l' : List α} {d : ℕ} {x x' : α}

theorem refl (hR : ∀ d x, R d x x) (l : List α) : Changes R l l := by
  intro d
  cases look l d with
  | none => exact .none
  | some x => exact .some (hR d x)

theorem of_map {g : ℕ → α → α} (h : ∀ d, look l' d = (look l d).map (g d)) :
    Changes (fun d x x' => x' = g d x) l l' := by
  intro d
  rw [h]
  cases look l d with
  | none => exact .none
  | some x => exact .some rfl

theorem modify {f : α → α} (hR : ∀ d x, R d x x) (hf : ∀ x, look l c = some x → R c x (f x)) :
    Changes R l (l.modify c f) := by
  intro d
  rw [look_modify]
  by_cases h : c = d
  · subst h
    rw [if_pos rfl]
    cases hx : look l c with
    | none => exact .none
    | some x => exact .some (hf x hx)
  · rw [if_neg h]
    exact refl hR l d

theorem trans {Q P : ℕ → α → α → Prop} {l'' : List α} (hP : ∀ d x y z, R d x y → Q d y z → P d x z)
    (h : Changes R l l') (h' : Changes Q l' l'') : Changes P l l'' := by
  intro d
  have hd := h d
  have hd' := h' d
  generalize look l d = a at hd ⊢
  generalize look l' d = b at hd hd'
  generalize look l'' d = e at hd' ⊢
  cases hd with
  | none =>
    cases hd'
    exact .none
  | some hxy =>
    cases hd' with
    | some hyz => exact .some (hP d _ _ _ hxy hyz)

theorem mono {Q : ℕ → α → α → Prop} (hQ : ∀ d x y, R d x y → Q d x y) (h : Changes R l l') :
    Changes Q l l' := by
  intro d
  have hd := h d
  generalize look l d = a at hd ⊢
  generalize look l' d = b at hd ⊢
  cases hd with
  | none => exact .none
  | some hxy => exact .some (hQ d _ _ hxy)

theorem old (h : Changes R l l') (hx : look l' d = some x') : ∃ x, look l d = some x ∧ R d x x' := by
  have hd := h d
  rw [hx] at hd
  generalize look l d = a at hd ⊢
  cases hd with
  | some hR => exact ⟨_, rfl, hR⟩

theorem new (h : Changes R l l') (hx : look l d = some x) : ∃ x', look l' d = some x' ∧ R d x x' := by
  have hd := h d
  rw [hx] at hd
  generalize look l' d = a at hd ⊢
  cases hd with
  | some hR => exact ⟨_, rfl, hR⟩

theorem length_eq (h : Changes R l l') : l'.length = l.length := by
  apply Nat.le_antisymm
  · by_contra hlt
    obtain ⟨x', hx'⟩ : ∃ x', look l' l.length = some x' :=
      ⟨_, List.getElem?_eq_getElem (by omega)⟩
    obtain ⟨x, hx, -⟩ := h.old hx'
    exact absurd (lt_length_of_look hx) (Nat.lt_irrefl _)
  · by_contra hlt
    obtain ⟨x, hx⟩ : ∃ x, look l l'.length = some x := ⟨_, List.getElem?_eq_getElem (by omega)⟩
    obtain ⟨x', hx', -⟩ := h.new hx
    exact absurd (lt_length_of_look hx') (Nat.lt_irrefl _)

end Changes

/-- `resize` of a vector of pointers: what is beyond is dropped, or null is added. -/
def resize (l : List (Option α)) (n : ℕ) : List (Option α) :=
  l.take n ++ List.replicate (n - l.length) none

theorem length_resize (l : List (Option α)) (n : ℕ) : (resize l n).length = n := by
  simp only [resize, List.length_append, List.length_take, List.length_replicate]
  omega

theorem look_resize {l : List (Option α)} {n : ℕ} (h : l.length ≤ n) {x : Option α}
    (hc : look l c = some x) : look (resize l n) c = some x := by
  unfold look resize
  rw [List.take_of_length_le h, List.getElem?_append_left (lt_length_of_look hc)]
  exact hc

theorem look_of_resize {l : List (Option α)} {n : ℕ} (hc : look (resize l n) c = some (some y)) :
    look l c = some (some y) := by
  unfold look resize at hc
  by_cases hlt : c < (l.take n).length
  · rw [List.getElem?_append_left hlt] at hc
    exact (List.getElem?_take_of_lt (by simp at hlt; omega)).symm.trans hc
  · rw [List.getElem?_append_right (by omega)] at hc
    exact absurd (List.eq_of_mem_replicate (List.mem_of_getElem? hc)) nofun

theorem sum_map_set (f : α → ℕ) (hc : look l c = some y) (x : α) :
    ((l.set c x).map f).sum + f y = (l.map f).sum + f x := by
  induction l generalizing c with
  | nil => cases hc
  | cons z l ih =>
    cases c with
    | zero =>
      cases hc
      simp only [List.set_cons_zero, List.map_cons, List.sum_cons]
      omega
    | succ c =>
      have hset := ih (c := c) hc
      simp only [List.set_cons_succ, List.map_cons, List.sum_cons]
      omega

theorem sum_map_append (f : α → ℕ) (l : List α) (x : α) :
    ((l ++ [x]).map f).sum = (l.map f).sum + f x := by
  simp

theorem le_sum_map (f : α → ℕ) (hc : look l c = some y) : f y ≤ (l.map f).sum :=
  List.le_sum_of_mem (List.mem_map_of_mem (List.mem_of_getElem? hc))

theorem add_le_sum_map (f : α → ℕ) {d : ℕ} {z : α} (hc : look l c = some y) (hd : look l d = some z)
    (hne : d ≠ c) : f y + f z ≤ (l.map f).sum := by
  induction l generalizing c d with
  | nil => cases hc
  | cons x l ih =>
    simp only [List.map_cons, List.sum_cons]
    cases c with
    | zero =>
      cases d with
      | zero => exact absurd rfl hne
      | succ d =>
        cases hc
        have hle : f z ≤ (l.map f).sum := le_sum_map f (c := d) hd
        omega
    | succ c =>
      cases d with
      | zero =>
        cases hd
        have hle : f y ≤ (l.map f).sum := le_sum_map f (c := c) hc
        omega
      | succ d =>
        have hle := ih (c := c) (d := d) hc hd (by omega)
        omega

theorem countP_le_sum_map {p : α → Bool} {f : α → ℕ} {l : List α} (h : ∀ x ∈ l, p x → 1 ≤ f x) :
    l.countP p ≤ (l.map f).sum := by
  induction l with
  | nil => rfl
  | cons x l ih =>
    have hl := ih fun y hy => h y (List.mem_cons_of_mem x hy)
    rw [List.countP_cons, List.map_cons, List.sum_cons]
    split
    · next hx =>
      have hle := h x List.mem_cons_self hx
      omega
    · omega

end Lib
