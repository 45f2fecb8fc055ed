import Sylar.Lib.Text

/-! Fields of a name, a sign and a value, joined with a separator. A scan that looks for the sign
first takes a component without one for a part of the name behind it. -/

namespace Lib

variable {α : Type*} [DecidableEq α]

/-- The names and values that such a scan finds; `pending` is what stands before the next name. -/
def runTogether (sign sep : α) : List α → List (List α) → List (List α × List α)
  | _, [] => []
  | pending, c :: cs =>
      (cut [sign] c).elim (runTogether sign sep (pending ++ c ++ [sep]) cs) fun f =>
        (pending ++ f.1, f.2) :: runTogether sign sep [] cs

/-- The names and values of the components that have them. -/
def fields (sign : α) (cs : List (List α)) : List (List α × List α) := cs.filterMap (cut [sign])

/-- No component with a sign stands behind one without. -/
def BareLast (sign : α) (cs : List (List α)) : Prop := cs.Pairwise fun c c' => sign ∉ c → sign ∉ c'

variable {sign sep : α} {c name value pending : List α} {cs pre post : List (List α)}

theorem runTogether_bare (h : sign ∉ c) : runTogether sign sep pending (c :: cs) =
    runTogether sign sep (pending ++ c ++ [sep]) cs := by
  rw [runTogether, cut_singleton_eq_none.mpr h, Option.elim_none]

theorem runTogether_field (h : sign ∉ name) :
    runTogether sign sep pending ((name ++ sign :: value) :: cs) =
      (pending ++ name, value) :: runTogether sign sep [] cs := by
  rw [runTogether, cut_singleton h, Option.elim_some]

theorem runTogether_eq_nil (h : ∀ c ∈ cs, sign ∉ c) : runTogether sign sep pending cs = [] := by
  induction cs generalizing pending with
  | nil => rfl
  | cons c cs ih =>
    rw [List.forall_mem_cons] at h
    rw [runTogether_bare h.1, ih h.2]

theorem mem_of_mem_splitOn {a : α} {l : List α} (hc : c ∈ l.splitOn sep) (ha : a ∈ c) :
    a ∈ l ∧ a ≠ sep := by
  induction l using cut_induction sep with
  | none l h =>
    rw [List.splitOn_eq_singleton h, List.mem_singleton] at hc
    subst hc
    exact ⟨ha, fun he => h (he ▸ ha)⟩
  | some x y hx ih =>
    rw [List.splitOn_append_cons_self_of_not_mem hx, List.mem_cons] at hc
    rcases hc with rfl | hc
    · exact ⟨List.mem_append_left _ ha, fun he => hx (he ▸ ha)⟩
    · exact ⟨List.mem_append_right _ (List.mem_cons_of_mem _ (ih hc).1), (ih hc).2⟩

theorem not_mem_of_mem_splitOn {l : List α} (hc : c ∈ l.splitOn sep) : sep ∉ c :=
  fun h => (mem_of_mem_splitOn hc h).2 rfl

theorem runTogether_splitOn_eq_nil {l : List α} (h : sign ∉ l) (pending : List α) :
    runTogether sign sep pending (l.splitOn sep) = [] :=
  runTogether_eq_nil fun _ hc hs => h (mem_of_mem_splitOn hc hs).1

/-- The components up to a sign are the name before it. -/
theorem runTogether_splitOn_append (hname : sign ∉ name) (hvalue : sep ∉ value) (hne : sep ≠ sign)
    (pending : List α) (cs : List (List α)) :
    runTogether sign sep pending ((name ++ sign :: value).splitOn sep ++ cs) =
      (pending ++ name, value) :: runTogether sign sep [] cs := by
  induction name using cut_induction sep generalizing pending with
  | none name h =>
    have hmem : sep ∉ name ++ sign :: value := by simp [h, hne, hvalue]
    rw [List.splitOn_eq_singleton hmem, List.singleton_append, runTogether_field hname]
  | some x y hx ih =>
    rw [List.mem_append, List.mem_cons, not_or, not_or] at hname
    rw [List.append_assoc, List.cons_append, List.splitOn_append_cons_self_of_not_mem hx,
      List.cons_append, runTogether_bare hname.1, ih hname.2.2]
    simp only [List.append_assoc, List.singleton_append]

theorem fields_append (cs cs' : List (List α)) :
    fields sign (cs ++ cs') = fields sign cs ++ fields sign cs' := List.filterMap_append

theorem fields_bare (h : sign ∉ c) : fields sign (c :: cs) = fields sign cs := by
  rw [fields, List.filterMap_cons_none (cut_singleton_eq_none.mpr h), fields]

theorem fields_field (h : sign ∉ name) :
    fields sign ((name ++ sign :: value) :: cs) = (name, value) :: fields sign cs := by
  rw [fields, List.filterMap_cons_some (cut_singleton h value), fields]

theorem runTogether_of_bareLast (h : BareLast sign cs) :
    runTogether sign sep [] cs = fields sign cs := by
  induction cs with
  | nil => rfl
  | cons c cs ih =>
    rw [BareLast, List.pairwise_cons] at h
    rcases cut_singleton_cases sign c with hc | ⟨name, value, rfl, hname⟩
    · have hcs : ∀ c' ∈ cs, sign ∉ c' := fun c' hc' => h.1 c' hc' hc
      rw [runTogether_bare hc, fields_bare hc, runTogether_eq_nil hcs, fields,
        List.filterMap_eq_nil_iff.mpr fun c' hc' => cut_singleton_eq_none.mpr (hcs c' hc')]
    · rw [runTogether_field hname, fields_field hname, ih h.2, List.nil_append]

/-- A component without a sign right before a field goes into its name. -/
theorem names_ne (hc : sign ∉ c) (hname : sign ∉ name) (pre post : List (List α))
    (pending : List α) :
    (runTogether sign sep pending (pre ++ (name ++ sign :: value) :: post)).map Prod.fst ≠
      (runTogether sign sep pending (pre ++ c :: (name ++ sign :: value) :: post)).map Prod.fst := by
  induction pre generalizing pending with
  | nil =>
    rw [List.nil_append, List.nil_append, runTogether_bare hc, runTogether_field hname,
      runTogether_field hname, List.map_cons, List.map_cons]
    intro heq
    have hlen := congrArg List.length (List.cons.inj heq).1
    simp only [List.length_append, List.length_singleton] at hlen
    omega
  | cons d pre ih =>
    rw [List.cons_append, List.cons_append]
    rcases cut_singleton_cases sign d with hd | ⟨n, v, rfl, hn⟩
    · rw [runTogether_bare hd, runTogether_bare hd]
      exact ih _
    · rw [runTogether_field hn, runTogether_field hn, List.map_cons, List.map_cons]
      exact fun heq => ih [] (List.cons.inj heq).2

/-- Where it does not hold, there is a component without a sign right before a field. -/
theorem exists_of_not_bareLast (h : ¬ BareLast sign cs) :
    ∃ pre c name value post, cs = pre ++ c :: (name ++ sign :: value) :: post ∧ sign ∉ c ∧
      sign ∉ name := by
  induction cs with
  | nil => exact absurd List.Pairwise.nil h
  | cons c cs ih =>
    by_cases hcs : BareLast sign cs
    · -- the first component has no sign, and so the second is a field
      rw [BareLast, List.pairwise_cons, not_and'] at h
      have hfirst := h hcs
      push Not at hfirst
      obtain ⟨c', hc', hc, hsign⟩ := hfirst
      cases cs with
      | nil => exact absurd hc' List.not_mem_nil
      | cons d cs =>
        rcases cut_singleton_cases sign d with hd | ⟨name, value, rfl, hname⟩
        · rw [BareLast, List.pairwise_cons] at hcs
          rcases List.mem_cons.mp hc' with rfl | hc'
          · exact absurd hsign hd
          · exact absurd hsign (hcs.1 c' hc' hd)
        · exact ⟨[], c, name, value, cs, rfl, hc, hname⟩
    · obtain ⟨pre, d, name, value, post, rfl, hd, hname⟩ := ih hcs
      exact ⟨c :: pre, d, name, value, post, rfl, hd, hname⟩

end Lib
