import Mathlib.Data.List.Induction

/-!
# Runs of a labelled transition relation

`Run step s as t` says that the actions `as`, performed one after the other from `s`, lead to `t`. A
property that holds at the start and is preserved by every step holds in every state reached
(`Run.invariant`).
-/

/-- A finite run of the transition relation `step`. -/
inductive Run {σ α : Type} (step : σ → α → σ → Prop) (s : σ) : List α → σ → Prop where
  /-- The empty run. -/
  | nil : Run step s [] s
  /-- One more step at the end of a run. -/
  | snoc {as : List α} {t u : σ} (a : α) (h : Run step s as t) (ha : step t a u) :
      Run step s (as ++ [a]) u

namespace Run

variable {σ α : Type} {step : σ → α → σ → Prop} {s t : σ} {as : List α}

/-- What holds initially and is preserved by every step holds in every state reached. -/
theorem invariant {I : σ → Prop} (h : Run step s as t) (h0 : I s)
    (hstep : ∀ s a t, I s → step s a t → I t) : I t := by
  induction h with
  | nil => exact h0
  | snoc a _ ha ih => exact hstep _ a _ ih ha

/-- A run of steps that are also steps of another relation. -/
theorem imp {step' : σ → α → σ → Prop} (h : Run step s as t) (hstep : ∀ s a t, step s a t → step' s a t) :
    Run step' s as t := by
  induction h with
  | nil => exact nil
  | snoc a _ ha ih => exact snoc a ih (hstep _ a _ ha)

/-- The empty run leads nowhere else. -/
theorem nil_iff : Run step s [] t ↔ t = s := by
  constructor
  · intro h
    generalize hl : ([] : List α) = l at h
    cases h with
    | nil => rfl
    | snoc b h hb => simp at hl
  · rintro rfl
    exact nil

/-- The last step of a run. -/
theorem snoc_iff {a : α} : Run step s (as ++ [a]) t ↔ ∃ u, Run step s as u ∧ step u a t := by
  constructor
  · intro h
    generalize hl : as ++ [a] = l at h
    cases h with
    | nil => simp at hl
    | snoc b h hb =>
      obtain ⟨rfl, hab⟩ := List.append_inj' hl rfl
      obtain rfl := List.singleton_inj.mp hab
      exact ⟨_, h, hb⟩
  · rintro ⟨u, h, ha⟩
    exact snoc a h ha

/-- A run of two lists of actions goes through a state between them. -/
theorem append_iff {bs : List α} : Run step s (as ++ bs) t ↔ ∃ u, Run step s as u ∧ Run step u bs t := by
  constructor
  · induction bs using List.reverseRecOn generalizing t with
    | nil =>
      intro h
      rw [List.append_nil] at h
      exact ⟨t, h, nil⟩
    | append_singleton bs b ih =>
      intro h
      rw [← List.append_assoc, snoc_iff] at h
      obtain ⟨v, h, hb⟩ := h
      obtain ⟨u, ha, hv⟩ := ih h
      exact ⟨u, ha, snoc b hv hb⟩
  · rintro ⟨u, ha, hb⟩
    induction hb with
    | nil => rwa [List.append_nil]
    | snoc b _ hstep ih =>
      rw [← List.append_assoc]
      exact snoc b ih hstep

theorem cons {a : α} {u : σ} (ha : step s a u) (h : Run step u as t) : Run step s (a :: as) t := by
  rw [← List.singleton_append]
  exact append_iff.mpr ⟨u, snoc a nil ha, h⟩

/-- The run of a function under a condition on its steps. -/
theorem exec_iff {exec : σ → α → σ} {C : σ → α → Prop} :
    Run (fun s a t => t = exec s a ∧ C s a) s as t ↔
      t = as.foldl exec s ∧ ∀ pre a, pre ++ [a] <+: as → C (pre.foldl exec s) a := by
  induction as using List.reverseRecOn generalizing t with
  | nil =>
    rw [nil_iff, and_iff_left]
    · rfl
    · intro pre a h
      exact absurd (List.prefix_nil.mp h) (by simp)
  | append_singleton as b ih =>
    simp only [snoc_iff, ih, List.foldl_append, List.foldl_cons, List.foldl_nil]
    constructor
    · rintro ⟨_, ⟨rfl, hall⟩, rfl, hb⟩
      refine ⟨rfl, fun pre a hpre => ?_⟩
      rcases List.prefix_concat_iff.mp hpre with heq | hlt
      · obtain ⟨rfl, hab⟩ := List.append_inj' heq rfl
        obtain rfl := List.singleton_inj.mp hab
        exact hb
      · exact hall pre a hlt
    · rintro ⟨rfl, hall⟩
      exact ⟨_, ⟨rfl, fun pre a hpre => hall pre a (hpre.trans (List.prefix_append _ _))⟩, rfl,
        hall as b List.prefix_rfl⟩

/-- The run of a relation whose steps are those of a function. -/
theorem of_exec_iff {exec : σ → α → σ} (h : ∀ s a t, step s a t → t = exec s a) :
    Run step s as t ↔ t = as.foldl exec s ∧
      ∀ pre a, pre ++ [a] <+: as → step (pre.foldl exec s) a (exec (pre.foldl exec s) a) := by
  rw [← exec_iff (C := fun s a => step s a (exec s a))]
  constructor
  · exact fun hrun => hrun.imp fun s a t hstep => ⟨h s a t hstep, h s a t hstep ▸ hstep⟩
  · refine fun hrun => hrun.imp fun s a t hstep => ?_
    rw [hstep.1]
    exact hstep.2

/-- Executing the actions one after the other gives a run. -/
theorem of_foldlM {f : σ → α → Option σ} (h : as.foldlM f s = some t) :
    Run (fun s a t => f s a = some t) s as t := by
  induction as using List.reverseRecOn generalizing t with
  | nil =>
    obtain rfl := Option.some.inj h
    exact nil
  | append_singleton as a ih =>
    rw [List.foldlM_append] at h
    obtain ⟨u, hu, ha⟩ := Option.bind_eq_some_iff.mp h
    exact snoc a (ih hu) (by simpa using ha)

end Run
