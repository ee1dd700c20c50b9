import Mathlib.Tactic.TypeStar

/-!
# Runs of a step relation

A run is a finite sequence of steps, each with the input it takes.  Its trace lists the
steps in order, as pairs of the state a step starts in and its input.

`Run.invariant` is the induction over runs for an invariant.  `Run.always_iff` is the one
for a property that some steps break: if a step from a good state leads to a good state
exactly when it meets a condition, then a run stays good exactly when all of its steps do.
`Run.simulates` carries a run over to an abstract machine that is a function, and `Run.project` to
one that takes fewer steps.

A step may itself be a loop over a list of inputs; `foldl_iff` is the induction over these.
`foldl_lastWriter` is what such a loop leaves where several of its inputs write.
-/

namespace Mydds.Lib

variable {σ ι τ : Type*}

/-- A run from `s`, its trace and the state it ends in. -/
inductive Run (step : σ → ι → σ → Prop) (s : σ) : List (σ × ι) → σ → Prop
  | nil : Run step s [] s
  | snoc {trace : List (σ × ι)} {m s' : σ} {i : ι} :
      Run step s trace m → step m i s' → Run step s (trace ++ [(m, i)]) s'

namespace Run

variable {step : σ → ι → σ → Prop} {s s' : σ} {trace : List (σ × ι)}

theorem single {i : ι} (h : step s i s') : Run step s [(s, i)] s' := .snoc .nil h

theorem trans {m : σ} {trace' : List (σ × ι)} (r : Run step s trace m)
    (r' : Run step m trace' s') : Run step s (trace ++ trace') s' := by
  induction r' with
  | nil => simpa using r
  | snoc _ h ih => simpa using ih.snoc h

/-- **What every step preserves holds at the end of every run.** -/
theorem invariant {P : σ → Prop} (hstep : ∀ m i m', P m → step m i m' → P m') (hs : P s)
    (r : Run step s trace s') : P s' := by
  induction r with
  | nil => exact hs
  | snoc _ h ih => exact hstep _ _ _ ih h

theorem exists_step {x : σ × ι} (r : Run step s trace s') (hx : x ∈ trace) :
    ∃ m, step x.1 x.2 m := by
  induction r with
  | nil => exact absurd hx List.not_mem_nil
  | @snoc trace m s' i _ h ih =>
    rcases List.mem_append.mp hx with hx | hx
    · exact ih hx
    · rw [List.mem_singleton.mp hx]
      exact ⟨s', h⟩

theorem exists_split {x : σ × ι} (r : Run step s trace s') (hx : x ∈ trace) :
    ∃ trace₁ trace₂ m, Run step s trace₁ x.1 ∧ step x.1 x.2 m ∧ Run step m trace₂ s' := by
  induction r with
  | nil => exact absurd hx List.not_mem_nil
  | @snoc trace m s' i r h ih =>
    rcases List.mem_append.mp hx with hx | hx
    · obtain ⟨trace₁, trace₂, n, r₁, hstep, r₂⟩ := ih hx
      exact ⟨trace₁, _, n, r₁, hstep, r₂.snoc h⟩
    · rw [List.mem_singleton.mp hx]
      exact ⟨trace, [], s', r, h, .nil⟩

/-- **Related states stay related**, if a step from each of them takes the same input. -/
theorem related {R : σ → σ → Prop} {t t' : σ} {trace' : List (σ × ι)}
    (hstep : ∀ m n i m' n', R m n → step m i m' → step n i n' → R m' n') (h : R s t)
    (r : Run step s trace s') (r' : Run step t trace' t')
    (hinputs : trace.map Prod.snd = trace'.map Prod.snd) : R s' t' := by
  induction r generalizing trace' t' with
  | nil =>
    cases r' with
    | nil => exact h
    | snoc => simp at hinputs
  | @snoc trace m s' i _ hlast ih =>
    cases r' with
    | nil => simp at hinputs
    | @snoc trace' n t' j r' hlast' =>
      rw [List.map_append, List.map_append] at hinputs
      obtain ⟨hpre, hsame⟩ := List.append_inj' hinputs rfl
      obtain rfl : i = j := (List.cons.inj hsame).1
      exact hstep m n i s' t' (ih r' hpre) hlast hlast'

/-- **Any number of goals can be reached together**, if under an invariant each of them can be
reached by a run that loses none of the others. -/
theorem exists_all {I : σ → Prop} {G : τ → σ → Prop}
    (hreach : ∀ x s, I s → ∃ trace s', Run step s trace s' ∧ I s' ∧ G x s' ∧ ∀ y, G y s → G y s')
    (goals : List τ) (hs : I s) :
    ∃ trace s', Run step s trace s' ∧ I s' ∧ (∀ x ∈ goals, G x s') ∧ ∀ y, G y s → G y s' := by
  induction goals with
  | nil => exact ⟨[], s, .nil, hs, by simp, fun _ h => h⟩
  | cons x goals ih =>
    obtain ⟨trace, m, r, hm, hgoals, hkeep⟩ := ih
    obtain ⟨trace', s', r', hs', hx, hkeep'⟩ := hreach x m hm
    refine ⟨trace ++ trace', s', r.trans r', hs', fun y hy => ?_, fun y h => hkeep' y (hkeep y h)⟩
    rcases List.mem_cons.mp hy with rfl | hmem
    · exact hx
    · exact hkeep' y (hgoals y hmem)

theorem restrict {A : σ → ι → Prop} (r : Run step s trace s') (h : ∀ x ∈ trace, A x.1 x.2) :
    Run (fun m i m' => A m i ∧ step m i m') s trace s' := by
  induction r with
  | nil => exact .nil
  | @snoc trace m s' i _ hstep ih =>
    have hlast := h (m, i) (List.mem_append_right _ List.mem_cons_self)
    exact (ih fun x hx => h x (List.mem_append_left _ hx)).snoc ⟨hlast, hstep⟩

theorem restrict_iff {A : σ → ι → Prop} (r : Run step s trace s') :
    Run (fun m i m' => A m i ∧ step m i m') s trace s' ↔ ∀ x ∈ trace, A x.1 x.2 := by
  refine ⟨fun hrun => ?_, r.restrict⟩
  clear r
  induction hrun with
  | nil => exact fun x hx => absurd hx List.not_mem_nil
  | @snoc trace m s' i _ h ih =>
    intro x hx
    rcases List.mem_append.mp hx with hx | hx
    · exact ih x hx
    · rw [List.mem_singleton.mp hx]
      exact h.1

/-- **A run stays good iff all of its steps meet the condition**, when under an invariant
that is what keeps one step good.  Good states are those the steps start in, and the last
one. -/
theorem always_iff {I P : σ → Prop} {C : σ → ι → Prop}
    (hinv : ∀ m i m', I m → step m i m' → I m')
    (hstep : ∀ m i m', I m → P m → step m i m' → (P m' ↔ C m i)) (hI : I s) (hs : P s)
    (r : Run step s trace s') :
    ((∀ x ∈ trace, P x.1) ∧ P s') ↔ ∀ x ∈ trace, C x.1 x.2 := by
  induction r with
  | nil => exact ⟨fun _ x hx => absurd hx List.not_mem_nil, fun _ => ⟨fun x hx =>
      absurd hx List.not_mem_nil, hs⟩⟩
  | @snoc trace m s' i r h ih =>
    have hm' : I m := r.invariant hinv hI
    constructor
    · rintro ⟨hall, hs'⟩ x hx
      have hm : P m := hall (m, i) (List.mem_append_right _ List.mem_cons_self)
      rcases List.mem_append.mp hx with hx | hx
      · exact ih.mp ⟨fun y hy => hall y (List.mem_append_left _ hy), hm⟩ x hx
      · rw [List.mem_singleton.mp hx]
        exact (hstep m i s' hm' hm h).mp hs'
    · intro hall
      obtain ⟨hpre, hm⟩ := ih.mpr fun x hx => hall x (List.mem_append_left _ hx)
      refine ⟨fun x hx => ?_, (hstep m i s' hm' hm h).mpr
        (hall (m, i) (List.mem_append_right _ List.mem_cons_self))⟩
      rcases List.mem_append.mp hx with hx | hx
      · exact hpre x hx
      · rw [List.mem_singleton.mp hx]
        exact hm

/-- **A simulation by a function**: under an invariant, `abs` maps every step to one of the
abstract machine. -/
theorem simulates_of_invariant {I : σ → Prop} {abs : σ → τ} {next : τ → ι → τ}
    (hinv : ∀ m i m', I m → step m i m' → I m')
    (hstep : ∀ m i m', I m → step m i m' → abs m' = next (abs m) i) (hI : I s)
    (r : Run step s trace s') : abs s' = (trace.map Prod.snd).foldl next (abs s) := by
  induction r with
  | nil => rfl
  | snoc r h ih =>
    rw [hstep _ _ _ (r.invariant hinv hI) h, ih, List.map_append, List.foldl_append]
    rfl

theorem simulates {abs : σ → τ} {next : τ → ι → τ}
    (hstep : ∀ m i m', step m i m' → abs m' = next (abs m) i) (r : Run step s trace s') :
    abs s' = (trace.map Prod.snd).foldl next (abs s) :=
  r.simulates_of_invariant (I := fun _ => True) (fun _ _ _ _ _ => trivial)
    (fun m i m' _ h => hstep m i m' h) trivial

/-- **A run seen by someone who does not notice every step.**  The steps that are seen are steps of
the other machine, and the others change nothing there; this is asked of the steps that lead to a
good state, when no step leads back to one. -/
theorem project {κ : Type*} {abs : σ → τ} {see : ι → Option κ} {step' : τ → κ → τ → Prop}
    {G : σ → Prop} (hback : ∀ m i m', step m i m' → G m' → G m)
    (hstep : ∀ m i m', step m i m' → G m' →
      (see i = none ∧ abs m' = abs m) ∨ ∃ k, see i = some k ∧ step' (abs m) k (abs m'))
    (r : Run step s trace s') (hs' : G s') :
    Run step' (abs s) (trace.filterMap fun x => (see x.2).map (Prod.mk (abs x.1))) (abs s') := by
  induction r with
  | nil => exact .nil
  | @snoc trace m s' i _ h ih =>
    have hm := ih (hback m i s' h hs')
    rw [List.filterMap_append]
    rcases hstep m i s' h hs' with ⟨hnone, hsame⟩ | ⟨k, hsome, hlast⟩
    · rw [List.filterMap_cons_none (by rw [hnone]; rfl), List.filterMap_nil, List.append_nil, hsame]
      exact hm
    · rw [List.filterMap_cons_some (by rw [hsome]; rfl), List.filterMap_nil]
      exact hm.snoc hlast

end Run

/-! ### Folds -/

/-- Every input of a fold meets the condition in the state in which it is handled. -/
def Throughout (handle : σ → ι → σ) (C : σ → ι → Prop) : σ → List ι → Prop
  | _, [] => True
  | s, i :: l => C s i ∧ Throughout handle C (handle s i) l

/-- **A fold leads to a good state iff it starts in one and all of its inputs meet the
condition**, when under an invariant that is what makes one input lead to a good state. -/
theorem foldl_iff {I P : σ → Prop} {handle : σ → ι → σ} {C : σ → ι → Prop}
    (hinv : ∀ s i, I s → I (handle s i))
    (hstep : ∀ s i, I s → (P (handle s i) ↔ P s ∧ C s i)) (l : List ι) :
    ∀ s, I s → I (l.foldl handle s) ∧ (P (l.foldl handle s) ↔ P s ∧ Throughout handle C s l) := by
  induction l with
  | nil => exact fun s hs => ⟨hs, (and_iff_left trivial).symm⟩
  | cons i l ih =>
    intro s hs
    obtain ⟨hI, hP⟩ := ih (handle s i) (hinv s i hs)
    refine ⟨hI, ?_⟩
    rw [List.foldl_cons, hP, hstep s i hs, Throughout, and_assoc]

section LastWriter

variable {α : Type*} {I : σ → Prop} {handle : σ → ι → σ} {W : ι → Prop} (read : σ → α)

theorem foldl_invariant (hinv : ∀ s i, I s → I (handle s i)) (l : List ι) :
    ∀ s, I s → I (l.foldl handle s) := by
  induction l with
  | nil => exact fun s hs => hs
  | cons i l ih => exact fun s hs => ih (handle s i) (hinv s i hs)

theorem foldl_keeps (hinv : ∀ s i, I s → I (handle s i))
    (hkeep : ∀ s i, I s → ¬ W i → read (handle s i) = read s) {l : List ι} :
    (∀ i ∈ l, ¬ W i) → ∀ s, I s → read (l.foldl handle s) = read s := by
  induction l with
  | nil => exact fun _ s _ => rfl
  | cons i l ih =>
    intro h s hs
    have hrest := ih (fun j hj => h j (List.mem_cons_of_mem _ hj)) (handle s i) (hinv s i hs)
    exact hrest.trans (hkeep s i hs (h i List.mem_cons_self))

/-- **The last writer wins.** -/
theorem foldl_lastWriter (value : ι → α) (hinv : ∀ s i, I s → I (handle s i))
    (hwrite : ∀ s i, I s → W i → read (handle s i) = value i)
    (hkeep : ∀ s i, I s → ¬ W i → read (handle s i) = read s) (pre : List ι) {i : ι}
    {post : List ι} (hi : W i) (hpost : ∀ j ∈ post, ¬ W j) {s : σ} (hs : I s) :
    read ((pre ++ i :: post).foldl handle s) = value i := by
  have hpre := foldl_invariant hinv pre s hs
  rw [List.foldl_append, List.foldl_cons, foldl_keeps read hinv hkeep hpost _ (hinv _ i hpre)]
  exact hwrite _ i hpre hi

end LastWriter

end Mydds.Lib
