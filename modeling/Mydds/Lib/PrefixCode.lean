import Mathlib.Data.List.Infix

/-!
# Prefix codes

`enc` writes a symbol as a non-empty word.  It is a prefix code when a text that
starts with a word starts with no other, `IsPrefixCode.cancel`, so that a reader
going from left to right knows where each word ends.  Then a text has at most one
reading as a string of symbols (`IsPrefixCode.flatMap_injective`), the beginnings of
it that have a reading are those of the string (`IsPrefixCode.flatMap_isPrefix_iff`),
and pairs of symbols are a prefix code again (`IsPrefixCode.prod`).

The second part is the way a number of unknown size is delimited: a run of
elements that say "more follows" closed by one that does not.
-/

namespace Mydds.Lib

variable {α β γ : Type*}

/-- A code whose words are not empty and none of which starts another. -/
structure IsPrefixCode (enc : β → List α) : Prop where
  ne_nil : ∀ b, enc b ≠ []
  cancel : ∀ {b c : β} {s t : List α}, enc b ++ s = enc c ++ t → b = c

namespace IsPrefixCode

variable {enc : β → List α} {enc' : γ → List α}

theorem cancel_tail (h : IsPrefixCode enc) {b c : β} {s t : List α}
    (e : enc b ++ s = enc c ++ t) : b = c ∧ s = t := by
  obtain rfl := h.cancel e
  exact ⟨rfl, List.append_cancel_left e⟩

/-- **A text has at most one reading.** -/
theorem flatMap_injective (h : IsPrefixCode enc) :
    ∀ {bs cs : List β}, bs.flatMap enc = cs.flatMap enc → bs = cs := by
  intro bs
  induction bs with
  | nil =>
    intro cs e
    cases cs with
    | nil => rfl
    | cons c cs =>
      rw [List.flatMap_nil, List.flatMap_cons] at e
      exact absurd (List.append_eq_nil_iff.mp e.symm).1 (h.ne_nil c)
  | cons b bs ih =>
    intro cs e
    cases cs with
    | nil =>
      rw [List.flatMap_nil, List.flatMap_cons] at e
      exact absurd (List.append_eq_nil_iff.mp e).1 (h.ne_nil b)
    | cons c cs =>
      rw [List.flatMap_cons, List.flatMap_cons] at e
      obtain ⟨rfl, hs⟩ := h.cancel_tail e
      rw [ih hs]

/-- **A text that begins another is read as the beginning of the string.** -/
theorem flatMap_isPrefix_iff (h : IsPrefixCode enc) :
    ∀ {cs bs : List β}, cs.flatMap enc <+: bs.flatMap enc ↔ cs <+: bs := by
  intro cs
  induction cs with
  | nil => exact fun {bs} => iff_of_true (List.nil_prefix) List.nil_prefix
  | cons c cs ih =>
    intro bs
    cases bs with
    | nil =>
      have hne : (c :: cs).flatMap enc ≠ [] := by
        rw [List.flatMap_cons]
        exact fun e => h.ne_nil c (List.append_eq_nil_iff.mp e).1
      rw [List.flatMap_nil, List.prefix_nil, List.prefix_nil]
      exact iff_of_false hne (List.cons_ne_nil c cs)
    | cons b bs =>
      rw [List.flatMap_cons, List.flatMap_cons, List.cons_prefix_cons, ← ih]
      constructor
      · intro hpre
        obtain ⟨t, e⟩ := hpre
        rw [List.append_assoc] at e
        obtain ⟨hcb, hs⟩ := h.cancel_tail e
        exact ⟨hcb, t, hs⟩
      · intro hpre
        obtain ⟨rfl, hs⟩ := hpre
        exact (List.prefix_append_right_inj _).mpr hs

theorem prod (h : IsPrefixCode enc) (h' : IsPrefixCode enc') :
    IsPrefixCode (fun p : β × γ => enc p.1 ++ enc' p.2) where
  ne_nil p e := h.ne_nil p.1 (List.append_eq_nil_iff.mp e).1
  cancel {p q s t} e := by
    rw [List.append_assoc, List.append_assoc] at e
    obtain ⟨h1, e⟩ := h.cancel_tail e
    exact Prod.ext h1 (h'.cancel e)

end IsPrefixCode

/-! ### Runs closed by a last element -/

theorem run_cancel {P : α → Prop} {more more' : List α} {last last' : α} {s t : List α}
    (hm : ∀ a ∈ more, P a) (hl : ¬ P last) (hm' : ∀ a ∈ more', P a)
    (hl' : ¬ P last') (e : more ++ last :: s = more' ++ last' :: t) :
    more = more' ∧ last = last' ∧ s = t := by
  induction more generalizing more' with
  | nil =>
    cases more' with
    | nil => simpa using e
    | cons b more' =>
      rw [List.nil_append, List.cons_append, List.cons.injEq] at e
      exact absurd (e.1 ▸ hm' b List.mem_cons_self) hl
  | cons a more ih =>
    cases more' with
    | nil =>
      rw [List.nil_append, List.cons_append, List.cons.injEq] at e
      exact absurd (e.1 ▸ hm a List.mem_cons_self) hl'
    | cons b more' =>
      rw [List.cons_append, List.cons_append, List.cons.injEq] at e
      obtain ⟨rfl, e⟩ := e
      obtain ⟨rfl, h⟩ := ih (fun x hx => hm x (List.mem_cons_of_mem _ hx))
        (fun x hx => hm' x (List.mem_cons_of_mem _ hx)) e
      exact ⟨rfl, h⟩

end Mydds.Lib
