import Mathlib.Data.List.Perm.Basic
import Mathlib.Logic.Function.Basic

/-!
# First come, first served

Names are recorded in a directory one after the other.  A name has a place there, and asks for
this and for other places; it is recorded at its own place if all that it asks for are free, and
else dropped.  So what is recorded may depend on the order of the names.

It does not depend on it if they are not in each other's way, `Apart`: two such names can be
exchanged, and only these (`record_comm_iff`), and so can two groups of them
(`foldl_record_comm`).  `foldl_groups` is what follows for many groups: the order matters only
for those that are in each other's way, `Rearranged`.
-/

namespace Mydds.Lib

/-! ### Rearranged lists -/

/-- The members are the same, and two of them come in the same order unless they can be
exchanged. -/
inductive Rearranged {α : Type*} (exchange : α → α → Prop) : List α → List α → Prop
  | nil : Rearranged exchange [] []
  | cons {a : α} {l l1 l2 : List α} : (∀ b ∈ l1, exchange a b) →
      Rearranged exchange l (l1 ++ l2) → Rearranged exchange (a :: l) (l1 ++ a :: l2)

namespace Rearranged

variable {α σ : Type*} {exchange : α → α → Prop} {l l' : List α}

theorem of_perm (hperm : l.Perm l') (h : l.Pairwise exchange) : Rearranged exchange l l' := by
  induction l generalizing l' with
  | nil =>
    rw [List.nil_perm.mp hperm]
    exact .nil
  | cons a l ih =>
    obtain ⟨l1, l2, rfl⟩ := List.append_of_mem (hperm.subset List.mem_cons_self)
    have hrest : l.Perm (l1 ++ l2) := (hperm.trans List.perm_middle).cons_inv
    obtain ⟨ha, hl⟩ := List.pairwise_cons.mp h
    exact .cons (fun b hb => ha b (hrest.symm.subset (List.mem_append_left _ hb))) (ih hrest hl)

protected theorem map {β : Type*} {exchange' : β → β → Prop} {f : α → β}
    (h : Rearranged exchange l l') (hf : ∀ a b, exchange a b → exchange' (f a) (f b)) :
    Rearranged exchange' (l.map f) (l'.map f) := by
  induction h with
  | nil => exact .nil
  | @cons a l l1 l2 hl1 _ ih =>
    rw [List.map_append] at ih
    rw [List.map_cons, List.map_append, List.map_cons]
    refine .cons (fun b hb => ?_) ih
    obtain ⟨c, hc, rfl⟩ := List.mem_map.mp hb
    exact hf a c (hl1 c hc)

theorem foldl_cons_eq {f : σ → α → σ} {I : σ → Prop} (hinv : ∀ s a, I s → I (f s a))
    (hcomm : ∀ s a b, I s → exchange a b → f (f s a) b = f (f s b) a) {a : α} :
    (∀ b ∈ l, exchange a b) → ∀ s, I s → f (l.foldl f s) a = l.foldl f (f s a) := by
  induction l with
  | nil => exact fun _ _ _ => rfl
  | cons b l ih =>
    intro h s hs
    rw [List.foldl_cons, List.foldl_cons, hcomm s a b hs (h b List.mem_cons_self)]
    exact ih (fun c hc => h c (List.mem_cons_of_mem _ hc)) (f s b) (hinv s b hs)

/-- **A loop over rearranged inputs ends in the same state**, if under an invariant two inputs
that can be exchanged commute. -/
theorem foldl_eq {f : σ → α → σ} {I : σ → Prop} (h : Rearranged exchange l l')
    (hinv : ∀ s a, I s → I (f s a))
    (hcomm : ∀ s a b, I s → exchange a b → f (f s a) b = f (f s b) a) :
    ∀ s, I s → l.foldl f s = l'.foldl f s := by
  induction h with
  | nil => exact fun _ _ => rfl
  | @cons a l l1 l2 hl1 _ ih =>
    intro s hs
    rw [List.foldl_cons, ih (f s a) (hinv s a hs), List.foldl_append, List.foldl_append,
      List.foldl_cons, foldl_cons_eq hinv hcomm hl1 s hs]

end Rearranged

/-! ### The directory -/

/-- The rule by which names are admitted to a directory. -/
structure FirstCome (ν κ : Type*) where
  place : ν → κ
  asks : ν → κ → Prop
  asks_place : ∀ n, asks n (place n)
  barred : ν → Prop

namespace FirstCome

variable {ν κ : Type*} (rule : FirstCome ν κ)

/-- The name is not barred, and nothing is where it asks to be. -/
def Free (d : κ → Option ν) (n : ν) : Prop := ¬ rule.barred n ∧ ∀ k, rule.asks n k → d k = none

open Classical in
/-- The directory after a name has come. -/
noncomputable def record (d : κ → Option ν) (n : ν) : κ → Option ν :=
  if rule.Free d n then Function.update d (rule.place n) (some n) else d

/-- If both names are free, none of them asks for the place of the other. -/
def Apart (d : κ → Option ν) (n n' : ν) : Prop :=
  n ≠ n' → rule.Free d n → rule.Free d n' →
    ¬ rule.asks n (rule.place n') ∧ ¬ rule.asks n' (rule.place n)

variable {rule} {d d0 : κ → Option ν} {n n' : ν}

theorem Apart.symm (h : rule.Apart d n n') : rule.Apart d n' n :=
  fun hne hfree' hfree => (h (Ne.symm hne) hfree hfree').symm

theorem record_of_free (h : rule.Free d n) [DecidableEq κ] :
    rule.record d n = Function.update d (rule.place n) (some n) := by
  unfold record
  rw [if_pos h]
  congr
  exact Subsingleton.elim _ _

theorem record_apply (h : rule.Free d n) [DecidableEq κ] (k : κ) :
    rule.record d n k = if k = rule.place n then some n else d k := by
  rw [record_of_free h, Function.update_apply]

theorem record_of_not_free (h : ¬ rule.Free d n) : rule.record d n = d := if_neg h

theorem record_keeps {k : κ} {m : ν} (h : d k = some m) : rule.record d n k = some m := by
  classical
  by_cases hfree : rule.Free d n
  · have hk : k ≠ rule.place n := by
      rintro rfl
      rw [hfree.2 _ (rule.asks_place n)] at h
      cases h
    rw [record_of_free hfree, Function.update_of_ne hk, h]
  · rw [record_of_not_free hfree, h]

theorem record_place (h : rule.Free d n) : rule.record d n (rule.place n) = some n := by
  classical
  rw [record_of_free h, Function.update_self]

theorem Free.of_record (h : rule.Free (rule.record d n) n') : rule.Free d n' := by
  classical
  by_cases hfree : rule.Free d n
  · rw [record_of_free hfree] at h
    refine ⟨h.1, fun k hk => ?_⟩
    have hnone := h.2 k hk
    by_cases hplace : k = rule.place n
    · rw [hplace, Function.update_self] at hnone
      cases hnone
    · rwa [Function.update_of_ne hplace] at hnone
  · rwa [record_of_not_free hfree] at h

theorem Free.of_foldl {names : List ν} : ∀ {d : κ → Option ν},
    rule.Free (names.foldl rule.record d) n' → rule.Free d n' := by
  induction names with
  | nil => exact fun h => h
  | cons n names ih => exact fun h => (ih h).of_record

/-- **Two names that are apart can be exchanged.** -/
theorem record_comm (hle : ∀ n, rule.Free d n → rule.Free d0 n) (h : rule.Apart d0 n n') :
    rule.record (rule.record d n) n' = rule.record (rule.record d n') n := by
  classical
  by_cases hne : n = n'
  · rw [hne]
  by_cases hfree : rule.Free d n
  · by_cases hfree' : rule.Free d n'
    · obtain ⟨hasks, hasks'⟩ := h hne (hle n hfree) (hle n' hfree')
      have hplaces : rule.place n ≠ rule.place n' := by
        intro he
        rw [← he] at hasks
        exact hasks (rule.asks_place n)
      -- each of them stays free when the other is recorded
      have hstays' : rule.Free (rule.record d n) n' := by
        refine ⟨hfree'.1, fun k hk => ?_⟩
        rw [record_of_free hfree, Function.update_of_ne, hfree'.2 k hk]
        rintro rfl
        exact hasks' hk
      have hstays : rule.Free (rule.record d n') n := by
        refine ⟨hfree.1, fun k hk => ?_⟩
        rw [record_of_free hfree', Function.update_of_ne, hfree.2 k hk]
        rintro rfl
        exact hasks hk
      rw [record_of_free hstays', record_of_free hstays, record_of_free hfree,
        record_of_free hfree', Function.update_comm hplaces]
    · have hno : ¬ rule.Free (rule.record d n) n' := fun hf => hfree' hf.of_record
      rw [record_of_not_free hno, record_of_not_free hfree']
  · have hno : ¬ rule.Free (rule.record d n') n := fun hf => hfree hf.of_record
    rw [record_of_not_free hno, record_of_not_free hfree]

/-- Of two names that can be exchanged, the second does not ask for the place of the first. -/
theorem not_asks_of_comm
    (hcomm : rule.record (rule.record d n) n' = rule.record (rule.record d n') n) (hne : n ≠ n')
    (hfree : rule.Free d n) (hfree' : rule.Free d n') : ¬ rule.asks n' (rule.place n) := by
  classical
  intro hasks
  -- it is dropped when it comes second, but not when it comes first
  have hdrop : ¬ rule.Free (rule.record d n) n' := by
    intro hstays
    have hnone := hstays.2 _ hasks
    rw [record_place hfree] at hnone
    cases hnone
  have hfirst : rule.record (rule.record d n') n (rule.place n') = some n' :=
    record_keeps (record_place hfree')
  rw [← hcomm, record_of_not_free hdrop, record_apply hfree] at hfirst
  split at hfirst
  · exact hne (Option.some.inj hfirst)
  · rw [hfree'.2 _ (rule.asks_place n')] at hfirst
    cases hfirst

theorem record_comm_iff :
    rule.record (rule.record d n) n' = rule.record (rule.record d n') n ↔ rule.Apart d n n' := by
  refine ⟨fun hcomm hne hfree hfree' => ?_, record_comm fun _ h => h⟩
  exact ⟨not_asks_of_comm hcomm.symm (Ne.symm hne) hfree' hfree,
    not_asks_of_comm hcomm hne hfree hfree'⟩

theorem foldl_record_comm {names names' : List ν}
    (h : ∀ n ∈ names, ∀ n' ∈ names', rule.Apart d0 n n') : ∀ {d : κ → Option ν},
    (∀ n, rule.Free d n → rule.Free d0 n) →
    names'.foldl rule.record (names.foldl rule.record d)
      = names.foldl rule.record (names'.foldl rule.record d) := by
  induction names' with
  | nil => exact fun _ => rfl
  | cons n' names' ih =>
    intro d hle
    have hrest := ih (fun n hn m hm => h n hn m (List.mem_cons_of_mem _ hm))
      (d := rule.record d n') fun m hm => hle m hm.of_record
    have hfirst : rule.record (names.foldl rule.record d) n'
        = names.foldl rule.record (rule.record d n') :=
      Rearranged.foldl_cons_eq (fun _ _ hle m hm => hle m hm.of_record)
        (fun _ _ _ hle hapart => record_comm hle hapart)
        (fun n hn => (h n hn n' List.mem_cons_self).symm) d hle
    rw [List.foldl_cons, List.foldl_cons, hfirst, hrest]

/-- **Groups of names that are apart come in any order.** -/
theorem foldl_groups {groups groups' : List (List ν)}
    (h : Rearranged (fun names names' => ∀ n ∈ names, ∀ n' ∈ names', rule.Apart d0 n n')
      groups groups') :
    groups.foldl (fun d names => names.foldl rule.record d) d0
      = groups'.foldl (fun d names => names.foldl rule.record d) d0 := by
  refine h.foldl_eq (I := fun d => ∀ n, rule.Free d n → rule.Free d0 n) ?_ ?_ d0 fun _ hn => hn
  · exact fun d names hle n hn => hle n hn.of_foldl
  · exact fun d names names' hle hapart => foldl_record_comm hapart hle

end FirstCome

end Mydds.Lib
