import Mydds.TopicManager.Registry

/-!
# Creation is all or nothing

`create_topic`, `create_publishTopic` and `create_subscribeTopic` look at their own registry, and
`insertTopic` at the trie, with a search for the name as a pattern.  The three drop what
`insertTopic` returns.  So where a search finds something else and the registry does not have
the name, a creation reports a success and the topic is not there.

`CanCreate` is the condition that this does not happen.  `allOrNothing_iff` proves it for the
three at once, `creates_run_iff` for all creations of a run and for the next one.
-/

namespace Mydds.TopicManager

open Lib

/-- A success, and the topic is found under the name and registered; or a failure, and nothing
has changed. -/
def AllOrNothing (m m' : TopicManager) (name : Bytes) (t : TopicPtr) (success registered : Prop) :
    Prop :=
  (success ∧ t ∈ m'.getTopics name ∧ registered) ∨
  (¬ success ∧ m'.topics = m.topics ∧ m'.publishingTopics = m.publishingTopics ∧
    m'.subscribingTopics = m.subscribingTopics ∧
    (m'.heap.topics t).getName = (m.heap.topics t).getName)

/-- The creation of a topic that is not null is all or nothing. -/
def Creates (m : TopicManager) : Op → Prop
  | .createTopic name (some t) => m.AllOrNothing (m.createTopic name (some t)).2 name t
      ((m.createTopic name (some t)).1 = true) True
  | .createPublishTopic name (some t) =>
    m.AllOrNothing (m.createPublishTopic name (some t)).2 name t
      ((m.createPublishTopic name (some t)).1 = true)
      ((m.createPublishTopic name (some t)).2.publishingTopics.find name = some (some t))
  | .createSubscribeTopic name (some t) =>
    m.AllOrNothing (m.createSubscribeTopic name (some t)).2 name t
      ((m.createSubscribeTopic name (some t)).1 ≠ none)
      ((m.createSubscribeTopic name (some t)).2.subscribingTopics.find name = some (some t))
  | _ => True

/-- The name is registered, or free, or the topic is found under it already. -/
def Available (m : TopicManager) (registry : UnorderedMap Bytes (Option TopicPtr)) (name : Bytes)
    (t : TopicPtr) : Prop :=
  registry.count name = true ∨ m.getTopics name = [] ∨ t ∈ m.getTopics name

/-- The condition on a state and an operation, see `creates_iff`. -/
def CanCreate (m : TopicManager) : Op → Prop
  | .createTopic name (some t) => m.Available m.publishingTopics name t
  | .createPublishTopic name (some t) => m.Available m.publishingTopics name t
  | .createSubscribeTopic name (some t) => m.Available m.subscribingTopics name t
  | _ => True

theorem mem_getTopics_insertTopic_iff (m : TopicManager) (name : Bytes) (t : TopicPtr) :
    t ∈ (m.insertTopic name (some t)).2.getTopics name ↔
      m.getTopics name = [] ∨ t ∈ m.getTopics name := by
  by_cases hnil : m.getTopics name = []
  · refine iff_of_true (mem_getTopics_of_get ?_) (Or.inl hnil)
    rw [insertTopic_of_absent hnil, Trie.get_insert, if_pos rfl]
  · rw [insertTopic_of_found hnil, or_iff_right hnil]

theorem allOrNothing_iff {m m' : TopicManager} {registry : UnorderedMap Bytes (Option TopicPtr)}
    {name : Bytes} {t : TopicPtr} {success registered : Prop}
    (htaken : registry.count name = true → ¬ success ∧ m' = m)
    (hfree : ¬ registry.count name = true →
      success ∧ registered ∧ m'.topics = (m.insertTopic name (some t)).2.topics) :
    m.AllOrNothing m' name t success registered ↔ m.Available registry name t := by
  unfold Available
  by_cases hcount : registry.count name = true
  · obtain ⟨hfail, rfl⟩ := htaken hcount
    exact iff_of_true (Or.inr ⟨hfail, rfl, rfl, rfl, rfl⟩) (Or.inl hcount)
  · obtain ⟨hsuccess, hregistered, htopics⟩ := hfree hcount
    have hmem : t ∈ m'.getTopics name ↔ m.getTopics name = [] ∨ t ∈ m.getTopics name := by
      rw [← mem_getTopics_insertTopic_iff, getTopics_eq, getTopics_eq, htopics]
    rw [or_iff_right hcount, ← hmem]
    constructor
    · intro h
      rcases h with ⟨-, hfound, -⟩ | ⟨hfail, -⟩
      · exact hfound
      · exact absurd hsuccess hfail
    · exact fun hfound => Or.inl ⟨hsuccess, hfound, hregistered⟩

/-- **One creation is all or nothing exactly under its condition.** -/
theorem creates_iff (m : TopicManager) (op : Op) : m.Creates op ↔ m.CanCreate op := by
  cases op with
  | createTopic name topic =>
    cases topic with
    | none => exact Iff.rfl
    | some t =>
      apply allOrNothing_iff
      · intro hcount
        rw [createTopic, if_pos hcount]
        exact ⟨Bool.false_ne_true, rfl⟩
      · intro hcount
        rw [createTopic, if_neg hcount]
        exact ⟨rfl, trivial, rfl⟩
  | createPublishTopic name topic =>
    cases topic with
    | none => exact Iff.rfl
    | some t =>
      apply allOrNothing_iff
      · intro hcount
        rw [createPublishTopic, if_pos hcount]
        exact ⟨Bool.false_ne_true, rfl⟩
      · intro hcount
        rw [createPublishTopic, if_neg hcount]
        exact ⟨rfl, by rw [UnorderedMap.find_assign, if_pos rfl], rfl⟩
  | createSubscribeTopic name topic =>
    cases topic with
    | none => exact Iff.rfl
    | some t =>
      apply allOrNothing_iff
      · intro hcount
        rw [createSubscribeTopic, if_pos hcount]
        exact ⟨fun h => h rfl, rfl⟩
      · intro hcount
        rw [createSubscribeTopic, if_neg hcount]
        exact ⟨Option.some_ne_none t, by rw [UnorderedMap.find_assign, if_pos rfl], rfl⟩
  | insertTopic name topic => exact Iff.rfl
  | eraseTopic name => exact Iff.rfl

/-- **The creations of a run are all or nothing iff each of them meets the condition in the state
it starts in**, and so is every creation in the state that the run reaches. -/
theorem creates_run_iff {heap : Heap} {trace : List (TopicManager × Op)} {m : TopicManager}
    (r : Run Step (init heap) trace m) :
    (Run (fun m op m' => m.Creates op ∧ m.Step op m') (init heap) trace m ↔
      ∀ x ∈ trace, x.1.CanCreate x.2) ∧
    ∀ op, m.Creates op ↔ m.CanCreate op := by
  refine ⟨?_, m.creates_iff⟩
  rw [r.restrict_iff]
  exact forall₂_congr fun x _ => x.1.creates_iff x.2

/-- A new manager, and the same with topic 0 created as `"a"`. -/
def newManager : TopicManager := init ⟨fun _ => Topic.ofName [], 2⟩

def managerA : TopicManager := (newManager.createTopic [97] (some 0)).2

theorem run_managerA :
    Run Step newManager [(newManager, .createTopic [97] (some 0))] managerA :=
  .single (Reorder.refl managerA)

/-- The first creation, and the publication of the same topic. -/
theorem creates_run_iff_first :
    Run (fun m op m' => m.Creates op ∧ m.Step op m') newManager
      [(newManager, .createTopic [97] (some 0))] managerA ∧
    managerA.Creates (.createPublishTopic [97] (some 0)) := by
  obtain ⟨hrun, hnext⟩ := creates_run_iff run_managerA
  refine ⟨hrun.mpr fun x hx => ?_, (hnext _).mpr ?_⟩
  · rw [List.mem_singleton.mp hx]
    exact Or.inr (Or.inl (getTopics_init _ _))
  · refine Or.inr (Or.inr ?_)
    decide

/-- Another topic of the same name: `create_topic` returns `true`, and the first is found. -/
theorem creates_run_fails : ¬ ∀ (heap : Heap) (trace : List (TopicManager × Op))
    (m : TopicManager), Run Step (init heap) trace m → ∀ op, m.Creates op := by
  intro h
  have hcreates := h _ _ _ run_managerA (.createTopic [97] (some 1))
  rw [creates_iff] at hcreates
  rcases hcreates with hcount | hnil | hmem
  · exact absurd hcount (by decide)
  · exact absurd hnil (by decide)
  · exact absurd hmem (by decide)

end Mydds.TopicManager
