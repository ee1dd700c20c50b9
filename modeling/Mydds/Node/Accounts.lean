import Mydds.Node.EventLoop

/-!
# Where an `IoInfo` goes

A submission takes an `IoInfo` from `new`, and the loop is to `delete` it when the request has
completed.  The results that the loop skips are the only ones it forgets: at any time an `IoInfo`
that was ever made is outstanding, or deleted, or leaked, and only one of them.  So none is deleted
while the kernel may still write to it, and none twice.
-/

namespace Mydds.Node

open Lib

/-- The `IoInfo` that an event makes the loop forget. -/
def skipped : Event → List InfoPtr
  | .complete request res _ _ => if res < 0 ∧ res ≠ -etime then [request.1] else []
  | .call _ => []

/-- Those that it has forgotten in a run. -/
def leaked (trace : List (Process × Event)) : List InfoPtr := trace.flatMap fun x => skipped x.2

/-- Every `IoInfo` that was made is in one of the three lists, and in one place of it. -/
def Accounted (node : Node) (lost : List InfoPtr) : Prop :=
  (node.requests.map Prod.fst ++ node.deleted ++ lost).Perm (List.range node.nextInfo)

variable {node node' : Node} {lost : List InfoPtr}

theorem Accounted.topics (h : node.Accounted lost) (m : TopicManager) :
    { node with topicManager := m }.Accounted lost := h

theorem Accounted.submit (h : node.Accounted lost) (info : IoInfo) :
    (node.submit info).Accounted lost := by
  show (List.map Prod.fst (node.requests ++ [(node.nextInfo, info)]) ++ node.deleted ++ lost).Perm
    (List.range (node.nextInfo + 1))
  rw [List.range_succ, List.map_append]
  refine List.Perm.trans ?_ (h.append_right [node.nextInfo])
  simp only [List.append_assoc]
  refine List.Perm.append_left _ ?_
  rw [← List.append_assoc node.deleted]
  exact List.perm_append_comm

theorem Accounted.take (h : node.Accounted lost) {request : InfoPtr × IoInfo}
    (hrequest : request ∈ node.requests) : (node.take request).Accounted (lost ++ [request.1]) := by
  have hout := ((List.perm_cons_erase hrequest).map Prod.fst).symm
  rw [List.map_cons] at hout
  refine List.Perm.trans ?_ h
  show (_ ++ node.deleted ++ (lost ++ [request.1])).Perm _
  rw [← List.append_assoc]
  refine (List.perm_append_singleton _ _).trans ?_
  rw [← List.cons_append, ← List.cons_append]
  exact (hout.append_right _).append_right _

theorem Accounted.delete {ptr : InfoPtr} (h : node.Accounted (lost ++ [ptr])) :
    { node with deleted := node.deleted ++ [ptr] }.Accounted lost := by
  refine List.Perm.trans ?_ h
  show (_ ++ (node.deleted ++ [ptr]) ++ lost).Perm _
  simp only [List.append_assoc]
  exact ((List.perm_append_comm).append_left _).append_left _

theorem Accounted.handleEvent (h : node.Accounted lost) {info : IoInfo}
    (hok : node.handleEvent info = .ok node') : node'.Accounted lost := by
  rw [Node.handleEvent] at hok
  split at hok
  · cases hok
    exact h
  · cases hok
    exact h
  · obtain ⟨m, rfl⟩ := handlerRead_ok hok
    exact (h.topics m).submit _
  · rcases tick_ok hok with rfl | ⟨bytes, rfl⟩
    · exact h.submit _
    · exact (h.submit _).submit _

theorem Accounted.next {consumed consumed' : List InfoPtr} {event : Event}
    (h : node.Accounted lost)
    (hnext : Next (.running node consumed) event (.running node' consumed')) :
    node'.Accounted (lost ++ skipped event) := by
  generalize hs : Process.running node' consumed' = s at hnext
  cases hnext with
  | @complete _ _ request res bytes addr hrequest =>
    have htaken := h.take hrequest
    rw [processCqe] at hs
    rw [skipped]
    split at hs
    · rename_i hbad
      rw [if_pos hbad]
      cases hs
      exact htaken
    · rename_i hgood
      rw [if_neg hgood, List.append_nil]
      cases hresult : (node.take request).handleEvent (completed request.2 bytes addr) with
      | error fault => rw [hresult] at hs; cases hs
      | ok node1 =>
        rw [hresult] at hs
        cases hs
        exact (htaken.handleEvent hresult).delete
  | @call _ node1 _ c hcall =>
    cases hs
    rw [skipped, List.append_nil]
    rcases call_ok hcall with ⟨m, rfl⟩ | ⟨bytes, rfl⟩
    · exact h.topics m
    · exact h.submit _
  | throw =>
    cases hs
    rw [skipped, List.append_nil]
    exact h
  | crash => cases hs

theorem accounted_init {heap : Heap} {m : TopicManager}
    (h : ({ construct heap with topicManager := m }).init = .ok node) : node.Accounted [] := by
  have hnew : ({ construct heap with topicManager := m }).Accounted [] := List.Perm.refl _
  obtain ⟨node1, htick, hnode⟩ := Result.bind_eq_ok.mp h
  cases hnode
  have htimer : { construct heap with topicManager := m }.handleEvent timerInfo = .ok node1 := htick
  exact (hnew.handleEvent htimer).submit _

theorem LoopStep.accounted {s : Process} {event : Event} {consumed' : List InfoPtr}
    (hs : ∀ node consumed, s = .running node consumed → node.Accounted lost)
    (h : LoopStep s event (.running node' consumed')) :
    node'.Accounted (lost ++ skipped event) := by
  obtain ⟨mid, hnext, hreorder⟩ := h
  cases hreorder with
  | @running node1 m _ _ =>
    have hnode1 : node1.Accounted (lost ++ skipped event) := by
      cases s with
      | running node consumed => exact (hs node consumed rfl).next hnext
      | terminated fault => cases hnext
    exact hnode1.topics m

/-- **Every `IoInfo` is accounted for.**  In every run from `init`, whatever completes in whatever
order, those that were made are the outstanding ones, the deleted ones and those of the completions
that were errors, each of them once. -/
theorem infos_accounted {heap : Heap} {m : TopicManager}
    (hinit : ({ construct heap with topicManager := m }).init = .ok node)
    {trace : List (Process × Event)} {s : Process}
    (r : Run LoopStep (.running node []) trace s) :
    ∀ node' consumed, s = .running node' consumed →
      (node'.requests.map Prod.fst ++ node'.deleted ++ leaked trace).Perm
        (List.range node'.nextInfo) ∧
      node'.deleted.Nodup ∧
      (∀ request ∈ node'.requests, request.1 ∉ node'.deleted) ∧
      (∀ ptr ∈ leaked trace, ptr ∉ node'.deleted) := by
  have haccounted : ∀ node' consumed, s = .running node' consumed →
      node'.Accounted (leaked trace) := by
    induction r with
    | nil =>
      intro node' consumed hs
      cases hs
      exact accounted_init hinit
    | @snoc trace mid s' event r hstep ih =>
      intro node' consumed hs
      subst hs
      rw [leaked, List.flatMap_append, List.flatMap_singleton]
      exact hstep.accounted ih
  intro node' consumed hs
  have hperm := haccounted node' consumed hs
  have hnodup := hperm.nodup_iff.mpr List.nodup_range
  obtain ⟨hfront, -, hlost⟩ := List.nodup_append.mp hnodup
  obtain ⟨-, hdeleted, hdisjoint⟩ := List.nodup_append.mp hfront
  refine ⟨hperm, hdeleted, fun request hrequest hmem => ?_, fun ptr hptr hmem => ?_⟩
  · exact hdisjoint _ (List.mem_map_of_mem hrequest) _ hmem rfl
  · exact hlost _ (List.mem_append_right _ hmem) _ hptr rfl

/-- The receive request fails with `EINTR`: its `IoInfo` is the one that is leaked. -/
theorem infos_accounted_eintr :
    ((started.take (1, receiveInfo)).requests.map Prod.fst ++ [] ++ [1]).Perm [0, 1] := by
  have hrequest : (1, receiveInfo) ∈ started.requests := List.mem_cons_of_mem _ List.mem_cons_self
  have hstep : LoopStep (.running started [])
      (.complete (1, receiveInfo) (-4) [] ⟨(10, 0, 0, 1), (0, 80)⟩)
      (.running (started.take (1, receiveInfo)) [1]) :=
    ⟨_, .complete (-4) [] ⟨(10, 0, 0, 1), (0, 80)⟩ hrequest, Process.Reorder.refl _⟩
  exact (infos_accounted init_started (Run.single hstep) _ _ rfl).1

end Mydds.Node
