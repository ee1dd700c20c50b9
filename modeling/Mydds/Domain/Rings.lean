import Mydds.Domain.Faults

/-!
# A domain of rings

`Acts` lets a node submit whatever it wants.  Here every node has the queue that `init` has made,
and a submission that finds it full throws, `Ring.QueueStep`.

As long as no application has more than 1020 entries in its queue, no queue is full, and a run of
the rings is one of the domain, `run_of_rings`: the same nodes in the same states, which have sent
the same datagrams.  So what is shown of all runs of a domain holds there.
-/

namespace Mydds

open Lib

namespace Domain

variable {ι : Type} {setting : Setting ι}

/-- An event of the ring of node `i`.  The network has no part in what the loop does not notice. -/
def RingActs (setting : Setting ι) (log : List (ι × Bytes)) (i : ι) (ring : Ring)
    (event : Ring.Event) (ring' : Ring) (out : List Bytes) : Prop :=
  Ring.QueueStep ring event ring' ∧
    match Ring.noticed event with
    | none => out = []
    | some e => FromGroup setting log e ∧ Allowed setting i ring.process e ∧
        out = submitted ring.process ring'.process

/-- Every node has returned from `init`, and the kernel has taken nothing yet. -/
def startRings (heaps : ι → Heap) : Network ι Ring Bytes :=
  ⟨fun i => initialised (heaps i) (TopicManager.init (heaps i)), []⟩

/-- **Nothing but a full queue lacks an entry.** -/
theorem Sound.granted {m : TopicManager} {trace : List (Ring × Ring.Event)} {ring : Ring}
    (h : Sound m trace ring) (hcalls : ¬ QueueFilled trace) : ring.Granted := by
  intro hended
  have hends := h.ends
  rw [hended] at hends
  rcases hends with ⟨what, hwhat⟩ | ⟨hnull, -⟩ | ⟨-, hfilled⟩
  · cases hwhat
  · cases hnull
  · exact hcalls hfilled

/-- The ring has come here with an application that has left room in the queue. -/
def Roomy (ring : Ring) : Prop := ∃ m trace, Sound m trace ring ∧ ¬ QueueFilled trace

theorem Roomy.step {ring ring' : Ring} {event : Ring.Event} (h : Roomy ring)
    (hcalls : ring.queuedCalls.length ≤ 1020) (hstep : Ring.QueueStep ring event ring') :
    Roomy ring' := by
  obtain ⟨m, trace, hsound, hfilled⟩ := h
  refine ⟨m, _, hsound.step hstep, ?_⟩
  rintro ⟨x, hx, hfull⟩
  rcases List.mem_append.mp hx with hbefore | hlast
  · exact hfilled ⟨x, hbefore, hfull⟩
  · rw [List.mem_singleton.mp hlast] at hfull
    exact absurd hfull (Nat.not_le.mpr (Nat.lt_succ_of_le hcalls))

variable [DecidableEq ι] {heaps : ι → Heap} {net : Network ι Ring Bytes}
  {trace : List (Network ι Ring Bytes × (ι × Ring.Event))}

/-- **A run of the rings is one of the domain**, if no application puts more than 1020 entries into
its queue. -/
theorem run_of_rings (r : Run (Network.Step (RingActs setting)) (startRings heaps) trace net)
    (hcalls : ∀ x ∈ trace, (x.1.states x.2.1).queuedCalls.length ≤ 1020) :
    Run (Network.Step (Acts setting)) (start heaps) (trace.filterMap fun x =>
      (Network.seen Ring.noticed x.2).map (Prod.mk (x.1.view Ring.process)))
      (net.view Ring.process) := by
  have hstart : (startRings heaps).Sound (fun _ => True) (fun _ _ ring => Roomy ring) :=
    ⟨fun _ _ => trivial, fun i => ⟨_, [], sound_initialised (heaps i) _,
      fun ⟨x, hx, _⟩ => List.not_mem_nil hx⟩⟩
  have hroomy : net.Sound (fun _ => True) (fun _ _ ring => Roomy ring) :=
    hstart.run (A := fun _ ring _ => ring.queuedCalls.length ≤ 1020) (fun _ _ _ _ h => h)
      (fun _ _ _ _ _ _ _ h hle hact => ⟨h.step hle hact.1, fun _ _ => trivial⟩) r hcalls
  have hgranted : ∀ i, (net.states i).Granted := by
    intro i
    obtain ⟨m, trace', hsound, hfilled⟩ := hroomy.states i
    exact hsound.granted hfilled
  have hview : (startRings heaps).view Ring.process = start heaps := rfl
  rw [← hview]
  refine Network.project (fun _ _ _ _ _ _ hact hg => (hact.1.granted hg).1)
    (fun log i ring event ring' out hact hg => ?_) r hgranted
  obtain ⟨hstep, hrest⟩ := hact
  rcases (hstep.granted hg).2.loop with ⟨hnone, hsame⟩ | ⟨e, hsome, hloop⟩
  · rw [hnone] at hrest
    exact Or.inl ⟨hnone, hsame, hrest⟩
  · rw [hsome] at hrest
    exact Or.inr ⟨e, hsome, hloop, hrest⟩

end Domain

end Mydds
