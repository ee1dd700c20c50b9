import Mydds.Domain.Refine

/-!
# Invariants of a domain

What has to be shown for a property of the topics of a node, given what has been sent, to hold of
every node after every run: `Kept` has a field for each item that a message can carry and for each
call, and `Kept.run` is the induction.  The property may rest on one of the messages, which every
node has to keep for what it sends.
-/

namespace Mydds

open Lib

namespace Domain

variable {ι : Type} {setting : Setting ι}

/-- The size of the packet of a message. -/
def Message.size (message : Message) : Nat :=
  boundary message.kind message.topics message.topics.length

/-- The topic is one of the message, or a blank one behind it, in what the packet leaves of the
buffer. -/
def Message.Holds (message : Message) (topic : Topic) : Prop :=
  topic ∈ message.topics ∨ (topic = blank ∧ message.size < IoInfo.bufferSize)

theorem holds_of_arrives {message : Message} {received : List Topic}
    (h : Arrives message.kind message.topics received) :
    ∀ topic ∈ received, message.Holds topic := by
  intro topic htopic
  cases h with
  | @whole n hsize =>
    rcases List.mem_append.mp htopic with hmem | hmem
    · exact Or.inl hmem
    · obtain ⟨hn, hblank⟩ := List.mem_replicate.mp hmem
      have hpos := Nat.mul_pos (fields_pos message.kind) (Nat.pos_of_ne_zero hn)
      refine Or.inr ⟨hblank, ?_⟩
      rw [Message.size]
      omega
  | cut _ _ => exact Or.inl (List.mem_of_mem_take htopic)

theorem after_arrival {P : TopicManager → Prop} {kind : CommunicationType} {addr : SockaddrIn}
    {received : List Topic} {m : TopicManager} (h : P m)
    (hdiscover : kind = .discover → ∀ m, P m → ∀ topic ∈ received,
      P (Node.announce addr m (nameItem topic)))
    (hpublish : kind = .publish → ∀ m, P m → ∀ topic ∈ received,
      P (Node.publishItem m (dataItem topic)))
    (hsubscribe : kind = .subscribe → ∀ m, P m → ∀ topic ∈ received,
      P (Node.subscribeFrom addr m (nameItem topic))) :
    P (m.after (arrival kind addr received)) := by
  cases kind with
  | discover =>
    refine List.foldlRecOn (received.map nameItem) _ h fun m hm item hitem => ?_
    obtain ⟨topic, htopic, rfl⟩ := List.mem_map.mp hitem
    exact hdiscover rfl m hm topic htopic
  | publish =>
    refine List.foldlRecOn (received.map dataItem) _ h fun m hm item hitem => ?_
    obtain ⟨topic, htopic, rfl⟩ := List.mem_map.mp hitem
    exact hpublish rfl m hm topic htopic
  | subscribe =>
    refine List.foldlRecOn (received.map nameItem) _ h fun m hm item hitem => ?_
    obtain ⟨topic, htopic, rfl⟩ := List.mem_map.mp hitem
    exact hsubscribe rfl m hm topic htopic

/-- What a node sends are topics of its own: with their data if they are published, and those that
it publishes if they are announced. -/
def Sends (m : TopicManager) (message : Message) : Prop :=
  ∃ ptrs : List TopicPtr, message.topics = ptrs.map m.heap.topics ∧
    (message.kind = .publish → ∀ t ∈ ptrs, (m.heap.topics t).storage 0 ≠ none) ∧
    (message.kind = .discover → ∀ t ∈ ptrs, some t ∈ m.getAllPublishTopics)

theorem sends_of_announcement {m : TopicManager} {message : Message}
    (h : message ∈ announcement m) : Sends m message := by
  rw [announcement] at h
  split at h
  · exact absurd h List.not_mem_nil
  · rw [List.mem_singleton.mp h]
    exact ⟨_, rfl, fun hk => (by cases hk), fun _ t ht => List.reduceOption_mem_iff.mp ht⟩

theorem sends_of_answer {m : TopicManager} {c : Node.Call} {message : Message}
    (h : message ∈ (answer m c).2) : Sends m message := by
  cases c with
  | createTopic _ _ | createPublishTopic _ _ | write _ => exact absurd h List.not_mem_nil
  | publish topicName topic =>
    rw [answer] at h
    split at h
    · obtain ⟨t, ht, rfl⟩ := List.mem_map.mp h
      have hdata := (List.mem_filter.mp ht).2
      refine ⟨[t], rfl, fun _ u hu => ?_, fun hk => by cases hk⟩
      rw [List.mem_singleton.mp hu]
      exact Option.isSome_iff_ne_none.mp hdata
    · exact absurd h List.not_mem_nil
  | subscribe topicName =>
    rw [answer] at h
    split at h
    · exact absurd h List.not_mem_nil
    · rw [List.mem_singleton.mp h]
      exact ⟨_, rfl, fun hk => (by cases hk), fun hk => by cases hk⟩

/-- A property `I` of the topics of a node, given the log, that rests on one of the messages. -/
structure Kept (setting : Setting ι) (M : ι × Message → Prop)
    (I : List (ι × Message) → ι → TopicManager → Prop) : Prop where
  mono : ∀ {log i m}, I log i m → ∀ more, I (log ++ more) i m
  reorder : ∀ {log i m m'}, I log i m → m.Reorder m' → I log i m'
  discover : ∀ {log i m sender message topic}, I log i m → (sender, message) ∈ log →
    M (sender, message) → message.kind = .discover → message.Holds topic →
    I log i (Node.announce (setting.address sender) m (nameItem topic))
  publish : ∀ {log i m sender message topic}, I log i m → (sender, message) ∈ log →
    M (sender, message) → message.kind = .publish → message.Holds topic →
    I log i (Node.publishItem m (dataItem topic))
  subscribe : ∀ {log i m sender message topic}, I log i m → (sender, message) ∈ log →
    M (sender, message) → message.kind = .subscribe → message.Holds topic →
    I log i (Node.subscribeFrom (setting.address sender) m (nameItem topic))
  createTopic : ∀ {log i m name topic}, I log i m → setting.allowed i m (.createTopic name topic) →
    I log i (m.createTopic name topic).2
  createPublishTopic : ∀ {log i m name topic}, I log i m →
    setting.allowed i m (.createPublishTopic name topic) →
    I log i (m.createPublishTopic name topic).2
  write : ∀ {log i m heap}, I log i m → setting.allowed i m (.write heap) →
    I log i { m with heap }
  sends : ∀ {log i m message}, I log i m → Sends m message → M (i, message)

section Runs

variable {M : ι × Message → Prop} {I : List (ι × Message) → ι → TopicManager → Prop}

theorem Kept.answer (h : Kept setting M I) {log : List (ι × Message)} {i : ι} {m : TopicManager}
    {c : Node.Call} (hI : I log i m) (hallowed : setting.allowed i m c) :
    I log i (answer m c).1 := by
  cases c with
  | createTopic name topic => exact h.createTopic hI hallowed
  | createPublishTopic name topic => exact h.createPublishTopic hI hallowed
  | write heap => exact h.write hI hallowed
  | publish _ _ | subscribe _ => exact hI

/-- **An action of a peer keeps the property.** -/
theorem Kept.acts (h : Kept setting M I) {log : List (ι × Message)} {i : ι}
    {s s' : Option TopicManager} {input : Input ι} {out : List Message}
    (hM : ∀ x ∈ log, M x) (hI : ∀ m, s = some m → I log i m)
    (hact : Protocol setting log i s input s' out) :
    (∀ m, s' = some m → I log i m) ∧ ∀ message ∈ out, M (i, message) := by
  cases hact with
  | @receive m m' sender message received hsent harrives hreorder =>
    have hholds := holds_of_arrives harrives
    have hafter : I log i (m.after (arrival message.kind (setting.address sender) received)) :=
      after_arrival (hI m rfl)
        (fun hk _ hm topic ht => h.discover hm hsent (hM _ hsent) hk (hholds topic ht))
        (fun hk _ hm topic ht => h.publish hm hsent (hM _ hsent) hk (hholds topic ht))
        (fun hk _ hm topic ht => h.subscribe hm hsent (hM _ hsent) hk (hholds topic ht))
    refine ⟨fun _ he => ?_, by simp⟩
    cases he
    exact h.reorder hafter hreorder
  | cut => exact ⟨by simp, by simp⟩
  | @call m m' c hallowed _ _ hreorder =>
    refine ⟨fun _ he => ?_, fun message hmessage => ?_⟩
    · cases he
      exact h.reorder (h.answer (hI m rfl) hallowed) hreorder
    · exact h.sends (hI m rfl) (sends_of_answer hmessage)
  | @refuse m m' c message _ _ _ hreorder =>
    refine ⟨fun _ he => ?_, by simp⟩
    cases he
    exact h.reorder (hI m rfl) hreorder
  | crash => exact ⟨by simp, by simp⟩
  | @announce m m' _ hreorder =>
    refine ⟨fun _ he => ?_, fun message hmessage => ?_⟩
    · cases he
      exact h.reorder (hI m rfl) hreorder
    · exact h.sends (hI m rfl) (sends_of_announcement hmessage)
  | fail => exact ⟨by simp, by simp⟩
  | @idle m m' hreorder =>
    refine ⟨fun _ he => ?_, by simp⟩
    cases he
    exact h.reorder (hI m rfl) hreorder

variable [DecidableEq ι]

theorem Kept.run_of (h : Kept setting M I) {net net' : Network ι Node.Process Bytes}
    {trace : List (Network ι Node.Process Bytes × (ι × Node.Event))}
    (hinOrder : ∀ i, InOrder (net.states i)) {log : List (ι × Message)}
    (hlog : List.Forall₂ (fun x y => x.1 = y.1 ∧ Encodes x.2 y.2) net.sent log)
    (hM : ∀ x ∈ log, M x) (hI : ∀ i m, topicsOf (net.states i) = some m → I log i m)
    (r : Run (Network.Step (Acts setting)) net trace net') :
    ∃ log', List.Forall₂ (fun x y => x.1 = y.1 ∧ Encodes x.2 y.2) net'.sent log' ∧
      (∀ x ∈ log', M x) ∧ ∀ i m, topicsOf (net'.states i) = some m → I log' i m := by
  have habstracts : Network.Abstracts topicsOf Encodes net
      ⟨fun i => topicsOf (net.states i), log⟩ := ⟨fun _ => rfl, hlog⟩
  obtain ⟨trace', net₁, r', hnet, -⟩ := exists_protocolRun hinOrder habstracts r
  have hsound := Network.Sound.run (I := fun log i s => ∀ m, s = some m → I log i m)
    (A := fun _ _ _ => True) (fun log more i s hI m he => h.mono (hI m he) more)
    (fun log i s input s' out hM hI _ hact => by
      obtain ⟨hI', hout⟩ := h.acts hM hI hact
      exact ⟨fun m he => h.mono (hI' m he) _, hout⟩) ⟨hM, hI⟩ r' fun _ _ => trivial
  exact ⟨net₁.sent, hnet.sent, hsound.sent, fun i m hi => hsound.states i m (hnet.states i ▸ hi)⟩

/-- **Every node has the property after every run** from the start. -/
theorem Kept.run (h : Kept setting M I) {heaps : ι → Heap}
    (hstart : ∀ i, I [] i (TopicManager.init (heaps i)))
    {trace : List (Network ι Node.Process Bytes × (ι × Node.Event))}
    {net : Network ι Node.Process Bytes}
    (r : Run (Network.Step (Acts setting)) (start heaps) trace net) :
    ∃ log, List.Forall₂ (fun x y => x.1 = y.1 ∧ Encodes x.2 y.2) net.sent log ∧
      (∀ x ∈ log, M x) ∧
      ∀ i node consumed, net.states i = .running node consumed → I log i node.topicManager := by
  have hM0 : ∀ x ∈ ([] : List (ι × Message)), M x := by simp
  obtain ⟨log, hlog, hM, hI⟩ := h.run_of (inOrder_start heaps) .nil hM0
    (fun i m he => by cases he; exact hstart i) r
  exact ⟨log, hlog, hM, fun i node consumed hi => hI i _ (by rw [hi]; rfl)⟩

end Runs

end Domain

end Mydds
