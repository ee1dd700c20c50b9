import Mydds.Node.Discovery
import Mydds.Lib.FirstCome

/-!
# The order of announcements

What announcements leave is a directory of names by path, `nameAt`, and it is filled on a first
come, first served basis: a name is stored at its path unless it is published here or a path that
it matches as a pattern is taken.  `nameAt_run` makes `FirstCome` the abstract model of a run of
`Discover` packets, and what a search finds is a function of the directory (`names_congr`).

So packets whose names are not in each other's way can be exchanged (`arrival_order`), and for
two announcements that is exact (`nameAt_announce_comm_iff`): of `a` and `+` both are stored if
`+` comes first, and one if it does not.
-/

namespace Mydds.TopicManager

open Lib

/-- The name of the topic at a path. -/
def nameAt (m : TopicManager) (key : List Token) : Option Bytes :=
  (m.topics.get key).map fun t => (m.heap.topics t).getName

/-- The names that a lookup finds, each as often as it is found. -/
def names (m : TopicManager) (pattern : Bytes) : Multiset Bytes :=
  (m.getTopics pattern : Multiset TopicPtr).map fun t => (m.heap.topics t).getName

/-- Names are stored at their paths, and ask for the paths that they match. -/
def admission (m : TopicManager) : FirstCome Bytes (List Token) where
  place name := Trie.split name slash
  asks name key := wildMatch plus hash (Trie.split name slash) key = true
  asks_place name := wildMatch_self plus hash (Trie.split name slash)
  barred name := m.publishingTopics.count name = true

/-- The name is neither published here nor taken. -/
def Unclaimed (m : TopicManager) (name : Bytes) : Prop :=
  m.publishingTopics.count name = false ∧ m.getTopics name = []

/-- Of two different unclaimed names in the two packets, none matches the path of the other. -/
def Independent (m : TopicManager) (items items' : List TopicName) : Prop :=
  ∀ item ∈ items, ∀ item' ∈ items', item.name ≠ item'.name →
    m.Unclaimed item.name → m.Unclaimed item'.name →
    ¬ wildMatch plus hash (Trie.split item.name slash) (Trie.split item'.name slash) = true ∧
    ¬ wildMatch plus hash (Trie.split item'.name slash) (Trie.split item.name slash) = true

theorem names_congr {m m' : TopicManager} (h : m.nameAt = m'.nameAt) (pattern : Bytes) :
    m.names pattern = m'.names pattern := by
  rw [names, names, getTopics_eq, getTopics_eq, Trie.find_toMap, Trie.find_toMap]
  refine WildMap.map_search_congr plus hash (fun key => ?_) _
  rw [Trie.lookup_toMap, Trie.lookup_toMap]
  exact congrFun h key

theorem Reorder.nameAt_eq {m m' : TopicManager} (h : m.Reorder m') : m.nameAt = m'.nameAt := by
  funext key
  rw [nameAt, nameAt, h.topics.get_eq, h.heap]

/-- A name is free in the directory iff it is unclaimed. -/
theorem free_nameAt_iff (m : TopicManager) (name : Bytes) :
    m.admission.Free m.nameAt name ↔ m.Unclaimed name := by
  have hnames : (∀ key, wildMatch plus hash (Trie.split name slash) key = true →
      m.nameAt key = none) ↔ m.getTopics name = [] := by
    constructor
    · intro h
      refine List.eq_nil_iff_forall_not_mem.mpr fun t ht => ?_
      obtain ⟨key, hget, hmatch⟩ := (m.mem_getTopics_iff name t).mp ht
      have hnone := h key hmatch
      rw [nameAt, hget] at hnone
      cases hnone
    · intro hnil key hmatch
      rw [nameAt, get_of_getTopics_nil hnil hmatch]
      rfl
  unfold Unclaimed
  rw [← hnames, ← Bool.not_eq_true]
  exact Iff.rfl

/-- What the packets keep: the stored objects exist, and the names that are published. -/
structure Receiving (m0 m : TopicManager) : Prop where
  allocated : m.Allocated
  published : ∀ name, m.publishingTopics.count name = m0.publishingTopics.count name

theorem Receiving.admission_eq {m0 m : TopicManager} (h : m0.Receiving m) :
    m.admission = m0.admission := by
  unfold admission
  simp only [h.published]

theorem Receiving.announce {m0 m : TopicManager} (h : m0.Receiving m) (addr : SockaddrIn)
    (item : TopicName) : m0.Receiving (Node.announce addr m item) := by
  refine ⟨Node.allocated_announce h.allocated addr item, fun name => ?_⟩
  rw [(Node.announce_registries addr m item).1, h.published]

theorem Receiving.reorder {m0 m m' : TopicManager} (h : m0.Receiving m) (hreorder : m.Reorder m') :
    m0.Receiving m' := by
  refine ⟨fun key t hget => ?_, fun name => ?_⟩
  · rw [← hreorder.heap]
    exact h.allocated key t (by rw [hreorder.topics.get_eq, hget])
  · rw [← h.published, UnorderedMap.count, UnorderedMap.count, hreorder.publishingTopics.find_eq]

theorem Receiving.foldl {m0 m : TopicManager} (h : m0.Receiving m) (addr : SockaddrIn)
    (items : List TopicName) : m0.Receiving (items.foldl (Node.announce addr) m) :=
  foldl_invariant (fun _ item h => h.announce addr item) items m h

theorem nameAt_announce_of_get {m : TopicManager} (h : m.Allocated) (addr : SockaddrIn)
    {item : TopicName} {key : List Token}
    (hget : (Node.announce addr m item).topics.get key = m.topics.get key) :
    (Node.announce addr m item).nameAt key = m.nameAt key := by
  rw [nameAt, nameAt, hget]
  cases hold : m.topics.get key with
  | none => rfl
  | some t =>
    obtain ⟨-, hheap, -⟩ := Node.announce_heap addr m item
    rw [Option.map_some, Option.map_some, hheap t (h key t hold)]

theorem nameAt_announce {m : TopicManager} (h : m.Allocated) (addr : SockaddrIn)
    (item : TopicName) :
    (Node.announce addr m item).nameAt = m.admission.record m.nameAt item.name := by
  funext key
  rcases Node.announce_cases addr m item with ⟨hclaimed, htopics⟩ | ⟨hcount, hnil, htopics⟩
  · have hnotfree : ¬ m.admission.Free m.nameAt item.name := by
      rw [free_nameAt_iff]
      intro hfree
      rcases hclaimed with hcount | hne
      · rw [hfree.1] at hcount
        cases hcount
      · exact hne hfree.2
    rw [FirstCome.record_of_not_free hnotfree]
    exact nameAt_announce_of_get h addr (by rw [htopics])
  · have hfree := (m.free_nameAt_iff item.name).mpr ⟨hcount, hnil⟩
    rw [FirstCome.record_apply hfree]
    show _ = if key = Trie.split item.name slash then some item.name else m.nameAt key
    split
    · rename_i hkey
      rw [nameAt, hkey, Node.get_announce_self addr hcount hnil, Option.map_some,
        Node.getName_announce]
    · rename_i hkey
      exact nameAt_announce_of_get h addr (by rw [htopics, Trie.get_insert, if_neg hkey])

theorem nameAt_foldl {m0 : TopicManager} (addr : SockaddrIn) {items : List TopicName} :
    ∀ {m : TopicManager}, m0.Receiving m → (items.foldl (Node.announce addr) m).nameAt
      = (items.map (·.name)).foldl m0.admission.record m.nameAt := by
  induction items with
  | nil => exact fun _ => rfl
  | cons item items ih =>
    intro m h
    have hrest := ih (h.announce addr item)
    rw [nameAt_announce h.allocated, h.admission_eq] at hrest
    exact hrest

/-- **Two announcements can be exchanged iff they are independent.** -/
theorem nameAt_announce_comm_iff {m : TopicManager} (h : m.Allocated) (addr addr' : SockaddrIn)
    (item item' : TopicName) :
    (Node.announce addr' (Node.announce addr m item) item').nameAt
        = (Node.announce addr (Node.announce addr' m item') item).nameAt ↔
      m.Independent [item] [item'] := by
  have hstart : m.Receiving m := ⟨h, fun _ => rfl⟩
  have hfirst := hstart.announce addr item
  have hfirst' := hstart.announce addr' item'
  rw [nameAt_announce hfirst.allocated, hfirst.admission_eq, nameAt_announce hfirst'.allocated,
    hfirst'.admission_eq, nameAt_announce h, nameAt_announce h, FirstCome.record_comm_iff]
  simp only [Independent, List.forall_mem_singleton, ← free_nameAt_iff]
  exact Iff.rfl

/-! ### Runs of packets -/

/-- A `Discover` packet comes from an address, with its items. -/
def Receives (m : TopicManager) (packet : SockaddrIn × List TopicName) (m' : TopicManager) : Prop :=
  m.Handles (.discover packet.1 packet.2) m'

theorem Receiving.receives {m0 m m' : TopicManager} {packet : SockaddrIn × List TopicName}
    (h : m0.Receiving m) (hstep : m.Receives packet m') : m0.Receiving m' :=
  (h.foldl packet.1 packet.2).reorder (Handles.reorder hstep)

/-- **The directory is the abstract state**: a run of packets records their names. -/
theorem nameAt_run {m m' : TopicManager} (h : m.Allocated)
    {trace : List (TopicManager × SockaddrIn × List TopicName)} (r : Run Receives m trace m') :
    m'.nameAt = ((trace.map Prod.snd).map fun packet => packet.2.map (·.name)).foldl
      (fun d names => names.foldl m.admission.record d) m.nameAt := by
  have hstart : m.Receiving m := ⟨h, fun _ => rfl⟩
  rw [List.foldl_map]
  refine r.simulates_of_invariant (I := m.Receiving) (fun _ _ _ h hstep => h.receives hstep)
    (fun m1 packet m2 h1 hstep => ?_) hstart
  rw [← nameAt_foldl packet.1 h1, ← (Handles.reorder hstep).nameAt_eq]
  rfl

theorem Independent.apart {m : TopicManager} {items items' : List TopicName}
    (h : m.Independent items items') : ∀ name ∈ items.map (·.name),
      ∀ name' ∈ items'.map (·.name), m.admission.Apart m.nameAt name name' := by
  intro name hname name' hname' hne hfree hfree'
  obtain ⟨item, hitem, rfl⟩ := List.mem_map.mp hname
  obtain ⟨item', hitem', rfl⟩ := List.mem_map.mp hname'
  rw [free_nameAt_iff] at hfree hfree'
  exact h item hitem item' hitem' hne hfree hfree'

/-- **Arrival order.**  Two runs of the same packets lead to the same names for every pattern, if
only packets that are independent have changed places. -/
theorem arrival_order {m m1 m2 : TopicManager} (hm : m.Allocated)
    {trace trace' : List (TopicManager × SockaddrIn × List TopicName)}
    (r : Run Receives m trace m1) (r' : Run Receives m trace' m2)
    (h : Rearranged (fun packet packet' => m.Independent packet.2 packet'.2)
      (trace.map Prod.snd) (trace'.map Prod.snd)) (pattern : Bytes) :
    m1.names pattern = m2.names pattern := by
  refine names_congr ?_ pattern
  rw [nameAt_run hm r, nameAt_run hm r']
  exact FirstCome.foldl_groups (h.map fun _ _ hind => hind.apart)

/-- A manager that has not been told of any topic. -/
def untold : TopicManager := init ⟨fun _ => Topic.ofName [], 0⟩

theorem allocated_untold : untold.Allocated := by
  intro key t hget
  rw [untold, init, Trie.get_empty] at hget
  cases hget

/-- A packet with one item. -/
def packetOf (name : Bytes) : SockaddrIn × List TopicName := (⟨(10, 0, 0, 1), (0, 80)⟩, [⟨1, name⟩])

/-- The state after two such packets. -/
def toldBoth (name name' : Bytes) : TopicManager :=
  (untold.after (.discover (packetOf name).1 (packetOf name).2)).after
    (.discover (packetOf name').1 (packetOf name').2)

theorem run_both (name name' : Bytes) :
    ∃ trace, Run Receives untold trace (toldBoth name name') ∧
      trace.map Prod.snd = [packetOf name, packetOf name'] := by
  have hfirst : untold.Receives (packetOf name)
      (untold.after (.discover (packetOf name).1 (packetOf name).2)) :=
    ⟨_, handle_eq _ _, Reorder.refl _⟩
  have hsecond : Receives _ (packetOf name') (toldBoth name name') :=
    ⟨_, handle_eq _ _, Reorder.refl _⟩
  exact ⟨_, (Run.single hfirst).snoc hsecond, rfl⟩

/-- The topics `"a"` and `"b"` are announced in both orders. -/
theorem arrival_order_letters :
    (toldBoth [97] [98]).names [35] = (toldBoth [98] [97]).names [35] := by
  obtain ⟨trace, hrun, htrace⟩ := run_both [97] [98]
  obtain ⟨trace', hrun', htrace'⟩ := run_both [98] [97]
  refine arrival_order allocated_untold hrun hrun' ?_ [35]
  rw [htrace, htrace']
  refine Rearranged.of_perm (List.Perm.swap ..) ?_
  rw [List.pairwise_pair]
  intro item hitem item' hitem' _ _ _
  rw [List.mem_singleton.mp hitem, List.mem_singleton.mp hitem']
  decide

/-- Of `"a"` and `"+"` both are found if `"+"` comes first, and else one. -/
theorem arrival_order_fails : ¬ ∀ (m m1 m2 : TopicManager)
    (trace trace' : List (TopicManager × SockaddrIn × List TopicName)), m.Allocated →
    Run Receives m trace m1 → Run Receives m trace' m2 →
    (trace.map Prod.snd).Perm (trace'.map Prod.snd) →
    ∀ pattern, m1.names pattern = m2.names pattern := by
  intro hclaim
  obtain ⟨trace, hrun, htrace⟩ := run_both [97] [43]
  obtain ⟨trace', hrun', htrace'⟩ := run_both [43] [97]
  have hperm : (trace.map Prod.snd).Perm (trace'.map Prod.snd) := by
    rw [htrace, htrace']
    exact List.Perm.swap ..
  have hnames := hclaim untold _ _ trace trace' allocated_untold hrun hrun' hperm [35]
  exact absurd hnames (by decide)

end Mydds.TopicManager
