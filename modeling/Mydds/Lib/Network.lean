import Mydds.Lib.Run
import Mathlib.Data.List.Forall2

/-!
# Networks

Parties with states of their own act one at a time, in any order.  An action may use whatever has
been sent so far, so a message may be used never, late, twice, or before an older one: the log
`sent` is all that the medium remembers.

`Sound` is an invariant in two parts: of each message, and of each party given the log.  An action
has to keep both for its own party only, `Sound.run`.  `always_iff` is the induction for a property
of the parties that some actions break.  `simulates` carries a run over to a network in which the
same parties have other states and send other messages, and `project` to one in which some of the
actions are not seen.  `exists_sender` leads from a message back to the action that has sent it, and
`exists_each` lets parties act one after another.
-/

namespace Mydds.Lib

/-- The states of the parties, and all that has been sent, with the sender. -/
structure Network (ι σ μ : Type*) where
  states : ι → σ
  sent : List (ι × μ)

namespace Network

variable {ι σ τ μ ν α β : Type*} [DecidableEq ι]

/-- Party `i` goes to the state `s` and sends `out`. -/
def move (net : Network ι σ μ) (i : ι) (s : σ) (out : List μ) : Network ι σ μ :=
  ⟨Function.update net.states i s, net.sent ++ out.map (Prod.mk i)⟩

@[simp] theorem move_sent (net : Network ι σ μ) (i : ι) (s : σ) (out : List μ) :
    (net.move i s out).sent = net.sent ++ out.map (Prod.mk i) := rfl

@[simp] theorem move_states_self (net : Network ι σ μ) (i : ι) (s : σ) (out : List μ) :
    (net.move i s out).states i = s := Function.update_self ..

theorem move_states_of_ne (net : Network ι σ μ) {i j : ι} (h : j ≠ i) (s : σ) (out : List μ) :
    (net.move i s out).states j = net.states j := Function.update_of_ne h ..

/-- A party acts on an input. -/
def Step (acts : List (ι × μ) → ι → σ → α → σ → List μ → Prop) (net : Network ι σ μ) (x : ι × α)
    (net' : Network ι σ μ) : Prop :=
  ∃ s out, acts net.sent x.1 (net.states x.1) x.2 s out ∧ net' = net.move x.1 s out

variable {acts : List (ι × μ) → ι → σ → α → σ → List μ → Prop}
  {net net' : Network ι σ μ} {trace : List (Network ι σ μ × (ι × α))}

/-- **Whatever is sent is sent by a party in an action of its own.** -/
theorem exists_sender (r : Run (Step acts) net trace net') {i : ι} {m : μ}
    (hm : (i, m) ∈ net'.sent) : (i, m) ∈ net.sent ∨ ∃ n a s out, (n, (i, a)) ∈ trace ∧
      acts n.sent i (n.states i) a s out ∧ m ∈ out := by
  induction r with
  | nil => exact Or.inl hm
  | @snoc trace n n' x _ hstep ih =>
    obtain ⟨s, out, hact, rfl⟩ := hstep
    rw [move_sent, List.mem_append] at hm
    rcases hm with hold | hnew
    · rcases ih hold with hstart | ⟨n₀, a, s₀, out₀, hmem, hsends⟩
      · exact Or.inl hstart
      · exact Or.inr ⟨n₀, a, s₀, out₀, List.mem_append_left _ hmem, hsends⟩
    · obtain ⟨m', hm', he⟩ := List.mem_map.mp hnew
      obtain ⟨rfl, rfl⟩ := Prod.mk.inj he
      exact Or.inr ⟨n, x.2, s, out, List.mem_append_right _ List.mem_cons_self, hact, hm'⟩

/-- Every message is in order, and so is every party, given the log. -/
structure Sound (M : ι × μ → Prop) (I : List (ι × μ) → ι → σ → Prop) (net : Network ι σ μ) :
    Prop where
  sent : ∀ x ∈ net.sent, M x
  states : ∀ i, I net.sent i (net.states i)

section Invariants

variable {M : ι × μ → Prop} {I : List (ι × μ) → ι → σ → Prop} {A : ι → σ → α → Prop}

/-- **An action has to keep the messages and its own party in order**, and the rest of the
network is. -/
theorem Sound.step (hmono : ∀ log more i s, I log i s → I (log ++ more) i s)
    (hacts : ∀ log i s a s' out, (∀ x ∈ log, M x) → I log i s → A i s a →
      acts log i s a s' out → I (log ++ out.map (Prod.mk i)) i s' ∧ ∀ m ∈ out, M (i, m))
    (h : net.Sound M I) {x : ι × α} (hA : A x.1 (net.states x.1) x.2)
    (hstep : Step acts net x net') : net'.Sound M I := by
  obtain ⟨s, out, hact, rfl⟩ := hstep
  obtain ⟨hs, hout⟩ := hacts _ _ _ _ _ _ h.sent (h.states x.1) hA hact
  refine ⟨fun y hy => ?_, fun j => ?_⟩
  · rw [move_sent, List.mem_append] at hy
    rcases hy with hold | hnew
    · exact h.sent y hold
    · obtain ⟨m, hm, rfl⟩ := List.mem_map.mp hnew
      exact hout m hm
  · by_cases hj : j = x.1
    · rw [hj, move_states_self]
      exact hs
    · rw [move_states_of_ne _ hj]
      exact hmono _ _ _ _ (h.states j)

/-- **What every action keeps holds at the end of every run.** -/
theorem Sound.run (hmono : ∀ log more i s, I log i s → I (log ++ more) i s)
    (hacts : ∀ log i s a s' out, (∀ x ∈ log, M x) → I log i s → A i s a →
      acts log i s a s' out → I (log ++ out.map (Prod.mk i)) i s' ∧ ∀ m ∈ out, M (i, m))
    (h : net.Sound M I) (r : Run (Step acts) net trace net')
    (hA : ∀ x ∈ trace, A x.2.1 (x.1.states x.2.1) x.2.2) : net'.Sound M I :=
  (r.restrict (A := fun n x => A x.1 (n.states x.1) x.2) hA).invariant
    (fun _ _ _ hn hstep => hn.step hmono hacts hstep.1 hstep.2) h

/-- **All parties stay good iff all actions meet the condition**, when under an invariant that is
what keeps the acting party good. -/
theorem always_iff {Q : σ → Prop} {C : List (ι × μ) → ι → σ → α → Prop}
    (hmono : ∀ log more i s, I log i s → I (log ++ more) i s)
    (hacts : ∀ log i s a s' out, (∀ x ∈ log, M x) → I log i s →
      acts log i s a s' out → I (log ++ out.map (Prod.mk i)) i s' ∧ ∀ m ∈ out, M (i, m))
    (hgood : ∀ log i s a s' out, (∀ x ∈ log, M x) → I log i s → Q s → acts log i s a s' out →
      (Q s' ↔ C log i s a))
    (h : net.Sound M I) (hQ : ∀ i, Q (net.states i)) (r : Run (Step acts) net trace net') :
    ((∀ x ∈ trace, ∀ i, Q (x.1.states i)) ∧ ∀ i, Q (net'.states i)) ↔
      ∀ x ∈ trace, C x.1.sent x.2.1 (x.1.states x.2.1) x.2.2 := by
  refine r.always_iff (I := Sound M I) (P := fun n => ∀ i, Q (n.states i))
    (C := fun n x => C n.sent x.1 (n.states x.1) x.2) (fun n x n' hn hstep => ?_)
    (fun n x n' hn hall hstep => ?_) h hQ
  · exact hn.step (A := fun _ _ _ => True) hmono
      (fun log i s a s' out hM hI _ => hacts log i s a s' out hM hI) trivial hstep
  · obtain ⟨s, out, hact, rfl⟩ := hstep
    rw [← hgood _ _ _ _ _ _ hn.sent (hn.states x.1) (hall x.1) hact]
    constructor
    · intro hall'
      have hown := hall' x.1
      rwa [move_states_self] at hown
    · intro hown j
      by_cases hj : j = x.1
      · rw [hj, move_states_self]
        exact hown
      · rw [move_states_of_ne _ hj]
        exact hall j

end Invariants

/-! ### Simulation -/

/-- The parties of `net'` are those of `net` as `abs` sees them, and the logs correspond message
by message. -/
structure Abstracts (abs : σ → τ) (E : μ → ν → Prop) (net : Network ι σ μ) (net' : Network ι τ ν) :
    Prop where
  states : ∀ i, net'.states i = abs (net.states i)
  sent : List.Forall₂ (fun x y => x.1 = y.1 ∧ E x.2 y.2) net.sent net'.sent

/-- **A simulation, action by action**: under an invariant of the parties, each action is one of
the same party in the other network, on a corresponding input. -/
theorem simulates {abs : σ → τ} {E : μ → ν → Prop} {D : α → β → Prop} {I : σ → Prop}
    {acts' : List (ι × ν) → ι → τ → β → τ → List ν → Prop}
    (hinv : ∀ log i s a s' out, I s → acts log i s a s' out → I s')
    (hacts : ∀ log log' i s a s' out,
      List.Forall₂ (fun x y => x.1 = y.1 ∧ E x.2 y.2) log log' → I s → acts log i s a s' out →
      ∃ b out', acts' log' i (abs s) b (abs s') out' ∧ D a b ∧ List.Forall₂ E out out')
    (hI : ∀ i, I (net.states i)) {net₁ : Network ι τ ν} (h : Abstracts abs E net net₁)
    (r : Run (Step acts) net trace net') :
    ∃ trace₁ net₁', Run (Step acts') net₁ trace₁ net₁' ∧ Abstracts abs E net' net₁' ∧
      List.Forall₂ (fun x y => Abstracts abs E x.1 y.1 ∧ x.2.1 = y.2.1 ∧ D x.2.2 y.2.2)
        trace trace₁ := by
  have hall : (∀ i, I (net'.states i)) ∧
      ∃ trace₁ net₁', Run (Step acts') net₁ trace₁ net₁' ∧ Abstracts abs E net' net₁' ∧
        List.Forall₂ (fun x y => Abstracts abs E x.1 y.1 ∧ x.2.1 = y.2.1 ∧ D x.2.2 y.2.2)
          trace trace₁ := by
    induction r with
    | nil => exact ⟨hI, [], net₁, .nil, h, .nil⟩
    | @snoc trace n n' x _ hstep ih =>
      obtain ⟨hn, trace₁, n₁, r₁, hn₁, htrace⟩ := ih
      obtain ⟨s, out, hact, rfl⟩ := hstep
      obtain ⟨b, out', hact', hinput, hout⟩ := hacts _ _ _ _ _ _ _ hn₁.sent (hn x.1) hact
      rw [← hn₁.states] at hact'
      refine ⟨fun j => ?_, _, _, r₁.snoc (i := (x.1, b)) ⟨abs s, out', hact', rfl⟩,
        ⟨fun j => ?_, ?_⟩, List.rel_append htrace (.cons ⟨hn₁, rfl, hinput⟩ .nil)⟩
      · by_cases hj : j = x.1
        · rw [hj, move_states_self]
          exact hinv _ _ _ _ _ _ (hn x.1) hact
        · rw [move_states_of_ne _ hj]
          exact hn j
      · by_cases hj : j = x.1
        · rw [hj, move_states_self, move_states_self]
        · rw [move_states_of_ne _ hj, move_states_of_ne _ hj]
          exact hn₁.states j
      · rw [move_sent, move_sent]
        refine List.rel_append hn₁.sent ?_
        rw [List.forall₂_map_left_iff, List.forall₂_map_right_iff]
        exact hout.imp fun _ _ he => ⟨rfl, he⟩
  exact hall.2

/-- The same network, with other states in place of those of its parties. -/
def view (abs : σ → τ) (net : Network ι σ μ) : Network ι τ μ :=
  ⟨abs ∘ net.states, net.sent⟩

theorem view_move (abs : σ → τ) (net : Network ι σ μ) (i : ι) (s : σ) (out : List μ) :
    (net.move i s out).view abs = (net.view abs).move i (abs s) out := by
  rw [view, view, move, move, Function.comp_update]

/-- What is seen of an action, and whose it is. -/
def seen (see : α → Option β) (x : ι × α) : Option (ι × β) := (see x.2).map (Prod.mk x.1)

/-- **A network in which not every action is seen**, if a party sends nothing in the others. -/
theorem project {abs : σ → τ} {see : α → Option β} {G : σ → Prop}
    {acts' : List (ι × μ) → ι → τ → β → τ → List μ → Prop}
    (hback : ∀ log i s a s' out, acts log i s a s' out → G s' → G s)
    (hacts : ∀ log i s a s' out, acts log i s a s' out → G s' →
      (see a = none ∧ abs s' = abs s ∧ out = []) ∨
        ∃ b, see a = some b ∧ acts' log i (abs s) b (abs s') out)
    (r : Run (Step acts) net trace net') (hG : ∀ i, G (net'.states i)) :
    Run (Step acts') (net.view abs)
      (trace.filterMap fun x => (seen see x.2).map (Prod.mk (x.1.view abs))) (net'.view abs) := by
  have hown : ∀ n x n', Step acts n x n' → (∀ i, G (n'.states i)) → ∃ s out,
      acts n.sent x.1 (n.states x.1) x.2 s out ∧ n' = n.move x.1 s out ∧ G s := by
    rintro n x n' ⟨s, out, hact, rfl⟩ hn'
    have hs := hn' x.1
    rw [move_states_self] at hs
    exact ⟨s, out, hact, rfl, hs⟩
  refine r.project (G := fun n => ∀ i, G (n.states i)) (fun n x n' h hn' i => ?_)
    (fun n x n' h hn' => ?_) hG
  · obtain ⟨s, out, hact, rfl, hs⟩ := hown n x n' h hn'
    by_cases hi : i = x.1
    · exact hi ▸ hback _ _ _ _ _ _ hact hs
    · have hsame := hn' i
      rwa [move_states_of_ne _ hi] at hsame
  · obtain ⟨s, out, hact, rfl, hs⟩ := hown n x n' h hn'
    rcases hacts _ _ _ _ _ _ hact hs with ⟨hsee, hsame, rfl⟩ | ⟨b, hsee, hact'⟩
    · refine Or.inl ⟨by rw [seen, hsee]; rfl, ?_⟩
      rw [view_move, hsame, move, List.map_nil, List.append_nil]
      exact congrArg (Network.mk · n.sent) (Function.update_eq_self x.1 _)
    · exact Or.inr ⟨(x.1, b), by rw [seen, hsee]; rfl, abs s, out, hact', view_move abs n x.1 s out⟩

theorem exists_of_forall₂ {R : μ → ν → Prop} {l : List μ} {l' : List ν} (h : List.Forall₂ R l l') :
    (∀ x ∈ l, ∃ y ∈ l', R x y) ∧ ∀ y ∈ l', ∃ x ∈ l, R x y := by
  induction h with
  | nil => simp
  | @cons x y l l' hxy _ ih =>
    constructor
    · intro z hz
      rcases List.mem_cons.mp hz with rfl | hmem
      · exact ⟨y, List.mem_cons_self, hxy⟩
      · obtain ⟨w, hw, hR⟩ := ih.1 z hmem
        exact ⟨w, List.mem_cons_of_mem _ hw, hR⟩
    · intro z hz
      rcases List.mem_cons.mp hz with rfl | hmem
      · exact ⟨x, List.mem_cons_self, hxy⟩
      · obtain ⟨w, hw, hR⟩ := ih.2 z hmem
        exact ⟨w, List.mem_cons_of_mem _ hw, hR⟩

end Network

end Mydds.Lib
