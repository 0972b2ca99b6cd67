import Rtstream.Lib.Runs

/-!
# Two machines and a network between them

A sender puts packets onto a network that may lose them, and may deliver them late, in another
order and more than once. So the network is the list of all packets sent so far, and a delivery
picks one of them. What goes the other way is among the inputs of the sender.

* `Contract.run`: what the sender guarantees of each packet, the receiver may rely on in each
  delivery, over every run of the two.
* `behind_run`: where a machine feeds the sender, a run is one of the two ends on what it feeds.
* `receiver_run`: the receiver's part of a run is a run of the receiver, and each packet in it was
  sent (`sent_of_mem_heard`).
-/

namespace Network

open Runs

variable {σ ι ο ρ κ ε π τ : Type*}

/-- The two ends, and what lies between them. -/
structure State (σ π ρ : Type*) where
  sender : σ
  /-- All packets sent so far. -/
  sent : List π := []
  receiver : ρ

/-- What happens next. -/
inductive Event (ι τ κ : Type*)
  | sender (i : ι)
  /-- Packet `n` of those sent so far arrives at time `t`. -/
  | deliver (n : ℕ) (t : τ)
  | receiver (k : κ)

/-- How the ends are connected: which effects of the sender are packets, and what the arrival of a
packet is to the receiver. -/
structure Wiring (σ ι ο ρ κ ε π τ : Type*) where
  sender : Machine σ ι ο
  packet : ο → Option π
  receiver : Machine ρ κ ε
  arrival : π → τ → κ

variable (w : Wiring σ ι ο ρ κ ε π τ)

namespace Wiring

/-- The packets that an input makes the sender send. -/
def packets (s : σ) (i : ι) : List π := (w.sender s i).2.filterMap w.packet

/-- What an event is to the receiver. -/
def heard (s : State σ π ρ) : Event ι τ κ → List κ
  | .sender _ => []
  | .deliver n t => s.sent[n]?.toList.map (w.arrival · t)
  | .receiver k => [k]

/-- The two ends and the network as one machine. Its effects are those of the receiver. -/
def step (s : State σ π ρ) : Event ι τ κ → State σ π ρ × List ε
  | .sender i =>
      ({ s with sender := (w.sender s.sender i).1, sent := s.sent ++ w.packets s.sender i }, [])
  | .deliver n t => match s.sent[n]? with
      | none => (s, [])
      | some p =>
          let r := w.receiver s.receiver (w.arrival p t)
          ({ s with receiver := r.1 }, r.2)
  | .receiver k =>
      let r := w.receiver s.receiver k
      ({ s with receiver := r.1 }, r.2)

end Wiring

/-! ## What both ends can rely on -/

/-- The sender keeps `I` and sends only packets that satisfy `Q`; on such packets, and on inputs of
its own that satisfy `L`, the receiver keeps `J`, with effects that satisfy `E`. -/
structure Contract (P : ι → Prop) (L : κ → Prop) (I : σ → Prop) (Q : π → Prop) (J : ρ → Prop)
    (E : ε → Prop) : Prop where
  send : ∀ s i, I s → P i → I (w.sender s i).1 ∧ ∀ p ∈ w.packets s i, Q p
  receive : ∀ r p t, J r → Q p →
    J (w.receiver r (w.arrival p t)).1 ∧ ∀ e ∈ (w.receiver r (w.arrival p t)).2, E e
  act : ∀ r k, J r → L k → J (w.receiver r k).1 ∧ ∀ e ∈ (w.receiver r k).2, E e

section Run

variable {w} {P : ι → Prop} {L : κ → Prop} {I : σ → Prop} {Q : π → Prop} {J : ρ → Prop}
  {E : ε → Prop} (h : Contract w P L I Q J E)
include h

/-- What holds all along a run. -/
theorem Contract.step {s : State σ π ρ} {e : Event ι τ κ} (hI : I s.sender)
    (hQ : ∀ p ∈ s.sent, Q p) (hJ : J s.receiver) (hP : ∀ i, e = .sender i → P i)
    (hL : ∀ k, e = .receiver k → L k) :
    (I (w.step s e).1.sender ∧ (∀ p ∈ (w.step s e).1.sent, Q p) ∧ J (w.step s e).1.receiver) ∧
      ∀ x ∈ (w.step s e).2, E x := by
  cases e with
  | sender i =>
    obtain ⟨hI', hnew⟩ := h.send s.sender i hI (hP i rfl)
    exact ⟨⟨hI', List.forall_mem_append.2 ⟨hQ, hnew⟩, hJ⟩, by simp [Wiring.step]⟩
  | deliver n t =>
    cases hn : s.sent[n]? with
    | none =>
      simp only [Wiring.step, hn]
      exact ⟨⟨hI, hQ, hJ⟩, by simp⟩
    | some p =>
      obtain ⟨hJ', hE⟩ := h.receive s.receiver p t hJ (hQ p (List.mem_of_getElem? hn))
      simp only [Wiring.step, hn]
      exact ⟨⟨hI, hQ, hJ'⟩, hE⟩
  | receiver k =>
    obtain ⟨hJ', hE⟩ := h.act s.receiver k hJ (hL k rfl)
    exact ⟨⟨hI, hQ, hJ'⟩, hE⟩

/-- **What the sender guarantees of each packet, the receiver may rely on**, however the network
loses, delays, reorders and repeats the packets. -/
theorem Contract.run {s : State σ π ρ} {es : List (Event ι τ κ)} (hI : I s.sender)
    (hQ : ∀ p ∈ s.sent, Q p) (hJ : J s.receiver) (hP : ∀ i, .sender i ∈ es → P i)
    (hL : ∀ k, .receiver k ∈ es → L k) :
    (I (after w.step s es).sender ∧ (∀ p ∈ (after w.step s es).sent, Q p) ∧
        J (after w.step s es).receiver) ∧
      ∀ x ∈ trace w.step s es, E x := by
  induction es generalizing s with
  | nil => exact ⟨⟨hI, hQ, hJ⟩, by simp⟩
  | cons e es ih =>
    obtain ⟨⟨hI', hQ', hJ'⟩, hE⟩ := h.step (e := e) hI hQ hJ (fun i hi => hP i (by simp [hi]))
      fun k hk => hL k (by simp [hk])
    obtain ⟨hrun, hE'⟩ := ih hI' hQ' hJ' (fun i hi => hP i (by simp [hi]))
      fun k hk => hL k (by simp [hk])
    exact ⟨hrun, List.forall_mem_append.2 ⟨hE, hE'⟩⟩

end Run

/-! ## The receiver's part of a run -/

theorem receiver_step (s : State σ π ρ) (e : Event ι τ κ) :
    (w.step s e).1.receiver = after w.receiver s.receiver (w.heard s e) ∧
      (w.step s e).2 = trace w.receiver s.receiver (w.heard s e) := by
  cases e with
  | sender i => exact ⟨rfl, rfl⟩
  | deliver n t =>
    simp only [Wiring.step, Wiring.heard]
    cases s.sent[n]? with
    | none => exact ⟨rfl, rfl⟩
    | some p => exact ⟨rfl, (List.append_nil _).symm⟩
  | receiver k => exact ⟨rfl, (List.append_nil _).symm⟩

/-- **The receiver's part of a run** is a run of the receiver on what it has heard. -/
theorem receiver_run (s : State σ π ρ) (es : List (Event ι τ κ)) :
    (after w.step s es).receiver = after w.receiver s.receiver (collect w.step w.heard s es) ∧
      trace w.step s es = trace w.receiver s.receiver (collect w.step w.heard s es) := by
  induction es generalizing s with
  | nil => exact ⟨rfl, rfl⟩
  | cons e es ih =>
    obtain ⟨hreceiver, htrace⟩ := receiver_step w s e
    obtain ⟨hafter, htrace'⟩ := ih (w.step s e).1
    rw [hreceiver] at hafter htrace'
    rw [after_cons, trace_cons, collect, after_append, trace_append, ← htrace, ← htrace']
    exact ⟨hafter, rfl⟩

theorem along_heard_iff {P : ρ → κ → Prop} (s : State σ π ρ) (es : List (Event ι τ κ)) :
    Along w.receiver P s.receiver (collect w.step w.heard s es) ↔
      Along w.step (fun s e => ∀ k ∈ w.heard s e, P s.receiver k) s es := by
  induction es generalizing s with
  | nil => exact Iff.rfl
  | cons e es ih =>
    rw [collect, along_append, along_cons, ← (receiver_step w s e).1, ih]
    refine and_congr_left fun _ => ?_
    cases e with
    | sender i => simp [Wiring.heard]
    | deliver n t => cases hn : s.sent[n]? <;> simp [Wiring.heard, hn]
    | receiver k => simp [Wiring.heard]

theorem sent_step (s : State σ π ρ) (e : Event ι τ κ) : s.sent <+: (w.step s e).1.sent := by
  cases e with
  | sender i => exact List.prefix_append _ _
  | deliver n t =>
    simp only [Wiring.step]
    split <;> exact List.prefix_rfl
  | receiver k => exact List.prefix_rfl

theorem sent_run (s : State σ π ρ) (es : List (Event ι τ κ)) :
    s.sent <+: (after w.step s es).sent := by
  induction es generalizing s with
  | nil => exact List.prefix_rfl
  | cons e es ih => exact (sent_step w s e).trans (ih _)

theorem sent_of_mem_heard {s : State σ π ρ} {es : List (Event ι τ κ)} {k : κ}
    (hk : k ∈ collect w.step w.heard s es) :
    (∃ p ∈ (after w.step s es).sent, ∃ t, k = w.arrival p t) ∨ .receiver k ∈ es := by
  induction es generalizing s with
  | nil => cases hk
  | cons e es ih =>
    rcases List.mem_append.1 hk with hk | hk
    · cases e with
      | sender i => cases hk
      | deliver n t =>
        obtain ⟨p, hp, rfl⟩ := List.mem_map.1 hk
        have hmem := List.mem_of_getElem? (Option.mem_toList.1 hp)
        have hsub := (sent_step w s (.deliver n t)).trans (sent_run w _ es)
        exact .inl ⟨p, hsub.subset hmem, t, rfl⟩
      | receiver k' =>
        rw [Wiring.heard, List.mem_singleton] at hk
        exact .inr (hk ▸ List.mem_cons_self)
    · exact (ih hk).imp id (List.mem_cons_of_mem e)

/-! ## A sender with a machine before it -/

/-- The inputs of the sender in a run. -/
def inputs (es : List (Event ι τ κ)) : List ι :=
  es.filterMap fun
    | .sender i => some i
    | _ => none

namespace Wiring

/-- The same ends, where the sender's inputs are the effects of `m`. -/
def behind {α β : Type*} (m : Machine α β ι) : Wiring (α × σ) β ο ρ κ ε π τ where
  sender := pipe m w.sender
  packet := w.packet
  receiver := w.receiver
  arrival := w.arrival

end Wiring

/-- What happens to the ends while `m` reads its inputs. -/
def fed {α β : Type*} (m : Machine α β ι) (a : α) : List (Event β τ κ) → List (Event ι τ κ)
  | [] => []
  | .sender i :: es => (m a i).2.map .sender ++ fed m (m a i).1 es
  | .deliver n t :: es => .deliver n t :: fed m a es
  | .receiver k :: es => .receiver k :: fed m a es

theorem inputs_fed {α β : Type*} (m : Machine α β ι) (a : α) (es : List (Event β τ κ)) :
    inputs (fed m a es) = trace m a (inputs es) := by
  induction es generalizing a with
  | nil => rfl
  | cons e es ih =>
    cases e with
    | sender i =>
      have hmap : inputs ((m a i).2.map (.sender : ι → Event ι τ κ)) = (m a i).2 := by
        rw [inputs, List.filterMap_map]
        exact List.filterMap_some
      rw [fed, inputs, List.filterMap_append]
      exact congrArg₂ (· ++ ·) hmap (ih _)
    | deliver n t => exact ih a
    | receiver k => exact ih a

theorem mem_fed_receiver {α β : Type*} {m : Machine α β ι} {a : α} {es : List (Event β τ κ)} {k : κ}
    (h : .receiver k ∈ fed m a es) : .receiver k ∈ es := by
  induction es generalizing a with
  | nil => cases h
  | cons e es ih =>
    cases e with
    | sender i =>
      rcases List.mem_append.1 h with h | h
      · obtain ⟨j, -, hj⟩ := List.mem_map.1 h
        cases hj
      · exact List.mem_cons_of_mem _ (ih h)
    | deliver n t => exact List.mem_cons_of_mem _ (ih ((List.mem_cons.1 h).resolve_left (by simp)))
    | receiver k' =>
      rcases List.mem_cons.1 h with heq | h
      · cases heq
        exact List.mem_cons_self
      · exact List.mem_cons_of_mem _ (ih h)

theorem sender_run (s : State σ π ρ) (is : List ι) :
    after w.step s (is.map .sender) =
        { s with sender := after w.sender s.sender is
                 sent := s.sent ++ (trace w.sender s.sender is).filterMap w.packet } ∧
      trace w.step s (is.map .sender) = [] := by
  induction is generalizing s with
  | nil => exact ⟨by simp, rfl⟩
  | cons i is ih =>
    obtain ⟨hafter, htrace⟩ := ih (w.step s (.sender i)).1
    constructor
    · rw [List.map_cons, after_cons, hafter, trace_cons, List.filterMap_append]
      simp [Wiring.step, Wiring.packets]
    · rw [List.map_cons, trace_cons, htrace]
      rfl

/-- **A run with a machine before the sender** is a run of the two ends, on what it feeds them. -/
theorem behind_run {α β : Type*} (m : Machine α β ι) (s : State (α × σ) π ρ)
    (es : List (Event β τ κ)) :
    let ends (s : State (α × σ) π ρ) : State σ π ρ := ⟨s.sender.2, s.sent, s.receiver⟩
    ends (after (w.behind m).step s es) = after w.step (ends s) (fed m s.sender.1 es) ∧
      trace (w.behind m).step s es = trace w.step (ends s) (fed m s.sender.1 es) := by
  intro ends
  induction es generalizing s with
  | nil => exact ⟨rfl, rfl⟩
  | cons e es ih =>
    obtain ⟨hafter, htrace⟩ := ih ((w.behind m).step s e).1
    rw [after_cons, trace_cons, hafter, htrace]
    cases e with
    | sender i =>
      obtain ⟨hsender, hnone⟩ := sender_run w (ends s) (m s.sender.1 i).2
      rw [fed, after_append, trace_append, hsender, hnone]
      exact ⟨rfl, rfl⟩
    | deliver n t =>
      rw [fed, after_cons, trace_cons]
      simp only [Wiring.step, Wiring.behind, ends]
      cases s.sent[n]? <;> exact ⟨rfl, rfl⟩
    | receiver k => exact ⟨rfl, rfl⟩

end Network
