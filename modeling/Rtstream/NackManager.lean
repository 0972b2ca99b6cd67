import Rtstream.MediaTypes

/-!
# `nack_manager.h`: the retransmission cache

The servers remember the packets they send, newest last, and answer requests for them. A request
is a run of 6-byte records, group number and fragment number in network order.
-/

namespace Rtstream

structure RetransPacket where
  groupId : UInt32
  fragmentSeq : UInt16
  raw : Bytes
  deriving DecidableEq, Repr

structure NackManager where
  cache : ℕ
  items : List RetransPacket := []
  deriving DecidableEq, Repr

namespace NackManager

/-- `while (items_.size() >= cache_) items_.pop_front();` -/
def popOld (cache : ℕ) : List RetransPacket → List RetransPacket
  | [] => []
  | p :: items => if cache ≤ (p :: items).length then popOld cache items else p :: items

/-- `remember`: register a packet that is sent. -/
def remember (n : NackManager) (groupId : UInt32) (fragmentSeq : UInt16) (raw : Bytes) :
    NackManager :=
  if n.cache = 0 then n
  else { n with items := popOld n.cache n.items ++ [⟨groupId, fragmentSeq, raw⟩] }

/-- `find`: the newest packet with this number. -/
def find (n : NackManager) (groupId : UInt32) (fragmentSeq : UInt16) : Option RetransPacket :=
  n.items.reverse.find? fun p => p.groupId == groupId && p.fragmentSeq == fragmentSeq

/-- The `i`-th record of a request. -/
def record (payload : Bytes) (i : ℕ) : UInt32 × UInt16 :=
  (UInt32.ofNat (UdpHeader.field payload (i * 6) 4),
    UInt16.ofNat (UdpHeader.field payload (i * 6 + 4) 2))

/-- `on_nack`: the packets sent again, one for every record that is found. -/
def onNack (n : NackManager) (payload : Bytes) : List Bytes :=
  (List.range (payload.length / 6)).filterMap fun i =>
    (n.find (record payload i).1 (record payload i).2).map (·.raw)

/-- What a request makes the rest of the program see. -/
inductive NackEffect
  /-- `Metrics::nack_received++`. -/
  | received
  /-- `send_`: a packet is handed to the sender again. -/
  | send (raw : Bytes)
  /-- `Metrics::retransmit_sent++`. -/
  | retransmitted
  deriving DecidableEq, Repr

/-- One turn of the loop of `on_nack`, with its counters. The sender is set when a server
starts. -/
def answer (n : NackManager) (key : UInt32 × UInt16) : List NackEffect :=
  .received :: match n.find key.1 key.2 with
    | some p => [.send p.raw, .retransmitted]
    | none => []

/-- `on_nack`, with its counters. -/
def onNackEffects (n : NackManager) (payload : Bytes) : List NackEffect :=
  (List.range (payload.length / 6)).flatMap fun i => n.answer (record payload i)

/-- The packets that are sent. -/
def sends (es : List NackEffect) : List Bytes :=
  es.filterMap fun
    | .send raw => some raw
    | _ => none

theorem sends_append (es es' : List NackEffect) : sends (es ++ es') = sends es ++ sends es' :=
  List.filterMap_append

/-- **What a request for `keys` comes to**: the packets that are found, in the order of the
request, and the counters. -/
theorem flatMap_answer (n : NackManager) (keys : List (UInt32 × UInt16)) :
    let found := keys.filterMap fun key => (n.find key.1 key.2).map (·.raw)
    sends (keys.flatMap n.answer) = found ∧
      (keys.flatMap n.answer).count .received = keys.length ∧
      (keys.flatMap n.answer).count .retransmitted = found.length := by
  induction keys with
  | nil => exact ⟨rfl, rfl, rfl⟩
  | cons key keys ih =>
    obtain ⟨hsends, hreceived, hretransmitted⟩ := ih
    simp only [List.flatMap_cons, sends_append, hsends, List.count_append, hreceived,
      hretransmitted, List.filterMap_cons, List.length_cons]
    unfold answer
    cases n.find key.1 key.2 with
    | none => exact ⟨rfl, Nat.add_comm 1 _, Nat.zero_add _⟩
    | some p => exact ⟨rfl, Nat.add_comm 1 _, Nat.add_comm 1 _⟩

/-- The counters do not change what is sent. -/
theorem onNack_eq (n : NackManager) (payload : Bytes) :
    n.onNack payload = sends (n.onNackEffects payload) := by
  have h := (n.flatMap_answer ((List.range (payload.length / 6)).map (record payload))).1
  rw [List.flatMap_map, List.filterMap_map] at h
  exact h.symm

theorem length_popOld_lt {cache : ℕ} (h : 0 < cache) (items : List RetransPacket) :
    (popOld cache items).length < cache := by
  induction items with
  | nil => simpa [popOld] using h
  | cons p items ih =>
    rw [popOld]
    split
    · exact ih
    · omega

/-- The cache never holds more packets than it is configured for. -/
theorem length_remember_le {n : NackManager} (h : n.items.length ≤ n.cache) (g : UInt32)
    (s : UInt16) (raw : Bytes) : (n.remember g s raw).items.length ≤ n.cache := by
  unfold remember
  split
  · exact h
  · next hc =>
    have := length_popOld_lt (Nat.pos_of_ne_zero hc) n.items
    simp only [List.length_append, List.length_singleton]
    omega

end NackManager

end Rtstream
