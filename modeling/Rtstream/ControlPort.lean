import Rtstream.NackManager
import Rtstream.Lib.Runs
import Mathlib.Data.List.Pairwise

/-!
# What the servers do with what clients send

The UDP and the RTP server treat control datagrams alike. A ping registers the address it came
from and is echoed as a pong, a NACK is answered from the cache, and the rest is ignored. The
echo is sent with `raw_send`, which sends to every client.

`isolated_iff`: each pong goes to nobody but the sender of the ping it echoes, exactly when all
pings of the run come from one address. `pong_crosses` is a run with two.
-/

namespace Rtstream

structure ClientAddr where
  ip : String
  port : UInt16 := 0
  deriving DecidableEq, Repr

/-- A datagram, and where it came from. -/
structure Datagram where
  peer : ClientAddr
  buf : Bytes
  deriving DecidableEq, Repr

/-- What comes of a control datagram. -/
inductive ControlEffect
  | sendTo (client : ClientAddr) (d : Bytes)
  /-- A packet sent again goes to the simulator. -/
  | nack (e : NackManager.NackEffect)
  deriving DecidableEq, Repr

/-- The two servers with a control side. -/
inductive Link
  | udp
  | rtp
  deriving DecidableEq, Repr

/-- The control side of a server. -/
structure ControlPort where
  clients : List ClientAddr := []
  nack : NackManager
  deriving DecidableEq, Repr

namespace ControlPort

def registerClient (s : ControlPort) (a : ClientAddr) : ControlPort :=
  if a ∈ s.clients then s else { s with clients := s.clients ++ [a] }

/-- `raw_send`: to every client. -/
def rawSend (s : ControlPort) (d : Bytes) : List ControlEffect := s.clients.map (.sendTo · d)

/-- The ping with another payload type. -/
def pong (buf : Bytes) : Bytes := buf.set 3 PayloadType.statsPong.code

def handleControl (s : ControlPort) (a : ClientAddr) (h : UdpHeader) (buf : Bytes) :
    ControlPort × List ControlEffect :=
  if h.payloadType = PayloadType.statsPing.code then
    let s := s.registerClient a
    (s, s.rawSend (pong buf))
  else if h.payloadType = PayloadType.nack.code then
    (s, (s.nack.onNackEffects (buf.drop UdpHeader.kSize)).map .nack)
  else (s, [])

/-- The datagrams that are read. The RTP server also turns away what begins like an RTP packet. -/
def reads (link : Link) (buf : Bytes) : Bool :=
  UdpHeader.kSize ≤ buf.length && !(link = .rtp && buf.getD 0 0 = 0x80) && UdpHeader.magicOk buf

/-- One turn of `recv_loop`. -/
def receive (link : Link) (s : ControlPort) (d : Datagram) : ControlPort × List ControlEffect :=
  if reads link d.buf then s.handleControl d.peer (UdpHeader.read d.buf) d.buf else (s, [])

/-- The server as a machine. Each effect is kept with the datagram that caused it. -/
def step (link : Link) : Runs.Machine ControlPort Datagram (Datagram × ControlEffect) := fun s d =>
  ((s.receive link d).1, (s.receive link d).2.map (d, ·))

/-! ## Who gets an echo -/

/-- The datagram is a ping. -/
def IsPing (link : Link) (d : Datagram) : Prop :=
  reads link d.buf ∧ (UdpHeader.read d.buf).payloadType = PayloadType.statsPing.code

instance (link : Link) (d : Datagram) : Decidable (IsPing link d) :=
  inferInstanceAs (Decidable (_ ∧ _))

/-- Each pong that is sent echoes a ping of the client it is sent to. -/
def Isolated (out : List (Datagram × ControlEffect)) : Prop :=
  ∀ x ∈ out, ∀ client d, x.2 = .sendTo client d → x.1.peer = client ∧ d = pong x.1.buf

/-- An echo has the payload of its ping: the receiver takes the time in it for its own. -/
theorem hostInt64_pong (buf : Bytes) :
    hostInt64 ((pong buf).drop UdpHeader.kSize) = hostInt64 (buf.drop UdpHeader.kSize) := by
  rw [pong, List.drop_set, if_pos (by decide)]

variable {link : Link} {s : ControlPort} {d : Datagram}

theorem mem_registerClient {a b : ClientAddr} :
    b ∈ (s.registerClient a).clients ↔ b ∈ s.clients ∨ b = a := by
  unfold registerClient
  split_ifs with h
  · exact ⟨.inl, fun hb => hb.elim id fun hb => hb ▸ h⟩
  · simp

/-- A ping registers its sender, and is echoed to every client. -/
theorem receive_of_ping (h : IsPing link d) :
    s.receive link d =
      (s.registerClient d.peer, (s.registerClient d.peer).rawSend (pong d.buf)) := by
  rw [receive, if_pos h.1, handleControl, if_pos h.2]

theorem receive_of_not_ping (h : ¬ IsPing link d) :
    (s.receive link d).1 = s ∧ ∀ e ∈ (s.receive link d).2, ∃ e', e = .nack e' := by
  rw [receive]
  split_ifs with hreads
  · rw [handleControl, if_neg fun htype => h ⟨hreads, htype⟩]
    split_ifs
    · refine ⟨rfl, fun e he => ?_⟩
      obtain ⟨e', -, rfl⟩ := List.mem_map.mp he
      exact ⟨e', rfl⟩
    · exact ⟨rfl, by simp⟩
  · exact ⟨rfl, by simp⟩

theorem mem_clients_step {a : ClientAddr} :
    a ∈ (step link s d).1.clients ↔ a ∈ s.clients ∨ IsPing link d ∧ a = d.peer := by
  show a ∈ (s.receive link d).1.clients ↔ _
  by_cases h : IsPing link d
  · rw [receive_of_ping h, mem_registerClient]
    simp [h]
  · rw [(receive_of_not_ping h).1]
    simp [h]

/-- One datagram's echoes go where they belong when it is no ping, or the only clients there are
is its sender. -/
theorem isolated_step :
    Isolated (step link s d).2 ↔ (IsPing link d → ∀ a ∈ s.clients, a = d.peer) := by
  constructor
  · intro h hping a ha
    have hmem : (d, .sendTo a (pong d.buf)) ∈ (step link s d).2 := by
      have hclient : a ∈ (s.registerClient d.peer).clients := mem_registerClient.mpr (.inl ha)
      simp only [step, receive_of_ping hping, rawSend, List.map_map, List.mem_map]
      exact ⟨a, hclient, rfl⟩
    exact (h _ hmem a _ rfl).1.symm
  · intro h x hx client e he
    by_cases hping : IsPing link d
    · simp only [step, receive_of_ping hping, rawSend, List.map_map, List.mem_map] at hx
      obtain ⟨a, ha, rfl⟩ := hx
      obtain ⟨rfl, rfl⟩ : a = client ∧ pong d.buf = e := by simpa using he
      rcases mem_registerClient.mp ha with ha | rfl
      · exact ⟨(h hping a ha).symm, rfl⟩
      · exact ⟨rfl, rfl⟩
    · obtain ⟨y, hy, rfl⟩ := List.mem_map.mp hx
      obtain ⟨e', rfl⟩ := (receive_of_not_ping hping).2 y hy
      cases he

theorem isolated_append {out out' : List (Datagram × ControlEffect)} :
    Isolated (out ++ out') ↔ Isolated out ∧ Isolated out' := List.forall_mem_append

theorem isolated_trace (ds : List Datagram) :
    Isolated (Runs.trace (step link) s ds) ↔
      (∀ a ∈ s.clients, ∀ e ∈ ds, IsPing link e → a = e.peer) ∧
        ds.Pairwise fun d e => IsPing link d → IsPing link e → d.peer = e.peer := by
  induction ds generalizing s with
  | nil => simp [Isolated]
  | cons d ds ih =>
    rw [Runs.trace_cons, isolated_append, isolated_step, ih, List.pairwise_cons]
    constructor
    · rintro ⟨hd, hds, hpair⟩
      refine ⟨fun a ha => List.forall_mem_cons.mpr ⟨fun hping => hd hping a ha, fun e he =>
        hds a (mem_clients_step.mpr (.inl ha)) e he⟩, fun e he hping => ?_, hpair⟩
      exact hds d.peer (mem_clients_step.mpr (.inr ⟨hping, rfl⟩)) e he
    · rintro ⟨hclients, hd, hpair⟩
      refine ⟨fun hping a ha => hclients a ha d List.mem_cons_self hping,
        fun a ha e he => ?_, hpair⟩
      rcases mem_clients_step.mp ha with ha | ⟨hping, rfl⟩
      · exact hclients a ha e (List.mem_cons_of_mem d he)
      · exact hd e he hping

/-- **Pings stay apart exactly when there is one client to ping.** Over every run of either server,
from no clients, each pong echoes a ping of the client it is sent to if and only if no two pings
of the run come from different addresses. -/
theorem isolated_iff (link : Link) (n : NackManager) (ds : List Datagram) :
    Isolated (Runs.trace (step link) { nack := n } ds) ↔
      ∀ d ∈ ds, ∀ e ∈ ds, IsPing link d → IsPing link e → d.peer = e.peer := by
  rw [isolated_trace]
  constructor
  · rintro ⟨-, hpair⟩ d hd e he
    have hsymm : Std.Symm fun d e : Datagram => IsPing link d → IsPing link e → d.peer = e.peer :=
      ⟨fun d e h he hd => (h hd he).symm⟩
    exact hpair.forall_of_forall (fun d _ _ _ => rfl) hd he
  · intro h
    exact ⟨by simp, List.pairwise_of_forall_mem_list h⟩

/-- A ping sent at time `sent`, from the port. -/
def pingFrom (port : UInt16) (sent : UInt8) : Datagram :=
  { peer := { ip := "10.0.0.1", port := port }
    buf := { payloadType := PayloadType.statsPing.code : UdpHeader }.write ++
      [sent, 0, 0, 0, 0, 0, 0, 0] }

/-- **Another client's time.** The second ping, sent at 7 from port 2, is echoed to port 1. -/
theorem pong_crosses :
    ¬ Isolated
      (Runs.trace (step .udp) { nack := { cache := 4 } } [pingFrom 1 5, pingFrom 2 7]) := by
  intro h
  have hmem : (pingFrom 2 7, .sendTo (pingFrom 1 5).peer (pong (pingFrom 2 7).buf)) ∈
      Runs.trace (step .udp) { nack := { cache := 4 } } [pingFrom 1 5, pingFrom 2 7] := by decide
  exact absurd (h _ hmem _ _ rfl).1 (by decide)

end ControlPort

end Rtstream
