import Rtstream.WsClients

/-!
# `ws_server.h`, `server_main.cpp`: the answers that pages find

Any number of clients, their threads and other threads that broadcast, in any order.

* `answers_in_order`: what is read off a client's connection are the frames written to it, whole and
  in order; and on each connection the answers of a client's thread are those to its texts, in order
  and none twice.
* `pings_answered`: a page finds on its connection the answer to each `ping` it has sent, once and
  in the order in which it sent them, as long as the connection holds and `clients_` has it.
-/

namespace Rtstream

open WsServer

/-! ## All of them -/

/-- The event is about the `i`-th client. -/
def WsEvent.About (i : ℕ) : WsEvent → Prop
  | .adopted _ _ => False
  | .said j _ | .sent _ j _ => j = i

theorem WsClient.about_parse (c : WsClient) (i : ℕ) (cut : Option ℕ) :
    ∀ e ∈ (c.parse i cut).2, e.About i := by
  rcases c.parse_cases i cut with ⟨text, hout, -⟩ | ⟨hout | ⟨payload, hout⟩, -⟩ <;>
    simp [hout, WsEvent.About]

theorem WsClient.about_deliver (c : WsClient) (writer : Option ℕ) (i : ℕ) (b : Broadcast)
    (seen : Bool) (cut : Option ℕ) : ∀ e ∈ (c.deliver writer i b seen cut).2, e.About i := by
  simp only [WsClient.deliver]
  split_ifs <;> simp [WsEvent.About]

@[simp] theorem WsClient.loop_deliver (c : WsClient) (writer : Option ℕ) (i : ℕ) (b : Broadcast)
    (seen : Bool) (cut : Option ℕ) : (c.deliver writer i b seen cut).1.loop = c.loop := by
  simp only [WsClient.deliver]
  split_ifs <;> rfl

@[simp] theorem WsClient.saidBy_deliver (c : WsClient) (writer : Option ℕ) (i k : ℕ)
    (b : Broadcast) (seen : Bool) (cut : Option ℕ) :
    saidBy k (c.deliver writer i b seen cut).2 = [] := by
  simp only [WsClient.deliver]
  split_ifs <;> rfl

theorem noted_adopted (i : ℕ) (wsKey stream : Bytes) :
    saidBy i [.adopted wsKey stream] = [] ∧ sentTo i [.adopted wsKey stream] = [] := ⟨rfl, rfl⟩

theorem adopted?_of_about {i : ℕ} {es : List WsEvent} (h : ∀ e ∈ es, e.About i) :
    es.filterMap WsEvent.adopted? = [] := by
  refine List.filterMap_eq_nil_iff.2 fun e he => ?_
  have habout := h e he
  cases e with
  | adopted => exact habout.elim
  | said => rfl
  | sent => rfl

theorem other_of_about {i k : ℕ} {es : List WsEvent} (h : ∀ e ∈ es, e.About i) (hne : k ≠ i) :
    saidBy k es = [] ∧ sentTo k es = [] := by
  refine ⟨List.filterMap_eq_nil_iff.2 fun e he => ?_,
    List.filterMap_eq_nil_iff.2 fun e he => ?_⟩ <;>
  · have habout := h e he
    cases e with
    | adopted => rfl
    | said | sent =>
      obtain rfl := habout
      simp [WsEvent.saidBy?, WsEvent.sentTo?, hne.symm]

theorem WsClients.update_silent (s : WsClients) (i : ℕ) (f : WsClient → WsClient) :
    (s.update i fun c => (f c, [])).2 = [] := by
  simp only [WsClients.update]
  split <;> rfl

theorem WsClients.update_update (s : WsClients) (i : ℕ) (f : WsClient → WsClient)
    (g : WsClient → WsClient × List WsEvent) :
    (s.update i fun c => (f c, [])).1.update i g = s.update i fun c => g (f c) := by
  simp only [WsClients.update]
  cases hc : s.clients[i]? with
  | none => simp only [hc]
  | some c =>
    have hlt : i < s.clients.length := (List.getElem?_eq_some_iff.1 hc).1
    simp only [List.getElem?_set_self hlt, List.set_set]

/-- What holds of all clients after a run. -/
structure WsClients.Connected (hs : HttpServer) (files : Files) (s : WsClients)
    (os : List WsEvent) : Prop where
  count : (os.filterMap WsEvent.adopted?).length = s.clients.length
  handed : ∀ p ∈ os.filterMap WsEvent.adopted?, hs.handle files p.2 = [.adopt p.1]
  new : ∀ i, s.clients.length ≤ i → saidBy i os = [] ∧ sentTo i os = []
  serves : ∀ i c p, s.clients[i]? = some c → (os.filterMap WsEvent.adopted?)[i]? = some p →
    Serves (s.first ≤ i) i p.1 (HttpServer.afterRequest p.2) c (saidBy i os) (sentTo i os)
      (c.loop.todo i)

namespace WsClients.Connected

variable {hs : HttpServer} {files : Files} {s : WsClients} {os : List WsEvent}

theorem update (h : Connected hs files s os) {i : ℕ} {f : WsClient → WsClient × List WsEvent}
    (habout : ∀ c, ∀ e ∈ (f c).2, e.About i)
    (hf : ∀ c wsKey bytes, s.clients[i]? = some c →
      Serves (s.first ≤ i) i wsKey bytes c (saidBy i os) (sentTo i os) (c.loop.todo i) →
      Serves (s.first ≤ i) i wsKey bytes (f c).1 (saidBy i os ++ saidBy i (f c).2)
        (sentTo i os ++ sentTo i (f c).2) ((f c).1.loop.todo i)) :
    Connected hs files (s.update i f).1 (os ++ (s.update i f).2) := by
  simp only [WsClients.update]
  cases hc : s.clients[i]? with
  | none => simpa using h
  | some c =>
    have hadopted : (os ++ (f c).2).filterMap WsEvent.adopted? = os.filterMap WsEvent.adopted? := by
      rw [List.filterMap_append, adopted?_of_about (habout c), List.append_nil]
    have hlt : i < s.clients.length := (List.getElem?_eq_some_iff.1 hc).1
    refine ⟨?_, hadopted ▸ h.handed, fun k hk => ?_, fun k c' p hc' hp => ?_⟩
    · rw [hadopted, List.length_set]
      exact h.count
    · rw [List.length_set] at hk
      obtain ⟨hsaid, hsent⟩ := h.new k hk
      obtain ⟨hsaid', hsent'⟩ := other_of_about (habout c) (k := k) (by omega)
      rw [saidBy_append, sentTo_append, hsaid, hsaid', hsent, hsent']
      exact ⟨rfl, rfl⟩
    · rw [hadopted] at hp
      rw [saidBy_append, sentTo_append]
      by_cases hki : k = i
      · subst hki
        rw [List.getElem?_set_self hlt] at hc'
        obtain rfl := Option.some.inj hc'
        exact hf c _ _ hc (h.serves k c p hc hp)
      · rw [List.getElem?_set_ne (Ne.symm hki)] at hc'
        obtain ⟨hsaid', hsent'⟩ := other_of_about (habout c) hki
        rw [hsaid', hsent', List.append_nil, List.append_nil]
        exact h.serves k c' p hc' hp

theorem update_silent (h : Connected hs files s os) {i : ℕ} {f : WsClient → WsClient}
    (hf : ∀ c wsKey bytes, s.clients[i]? = some c →
      Serves (s.first ≤ i) i wsKey bytes c (saidBy i os) (sentTo i os) (c.loop.todo i) →
      Serves (s.first ≤ i) i wsKey bytes (f c) (saidBy i os) (sentTo i os) ((f c).loop.todo i)) :
    Connected hs files (s.update i fun c => (f c, [])).1
      (os ++ (s.update i fun c => (f c, [])).2) := by
  refine h.update (fun c e he => by cases he) fun c wsKey bytes hc hserves => ?_
  simp only [saidBy, sentTo, List.filterMap_nil, List.append_nil]
  exact hf c wsKey bytes hc hserves

theorem deliver (h : Connected hs files s os) {writer : Option ℕ} {i : ℕ} (hother : writer ≠ some i)
    (b : Broadcast) (seen : Bool) (cut : Option ℕ) :
    Connected hs files (s.update i fun c => c.deliver writer i b seen cut).1
      (os ++ (s.update i fun c => c.deliver writer i b seen cut).2) := by
  refine h.update (fun c => c.about_deliver writer i b seen cut) fun c wsKey bytes hc hserves => ?_
  rw [WsClient.loop_deliver, WsClient.saidBy_deliver, List.append_nil]
  exact hserves.deliver (by rw [if_neg hother, List.nil_append]) (fun hself => absurd hself hother)
    seen cut

theorem goTurn (h : Connected hs files s os) (i n : ℕ) (seen : Bool) (cut : Option ℕ) :
    Connected hs files (s.goTurn i n seen cut).1 (os ++ (s.goTurn i n seen cut).2) := by
  cases hc : s.clients[i]? with
  | none => simpa [WsClients.goTurn, hc] using h
  | some c =>
    have hsame : ∀ c', s.clients[i]? = some c' → c' = c := fun c' hc' =>
      Option.some.inj (hc'.symm.trans hc)
    simp only [WsClients.goTurn, hc, Option.map_some]
    cases hloop : c.loop with
    | returned => simpa using h
    | test =>
      refine h.update_silent fun c' wsKey bytes hc' hserves => ?_
      obtain rfl := hsame c' hc'
      rw [hloop] at hserves
      have hidle : c'.loop.Idle := by rw [hloop]; trivial
      split_ifs with hrun
      · rw [Bool.and_eq_true] at hrun
        exact hserves.goto (fun _ => hserves.waits hidle) fun _ => hserves.closed hrun.1
      · exact hserves.leave _
    | receiving =>
      refine h.update_silent fun c' wsKey bytes hc' hserves => ?_
      obtain rfl := hsame c' hc'
      have htodo : (c'.recv n).loop.todo i = c'.loop.todo i := by
        rw [WsClient.recv]
        split_ifs <;> simp [WsClient.leave, WsPhase.todo, hloop]
      rw [htodo]
      exact hserves.recv hloop n
    | parsing =>
      refine h.update (fun c' => c'.about_parse i cut) fun c' wsKey bytes hc' hserves => ?_
      obtain rfl := hsame c' hc'
      rw [hloop] at hserves
      exact hserves.parse hloop cut
    | answering b =>
      refine h.update_silent fun c' wsKey bytes hc' hserves => ?_
      obtain rfl := hsame c' hc'
      have hlt : i < s.clients.length := (List.getElem?_eq_some_iff.1 hc').1
      have htodo : s.first ≤ i →
          (WsPhase.echoing b s.first s.clients.length).todo i = c'.loop.todo i := by
        intro hlisted
        rw [hloop]
        exact if_pos ⟨hlisted, hlt⟩
      have hmoved : Serves (s.first ≤ i) i wsKey bytes
          { c' with loop := .echoing b s.first s.clients.length } (saidBy i os) (sentTo i os)
          (c'.loop.todo i) :=
        hserves.goto (fun hidle => hidle.elim) fun _ => hserves.live (by rw [hloop]; trivial)
      exact hmoved.unlist fun hlisted => ⟨hlisted, htodo hlisted⟩
    | echoing b next count =>
      have hbusy : ∀ c', c' = c → c'.loop.Busy := fun c' hsame => by rw [hsame, hloop]; trivial
      by_cases hnext : next < count
      · simp only [if_pos hnext]
        by_cases hi : next = i
        · -- It writes to its own client.
          subst hi
          rw [WsClients.update_update]
          refine h.update (fun c' => WsClient.about_deliver _ _ _ b seen cut)
            fun c' wsKey bytes hc' hserves => ?_
          obtain rfl := hsame c' hc'
          have hlive : c'.session.alive = true := hserves.live (hbusy c' rfl)
          have hmoved : Serves (s.first ≤ next) next wsKey bytes
              { c' with loop := .echoing b (next + 1) count }
              (saidBy next os) (sentTo next os) (c'.loop.todo next) :=
            hserves.goto (fun hidle => hidle.elim) fun _ => hlive
          have htodo : c'.loop.todo next = [b] := by
            rw [hloop]
            exact if_pos ⟨le_rfl, hnext⟩
          have hdone : (WsPhase.echoing b (next + 1) count).todo next = [] :=
            if_neg (by omega)
          rw [WsClient.loop_deliver, WsClient.saidBy_deliver, List.append_nil]
          exact hmoved.deliver (by rw [if_pos rfl, hdone, htodo]; rfl) (fun _ => hlive) seen cut
        · have hmoved : Connected hs files
              (s.update i fun c => ({ c with loop := .echoing b (next + 1) count }, [])).1
              (os ++
                (s.update i fun c => ({ c with loop := .echoing b (next + 1) count }, [])).2) := by
            refine h.update_silent fun c' wsKey bytes hc' hserves => ?_
            have htodo : (WsPhase.echoing b (next + 1) count).todo i = c'.loop.todo i := by
              rw [hsame c' hc', hloop]
              exact if_congr (by omega) rfl rfl
            simp only [htodo]
            exact hserves.goto (fun hidle => hidle.elim) fun _ =>
              hserves.live (hbusy c' (hsame c' hc'))
          rw [WsClients.update_silent, List.append_nil] at hmoved
          exact hmoved.deliver (fun hself => hi (Option.some.inj hself).symm) b seen cut
      · simp only [if_neg hnext]
        refine h.update_silent fun c' wsKey bytes hc' hserves => ?_
        have htodo : WsPhase.parsing.todo i = c'.loop.todo i := by
          rw [hsame c' hc', hloop]
          exact (if_neg (by omega)).symm
        simp only [htodo]
        exact hserves.goto (fun hidle => hidle.elim) fun _ =>
          hserves.live (hbusy c' (hsame c' hc'))

theorem connectTurn (h : Connected hs files s os) (stream : Bytes) (cut : Option ℕ) :
    Connected hs files (s.connectTurn hs files stream cut).1
      (os ++ (s.connectTurn hs files stream cut).2) := by
  simp only [WsClients.connectTurn]
  split
  · rename_i wsKey hhandle
    by_cases hfail : (wsKey.isEmpty ||
        !(({} : Socket UInt8).send (WsBrowser.handshakeResponse wsKey) cut).2) = true
    · simpa only [if_pos hfail, List.append_nil] using h
    · have hsocket : (({} : Socket UInt8).send (WsBrowser.handshakeResponse wsKey) cut).1 =
          { stream := WsBrowser.handshakeResponse wsKey } := by
        cases cut with
        | none => rfl
        | some k => simp [Socket.send_snd] at hfail
      simp only [if_neg hfail, hsocket]
      have hnone := fun i => noted_adopted i wsKey stream
      have hadopted : (os ++ [WsEvent.adopted wsKey stream]).filterMap WsEvent.adopted? =
          os.filterMap WsEvent.adopted? ++ [(wsKey, stream)] := by
        rw [List.filterMap_append]
        rfl
      refine ⟨?_, ?_, fun i hi => ?_, fun i c p hc hp => ?_⟩
      · rw [hadopted, List.length_append, List.length_append, h.count]
        rfl
      · rw [hadopted]
        exact List.forall_mem_append.2 ⟨h.handed, by simpa using hhandle⟩
      · rw [List.length_append] at hi
        rw [saidBy_append, sentTo_append, (hnone i).1, (hnone i).2, List.append_nil,
          List.append_nil]
        exact h.new i (by omega)
      · rw [hadopted] at hp
        rw [saidBy_append, sentTo_append, (hnone i).1, (hnone i).2, List.append_nil,
          List.append_nil]
        by_cases hlt : i < s.clients.length
        · rw [List.getElem?_append_left hlt] at hc
          rw [List.getElem?_append_left (h.count ▸ hlt)] at hp
          exact h.serves i c p hc hp
        · -- It is the new one.
          obtain ⟨hsaid, hsent⟩ := h.new i (Nat.not_lt.1 hlt)
          rw [List.getElem?_append_right (Nat.not_lt.1 hlt)] at hc
          rw [List.getElem?_append_right (h.count ▸ Nat.not_lt.1 hlt), h.count] at hp
          have hzero : i - s.clients.length = 0 :=
            Nat.lt_one_iff.1 (List.getElem?_eq_some_iff.1 hc).1
          rw [hzero, List.getElem?_cons_zero, Option.some_inj] at hc hp
          subst hc hp
          rw [hsaid, hsent]
          exact Serves.start _ i _ _
  · simpa using h

theorem step (h : Connected hs files s os) (t : WsTurn) :
    Connected hs files (s.step hs files t).1 (os ++ (s.step hs files t).2) := by
  cases t with
  | connect stream cut => exact h.connectTurn stream cut
  | go i n seen cut => exact h.goTurn i n seen cut
  | broadcast i b seen cut => exact h.deliver (by simp) b seen cut
  | stop =>
    rw [WsClients.step, List.append_nil, WsClients.stopTurn]
    split
    · exact h
    · refine ⟨by rw [List.length_mapIdx]; exact h.count, h.handed, fun i hi => ?_,
        fun i c p hc hp => ?_⟩
      · exact h.new i (by rwa [List.length_mapIdx] at hi)
      · rw [List.getElem?_mapIdx] at hc
        obtain ⟨c', hc', rfl⟩ := Option.map_eq_some_iff.1 hc
        have hserves := h.serves i c' p hc' hp
        split_ifs
        · exact hserves.close id _
        · exact hserves
  | join =>
    rw [WsClients.step, List.append_nil, WsClients.joinTurn]
    split
    · exact h
    · split_ifs
      · refine ⟨h.count, h.handed, h.new, fun i c p hc hp => ?_⟩
        have hlt : i < s.clients.length := (List.getElem?_eq_some_iff.1 hc).1
        exact (h.serves i c p hc hp).unlist fun hlisted => absurd hlisted (Nat.not_le.2 hlt)
      · exact h

theorem run (hs : HttpServer) (files : Files) (ts : List WsTurn) :
    Connected hs files (Runs.after (WsClients.step hs files) {} ts)
      (Runs.trace (WsClients.step hs files) {} ts) := by
  have hstart : Connected hs files {} [] :=
    ⟨rfl, by simp, fun _ _ => ⟨rfl, rfl⟩, fun i c p hc => by cases hc⟩
  exact Runs.history (I := Connected hs files) (fun _ _ t h => h.step t) hstart ts

end WsClients.Connected

/-! ## The order of answers -/

/-- What the `i`-th client's thread has still to broadcast to the `j`-th client. -/
def WsClients.todo (s : WsClients) (i j : ℕ) : List Broadcast :=
  ((s.clients[i]?).map fun c => c.loop.todo j).getD []

theorem WsClients.todo_of_some {s : WsClients} {i : ℕ} {c : WsClient} (hc : s.clients[i]? = some c)
    (j : ℕ) : s.todo i j = c.loop.todo j := by rw [todo, hc]; rfl

/-- What happens to a client without changing where its thread is. -/
theorem WsClients.todo_update (s : WsClients) (k : ℕ) {f : WsClient → WsClient × List WsEvent}
    (hf : ∀ c j, (f c).1.loop.todo j = c.loop.todo j) (i j : ℕ) :
    (s.update k f).1.todo i j = s.todo i j := by
  simp only [WsClients.update]
  cases hc : s.clients[k]? with
  | none => rfl
  | some c =>
    by_cases hi : i = k
    · subst hi
      rw [todo_of_some (List.getElem?_set_self (List.getElem?_eq_some_iff.1 hc).1), hf,
        todo_of_some hc]
    · rw [todo, List.getElem?_set_ne (Ne.symm hi), todo]

theorem WsClients.todo_concat {s s' : WsClients} {c : WsClient} (hloop : c.loop = .test)
    (hs : s'.clients = s.clients ++ [c]) (i j : ℕ) : s'.todo i j = s.todo i j := by
  rw [todo, todo, hs, List.getElem?_append]
  split_ifs with hlt
  · rfl
  · rw [List.getElem?_eq_none (Nat.not_lt.1 hlt), List.getElem?_singleton]
    split_ifs
    · rw [Option.map_some, hloop]
      rfl
    · rfl

/-- On each connection, the answers of a client's thread are those to its texts, in order, and
what it has still to broadcast is behind them. -/
def WsClients.Ordered (s : WsClients) (os : List WsEvent) : Prop :=
  ∀ i j, (answersOf i (sentTo j os) ++ (s.todo i j).map Broadcast.frame).Sublist
    (answersTo (saidBy i os))

theorem answersOf_parse (c : WsClient) (k : ℕ) (cut : Option ℕ) (i j : ℕ) :
    answersOf i (sentTo j (c.parse k cut).2) = [] := by
  rcases c.parse_cases k cut with ⟨text, hout, -⟩ | ⟨hout | ⟨payload, hout⟩, -⟩ <;> rw [hout]
  · rfl
  · rfl
  · by_cases hj : k = j
    · simp [sentTo, WsEvent.sentTo?, hj, answersOf_pong]
    · simp [sentTo, WsEvent.sentTo?, hj, answersOf]

theorem answersOf_deliver (c : WsClient) {writer : Option ℕ} {i : ℕ} (hne : writer ≠ some i) (k : ℕ)
    (b : Broadcast) (seen : Bool) (cut : Option ℕ) (j : ℕ) :
    answersOf i (sentTo j (c.deliver writer k b seen cut).2) = [] := by
  simp only [WsClient.deliver]
  split_ifs
  · by_cases hj : k = j
    · simp [sentTo, WsEvent.sentTo?, hj, answersOf_frame, hne]
    · simp [sentTo, WsEvent.sentTo?, hj, answersOf]
  · rfl
  · rfl

theorem todo_parse (c : WsClient) (i j : ℕ) (cut : Option ℕ) :
    ((c.parse i cut).1.loop.todo j).map Broadcast.frame =
      answersTo (saidBy i (c.parse i cut).2) := by
  rcases c.parse_cases i cut with ⟨text, hout, hloop⟩ | ⟨hout, hloop⟩
  · have hsaid : saidBy i [WsEvent.said i text] = [text] := by simp [saidBy, WsEvent.saidBy?]
    rw [hout, hloop, hsaid, answersTo_singleton]
    cases echo text <;> rfl
  · have hsaid : saidBy i (c.parse i cut).2 = [] := by
      rcases hout with hout | ⟨payload, hout⟩ <;> rw [hout] <;> rfl
    rw [hsaid]
    rcases hloop with hloop | hloop <;> rw [hloop] <;> rfl

namespace WsClients.Ordered

variable {hs : HttpServer} {files : Files} {s : WsClients} {os : List WsEvent}

theorem update (h : Ordered s os) {k : ℕ} {f : WsClient → WsClient × List WsEvent}
    (hself : ∀ c j, s.clients[k]? = some c →
      (((f c).1.loop.todo j).map Broadcast.frame).Sublist
        ((c.loop.todo j).map Broadcast.frame ++ answersTo (saidBy k (f c).2)))
    (habout : ∀ c, ∀ e ∈ (f c).2, e.About k)
    (hanswers : ∀ c i j, answersOf i (sentTo j (f c).2) = []) :
    Ordered (s.update k f).1 (os ++ (s.update k f).2) := by
  simp only [WsClients.update]
  cases hc : s.clients[k]? with
  | none => simpa using h
  | some c =>
    intro i j
    have hlt : k < s.clients.length := (List.getElem?_eq_some_iff.1 hc).1
    rw [sentTo_append, answersOf_append, hanswers, List.append_nil, saidBy_append, answersTo_append]
    by_cases hi : i = k
    · subst hi
      have hold := h i j
      rw [WsClients.todo_of_some hc] at hold
      rw [WsClients.todo_of_some (List.getElem?_set_self hlt)]
      refine ((List.Sublist.refl _).append (hself c j hc)).trans ?_
      rw [← List.append_assoc]
      exact hold.append (List.Sublist.refl _)
    · have hsame : WsClients.todo { s with clients := s.clients.set k (f c).1 } i j =
          s.todo i j := by
        rw [WsClients.todo, List.getElem?_set_ne (Ne.symm hi), WsClients.todo]
      rw [hsame, (other_of_about (habout c) hi).1]
      simpa [answersTo] using h i j

theorem update_silent (h : Ordered s os) {k : ℕ} {f : WsClient → WsClient}
    (hf : ∀ c j, s.clients[k]? = some c → ((f c).loop.todo j).Sublist (c.loop.todo j)) :
    Ordered (s.update k fun c => (f c, [])).1 (os ++ (s.update k fun c => (f c, [])).2) := by
  refine h.update (fun c j hc => ?_) (fun c e he => by cases he) fun _ _ _ => rfl
  exact ((hf c j hc).map _).trans (List.sublist_append_left _ _)

theorem deliver (h : Ordered s os) (k : ℕ) (b : Broadcast) (seen : Bool) (cut : Option ℕ) :
    Ordered (s.update k fun c => c.deliver none k b seen cut).1
      (os ++ (s.update k fun c => c.deliver none k b seen cut).2) := by
  refine h.update (fun c j _ => ?_) (fun c => c.about_deliver none k b seen cut) fun c i j =>
    answersOf_deliver c (by simp) k b seen cut j
  rw [WsClient.loop_deliver]
  exact List.sublist_append_left _ _

theorem echo (h : Ordered s os) {i next count : ℕ} {c : WsClient} {b : Broadcast}
    (hc : s.clients[i]? = some c) (hloop : c.loop = .echoing b next count) (hnext : next < count)
    (seen : Bool) (cut : Option ℕ) :
    let s₁ := (s.update i fun c => ({ c with loop := .echoing b (next + 1) count }, [])).1
    let r := s₁.update next fun c => c.deliver (some i) next b seen cut
    Ordered r.1 (os ++ r.2) := by
  intro s₁ r i₀ j
  have hlt : i < s.clients.length := (List.getElem?_eq_some_iff.1 hc).1
  have hupdate : s₁ =
      { s with clients := s.clients.set i { c with loop := .echoing b (next + 1) count } } := by
    simp only [s₁, WsClients.update, hc]
  have htodo : r.1.todo i₀ j = s₁.todo i₀ j :=
    s₁.todo_update next (fun c' j => by rw [WsClient.loop_deliver]) i₀ j
  have hout : r.2 = [] ∨ r.2 = [.sent (some i) next b.frame] := by
    simp only [r, WsClients.update]
    split
    · exact .inl rfl
    · simp only [WsClient.deliver]
      split_ifs <;> simp
  have hsaid : saidBy i₀ r.2 = [] := by rcases hout with hout | hout <;> rw [hout] <;> rfl
  rw [saidBy_append, hsaid, List.append_nil, sentTo_append, answersOf_append, htodo]
  by_cases hi : i₀ = i
  · subst hi
    have hold := h i₀ j
    rw [WsClients.todo_of_some hc, hloop] at hold
    rw [hupdate, WsClients.todo_of_some (List.getElem?_set_self hlt), List.append_assoc]
    refine ((List.Sublist.refl _).append ?_).trans hold
    by_cases hj : j = next
    · -- What was to be sent to this client has been sent, or it is passed over.
      subst hj
      rw [WsPhase.todo, if_neg (by omega), WsPhase.todo, if_pos ⟨le_rfl, hnext⟩, List.map_nil,
        List.append_nil]
      rcases hout with hout | hout <;> rw [hout]
      · exact List.nil_sublist _
      · simp [sentTo, WsEvent.sentTo?, answersOf_frame]
    · have hnone : answersOf i₀ (sentTo j r.2) = [] := by
        rcases hout with hout | hout <;> rw [hout]
        · rfl
        · simp [sentTo, WsEvent.sentTo?, Ne.symm hj, answersOf]
      have hrest : (WsPhase.echoing b (next + 1) count).todo j =
          (WsPhase.echoing b next count).todo j := if_congr (by omega) rfl rfl
      rw [hnone, hrest, List.nil_append]
  · have hnone : answersOf i₀ (sentTo j r.2) = [] := by
      rcases hout with hout | hout <;> rw [hout]
      · rfl
      · by_cases hj : next = j
        · simp [sentTo, WsEvent.sentTo?, hj, answersOf_frame, Ne.symm hi]
        · simp [sentTo, WsEvent.sentTo?, hj, answersOf]
    have hrest : s₁.todo i₀ j = s.todo i₀ j := by
      rw [hupdate, WsClients.todo, List.getElem?_set_ne (Ne.symm hi), WsClients.todo]
    rw [hnone, hrest, List.append_nil]
    exact h i₀ j

theorem goTurn (h : Ordered s os) (i n : ℕ) (seen : Bool) (cut : Option ℕ) :
    Ordered (s.goTurn i n seen cut).1 (os ++ (s.goTurn i n seen cut).2) := by
  cases hc : s.clients[i]? with
  | none => simpa [WsClients.goTurn, hc] using h
  | some c =>
    have hsame : ∀ c', s.clients[i]? = some c' → c' = c := fun c' hc' =>
      Option.some.inj (hc'.symm.trans hc)
    simp only [WsClients.goTurn, hc, Option.map_some]
    cases hloop : c.loop with
    | returned => simpa using h
    | test =>
      refine h.update_silent fun c' j hc' => ?_
      split_ifs <;> exact List.nil_sublist _
    | receiving =>
      refine h.update_silent fun c' j hc' => ?_
      rw [WsClient.recv]
      split_ifs
      · exact List.nil_sublist _
      · exact List.Sublist.refl _
      · exact List.nil_sublist _
    | parsing =>
      refine h.update (fun c' j hc' => ?_) (fun c' => c'.about_parse i cut) fun c' =>
        answersOf_parse c' i cut
      rw [todo_parse]
      exact List.sublist_append_right _ _
    | answering b =>
      refine h.update_silent fun c' j hc' => ?_
      rw [hsame c' hc', hloop]
      simp only [WsPhase.todo]
      split_ifs
      · exact List.Sublist.refl _
      · exact List.nil_sublist _
    | echoing b next count =>
      by_cases hnext : next < count
      · simp only [if_pos hnext]
        exact h.echo hc hloop hnext seen cut
      · simp only [if_neg hnext]
        exact h.update_silent fun c' j hc' => List.nil_sublist _

theorem step (h : Ordered s os) (t : WsTurn) :
    Ordered (s.step hs files t).1 (os ++ (s.step hs files t).2) := by
  cases t with
  | connect stream cut =>
    intro i j
    simp only [WsClients.step, WsClients.connectTurn]
    split
    · split_ifs
      · simpa using h i j
      · rw [WsClients.todo_concat (s := s) rfl rfl, saidBy_append, sentTo_append,
          (noted_adopted i _ _).1, (noted_adopted j _ _).2, List.append_nil, List.append_nil]
        exact h i j
    · simpa using h i j
  | go i n seen cut => exact h.goTurn i n seen cut
  | broadcast i b seen cut => exact h.deliver i b seen cut
  | stop =>
    rw [WsClients.step, List.append_nil, WsClients.stopTurn]
    split
    · exact h
    · intro i j
      have hloop : ∀ i (c : WsClient), (if s.first ≤ i then { c with socket := c.socket.close }
          else c).loop = c.loop := fun i c => by split_ifs <;> rfl
      rw [WsClients.todo, List.getElem?_mapIdx, Option.map_map]
      simp only [Function.comp_def, hloop]
      exact h i j
  | join =>
    rw [WsClients.step, List.append_nil, WsClients.joinTurn]
    split
    · exact h
    · split_ifs
      · exact h
      · exact h

theorem run (hs : HttpServer) (files : Files) (ts : List WsTurn) :
    Ordered (Runs.after (WsClients.step hs files) {} ts)
      (Runs.trace (WsClients.step hs files) {} ts) :=
  Runs.history (I := Ordered) (fun _ _ t h => h.step t)
    (fun _ _ => List.Sublist.refl _ : Ordered {} []) ts

end WsClients.Ordered

/-! ## What a page finds -/

namespace WsClients

variable (hs : HttpServer) (files : Files)

/-- **Answers come in order.** Over every run, the answers that a client's thread has written to a
connection are those to some of its texts, in order and none twice; its texts are the first ones
in what the client sends behind its request; and what is read off its connection behind the
handshake are the frames written to it, whole and in order, if its pings have less than 126 bytes.
-/
theorem answers_in_order (ts : List WsTurn) :
    let s := Runs.after (step hs files) {} ts
    let os := Runs.trace (step hs files) {} ts
    (∀ i j, (answersOf i (sentTo j os)).Sublist (answersTo (saidBy i os))) ∧
      ∀ i c wsKey stream, s.clients[i]? = some c →
        (os.filterMap WsEvent.adopted?)[i]? = some (wsKey, stream) →
        hs.handle files stream = [.adopt wsKey] ∧
          saidBy i os <+: texts ((WsServer.mk true).handler.run {}
            (reader.items (HttpServer.afterRequest stream)).1).2 ∧
          (ShortPings (HttpServer.afterRequest stream) →
            (reader.items (c.socket.stream.drop (WsBrowser.handshakeResponse wsKey).length)).1 =
              (sentTo i os).map fun p => .frame p.2) := by
  intro s os
  have hconnected : Connected hs files s os := Connected.run hs files ts
  refine ⟨fun i j => (List.sublist_append_left _ _).trans (Ordered.run hs files ts i j),
    fun i c wsKey stream hc hp => ?_⟩
  have hserves := hconnected.serves i c (wsKey, stream) hc hp
  refine ⟨hconnected.handed _ (List.mem_of_getElem? hp), ?_, fun hshort => ?_⟩
  · obtain ⟨done, hitems, -, htexts, -⟩ := hserves.parsed
    rw [hitems, Framing.Handler.run_append, texts_append, htexts]
    exact List.prefix_append _ _
  · obtain ⟨hholds, hlegal⟩ := hserves.holds hshort
    rw [hholds.read (fun f hf => encodes_wire hf) (List.forall_mem_map.2 hlegal), List.map_map]
    rfl

theorem pongs_frames (frames : List WsFrame) : (frames.map .frame).filterMap WsRead.pong? =
    (frames.filter (·.opcode = 0x9)).map fun f => pongFrame f.payload := by
  induction frames with
  | nil => rfl
  | cons f frames ih =>
    rw [List.map_cons, List.filterMap_cons, ih, WsRead.pong?]
    by_cases hping : f.opcode = 0x9 <;> simp [hping]

variable {hs files}

/-- A connection that is handed over had a request for it. -/
theorem adopt_of_handle {stream wsKey : Bytes} (h : hs.handle files stream = [.adopt wsKey]) :
    ∃ r, HttpServer.readRequest stream = some r ∧ r.wsKey = wsKey := by
  unfold HttpServer.handle at h
  split at h
  · cases h
  · rename_i r hr
    split_ifs at h
    · exact ⟨r, hr, by simpa using h⟩
    · cases h
    · cases h
    · have hlast := congrArg List.getLast? h
      rw [List.getLast?_concat] at hlast
      cases hlast

/-- **A page finds the answers to its pings.** Whatever the other clients and threads do: when a
client has sent a request and then frames in which it put its messages, with ping frames of less
than 126 bytes, its thread waits for more, and the connection holds, then its connection carries
the response with the request's key and behind it whole frames; among these, its own thread has
written a pong for each ping frame, with its payload, and, if no `stop` has cleared it from
`clients_`, the answer to each message that is a `ping`, once and in order. -/
theorem pings_answered (ts : List WsTurn) {i : ℕ} {c : WsClient} {wsKey : Bytes}
    {req : ClientRequest} {frames : List ClientFrame} {msgs : List ClientMessage}
    (hreq : req.Valid)
    (hpings : ∀ f ∈ frames, f.frame.opcode = 0x9 → f.frame.payload.length < 126)
    (hmsgs : (frames.map ClientFrame.frame).filter (! isControl ·) =
      msgs.flatMap ClientMessage.frames)
    (hadopted : ((Runs.trace (step hs files) {} ts).filterMap WsEvent.adopted?)[i]? =
      some (wsKey, req.write ++ frames.flatMap ClientFrame.write))
    (hc : (Runs.after (step hs files) {} ts).clients[i]? = some c) (hopen : c.socket.fdOpen = true)
    (hloop : c.loop = .receiving) (hall : c.incoming = []) :
    let sent := sentTo i (Runs.trace (step hs files) {} ts)
    c.socket.stream =
        WsBrowser.handshakeResponse req.read.wsKey ++ (sent.map Prod.snd).flatMap WsFrame.wire ∧
      (∀ p ∈ sent, p.2.Legal) ∧
      ((Runs.after (step hs files) {} ts).first ≤ i →
        answersOf i sent = answersTo ((msgs.filter ClientMessage.isDelivered).map
          ClientMessage.bytes)) ∧
      pongsOf i sent = ((frames.map ClientFrame.frame).filter (·.opcode = 0x9)).map
        fun f => pongFrame f.payload := by
  intro sent
  have hconnected := Connected.run hs files ts
  have hserves := hconnected.serves i c _ hc hadopted
  have hread := HttpServer.readRequest_eq hreq (frames.flatMap ClientFrame.write)
  rw [HttpServer.afterRequest_write hreq] at hserves
  obtain ⟨r, hr, rfl⟩ := adopt_of_handle (hconnected.handed _ (List.mem_of_getElem? hadopted))
  obtain rfl : req.read = r := Option.some.inj (hread.symm.trans hr)
  -- Everything is read off the buffer.
  obtain ⟨done, hitems, hsession, htexts, hpongs⟩ := hserves.parsed
  have hlive : c.session.alive = true := hserves.live (by rw [hloop]; trivial)
  have hbuf : reader.items c.buf = ([], c.buf) :=
    Framing.Reader.items_of_none (hserves.waits (by rw [hloop]; trivial) hlive)
  rw [hall, List.append_nil, hbuf, List.append_nil, items_write] at hitems
  subst hitems
  have hshort : ShortPings (frames.flatMap ClientFrame.write) := by
    intro f hf hping
    rw [items_write] at hf
    simp only [List.map_map, List.mem_map, Function.comp_apply, WsRead.frame.injEq] at hf
    obtain ⟨f', hf', rfl⟩ := hf
    exact hpings f' hf' hping
  obtain ⟨hholds, hlegal⟩ := hserves.holds hshort
  refine ⟨?_, hlegal, fun hlisted => ?_, ?_⟩
  · obtain ⟨part, hstream, hwhole, -⟩ := hholds
    rw [hstream, hwhole hopen, List.append_nil]
  · have hown := hserves.own hlisted hopen
    rw [hloop] at hown
    rw [← run_messages (h := ⟨true⟩) (s := {}) rfl rfl msgs, ← hmsgs, ← run_filter_control, htexts,
      ← hown]
    exact (List.append_nil _).symm
  · rw [hpongs hopen]
    exact pongs_frames _

/-- A web server with the WebSocket server behind it. -/
def panel : HttpServer := { HttpServer.webServer with ws := true }

/-- A text in one frame. -/
def textFrame (text : Bytes) (h : text.length < 126) : ClientFrame where
  frame := { fin := true, opcode := 0x1, payload := text }
  mask := some [1, 2, 3, 4]
  form := .short
  opcode_lt := by show (0x1 : UInt8).toNat < 16; decide
  mask_length := by decide
  fits := h

/-- A ping frame. -/
def pingFrame : ClientFrame where
  frame := { fin := true, opcode := 0x9, payload := [7] }
  mask := some [5, 6, 7, 8]
  form := .short
  opcode_lt := by decide
  mask_length := by decide
  fits := by decide

/-- The texts `ping 5` and `ping 6`, with a ping between them. -/
def pingFrames : List ClientFrame :=
  [textFrame (ascii "ping 5") (by decide), pingFrame, textFrame (ascii "ping 6") (by decide)]

/-- A page connects, and its thread goes on until it waits again. -/
def pingRun : List WsTurn :=
  .connect (HttpServer.upgradeRequest.write ++ pingFrames.flatMap ClientFrame.write) none ::
    List.replicate 14 (.go 0 64 false none)

theorem pings_answered_two :
    let sent := sentTo 0 (Runs.trace (step panel fun _ => none) {} pingRun)
    answersOf 0 sent =
        [{ fin := true, opcode := 0x1, payload := ascii "pong 5" },
          { fin := true, opcode := 0x1, payload := ascii "pong 6" }] ∧
      pongsOf 0 sent = [{ fin := true, opcode := 0xA, payload := [7] }] := by
  intro sent
  let stream := HttpServer.upgradeRequest.write ++ pingFrames.flatMap ClientFrame.write
  let wsKey := ascii "dGhlIHNhbXBsZSBub25jZQ=="
  let m := step panel fun _ => none
  let s : WsClients :=
    { running := true
      clients := [{ incoming := pingFrames.flatMap ClientFrame.write
                    socket := { stream := WsBrowser.handshakeResponse wsKey } }] }
  have hconnect : m {} (.connect stream none) = (s, [.adopted wsKey stream]) := by
    have hhandle : panel.handle (fun _ => none) stream = [.adopt wsKey] := by decide +kernel
    simp only [m, step, connectTurn, hhandle]
    rw [HttpServer.afterRequest_write HttpServer.upgradeRequest_valid]
    rfl
  have hadopted : ((Runs.trace m {} pingRun).filterMap WsEvent.adopted?)[0]? =
      some (wsKey, stream) := by
    rw [pingRun, Runs.trace_cons, hconnect]
    decide +kernel
  have hidle : ((Runs.after m s (List.replicate 14 (.go 0 64 false none))).clients[0]?).map
      (fun c => (c.socket.fdOpen, c.loop, c.incoming)) = some (true, .receiving, []) := by
    decide +kernel
  obtain ⟨c, hc, hfields⟩ := Option.map_eq_some_iff.1 hidle
  simp only [Prod.mk.injEq] at hfields
  obtain ⟨hopen, hloop, hall⟩ := hfields
  have hc' : (Runs.after m {} pingRun).clients[0]? = some c := by
    rw [pingRun, Runs.after_cons, hconnect]
    exact hc
  have hlisted : (Runs.after m {} pingRun).first ≤ 0 := by
    rw [pingRun, Runs.after_cons, hconnect]
    decide +kernel
  have hanswered := @pings_answered panel (fun _ => none) pingRun 0 c wsKey
    HttpServer.upgradeRequest pingFrames [⟨true, ascii "ping 5", []⟩, ⟨true, ascii "ping 6", []⟩]
    HttpServer.upgradeRequest_valid (by decide) (by decide) hadopted hc' hopen hloop hall
  refine ⟨(hanswered.2.2.1 hlisted).trans ?_, hanswered.2.2.2.trans ?_⟩
  · decide
  · decide

end WsClients

end Rtstream
