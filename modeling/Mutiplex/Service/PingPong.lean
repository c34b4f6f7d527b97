/-
# Ping-pong

The ping-pong benchmark, a client and a server with a TCP connection between them.
The client greets the server with a block, and from then on both write back what
they read.  `PingPong` is the client's loop and the server's; the network gives
each side the bytes the other has put on the wire, in their order, when and in
what pieces it likes.

The block goes round: the streams repeat it, and what is on the way, in the
network and in the two programs, is always as long as the block.
-/

import Mathlib.Data.List.PeriodicityLemma
import Mutiplex.Service.Echo

namespace Mutiplex

open CMemory Transition

variable {τ : Type} [DecidableEq τ]

/-- A list that starts with a block and goes on with a prefix of itself repeats the
block. -/
theorem getElem?_of_round {α : Type} {block rest stream : List α}
    (hstream : stream <+: block ++ rest) (hrest : rest <+: stream) (hblock : 0 < block.length)
    {i : ℕ} (hi : i < stream.length) : stream[i]? = block[i % block.length]? := by
  have hperiod : stream.HasPeriod block.length := by
    rcases Nat.le_total stream.length block.length with hshort | hlong
    · exact List.hasPeriod_of_length_le stream _ hshort
    · have hfirst : block <+: stream :=
        List.prefix_of_prefix_length_le (List.prefix_append _ _) hstream hlong
      rw [List.HasPeriod, ← List.prefix_iff_eq_take.mp hfirst]
      exact hstream.trans ((List.prefix_append_right_inj block).mpr hrest)
  have hmod : i % block.length < stream.length := Nat.lt_of_le_of_lt (Nat.mod_le _ _) hi
  have hsame := List.prefix_iff_getElem?.mp hstream _ hmod
  rw [List.getElem?_append_left (Nat.mod_lt i hblock)] at hsame
  rw [hsame, ← hperiod.getElem?_mod _ _ _ hi, List.getElem?_eq_getElem hmod]

namespace Service

/-- `EchoServer` of the ping-pong benchmark. -/
def pingPongServer : Program where
  callbacks := ⟨false, true, false, false⟩
  receiveCapacity := 64 * 1024
  onEstablished _ _ := []
  onRead c data := [.writeData c data]

/-- `Client` of the ping-pong benchmark: `on_connect_success` and the
`set_read_callback` behind it, and `read_callback`. -/
def pingPongClient (block : List UInt8) : Program where
  callbacks := ⟨true, false, false, false⟩
  receiveCapacity := 6 * 1024 * 1024
  onEstablished c _ := [.writeData c block, .setCallbacks c ⟨true, true, false, false⟩]
  onRead c data := [.writeData c data]

theorem pingPongServer_relays : pingPongServer.Relays [] :=
  ⟨fun _ _ => rfl, Or.inl ⟨rfl, rfl, fun _ _ => rfl⟩⟩

theorem pingPongClient_relays (block : List UInt8) : (pingPongClient block).Relays block :=
  ⟨fun _ _ => rfl, Or.inr ⟨rfl, fun _ _ => rfl⟩⟩

/-- The network gives the connection the next bytes of the stream. -/
def Delivers (stream : List Cell) (c : ConnId) (e : Service τ) : Action τ → Prop
  | .read data => e.reader data.length = some c → (e.received c ++ data).map some <+: stream
  | _ => True

instance (stream : List Cell) (c : ConnId) (e : Service τ) (action : Action τ) :
    Decidable (e.Delivers stream c action) := by
  unfold Delivers
  split <;> infer_instance

section Streams

variable {program : Program} {e e' : Service τ} {action : Action τ} {c : ConnId}

/-- What is on the wire stays there. -/
theorem wire_grows (h : e.step program action = .next e') (c : ConnId) :
    e.wire c <+: e'.wire c := by
  obtain ⟨worldAction, -, -, -, hwire, -⟩ := step_eq_next h
  rw [hwire]
  by_cases hjob : ∃ job, e.world.job worldAction = some (c, job)
  · obtain ⟨job, hjob⟩ := hjob
    cases hconn : e.world.conns c with
    | none => simp [World.note, hjob, hconn]
    | some conn =>
        rw [World.note_of_job hjob hconn]
        exact List.prefix_append _ _
  · rw [World.note_of_no_job (not_exists.mp hjob)]

/-- What was read is what the network gave. -/
theorem received_of_delivers {stream : List Cell} (h : e.step program action = .next e')
    (hdelivers : e.Delivers stream c action) (hold : (e.received c).map some <+: stream) :
    (e'.received c).map some <+: stream := by
  obtain ⟨worldAction, haction, -, -, -, hreceived, -⟩ := step_eq_next h
  rw [hreceived]
  cases action with
  | read data =>
      cases hother : e.reader data.length with
      | none => simpa [receivedBy, hother] using hold
      | some other =>
          simp only [receivedBy, hother]
          by_cases hc : c = other
          · subst hc
            rw [Function.update_self]
            exact hdelivers hother
          · rwa [Function.update_of_ne hc]
  | _ => exact hold

end Streams

end Service

/-- The two loops. -/
structure PingPong (τ : Type) where
  client : Service τ
  server : Service τ

namespace PingPong

/-- One step of either side. -/
inductive Action (τ : Type)
  | client (action : Service.Action τ)
  | server (action : Service.Action τ)

/-- One step, where the client's connection `c` is connected to the server's `s`. -/
def step (block : List UInt8) (c s : ConnId) (p : PingPong τ) :
    Action τ → Outcome (PingPong τ) Fault
  | .client action =>
      if p.client.Delivers (p.server.wire s) c action then
        (p.client.step (Service.pingPongClient block) action).andThen fun client =>
          .next { p with client := client }
      else .blocked
  | .server action =>
      if p.server.Delivers (p.client.wire c) s action then
        (p.server.step Service.pingPongServer action).andThen fun server =>
          .next { p with server := server }
      else .blocked

/-- The benchmark as a machine. -/
def machine (block : List UInt8) (c s : ConnId) : Machine (PingPong τ) (Action τ) Fault where
  Init p := ∃ thread thread', p = ⟨.new thread, .new thread'⟩
  step p action := p.step block c s action

/-- Neither backlog exceeds 2^31 bytes, and neither buffer loses what it is given. -/
def Keeps (block : List UInt8) (c s : ConnId) (p : PingPong τ) : Action τ → Prop
  | .client action => p.client.Keeps (Service.pingPongClient block) c action
  | .server action => p.server.Keeps Service.pingPongServer s action

variable {block : List UInt8} {c s : ConnId} {p : PingPong τ}

instance : DecidableRel (Keeps (τ := τ) block c s) := fun p action =>
  match action with
  | .client action =>
      inferInstanceAs (Decidable (p.client.Keeps (Service.pingPongClient block) c action))
  | .server action =>
      inferInstanceAs (Decidable (p.server.Keeps Service.pingPongServer s action))

/-- Each side's run is a run of its own, and reads what the other has sent. -/
structure Joined (block : List UInt8) (c s : ConnId) (p : PingPong τ) : Prop where
  client : (Service.machine (Service.pingPongClient block)).Reach
    (Service.Keeps (Service.pingPongClient block) c) p.client
  server : (Service.machine Service.pingPongServer).Reach
    (Service.Keeps Service.pingPongServer s) p.server
  toServer : (p.server.received s).map some <+: p.client.wire c
  toClient : (p.client.received c).map some <+: p.server.wire s

theorem reach_joined (h : (machine block c s).Reach (Keeps block c s) p) : Joined block c s p := by
  refine h.invariant (Joined block c s) ?_ ?_
  · rintro _ ⟨thread, thread', rfl⟩
    exact ⟨.init ⟨thread, rfl⟩, .init ⟨thread', rfl⟩, List.nil_prefix, List.nil_prefix⟩
  · intro source action target _ hold hok hstep
    cases action with
    | client action =>
        simp only [machine, step] at hstep
        split at hstep
        · rename_i hdelivers
          obtain ⟨client, hnext, htarget⟩ := Outcome.andThen_eq_next.mp hstep
          cases htarget
          exact ⟨.step hold.client hok hnext, hold.server,
            hold.toServer.trans (Service.wire_grows hnext c),
            Service.received_of_delivers hnext hdelivers hold.toClient⟩
        · cases hstep
    | server action =>
        simp only [machine, step] at hstep
        split at hstep
        · rename_i hdelivers
          obtain ⟨server, hnext, htarget⟩ := Outcome.andThen_eq_next.mp hstep
          cases htarget
          exact ⟨hold.client, .step hold.server hok hnext,
            Service.received_of_delivers hnext hdelivers hold.toServer,
            hold.toClient.trans (Service.wire_grows hnext s)⟩
        · cases hstep

/-- The bytes inside a program that are on their way out. -/
def inside (e : Service τ) (c : ConnId) (conn : Connection) : ℕ :=
  conn.contents.length + (e.waiting c).length + (e.dueFor c).length

/-- The bytes that are on their way, in the network and in the two programs. -/
def onTheWay (c s : ConnId) (p : PingPong τ) (conn conn' : Connection) : ℕ :=
  ((p.client.wire c).length - (p.server.received s).length + inside p.server s conn') +
    ((p.server.wire s).length - (p.client.received c).length + inside p.client c conn)

/-- **The block goes round.** In every run of the two loops, however the network
cuts the streams and the threads interleave, each stream is the first bytes of the
one before it, and all of them repeat the block.  As long as neither connection is
forced closed, the bytes on their way are as many as the block has. -/
theorem block_goes_round (block : List UInt8) (c s : ConnId) (p : PingPong τ)
    (h : (machine block c s).Reach (Keeps block c s) p) (hblock : 0 < block.length) :
    ((p.client.received c).map some <+: p.server.wire s ∧
        p.server.wire s <+: (p.server.received s).map some ∧
        (p.server.received s).map some <+: p.client.wire c) ∧
      (∀ i < (p.client.wire c).length,
        (p.client.wire c)[i]? = some block[i % block.length]?) ∧
      ∀ conn conn', p.client.world.conns c = some conn → p.server.world.conns s = some conn' →
        Unforced (p.client.world.trail c) → Unforced (p.server.world.trail s) →
          onTheWay c s p conn conn' = block.length := by
  obtain ⟨hclient, hserver, htoServer, htoClient⟩ := reach_joined h
  have hsent := Service.wire_of_asked (Service.pingPongClient_relays block).orderly hclient
  have hback := Service.wire_of_asked Service.pingPongServer_relays.orderly hserver
  have hgreeted : p.server.greeted [] s = [] := ite_self _
  rw [Service.asked_of_relays (Service.pingPongClient_relays block) hclient] at hsent
  rw [Service.asked_of_relays Service.pingPongServer_relays hserver, hgreeted,
    List.nil_append] at hback
  refine ⟨⟨htoClient, hback.1, htoServer⟩, fun i hi => ?_,
    fun conn conn' hconn hconn' hnot hnot' => ?_⟩
  · have hround : (p.client.received c).map some <+: p.client.wire c :=
      htoClient.trans (hback.1.trans htoServer)
    by_cases hnamed : c < p.client.world.nextId
    · have hfirst := hsent.1
      rw [Service.greeted, if_pos hnamed, List.map_append] at hfirst
      have hpos : 0 < (block.map some).length := by rwa [List.length_map]
      rw [getElem?_of_round hfirst hround hpos hi, List.length_map, List.getElem?_map,
        List.getElem?_eq_getElem (Nat.mod_lt i hblock), Option.map_some]
    · have hempty := (Service.reach_relayed (Service.pingPongClient_relays block) hclient c).fresh
        (Nat.not_lt.mp hnamed)
      have hnil := hsent.1
      rw [Service.greeted, if_neg hnamed, hempty] at hnil
      rw [List.prefix_nil.mp hnil] at hi
      exact absurd hi (Nat.not_lt_zero i)
  · have hnamed : c < p.client.world.nextId :=
      (World.reach_numbered (Service.reach_world hclient)).live c conn hconn
    obtain ⟨hsplit, -⟩ := hsent.2 conn hconn hnot
    obtain ⟨hsplit', -⟩ := hback.2 conn' hconn' hnot'
    rw [Service.greeted, if_pos hnamed] at hsplit
    have hlength := congrArg List.length hsplit
    have hlength' := congrArg List.length hsplit'
    have hread := htoServer.length_le
    have hread' := htoClient.length_le
    simp only [List.length_append, List.length_map] at hlength hlength' hread hread'
    simp only [onTheWay, inside]
    omega

/-- The server has sent back two of three bytes, and the client has read one. -/
theorem block_goes_round_of_three_bytes :
    ∃ (p : PingPong ℕ) (conn conn' : Connection),
      (machine [7, 8, 9] 0 0).Reach (Keeps [7, 8, 9] 0 0) p ∧ p.client.received 0 = [7] ∧
      p.client.world.conns 0 = some conn ∧ p.server.world.conns 0 = some conn' ∧
      p.server.wire 0 <+: (p.server.received 0).map some ∧ onTheWay 0 0 p conn conn' = 3 := by
  have hnew : (machine [7, 8, 9] 0 0).Reach (Keeps [7, 8, 9] 0 0)
      (⟨.new 0, .new 1⟩ : PingPong ℕ) := .init ⟨0, 1, rfl⟩
  obtain ⟨p, hreach, hreceived, hnot, hnot', ⟨conn, hconn, -⟩, conn', hconn', -⟩ :=
    hnew.exists_of_leads
      [.client (.library (.loop (.enterRun 0))), .client (.library (.loop .testRunning)),
        .client (.library (.epollWait [.other])), .client (.register 4 0), .client .user,
        .client .user, .client (.library .returns), .client (.library (.exec 0)),
        .client (.release 0), .client (.library .returns), .client (.library (.loop .swapPending)),
        .client (.library (.loop .endBatch)), .client (.library .call),
        .client (.library .callReturns), .client (.library .endIteration),
        .client (.library (.loop .testRunning)), .client (.library (.epollWait [.source 4 4])),
        .client (.library (.exec 0)), .client (.library (.exec 3)),
        .server (.library (.loop (.enterRun 1))), .server (.library (.loop .testRunning)),
        .server (.library (.epollWait [.other])), .server (.register 5 0), .server (.release 0),
        .server (.library .returns), .server (.library (.loop .swapPending)),
        .server (.library (.loop .endBatch)), .server (.library .endIteration),
        .server (.library (.loop .testRunning)), .server (.library (.epollWait [.source 5 1])),
        .server (.read [7, 8]), .server .user, .server (.library .returns),
        .server (.library (.exec 0)), .server (.library (.exec 0)),
        .server (.library (.loop .swapPending)), .server (.library (.loop .endBatch)),
        .server (.library .call), .server (.library .callReturns),
        .server (.library .endIteration), .server (.library (.loop .testRunning)),
        .server (.library (.epollWait [.source 5 4])), .server (.library (.exec 0)),
        .server (.library (.exec 2)), .client (.library (.loop .swapPending)),
        .client (.library (.loop .endBatch)), .client (.library .endIteration),
        .client (.library (.loop .testRunning)), .client (.library (.epollWait [.source 4 1])),
        .client (.read [7]), .client .user]
      (P := fun p => p.client.received 0 = [7] ∧
        (∀ event ∈ p.client.world.trail 0, event.isForced = false) ∧
        (∀ event ∈ p.server.world.trail 0, event.isForced = false) ∧
        (∃ conn ∈ p.client.world.conns 0, conn.state = .receiving) ∧
        ∃ conn ∈ p.server.world.conns 0, conn.state = .receiving)
      (by decide)
  obtain ⟨⟨-, hback, -⟩, -, hround⟩ := block_goes_round [7, 8, 9] 0 0 p hreach (by decide)
  exact ⟨p, conn, conn', hreach, hreceived, hconn, hconn', hback,
    hround conn conn' hconn hconn' hnot hnot'⟩

end PingPong

end Mutiplex
