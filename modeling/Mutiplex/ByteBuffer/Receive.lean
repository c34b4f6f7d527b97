/-
# The receive buffer of a loop

The connections of a loop share one `ByteBuffer`.  The reading callback of each
clears it, lets `read` fill it from `data()` on, and hands it to the user's
`read_callback_`, which may call whatever it likes on it; the next event, of the
same connection or another, finds the buffer as that callback left it.

The record of what the callbacks were handed is written by the reading callback
and read by no step.  It has an entry for each read that brought bytes, whether
or not the connection has a `read_callback_`.
-/

import Mathlib
import Mutiplex.ByteBuffer.Spec

namespace Mutiplex

open CMemory CyclicList Transition

/-- What `read` offers the kernel and gets for the connection with descriptor
`fd`, and the buffer its `read_callback_` is called with. -/
structure Delivery where
  fd : ℤ
  offered : ℤ
  bytes : List UInt8
  buffer : ByteBuffer
  deriving DecidableEq, Repr

/-- The loop's `recv_buffer_` and the record of what went through it. -/
structure Receiver where
  recvBuffer : ByteBuffer
  deliveries : List Delivery
  deriving DecidableEq, Repr

/-- A read event of a connection, where `read` fails or returns bytes, of which
there are none at the end of the stream; or a call on the buffer by the user. -/
inductive ReceiveAction
  | read (fd : ℤ) (answer : Option (List UInt8))
  | use (op : BufferOp)
  deriving DecidableEq, Repr

/-- `allocate_receive_buffer`, whose argument the constructor takes as an `int`. -/
def allocateReceiveBuffer (capacity : UInt32) : Except Fault ByteBuffer :=
  ByteBuffer.new (wrapInt capacity.toNat)

namespace Receiver

/-- What the reading callback offers to `read`. -/
def offered (r : Receiver) : ℤ := r.recvBuffer.clear.remaining

/-- The reading callback, up to the call of `read_callback_`. -/
def readingCallback (r : Receiver) (fd : ℤ) : Option (List UInt8) → Except Fault Receiver
  | none => return { r with recvBuffer := r.recvBuffer.clear }
  | some [] => return { r with recvBuffer := r.recvBuffer.clear }
  | some (byte :: rest) => do
      let bytes := byte :: rest
      let buffer := r.recvBuffer.clear
      let data ← buffer.store (bytes.map some)
      let buffer ← { buffer with data := data }.setPosition (wrapInt bytes.length)
      let buffer := buffer.flip
      return {
        recvBuffer := buffer
        deliveries := ⟨fd, r.offered, bytes, buffer⟩ :: r.deliveries }

/-- One event or call. -/
def act (r : Receiver) : ReceiveAction → Except Fault Receiver
  | .read fd answer => r.readingCallback fd answer
  | .use op => do
      let buffer ← r.recvBuffer.operate op
      return { r with recvBuffer := buffer }

/-- The receive buffer as a machine. -/
def machine (capacity : UInt32) : Machine Receiver ReceiveAction Fault where
  Init r := allocateReceiveBuffer capacity = .ok r.recvBuffer ∧ r.deliveries = []
  step r action := Outcome.ofExcept (r.act action)

/-- `read` returns no more than it is offered, and the user's callbacks pass no
negative lengths. -/
def Proper (r : Receiver) : ReceiveAction → Prop
  | .read _ (some bytes) => bytes.length ≤ r.offered
  | .read _ none => True
  | .use op => op.NonNegative

instance (r : Receiver) : DecidablePred r.Proper
  | .read _ (some bytes) => inferInstanceAs (Decidable (bytes.length ≤ r.offered))
  | .read _ none => instDecidableTrue
  | .use op => inferInstanceAs (Decidable op.NonNegative)

/-- What a `read_callback_` relies on: the whole buffer was offered, and what it
got are the bytes of this read, ready to be taken out from the start. -/
structure Fresh (capacity : ℤ) (d : Delivery) : Prop where
  offered : d.offered = capacity
  position : d.buffer.position = 0
  remaining : d.buffer.remaining = d.bytes.length
  mark : d.buffer.mark = -1
  readable : d.buffer.load d.buffer.remaining = .ok (d.bytes.map some)

variable {r r' : Receiver} {capacity : UInt32} {cap : ℤ}

theorem step_eq_next {action : ReceiveAction} :
    (machine capacity).step r action = .next r' ↔ r.act action = .ok r' :=
  Outcome.ofExcept_eq_next

theorem offered_eq (h : r.recvBuffer.Valid cap) : r.offered = cap := by
  have hclear : r.recvBuffer.clear.Valid cap := .clear h.block
  rw [offered, hclear.remaining_eq, ByteBuffer.clear_eq h.block, sub_zero]

/-- The buffer a read of `bytes` leaves over the block `data`. -/
def received (data : Block) (bytes : List UInt8) : ByteBuffer where
  limit := bytes.length
  mark := -1
  position := 0
  data := overwrite data 4 (bytes.map some)

theorem valid_received {data : Block} {bytes : List UInt8} (h : ByteBuffer.Holds data cap)
    (hle : bytes.length ≤ cap) : (received data bytes).Valid cap := by
  have hroom : 4 + (bytes.map some).length ≤ data.length := by
    rw [List.length_map, h.length]
    omega
  exact ⟨h.overwrite le_rfl hroom, le_rfl, Int.natCast_nonneg _, hle, Or.inl rfl⟩

theorem fresh_received {data : Block} {bytes : List UInt8} (h : ByteBuffer.Holds data cap)
    (hle : bytes.length ≤ cap) (fd : ℤ) : Fresh cap ⟨fd, cap, bytes, received data bytes⟩ := by
  have hvalid := valid_received h hle
  have hremaining : (received data bytes).remaining = bytes.length := by
    rw [hvalid.remaining_eq]
    exact sub_zero _
  refine ⟨rfl, rfl, hremaining, rfl, ?_⟩
  have hsource : ((overwrite data 4 (bytes.map some)).drop 4).take bytes.length =
      bytes.map some := by
    have hheader : 4 ≤ data.length := by
      rw [h.length]
      omega
    have hstored : _ = bytes.map some := take_drop_overwrite hheader
    rwa [List.length_map] at hstored
  show (received data bytes).load (received data bytes).remaining = _
  rw [hvalid.load_eq (by rw [hremaining]; omega) le_rfl, hremaining, Int.toNat_natCast]
  exact congrArg Except.ok hsource

/-- A read that brings bytes, no more than it offered. -/
theorem readingCallback_eq (h : r.recvBuffer.Valid cap) (fd : ℤ) {bytes : List UInt8}
    (hne : bytes ≠ []) (hle : bytes.length ≤ cap) :
    r.readingCallback fd (some bytes) = .ok {
      recvBuffer := received r.recvBuffer.data bytes
      deliveries := ⟨fd, cap, bytes, received r.recvBuffer.data bytes⟩ :: r.deliveries } := by
  have hwrap : wrapInt bytes.length = bytes.length := by
    have := h.block.lt
    exact wrapInt_of_bounds (by omega) (by omega)
  have hclear : r.recvBuffer.clear.Valid cap := .clear h.block
  have hstore : r.recvBuffer.clear.store (bytes.map some) =
      .ok (overwrite r.recvBuffer.data 4 (bytes.map some)) := by
    rw [hclear.store_eq, ByteBuffer.clear_eq h.block]
    · rfl
    · rw [List.length_map]
      exact hle.trans (offered_eq h).ge
  obtain ⟨byte, rest, rfl⟩ := List.exists_cons_of_ne_nil hne
  rw [readingCallback, hstore, hwrap, offered_eq h, ByteBuffer.clear_eq h.block]
  refine bind_eq_ok.mpr ⟨_, rfl, bind_eq_ok.mpr ⟨_, ByteBuffer.setPosition_eq hle ?_, ?_⟩⟩
  · exact Int.natCast_nonneg _
  · rfl

/-- The invariant: the shared buffer is valid, and every `read_callback_` so far
got what it relies on. -/
structure Served (cap : ℤ) (r : Receiver) : Prop where
  buffer : r.recvBuffer.Valid cap
  fresh : ∀ d ∈ r.deliveries, Fresh cap d

theorem Served.act {action : ReceiveAction} (h : Served cap r) (hproper : r.Proper action)
    (hact : r.act action = .ok r') : Served cap r' := by
  cases action with
  | read fd answer =>
      simp only [Receiver.act] at hact
      match answer, hproper with
      | none, _ | some [], _ =>
          obtain rfl := Except.ok.inj hact
          exact ⟨.clear h.buffer.block, h.fresh⟩
      | some (byte :: rest), hle =>
          have hcap : ((byte :: rest).length : ℤ) ≤ cap := offered_eq h.buffer ▸ hle
          rw [readingCallback_eq h.buffer fd (List.cons_ne_nil byte rest) hcap] at hact
          cases hact
          refine ⟨valid_received h.buffer.block hcap, ?_⟩
          rintro d (_ | ⟨_, hd⟩)
          · exact fresh_received h.buffer.block hcap fd
          · exact h.fresh d hd
  | use op =>
      obtain ⟨buffer, hop, hresult⟩ := bind_eq_ok.mp hact
      cases hresult
      exact ⟨h.buffer.operate (h.buffer.forward_of_nonNegative hproper) hop, h.fresh⟩

/-- `allocate_receive_buffer` succeeds for the positive values of an `int`. -/
theorem served_of_init (h : (machine capacity).Init r) : Served capacity.toNat r := by
  obtain ⟨hnew, hnone⟩ := h
  have hlt : wrapInt capacity.toNat < 2 ^ 31 := by
    rw [wrapInt, Int.bmod_def]
    split
    · omega
    · omega
  have hvalid := ByteBuffer.new_spec hlt hnew
  have hcap : wrapInt capacity.toNat = capacity.toNat := by
    have hpos := hvalid.block.pos
    have hbound := capacity.toNat_lt
    rw [wrapInt, Int.bmod_def] at hpos ⊢
    omega
  rw [hcap] at hvalid
  exact ⟨hvalid, by simp [hnone]⟩

theorem reach_served (h : (machine capacity).Reach Proper r) : Served capacity.toNat r := by
  refine h.invariant (Served capacity.toNat) (fun _ => served_of_init) ?_
  intro source action target _ hserved hproper hstep
  exact hserved.act hproper (step_eq_next.mp hstep)

/-- **Every read callback gets exactly the bytes of its read.**  However the
reads of the connections of a loop and the calls of their callbacks on the
shared buffer follow each other, the next read is offered the whole capacity;
bytes it returns, no more than it was offered, reach its callback without a
fault; and every callback so far got the buffer at position 0 with the bytes of
its read before the limit and no mark. -/
theorem read_callbacks_get_fresh_bytes (h : (machine capacity).Reach Proper r) :
    r.offered = capacity.toNat ∧
      (∀ fd bytes, bytes ≠ [] → (bytes.length : ℤ) ≤ r.offered →
        ∃ d, Fresh capacity.toNat d ∧ d.fd = fd ∧ d.bytes = bytes ∧
          (machine capacity).step r (.read fd (some bytes)) =
            .next { recvBuffer := d.buffer, deliveries := d :: r.deliveries }) ∧
      ∀ d ∈ r.deliveries, Fresh capacity.toNat d := by
  have hserved := reach_served h
  refine ⟨offered_eq hserved.buffer, fun fd bytes hne hle => ?_, hserved.fresh⟩
  rw [offered_eq hserved.buffer] at hle
  exact ⟨_, fresh_received hserved.buffer.block hle fd, rfl, rfl,
    step_eq_next.mpr (readingCallback_eq hserved.buffer fd hne hle)⟩

/-- Two connections take turns: the callback of the first takes one of its three
bytes, sets a mark and narrows the limit, a read fails, a callback stores a
byte, and the second connection still gets all of its own four. -/
theorem read_callbacks_get_fresh_bytes_of_two :
    ∃ r, (machine 4).Reach Proper r ∧ r.offered = 4 ∧
      r.deliveries.map Delivery.bytes = [[6, 7, 8, 9], [1, 2, 3]] ∧
      ∀ d ∈ r.deliveries, Fresh 4 d := by
  let start : Receiver :=
    ⟨⟨4, -1, 0, [some 0, some 0, some 0, some 4, none, none, none, none]⟩, []⟩
  have hstart : (machine 4).Reach Proper start := .init ⟨by decide +kernel, rfl⟩
  obtain ⟨r, hreach, hbytes⟩ := hstart.exists_of_leads
    [.read 5 (some [1, 2, 3]), .use (.get 1), .use .mark, .use (.limit 2), .read 5 none,
      .use (.put [0] 1), .read 6 (some [6, 7, 8, 9])]
    (P := fun r => r.deliveries.map Delivery.bytes = [[6, 7, 8, 9], [1, 2, 3]])
    (by decide +kernel)
  obtain ⟨hoffered, -, hfresh⟩ := read_callbacks_get_fresh_bytes hreach
  exact ⟨r, hreach, hoffered, hbytes, hfresh⟩

end Receiver

end Mutiplex
