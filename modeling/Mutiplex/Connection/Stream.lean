/-
# The byte stream of a connection

`sentBytes` and `writtenBytes` count.  Here an observer keeps the cells the
kernel takes from the output buffer, and what it kept is compared with the
payloads of the `do_write` tasks: the peer is sent a prefix of what was written,
byte for byte and in the order the tasks ran, and the output buffer holds the
rest for as long as no `force_close` throws it away.  The order of the tasks is
that of the calls of `write` on each thread, so the peer sees the writes of one
thread in the order they were made.
-/

import Mutiplex.Connection.Flush
import Mutiplex.Connection.Noted

namespace Mutiplex

open CMemory Transition

variable {τ : Type} [DecidableEq τ]

namespace Connection

variable {conn : Connection} {c : ConnId} {table : Epoll ConnId} {registered : Bool} {job : Job}
  {effect : Effect}

/-! ## What a job moves -/

/-- The cells the kernel takes from the output buffer in a job. -/
def tapped (conn : Connection) : Job → List Cell
  | .write n =>
      match conn.bufferOut with
      | none => []
      | some b =>
          match b.writeToFd n with
          | .ok written => written.taken
          | .error _ => []
  | _ => []

/-- The bytes a job is to put into the output buffer. -/
def written (conn : Connection) : Job → List UInt8
  | .doWrite data => if conn.state = .closed then [] else data
  | _ => []

/-- The cells a job puts into the output buffer. -/
def added (conn : Connection) : Job → List Cell
  | .doWrite data =>
      if conn.state = .closed then []
      else if conn.losesWrite data then List.replicate data.length none
      else data.map some
  | _ => []

/-- The backlog stays within 2^31 bytes and the growth keeps the bytes. -/
def Keeps (conn : Connection) (job : Job) : Prop :=
  conn.Bounded job ∧ conn.added job = (conn.written job).map some

instance : DecidablePred conn.Keeps := fun job =>
  inferInstanceAs (Decidable (conn.Bounded job ∧ conn.added job = (conn.written job).map some))

/-- The cell holds the byte, or nothing was ever stored in it. -/
def Blurs (cell : Cell) (byte : UInt8) : Prop := cell = some byte ∨ cell = none

/-- A lost payload keeps its place. -/
theorem blurs_added (conn : Connection) (job : Job) :
    List.Forall₂ Blurs (conn.added job) (conn.written job) := by
  have hlost : ∀ data : List UInt8,
      List.Forall₂ Blurs (List.replicate data.length none) data := by
    intro data
    induction data with
    | nil => exact .nil
    | cons byte rest ih => exact .cons (Or.inr rfl) ih
  have hkept : ∀ data : List UInt8, List.Forall₂ Blurs (data.map some) data := by
    intro data
    induction data with
    | nil => exact .nil
    | cons byte rest ih => exact .cons (Or.inl rfl) ih
  cases job with
  | doWrite data =>
      simp only [added, written]
      split
      · exact .nil
      · split
        · exact hlost data
        · exact hkept data
  | _ => exact .nil

theorem forall₂_some_iff {cells : List Cell} {bytes : List UInt8} :
    List.Forall₂ (fun cell byte => cell = some byte) cells bytes ↔ cells = bytes.map some := by
  rw [← List.forall₂_eq_eq_eq, List.forall₂_map_right_iff]

theorem Keeps.added_eq (h : conn.Keeps job) :
    List.Forall₂ (fun cell byte => cell = some byte) (conn.added job) (conn.written job) :=
  forall₂_some_iff.mpr h.2

/-- What the kernel takes and what stays in the buffer is what was there. -/
theorem tapped_write (hsound : conn.Sound) {b : CircularBuffer} {n : ℤ}
    (hb : conn.bufferOut = some b) (hne : b.empty = false) (hn : n ≤ conn.backlog.toNat) :
    conn.tapped (.write n) ++ (conn.afterWrite b n).contents = conn.contents := by
  have hvalid := hsound b hb
  have hcontents : conn.contents = b.contents := by simp only [contents, hb]
  rw [hcontents]
  rcases Int.lt_or_le n 0 with hneg | hpos
  · have htapped : conn.tapped (.write n) = [] := by
      simp only [tapped, hb, CircularBuffer.writeToFd_eq_of_neg hvalid hne hneg]
    have hafter : (conn.afterWrite b n).contents = b.contents := by
      simp only [contents, afterWrite, if_pos hneg]
    rw [htapped, hafter, List.nil_append]
  · have htapped : conn.tapped (.write n) = b.contents.take n.toNat := by
      simp only [tapped, hb, CircularBuffer.writeToFd_eq_of_nonneg hvalid hne hpos]
    have hbacklog : n.toNat ≤ b.bufferLen.toNat := by
      rw [backlog_of_some hb] at hn
      omega
    have hafter : (conn.afterWrite b n).contents = b.contents.drop n.toNat := by
      simp only [contents, afterWrite, if_neg (Int.not_lt.mpr hpos)]
      exact CircularBuffer.contents_advance hvalid hbacklog
    rw [htapped, hafter, List.take_append_drop]

/-- **What a job does to the stream.** What it sends and leaves in the buffer is
what was there and what it adds; only the task of a `force_close` throws bytes
away. -/
theorem Ran.stream (h : conn.Ran c table registered job effect)
    (hanswers : World.Answers conn job) (hbounded : conn.Bounded job) (hsound : conn.Sound)
    (hforce : job ≠ .forceClose) :
    conn.tapped job ++ effect.conn.contents = conn.contents ++ conn.added job := by
  have hsame : ([] : List Cell) ++ conn.contents = conn.contents ++ [] := (List.append_nil _).symm
  have hwrites : ∀ {n : ℤ} {b : CircularBuffer}, conn.bufferOut = some b → b.empty = false →
      n ≤ conn.backlog.toNat →
      conn.tapped (.write n) ++ (conn.afterWrite b n).contents = conn.contents ++ [] :=
    fun hb hne hn => (tapped_write hsound hb hne hn).trans (List.append_nil _).symm
  cases h with
  | writeFails hb hne => exact hwrites hb hne hanswers.2
  | writesNone hb hne => exact hwrites hb hne hanswers.2
  | writesLast hb hne => exact hwrites hb hne hanswers.2
  | writesAll hb hne => exact hwrites hb hne hanswers.2
  | writesPart hb hne => exact hwrites hb hne hanswers.2
  | forceCloses => exact absurd rfl hforce
  | doWriteClosed hstate =>
      rw [added, if_pos hstate]
      exact hsame
  | @appends data b hstate hput =>
      obtain ⟨old, hold, hvalid, hlen, hcontents, hloses⟩ := getD_new hsound data
      obtain ⟨b', hput', -, -, happended⟩ := CircularBuffer.put_spec hvalid (hlen ▸ hbounded hstate)
      rw [hold] at hput
      cases hput.symm.trans hput'
      show b.contents = _
      rw [happended, hcontents, CircularBuffer.appended, hloses, added, if_neg hstate]
  | _ => exact hsame

/-- A closed connection sends and stores nothing any more. -/
theorem Ran.stream_of_closed (h : conn.Ran c table registered job effect)
    (hsettled : conn.Settled) (hclosed : conn.state = .closed) :
    conn.tapped job = [] ∧ conn.written job = [] := by
  have hempty := hsettled hclosed
  cases h with
  | writeFails hb hne => exact absurd hempty (backlog_ne_zero hb hne)
  | writesNone hb hne => exact absurd hempty (backlog_ne_zero hb hne)
  | writesLast hb hne => exact absurd hempty (backlog_ne_zero hb hne)
  | writesAll hb hne => exact absurd hempty (backlog_ne_zero hb hne)
  | writesPart hb hne => exact absurd hempty (backlog_ne_zero hb hne)
  | doWriteClosed => exact ⟨rfl, if_pos hclosed⟩
  | appends hstate => exact absurd hclosed hstate
  | _ => exact ⟨rfl, rfl⟩

end Connection

/-! ## What happened to the stream -/

/-- The task that ran. -/
def Event.running : Event τ → Option (Posted τ Task)
  | .ran entry _ _ _ => some entry
  | _ => none

/-- The task of a `write` that ran while the connection was not closed, and the
payload it found. -/
def Event.chunk : Event τ → Option (Posted τ Task × List UInt8)
  | .ran entry (.doWrite data) found _ => if found = .closed then none else some (entry, data)
  | _ => none

/-- The task of a `force_close` ran. -/
def Event.isForced : Event τ → Bool
  | .ran _ .forceClose _ _ => true
  | _ => false

namespace World

variable {w w' : World τ} {action : Action τ} {c : ConnId}

/-- The tasks of a trail, in the order they ran. -/
def runsOf (trail : List (Event τ)) : List (Posted τ Task) := trail.reverse.filterMap Event.running

/-- The writes of a trail with their payloads, in the order they ran. -/
def chunksOf (trail : List (Event τ)) : List (Posted τ Task × List UInt8) :=
  trail.reverse.filterMap Event.chunk

/-- The bytes of these payloads. -/
def bytesOf (trail : List (Event τ)) : List UInt8 := (chunksOf trail).flatMap (·.2)

/-- What the executed `do_write` tasks of a connection wrote. -/
def written (w : World τ) (c : ConnId) : List UInt8 := bytesOf (w.trail c)

/-- What is read off the records of a job by a function that looks at tasks only. -/
theorem filterMap_records {β : Type} {f : Event τ → Option β}
    (hcalled : ∀ c callback, f (.called c callback) = none)
    (hposted : ∀ entry, f (.posted entry) = none) (hsent : ∀ c bytes, f (.sent c bytes) = none)
    (loop : EventLoop τ Task) (entry : Option (Posted τ Task)) (c : ConnId) (job : Job)
    (found : ConnState) (effect : Effect) :
    (records loop entry c job found effect).reverse.filterMap f =
      (entry.bind fun entry => f (.ran entry job found effect.conn.state)).toList := by
  have hnone : ∀ {γ : Type} (value : Option γ) (g : γ → Event τ), (∀ x, f (g x) = none) →
      (value.map g).toList.filterMap f = [] := by
    intro γ value g hg
    cases value <;> simp [hg]
  have hran : (entry.map fun entry => Event.ran entry job found effect.conn.state).toList.filterMap
      f = (entry.bind fun entry => f (.ran entry job found effect.conn.state)).toList := by
    cases entry with
    | none => rfl
    | some entry =>
        cases hf : f (.ran entry job found effect.conn.state) <;> simp [hf]
  have hlength : ∀ l : List β, l.length ≤ 1 → l.reverse = l := by
    intro l hl
    match l, hl with
    | [], _ => rfl
    | [_], _ => rfl
  rw [List.filterMap_reverse, records, List.filterMap_append, List.filterMap_append,
    List.filterMap_append, hnone _ _ (hcalled c), hnone _ _ fun _ => hposted _,
    hnone _ _ (hsent c), hran]
  refine hlength _ ?_
  cases entry.bind fun entry => f (.ran entry job found effect.conn.state) <;> simp

theorem runsOf_records (loop : EventLoop τ Task) (entry : Option (Posted τ Task)) (c : ConnId)
    (job : Job) (found : ConnState) (effect : Effect) :
    runsOf (records loop entry c job found effect) = entry.toList := by
  rw [runsOf, filterMap_records (fun _ _ => rfl) (fun _ => rfl) (fun _ _ => rfl)]
  cases entry <;> rfl

theorem chunksOf_records (loop : EventLoop τ Task) (entry : Option (Posted τ Task)) (c : ConnId)
    (job : Job) (found : ConnState) (effect : Effect) :
    chunksOf (records loop entry c job found effect) =
      (entry.bind fun entry => Event.chunk (.ran entry job found effect.conn.state)).toList :=
  filterMap_records (fun _ _ => rfl) (fun _ => rfl) (fun _ _ => rfl) ..

omit [DecidableEq τ] in
theorem runsOf_append (new trail : List (Event τ)) :
    runsOf (new ++ trail) = runsOf trail ++ runsOf new := by
  simp [runsOf]

omit [DecidableEq τ] in
theorem chunksOf_append (new trail : List (Event τ)) :
    chunksOf (new ++ trail) = chunksOf trail ++ chunksOf new := by
  simp [chunksOf]

omit [DecidableEq τ] in
theorem bytesOf_append (new trail : List (Event τ)) :
    bytesOf (new ++ trail) = bytesOf trail ++ bytesOf new := by
  simp [bytesOf, chunksOf_append]

theorem bytesOf_records {loop : EventLoop τ Task} {entry : Option (Posted τ Task)} {job : Job}
    {conn : Connection} {effect : Effect} (hentry : entry = none → job.isTask = false) :
    bytesOf (records loop entry c job conn.state effect) = conn.written job := by
  rw [bytesOf, chunksOf_records]
  cases entry with
  | none => cases job <;> first | rfl | cases hentry rfl
  | some entry =>
      cases job with
      | doWrite data =>
          simp only [Option.bind_some, Event.chunk, Connection.written]
          split <;> simp
      | _ => rfl

/-! ## The stream of a run -/

/-- The observer of the wire. -/
def tap (conn : Connection) (job : Job) (wire : List Cell) : List Cell := wire ++ conn.tapped job

/-- The backlog of the connection stays within 2^31 bytes and its buffer keeps
what it is given. -/
def Keeps (c : ConnId) : World τ → Action τ → Prop :=
  EachJob fun _ other conn job => other = c → conn.Keeps job

instance : DecidableRel (Keeps (τ := τ) c) := inferInstanceAs (DecidableRel (EachJob _))

omit [DecidableEq τ] in
theorem Keeps.bounded (h : Keeps c w action) : Bounded c w action :=
  EachJob.mono (fun _ _ _ _ hkeeps hc => (hkeeps hc).1) h

/-- What the wire has seen against what was written, where `R` relates a cell to
the byte at its place. -/
structure Tracks (R : Cell → UInt8 → Prop) (value : Option Connection) (trail : List (Event τ))
    (wire : List Cell) : Prop where
  sent : ∃ rest, List.Forall₂ R (wire ++ rest) (bytesOf trail)
  kept : ∀ conn, value = some conn → (∀ event ∈ trail, event.isForced = false) →
    List.Forall₂ R (wire ++ conn.contents) (bytesOf trail)
  forced : ∀ conn, value = some conn → ∀ event ∈ trail, event.isForced = true →
    conn.state = .closed

section Tracks

variable {R : Cell → UInt8 → Prop} {value : Option Connection} {trail : List (Event τ)}
  {wire : List Cell}

omit [DecidableEq τ] in
/-- Records that neither write nor force a close. -/
theorem Tracks.append (h : Tracks R value trail wire) (new : List (Event τ))
    (hbytes : bytesOf new = []) (hnew : ∀ event ∈ new, event.isForced = false) :
    Tracks R value (new ++ trail) wire := by
  have hsame : bytesOf (new ++ trail) = bytesOf trail := by
    rw [bytesOf_append, hbytes, List.append_nil]
  refine ⟨hsame ▸ h.sent, fun conn hconn hnot => ?_, fun conn hconn event hevent hforced => ?_⟩
  · rw [hsame]
    exact h.kept conn hconn fun event hevent => hnot event (List.mem_append_right _ hevent)
  · rcases List.mem_append.mp hevent with hmem | hmem
    · rw [hnew event hmem] at hforced
      cases hforced
    · exact h.forced conn hconn event hmem hforced

theorem isForced_of_records {loop : EventLoop τ Task} {entry : Option (Posted τ Task)}
    {job : Job} {found : ConnState} {effect : Effect} {event : Event τ}
    (hevent : event ∈ records loop entry c job found effect) (hforced : event.isForced = true) :
    job = .forceClose := by
  rcases mem_records.mp hevent with ⟨_, -, rfl⟩ | ⟨_, -, rfl⟩ | ⟨_, -, rfl⟩ | ⟨ran, -, rfl⟩
  · cases hforced
  · cases hforced
  · cases hforced
  · cases job <;> first | rfl | cases hforced

theorem Tracks.ran {source : World τ} {conn : Connection} {table : Epoll ConnId}
    {registered : Bool} {job : Job} {effect : Effect} {loop : EventLoop τ Task}
    {entry : Option (Posted τ Task)} (h : Tracks R (some conn) trail wire)
    (hran : conn.Ran c table registered job effect) (hbody : source.BodyOf entry c job)
    (hanswers : Answers conn job) (hbounded : conn.Bounded job) (hsound : conn.Sound)
    (hsettled : conn.Settled) (hadded : List.Forall₂ R (conn.added job) (conn.written job)) :
    Tracks R (some effect.conn) (records loop entry c job conn.state effect ++ trail)
      (tap conn job wire) := by
  have hbytes : bytesOf (records loop entry c job conn.state effect ++ trail) =
      bytesOf trail ++ conn.written job := by
    rw [bytesOf_append, bytesOf_records hbody.isTask_eq_false]
  -- the stream as far as it is kept, before a job that keeps it and after
  have hkept : job ≠ .forceClose → (∀ event ∈ trail, event.isForced = false) →
      List.Forall₂ R (tap conn job wire ++ effect.conn.contents)
        (bytesOf trail ++ conn.written job) := by
    intro hforce hnot
    rw [tap, List.append_assoc, hran.stream hanswers hbounded hsound hforce, ← List.append_assoc]
    exact List.rel_append (h.kept conn rfl hnot) hadded
  refine ⟨?_, ?_, ?_⟩
  · rw [hbytes]
    by_cases hforced : ∃ event ∈ trail, event.isForced = true
    · obtain ⟨event, hevent, hforced⟩ := hforced
      obtain ⟨htapped, hwritten⟩ :=
        hran.stream_of_closed hsettled (h.forced conn rfl event hevent hforced)
      rw [tap, htapped, hwritten, List.append_nil, List.append_nil]
      exact h.sent
    · have hnot : ∀ event ∈ trail, event.isForced = false := by
        intro event hevent
        by_contra htrue
        exact hforced ⟨event, hevent, by simpa using htrue⟩
      by_cases hforce : job = .forceClose
      · subst hforce
        refine ⟨conn.contents, ?_⟩
        simpa [tap, Connection.tapped, Connection.written] using h.kept conn rfl hnot
      · exact ⟨_, hkept hforce hnot⟩
  · rintro _ ⟨⟩ hnot
    have hforce : job ≠ .forceClose := by
      rintro rfl
      rcases hbody with ⟨-, htask⟩ | ⟨task, rfl, -⟩
      · cases htask
      · exact absurd (hnot _ (List.mem_append_left _
          (ran_mem_records.mpr ⟨rfl, rfl, rfl, rfl⟩))) (by simp [Event.isForced])
    rw [hbytes]
    exact hkept hforce fun event hevent => hnot event (List.mem_append_right _ hevent)
  · rintro _ ⟨⟩ event hevent hforced
    rcases List.mem_append.mp hevent with hnew | hold
    · have hforce := isForced_of_records hnew hforced
      subst hforce
      exact hran.closed_of_forceClose
    · exact hran.closed hsettled (h.forced conn rfl event hold hforced)

end Tracks

/-- The stream of a connection in every run whose steps meet a condition that
keeps its backlog bounded. -/
theorem reach_tracks {R : Cell → UInt8 → Prop} {ok : World τ → Action τ → Prop}
    {wire : ConnId → List Cell} (hbounded : ∀ w action, ok w action → Bounded c w action)
    (hadded : ∀ w action job conn, ok w action → w.job action = some (c, job) →
      w.conns c = some conn → List.Forall₂ R (conn.added job) (conn.written job))
    (h : Noted [] tap ok w wire) : Tracks R (w.conns c) (w.trail c) (wire c) := by
  refine h.invariant (fun other value trail wire => other = c → Tracks R value trail wire)
    ?_ ?_ ?_ ?_ ?_ ?_ c rfl
  · intro other _
    refine ⟨⟨[], .nil⟩, fun conn hconn => ?_, fun conn hconn => ?_⟩
    · cases hconn
    · cases hconn
  · intro other value trail wire hold hc
    refine ⟨(hold hc).sent, fun conn hconn => ?_, fun conn hconn => ?_⟩
    · cases hconn
    · cases hconn
  · intro other value entry trail wire hold _ hc
    refine (hold hc).append [.posted entry] rfl fun event hevent => ?_
    rw [List.mem_singleton.mp hevent]
    rfl
  · intro other conn callbacks trail wire hold hc
    refine ⟨(hold hc).sent, ?_, ?_⟩
    · rintro _ ⟨⟩ hnot
      exact (hold hc).kept conn rfl hnot
    · rintro _ ⟨⟩ event hevent hforced
      exact (hold hc).forced conn rfl event hevent hforced
  · intro other fd callbacks table _
    have hborn : Tracks (τ := τ) R
        (some (Connection.registerEvent fd callbacks other table).1) [] [] := by
      refine ⟨⟨[], .nil⟩, ?_, ?_⟩
      · rintro _ ⟨⟩ -
        exact .nil
      · rintro _ ⟨⟩ event hevent
        cases hevent
    rw [← List.append_nil (Option.toList _)]
    refine hborn.append _ ?_ fun event hevent => ?_
    · cases (Connection.registerEvent fd callbacks other table).1.userCallback .established <;> rfl
    · obtain ⟨callback, -, rfl⟩ := Option.map_eq_some_iff.mp (Option.mem_toList.mp hevent)
      rfl
  · rintro source action other job conn effect loop entry trail wire hreach hok hjob hbody hconn
      hanswers hran hold rfl
    have hkeeps := hbounded source action hok
    refine (hold rfl).ran hran hbody hanswers (hkeeps.of_job hjob hconn rfl) ?_
      (reach_settled hreach hconn) (hadded source action job conn hok hjob hconn)
    exact reach_sound (hreach.mono hbounded) hconn

/-- **The stream is never shifted.** In every run that keeps the backlog of a
connection within 2^31 bytes, the cell at any place of its wire is the byte
written at that place, or one that was never stored anywhere. -/
theorem stream_is_not_shifted (w : World τ) (wire : ConnId → List Cell) (c : ConnId)
    (h : Noted [] tap (Bounded c) w wire) :
    ∃ rest, List.Forall₂ Connection.Blurs (wire c ++ rest) (w.written c) :=
  (reach_tracks (fun _ _ => id) (fun _ _ job conn _ _ _ => conn.blurs_added job) h).sent

/-- The growth of a full buffer loses a payload: its places on the wire are
taken by cells that were never stored, and the payload after it by its own. -/
theorem stream_is_not_shifted_of_lost_put :
    ∃ (w : World ℕ) (wire : ConnId → List Cell) (rest : List Cell),
      Noted [] tap (Bounded 0) w wire ∧ wire 0 = [some 1, none, none, some 4] ∧
      List.Forall₂ Connection.Blurs (wire 0 ++ rest) [1, 2, 3, 4] := by
  have hnew : Noted [] tap (Bounded 0) (new 0 : World ℕ) fun _ => [] := .init ⟨⟨0, rfl⟩, rfl⟩
  obtain ⟨⟨w, wire⟩, hreach, hwire, hwritten⟩ := hnew.exists_of_leads
    [.loop (.enterRun 0), .loop .testRunning, .epollWait [.other],
      .user 0 (.onNewConnection 5 ⟨false, false, false, false⟩), .user 0 (.writeData 0 [1]),
      .user 0 (.writeData 0 [2, 3]), .user 0 (.writeData 0 [4]), .returns, .loop .swapPending,
      .loop .endBatch, .call, .callReturns, .call, .callReturns, .call, .callReturns,
      .endIteration, .loop .testRunning, .epollWait [.source 5 4], .exec 0, .exec 4]
    (P := fun s => s.2 0 = [some 1, none, none, some 4] ∧ s.1.written 0 = [1, 2, 3, 4])
    (by decide)
  obtain ⟨rest, hrest⟩ := stream_is_not_shifted w wire 0 hreach
  exact ⟨w, wire, rest, hreach, hwire, (show w.written 0 = _ from hwritten) ▸ hrest⟩

theorem Keeps.tracks {wire : ConnId → List Cell} (h : Noted [] tap (Keeps c) w wire) :
    Tracks (fun cell byte => cell = some byte) (w.conns c) (w.trail c) (wire c) :=
  reach_tracks (fun _ _ hkeeps => hkeeps.bounded)
    (fun _ _ _ _ hok hjob hconn => (hok.of_job hjob hconn rfl).added_eq) h

omit [DecidableEq τ] in
/-- Where every cell is the byte at its place, the wire is a prefix, and the
buffer holds the rest. -/
theorem Tracks.eq {value : Option Connection} {trail : List (Event τ)} {wire : List Cell}
    (h : Tracks (fun cell byte => cell = some byte) value trail wire) :
    wire <+: (bytesOf trail).map some ∧
      ∀ conn, value = some conn → (∀ event ∈ trail, event.isForced = false) →
        wire ++ conn.contents = (bytesOf trail).map some := by
  constructor
  · obtain ⟨rest, hrest⟩ := h.sent
    exact ⟨rest, Connection.forall₂_some_iff.mp hrest⟩
  · exact fun conn hconn hnot => Connection.forall₂_some_iff.mp (h.kept conn hconn hnot)

/-- **The peer is sent what was written.** In every run that keeps the backlog of
a connection within 2^31 bytes and whose growths lose no bytes, the bytes on its
wire are the first ones that the executed `do_write` tasks wrote, in their order;
and as long as no task of a `force_close` ran, its output buffer holds all the
others. -/
theorem stream_integrity (w : World τ) (wire : ConnId → List Cell) (c : ConnId)
    (h : Noted [] tap (Keeps c) w wire) :
    wire c <+: (w.written c).map some ∧
      ∀ conn, w.conns c = some conn → (∀ event ∈ w.trail c, event.isForced = false) →
        wire c ++ conn.contents = (w.written c).map some :=
  (Keeps.tracks h).eq

/-- Two threads write to a connection, and the kernel takes four of six bytes. -/
theorem stream_integrity_of_two_threads :
    ∃ (w : World ℕ) (wire : ConnId → List Cell) (conn : Connection),
      Noted [] tap (Keeps 0) w wire ∧ w.conns 0 = some conn ∧
      wire 0 = [some 3, some 4, some 5, some 1] ∧
      wire 0 ++ conn.contents = [some 3, some 4, some 5, some 1, some 2, some 6] := by
  have hnew : Noted [] tap (Keeps 0) (new 0 : World ℕ) fun _ => [] := .init ⟨⟨0, rfl⟩, rfl⟩
  obtain ⟨⟨w, wire⟩, hreach, hwire, hwritten, hforced, conn, hconn, -⟩ := hnew.exists_of_leads
    [.loop (.enterRun 0), .loop .testRunning, .epollWait [.other],
      .user 0 (.onNewConnection 5 ⟨false, false, false, false⟩), .user 0 (.writeData 0 [1, 2]),
      .user 1 (.writeData 0 [3, 4, 5]), .user 0 (.writeData 0 [6]), .returns, .loop .swapPending,
      .call, .callReturns, .loop .endBatch, .call, .callReturns, .call, .callReturns,
      .endIteration, .loop .testRunning, .epollWait [.source 5 4], .exec 0, .exec 4]
    (P := fun s => s.2 0 = [some 3, some 4, some 5, some 1] ∧ s.1.written 0 = [3, 4, 5, 1, 2, 6] ∧
      (∀ event ∈ s.1.trail 0, event.isForced = false) ∧
      ∃ conn ∈ s.1.conns 0, conn.state ≠ .closed)
    (by decide)
  refine ⟨w, wire, conn, hreach, hconn, hwire, ?_⟩
  rw [(stream_integrity w wire 0 hreach).2 conn hconn hforced]
  simp only at hwritten
  rw [hwritten]
  rfl

/-! ## The order of the writes of one thread -/

theorem runs_apply (entry : Option (Posted τ Task)) (c : ConnId) (job : Job) (found : ConnState)
    (effect : Effect) :
    runsOf (w.apply entry c job found effect).history = runsOf w.history ++ entry.toList := by
  show runsOf (records w.loop entry c job found effect ++ w.history) = _
  rw [runsOf_append, runsOf_records]

/-- The tasks on record are those the loop has called, without the user's own
callbacks. -/
def RunsLogged (w : World τ) : Prop :=
  runsOf w.history = w.loop.executed.filter (·.callback.target.isSome)

theorem RunsLogged.step (h : w.RunsLogged) (hmoves : Moves w action w') : w'.RunsLogged := by
  have hkept : ∀ {move : EventLoop.Action τ Task} {loop : EventLoop τ Task},
      w.loop.step move = some loop → (move.isCall = true → ∃ entry, w.loop.nextEntry = some entry ∧
        entry.callback = .user) →
      runsOf w.history = loop.executed.filter (·.callback.target.isSome) := by
    intro move loop hstep hcall
    rw [h]
    rcases EventLoop.executed_move (EventLoop.move_of_step hstep) with
      ⟨entry, hisCall, hnext, hexecuted⟩ | ⟨-, hexecuted⟩
    · obtain ⟨user, hnext', huser⟩ := hcall hisCall
      cases hnext.symm.trans hnext'
      rw [hexecuted, List.filter_append, List.filter_singleton, huser]
      exact (List.append_nil _).symm
    · rw [hexecuted]
  cases hmoves with
  | loop hstep hpost hcall => exact hkept hstep hcall
  | epollWait hempty hreports hstep =>
      exact hkept hstep (by simp [EventLoop.Action.isCall])
  | pointers => exact h
  | destroyed =>
      rw [RunsLogged, history_destroy, loop_destroy]
      exact h
  | @posted thread _ task =>
      rw [RunsLogged, post, EventLoop.executed_postCallback, ← h]
      simp [runsOf, Event.running]
  | setCallbacks => exact h
  | fdClosed => exact h
  | @born fd callbacks =>
      have hcalled : ∀ called : Option UserCallback,
          runsOf (called.map (Event.called (τ := τ) w.nextId)).toList = [] := by
        intro called
        cases called <;> rfl
      show runsOf (_ ++ w.history) = _
      rw [runsOf_append, hcalled, List.append_nil]
      exact h
  | exec =>
      rw [RunsLogged, executed_apply, runs_apply]
      exact (List.append_nil _).trans h
  | @call move entry loop c job conn effect hempty hcall hnext hstep hjob =>
      rw [RunsLogged, executed_apply, runs_apply, h]
      rcases EventLoop.executed_move (EventLoop.move_of_step hstep) with
        ⟨next, -, hnext', hexecuted⟩ | ⟨hnot, -⟩
      · cases hnext.symm.trans hnext'
        have htarget := target_of_taskJob hjob
        rw [hexecuted, List.filter_append, List.filter_singleton, htarget]
        rfl
      · rw [hcall] at hnot
        cases hnot

theorem reach_runsLogged {ok : World τ → Action τ → Prop} (h : machine.Reach ok w) :
    w.RunsLogged :=
  reach_invariant RunsLogged (fun _ => rfl) (fun _ _ _ _ hinv _ hmoves => hinv.step hmoves) h

omit [DecidableEq τ] in
/-- The entries read off a trail are those read off the history that are about
the connection. -/
theorem filterMap_trail {f : Event τ → Option (Posted τ Task)}
    (hsubject : ∀ event entry, f event = some entry → event.subject = entry.callback.target)
    (w : World τ) (c : ConnId) :
    (w.trail c).reverse.filterMap f =
      (w.history.reverse.filterMap f).filter (·.callback.target = some c) := by
  have hfilter : ∀ l : List (Event τ),
      (l.filter fun event => event.subject = some c).filterMap f =
        (l.filterMap f).filter (·.callback.target = some c) := by
    intro l
    induction l with
    | nil => rfl
    | cons event rest ih =>
        cases hread : f event with
        | none =>
            rw [List.filterMap_cons_none hread, ← ih]
            by_cases hevent : event.subject = some c
            · rw [List.filter_cons_of_pos (by simpa using hevent),
                List.filterMap_cons_none hread]
            · rw [List.filter_cons_of_neg (by simpa using hevent)]
        | some entry =>
            have hsame := hsubject event entry hread
            rw [List.filterMap_cons_some hread]
            by_cases htarget : entry.callback.target = some c
            · rw [List.filter_cons_of_pos (by simpa [hsame] using htarget),
                List.filterMap_cons_some hread, ih,
                List.filter_cons_of_pos (by simpa using htarget)]
            · rw [List.filter_cons_of_neg (by simpa [hsame] using htarget), ih,
                List.filter_cons_of_neg (by simpa using htarget)]
  rw [trail, ← List.filter_reverse, hfilter]

/-- The tasks that ran on a connection, in their order. -/
theorem runs_trail {ok : World τ → Action τ → Prop} (h : machine.Reach ok w) (c : ConnId) :
    runsOf (w.trail c) = w.loop.executed.filter (·.callback.target = some c) := by
  have hlogged := reach_runsLogged h
  rw [RunsLogged, runsOf] at hlogged
  rw [runsOf, filterMap_trail ?_, hlogged, List.filter_filter]
  · congr 1
    funext entry
    cases htarget : entry.callback.target <;> simp
  · intro event entry hrunning
    cases event <;> cases hrunning
    rfl

/-- The payloads are those of the tasks, and the writes that were accepted are
the first ones that ran: all of them, unless the connection is closed. -/
structure Ordered (c : ConnId) (value : Option Connection) (trail : List (Event τ)) : Prop where
  payload : ∀ chunk ∈ chunksOf trail, chunk.1.callback = .writeData c chunk.2 ∨
    ∃ buffer, chunk.1.callback = .writeBuffer c buffer
  first : (chunksOf trail).map (·.1) <+: (runsOf trail).filter (·.callback.isWrite)
  complete : ∀ conn, value = some conn → conn.state ≠ .closed →
    (chunksOf trail).map (·.1) = (runsOf trail).filter (·.callback.isWrite)

section Ordered

variable {value : Option Connection} {trail : List (Event τ)}

omit [DecidableEq τ] in
theorem Ordered.append (h : Ordered c value trail) (new : List (Event τ))
    (hruns : runsOf new = []) (hchunks : chunksOf new = []) : Ordered c value (new ++ trail) := by
  have hruns' : runsOf (new ++ trail) = runsOf trail := by
    rw [runsOf_append, hruns, List.append_nil]
  have hchunks' : chunksOf (new ++ trail) = chunksOf trail := by
    rw [chunksOf_append, hchunks, List.append_nil]
  exact ⟨hchunks' ▸ h.payload, by rw [hchunks', hruns']; exact h.first,
    by rw [hchunks', hruns']; exact h.complete⟩

/-- What the records of a job add to the chunks and to the runs. -/
theorem chunks_of_bodyOf {source : World τ} {entry : Option (Posted τ Task)} {job : Job}
    (hbody : source.BodyOf entry c job) (conn : Connection) (effect : Effect)
    (loop : EventLoop τ Task) :
    (∀ chunk ∈ chunksOf (records loop entry c job conn.state effect),
      chunk.1.callback = .writeData c chunk.2 ∨
        ∃ buffer, chunk.1.callback = .writeBuffer c buffer) ∧
    (conn.state = .closed → chunksOf (records loop entry c job conn.state effect) = []) ∧
    (conn.state ≠ .closed → (chunksOf (records loop entry c job conn.state effect)).map (·.1) =
      (runsOf (records loop entry c job conn.state effect)).filter (·.callback.isWrite)) := by
  rw [chunksOf_records, runsOf_records]
  rcases hbody with ⟨rfl, -⟩ | ⟨task, rfl, -, htask⟩
  · exact ⟨by simp, fun _ => rfl, fun _ => rfl⟩
  · cases hcallback : task.callback with
    | writeBuffer target buffer =>
        rw [hcallback] at htask
        cases htask
        by_cases hclosed : conn.state = .closed <;>
          simp [Event.chunk, hclosed, hcallback, Task.isWrite]
    | writeData target data =>
        rw [hcallback] at htask
        cases htask
        by_cases hclosed : conn.state = .closed <;>
          simp [Event.chunk, hclosed, hcallback, Task.isWrite]
    | user =>
        rw [hcallback] at htask
        cases htask
    | _ =>
        rw [hcallback] at htask
        cases htask
        simp [Event.chunk, hcallback, Task.isWrite]

theorem Ordered.ran {source : World τ} {conn : Connection} {table : Epoll ConnId}
    {registered : Bool} {job : Job} {effect : Effect} {loop : EventLoop τ Task}
    {entry : Option (Posted τ Task)} (h : Ordered c (some conn) trail)
    (hran : conn.Ran c table registered job effect) (hbody : source.BodyOf entry c job)
    (hsettled : conn.Settled) :
    Ordered c (some effect.conn) (records loop entry c job conn.state effect ++ trail) := by
  obtain ⟨hpayload, hclosed, hopen⟩ := chunks_of_bodyOf hbody conn effect loop
  have hcomplete : conn.state ≠ .closed →
      (chunksOf (records loop entry c job conn.state effect ++ trail)).map (·.1) =
        (runsOf (records loop entry c job conn.state effect ++ trail)).filter
          (·.callback.isWrite) := by
    intro hstate
    rw [chunksOf_append, runsOf_append, List.map_append, List.filter_append, hopen hstate,
      h.complete conn rfl hstate]
  refine ⟨fun chunk hchunk => ?_, ?_, ?_⟩
  · rw [chunksOf_append] at hchunk
    exact (List.mem_append.mp hchunk).elim (h.payload chunk) (hpayload chunk)
  · by_cases hstate : conn.state = .closed
    · rw [chunksOf_append, hclosed hstate, List.append_nil, runsOf_append, List.filter_append]
      exact h.first.trans (List.prefix_append _ _)
    · exact hcomplete hstate ▸ List.prefix_rfl
  · rintro _ ⟨⟩ hopen'
    exact hcomplete fun hstate => hopen' (hran.closed hsettled hstate)

end Ordered

theorem reach_ordered {ok : World τ → Action τ → Prop} (h : machine.Reach ok w) (c : ConnId) :
    Ordered c (w.conns c) (w.trail c) := by
  refine reach_trail (fun c => Ordered c) ?_ ?_ ?_ ?_ ?_ ?_ h c
  · intro c
    refine ⟨by simp [chunksOf], List.nil_prefix, fun conn hconn => ?_⟩
    cases hconn
  · intro c value trail hold
    refine ⟨hold.payload, hold.first, fun conn hconn => ?_⟩
    cases hconn
  · exact fun c value entry trail hold _ _ => hold.append [.posted entry] rfl rfl
  · intro c conn callbacks trail hold
    refine ⟨hold.payload, hold.first, ?_⟩
    rintro _ ⟨⟩ hopen
    exact hold.complete conn rfl hopen
  · intro c fd callbacks table
    have hborn : Ordered (τ := τ) c (some (Connection.registerEvent fd callbacks c table).1) [] :=
      ⟨by simp [chunksOf], List.nil_prefix, fun _ _ _ => rfl⟩
    rw [← List.append_nil (Option.toList _)]
    refine hborn.append _ ?_ ?_ <;>
      cases (Connection.registerEvent fd callbacks c table).1.userCallback .established <;> rfl
  · exact fun source action c job conn effect loop entry trail hreach _ _ hbody hconn _ hran hold =>
      hold.ran hran hbody (reach_settled hreach hconn)

/-- A payload that an accepted `write` on the connection put into its stream. -/
structure Chunk (w : World τ) (c : ConnId) (entry : Posted τ Task) (data : List UInt8) : Prop where
  accepted : entry ∈ w.loop.posted
  target : entry.callback.target = some c
  payload : w.Payload entry data
  ran : ∃ found left, .ran entry (.doWrite data) found left ∈ w.history ∧ found ≠ .closed

omit [DecidableEq τ] in
theorem exists_ran_of_chunk {trail : List (Event τ)} {chunk : Posted τ Task × List UInt8}
    (h : chunk ∈ chunksOf trail) :
    ∃ found left, .ran chunk.1 (.doWrite chunk.2) found left ∈ trail ∧ found ≠ .closed := by
  obtain ⟨event, hevent, hchunk⟩ := List.mem_filterMap.mp h
  rw [List.mem_reverse] at hevent
  unfold Event.chunk at hchunk
  split at hchunk
  · rename_i entry data found left
    split at hchunk
    · cases hchunk
    · rename_i hopen
      cases hchunk
      exact ⟨found, left, hevent, hopen⟩
  · cases hchunk

theorem reach_chunk {ok : World τ → Action τ → Prop} (h : machine.Reach ok w)
    {chunk : Posted τ Task × List UInt8} (hchunk : chunk ∈ chunksOf (w.trail c)) :
    w.Chunk c chunk.1 chunk.2 := by
  obtain ⟨found, left, hran, hopen⟩ := exists_ran_of_chunk hchunk
  have hruns : chunk.1 ∈ runsOf (w.trail c) :=
    List.mem_filterMap.mpr ⟨_, List.mem_reverse.mpr hran, rfl⟩
  rw [runs_trail h c] at hruns
  have hexecuted := List.mem_of_mem_filter hruns
  obtain ⟨hhistory, htarget⟩ := mem_trail.mp hran
  exact ⟨(reach_loop_queues h).mem_posted_of_executed hexecuted, htarget,
    reach_payload h hhistory, found, left, hhistory, hopen⟩

/-- **The peer sees the writes of a thread in the order of its calls.** In the
runs of `stream_integrity` the stream is made of whole payloads of accepted
`write`s, each as its task found it and in the order the tasks ran; as long as
the connection is not closed, of all those whose tasks have run.  Of a thread
that called always on the loop thread or never, these are the first ones it made
on the connection, in the order of the calls, none left out and none repeated. -/
theorem thread_order_on_wire (w : World τ) (wire : ConnId → List Cell) (c : ConnId)
    (h : Noted [] tap (Keeps c) w wire) :
    ∃ chunks : List (Posted τ Task × List UInt8),
      wire c <+: (chunks.flatMap (·.2)).map some ∧
      (∀ chunk ∈ chunks, w.Chunk c chunk.1 chunk.2) ∧
      (∀ conn, w.conns c = some conn → conn.state ≠ .closed →
        wire c ++ conn.contents = (chunks.flatMap (·.2)).map some ∧
        chunks.map (·.1) = w.loop.executed.filter fun entry =>
          entry.callback.isWrite = true ∧ entry.callback.target = some c) ∧
      ∀ thread side,
        (∀ entry ∈ w.loop.posted, entry.thread = thread → entry.onLoop = side) →
          (chunks.map (·.1)).filter (·.thread = thread) <+:
            w.loop.posted.filter fun entry => entry.thread = thread ∧
              entry.callback.isWrite = true ∧ entry.callback.target = some c := by
  have hreach : machine.Reach (Keeps c) w := Machine.Watched.reach h
  have hordered := reach_ordered hreach c
  obtain ⟨hsent, hkept⟩ := (Keeps.tracks h).eq
  refine ⟨chunksOf (w.trail c), hsent, fun chunk hchunk => reach_chunk hreach hchunk,
    fun conn hconn hopen => ⟨hkept conn hconn ?_, ?_⟩, fun thread side hside => ?_⟩
  · intro event hevent
    by_contra hforced
    exact hopen ((Keeps.tracks h).forced conn hconn event hevent (by simpa using hforced))
  · rw [hordered.complete conn hconn hopen, runs_trail hreach c, List.filter_filter]
    exact List.filter_congr fun entry _ => by simp [Bool.decide_and]
  · have hexecuted := (EventLoop.filter_thread_prefix (reach_loop_queues hreach) side hside).filter
      fun entry => entry.callback.isWrite && decide (entry.callback.target = some c)
    have hwrites := hordered.first.filter fun entry => decide (entry.thread = thread)
    rw [runs_trail hreach c, List.filter_filter, List.filter_filter] at hwrites
    rw [List.filter_filter, List.filter_filter] at hexecuted
    have hthread : ∀ entry : Posted τ Task,
        (decide (entry.thread = thread) && entry.callback.isWrite &&
          decide (entry.callback.target = some c)) =
        (entry.callback.isWrite && decide (entry.callback.target = some c) &&
          decide (entry.thread = thread)) := fun entry => by ac_rfl
    have hposted : ∀ entry : Posted τ Task,
        (entry.callback.isWrite && decide (entry.callback.target = some c) &&
          decide (entry.thread = thread)) =
        decide (entry.thread = thread ∧ entry.callback.isWrite = true ∧
          entry.callback.target = some c) := by
      intro entry
      rw [← hthread, Bool.decide_and, Bool.decide_and, Bool.decide_eq_true, Bool.and_assoc]
    rw [List.filter_congr fun entry _ => hthread entry] at hwrites
    rw [List.filter_congr fun entry (_ : entry ∈ w.loop.posted) => hposted entry] at hexecuted
    exact hwrites.trans hexecuted

/-- The writes of the loop thread around one of another thread; the second is of
a `ByteBuffer`, which user code changes before the task runs. -/
theorem thread_order_on_wire_of_two_threads :
    ∃ (w : World ℕ) (wire : ConnId → List Cell) (chunks : List (Posted ℕ Task × List UInt8)),
      Noted [] tap (Keeps 0) w wire ∧ wire 0 = [some 3, some 4, some 5, some 1] ∧
      wire 0 <+: (chunks.flatMap (·.2)).map some ∧
      (∀ chunk ∈ chunks, w.Chunk 0 chunk.1 chunk.2) ∧
      chunks.map (·.1) = [⟨1, 1, false, .writeData 0 [3, 4, 5]⟩,
        ⟨0, 0, true, .writeData 0 [1, 2]⟩, ⟨0, 2, true, .writeBuffer 0 7⟩] ∧
      (chunks.map (·.1)).filter (·.thread = 0) <+:
        w.loop.posted.filter fun entry => entry.thread = 0 ∧
          entry.callback.isWrite = true ∧ entry.callback.target = some 0 := by
  have hnew : Noted [] tap (Keeps 0) (new 0 : World ℕ) fun _ => [] := .init ⟨⟨0, rfl⟩, rfl⟩
  obtain ⟨⟨w, wire⟩, hreach, hwire, hexecuted, hside, conn, hconn, hopen⟩ := hnew.exists_of_leads
    [.loop (.enterRun 0), .loop .testRunning, .epollWait [.other],
      .user 0 (.onNewConnection 5 ⟨false, false, false, false⟩), .user 0 (.writeData 0 [1, 2]),
      .user 1 (.writeData 0 [3, 4, 5]), .user 0 (.setBuffer 7 [8]), .user 0 (.writeBuffer 0 7),
      .user 0 (.setBuffer 7 [6]), .returns, .loop .swapPending,
      .call, .callReturns, .loop .endBatch, .call, .callReturns, .call, .callReturns,
      .exec 0, .endIteration, .loop .testRunning, .epollWait [.source 5 4], .exec 0, .exec 4]
    (P := fun s => s.2 0 = [some 3, some 4, some 5, some 1] ∧
      (s.1.loop.executed.filter fun entry =>
        entry.callback.isWrite = true ∧ entry.callback.target = some 0) =
          [⟨1, 1, false, .writeData 0 [3, 4, 5]⟩, ⟨0, 0, true, .writeData 0 [1, 2]⟩,
            ⟨0, 2, true, .writeBuffer 0 7⟩] ∧
      (∀ entry ∈ s.1.loop.posted, entry.thread = 0 → entry.onLoop = true) ∧
      ∃ conn ∈ s.1.conns 0, conn.state ≠ .closed)
    (by decide)
  obtain ⟨chunks, hsent, hchunks, hall, horder⟩ := thread_order_on_wire w wire 0 hreach
  exact ⟨w, wire, chunks, hreach, hwire, hsent, hchunks,
    (hall conn hconn hopen).2.trans hexecuted, horder 0 true hside⟩

end World

end Mutiplex
