/-
# What the code of a connection can do

`Ran` lists every path through the jobs of a connection, one rule for each, and
`ran_of_run` says that the list is complete.  The other results of this module
read off it, once and for all jobs, what the invariants need: which members a
job never touches, that `Closed` is final and leaves the output buffer empty,
what it can post and which user callback it can call, how it changes the
backlog, and that source and epoll table stay in step.
-/

import Mutiplex.Connection.Basic
import Mutiplex.CircularBuffer.Spec

namespace Mutiplex

open CMemory Transition

namespace Connection

variable {conn : Connection} {c : ConnId} {table : Epoll ConnId} {registered recvBuffer : Bool}
  {job : Job} {effect : Effect}

/-! ## The paths -/

/-- The connection after `write_to_fd` of `b`, where the kernel answers `n`. -/
def afterWrite (conn : Connection) (b : CircularBuffer) (n : ℤ) : Connection :=
  { conn with bufferOut := some (if n < 0 then b else b.advance n.toNat) }

/-- The bytes the kernel took. -/
def taken (n : ℤ) : Option ℕ := if n < 0 then none else some n.toNat

/-- The paths through the jobs. -/
inductive Ran (conn : Connection) (c : ConnId) (table : Epoll ConnId) (registered : Bool) :
    Job → Effect → Prop
  | skip : Ran conn c table registered .skip (conn.idle table)
  | error : Ran conn c table registered .error (conn.errorCallback c table)
  | readFails {n : ℤ} (hn : n < 0) :
      Ran conn c table registered (.read n)
        { conn.idle table with called := conn.userCallback .error, after := [.callForceClose c] }
  | readEnds :
      Ran conn c table registered (.read 0)
        { conn.withSource c table EventSource.disableReading with post := some (.close c) }
  | reads {n : ℤ} (hn : 0 < n) :
      Ran conn c table registered (.read n)
        { conn.idle table with called := conn.userCallback .read }
  | writeFails {n : ℤ} {b : CircularBuffer} (hb : conn.bufferOut = some b)
      (hne : b.empty = false) (hn : CircularBuffer.castInt n < 0) :
      Ran conn c table registered (.write n)
        { (conn.afterWrite b n).idle table with
          sent := taken n, post := some (.forceClose c), called := conn.userCallback .error }
  | writesNone {n : ℤ} {b : CircularBuffer} (hb : conn.bufferOut = some b)
      (hne : b.empty = false) (hn : CircularBuffer.castInt n = 0) :
      Ran conn c table registered (.write n)
        { (conn.afterWrite b n).idle table with sent := taken n, post := some (.forceClose c) }
  | writesLast {n : ℤ} {b : CircularBuffer} (hb : conn.bufferOut = some b)
      (hne : b.empty = false) (hn : 0 < CircularBuffer.castInt n)
      (hstate : conn.state = .disconnecting) :
      Ran conn c table registered (.write n)
        { (conn.afterWrite b n).withSource c table EventSource.disableWriting with
          sent := taken n, post := some (.close c) }
  | writesAll {n : ℤ} {b : CircularBuffer} (hb : conn.bufferOut = some b)
      (hne : b.empty = false) (hn : 0 < CircularBuffer.castInt n)
      (hstate : conn.state ≠ .disconnecting)
      (hempty : (conn.afterWrite b n).hasBytesToWrite = false) :
      Ran conn c table registered (.write n)
        { (conn.afterWrite b n).withSource c table EventSource.disableWriting with
          sent := taken n }
  | writesPart {n : ℤ} {b : CircularBuffer} (hb : conn.bufferOut = some b)
      (hne : b.empty = false) (hn : 0 < CircularBuffer.castInt n)
      (hstate : conn.state ≠ .disconnecting)
      (hbytes : (conn.afterWrite b n).hasBytesToWrite = true) :
      Ran conn c table registered (.write n)
        { (conn.afterWrite b n).idle table with sent := taken n }
  | callForceClose :
      Ran conn c table registered .callForceClose
        { conn.idle table with post := some (.forceClose c) }
  | closeWaits (hbytes : conn.hasBytesToWrite = true) :
      Ran conn c table registered .close
        { conn.idle table with conn := { conn with state := .disconnecting } }
  | closes (hbytes : conn.hasBytesToWrite = false) :
      Ran conn c table registered .close
        { conn.idle table with
          conn := { conn with state := .closed }
          called := conn.userCallback .closed
          after := [.removeConnection c conn.fd] }
  | forceCloses {b : CircularBuffer} (hb : conn.bufferOut = some b) :
      Ran conn c table registered .forceClose
        { conn.idle table with
          conn := { conn with
            state := .closed
            bufferOut := some b.clear
            source := conn.source.setInterestOps 0 }
          called := if registered then conn.userCallback .closed else none
          after := if registered then [.removeConnection c conn.fd] else [] }
  | doWriteClosed {data : List UInt8} (hstate : conn.state = .closed) :
      Ran conn c table registered (.doWrite data)
        { conn.idle table with post := some (.forceClose c) }
  | appends {data : List UInt8} {b : CircularBuffer} (hstate : conn.state ≠ .closed)
      (hput : (conn.bufferOut.getD (.new (UInt32.ofNat data.length))).put data = .ok b) :
      Ran conn c table registered (.doWrite data)
        ({ conn with bufferOut := some b }.withSource c table EventSource.enableWriting)

theorem ran_of_readingCallback {n : ℤ}
    (h : conn.readingCallback c table recvBuffer n = .ok effect) :
    Ran conn c table registered (.read n) effect := by
  unfold readingCallback at h
  split at h
  · cases h
  · split at h
    · cases h
      exact .readFails ‹_›
    · split at h
      · rename_i hzero
        subst hzero
        cases h
        exact .readEnds
      · cases h
        exact .reads (by omega)

theorem ran_of_handleWrite {n : ℤ} (h : conn.handleWrite c table n = .ok effect) :
    Ran conn c table registered (.write n) effect := by
  unfold handleWrite at h
  split at h
  · cases h
  · rename_i b hb
    split at h
    · cases h
    · rw [bind_eq_ok] at h
      obtain ⟨written, hwritten, hrest⟩ := h
      obtain ⟨hne, htotal, hbuffer⟩ := CircularBuffer.writeToFd_eq_ok hwritten
      rw [htotal, hbuffer] at hrest
      simp only at hrest
      split at hrest
      · cases hrest
        exact .writeFails hb hne ‹_›
      · split at hrest
        · cases hrest
          exact .writesNone hb hne ‹_›
        · have hpos : 0 < CircularBuffer.castInt n := by omega
          split at hrest
          · cases hrest
            exact .writesLast hb hne hpos ‹_›
          · rename_i hstate
            by_cases hempty : (if n < 0 then b else b.advance n.toNat).empty = true
            · rw [if_pos hempty] at hrest
              cases hrest
              exact .writesAll hb hne hpos hstate (by simp [hasBytesToWrite, afterWrite, hempty])
            · rw [if_neg hempty] at hrest
              cases hrest
              exact .writesPart hb hne hpos hstate (by simp [hasBytesToWrite, afterWrite, hempty])

theorem ran_of_closeTask :
    Ran conn c table registered .close (conn.closeTask c table) := by
  unfold closeTask
  split
  · exact .closeWaits ‹_›
  · rename_i hbytes
    exact .closes (by simpa using hbytes)

theorem ran_of_forceCloseTask (h : conn.forceCloseTask c table registered = .ok effect) :
    Ran conn c table registered .forceClose effect := by
  unfold forceCloseTask at h
  split at h
  · cases h
  · rename_i b hb
    have hran : Ran conn c table registered .forceClose _ := .forceCloses hb
    cases registered <;> cases h <;> exact hran

theorem ran_of_doWrite {data : List UInt8} (h : conn.doWrite c table data = .ok effect) :
    Ran conn c table registered (.doWrite data) effect := by
  unfold doWrite at h
  split at h
  · cases h
    exact .doWriteClosed ‹_›
  · rw [bind_eq_ok] at h
    obtain ⟨b, hput, hresult⟩ := h
    cases hresult
    exact .appends ‹_› hput

/-- The list of paths is complete. -/
theorem ran_of_run (h : conn.run c table registered recvBuffer job = .ok effect) :
    Ran conn c table registered job effect := by
  cases job with
  | skip =>
      cases h
      exact .skip
  | error =>
      cases h
      exact .error
  | read n => exact ran_of_readingCallback h
  | write n => exact ran_of_handleWrite h
  | callForceClose =>
      cases h
      exact .callForceClose
  | close =>
      cases h
      exact ran_of_closeTask
  | forceClose => exact ran_of_forceCloseTask h
  | doWrite data => exact ran_of_doWrite h

/-! ## The backlog -/

/-- A closed connection has nothing left to send. -/
def Settled (conn : Connection) : Prop := conn.state = .closed → conn.backlog = 0

theorem hasBytesToWrite_eq_true : conn.hasBytesToWrite = true ↔ conn.backlog ≠ 0 := by
  unfold hasBytesToWrite backlog
  split
  · simp
  · rename_i b _
    rw [Bool.not_eq_true', ← Bool.not_eq_true, CircularBuffer.empty_iff, ne_eq,
      ← UInt32.toNat_inj, UInt32.toNat_zero]

theorem hasBytesToWrite_eq_false : conn.hasBytesToWrite = false ↔ conn.backlog = 0 := by
  rw [← Bool.not_eq_true, hasBytesToWrite_eq_true, not_not]

theorem backlog_of_some {b : CircularBuffer} (hb : conn.bufferOut = some b) :
    conn.backlog = b.bufferLen := by
  simp only [backlog, hb]

theorem backlog_ne_zero {b : CircularBuffer} (hb : conn.bufferOut = some b)
    (hne : b.empty = false) : conn.backlog ≠ 0 := by
  rw [← hasBytesToWrite_eq_true, hasBytesToWrite, hb]
  simpa using hne

/-- The kernel's answer as an `int`, for the answers it can give. -/
theorem castInt_cases {n : ℤ} (hlow : -1 ≤ n) (hhigh : n < 2 ^ 32) :
    CircularBuffer.castInt n < 0 ∧ (n < 0 ∨ 2 ^ 31 ≤ n) ∨
      CircularBuffer.castInt n = 0 ∧ n = 0 ∨
      0 < CircularBuffer.castInt n ∧ 0 < n ∧ n < 2 ^ 31 := by
  unfold CircularBuffer.castInt Int.bmod
  simp only
  split <;> omega

/-- What the kernel took leaves the backlog. -/
theorem backlog_afterWrite {b : CircularBuffer} {n : ℤ} (hb : conn.bufferOut = some b)
    (hn : n ≤ conn.backlog.toNat) :
    (conn.afterWrite b n).backlog.toNat + n.toNat = conn.backlog.toNat := by
  have hafter : (conn.afterWrite b n).backlog =
      (if n < 0 then b else b.advance n.toNat).bufferLen := backlog_of_some rfl
  rw [backlog_of_some hb] at hn ⊢
  rw [hafter]
  split
  · omega
  · rw [CircularBuffer.bufferLen_advance (by omega)]
    omega

/-- A successful `put` adds to the backlog, modulo 2^32. -/
theorem backlog_put {data : List UInt8} {b : CircularBuffer}
    (hput : (conn.bufferOut.getD (.new (UInt32.ofNat data.length))).put data = .ok b) :
    b.bufferLen = conn.backlog + UInt32.ofNat data.length := by
  rw [CircularBuffer.bufferLen_of_put hput]
  cases hb : conn.bufferOut with
  | none => simp [backlog, hb, CircularBuffer.bufferLen_new]
  | some old => simp [backlog, hb]

/-! ## What every job keeps -/

theorem Ran.fd_eq (h : Ran conn c table registered job effect) :
    effect.conn.fd = conn.fd := by
  cases h <;> rfl

/-- The entries of other descriptors are left alone. -/
theorem Ran.epoll_of_ne (h : Ran conn c table registered job effect) {fd : ℤ}
    (hfd : fd ≠ conn.source.fd) : effect.epoll fd = table fd := by
  cases h with
  | error => exact EventSource.disableAll_of_ne hfd
  | readEnds => exact EventSource.disableOps_of_ne _ hfd
  | writesLast => exact EventSource.disableOps_of_ne _ hfd
  | writesAll => exact EventSource.disableOps_of_ne _ hfd
  | appends => exact EventSource.enableOps_of_ne _ hfd
  | _ => rfl

/-- A job posts at most one task, of its own connection. -/
theorem Ran.post_eq (h : Ran conn c table registered job effect) {task : Task}
    (hpost : effect.post = some task) : task = .close c ∨ task = .forceClose c := by
  cases h <;> simp_all [idle, errorCallback, withSource]

/-- The statements a job leaves for later. -/
theorem Ran.after_eq (h : Ran conn c table registered job effect) {frame : Frame}
    (hframe : frame ∈ effect.after) :
    frame = .callForceClose c ∨ frame = .removeConnection c conn.fd := by
  cases h <;> simp_all [idle, errorCallback, withSource]

theorem Ran.after_of_isTask (h : Ran conn c table registered job effect)
    (htask : job.isTask = true) {frame : Frame} (hframe : frame ∈ effect.after) :
    frame = .removeConnection c conn.fd := by
  cases h <;> simp_all [idle, withSource, Job.isTask]

/-- `Closed` is final. -/
theorem Ran.closed (h : Ran conn c table registered job effect) (hsettled : conn.Settled)
    (hclosed : conn.state = .closed) : effect.conn.state = .closed := by
  cases h with
  | closeWaits hbytes => exact absurd (hsettled hclosed) (hasBytesToWrite_eq_true.mp hbytes)
  | closes => rfl
  | forceCloses => rfl
  | _ => exact hclosed

theorem Ran.closed_of_forceClose (h : conn.Ran c table registered .forceClose effect) :
    effect.conn.state = .closed := by
  cases h
  rfl

theorem Ran.settled (h : Ran conn c table registered job effect) (hsettled : conn.Settled) :
    effect.conn.Settled := by
  intro hclosed
  cases h with
  | closes hbytes => exact hasBytesToWrite_eq_false.mp hbytes
  | forceCloses hb => exact CircularBuffer.bufferLen_clear _
  | writeFails hb hne => exact absurd (hsettled hclosed) (backlog_ne_zero hb hne)
  | writesNone hb hne => exact absurd (hsettled hclosed) (backlog_ne_zero hb hne)
  | writesLast hb hne => exact absurd (hsettled hclosed) (backlog_ne_zero hb hne)
  | writesAll hb hne => exact absurd (hsettled hclosed) (backlog_ne_zero hb hne)
  | writesPart hb hne => exact absurd (hsettled hclosed) (backlog_ne_zero hb hne)
  | closeWaits => cases hclosed
  | appends hstate => exact absurd hclosed hstate
  | _ => exact hsettled hclosed

end Connection

end Mutiplex
