/-
# Connections and the epoll table

Every entry of the table leads to a connection that exists and has the entry's
descriptor, whatever numbers the connections were made of and whoever closes
them.  Until the connection is closed, the mask of the entry is the interest set
of its event source; `force_close` changes the set and leaves the entry.

The converse, that a registered event source has its entry, is about the numbers
and comes with them in the next module.
-/

import Mutiplex.Connection.Life

namespace Mutiplex

open CMemory Transition

variable {τ : Type} [DecidableEq τ]

namespace Connection

variable {conn : Connection} {c : ConnId} {table table' : Epoll ConnId} {registered : Bool}
  {job : Job} {effect : Effect}

/-! ## Entries that lead to a connection -/

/-- The entries that lead to a connection. -/
structure Backed (conn : Connection) (c : ConnId) (table : Epoll ConnId) : Prop where
  fd : conn.source.fd = conn.fd
  source : conn.source.Backed c table
  mask : conn.state ≠ .closed → conn.source.Matched c table

/-- Other entries do not matter. -/
theorem Backed.mono (h : conn.Backed c table)
    (hle : ∀ fd entry, table' fd = some entry → entry.ptr = c → table fd = some entry) :
    conn.Backed c table' where
  fd := h.fd
  source := ⟨h.source.registered,
    fun fd entry hentry hptr => h.source.entry fd entry (hle fd entry hentry hptr) hptr⟩
  mask hopen fd entry hentry hptr := h.mask hopen fd entry (hle fd entry hentry hptr) hptr

/-- A change of the event source that writes its set into its entry. -/
theorem Backed.withSource (h : conn.Backed c table) {source : EventSource}
    (hfd : source.fd = conn.source.fd)
    (hsource : source.Backed c table' ∧ source.Matched c table') :
    { conn with source := source }.Backed c table' :=
  ⟨hfd.trans h.fd, hsource.1, fun _ => hsource.2⟩

theorem Ran.backed (hran : conn.Ran c table registered job effect) (hsettled : conn.Settled)
    (h : conn.Backed c table) : effect.conn.Backed c effect.epoll := by
  cases hran with
  | error => exact h.withSource EventSource.fd_disableAll h.source.disableAll
  | readEnds => exact h.withSource (EventSource.fd_disableOps _) h.source.disableOps
  | writesLast =>
      exact ⟨(EventSource.fd_disableOps _).trans h.fd, h.source.disableOps.1,
        fun _ => h.source.disableOps.2⟩
  | writesAll =>
      exact ⟨(EventSource.fd_disableOps _).trans h.fd, h.source.disableOps.1,
        fun _ => h.source.disableOps.2⟩
  | closeWaits hbytes =>
      refine ⟨h.fd, h.source, fun _ => h.mask fun hclosed => ?_⟩
      exact hasBytesToWrite_eq_true.mp hbytes (hsettled hclosed)
  | closes => exact ⟨h.fd, h.source, fun hopen => absurd rfl hopen⟩
  | forceCloses =>
      exact ⟨h.fd, ⟨fun hne => absurd rfl hne, h.source.entry⟩, fun hopen => absurd rfl hopen⟩
  | appends =>
      have hout : epollOut ≠ 0 := by decide
      have hsource := h.source.enableOps hout
      exact ⟨(EventSource.fd_enableOps _).trans h.fd, hsource.1, fun _ => hsource.2⟩
  | _ => exact ⟨h.fd, h.source, h.mask⟩

theorem backed_registerEvent {fd : ℤ} (callbacks : Callbacks)
    (h : ∀ fd entry, table fd = some entry → entry.ptr ≠ c) :
    (registerEvent fd callbacks c table).1.Backed c (registerEvent fd callbacks c table).2 := by
  have hin : epollIn ≠ 0 := by decide
  have hnew : (EventSource.new fd).Backed c table := EventSource.backed_new h
  have hsource := hnew.enableOps hin
  exact ⟨EventSource.fd_enableOps _, hsource.1, fun _ => hsource.2⟩

/-- A job leaves the entries it found, or the interest set of its connection. -/
theorem Ran.entry (h : Ran conn c table registered job effect) {fd : ℤ}
    {entry : EpollEntry ConnId} (hentry : effect.epoll fd = some entry) :
    table fd = some entry ∧ (job = .read 0 → fd ≠ conn.source.fd) ∨
      entry = ⟨effect.conn.source.interestOps, c⟩ := by
  cases h with
  | error => exact Or.inl ⟨EventSource.entry_of_disableAll hentry, by simp⟩
  | readEnds => exact (EventSource.entry_of_disableOps hentry).imp (fun h => ⟨h.1, fun _ => h.2⟩) id
  | writesLast => exact (EventSource.entry_of_disableOps hentry).imp (fun h => ⟨h.1, by simp⟩) id
  | writesAll => exact (EventSource.entry_of_disableOps hentry).imp (fun h => ⟨h.1, by simp⟩) id
  | appends => exact (EventSource.entry_of_enableOps hentry).imp (fun h => ⟨h, by simp⟩) id
  | readFails hn =>
      refine Or.inl ⟨hentry, ?_⟩
      rintro ⟨⟩
      exact absurd hn (by decide)
  | reads hn =>
      refine Or.inl ⟨hentry, ?_⟩
      rintro ⟨⟩
      exact absurd hn (by decide)
  | _ => exact Or.inl ⟨hentry, by simp⟩

theorem Ran.nonNegative (hran : conn.Ran c table registered job effect) (h : NonNegative table) :
    NonNegative effect.epoll := by
  cases hran with
  | error => exact EventSource.nonNegative_disableAll h
  | readEnds => exact EventSource.nonNegative_disableOps h _
  | writesLast => exact EventSource.nonNegative_disableOps h _
  | writesAll => exact EventSource.nonNegative_disableOps h _
  | appends => exact EventSource.nonNegative_enableOps h _
  | _ => exact h

end Connection

namespace World

variable {w w' : World τ} {action : Action τ} {c : ConnId}

/-- The connections and the entries of the table. -/
structure Backed (w : World τ) : Prop where
  conn : ∀ c conn, w.conns c = some conn → conn.Backed c w.epoll
  live : ∀ fd entry, w.epoll fd = some entry → ∃ conn, w.conns entry.ptr = some conn
  nonneg : NonNegative w.epoll

omit [DecidableEq τ] in
/-- An entry of the table leads to the connection that has its descriptor. -/
theorem Backed.of_entry (h : w.Backed) {fd : ℤ} {entry : EpollEntry ConnId}
    (hentry : w.epoll fd = some entry) :
    ∃ conn, w.conns entry.ptr = some conn ∧ conn.fd = fd := by
  obtain ⟨conn, hconn⟩ := h.live fd entry hentry
  have hbacked := h.conn entry.ptr conn hconn
  exact ⟨conn, hconn, hbacked.fd.symm.trans (hbacked.source.entry fd entry hentry rfl).1.symm⟩

omit [DecidableEq τ] in
/-- One connection changes, and only it gets entries. -/
theorem Backed.update (h : w.Backed) {value : Option Connection}
    (hconns : w'.conns = Function.update w.conns c value) (hnonneg : NonNegative w'.epoll)
    (hold : ∀ fd entry, w'.epoll fd = some entry → entry.ptr ≠ c → w.epoll fd = some entry)
    (hsome : ∀ conn, value = some conn → conn.Backed c w'.epoll)
    (hnone : value = none → ∀ fd entry, w'.epoll fd = some entry → entry.ptr ≠ c) :
    w'.Backed := by
  refine ⟨fun c' conn' hconn' => ?_, fun fd entry hentry => ?_, hnonneg⟩
  · by_cases hc : c' = c
    · subst hc
      rw [hconns, Function.update_self] at hconn'
      exact hsome conn' hconn'
    · rw [hconns, Function.update_of_ne hc] at hconn'
      exact (h.conn c' conn' hconn').mono fun fd entry hentry hptr =>
        hold fd entry hentry (hptr ▸ hc)
  · by_cases hptr : entry.ptr = c
    · cases hvalue : value with
      | none => exact absurd hptr (hnone hvalue fd entry hentry)
      | some conn => exact ⟨conn, by rw [hconns, hptr, Function.update_self, hvalue]⟩
    · rw [hconns, Function.update_of_ne hptr]
      exact h.live fd entry (hold fd entry hentry hptr)

omit [DecidableEq τ] in
theorem epoll_destroy {conn : Connection} (hconn : w.conns c = some conn) :
    (w.destroy c).epoll = closeFd (conn.source.disableAll c w.epoll).2 conn.fd := by
  simp [World.destroy, hconn]

omit [DecidableEq τ] in
theorem Backed.destroy (h : w.Backed) (c : ConnId) : (w.destroy c).Backed := by
  cases hconn : w.conns c with
  | none =>
      have hsame : w.destroy c = w := by simp [World.destroy, hconn]
      rwa [hsame]
  | some conn =>
      have hentry : ∀ fd entry, (w.destroy c).epoll fd = some entry →
          (conn.source.disableAll c w.epoll).2 fd = some entry := by
        intro fd entry hentry
        rw [epoll_destroy hconn] at hentry
        exact (closeFd_eq_some.mp hentry).2
      refine h.update (conns_destroy c) ?_ ?_ (by simp) ?_
      · exact fun fd entry he => h.nonneg fd entry (EventSource.entry_of_disableAll (hentry _ _ he))
      · exact fun fd entry he _ => EventSource.entry_of_disableAll (hentry fd entry he)
      · exact fun _ fd entry he => (h.conn c conn hconn).source.ptr_ne (hentry fd entry he)

theorem Backed.apply (h : w.Backed) {entry : Option (Posted τ Task)} {job : Job}
    {found : ConnState} {effect : Effect} {conn : Connection} {registered : Bool}
    (hconn : w.conns c = some conn) (hsettled : conn.Settled)
    (hran : conn.Ran c w.epoll registered job effect) :
    (w.apply entry c job found effect).Backed := by
  refine h.update rfl (hran.nonNegative h.nonneg) ?_ ?_ (by simp)
  · intro fd e he hptr
    rcases hran.entry he with ⟨hold, -⟩ | rfl
    · exact hold
    · exact absurd rfl hptr
  · intro conn' hconn'
    cases hconn'
    exact hran.backed hsettled (h.conn c conn hconn)

omit [DecidableEq τ] in
theorem Backed.born (h : w.Backed) (hnumbered : w.Numbered) (fd : ℤ) (callbacks : Callbacks) :
    (w.onNewConnection fd callbacks).Backed := by
  have hnew : ∀ fd entry, w.epoll fd = some entry → entry.ptr ≠ w.nextId := by
    intro fd entry hentry hptr
    obtain ⟨conn, hconn⟩ := h.live fd entry hentry
    exact Nat.lt_irrefl _ (hptr ▸ hnumbered.live _ conn hconn)
  refine h.update rfl (EventSource.nonNegative_enableOps h.nonneg _) ?_ ?_ (by simp)
  · intro fd' entry hentry hptr
    rcases EventSource.entry_of_enableOps hentry with hold | rfl
    · exact hold
    · exact absurd rfl hptr
  · intro conn hconn
    cases hconn
    exact Connection.backed_registerEvent callbacks hnew

theorem Backed.moves (h : w.Backed) (hnumbered : w.Numbered)
    (hsettled : ∀ c conn, w.conns c = some conn → conn.Settled) (hmoves : Moves w action w') :
    w'.Backed := by
  cases hmoves with
  | loop => exact ⟨h.conn, h.live, h.nonneg⟩
  | epollWait => exact ⟨h.conn, h.live, h.nonneg⟩
  | pointers => exact ⟨h.conn, h.live, h.nonneg⟩
  | destroyed =>
      apply Backed.destroy
      exact ⟨h.conn, h.live, h.nonneg⟩
  | posted => exact ⟨h.conn, h.live, h.nonneg⟩
  | @setCallbacks _ c conn callbacks hconn =>
      have hbacked := h.conn c conn hconn
      refine h.update rfl h.nonneg (fun _ _ hentry _ => hentry) ?_ (by simp)
      intro conn' hconn'
      cases hconn'
      exact ⟨hbacked.fd, hbacked.source, hbacked.mask⟩
  | fdClosed =>
      exact ⟨fun c conn hconn => (h.conn c conn hconn).mono fun fd' entry hentry _ =>
          (closeFd_eq_some.mp hentry).2,
        fun fd' entry hentry => h.live fd' entry (closeFd_eq_some.mp hentry).2,
        h.nonneg.closeFd _⟩
  | born => exact h.born hnumbered _ _
  | exec hidle hstack hjob hconn hanswers hran =>
      apply Backed.apply
      · exact ⟨h.conn, h.live, h.nonneg⟩
      · exact hconn
      · exact hsettled _ _ hconn
      · exact hran
  | call hempty hcall hnext hstep hjob hconn hanswers hran =>
      apply Backed.apply
      · exact ⟨h.conn, h.live, h.nonneg⟩
      · exact hconn
      · exact hsettled _ _ hconn
      · exact hran

/-- **In every reachable state the entries of the epoll table lead to connections
that exist and have their descriptors.** -/
theorem reach_backed {ok : World τ → Action τ → Prop} (h : machine.Reach ok w) : w.Backed := by
  refine reach_invariant Backed ?_ ?_ h
  · intro thread
    refine ⟨fun c conn hconn => ?_, fun fd entry hentry => ?_, fun fd entry hentry => ?_⟩
    · cases hconn
    · cases hentry
    · cases hentry
  · exact fun _ _ _ hreach hinv _ hmoves =>
      hinv.moves (reach_numbered hreach) (fun _ _ => reach_settled hreach) hmoves

end World

end Mutiplex
